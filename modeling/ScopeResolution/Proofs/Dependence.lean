import ScopeResolution.Proofs.Safety
import ScopeResolution.Proofs.Scoping.Alpha
import ScopeResolution.Proofs.Scoping.Coincidence

namespace ScopeResolution

open Renaming (Extent)

namespace Name

def moved (last last' : Nat) (n : Name) : Name :=
  if last < n.uid then ⟨n.symbol, last' + (n.uid - last)⟩ else n

variable {last last' : Nat}

theorem moved_of_le {n : Name} (h : n.uid ≤ last) : n.moved last last' = n :=
  if_neg (Nat.not_lt.2 h)

theorem moved_next (x : Symbol) (k : Nat) :
    moved last last' ⟨x, last + k + 1⟩ = ⟨x, last' + k + 1⟩ := by
  have newer : last < last + k + 1 := by omega
  have rest : last' + (last + k + 1 - last) = last' + k + 1 := by omega
  simp only [moved, if_pos newer, rest]

theorem equal_self (n : Name) : n.datum.Equal n.datum :=
  Datum.equal_of_essence n.regular_datum n.regular_datum rfl

theorem moved_global_equal (x : Symbol) :
    (moved last last' ⟨x, 0⟩).datum.Equal (datum ⟨x, 0⟩) := by
  have kept : moved last last' ⟨x, 0⟩ = ⟨x, 0⟩ := moved_of_le (Nat.zero_le last)
  rw [kept]
  exact equal_self _

theorem not_equal_null (n : Name) : ¬ n.datum.Equal .null := by
  simp [datum, Datum.Equal, Datum.equals, Datum.compare, Datum.tupleItems?]

theorem not_null_equal (n : Name) : ¬ Datum.null.Equal n.datum := by
  simp [datum, Datum.Equal, Datum.equals, Datum.compare]

end Name

theorem Slot.IssuedBy.exists_name {last : Nat} {s : Slot} (h : s.IssuedBy last)
    (regular : s.under.datum.regular = true) : ∃ n : Name, n.datum = s.value ∧ n.uid ≤ last := by
  obtain ⟨k, uid, taken, named, same⟩ := h
  have symbol : k.datum.regular = true := by
    rw [← Datum.regular_key _ k.key_eq, ← same, Datum.regular_key _ s.under.key_eq, regular]
  exact ⟨⟨⟨k, symbol⟩, uid⟩, named.symm, taken⟩

theorem Slot.mem_of_held {e : Essence} {slots : List Slot} {v : Datum}
    (h : held e slots = some v) : ∃ s ∈ slots, s.value = v ∧ s.under.datum.essence = e := by
  induction slots with
  | nil => cases h
  | cons s rest ih =>
      rw [held] at h
      split at h
      · exact ⟨s, List.mem_cons_self, Option.some.inj h, ‹_›⟩
      · obtain ⟨t, mem, found⟩ := ih h
        exact ⟨t, List.mem_cons_of_mem s mem, found⟩

/-- Both resolvers rename the tree and take as many numbers. With those that the first has taken
counted on from where the second stood, the results are alike, and equal if the data that the tree
carries along equal themselves. -/
def Phrase.RenamedAlike {category : Category} (t : Phrase Symbol (.one category))
    (extent extent' : Extent) (r r' : Resolver) : Prop :=
  ∃ (u u' : Phrase Name (.one category)) (s s' : Resolver) (k : Nat),
    r.rename extent t.datum = (.ok u.datum, s) ∧ r'.rename extent' t.datum = (.ok u'.datum, s') ∧
    s.counter = r.counter + k ∧ s'.counter = r'.counter + k ∧
    u.Like (fun n n' => (n.moved r.counter r'.counter).datum.Equal n'.datum) Eq u' ∧
    ((∀ v ∈ t.carried, v.freeze.Equal v.freeze) →
      (u.map (Name.moved r.counter r'.counter) id).datum.Equal u'.datum)

def Module.RenamedAlike (m : Module Symbol) (r r' : Resolver) : Prop :=
  ∃ (u u' : Module Name) (s s' : Resolver) (k : Nat),
    r.rename .module m.datum = (.ok u.datum, s) ∧ r'.rename .module m.datum = (.ok u'.datum, s') ∧
    s.counter = r.counter + k ∧ s'.counter = r'.counter + k ∧
    u.Like (fun n n' => (n.moved r.counter r'.counter).datum.Equal n'.datum) Eq u' ∧
    ((∀ v ∈ m.carried, v.freeze.Equal v.freeze) →
      (u.map (Name.moved r.counter r'.counter) id).datum.Equal u'.datum)

namespace Resolver

structure Ready (r : Resolver) : Prop where
  settled : r.settings = (none, .unbounded)
  issued : r.Issued

namespace Ready

variable {r r' : Resolver}

theorem initial : Resolver.initial.Ready := by
  refine ⟨rfl, fun d hd s hs => ?_⟩
  rw [List.mem_singleton.1 hd] at hs
  cases hs

theorem enter (h : r.Ready) : r.enter.Ready := by
  refine ⟨h.settled, fun d hd s hs => ?_⟩
  rcases List.mem_cons.1 hd with rfl | outer
  · cases hs
  · exact h.issued d outer s hs

theorem exit (h : r.Ready) : r.exit.2.Ready := by
  refine ⟨r.settings_exit.trans h.settled, ?_⟩
  unfold Resolver.exit
  split
  case h_1 => exact h.issued
  case h_2 scopes left =>
    intro d hd s hs
    have outer : d ∈ r.scopes.outer := Scopes.outer_of_exit? left ▸ hd
    exact h.issued d (List.mem_cons_of_mem _ outer) s hs

theorem of_secures (h : r.Ready) (secures : r.Secures r') : r'.Ready :=
  ⟨secures.settings.trans h.settled, secures.issued h.issued⟩

end Ready

def AgreesOn (r : Resolver) (xs : List Symbol) (r' : Resolver) : Prop :=
  ∀ x ∈ xs, ∃ v v', r.lookup x.datum = .ok v ∧ r'.lookup x.datum = .ok v' ∧ v.Equal v'

theorem Ready.exists_shows {r : Resolver} (h : r.Ready) :
    ∃ c, r.Shows c ∧ ∀ x, (c.nameOf x).uid ≤ c.last := by
  have each (e : Essence) : ∃ o : Option Name,
      (e.regular = true → r.scopes.held e = o.map Name.datum) ∧ ∀ n ∈ o, n.uid ≤ r.counter := by
    by_cases regular : e.regular = true
    · cases held : r.scopes.held e with
      | none => exact ⟨none, fun _ => rfl, fun _ mem => nomatch mem⟩
      | some v =>
          obtain ⟨d, hd, found⟩ := List.exists_of_findSome?_eq_some held
          obtain ⟨s, hs, rfl, rfl⟩ := Slot.mem_of_held found
          rw [Datum.regular_essence] at regular
          obtain ⟨n, same, taken⟩ := (h.issued d hd s hs).exists_name regular
          refine ⟨some n, fun _ => congrArg some same.symm, fun m mem => ?_⟩
          cases mem
          exact taken
    · exact ⟨none, fun other => absurd other regular, fun _ mem => nomatch mem⟩
  choose bound same taken using each
  let c : Context := ⟨bound, r.counter⟩
  have held (x : Symbol) : r.scopes.held x.essence = (c.bound x.essence).map Name.datum :=
    same x.essence ((Datum.regular_essence _).trans x.regular)
  refine ⟨c, ⟨congrArg Prod.fst h.settled, rfl, congrArg Prod.snd h.settled, held⟩, fun x => ?_⟩
  cases meant : c.bound x.essence with
  | none =>
      rw [Context.nameOf, meant]
      exact Nat.zero_le _
  | some n =>
      rw [Context.nameOf_of_bound meant]
      exact taken x.essence n meant

namespace Shows

variable {r r' : Resolver} {c c' : Context} {extent : Extent}

theorem agrees {xs : List Symbol} (h : r.Shows c) (h' : r'.Shows c')
    (taken : ∀ x, (c.nameOf x).uid ≤ c.last) (agree : r.AgreesOn xs r') :
    Context.Agrees (fun n n' => (n.moved r.counter r'.counter).datum.Equal n'.datum)
      (xs.map Symbol.essence) c c' := by
  rw [h.counter, h'.counter]
  refine ⟨fun x k => ?_, fun x hx => ?_⟩
  · rw [Name.moved_next]
    exact Name.equal_self _
  · obtain ⟨y, hy, same⟩ := List.mem_map.1 hx
    obtain ⟨v, v', found, found', equal⟩ := agree y hy
    rw [h.lookup, Except.ok.injEq] at found
    rw [h'.lookup, Except.ok.injEq] at found'
    rw [Name.moved_of_le (taken x), Context.nameOf, Context.nameOf, ← same]
    subst found found'
    cases bound : c.bound y.essence <;> cases bound' : c'.bound y.essence <;>
      rw [bound, bound'] at equal
    case none.none => exact Name.equal_self _
    case none.some => exact absurd equal (Name.not_null_equal _)
    case some.none => exact absurd equal (Name.not_equal_null _)
    case some.some => exact equal

theorem rename {category : Category} (h : r.Shows c) (covers : extent.Covers category)
    (t : Phrase Symbol (.one category)) : ∃ s, r.rename extent t.datum =
      (.ok (t.resolve c).1.datum, s) ∧ s.counter = r.counter + t.scoping.count := by
  obtain ⟨s, renamed, _, shown⟩ := t.refined extent covers c r h
  refine ⟨s, (r.rename_eq_recurse extent _).trans renamed, ?_⟩
  rw [shown.counter, t.last_resolve, h.counter]

theorem rename_module (h : r.Shows c) (m : Module Symbol) : ∃ s, r.rename .module m.datum =
      (.ok (m.resolve c).1.datum, s) ∧ s.counter = r.counter + (m.scoping.count + 1) := by
  obtain ⟨s, renamed, _, shown⟩ := m.renames c r h
  refine ⟨s, (r.rename_eq_recurse .module _).trans renamed, ?_⟩
  rw [shown.counter, m.last_resolve, h.counter, Nat.add_assoc]

theorem renamedAlike {extent' : Extent} {category : Category} (h : r.Shows c) (h' : r'.Shows c')
    (taken : ∀ x, (c.nameOf x).uid ≤ c.last) (covers : extent.Covers category)
    (covers' : extent'.Covers category) (t : Phrase Symbol (.one category))
    (agree : r.AgreesOn t.free r') : t.RenamedAlike extent extent' r r' := by
  obtain ⟨s, renamed, counted⟩ := h.rename covers t
  obtain ⟨s', renamed', counted'⟩ := h'.rename covers' t
  have agrees := h.agrees h' taken agree
  have free : ∀ x ∈ t.free, x.essence ∈ t.free.map Symbol.essence :=
    fun _ hx => List.mem_map_of_mem hx
  refine ⟨_, _, s, s', _, renamed, renamed', counted, counted', ?_, fun keeps => ?_⟩
  · exact t.like_of_agrees Name.moved_global_equal agrees free nofun fun _ _ => rfl
  · have like := t.like_of_agrees Name.moved_global_equal agrees free nofun keeps
    have equal := (Phrase.agree_reduces partwise_equal (Name.moved _ _) id _ _).intro like
    rwa [Phrase.map_id] at equal

theorem renamedAlike_module (h : r.Shows c) (h' : r'.Shows c')
    (taken : ∀ x, (c.nameOf x).uid ≤ c.last) (m : Module Symbol) (agree : r.AgreesOn m.free r') :
    m.RenamedAlike r r' := by
  obtain ⟨s, renamed, counted⟩ := h.rename_module m
  obtain ⟨s', renamed', counted'⟩ := h'.rename_module m
  have agrees := h.agrees h' taken agree
  have free : ∀ x ∈ m.free, x.essence ∈ m.free.map Symbol.essence :=
    fun _ hx => List.mem_map_of_mem hx
  refine ⟨_, _, s, s', _, renamed, renamed', counted, counted', ?_, fun keeps => ?_⟩
  · exact m.like_of_agrees Name.moved_global_equal agrees free fun _ _ => rfl
  · have like := m.like_of_agrees Name.moved_global_equal agrees free keeps
    have equal := Module.equal_of_like partwise_equal (Name.moved _ _) id like
    rwa [Module.map_id] at equal

end Shows

end Resolver

namespace Session

def Step.Naming : Step → Prop
  | .insert _ _ => False
  | .pin _ => False
  | .within steps _ => all steps
  | _ => True
where
  all : List Step → Prop
    | [] => True
    | s :: ss => s.Naming ∧ all ss

theorem invariant_ready : Invariant Step.Naming Step.Naming.all Resolver.Ready where
  block := id
  cons := id
  enter := .enter
  exit := .exit
  insert naming := naming.elim
  pin naming := naming.elim
  secures moves h := h.of_secures moves

def Reaches (extent : Extent) (r : Resolver) : Prop :=
  ∃ steps, Step.Naming.all steps ∧ (run.runAll extent steps .initial).2 = r

theorem Reaches.ready {extent : Extent} {r : Resolver} (h : Reaches extent r) : r.Ready := by
  obtain ⟨steps, naming, rfl⟩ := h
  exact invariant_ready.runAll extent steps naming .initial .initial

/-- Resolvers that steps which only name things lead to, and that find equal values for the free
symbols of a tree, rename it alike, whatever else they hold. -/
theorem rename_coincides {extent extent' : Extent} {r r' : Resolver} (reached : Reaches extent r)
    (reached' : Reaches extent' r') :
    (∀ (category : Category) (t : Phrase Symbol (.one category)), extent.Covers category →
      extent'.Covers category → r.AgreesOn t.free r' → t.RenamedAlike extent extent' r r') ∧
    ∀ m : Module Symbol, extent = .module → extent' = .module → r.AgreesOn m.free r' →
      m.RenamedAlike r r' := by
  obtain ⟨c, shown, taken⟩ := reached.ready.exists_shows
  obtain ⟨c', shown', _⟩ := reached'.ready.exists_shows
  refine ⟨fun category t covers covers' agree => ?_, fun m _ _ agree => ?_⟩
  · exact shown.renamedAlike shown' taken covers covers' t agree
  · exact shown.renamedAlike_module shown' taken m agree

def nestedSteps : List Step :=
  [.fresh (.int 1), .enter, .fresh (.text "y"), .fresh (.text "z")]

def flatSteps : List Step :=
  [.exit, .fresh (.bool true), .within [.fresh (.text "y")] none]

def shadowing : Phrase Symbol (.one .expression) :=
  let y := Symbol.ofText "y"
  .lambda y (.apply (.reference (.ofInt 1)) (.reference y))

def shadowingModule : Module Symbol where
  name := .ofText "m"
  classes := .null
  definitions := .nil .definition
  declared := .null
  bindings := .declaration (.ofText "f") shadowing .null (.int 0) .noDeclaration
  instances := .nil .instanceOf

theorem shadowing_coincides :
    let r := (run.runAll .module nestedSteps .initial).2
    let r' := (run.runAll .module flatSteps .initial).2
    r.lookup (.text "y") = .ok (.name (.text "y") (.int 3)) ∧ r'.lookup (.text "y") = .ok .null ∧
      shadowing.RenamedAlike .module .module r r' ∧ shadowingModule.RenamedAlike r r' := by
  intro r r'
  have equal : (Datum.name (.int 1) (.int 2)).Equal (.name (.bool true) (.int 2)) :=
    Datum.equal_of_essence rfl rfl rfl
  have agree : r.AgreesOn [.ofInt 1] r' :=
    List.forall_mem_singleton.2 ⟨_, _, rfl, rfl, equal⟩
  have reached : Reaches .module r :=
    ⟨nestedSteps, ⟨trivial, trivial, trivial, trivial, trivial⟩, rfl⟩
  have reached' : Reaches .module r' :=
    ⟨flatSteps, ⟨trivial, trivial, ⟨trivial, trivial⟩, trivial⟩, rfl⟩
  have both := rename_coincides reached reached'
  exact ⟨rfl, rfl, both.1 .expression shadowing trivial trivial agree,
    both.2 shadowingModule rfl rfl agree⟩

end Session

end ScopeResolution
