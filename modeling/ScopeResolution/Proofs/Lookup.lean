import Mathlib.Data.List.Forall2
import ScopeResolution.Proofs.Dictionary.Apart
import ScopeResolution.Proofs.Growth
import ScopeResolution.Proofs.History

namespace ScopeResolution

theorem Slot.retrieve_congr {k l : Keyed} {slots : List Slot}
    (h : ∀ s ∈ slots, s.under.meets k = s.under.meets l) : retrieve k slots = retrieve l slots := by
  induction slots with
  | nil => rfl
  | cons s rest ih =>
      rw [List.forall_mem_cons] at h
      rw [retrieve, retrieve, h.1, ih h.2]

namespace Dictionary

variable {K : Keyed → Prop}

structure Holds (K : Keyed → Prop) (d : Dictionary) (held : Keyed → Option Datum) : Prop where
  keyed : ∀ s ∈ d.toList, K s.under
  gives : ∀ {k}, K k → d.get? k = .ok (held k)

theorem holds_empty (K : Keyed → Prop) : Holds K empty fun _ => none :=
  ⟨List.forall_mem_nil _, fun _ => rfl⟩

theorem Holds.settle {d : Dictionary} {held : Keyed → Option Datum} (h : d.Holds K held)
    (lawful : Keyed.Lawful K) {k : Keyed} (own : K k) :
    ∃ site, d.site k = .ok site ∧
      ∀ v, (d.settle site v).Holds K fun l => if k.same l then some v else held l := by
  cases place : d.place? k with
  | error fault =>
      have found := h.gives own
      rw [get?, place] at found
      cases found
  | ok place? =>
      have placed : d.site k = .ok ⟨k, place?⟩ := by rw [site, place]; rfl
      refine ⟨_, placed, fun v => ?_⟩
      have put : d.put k v = .ok (d.settle ⟨k, place?⟩ v) := by rw [Dictionary.put, placed]; rfl
      have keyed : ∀ s ∈ (d.settle ⟨k, place?⟩ v).toList, K s.under := by
        intro s hs
        have mem : s.under ∈ (d.settle ⟨k, place?⟩ v).keys := List.mem_map_of_mem hs
        have old : ∀ l ∈ d.keys, K l := List.forall_mem_map.2 h.keyed
        rw [keys_settle] at mem
        split at mem
        · exact old _ mem
        · exact List.forall_mem_append.2 ⟨old, List.forall_mem_singleton.2 own⟩ _ mem
      refine ⟨keyed, fun {l} hl => ?_⟩
      -- an equal symbol meets the slots that this one meets, any other meets none of them
      split
      case isTrue same =>
        have met : ∀ s ∈ (d.settle ⟨k, place?⟩ v).toList, s.under.meets l = s.under.meets k := by
          intro s hs
          have under := keyed s hs
          rw [lawful.meets_eq under hl, lawful.meets_eq under own,
            lawful.same_congr under own hl same]
        rw [get?_eq, Slot.retrieve_congr met, ← get?_eq]
        exact get?_of_put_self put
      case isFalse apart =>
        rw [get?_of_put_apart put, h.gives hl]
        · intro s hs met
          have under := h.keyed s hs
          rw [lawful.meets_eq under own, Except.ok.injEq] at met
          rw [lawful.meets_eq under hl]
          refine congrArg _ (Bool.eq_false_iff.2 fun other => apart ?_)
          exact lawful.trans own under hl (lawful.symm under own met) other
        · rw [lawful.meets_eq own hl, Bool.eq_false_iff.2 apart]

end Dictionary

theorem Scopes.siteOf_of_unkeyed {s : Scopes} {symbol : Datum} {fault : Fault}
    (unkeyed : symbol.keyed = .error fault) : s.siteOf symbol = .error fault := by
  rw [siteOf, Dictionary.siteOf, unkeyed]
  rfl

theorem Scopes.find?_of_holds {K : Keyed → Prop} {s : Keyed} (sought : K s)
    {held : Nat → Keyed → Option Datum} {ns : List Nat} {ds : List Dictionary}
    (h : List.Forall₂ (fun n d => d.Holds K (held n)) ns ds) :
    find? s ds = .ok (ns.findSome? fun n => held n s) := by
  induction h with
  | nil => rfl
  | @cons n d ns ds first _ ih =>
      rw [find?, first.gives sought, List.findSome?_cons]
      cases held n s with
      | none => exact ih
      | some v => rfl

namespace Resolver

def perform (r : Resolver) : Operation → Resolver
  | .enter => r.enter
  | .exit => r.exit.2
  | .insert symbol value => (r.insert symbol value).2
  | .fresh symbol => (r.freshName symbol).2

def after (ops : List Operation) (r : Resolver) : Resolver :=
  ops.foldl perform r

structure Follows (K : Keyed → Prop) (r : Resolver) (h : History) : Prop where
  unpinned : r.supply.pinned = none
  counter : r.counter = h.taken
  frames : List.Forall₂ (fun n d => d.Holds K fun s => (h.latestIn s n).map (·.value))
    h.opened r.scopes.frames

variable {K : Keyed → Prop} {r : Resolver} {h : History}

theorem follows_initial (K : Keyed → Prop) : initial.Follows K .initial :=
  ⟨rfl, rfl, .cons (Dictionary.holds_empty K) .nil⟩

theorem frames_exit {R : Nat → Dictionary → Prop}
    (related : List.Forall₂ R h.opened r.scopes.frames) :
    List.Forall₂ R (h.step .exit).opened r.exit.2.scopes.frames := by
  have outer := (List.forall₂_cons.1 related).2
  rw [Resolver.exit]
  cases left : r.scopes.exit? with
  | none =>
      have outermost : r.scopes.outer = [] := by
        rw [Scopes.exit?_eq_none_iff, r.scopes.depth_eq] at left
        exact List.length_eq_zero_iff.1 left
      rw [outermost, List.forall₂_nil_right_iff] at outer
      rwa [History.step_exit_outermost outer]
  | some scopes =>
      rw [Scopes.outer_of_exit? left] at outer
      cases around : h.around with
      | nil =>
          rw [around] at outer
          cases outer
      | cons n rest =>
          rw [around] at outer
          rw [History.step_exit_of_around around]
          exact outer

namespace Follows

theorem enter (follows : r.Follows K h) (ordered : h.Ordered) :
    r.enter.Follows K (h.step .enter) := by
  refine ⟨follows.unpinned, follows.counter, .cons ?_ follows.frames⟩
  have unused : ∀ s, h.latestIn s (h.entered + 1) = none := by
    refine fun s => List.find?_eq_none.2 fun e he => ?_
    have numbered := ordered.numbered e he
    simp [(Nat.lt_succ_of_le numbered).ne]
  show Dictionary.Holds K .empty fun s => (h.latestIn s (h.entered + 1)).map (·.value)
  simp only [unused]
  exact Dictionary.holds_empty K

theorem exit (follows : r.Follows K h) : r.exit.2.Follows K (h.step .exit) := by
  have supply : r.exit.2.supply = r.supply := by
    rw [Resolver.exit]
    split <;> rfl
  refine ⟨?_, ?_, ?_⟩
  · rw [supply]
    exact follows.unpinned
  · rw [Resolver.counter, supply, h.step_exit_keeps.2]
    exact follows.counter
  · have frames := frames_exit follows.frames
    simpa only [History.latestIn, h.step_exit_keeps.1] using frames

theorem settle (follows : r.Follows K h) (ordered : h.Ordered) (lawful : Keyed.Lawful K)
    {symbol : Datum} {k : Keyed} (keyed : symbol.keyed = .ok k) (own : K k) :
    ∃ site, r.scopes.siteOf symbol = .ok site ∧ ∀ value,
      List.Forall₂ (fun n d => d.Holds K fun s => ((h.add k value).latestIn s n).map (·.value))
        h.opened (r.scopes.settle site value).frames := by
  obtain ⟨inner, outer⟩ := List.forall₂_cons.1 follows.frames
  obtain ⟨site, placed, settled⟩ := inner.settle lawful own
  refine ⟨site, ?_, fun value => .cons ?_ ?_⟩
  · rw [Scopes.siteOf, Dictionary.siteOf, keyed]
    exact placed
  · simp only [History.latestIn_add_self]
    exact settled value
  · have apart : ∀ n ∈ h.around, n ≠ h.scope := fun n hn =>
      (List.rel_of_pairwise_cons ordered.inward hn).ne
    refine ((List.forall₂_and_left _ _).2 ⟨apart, outer⟩).imp fun n d holds => ?_
    simp only [History.latestIn_add_of_ne holds.1]
    exact holds.2

theorem insert (follows : r.Follows K h) (ordered : h.Ordered) (lawful : Keyed.Lawful K)
    {symbol : Datum} (own : ∀ k, symbol.keyed = .ok k → K k) (value : Datum) :
    (r.insert symbol value).2.Follows K (h.record symbol value) := by
  rw [Resolver.insert]
  cases keyed : symbol.keyed with
  | error fault =>
      rw [Scopes.siteOf_of_unkeyed keyed, History.record_of_unkeyed keyed]
      exact follows
  | ok k =>
      obtain ⟨site, placed, settled⟩ := follows.settle ordered lawful keyed (own k keyed)
      rw [placed, History.record_of_keyed keyed]
      exact ⟨follows.unpinned, follows.counter, settled value⟩

theorem fresh (follows : r.Follows K h) (ordered : h.Ordered) (lawful : Keyed.Lawful K)
    {symbol : Datum} (own : ∀ k, symbol.keyed = .ok k → K k) :
    (r.freshName symbol).2.Follows K (h.step (.fresh symbol)) := by
  have counted : r.counter + 1 = h.taken + 1 := congrArg (· + 1) follows.counter
  rw [History.step]
  cases keyed : symbol.keyed with
  | error fault =>
      rw [freshName_of_unplaced follows.unpinned (Scopes.siteOf_of_unkeyed keyed),
        History.record_of_unkeyed keyed]
      exact ⟨follows.unpinned, counted, follows.frames⟩
  | ok k =>
      obtain ⟨site, placed, settled⟩ := follows.settle ordered lawful keyed (own k keyed)
      obtain ⟨_, scopes, supply, _⟩ := freshName_of_placed follows.unpinned placed
      rw [History.record_of_keyed keyed]
      refine ⟨?_, ?_, ?_⟩
      · rw [supply]
        exact follows.unpinned
      · rw [Resolver.counter, supply]
        exact counted
      · rw [scopes, nextName, counted]
        exact settled _

theorem perform (follows : r.Follows K h) (ordered : h.Ordered) (lawful : Keyed.Lawful K)
    {op : Operation} (own : op.Within K) : (r.perform op).Follows K (h.step op) := by
  cases op with
  | enter => exact follows.enter ordered
  | exit => exact follows.exit
  | insert symbol value => exact follows.insert ordered lawful (own symbol rfl) value
  | fresh symbol => exact follows.fresh ordered lawful (own symbol rfl)

theorem after (follows : r.Follows K h) (ordered : h.Ordered) (lawful : Keyed.Lawful K)
    {ops : List Operation} (own : ∀ op ∈ ops, op.Within K) :
    (r.after ops).Follows K (h.after ops) := by
  induction ops generalizing r h with
  | nil => exact follows
  | cons op ops ih =>
      rw [List.forall_mem_cons] at own
      exact ih (follows.perform ordered lawful own.1) (ordered.step op) own.2

theorem lookup (follows : r.Follows K h) (ordered : h.Ordered) {s : Keyed} (sought : K s) :
    r.lookup s.datum = .ok (h.lookup s) := by
  have found := Scopes.find?_of_holds sought follows.frames
  rw [Resolver.lookup, Scopes.lookup, Scopes.getOr, s.keyed_datum, History.lookup,
    ordered.latest_eq, List.map_findSome?]
  exact congrArg (· >>= fun found => pure (found.getD .null)) found

end Follows

theorem after_append (ops ops' : List Operation) (r : Resolver) :
    r.after (ops ++ ops') = (r.after ops).after ops' :=
  List.foldl_append

/-- After any operations, failed ones included, a lookup gives the latest binding of an equal symbol
whose scope has not been left. So leaving a scope brings back what was found before it was entered,
and as long as the scope of a binding is not left, no earlier one of an equal symbol is found. -/
theorem lookup_after {K : Keyed → Prop} (lawful : Keyed.Lawful K) {ops : List Operation}
    (own : ∀ op ∈ ops, op.Within K) {s : Keyed} (sought : K s) :
    (initial.after ops).lookup s.datum = .ok ((History.initial.after ops).lookup s) ∧
      (∀ inner : List Operation, (∀ op ∈ inner, op.Within K) →
        Operation.pending inner 0 = some 0 →
        (initial.after (ops ++ .enter :: inner ++ [.exit])).lookup s.datum =
          (initial.after ops).lookup s.datum) ∧
      ∀ (op : Operation) (inner : List Operation) (k : Keyed) (m : Nat),
        (∀ op' ∈ op :: inner, op'.Within K) → op.symbol? = some k.datum → k.same s = true →
        Operation.pending inner 0 = some m →
        ∃ newer, (History.initial.after (ops ++ op :: inner)).entries =
            newer ++ (History.initial.after ops).entries ∧
          ∃ e ∈ newer, e.symbol.same s = true ∧
            (initial.after (ops ++ op :: inner)).lookup s.datum = .ok e.value := by
  have told {ops' : List Operation} (own' : ∀ op ∈ ops', op.Within K) :
      (initial.after ops').lookup s.datum = .ok ((History.initial.after ops').lookup s) :=
    ((follows_initial K).after History.ordered_initial lawful own').lookup
      (History.ordered_initial.after ops') sought
  have ordered := History.ordered_initial.after ops
  refine ⟨told own, fun inner own' closed => ?_, fun op inner k m own' binds same stays => ?_⟩
  · have own₂ : ∀ op ∈ ops ++ .enter :: inner ++ [.exit], op.Within K := by
      refine List.forall_mem_append.2 ⟨List.forall_mem_append.2 ⟨own, ?_⟩, ?_⟩
      · exact List.forall_mem_cons.2 ⟨fun _ none => (nomatch none), own'⟩
      · exact List.forall_mem_singleton.2 fun _ none => (nomatch none)
    have reappears : (History.initial.after (ops ++ .enter :: inner ++ [.exit])).latest s =
        (History.initial.after ops).latest s := by
      rw [History.after_append, History.after_append]
      exact ordered.latest_of_left closed s
    rw [told own₂, told own, History.lookup, History.lookup, reappears]
  · obtain ⟨newer, entries, e, mem, equal, found⟩ := ordered.latest_of_pending binds same stays
    have run : History.initial.after (ops ++ op :: inner) =
        (((History.initial.after ops).step op).after inner) := History.after_append _ _ _
    refine ⟨newer, by rw [run, entries], e, mem, equal, ?_⟩
    rw [told (List.forall_mem_append.2 ⟨own, own'⟩), run, History.lookup, found]
    rfl

def one : Keyed :=
  ⟨.int 1, .ofInt 1, rfl⟩

def yes : Keyed :=
  ⟨.bool true, .ofInt 1, rfl⟩

def failingFirst : List Operation :=
  [.exit, .insert (.list []) .null, .insert one.datum (.text "outer")]

def nested : List Operation :=
  [.fresh yes.datum, .enter, .insert (.text "") .null, .exit]

theorem crossTyped_lookup_after :
    (initial.after failingFirst).lookup one.datum = .ok (.text "outer") ∧
      (initial.after (failingFirst ++ .enter :: nested ++ [.exit])).lookup one.datum =
        .ok (.text "outer") ∧
      ∃ newer, (History.initial.after (failingFirst ++ .fresh yes.datum :: [.enter])).entries =
          newer ++ (History.initial.after failingFirst).entries ∧
        ∃ e ∈ newer, e.symbol.same one = true ∧
          (initial.after (failingFirst ++ .fresh yes.datum :: [.enter])).lookup one.datum =
            .ok e.value := by
  let K : Keyed → Prop := fun k => k.datum.regular = true
  have own (ops : List Operation)
      (h : ∀ op ∈ ops, ∀ symbol ∈ op.symbol?, ∀ k, symbol.keyed = .ok k → symbol.regular = true) :
      ∀ op ∈ ops, op.Within K := by
    intro op mem symbol named k keyed
    have regular := h op mem symbol named k keyed
    rwa [← Datum.datum_of_keyed keyed] at regular
  have before : ∀ op ∈ failingFirst, op.Within K := by
    refine own failingFirst ?_
    simp [failingFirst, Operation.symbol?, one, Datum.regular, Datum.regular.all]
  have within : ∀ op ∈ nested, op.Within K := by
    refine own nested ?_
    simp [nested, Operation.symbol?, yes, Datum.regular]
  obtain ⟨now, reappears, shadowed⟩ := lookup_after Keyed.lawful_regular before (s := one) rfl
  refine ⟨now, (reappears nested within rfl).trans now,
    shadowed (.fresh yes.datum) [.enter] yes 1 (own _ ?_) rfl rfl rfl⟩
  simp [Operation.symbol?, yes, Datum.regular]

theorem selective_lookup :
    let first := Datum.selective "b" 0 0 1
    let second := Datum.selective "c" 0 1 0
    let ops := [Operation.insert first (.int 1), .insert second (.int 2)]
    ∃ sought : Keyed, second.equals sought.datum = .ok true ∧
      sought.datum.equals second = .ok true ∧ first.equals second = .ok false ∧
      (initial.after ops).lookup sought.datum = .ok (.int 1) ∧
      (History.initial.after ops).lookup sought = .int 2 :=
  ⟨⟨.selective "a" 0 0 0, .node selectiveKind.tag [.ofInt 0], rfl⟩, rfl, rfl, rfl, rfl, rfl⟩

end Resolver

end ScopeResolution
