import ScopeResolution.Proofs.Dependence
import ScopeResolution.Proofs.Phrase.Reading

namespace ScopeResolution

open Traversal
open Renaming (Extent)
open Resolver (Call Asked)

namespace Session

structure Moment where
  step : Step
  before : Resolver

namespace Moment

def after (extent : Extent) (m : Moment) : Resolver :=
  (run extent m.step m.before).2

def calls (extent : Extent) : Moment → List Call
  | ⟨.fresh symbol, r⟩ => [(r, Resolver.freshName symbol)]
  | ⟨.rename tree, r⟩ => Effect.acts ((Renaming.visitor extent).effects tree r) r
  | _ => []

/-- What there is to be seen after the step: what the scopes hold, a name that it returns, and what
the tree bears that it makes of a well-formed one. -/
inductive Shows (extent : Extent) (m : Moment) : Datum → Prop where
  | held {d : Dictionary} {s : Slot} (frame : d ∈ (m.after extent).scopes.frames)
      (slot : s ∈ d.toList) : Shows extent m s.value
  | fresh {symbol v : Datum} (step : m.step = .fresh symbol)
      (made : (m.before.freshName symbol).1 = .ok v) : Shows extent m v
  | nameOf {symbol v : Datum} (step : m.step = .nameOf symbol)
      (found : m.before.nameOf symbol = .ok v) : Shows extent m v
  | borne {tree v x : Datum} (step : m.step = .rename tree) (formed : tree.WellFormed)
      (renamed : (m.before.rename extent tree).1 = .ok v) (bears : v.Bears x) : Shows extent m x

structure Extends (extent : Extent) (m : Moment) (l l' : List Datum) : Prop where
  asked : Asked l (m.calls extent) l'
  after : (m.after extent).Ledger l'
  reads : ∀ tree v, m.step = .rename tree → tree.WellFormed →
    (m.before.rename extent tree).1 = .ok v → v.Reads Mark
  told : ∀ v, m.Shows extent v → ∃ n : Mark, v = n.datum ∧ n.Told l'

end Moment

mutual

def moments (extent : Extent) : Step → Resolver → List Moment
  | .within steps raises, r => momentsAll extent steps r.enter ++ [⟨.within steps raises, r⟩]
  | s, r => [⟨s, r⟩]

def momentsAll (extent : Extent) : List Step → Resolver → List Moment
  | [], _ => []
  | s :: ss, r => moments extent s r ++ match run extent s r with
      | (.error _, _) => []
      | (.ok _, r') => momentsAll extent ss r'

end

def history (extent : Extent) : List Step → Resolver → List Moment
  | [], _ => []
  | s :: ss, r => moments extent s r ++ history extent ss (run extent s r).2

def calls (extent : Extent) (ms : List Moment) : List Call :=
  ms.flatMap (Moment.calls extent)

/-- Moments each of which extends the ledger that those before it left. -/
inductive Chronicle (extent : Extent) : List Datum → List Moment → List Datum → Prop where
  | nil (l : List Datum) : Chronicle extent l [] l
  | cons {l l' l'' : List Datum} {m : Moment} {ms : List Moment} (first : m.Extends extent l l')
      (rest : Chronicle extent l' ms l'') : Chronicle extent l (m :: ms) l''

namespace Chronicle

variable {extent : Extent} {l l' l'' : List Datum} {m : Moment} {ms ns : List Moment}

theorem append (h : Chronicle extent l ms l') (k : Chronicle extent l' ns l'') :
    Chronicle extent l (ms ++ ns) l'' := by
  induction h with
  | nil => exact k
  | cons first _ ih => exact .cons first (ih k)

theorem asked (h : Chronicle extent l ms l') : Asked l (calls extent ms) l' := by
  induction h with
  | nil l => exact .nil l
  | cons first _ ih => exact first.asked.append ih

theorem split (h : Chronicle extent l (ms ++ m :: ns) l'') :
    ∃ l₁ l', m.Extends extent l₁ l' ∧ Asked l (calls extent (ms ++ [m])) l' ∧ l' <+: l'' := by
  induction ms generalizing l with
  | nil =>
      cases h with
      | cons first rest =>
          have alone : Chronicle extent l [m] _ := .cons first (.nil _)
          exact ⟨l, _, first, alone.asked, rest.asked.grown⟩
  | cons k ms ih =>
      cases h with
      | cons first rest =>
          obtain ⟨l₁, l', own, asked, grown⟩ := ih rest
          exact ⟨l₁, l', own, first.asked.append asked, grown⟩

end Chronicle

def Step.Silent : Step → Prop
  | .fresh _ => False
  | .nameOf _ => False
  | .rename _ => False
  | _ => True

section Extends

variable {extent : Extent} {r : Resolver} {l : List Datum}

theorem Moment.held_told {m : Moment} (after : (m.after extent).Ledger l) {d : Dictionary}
    {s : Slot} (frame : d ∈ (m.after extent).scopes.frames) (slot : s ∈ d.toList) :
    ∃ n : Mark, s.value = n.datum ∧ n.Told l := by
  obtain ⟨n, value, issued⟩ := after.held d frame s slot
  exact ⟨n, value, .inr issued⟩

theorem extends_of_silent {s : Step} (silent : s.Silent)
    (after : (Moment.after extent ⟨s, r⟩).Ledger l) : Moment.Extends extent ⟨s, r⟩ l l := by
  refine ⟨?_, after, ?_, fun v shows => ?_⟩
  · cases s with
    | fresh | nameOf | rename => exact silent.elim
    | _ => exact .nil l
  · rintro tree v rfl
    exact silent.elim
  · cases shows with
    | held frame slot => exact Moment.held_told after frame slot
    | fresh step | nameOf step | borne step =>
        cases step
        exact silent.elim

theorem extends_fresh (told : r.Ledger l) (symbol : Datum) :
    Moment.Extends extent ⟨.fresh symbol, r⟩ l (l ++ [symbol]) := by
  obtain ⟨after, made⟩ := told.freshName symbol
  have same : Moment.after extent ⟨.fresh symbol, r⟩ = (r.freshName symbol).2 := by
    rw [Moment.after, run, report_snd]
    rfl
  rw [← same] at after
  refine ⟨.cons symbol told (.nil _), after, nofun, fun v shows => ?_⟩
  cases shows with
  | held frame slot => exact Moment.held_told after frame slot
  | fresh step returned =>
      cases step
      exact ⟨_, made v returned, .inr (Mark.issued_last l symbol)⟩
  | nameOf step | borne step => cases step

theorem extends_nameOf (told : r.Ledger l) (symbol : Datum) :
    Moment.Extends extent ⟨.nameOf symbol, r⟩ l l := by
  have same : Moment.after extent ⟨.nameOf symbol, r⟩ = r := by
    rw [Moment.after, run, report_snd]
    rfl
  have after : (Moment.after extent ⟨.nameOf symbol, r⟩).Ledger l := by rwa [same]
  refine ⟨.nil l, after, nofun, fun v shows => ?_⟩
  cases shows with
  | held frame slot => exact Moment.held_told after frame slot
  | nameOf step found =>
      cases step
      exact told.nameOf found
  | fresh step | borne step => cases step

theorem extends_rename (told : r.Ledger l) (tree : Datum) :
    ∃ xs, Moment.Extends extent ⟨.rename tree, r⟩ l (l ++ xs) := by
  obtain ⟨xs, issues, tells⟩ := Resolver.rename_allTold told extent tree
  have same : Moment.after extent ⟨.rename tree, r⟩ = (r.rename extent tree).2 := by
    rw [Moment.after, run, report_snd]
    rfl
  have after : (Moment.after extent ⟨.rename tree, r⟩).Ledger (l ++ xs) :=
    same ▸ issues.ledger told
  refine ⟨xs, issues.asked told, after, ?_, fun v shows => ?_⟩
  · rintro _ v step formed renamed
    cases step
    exact (tells formed v renamed).1
  · cases shows with
    | held frame slot => exact Moment.held_told after frame slot
    | borne step formed renamed bears =>
        cases step
        exact (tells formed _ renamed).2 v bears
    | fresh step | nameOf step => cases step

theorem chronicle_of_silent {s : Step} (silent : s.Silent) (alone : moments extent s r = [⟨s, r⟩])
    (after : (run extent s r).2.Ledger l) :
    ∃ l', Chronicle extent l (moments extent s r) l' ∧ (run extent s r).2.Ledger l' := by
  rw [alone]
  exact ⟨l, .cons (extends_of_silent silent after) (.nil l), after⟩

end Extends

mutual

theorem chronicle_moments (extent : Extent) : (s : Step) → s.Naming → (r : Resolver) →
    (l : List Datum) → r.Ledger l →
      ∃ l', Chronicle extent l (moments extent s r) l' ∧ (run extent s r).2.Ledger l'
  | .insert _ _, naming, _, _, _
  | .pin _, naming, _, _, _ => naming.elim
  | .within steps raises, naming, r, l, told => by
      obtain ⟨l', inner, reached⟩ := chronicle_momentsAll extent steps naming r.enter l told.enter
      have left : (run extent (.within steps raises) r).2.Ledger l' := by
        rw [run, report_snd, exit_leave]
        exact reached.exit
      exact ⟨l', inner.append (.cons (extends_of_silent trivial left) (.nil l')), left⟩
  | .fresh symbol, _, r, l, told => by
      have own : Moment.Extends extent _ l _ := extends_fresh told symbol
      exact ⟨_, .cons own (.nil _), own.after⟩
  | .nameOf symbol, _, r, l, told => by
      have own : Moment.Extends extent _ l _ := extends_nameOf told symbol
      exact ⟨_, .cons own (.nil _), own.after⟩
  | .rename tree, _, r, l, told => by
      obtain ⟨xs, own⟩ : ∃ xs, Moment.Extends extent _ l (l ++ xs) := extends_rename told tree
      exact ⟨_, .cons own (.nil _), own.after⟩
  | .exit, _, r, l, told => by
      refine chronicle_of_silent trivial rfl ?_
      rw [run, report_snd]
      exact told.exit
  | .enter, _, r, l, told => by
      refine chronicle_of_silent trivial rfl ?_
      rw [run, report_snd]
      exact told.enter
  | .lookup _, _, r, l, told
  | .require _, _, r, l, told
  | .get _ _, _, r, l, told
  | .contains _, _, r, l, told
  | .items, _, r, l, told
  | .frames, _, r, l, told
  | .equals _, _, r, l, told
  | .render, _, r, l, told
  | .malformed _, _, r, l, told => by
      refine chronicle_of_silent trivial rfl ?_
      rw [run, report_snd]
      exact told

theorem chronicle_momentsAll (extent : Extent) : (steps : List Step) → Step.Naming.all steps →
    (r : Resolver) → (l : List Datum) → r.Ledger l →
      ∃ l', Chronicle extent l (momentsAll extent steps r) l' ∧
        (run.runAll extent steps r).2.Ledger l'
  | [], _, r, l, told => ⟨l, .nil l, told⟩
  | s :: ss, naming, r, l, told => by
      obtain ⟨l₁, first, reached⟩ := chronicle_moments extent s naming.1 r l told
      rw [momentsAll, run.runAll]
      rcases done : run extent s r with ⟨out, r₁⟩
      rw [done] at reached
      cases out with
      | error fault => exact ⟨l₁, first.append (.nil l₁), reached⟩
      | ok report =>
          obtain ⟨l₂, rest, last⟩ := chronicle_momentsAll extent ss naming.2 r₁ l₁ reached
          exact ⟨l₂, first.append rest, last⟩

end

theorem chronicle_history (extent : Extent) (steps : List Step) (naming : Step.Naming.all steps)
    {r : Resolver} {l : List Datum} (told : r.Ledger l) :
    ∃ l', Chronicle extent l (history extent steps r) l' := by
  induction steps generalizing r l with
  | nil => exact ⟨l, .nil l⟩
  | cons s ss ih =>
      obtain ⟨l₁, first, reached⟩ := chronicle_moments extent s naming.1 r l told
      obtain ⟨l₂, rest⟩ := ih naming.2 reached
      exact ⟨l₂, first.append rest⟩

/-- The calls of a run take the numbers from two on, in order, whether they succeed or not, and the
counter tells how many were made. All that is seen at any moment are names. A number that such a
name has was taken by a single call, before that moment and for its symbol. -/
structure Issuance (extent : Extent) (ms : List Moment) : Prop where
  numbers : (calls extent ms).map Call.number = List.range' 2 (calls extent ms).length
  made : ∀ c ∈ calls extent ms, ∃ symbol, c.2 = Resolver.freshName symbol ∧
    ∀ v, (c.2 c.1).1 = .ok v → v = .name symbol (.int c.number)
  counter : ∀ done m rest, ms = done ++ m :: rest →
    (m.after extent).counter = (calls extent (done ++ [m])).length + 1
  reads : ∀ m ∈ ms, ∀ tree v, m.step = .rename tree → tree.WellFormed →
    (m.before.rename extent tree).1 = .ok v → v.Reads Mark
  issued : ∀ m ∈ ms, ∀ v, m.Shows extent v → ∃ n : Mark, v = n.datum ∧ (n.uid ≠ 0 →
    2 ≤ n.uid ∧ n.uid ≤ (m.after extent).counter ∧
      ∃ c, (calls extent ms).filter (fun c => c.number = n.uid) = [c] ∧
        c.2 = Resolver.freshName n.symbol)
  once : ∀ m ∈ ms, ∀ m' ∈ ms, ∀ n n' : Mark, m.Shows extent n.datum → m'.Shows extent n'.datum →
    n.uid ≠ 0 → n.uid = n'.uid → n = n'

theorem names_issued_once (extent : Extent) (steps : List Step) (naming : Step.Naming.all steps) :
    Issuance extent (history extent steps .initial) := by
  obtain ⟨l, chronicle⟩ := chronicle_history extent steps naming .initial
  have asked := chronicle.asked
  have at_moment {m : Moment} (mem : m ∈ history extent steps .initial) :
      ∃ l₁ l', m.Extends extent l₁ l' ∧ l' <+: l := by
    obtain ⟨done, rest, split⟩ := List.append_of_mem mem
    rw [split] at chronicle
    obtain ⟨l₁, l', own, _, grown⟩ := chronicle.split
    exact ⟨l₁, l', own, grown⟩
  have seen {m : Moment} (mem : m ∈ history extent steps .initial) {n : Mark}
      (shows : m.Shows extent n.datum) (nonzero : n.uid ≠ 0) : n.Issued l := by
    obtain ⟨_, l', own, grown⟩ := at_moment mem
    obtain ⟨n', same, told⟩ := own.told _ shows
    cases Mark.datum_injective same
    exact (told.resolve_left nonzero).later grown
  refine ⟨asked.numbers, fun c mem => asked.made mem, ?_, ?_, ?_, ?_⟩
  · intro done m rest split
    rw [split] at chronicle
    obtain ⟨_, l', own, asked', _⟩ := chronicle.split
    rw [own.after.counter, asked'.length, List.length_nil, Nat.zero_add]
  · intro m mem
    obtain ⟨_, _, own, _⟩ := at_moment mem
    exact own.reads
  · intro m mem v shows
    obtain ⟨_, l', own, grown⟩ := at_moment mem
    obtain ⟨n, rfl, told⟩ := own.told v shows
    refine ⟨n, rfl, fun nonzero => ?_⟩
    have issued := told.resolve_left nonzero
    refine ⟨issued.1, ?_, asked.issued (issued.later grown) issued.1⟩
    rw [own.after.counter]
    exact issued.uid_le
  · intro m mem m' mem' n n' shows shows' nonzero same
    have nonzero' : n'.uid ≠ 0 := same ▸ nonzero
    exact (seen mem shows nonzero).eq_of_uid (seen mem' shows' nonzero') same

def binder : Phrase Symbol (.one .pattern) :=
  .identifierPattern (.ofText "x")

def interruptedSteps : List Step :=
  [.fresh (.list []), .within [.fresh (.text "x"), .nameOf (.text "x")] (some (.raised "late")),
    .rename binder.datum]

theorem interrupted_issued_once :
    Step.Naming.all interruptedSteps ∧
      (calls .expression (history .expression interruptedSteps .initial)).map Call.number =
        [2, 3, 4] ∧
      ∃ m ∈ history .expression interruptedSteps .initial, m.step = .rename binder.datum ∧
        m.Shows .expression (.name (.text "x") (.int 4)) ∧
        ∃ c, (calls .expression (history .expression interruptedSteps .initial)).filter
            (fun c => c.number = 4) = [c] ∧
          c.2 = Resolver.freshName (.text "x") := by
  have naming : Step.Naming.all interruptedSteps :=
    ⟨trivial, ⟨trivial, trivial, trivial⟩, trivial, trivial⟩
  have issuance := names_issued_once .expression interruptedSteps naming
  let reached := (run .expression interruptedSteps[1]
    (run .expression interruptedSteps[0] .initial).2).2
  let last : Moment := ⟨.rename binder.datum, reached⟩
  have last_mem : last ∈ history .expression interruptedSteps .initial := by
    simp only [interruptedSteps, history, moments]
    simp [last, reached, interruptedSteps]
  have renamed : (reached.rename .expression binder.datum).1 =
      .ok (Phrase.node .identifierPattern [.name (.text "x") (.int 4)]) := by
    rw [Resolver.rename_eq_recurse, Visitor.recurse_eq]
    rfl
  have shows : last.Shows .expression (.name (.text "x") (.int 4)) := by
    let u : Phrase Mark (.one .pattern) := .identifierPattern ⟨.text "x", 4⟩
    have bears : Datum.Bears u.datum (.name (.text "x") (.int 4)) :=
      .phrase u rfl (p := (.bind, ⟨.text "x", 4⟩)) List.mem_cons_self
    exact .borne rfl ⟨Symbol, inferInstance, .phrase binder rfl⟩ renamed bears
  have length : (calls .expression (history .expression interruptedSteps .initial)).length = 3 := by
    have whole : calls .expression (history .expression interruptedSteps .initial) =
        [(_, Resolver.freshName (.list [])), (_, Resolver.freshName (.text "x"))] ++
          (last.calls .expression ++ []) := rfl
    have asked : last.calls .expression = [(reached, Resolver.freshName (.text "x"))] := by
      rw [Moment.calls, Visitor.effects_eq]
      rfl
    rw [whole, List.append_nil, asked]
    rfl
  obtain ⟨n, same, issued⟩ := issuance.issued last last_mem _ shows
  cases Mark.datum_injective (n := ⟨.text "x", 4⟩) same
  obtain ⟨_, _, c, only, asked⟩ := issued nofun
  refine ⟨naming, ?_, last, last_mem, rfl, shows, c, only, asked⟩
  rw [issuance.numbers, length]
  rfl

end Session

end ScopeResolution
