import ScopeResolution.Proofs.Frames
import ScopeResolution.Proofs.Safety

namespace ScopeResolution

namespace Resolver

variable {r : Resolver} {fault : Fault}

theorem exit_of_error (failed : r.exit.1 = .error fault) : r.exit.2 = r := by
  rw [exit] at failed ⊢
  cases left : r.scopes.exit? with
  | none => rfl
  | some s =>
      rw [left] at failed
      cases failed

theorem insert_of_error {symbol value : Datum} (failed : (r.insert symbol value).1 = .error fault) :
    (r.insert symbol value).2 = r := by
  rw [insert] at failed ⊢
  cases placed : r.scopes.siteOf symbol with
  | error e => rfl
  | ok site =>
      rw [placed] at failed
      cases failed

theorem exit_outermost (h : r.scopes.depth = 0) : r.exit = (.error .unmatchedExit, r) := by
  rw [exit, r.scopes.exit?_eq_none_iff.2 h]

theorem exit_inner (h : r.scopes.depth ≠ 0) : r.exit.1 = .ok () := by
  rw [exit]
  cases left : r.scopes.exit? with
  | none => exact absurd (r.scopes.exit?_eq_none_iff.1 left) h
  | some s => rfl

end Resolver

namespace Session

def Step.OnTable : Step → Prop
  | .rename _ => False
  | .pin _ => False
  | .within steps _ => all steps
  | _ => True
where
  all : List Step → Prop
    | [] => True
    | s :: ss => s.OnTable ∧ all ss

mutual

def operations (extent : Renaming.Extent) : Step → Resolver → List Operation
  | .enter, _ => [.enter]
  | .exit, _ => [.exit]
  | .insert symbol value, _ => [.insert symbol value]
  | .fresh symbol, _ => [.fresh symbol]
  | .within steps _, r => .enter :: (operationsAll extent steps r.enter ++ [.exit])
  | _, _ => []

def operationsAll (extent : Renaming.Extent) : List Step → Resolver → List Operation
  | [], _ => []
  | s :: ss, r => operations extent s r ++ match run extent s r with
      | (.error _, _) => []
      | (.ok _, r') => operationsAll extent ss r'

end

mutual

theorem after_operations (extent : Renaming.Extent) : (s : Step) → s.OnTable → (r : Resolver) →
    (run extent s r).2 = r.after (operations extent s r)
  | .within steps raises, table, r => by
      rw [run, report_snd, exit_leave, operations, after_operationsAll extent steps table r.enter,
        ← List.cons_append, Resolver.after_append]
      rfl
  | .enter, _, r
  | .exit, _, r
  | .insert _ _, _, r
  | .fresh _, _, r
  | .lookup _, _, r
  | .require _, _, r
  | .get _ _, _, r
  | .contains _, _, r
  | .items, _, r
  | .frames, _, r
  | .equals _, _, r
  | .render, _, r
  | .nameOf _, _, r
  | .malformed _, _, r => by
      rw [run, report_snd]
      rfl

theorem after_operationsAll (extent : Renaming.Extent) :
    (steps : List Step) → Step.OnTable.all steps → (r : Resolver) →
      (run.runAll extent steps r).2 = r.after (operationsAll extent steps r)
  | [], _, r => rfl
  | s :: ss, table, r => by
      have first := after_operations extent s table.1 r
      rw [run.runAll, operationsAll, Resolver.after_append, ← first]
      rcases run extent s r with ⟨out, r'⟩
      cases out with
      | error fault => rfl
      | ok p => exact after_operationsAll extent ss table.2 r'

end

def outcome (extent : Renaming.Extent) : Step → Resolver → Except Fault Reply × Resolver
  | .enter, r => (.ok (.value .null), r.enter)
  | .exit, r => replied (fun _ => .null) r.exit
  | .within steps raises, r =>
      let (reports, r) := run.runAll extent steps r.enter
      leave r (ended reports raises)
  | .insert symbol value, r => replied (fun _ => .null) (r.insert symbol value)
  | .lookup symbol, r => replied id (r.lookup symbol, r)
  | .require symbol, r => replied id (r.scopes.getOrFail symbol, r)
  | .get symbol default, r => replied id (r.scopes.getOr symbol default, r)
  | .contains symbol, r => replied .bool (r.scopes.contains symbol, r)
  | .fresh symbol, r => replied id (r.freshName symbol)
  | .items, r => (r.scopes.visible.map fun d => .entries d.entries, r)
  | .frames, r => (.ok (.frames (r.scopes.frames.map Dictionary.entries)), r)
  | .equals other, r => replied .bool (r.scopes.equals other, r)
  | .render, r => replied .text (r.scopes.rendered, r)
  | .rename tree, r => replied id (r.rename extent tree)
  | .nameOf symbol, r => replied id (r.nameOf symbol, r)
  | .pin uid, r => (.ok (.value .null), { r with supply := { r.supply with pinned := some uid } })
  | .malformed fault, r => (.error fault, r)

theorem run_eq (extent : Renaming.Extent) (s : Step) (r : Resolver) :
    run extent s r = report (outcome extent s r) := by
  cases s <;> rw [run] <;> rfl

/-- What a step that is no block leaves when it fails. A number that was taken is not given back,
and a name whose symbol has no text was bound before the text was asked for. -/
inductive Forgone (r : Resolver) (fault : Fault) : Step → Resolver → Prop where
  | nothing {s : Step} (other : ∀ symbol, s ≠ .fresh symbol) : Forgone r fault s r
  | number {symbol : Datum} (unplaced : r.scopes.siteOf symbol = .error fault) :
      Forgone r fault (.fresh symbol)
        { r with supply := { r.supply with counter := r.counter + 1 } }
  | untold {symbol : Datum} {site : Site} (placed : r.scopes.siteOf symbol = .ok site)
      (untold : r.limits.displayed symbol = .error fault) : Forgone r fault (.fresh symbol)
      { r with
        scopes := r.scopes.settle site (r.nextName symbol)
        supply := { r.supply with counter := r.counter + 1 } }

theorem error_of_replied {α : Type} {f : α → Datum} {p : Except Fault α × Resolver} {fault : Fault}
    (failed : (replied f p).1 = .error fault) : p.1 = .error fault := by
  rcases p with ⟨out, r⟩
  cases out <;> cases failed
  rfl

theorem forgone_freshName {symbol : Datum} {r : Resolver} {fault : Fault}
    (failed : (r.freshName symbol).1 = .error fault) :
    Forgone r fault (.fresh symbol) (r.freshName symbol).2 := by
  rw [Resolver.freshName] at failed ⊢
  cases pinned : r.supply.pinned with
  | some uid =>
      rw [pinned] at failed
      cases failed
  | none =>
      rw [pinned] at failed
      cases placed : r.scopes.siteOf symbol with
      | error e =>
          simp only [placed] at failed ⊢
          cases failed
          exact .number placed
      | ok site =>
          simp only [placed] at failed ⊢
          cases told : r.limits.displayed symbol with
          | error e =>
              simp only [told] at failed ⊢
              cases failed
              exact .untold placed told
          | ok text =>
              simp only [told] at failed
              cases failed

def Step.Single : Step → Prop
  | .within _ _ => False
  | _ => True

theorem forgone_outcome {extent : Renaming.Extent} {s : Step} {r : Resolver} {fault : Fault}
    (table : s.OnTable) (single : s.Single) (failed : (outcome extent s r).1 = .error fault) :
    Forgone r fault s (outcome extent s r).2 := by
  cases s with
  | enter => cases failed
  | exit =>
      have same : (outcome extent .exit r).2 = r := Resolver.exit_of_error (error_of_replied failed)
      rw [same]
      exact .nothing fun _ other => nomatch other
  | within steps raises => exact single.elim
  | insert symbol value =>
      have same : (outcome extent (.insert symbol value) r).2 = r :=
        Resolver.insert_of_error (error_of_replied failed)
      rw [same]
      exact .nothing fun _ other => nomatch other
  | fresh symbol => exact forgone_freshName (error_of_replied failed)
  | rename tree => exact table.elim
  | pin uid => exact table.elim
  | _ => exact .nothing fun _ other => nomatch other

theorem outcome_within (extent : Renaming.Extent) (steps : List Step) (raises : Option Fault)
    (r : Resolver) :
    let (reports, reached) := run.runAll extent steps r.enter
    outcome extent (.within steps raises) r =
      if reached.scopes.depth = 0 then (.error .unmatchedExit, reached)
      else (ended reports raises, reached.exit.2) := by
  rcases done : run.runAll extent steps r.enter with ⟨reports, reached⟩
  simp only [outcome, done]
  by_cases outermost : reached.scopes.depth = 0
  · rw [if_pos outermost, leave, Resolver.exit_outermost outermost]
  · rw [if_neg outermost]
    rcases left : reached.exit with ⟨out, r'⟩
    have succeeded := Resolver.exit_inner outermost
    rw [left] at succeeded
    cases succeeded
    rw [leave, left]

theorem balanced_within {extent : Renaming.Extent} {steps : List Step} {r : Resolver}
    (table : Step.OnTable.all steps)
    (balanced : Operation.pending (operationsAll extent steps r.enter) 0 = some 0)
    (raises : Option Fault) :
    (outcome extent (.within steps raises) r).1 = ended (run.runAll extent steps r.enter).1 raises ∧
      (outcome extent (.within steps raises) r).2.scopes = r.scopes := by
  have reached := after_operationsAll extent steps table r.enter
  have left := outcome_within extent steps raises r
  rcases done : run.runAll extent steps r.enter with ⟨reports, r₁⟩
  rw [done] at reached left
  have around : r.enter.scopes.outer = [] ++ r.scopes.frames := rfl
  obtain ⟨own, outer, none⟩ := Resolver.outer_after_of_pending around balanced
  rw [List.eq_nil_of_length_eq_zero none, ← reached] at outer
  obtain ⟨r₂, exited, scopes, _⟩ := Resolver.exit_of_outer outer
  have inner : r₁.scopes.depth ≠ 0 := by
    rw [r₁.scopes.depth_eq, outer]
    exact Nat.succ_ne_zero _
  simp only [if_neg inner, exited] at left
  rw [left]
  exact ⟨rfl, scopes⟩

/-- At every moment of a run that comes to these operations, the depth is told by the scopes entered
and left so far, and the outermost scope holds what was stored in it while it was the only one. -/
structure Accounts (r : Resolver) (ops : List Operation) (r' : Resolver) : Prop where
  reached : r' = r.after ops
  depth : ∀ done, done <+: ops →
    (r.after done).scopes.depth + (r.turns done).countP Turn.pops =
      r.scopes.depth + (r.turns done).countP Turn.pushes
  frames : ∀ done, done <+: ops →
    (r.after done).scopes.frames.length = (r.after done).scopes.depth + 1
  bottom : ∀ done, done <+: ops →
    r.scopes.bottom.putAll ((r.turns done).flatMap Turn.grounded) =
      .ok (r.after done).scopes.bottom

structure Encloses (extent : Renaming.Extent) (steps : List Step) (raises : Option Fault)
    (r : Resolver) : Prop where
  unmatched : (run.runAll extent steps r.enter).2.exit.1 = .error .unmatchedExit ↔
    (run.runAll extent steps r.enter).2.scopes.depth = 0
  leaves : outcome extent (.within steps raises) r =
    let (reports, reached) := run.runAll extent steps r.enter
    if reached.scopes.depth = 0 then (.error .unmatchedExit, reached)
    else (ended reports raises, reached.exit.2)
  balanced : Step.OnTable.all steps →
    Operation.pending (operationsAll extent steps r.enter) 0 = some 0 →
    (outcome extent (.within steps raises) r).1 =
        ended (run.runAll extent steps r.enter).1 raises ∧
      (outcome extent (.within steps raises) r).2.scopes = r.scopes

theorem unmatched_iff (r : Resolver) : r.exit.1 = .error .unmatchedExit ↔ r.scopes.depth = 0 := by
  constructor
  · intro failed
    by_contra inner
    rw [Resolver.exit_inner inner] at failed
    cases failed
  · intro outermost
    rw [Resolver.exit_outermost outermost]

theorem scopes_disciplined (extent : Renaming.Extent) (r : Resolver) :
    (∀ s, run extent s r = report (outcome extent s r)) ∧
    (∀ steps, Step.OnTable.all steps →
      Accounts r (operationsAll extent steps r) (run.runAll extent steps r).2) ∧
    (∀ s fault, s.OnTable → s.Single → (outcome extent s r).1 = .error fault →
      Forgone r fault s (outcome extent s r).2) ∧
    ∀ steps raises, Encloses extent steps raises r := by
  refine ⟨fun s => run_eq extent s r, fun steps table => ⟨?_, ?_, ?_, ?_⟩,
    fun s fault => forgone_outcome, fun steps raises => ⟨unmatched_iff _, ?_, ?_⟩⟩
  · exact after_operationsAll extent steps table r
  · exact fun done _ => r.depth_after done
  · exact fun done _ => congrArg (· + 1) (r.after done).scopes.depth_eq.symm
  · exact fun done _ => r.bottom_after done
  · exact outcome_within extent steps raises r
  · exact fun table balanced => balanced_within table balanced raises

theorem scopes_disciplined_unbalanced :
    let a := Symbol.ofText "a"
    let b := Symbol.ofText "b"
    let unbalanced : List Step := [.exit, .fresh b.datum, .exit]
    let balanced : List Step := [.enter, .fresh a.datum, .exit]
    let steps : List Step := [.fresh (.list []), .within unbalanced (some (.raised "late"))]
    let reached := (run.runAll .expression steps .initial).2
    Dictionary.empty.putAll [⟨b.toKeyed, .name b.datum (.int 3)⟩] = .ok reached.scopes.bottom ∧
      reached.scopes.depth + 1 = 0 + 1 ∧
      Forgone .initial .unhashable (.fresh (.list []))
        (outcome .expression (.fresh (.list [])) .initial).2 ∧
      (outcome .expression (.within unbalanced (some (.raised "late"))) .initial).1 =
        .error .unmatchedExit ∧
      (outcome .expression (.within balanced (some (.raised "early"))) .initial).1 =
        .error (.raised "early") ∧
      (outcome .expression (.within balanced (some (.raised "early"))) .initial).2.scopes =
        .empty := by
  intro a b unbalanced balanced steps reached
  obtain ⟨_, accounts, fails, encloses⟩ := scopes_disciplined .expression .initial
  have told := accounts steps ⟨trivial, ⟨trivial, trivial, trivial, trivial⟩, trivial⟩
  have bottom := told.bottom _ List.prefix_rfl
  have depth := told.depth _ List.prefix_rfl
  rw [← told.reached] at bottom depth
  obtain ⟨ended, scopes⟩ := (encloses balanced (some (.raised "early"))).balanced
    ⟨trivial, trivial, trivial, trivial⟩ rfl
  have left := (encloses unbalanced (some (.raised "late"))).leaves
  refine ⟨?_, ?_, fails _ _ trivial trivial rfl, ?_, ended, scopes⟩
  · exact bottom
  · exact depth
  · rw [left]
    rfl

def untellable : Datum :=
  .node (.derived 0 none "Opaque" ["iter_fields"] [] (.builtin .node)) [.text "x"]

theorem untellable_bound :
    (∃ fault, (outcome .expression (.fresh untellable) .initial).1 = .error fault) ∧
      (outcome .expression (.fresh untellable) .initial).2.scopes.size = .ok 1 ∧
      Resolver.initial.scopes.size = .ok 0 :=
  ⟨⟨_, rfl⟩, rfl, rfl⟩

end Session

end ScopeResolution
