import Mathlib.Data.List.Infix
import ScopeResolution.Pipeline.Basic

namespace ScopeResolution

theorem Encoding.category_of_fault? {e : Encoding} {t : String} {fault : Fault}
    (h : e.fault? t = some fault) : fault.category = .encoding := by
  unfold fault? at h
  split at h <;> cases h
  rfl

namespace Pass

structure Unmoved (e : Fault) (w w' : Workspace) : Prop where
  metadata : w'.metadata = w.metadata
  files : e.category ≠ .encoding → w'.files = w.files
  printed : w'.printed = w.printed

theorem unmoved_rename {extent : Renaming.Extent} {tree : Datum} {w w' : Workspace} {e : Fault}
    (failed : w.rename extent tree = (.error e, w')) : Unmoved e w w' := by
  rw [Workspace.rename] at failed
  split at failed
  · simp only at failed
    split at failed <;> cases failed
    exact ⟨rfl, fun _ => rfl, rfl⟩
  · cases failed
    exact ⟨rfl, fun _ => rfl, rfl⟩

theorem unmoved_of_send_error {o : DebugOptions} {t : String} {w w' : Workspace} {e : Fault}
    (failed : o.send t w = (.error e, w')) : Unmoved e w w' := by
  cases place : o.file with
  | none =>
      simp only [DebugOptions.send, place] at failed
      split at failed <;> cases failed
      exact ⟨rfl, fun _ => rfl, rfl⟩
  | some name =>
      simp only [DebugOptions.send, place, Files.deliver] at failed
      split at failed
      · rename_i refused
        cases failed
        exact ⟨rfl, fun other => absurd (Encoding.category_of_fault? refused) other, rfl⟩
      · cases failed

theorem unmoved_of_apply_error {p : Pass} {tree : Datum} {w w' : Workspace} {e : Fault}
    (failed : p.apply tree w = (.error e, w')) : Unmoved e w w' := by
  cases p with
  | rename =>
      rw [apply] at failed
      split at failed
      · exact unmoved_rename failed
      · cases failed
        exact ⟨rfl, fun _ => rfl, rfl⟩
  | debug o =>
      rw [apply] at failed
      cases shown : o.text tree w.metadata with
      | error fault =>
          rw [shown] at failed
          cases failed
          exact ⟨rfl, fun _ => rfl, rfl⟩
      | ok t =>
          simp only [shown] at failed
          rcases sent : o.send t w with ⟨out, w₁⟩
          rw [sent] at failed
          cases out with
          | ok _ => cases failed
          | error fault =>
              cases failed
              exact unmoved_of_send_error sent
  | put key value =>
      rw [apply, Workspace.note] at failed
      cases put : w.metadata.insert key value <;> rw [put] at failed <;> cases failed
      exact ⟨rfl, fun _ => rfl, rfl⟩
  | noop => cases failed
  | fail text =>
      cases failed
      exact ⟨rfl, fun _ => rfl, rfl⟩

end Pass

namespace Pipeline

def plain (ps : List Pass) : Pipeline :=
  ⟨ps, .ok .empty, none⟩

theorem call_plain (ps : List Pass) (tree : Datum) (w : Workspace) :
    (plain ps).call tree w = runPasses ps tree w := by
  have noted : w.noteAll Dictionary.empty.toList = (.ok (), w) := rfl
  simp only [call, plain, noted]
  rcases runPasses ps tree w with ⟨out, w'⟩
  cases out <;> rfl

def continueWith (ps : List Pass) : Except Fault Datum × Workspace → Except Fault Datum × Workspace
  | (.ok tree, w) => (plain ps).call tree w
  | (.error e, w) => (.error e, w)

theorem runPasses_append (ps qs : List Pass) (tree : Datum) (w : Workspace) :
    runPasses (ps ++ qs) tree w = continueWith qs (runPasses ps tree w) := by
  induction ps generalizing tree w with
  | nil => exact (call_plain qs tree w).symm
  | cons p ps ih =>
      rw [List.cons_append, runPasses, runPasses]
      rcases p.apply tree w with ⟨out, w₁⟩
      cases out with
      | ok tree₁ => exact ih tree₁ w₁
      | error e => rfl

/-- One of the passes fails on what those before it made. What they left stays, and the log says
which it was. -/
inductive Breaks (tree : Datum) (w : Workspace) (e : Fault) : List Pass → Workspace → Prop where
  | intro {before after : List Pass} {p : Pass} {made : Datum} {w₁ w₂ : Workspace}
      (reached : (plain before).call tree w = (.ok made, w₁))
      (failed : p.apply made w₁ = (.error e, w₂))
      (kept : Pass.Unmoved e w₁ w₂) :
      Breaks tree w e (before ++ p :: after) (w₂.error ("Error in pass " ++ p.name))

theorem breaks_of_runPasses_error {ps : List Pass} {tree : Datum} {w w' : Workspace} {e : Fault}
    (h : runPasses ps tree w = (.error e, w')) : Breaks tree w e ps w' := by
  induction ps generalizing tree w with
  | nil => cases h
  | cons p ps ih =>
      rw [runPasses] at h
      rcases applied : p.apply tree w with ⟨out, w₁⟩
      rw [applied] at h
      cases out with
      | error fault =>
          cases h
          have here : (plain []).call tree w = (.ok tree, w) := call_plain [] tree w
          have broken : Breaks tree w e ([] ++ p :: ps) _ :=
            .intro here applied (Pass.unmoved_of_apply_error applied)
          exact broken
      | ok tree₁ =>
          cases ih h with
          | @intro before after q made w₂ w₃ reached failed kept =>
              have longer : (plain (p :: before)).call tree w = (.ok made, w₂) := by
                rw [call_plain] at reached ⊢
                rw [runPasses, applied]
                exact reached
              exact .intro longer failed kept

def lastResult (outs : List (Except Fault Datum)) : Option Datum :=
  (outs.filterMap Except.toOption).getLast?

theorem lastResult_cons (out : Except Fault Datum) (outs : List (Except Fault Datum))
    (latest : Option Datum) :
    (lastResult (out :: outs)).or latest = (lastResult outs).or (latestOf latest out) := by
  cases out with
  | error e => rfl
  | ok tree =>
      have first : lastResult (.ok tree :: outs) = some ((lastResult outs).getD tree) :=
        List.getLast?_cons
      rw [first, latestOf]
      cases lastResult outs <;> rfl

def lastResults (outs : List (Except Fault Datum)) : List (Option Datum) :=
  outs.inits.tail.map lastResult

theorem lastResults_cons (out : Except Fault Datum) (outs : List (Except Fault Datum))
    (latest : Option Datum) :
    (lastResults (out :: outs)).map (·.or latest) =
      latestOf latest out :: (lastResults outs).map (·.or (latestOf latest out)) := by
  have begun : outs.inits = [] :: outs.inits.tail := by cases outs <;> simp
  have stepped : (out :: outs).inits.tail = [out] :: outs.inits.tail.map (out :: ·) := by
    rw [List.inits_cons, List.tail_cons, begun, List.map_cons, List.tail_cons]
  rw [lastResults, stepped, List.map_cons, List.map_cons, lastResult_cons]
  simp only [lastResults, List.map_map, Function.comp_def, lastResult_cons]
  rfl

section Calls

variable (p : Pipeline)

def leave (trees : List Datum) (w : Workspace) : Workspace :=
  trees.foldl (fun w tree => (p.call tree { w with printed := "" }).2) w

def outcomes : List Datum → Workspace → List (Except Fault Datum)
  | [], _ => []
  | tree :: trees, w =>
      (p.call tree { w with printed := "" }).1 :: outcomes trees (p.leave [tree] w)

theorem callEach_reports (trees : List Datum) (latest : Option Datum) (w : Workspace) :
    ∃ reports, callEach p.call (fun _ => none) latest (trees.map .ok) w =
        (.ok reports, p.leave trees w) ∧
      reports.map (·.outcome) = p.outcomes trees w ∧
      reports.map (·.latest) = (lastResults (p.outcomes trees w)).map (·.or latest) := by
  induction trees generalizing latest w with
  | nil => exact ⟨[], rfl, rfl, rfl⟩
  | cons tree trees ih =>
      rcases called : p.call tree { w with printed := "" } with ⟨out, w₁⟩
      have left : p.leave [tree] w = w₁ := by
        rw [leave, List.foldl_cons, called, List.foldl_nil]
      obtain ⟨reports, reported, outcomes, latests⟩ := ih (latestOf latest out) w₁
      refine ⟨⟨out, latestOf latest out, w₁.metadata, w₁.printed⟩ :: reports, ?_, ?_, ?_⟩
      · rw [List.map_cons, callEach, called]
        simp only [reported]
        rw [leave, leave, List.foldl_cons, called]
        rfl
      · rw [List.map_cons, outcomes, Pipeline.outcomes, called, left]
      · rw [List.map_cons, latests, Pipeline.outcomes, called, left]
        exact (lastResults_cons out _ latest).symm

end Calls

/-- Passes in a row are passes that are run on what the passes before them came to. If one of those
fails, the others are not run, and what was left before it stays. In calls on one tree after the
other, the result that is kept is the last one there was, whatever failed since. -/
theorem call_composes (ps qs : List Pass) (tree : Datum) (w : Workspace) :
    (plain (ps ++ qs)).call tree w = continueWith qs ((plain ps).call tree w) ∧
    (∀ e w', (plain ps).call tree w = (.error e, w') →
      Breaks tree w e ps w' ∧ (plain (ps ++ qs)).call tree w = (.error e, w')) ∧
    ∀ (p : Pipeline) (trees : List Datum), ∃ reports,
      callEach p.call (fun _ => none) none (trees.map .ok) w = (.ok reports, p.leave trees w) ∧
        reports.map (·.outcome) = p.outcomes trees w ∧
        reports.map (·.latest) = lastResults (p.outcomes trees w) := by
  have composed : (plain (ps ++ qs)).call tree w = continueWith qs ((plain ps).call tree w) := by
    rw [call_plain, call_plain]
    exact runPasses_append ps qs tree w
  refine ⟨composed, fun e w' failed => ⟨?_, ?_⟩, fun p trees => ?_⟩
  · rw [call_plain] at failed
    exact breaks_of_runPasses_error failed
  · rw [composed, failed, continueWith]
  · obtain ⟨reports, reported, outcomes, latests⟩ := p.callEach_reports trees none w
    refine ⟨reports, reported, outcomes, ?_⟩
    rw [latests]
    simp

theorem call_composes_failing :
    let w : Workspace := .empty
    let ps : List Pass := [.put (.text "a") (.int 1), .fail "stop"]
    let qs : List Pass := [.put (.text "b") (.int 2)]
    let p : Pipeline := ⟨[.noop], .ok .empty, some "value"⟩
    let tree : Datum := .node (.builtin .number) [.int 0]
    ((plain (ps ++ qs)).call .null w).1 = .error (.raised "stop") ∧
      ((plain (ps ++ qs)).call .null w).2.metadata.toList.map (·.value) = [.int 1] ∧
      Breaks .null w (.raised "stop") ps ((plain (ps ++ qs)).call .null w).2 ∧
      ∃ reports, callEach p.call (fun _ => none) none [.ok .null, .ok tree, .ok .null] w =
        (.ok reports, p.leave [.null, tree, .null] w) ∧
        reports.map (·.latest) = [none, some (.int 0), some (.int 0)] := by
  intro w ps qs p tree
  obtain ⟨_, failing, each⟩ := call_composes ps qs .null w
  obtain ⟨breaks, same⟩ := failing (.raised "stop") ((plain ps).call .null w).2 rfl
  obtain ⟨reports, reported, _, latests⟩ := each p [.null, tree, .null]
  rw [same]
  exact ⟨rfl, rfl, breaks, reports, reported, latests⟩

end Pipeline

end ScopeResolution
