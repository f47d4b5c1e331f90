import ScopeResolution.Pipeline.Pass

namespace ScopeResolution

structure Pipeline where
  passes : List Pass
  prologue : Except Fault Dictionary
  epilogue : Option String

namespace Pipeline

def runPasses : List Pass → Datum → Workspace → Except Fault Datum × Workspace
  | [], tree, w => (.ok tree, w)
  | p :: ps, tree, w =>
      match p.apply tree w with
      | (.ok tree, w) => runPasses ps tree w
      | (.error e, w) => (.error e, w.error ("Error in pass " ++ p.name))

def finish (p : Pipeline) (tree : Datum) : Except Fault Datum :=
  match p.epilogue with
  | none => .ok tree
  | some a => tree.getAttribute a

def call (p : Pipeline) (tree : Datum) (w : Workspace) : Except Fault Datum × Workspace :=
  match p.prologue with
  | .error e => (.error e, w)
  | .ok notes =>
      match w.noteAll notes.toList with
      | (.error e, w) => (.error e, w)
      | (.ok (), w) => match runPasses p.passes tree w with
          | (.error e, w) => (.error e, w)
          | (.ok tree, w) => (p.finish tree, w)

structure CallReport where
  outcome : Except Fault Datum
  latest : Option Datum
  metadata : Dictionary
  printed : String

def CallReport.metadataFault? (c : CallReport) : Option Fault :=
  c.metadata.renderFault?

def CallReport.fault? (passage : Datum.Passage) (c : CallReport) : Option Fault :=
  (c.latest.bind (·.passageFault? passage)).or c.metadataFault?

def latestOf (latest : Option Datum) : Except Fault Datum → Option Datum
  | .ok tree => some tree
  | .error _ => latest

/-- Calls on one tree after the other; what is printed is reported call by call. A tree that is not
at hand ends the run with the workspace as the calls before it left it, and so does a report that is
refused, with the workspace as its own call left it. -/
def callEach (step : Datum → Workspace → Except Fault Datum × Workspace)
    (refuse : CallReport → Option Fault) (latest : Option Datum) :
    List (Except Fault Datum) → Workspace → Except Fault (List CallReport) × Workspace
  | [], w => (.ok [], w)
  | .error e :: _, w => (.error e, w)
  | .ok tree :: rest, w =>
      let (r, w) := step tree { w with printed := "" }
      let report : CallReport := ⟨r, latestOf latest r, w.metadata, w.printed⟩
      match refuse report with
      | some fault => (.error fault, w)
      | none =>
          let (reports, final) := callEach step refuse report.latest rest w
          (reports.map (report :: ·), final)

end Pipeline

end ScopeResolution
