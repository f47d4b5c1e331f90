import ScopeResolution.Traversal.Parts

namespace ScopeResolution

namespace Observation

/-- What a rule does at a node. The value of a leaf may not be at hand, which shows only when a leaf
is met. -/
inductive Mode where
  | leaf (value : Except Fault Datum)
  | enter
  | total
  | fail
  | failAfter

structure Rule where
  kind : String
  mode : Mode

inductive Moment where
  | leaf
  | enter
  | exit
  | total
  deriving DecidableEq, Repr

structure Event where
  moment : Moment
  kind : String
  label : Datum

abbrev Events := List Event

open Datum Traversal

abbrev Script (d : Datum) := Routine (Part d) Events Fault Datum

/-- What tells a node from others of its kind: the first field it goes through, if that is a text or
an integer. What cannot get as far as a first field has no label to be recorded by. -/
def label (d : Datum) : Except Fault Datum :=
  match d.fieldEntries, d.entriesFault? with
  | (_, .text s) :: _, _ => .ok (.text s)
  | (_, .int n) :: _, _ => .ok (.int n)
  | [], some fault => .error fault
  | _, _ => .ok .null

def event (m : Moment) (d : Datum) : Except Fault Event :=
  (label d).map (⟨m, d.typeName, ·⟩)

def note {e : Datum} (m : Moment) (d : Datum) : Script e Unit := do
  let met ← .ofExcept (event m d)
  .modify (met :: ·)

def modeFor? (kind : String) : List Rule → Option Mode
  | [] => none
  | r :: rest => match modeFor? kind rest with
      | some m => some m
      | none => if r.kind = kind then some r.mode else none

def count (results : List Datum) : Int :=
  results.foldl (fun n r => match r with
    | .int m => n + m
    | .bool true => n + 1
    | _ => n) 1

def walkBelow (d : Datum) : Script d Datum := do
  let _ ← visitChildren d .call
  return .null

def bracketed (d : Datum) (body : Script d Datum) : Script d Datum := do
  let entry ← .ofExcept (event .enter d)
  .within (entry :: ·) (fun es => (.ok (), { entry with moment := .exit } :: es)) body

def walk (rules : List Rule) (d : Datum) : Script d Datum :=
  match modeFor? d.typeName rules with
  | none => walkBelow d
  | some (.leaf value) => do
      note .leaf d
      .ofExcept value
  | some .enter => bracketed d (walkBelow d)
  | some .total => do
      finishEntries d
      let results ← visitChildren d .call
      note .total d
      return .int (count results)
  | some .fail => .fail (.raised ("at " ++ d.typeName))
  | some .failAfter => bracketed d do
      let _ ← walkBelow d
      .fail (.raised ("after " ++ d.typeName))

def visitor (rules : List Rule) : Visitor Datum Events Fault Datum where
  before c d := c.size < d.size
  wf := Datum.size_wf
  method := walk rules

end Observation

open Observation (Rule Events)

def Datum.observe (rules : List Rule) (tree : Datum) : Except Fault Datum × Events :=
  let (r, es) := (Observation.visitor rules).drive tree []
  (r, es.reverse)

end ScopeResolution
