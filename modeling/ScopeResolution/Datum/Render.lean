import ScopeResolution.Datum.Fields
import ScopeResolution.Text.Quoted

namespace ScopeResolution

/-- What the interpreter sets limits to, if to anything: the digits a whole number is read or
written with, and how many more calls may be made within one another where a text is begun. -/
structure Limits where
  digits : Option Nat
  calls : Option Nat
  deriving DecidableEq, Repr

namespace Limits

def unbounded : Limits := ⟨none, none⟩

def standard : Limits := ⟨some 4300, some 1000⟩

def depthFault? (l : Limits) (used : Nat) : Option Fault :=
  match l.calls with
  | some most => if used < most then none else some .tooDeep
  | none => none

def digitsFault? (l : Limits) (n : Int) : Option Fault :=
  match l.digits with
  | some most => if n.natAbs < Nat.pow 10 most then none else some (.tooManyDigits most none)
  | none => none

def integer (l : Limits) (s : String) : Except Fault Int :=
  let count := s.toList.countP Char.isDigit
  match l.digits with
  | some most =>
      if most < count then .error (.tooManyDigits most (some count))
      else .ok (Decimal.intOfText s.toList)
  | none => .ok (Decimal.intOfText s.toList)

end Limits

namespace Datum

def joined (texts : List String) : String :=
  ", ".intercalate texts

def tupled : List String → String
  | [s] => s ++ ","
  | ss => joined ss

def renderRemark : Remark → String
  | none => "None"
  | some s => Text.quoted s

def render : Datum → String
  | .null => "None"
  | .bool b => if b then "True" else "False"
  | .int n => toString n
  | .real d => d.text
  | .text s => Text.quoted s
  | .list xs => "[" ++ joined (renderAll xs) ++ "]"
  | .tuple xs => "(" ++ tupled (renderAll xs) ++ ")"
  | .name s u => "Name(symbol=" ++ render s ++ ", uid=" ++ render u ++ ")"
  | .node k fs =>
      let parts := (entries k fs renderRemark (renderAll fs)).map fun p => p.1 ++ "=" ++ p.2
      k.name ++ "(" ++ joined parts ++ ")"
where
  renderAll : List Datum → List String
    | [] => []
    | d :: ds => render d :: renderAll ds

def display : Datum → String
  | .text s => s
  | .name s _ => display s
  | d => d.render

def renderFault? (d : Datum) : Option Fault :=
  d.passageFault? .inTurn

def displayFault? : Datum → Option Fault
  | .text _ => none
  | .name s _ => displayFault? s
  | d => d.renderFault?

def rendered (d : Datum) : Except Fault String :=
  match d.renderFault? with
  | some fault => .error fault
  | none => .ok d.render

def displayed (d : Datum) : Except Fault String :=
  match d.displayFault? with
  | some fault => .error fault
  | none => .ok d.display

end Datum

namespace Limits

/-- The first fault met in making the text of a value, so many calls being under way. What stands in
a name is shown two calls further down, and what stands in a node four. -/
def renderFault? (l : Limits) : Datum → Nat → Option Fault
  | .int n, used => (l.depthFault? used).or (l.digitsFault? n)
  | .list xs, used => (l.depthFault? used).or ((faults xs (used + 1)).findSome? id)
  | .tuple xs, used => (l.depthFault? used).or ((faults xs (used + 1)).findSome? id)
  | .name s u, used =>
      (l.depthFault? used).or ((renderFault? l s (used + 2)).or (renderFault? l u (used + 2)))
  | .node k fs, used =>
      let within := (Datum.entries k fs (fun _ => none) (faults fs (used + 4))).findSome? (·.2)
      (l.depthFault? used).or (within.or (Datum.node k fs).entriesFault?)
  | _, used => l.depthFault? used
where
  faults : List Datum → Nat → List (Option Fault)
    | [], _ => []
    | d :: ds, used => renderFault? l d used :: faults ds used

def displayFault? (l : Limits) : Datum → Nat → Option Fault
  | .text _, _ => none
  | .name s _, used => (l.depthFault? used).or (displayFault? l s (used + 2))
  | d, used => l.renderFault? d used

def displayed (l : Limits) (d : Datum) : Except Fault String :=
  match l.displayFault? d 0 with
  | some fault => .error fault
  | none => .ok d.display

end Limits

namespace Integer

def ofText (s : String) : Except Fault Int :=
  Limits.standard.integer s

end Integer

def Datum.lengthFault? : Datum → Option Fault
  | .int n => Limits.standard.digitsFault? n
  | _ => none

end ScopeResolution
