import ScopeResolution.Datum.Fields
import ScopeResolution.Datum.Sharing

/-!
Equality of values. Numbers are compared by value whatever their type, a NaN equals no number, a
name equals the tuple of its symbol and number, and nodes of different kinds are never equal.

A comparison is led from one of its sides: it goes through the fields that the node on that side
knows, stops at the first difference, and fails where those fields come to an end in a fault. It is
led from the left, but a name leads against a tuple. The items of lists, tuples and names are not
compared where they are one and the same.
-/

namespace ScopeResolution.Datum

def integer? : Datum → Option Int
  | .bool b => some (if b then 1 else 0)
  | .int n => some n
  | .real d => d.integer?
  | _ => none

def sameNumber (a b : Datum) : Bool :=
  match a.integer?, b.integer? with
  | some m, some n => m == n
  | none, none =>
      match a, b with
      | .real x, .real y => x == y && x.isNumber
      | _, _ => false
  | _, _ => false

def tupleItems? : Datum → Option (List Datum)
  | .tuple xs => some xs
  | .name s u => some [s, u]
  | _ => none

inductive Side where
  | left
  | right
  deriving DecidableEq, Repr

def leader : Datum → Datum → Side → Side
  | .tuple _, .name _ _, _ => .right
  | .name _ _, .tuple _, _ => .left
  | _, _, side => side

def itemOutcome (x y : Datum) (outcome : Except Fault Bool) : Except Fault Bool :=
  if x.identical y then .ok true else outcome

def agreement : List (String × Except Fault Bool) → Option Fault → Except Fault Bool
  | [], none => .ok true
  | [], some fault => .error fault
  | (_, r) :: rest, fault => do
      if ← r then agreement rest fault else return false

def alike : Remark → Except Fault Bool :=
  fun _ => .ok true

def compare : Datum → Side → Datum → Except Fault Bool
  | .null, _, b => match b with
      | .null => .ok true
      | _ => .ok false
  | .bool x, _, b => .ok (sameNumber (.bool x) b)
  | .int n, _, b => .ok (sameNumber (.int n) b)
  | .real d, _, b => .ok (sameNumber (.real d) b)
  | .text s, _, b => match b with
      | .text t => .ok (s == t)
      | _ => .ok false
  | .list xs, side, b => match b with
      | .list ys => if xs.length = ys.length then compareItems xs side ys else .ok false
      | _ => .ok false
  | .tuple xs, side, b => match b.tupleItems? with
      | some ys => compareItems xs (leader (.tuple xs) b side) ys
      | none => .ok false
  | .name s u, side, b => match b.tupleItems? with
      | some (t :: rest) => do
          let side := leader (.name s u) b side
          if ← itemOutcome s t (compare s side t) then
            match rest with
            | v :: rest => do
                if ← itemOutcome u v (compare u side v) then return rest.isEmpty else return false
            | [] => return false
          else return false
      | _ => .ok false
  | .node k fs, side, b => match b with
      | .node l gs =>
          if k.tag = l.tag then
            match side with
            | .left =>
                agreement (known k fs alike (compareFields fs .left gs)) (fieldNames k fs).2
            | .right =>
                agreement (known l gs alike (compareFields fs .right gs)) (fieldNames l gs).2
          else .ok false
      | _ => .ok false
where
  compareItems : List Datum → Side → List Datum → Except Fault Bool
    | [], _, [] => .ok true
    | x :: xs, side, y :: ys => do
        if ← itemOutcome x y (compare x side y) then compareItems xs side ys else return false
    | _, _, _ => .ok false
  compareFields : List Datum → Side → List Datum → List (Except Fault Bool)
    | x :: xs, side, y :: ys => compare x side y :: compareFields xs side ys
    | _, _, _ => []

def equals (a b : Datum) : Except Fault Bool :=
  compare a .left b

def differs (a b : Datum) : Except Fault Bool := do
  return !(← equals a b)

def equalsItem (x y : Datum) : Except Fault Bool :=
  itemOutcome x y (equals x y)

end ScopeResolution.Datum
