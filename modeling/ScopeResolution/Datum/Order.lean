import ScopeResolution.Datum.Equality

namespace ScopeResolution.Datum

inductive Position where
  | below
  | at (s : Decimal.Scaled)
  | above

def position? : Datum → Option Position
  | .bool b => some (.at (Decimal.ofInt (if b then 1 else 0)))
  | .int n => some (.at (Decimal.ofInt n))
  | .real d =>
      match d.integer? with
      | some n => some (.at (Decimal.ofInt n))
      | none => match d.scaled? with
          | some s => some (.at s)
          | none => some (if d.text = "-inf" then .below else .above)
  | _ => none

def Position.less : Position → Position → Bool
  | .below, .below => false
  | .below, _ => true
  | .at a, .at b => a.less b
  | .at _, .above => true
  | _, _ => false

def orderFault (a : Datum) (side : Side) (b : Datum) : Fault :=
  match side with
  | .left => .unordered .before a.typeName b.typeName
  | .right => .unordered .after b.typeName a.typeName

def less : Datum → Side → Datum → Except Fault Bool
  | .int m, _, .int n => .ok (m < n)
  | .text s, side, b => match b with
      | .text t => .ok (s < t)
      | _ => .error (orderFault (.text s) side b)
  | .list xs, side, b => match b with
      | .list ys => lessItems xs side ys
      | _ => .error (orderFault (.list xs) side b)
  | .tuple xs, side, b => match b.tupleItems? with
      | some ys => lessItems xs (leader (.tuple xs) b side) ys
      | none => .error (orderFault (.tuple xs) side b)
  | .name s u, side, b => match b.tupleItems? with
      | some [] => .ok false
      | some (t :: rest) => do
          let side := leader (.name s u) b side
          if ← itemOutcome s t (compare s side t) then
            match rest with
            | v :: rest => do
                if ← itemOutcome u v (compare u side v) then return !rest.isEmpty
                else less u side v
            | [] => return false
          else less s side t
      | none => .error (orderFault (.name s u) side b)
  | a, side, b => match a.position?, b.position? with
      | some p, some q => .ok (p.less q)
      | _, _ => .error (orderFault a side b)
where
  lessItems : List Datum → Side → List Datum → Except Fault Bool
    | [], _, ys => .ok (!ys.isEmpty)
    | _ :: _, _, [] => .ok false
    | x :: xs, side, y :: ys => do
        if ← itemOutcome x y (compare x side y) then lessItems xs side ys else less x side y

end ScopeResolution.Datum
