import ScopeResolution.Datum.Order
import ScopeResolution.Names.Collection

namespace ScopeResolution

def Text.alignRight (width : Nat) (s : String) : String :=
  String.ofList (List.replicate (width - s.length) ' ' ++ s.toList)

namespace Names

def insertByUid (uid name : Datum) :
    List (Datum × Datum) → Except Fault (List (Datum × Datum))
  | [] => .ok [(uid, name)]
  | (u, n) :: rest => do
      if ← uid.less .left u then return (u, n) :: (← insertByUid uid name rest)
      else return (uid, name) :: (u, n) :: rest

def descending : List (Datum × Datum) → List (Datum × Datum) → Except Fault (List (Datum × Datum))
  | sorted, [] => .ok sorted
  | sorted, (uid, name) :: rest => do descending (← insertByUid uid name sorted) rest

def integerUid? : Datum × Datum → Option (Int × Datum)
  | (.int n, name) => some (n, name)
  | _ => none

/-- Names by their numbers. Where all numbers are integers they have an order; others are put in
their places one by one, which fails where two of them cannot be compared. -/
def ascending (names : List (Datum × Datum)) : Except Fault (List (Datum × Datum)) :=
  match names.mapM integerUid? with
  | some numbered =>
      .ok ((numbered.mergeSort fun a b => decide (a.1 ≤ b.1)).map fun p => (.int p.1, p.2))
  | none => do return (← descending [] names).reverse

def withUid (name : Datum) : Except Fault (Datum × Datum) := do
  return (← name.getAttribute "uid", name)

def column (uid : Datum) : Except Fault String :=
  match uid with
  | .bool b => .ok (Text.alignRight 4 (if b then "1" else "0"))
  | .int n => .ok (Text.alignRight 4 (toString n))
  | .real d => .ok (Text.alignRight 4 d.text)
  | .text s => .ok (Text.alignRight 4 s)
  | _ => .error (.unformattable uid)

def line (p : Datum × Datum) : Except Fault String := do
  return (← column p.1) ++ " " ++ (← p.2.displayed)

def sortedTexts (ss : List String) : List String :=
  ss.mergeSort fun a b => !(decide (b < a))

def freeLine : List String → List String
  | [] => []
  | ss => ["free: " ++ " ".intercalate (sortedTexts ss)]

def listing (tree : Datum) : Except Fault (List String) := do
  let bound ← tree.localBindings
  let lines ← (← ascending (← bound.toList.mapM withUid)).mapM line
  let free ← tree.globalReferences
  return lines ++ freeLine (← free.toList.mapM Datum.displayed)

end Names

end ScopeResolution
