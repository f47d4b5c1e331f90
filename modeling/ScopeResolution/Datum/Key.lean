import ScopeResolution.Datum.Equality

/-!
What a value is looked up by. Only values that cannot change have a key, so a list has none, nor
has any value that holds one; nor has a node whose field names come to an end in a fault. Keys are
compared by their parts (`Key.agrees_iff`), and each has a number to be filed by (`Key.code`).

A stored value is found by a value of the same key that looks the same or that it equals, the
comparison being led from the stored one (`Keyed.meets`). Values of one key may still differ, as
numbers do that have the same remainder; and comparing nodes of one key may fail, since a node that
reads its field names off a field has a key made of the values alone.
-/

namespace ScopeResolution

inductive Key where
  | null
  | int (n : Int)
  | real (d : Decimal)
  | text (s : String)
  | tuple (items : List Key)
  | node (tag : Kind.Tag) (fields : List Key)

namespace Key

def agrees : Key → Key → Bool
  | .null, .null => true
  | .int m, .int n => m == n
  | .real c, .real d => c == d
  | .text s, .text t => s == t
  | .tuple ks, .tuple ls => agreeAll ks ls
  | .node s ks, .node t ls => s == t && agreeAll ks ls
  | _, _ => false
where
  agreeAll : List Key → List Key → Bool
    | [], [] => true
    | k :: ks, l :: ls => agrees k l && agreeAll ks ls
    | _, _ => false

mutual

theorem agrees_iff : ∀ {k l : Key}, k.agrees l = true ↔ k = l
  | .tuple ks, l => by cases l <;> simp [agrees, agreeAll_iff]
  | .node s ks, l => by cases l <;> simp [agrees, agreeAll_iff]
  | .null, l => by cases l <;> simp [agrees]
  | .int n, l => by cases l <;> simp [agrees]
  | .real d, l => by cases l <;> simp [agrees]
  | .text s, l => by cases l <;> simp [agrees]

theorem agreeAll_iff : ∀ {ks ls : List Key}, agrees.agreeAll ks ls = true ↔ ks = ls
  | [], ls => by cases ls <;> simp [agrees.agreeAll]
  | k :: ks, ls => by cases ls <;> simp [agrees.agreeAll, agrees_iff, agreeAll_iff]

end

instance : DecidableEq Key := fun _ _ => decidable_of_iff _ agrees_iff

def mix (code n : Nat) : Nat :=
  (1000003 * code + n) % 1099511627776

def textCode (s : String) : Nat :=
  s.toList.foldl (fun code c => mix code c.toNat) 1

/-- A number by which keys are filed; keys of one number need not be the same. -/
def code : Key → Nat
  | .null => 0
  | .int n => (n % 1099511627776).toNat
  | .real d => textCode d.text
  | .text s => textCode s
  | .tuple ks => codes 2 ks
  | .node _ ks => codes 3 ks
where
  codes (start : Nat) : List Key → Nat
    | [] => start
    | k :: ks => codes (mix start (code k)) ks

def ofInt (n : Int) : Key :=
  let remainder := n.tmod 2305843009213693951
  .int (if remainder = -1 then -2 else remainder)

def ofReal (d : Decimal) : Key :=
  match d.integer? with
  | some n => ofInt n
  | none =>
      if d.text = "inf" then ofInt 314159
      else if d.text = "-inf" then ofInt (-314159)
      else .real d

def ofText (s : String) : Key :=
  if s = "" then .int 0 else .text s

def ofRemark : Remark → Key
  | none => .null
  | some s => ofText s

end Key

namespace Datum

def key : Datum → Except Fault Key
  | .null => .ok .null
  | .bool b => .ok (.ofInt (if b then 1 else 0))
  | .int n => .ok (.ofInt n)
  | .real d => .ok (.ofReal d)
  | .text s => .ok (.ofText s)
  | .list _ => .error .unhashable
  | .tuple xs => (keys xs).map .tuple
  | .name s u => do
      let k ← key s
      let l ← key u
      return .tuple [k, l]
  | .node k fs => match hiding? .names k fs with
      | none => (keys fs).map (.node k.tag)
      | some _ => match (fieldNames k fs).2 with
          | some fault => .error fault
          | none => do
              let ks ← (known k fs (fun r => .ok (.ofRemark r)) (eachKey fs)).mapM (·.2)
              return .node k.tag ks
where
  keys : List Datum → Except Fault (List Key)
    | [] => .ok []
    | d :: ds => do
        let k ← key d
        let ks ← keys ds
        return k :: ks
  eachKey : List Datum → List (Except Fault Key)
    | [] => []
    | d :: ds => key d :: eachKey ds

end Datum

/-- A value together with what it is looked up by. -/
structure Keyed where
  datum : Datum
  key : Key
  key_eq : datum.key = .ok key

def Datum.keyed (d : Datum) : Except Fault Keyed :=
  match h : d.key with
  | .ok key => .ok ⟨d, key, h⟩
  | .error fault => .error fault

def Keyed.ofText (s : String) : Keyed :=
  ⟨.text s, .ofText s, rfl⟩

theorem Keyed.keyed_datum (k : Keyed) : k.datum.keyed = .ok k := by
  unfold Datum.keyed
  split
  case h_1 key found =>
    cases k.key_eq.symm.trans found
    rfl
  case h_2 fault found => cases k.key_eq.symm.trans found

namespace Keyed

/-- Whether a stored value is the one that is looked for. Values of different keys are not compared,
nor are values that look the same, a NaN being always the same one; a comparison may fail. -/
@[inline]
def meets (stored sought : Keyed) : Except Fault Bool :=
  if stored.key = sought.key then
    if stored.datum.resembles sought.datum then .ok true else stored.datum.equals sought.datum
  else .ok false

theorem meets_of_key_ne {stored sought : Keyed} (h : stored.key ≠ sought.key) :
    stored.meets sought = .ok false :=
  if_neg h

theorem meets_self (k : Keyed) : k.meets k = .ok true := by
  rw [meets, if_pos rfl, if_pos k.datum.resembles_self]

end Keyed

end ScopeResolution
