import ScopeResolution.Decimal
import ScopeResolution.Form

namespace ScopeResolution

mutual

/-- A kind is built in, or derived from another kind under a name of its own, with its own field
names and the values its fields take when none is given. The number tells apart derivations that
agree in everything else. A node that stands in a default is shared by all nodes that take it, and
has a place by which it is known. -/
inductive Kind where
  | builtin (form : Form)
  | derived (number : Nat) (place : Option Nat) (name : String) (fields : List String)
      (defaults : List (String × Datum)) (base : Kind)

inductive Datum where
  | null
  | bool (b : Bool)
  | int (n : Int)
  | real (d : Decimal)
  | text (s : String)
  | list (items : List Datum)
  | tuple (items : List Datum)
  | name (symbol uid : Datum)
  | node (kind : Kind) (fields : List Datum)

end

namespace Kind

def name : Kind → String
  | .builtin f => f.name
  | .derived _ _ n _ _ _ => n

/-- The built-in form whose name a kind bears; names tell which method visits a node. -/
def bears (k : Kind) : Option Form :=
  match k with
  | .builtin f => some f
  | .derived _ _ n _ _ _ => Form.named? n

theorem bears_eq (k : Kind) : k.bears = Form.named? k.name := by
  cases k with
  | builtin f => exact (Form.named?_name f).symm
  | derived => rfl

def fields : Kind → List String
  | .builtin f => f.fields
  | .derived _ _ _ fs _ _ => fs

def root : Kind → Form
  | .builtin f => f
  | .derived _ _ _ _ _ base => base.root

inductive Tag where
  | builtin (form : Form)
  | derived (number : Nat) (fields : List String)
  deriving DecidableEq, Repr

def tag : Kind → Tag
  | .builtin f => .builtin f
  | .derived i _ _ fs _ _ => .derived i fs

theorem fields_eq_of_tag {k l : Kind} (h : k.tag = l.tag) : k.fields = l.fields := by
  cases k <;> cases l <;> cases h <;> rfl

end Kind

namespace Datum

instance : Inhabited Datum := ⟨.null⟩

def size : Datum → Nat
  | .null => 1
  | .bool _ => 1
  | .int _ => 1
  | .real _ => 1
  | .text _ => 1
  | .list xs => 1 + sizes xs
  | .tuple xs => 1 + sizes xs
  | .name s u => 1 + size s + size u
  | .node _ fs => 1 + sizes fs
where
  sizes : List Datum → Nat
    | [] => 0
    | d :: ds => size d + sizes ds

theorem size_pos (d : Datum) : 0 < d.size := by
  cases d <;> simp only [size] <;> omega

theorem size_le_sizes {d : Datum} {ds : List Datum} (h : d ∈ ds) : d.size ≤ size.sizes ds := by
  induction ds with
  | nil => cases h
  | cons x xs ih =>
      cases h with
      | head => simp [size.sizes]
      | tail _ h => have := ih h; simp only [size.sizes]; omega

theorem size_of_mem_fields {d : Datum} {k : Kind} {fs : List Datum} (h : d ∈ fs) :
    d.size < (node k fs).size := by
  have := size_le_sizes h
  simp only [size]
  omega

abbrev Part (d : Datum) := { c : Datum // c.size < d.size }

def typeName : Datum → String
  | .null => "NoneType"
  | .bool _ => "bool"
  | .int _ => "int"
  | .real _ => "float"
  | .text _ => "str"
  | .list _ => "list"
  | .tuple _ => "tuple"
  | .name _ _ => "Name"
  | .node k _ => k.name

def isNode : Datum → Bool
  | .node _ _ => true
  | _ => false

/-- A list put into a field becomes a tuple, so that nodes do not change; lists inside it stay. -/
def freeze : Datum → Datum
  | .list xs => .tuple xs
  | d => d

@[simp]
theorem freeze_freeze (d : Datum) : d.freeze.freeze = d.freeze := by
  cases d <;> rfl

def ofForm (f : Form) (fields : List Datum) : Datum :=
  .node (.builtin f) (fields.map freeze)

def globalName (symbol : Datum) : Datum :=
  .name symbol (.int 0)

def isZero : Datum → Bool
  | .bool b => !b
  | .int n => n == 0
  | .real d => d.integer? == some 0
  | _ => false

def countsAsTrue : Datum → Bool
  | .null => false
  | .text s => s != ""
  | .list xs => !xs.isEmpty
  | .tuple xs => !xs.isEmpty
  | .name _ _ => true
  | .node _ _ => true
  | d => !d.isZero

def field? {α : Type} (a : String) : List String → List α → Option α
  | f :: fs, x :: xs => if f = a then some x else field? a fs xs
  | _, _ => none

section Fields

variable {α : Type} {a : String} {fs : List String} {xs : List α}

theorem mem_of_field? {x : α} (h : field? a fs xs = some x) : x ∈ xs := by
  induction fs generalizing xs with
  | nil => simp [field?] at h
  | cons f fs ih =>
      cases xs with
      | nil => simp [field?] at h
      | cons y ys =>
          simp only [field?] at h
          split at h
          · simp_all
          · exact List.mem_cons_of_mem _ (ih h)

theorem field?_eq_none (h : a ∉ fs) : field? a fs xs = none := by
  induction fs generalizing xs with
  | nil => rfl
  | cons f fs ih =>
      cases xs with
      | nil => rfl
      | cons y ys =>
          have differs : f ≠ a := fun e => h (by simp [e])
          rw [field?, if_neg differs]
          exact ih fun m => h (List.mem_cons_of_mem _ m)

end Fields

def attribute? (a : String) : Datum → Option Datum
  | .node k fs => field? a k.fields fs
  | .name s u =>
      if a = "symbol" then some s
      else if a = "uid" then some u
      else if a = "is_global" then some (.bool u.isZero)
      else none
  | _ => none

theorem size_of_attribute? {a : String} {d v : Datum} (h : d.attribute? a = some v) :
    v.size < d.size := by
  cases d with
  | node k fs => exact size_of_mem_fields (mem_of_field? h)
  | name s u =>
      have := size_pos s
      have := size_pos u
      simp only [attribute?] at h
      split at h
      · cases h; simp only [size]; omega
      · split at h
        · cases h; simp only [size]; omega
        · split at h
          · cases h; simp only [size]; omega
          · cases h
  | _ => simp [attribute?] at h

def items? : Datum → Option (List Datum)
  | .list xs => some xs
  | .tuple xs => some xs
  | .name s u => some [s, u]
  | .text s => some (s.toList.map fun c => .text c.toString)
  | _ => none

theorem size_of_mem_items? {d x : Datum} {xs : List Datum} (h : d.items? = some xs) (hx : x ∈ xs) :
    x.size ≤ d.size := by
  cases d with
  | list ys => cases h; have := size_le_sizes hx; simp only [size]; omega
  | tuple ys => cases h; have := size_le_sizes hx; simp only [size]; omega
  | name s u => cases h; simp only [List.mem_cons, List.not_mem_nil, or_false] at hx
                rcases hx with rfl | rfl <;> simp only [size] <;> omega
  | text s => cases h; simp only [List.mem_map] at hx
              obtain ⟨c, _, rfl⟩ := hx
              simp [size]
  | _ => simp [items?] at h

/-- The nodes that stand in a field: the value itself, or the items of a tuple or name. -/
def nodesIn : Datum → List Datum
  | .node k fs => [.node k fs]
  | .tuple xs => xs.filter isNode
  | .name s u => [s, u].filter isNode
  | _ => []

theorem size_of_mem_nodesIn {d x : Datum} (h : x ∈ d.nodesIn) : x.size ≤ d.size := by
  cases d with
  | node k fs => simp [nodesIn] at h; simp [h]
  | tuple xs => exact size_of_mem_items? rfl (List.mem_filter.1 h).1
  | name s u => exact size_of_mem_items? rfl (List.mem_filter.1 h).1
  | _ => simp [nodesIn] at h

end Datum

end ScopeResolution
