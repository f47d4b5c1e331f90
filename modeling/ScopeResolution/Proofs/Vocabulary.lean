import Mathlib.Data.List.Nodup
import ScopeResolution.Construction
import ScopeResolution.Proofs.Datum.Closed

namespace ScopeResolution

namespace Kind

def Tag.number? : Tag → Option Nat
  | .builtin _ => none
  | .derived i _ => some i

def unplaced : Kind → Kind
  | .derived i _ name fields defaults base => .derived i none name fields defaults base
  | k => k

@[simp]
theorem tag_unplaced (k : Kind) : k.unplaced.tag = k.tag := by
  cases k <;> rfl

def ancestors : Kind → List Kind
  | .builtin _ => []
  | .derived _ _ _ _ _ base => base :: base.ancestors

@[simp]
theorem ancestors_unplaced (k : Kind) : k.unplaced.ancestors = k.ancestors := by
  cases k <;> rfl

theorem length_ancestors_lt : {k l : Kind} → l ∈ k.ancestors →
    l.ancestors.length < k.ancestors.length
  | .builtin _, _, h => by cases h
  | .derived _ _ _ _ _ base, l, h => by
      rcases List.mem_cons.1 h with rfl | further
      · exact Nat.lt_succ_self _
      · exact Nat.lt_succ_of_lt (length_ancestors_lt further)

theorem unplaced_ne_of_ancestor {k l : Kind} (h : l.unplaced ∈ k.ancestors) :
    k.unplaced ≠ l.unplaced := by
  intro same
  have shorter := length_ancestors_lt h
  rw [← same, ancestors_unplaced] at shorter
  exact Nat.lt_irrefl _ shorter

end Kind

namespace Vocabulary

def Has (v : Vocabulary) (k : Kind) : Prop :=
  (∃ f, k = .builtin f) ∨ k.unplaced ∈ v.derived

inductive Defined : Vocabulary → Prop
  | builtin : Defined .builtin
  | define {v w : Vocabulary} {name : String} {fields : Option (List String)}
      {defaults : Option (List (String × Datum))} {base : Kind} :
      Defined v → v.define name fields defaults base = .ok w → Defined w

namespace Defined

variable {v : Vocabulary}

theorem numbers (h : v.Defined) :
    v.derived.map (·.tag.number?) = (List.range v.derived.length).reverse.map some := by
  induction h with
  | builtin => rfl
  | @define v w name fields defaults base _ defined ih =>
      rw [Vocabulary.define] at defined
      split at defined
      · cases defined
      · cases defined
        rw [List.map_cons, ih, List.length_cons, List.range_succ, List.reverse_append]
        rfl

theorem tag_injective (h : v.Defined) {k l : Kind} (hk : k ∈ v.derived) (hl : l ∈ v.derived)
    (same : k.tag = l.tag) : k = l := by
  have nodup : (v.derived.map (·.tag.number?)).Nodup := by
    rw [h.numbers]
    exact (List.nodup_reverse.2 List.nodup_range).map fun _ _ => Option.some.inj
  exact List.inj_on_of_nodup_map nodup hk hl (congrArg Kind.Tag.number? same)

theorem number_of_mem (h : v.Defined) {k : Kind} (hk : k ∈ v.derived) :
    ∃ i, k.tag.number? = some i := by
  have listed : k.tag.number? ∈ v.derived.map (·.tag.number?) := List.mem_map_of_mem hk
  rw [h.numbers] at listed
  obtain ⟨i, _, number⟩ := List.mem_map.1 listed
  exact ⟨i, number.symm⟩

theorem unplaced_eq_of_tag (h : v.Defined) {k l : Kind} (hk : v.Has k) (hl : v.Has l)
    (same : k.tag = l.tag) : k.unplaced = l.unplaced := by
  rcases hk with ⟨f, rfl⟩ | hk <;> rcases hl with ⟨g, rfl⟩ | hl
  · exact congrArg Kind.builtin (Kind.Tag.builtin.inj same)
  · obtain ⟨i, number⟩ := h.number_of_mem hl
    rw [Kind.tag_unplaced, ← same] at number
    cases number
  · obtain ⟨i, number⟩ := h.number_of_mem hk
    rw [Kind.tag_unplaced, same] at number
    cases number
  · exact h.tag_injective hk hl (by simpa using same)

end Defined

end Vocabulary

namespace Datum

/-- A value without floating-point numbers, whose nodes are all of these kinds and have a value for
each field. -/
inductive MadeOf (kinds : Kind → Prop) : Datum → Prop
  | null : MadeOf kinds .null
  | bool (b : Bool) : MadeOf kinds (.bool b)
  | int (n : Int) : MadeOf kinds (.int n)
  | text (s : String) : MadeOf kinds (.text s)
  | list {xs : List Datum} (items : ∀ x ∈ xs, MadeOf kinds x) : MadeOf kinds (.list xs)
  | tuple {xs : List Datum} (items : ∀ x ∈ xs, MadeOf kinds x) : MadeOf kinds (.tuple xs)
  | name {s u : Datum} (symbol : MadeOf kinds s) (uid : MadeOf kinds u) : MadeOf kinds (.name s u)
  | node {k : Kind} {fs : List Datum} (own : kinds k) (full : fs.length = k.fields.length)
      (fields : ∀ v ∈ fs, MadeOf kinds v) : MadeOf kinds (.node k fs)

theorem MadeOf.items {kinds : Kind → Prop} {d : Datum} {xs : List Datum} (h : d.MadeOf kinds)
    (items : d.tupleItems? = some xs) : ∀ x ∈ xs, x.MadeOf kinds := by
  cases h with
  | tuple all =>
      cases items
      exact all
  | name symbol uid =>
      cases items
      exact List.forall_mem_cons.2 ⟨symbol, List.forall_mem_singleton.2 uid⟩
  | _ => cases items

end Datum

def Vocabulary.Direct (v : Vocabulary) (k : Kind) : Prop :=
  v.Has k ∧ Own.names.name ∉ k.fields

theorem Vocabulary.closed_direct (v : Vocabulary) : Datum.Closed (Datum.MadeOf v.Direct) where
  number := nofun
  items made items := made.items items
  list := fun | .list items => items
  names := fun
    | .node own _ _ => by
        rw [Datum.hiding?_eq_field?]
        exact Datum.field?_eq_none own.2
  full := fun | .node _ full _ => full
  fields := fun | .node _ _ fields => fields

end ScopeResolution
