import Std.Data.TreeMap.Lemmas
import ScopeResolution.Datum.Render
import ScopeResolution.Dictionary.Slot

namespace ScopeResolution

structure Site where
  under : Keyed
  place : Option Nat

/-- Slots in the order in which they were added, and their places filed by the codes of their
keys. -/
structure Dictionary where
  slots : Array Slot
  index : Std.TreeMap Nat (List Nat)
  index_eq : ∀ code, index.getD code [] = Slot.placesOf code slots.toList 0

namespace Dictionary

def empty : Dictionary where
  slots := #[]
  index := ∅
  index_eq code := by simp [Slot.placesOf]

instance : Inhabited Dictionary := ⟨empty⟩

def toList (d : Dictionary) : List Slot :=
  d.slots.toList

def place? (d : Dictionary) (k : Keyed) : Except Fault (Option Nat) :=
  Slot.firstAmong k d.slots (d.index.getD k.key.code [])

theorem place?_eq (d : Dictionary) (k : Keyed) : d.place? k = Slot.locate k d.toList := by
  rw [place?, d.index_eq, Slot.firstAmong_placesOf k d.slots d.slots.toList 0]
  · rw [toList]
    cases Slot.locate k d.slots.toList with
    | error e => rfl
    | ok place => cases place <;> rfl
  · intro i s h
    simpa using h

def site (d : Dictionary) (k : Keyed) : Except Fault Site :=
  (d.place? k).map (Site.mk k)

def settle (d : Dictionary) (site : Site) (v : Datum) : Dictionary :=
  match site.place with
  | some i =>
      { d with
        slots := d.slots.modify i fun s => { s with value := v }
        index_eq := fun code => by
          rw [d.index_eq, Array.toList_modify, Slot.placesOf_modify] }
  | none =>
      let code := site.under.key.code
      let places := d.index.getD code [] ++ [d.slots.size]
      { slots := d.slots.push ⟨site.under, v⟩
        index := d.index.insert code places
        index_eq := fun c => by
          rw [Std.TreeMap.getD_insert, Array.toList_push, Slot.placesOf_append, ← d.index_eq]
          by_cases same : code = c
          · simp [same, code, places]
          · simp [same, code] }

def get? (d : Dictionary) (k : Keyed) : Except Fault (Option Datum) :=
  (d.place? k).map fun place => place.bind fun i => d.slots[i]?.map (·.value)

theorem get?_eq (d : Dictionary) (k : Keyed) : d.get? k = Slot.retrieve k d.toList := by
  rw [get?, place?_eq, Slot.retrieve_eq_locate]
  simp [toList]

def put (d : Dictionary) (k : Keyed) (v : Datum) : Except Fault Dictionary :=
  (d.site k).map fun site => d.settle site v

theorem toList_put (d : Dictionary) (k : Keyed) (v : Datum) :
    (d.put k v).map toList = Slot.store k v d.toList := by
  rw [put, site, place?_eq, Slot.store_eq_locate]
  cases Slot.locate k d.toList with
  | error e => rfl
  | ok place => cases place <;> simp [Except.map, settle, toList]

theorem store_of_put {d e : Dictionary} {k : Keyed} {v : Datum} (h : d.put k v = .ok e) :
    Slot.store k v d.toList = .ok e.toList := by
  rw [← toList_put, h]
  rfl

theorem get?_of_put_self {d e : Dictionary} {k : Keyed} {v : Datum} (h : d.put k v = .ok e) :
    e.get? k = .ok (some v) := by
  rw [get?_eq]
  exact Slot.retrieve_of_store_self (store_of_put h)

theorem get?_of_put_apart {d e : Dictionary} {k l : Keyed} {v : Datum} (h : d.put k v = .ok e)
    (old : ∀ s ∈ d.toList, s.under.meets k = .ok true → s.under.meets l = .ok false)
    (new : k.meets l = .ok false) : e.get? l = d.get? l := by
  rw [get?_eq, get?_eq]
  exact Slot.retrieve_of_store_apart (store_of_put h) old new

def siteOf (d : Dictionary) (v : Datum) : Except Fault Site := do
  d.site (← v.keyed)

def insert (d : Dictionary) (k v : Datum) : Except Fault Dictionary :=
  (d.siteOf k).map fun site => d.settle site v

def keys (d : Dictionary) : List Keyed :=
  d.toList.map (·.under)

def entries (d : Dictionary) : List (Datum × Datum) :=
  d.toList.map fun s => (s.under.datum, s.value)

def size (d : Dictionary) : Nat :=
  d.slots.size

def putAll (d : Dictionary) : List Slot → Except Fault Dictionary
  | [] => .ok d
  | s :: rest => do (← d.put s.under s.value).putAll rest

def merge (d e : Dictionary) : Except Fault Dictionary :=
  d.putAll e.toList

def matched (e : Dictionary) : List Slot → Except Fault Bool
  | [] => .ok true
  | s :: rest => do
      match ← e.get? s.under with
      | some w => if ← s.value.equalsItem w then matched e rest else return false
      | none => return false

def equals (d e : Dictionary) : Except Fault Bool :=
  if d.size = e.size then matched e d.toList else .ok false

def render (d : Dictionary) : String :=
  "\x7b" ++ Datum.joined (d.entries.map fun p => p.1.render ++ ": " ++ p.2.render) ++ "\x7d"

def renderFault? (d : Dictionary) : Option Fault :=
  d.entries.findSome? fun p => p.1.renderFault?.or p.2.renderFault?

end Dictionary

end ScopeResolution
