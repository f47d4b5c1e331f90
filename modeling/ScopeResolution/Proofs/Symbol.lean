import ScopeResolution.Proofs.Datum.Essence
import ScopeResolution.Scopes

namespace ScopeResolution

/-- A value that can be hashed, except: one in which a NaN stands, which equals nothing; and one in
which a node stands whose kind has a field called `_fields`, so that its fields depend on what that
field holds, or one called `iter_fields`, so that it has no text. -/
structure Symbol extends Keyed where
  regular : datum.regular = true

namespace Symbol

def essence (x : Symbol) : Essence :=
  x.datum.essence

def ofText (s : String) : Symbol :=
  ⟨.ofText s, rfl⟩

def ofInt (n : Int) : Symbol :=
  ⟨⟨.int n, .ofInt n, rfl⟩, rfl⟩

def ofBool (b : Bool) : Symbol :=
  ⟨⟨.bool b, .ofInt (if b then 1 else 0), rfl⟩, rfl⟩

theorem meets_symbol (stored : Keyed) (x : Symbol) :
    stored.meets x.toKeyed = .ok (decide (stored.datum.essence = x.essence)) :=
  Keyed.meets_of_regular x.regular

theorem datum_freeze (x : Symbol) : x.datum.freeze = x.datum := by
  have keyed := x.key_eq
  cases h : x.datum with
  | list xs =>
      rw [h] at keyed
      cases keyed
  | _ => rfl

end Symbol

namespace Slot

def held (e : Essence) : List Slot → Option Datum
  | [] => none
  | s :: rest => if s.under.datum.essence = e then some s.value else held e rest

theorem retrieve_symbol (slots : List Slot) (x : Symbol) :
    retrieve x.toKeyed slots = .ok (held x.essence slots) := by
  induction slots with
  | nil => rfl
  | cons s rest ih =>
      simp only [retrieve, x.meets_symbol s.under, ih, held]
      by_cases here : s.under.datum.essence = x.essence <;>
        simp [here, bind, Except.bind, pure, Except.pure]

theorem store_symbol (slots : List Slot) (x : Symbol) (v : Datum) :
    ∃ after, store x.toKeyed v slots = .ok after ∧
      ∀ e, held e after = if x.essence = e then some v else held e slots := by
  induction slots with
  | nil => exact ⟨[⟨x.toKeyed, v⟩], rfl, fun e => rfl⟩
  | cons s rest ih =>
      obtain ⟨after, stored, holds⟩ := ih
      by_cases here : s.under.datum.essence = x.essence
      · refine ⟨{ s with value := v } :: rest, ?_, fun e => ?_⟩
        · simp [store, x.meets_symbol s.under, here, bind, Except.bind, pure, Except.pure]
        · simp only [held, here]
          by_cases same : x.essence = e <;> simp [same]
      · refine ⟨s :: after, ?_, fun e => ?_⟩
        · simp [store, x.meets_symbol s.under, here, stored, bind, Except.bind, pure, Except.pure]
        · simp only [held, holds]
          by_cases same : s.under.datum.essence = e
          · have apart : x.essence ≠ e := fun other => here (same.trans other.symm)
            simp [same, apart]
          · simp [same]

end Slot

namespace Dictionary

def held (d : Dictionary) (e : Essence) : Option Datum :=
  Slot.held e d.toList

theorem get?_symbol (d : Dictionary) (x : Symbol) : d.get? x.toKeyed = .ok (d.held x.essence) := by
  rw [get?_eq]
  exact Slot.retrieve_symbol d.toList x

theorem siteOf_symbol (d : Dictionary) (x : Symbol) :
    ∃ site, d.siteOf x.datum = .ok site ∧
      ∀ v e, (d.settle site v).held e = if x.essence = e then some v else d.held e := by
  have known : d.siteOf x.datum = d.site x.toKeyed := by
    simp [siteOf, x.keyed_datum, bind, Except.bind]
  cases placed : d.site x.toKeyed with
  | error fault =>
      obtain ⟨after, stored, _⟩ := Slot.store_symbol d.toList x .null
      have put := toList_put d x.toKeyed .null
      rw [stored, Dictionary.put, placed] at put
      cases put
  | ok site =>
      refine ⟨site, known.trans placed, fun v e => ?_⟩
      obtain ⟨after, stored, holds⟩ := Slot.store_symbol d.toList x v
      have put := toList_put d x.toKeyed v
      rw [stored, Dictionary.put, placed] at put
      have kept : (d.settle site v).toList = after := Except.ok.inj put
      rw [held, kept]
      exact holds e

end Dictionary

namespace Scopes

def held (s : Scopes) (e : Essence) : Option Datum :=
  s.frames.findSome? (·.held e)

theorem find?_symbol (ds : List Dictionary) (x : Symbol) :
    find? x.toKeyed ds = .ok (ds.findSome? (·.held x.essence)) := by
  induction ds with
  | nil => rfl
  | cons d rest ih =>
      simp only [find?, d.get?_symbol x, ih, List.findSome?_cons]
      cases d.held x.essence <;> rfl

theorem lookup_symbol (s : Scopes) (x : Symbol) :
    s.lookup x.datum = .ok ((s.held x.essence).getD .null) := by
  simp only [lookup, getOr, x.keyed_datum, get?, find?_symbol, bind, Except.bind, pure,
    Except.pure, held]

theorem siteOf_symbol (s : Scopes) (x : Symbol) :
    ∃ site, s.siteOf x.datum = .ok site ∧
      ∀ v e, (s.settle site v).held e = if x.essence = e then some v else s.held e := by
  obtain ⟨site, placed, settled⟩ := s.inner.siteOf_symbol x
  refine ⟨site, placed, fun v e => ?_⟩
  simp only [held, frames, settle, List.findSome?_cons, settled]
  by_cases same : x.essence = e <;> simp [same]

end Scopes

end ScopeResolution
