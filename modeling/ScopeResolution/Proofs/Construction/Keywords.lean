import Mathlib.Data.List.Nodup
import ScopeResolution.Construction

namespace ScopeResolution

theorem all_or_first {α : Type} (P : α → Prop) (xs : List α) :
    (∀ x ∈ xs, P x) ∨
      ∃ before x after, xs = before ++ x :: after ∧ (∀ y ∈ before, P y) ∧ ¬ P x := by
  induction xs with
  | nil => exact .inl (List.forall_mem_nil _)
  | cons x xs ih =>
      by_cases first : P x
      · rcases ih with all | ⟨before, y, after, rfl, earlier, fails⟩
        · exact .inl (List.forall_mem_cons.2 ⟨first, all⟩)
        · exact .inr ⟨x :: before, y, after, rfl, List.forall_mem_cons.2 ⟨first, earlier⟩, fails⟩
      · exact .inr ⟨[], x, xs, rfl, List.forall_mem_nil _, first⟩

section LastValue

variable {α : Type} {f : String} {v : α} {cs ds : List (String × α)}

theorem lastValue?_append (f : String) (cs ds : List (String × α)) :
    lastValue? f (cs ++ ds) = (lastValue? f ds).or (lastValue? f cs) := by
  induction cs with
  | nil => cases h : lastValue? f ds <;> simp [lastValue?, h]
  | cons c cs ih =>
      rw [List.cons_append, lastValue?, ih, lastValue?]
      cases lastValue? f ds <;> rfl

theorem lastValue?_eq_none (h : ∀ c ∈ cs, c.1 ≠ f) : lastValue? f cs = none := by
  induction cs with
  | nil => rfl
  | cons c cs ih =>
      rw [List.forall_mem_cons] at h
      rw [lastValue?, ih h.2]
      exact if_neg h.1

theorem mem_of_lastValue? (h : lastValue? f cs = some v) : (f, v) ∈ cs := by
  induction cs with
  | nil => cases h
  | cons c cs ih =>
      rw [lastValue?] at h
      cases later : lastValue? f cs with
      | some w =>
          rw [later] at h
          cases h
          exact List.mem_cons_of_mem _ (ih later)
      | none =>
          rw [later, Option.ite_none_right_eq_some] at h
          obtain ⟨rfl, same⟩ := h
          cases same
          exact List.mem_cons_self

theorem exists_lastValue? (h : f ∈ cs.map (·.1)) : ∃ v, lastValue? f cs = some v := by
  induction cs with
  | nil => cases h
  | cons c cs ih =>
      rw [lastValue?]
      cases later : lastValue? f cs with
      | some w => exact ⟨w, rfl⟩
      | none =>
          rcases List.mem_cons.1 h with same | h
          · exact ⟨c.2, if_pos same.symm⟩
          · obtain ⟨w, found⟩ := ih h
            rw [later] at found
            cases found

theorem lastValue?_eq_none_iff : lastValue? f cs = none ↔ f ∉ cs.map (·.1) := by
  refine ⟨fun h mem => ?_, fun h => lastValue?_eq_none fun c hc same => h ?_⟩
  · obtain ⟨v, found⟩ := exists_lastValue? mem
    rw [h] at found
    cases found
  · exact List.mem_map.2 ⟨c, hc, same⟩

theorem lastValue?_of_mem (distinct : (cs.map (·.1)).Nodup) (h : (f, v) ∈ cs) :
    lastValue? f cs = some v := by
  obtain ⟨w, found⟩ := exists_lastValue? (List.mem_map_of_mem (f := Prod.fst) h)
  have same := List.inj_on_of_nodup_map distinct (mem_of_lastValue? found) h rfl
  rw [found, (Prod.mk.inj same).2]

theorem lastValue?_perm (distinct : (cs.map (·.1)).Nodup) (perm : cs.Perm ds) (f : String) :
    lastValue? f cs = lastValue? f ds := by
  have distinct' : (ds.map (·.1)).Nodup := (perm.map _).nodup_iff.1 distinct
  refine Option.ext fun v => ⟨fun h => ?_, fun h => ?_⟩
  · exact lastValue?_of_mem distinct' (perm.mem_iff.1 (mem_of_lastValue? h))
  · exact lastValue?_of_mem distinct (perm.mem_iff.2 (mem_of_lastValue? h))

theorem lastValue?_map (g : String → α → α) (f : String) (cs : List (String × α)) :
    lastValue? f (cs.map fun c => (c.1, g c.1 c.2)) = (lastValue? f cs).map (g f) := by
  induction cs with
  | nil => rfl
  | cons c cs ih =>
      rw [List.map_cons, lastValue?, ih, lastValue?]
      cases lastValue? f cs with
      | some w => rfl
      | none => by_cases same : c.1 = f <;> simp [same]

theorem lastValue?_filter {p : String → Bool} (keeps : p f = true) (cs : List (String × α)) :
    lastValue? f (cs.filter fun c => p c.1) = lastValue? f cs := by
  induction cs with
  | nil => rfl
  | cons c cs ih =>
      rw [List.filter_cons]
      split
      · rw [lastValue?, ih, lastValue?]
      · rename_i dropped
        have apart : c.1 ≠ f := fun same => dropped (same ▸ keeps)
        rw [ih, lastValue?, if_neg apart]
        cases lastValue? f cs <;> rfl

end LastValue

section Places

variable {α : Type} {fields : List String} {vs : List α} {f : String}

theorem mem_zip {c : String × α} (h : c ∈ fields.zip vs) : c.1 ∈ fields :=
  (List.of_mem_zip h).1

theorem names_zip (fields : List String) (vs : List α) :
    (fields.zip vs).map (·.1) = fields.take vs.length := by
  induction fields generalizing vs with
  | nil => simp
  | cons g fields ih => cases vs <;> simp [ih]

theorem distinct_zip (distinct : fields.Nodup) (vs : List α) :
    ((fields.zip vs).map (·.1)).Nodup := by
  rw [names_zip]
  exact distinct.sublist (List.take_sublist _ _)

theorem lastValue?_zip (distinct : fields.Nodup) {i : Nat} (at_i : fields[i]? = some f) :
    lastValue? f (fields.zip vs) = vs[i]? := by
  refine Option.ext fun v => ⟨fun h => ?_, fun h => ?_⟩
  · obtain ⟨j, at_j⟩ := List.mem_iff_getElem?.1 (mem_of_lastValue? h)
    obtain ⟨at_j, there⟩ := List.getElem?_zip_eq_some.1 at_j
    have inside := (List.getElem?_eq_some_iff.1 at_j).1
    rwa [← (List.getElem?_inj inside distinct).1 (at_j.trans at_i.symm)]
  · have paired : (fields.zip vs)[i]? = some (f, v) := List.getElem?_zip_eq_some.2 ⟨at_i, h⟩
    exact lastValue?_of_mem (distinct_zip distinct vs) (List.mem_of_getElem? paired)

theorem field?_eq_lastValue? (distinct : fields.Nodup) (f : String) (vs : List α) :
    Datum.field? f fields vs = lastValue? f (fields.zip vs) := by
  induction fields generalizing vs with
  | nil => rfl
  | cons g fields ih =>
      rw [List.nodup_cons] at distinct
      cases vs with
      | nil => rfl
      | cons v vs =>
          rw [Datum.field?, List.zip_cons_cons, lastValue?, ih distinct.2]
          by_cases same : g = f
          · have later : lastValue? f (fields.zip vs) = none :=
              lastValue?_eq_none fun c hc named => distinct.1 (same.trans named.symm ▸ mem_zip hc)
            simp [later, same]
          · rw [if_neg same]
            cases lastValue? f (fields.zip vs) with
            | some w => rfl
            | none => exact (if_neg same).symm

end Places

structure Keywords where
  pairs : List (String × Datum)
  distinct : (pairs.map (·.1)).Nodup

namespace Keywords

variable {f : String}

def names (c : Keywords) : List String :=
  c.pairs.map (·.1)

def value? (c : Keywords) (f : String) : Option Datum :=
  lastValue? f c.pairs

def empty : Keywords :=
  ⟨[], List.nodup_nil⟩

theorem pairs_of_names {c : Keywords} {before after : List String}
    (h : c.names = before ++ f :: after) :
    ∃ ps v qs, c.pairs = ps ++ (f, v) :: qs ∧ ps.map (·.1) = before := by
  obtain ⟨ps, rest, pairs, earlier, later⟩ := List.map_eq_append_iff.1 h
  obtain ⟨⟨_, v⟩, qs, rfl, rfl, _⟩ := List.map_eq_cons_iff.1 later
  exact ⟨ps, v, qs, pairs, earlier⟩

theorem value?_eq_none_iff {c : Keywords} : c.value? f = none ↔ f ∉ c.names :=
  lastValue?_eq_none_iff

def updatedBy (c d : Keywords) : Keywords where
  pairs := c.pairs.map (fun p => (p.1, (d.value? p.1).getD p.2)) ++
    d.pairs.filter (fun p => p.1 ∉ c.names)
  distinct := by
    rw [List.map_append, List.map_map]
    refine List.nodup_append.2 ⟨c.distinct, d.distinct.sublist ?_, fun g hg h hh same => ?_⟩
    · exact (List.filter_sublist).map _
    · obtain ⟨p, hp, rfl⟩ := List.mem_map.1 hh
      have absent : p.1 ∉ c.names := by simpa using (List.mem_filter.1 hp).2
      exact absent (same ▸ hg)

theorem names_updatedBy (c d : Keywords) :
    (c.updatedBy d).names = c.names ++ d.names.filter (· ∉ c.names) := by
  simp only [names, updatedBy, List.map_append, List.map_map, List.filter_map]
  rfl

theorem value?_updatedBy (c d : Keywords) (f : String) :
    (c.updatedBy d).value? f = (d.value? f).or (c.value? f) := by
  have older := lastValue?_map (fun g v => (d.value? g).getD v) f c.pairs
  rw [value?, updatedBy, lastValue?_append, older]
  by_cases named : f ∈ c.names
  · obtain ⟨v, found⟩ := exists_lastValue? named
    have kept : lastValue? f (d.pairs.filter fun p => p.1 ∉ c.names) = none :=
      lastValue?_eq_none fun p hp same => by
        have absent : p.1 ∉ c.names := by simpa using (List.mem_filter.1 hp).2
        exact absent (same ▸ named)
    rw [kept, value?, value?, found]
    cases lastValue? f d.pairs <;> rfl
  · have added := lastValue?_filter (p := fun g => g ∉ c.names) (by simpa using named) d.pairs
    rw [added, value?, value?, lastValue?_eq_none_iff.2 named]
    rfl

end Keywords

end ScopeResolution
