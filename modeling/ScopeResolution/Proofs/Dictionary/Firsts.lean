import ScopeResolution.Proofs.Datum.Lawful
import ScopeResolution.Proofs.Dictionary.Apart

namespace ScopeResolution

namespace Keyed

def keep (ks : List Keyed) (k : Keyed) : List Keyed :=
  if ks.any (·.same k) then ks else ks ++ [k]

def firsts (ks : List Keyed) : List Keyed :=
  ks.foldl keep []

def Distinct (ks : List Keyed) : Prop :=
  ks.Pairwise fun k l => k.same l = false

def Covered (ks ls : List Keyed) : Prop :=
  ∀ k ∈ ks, ∃ l ∈ ls, l.same k = true

section Keep

variable {ks ls : List Keyed} {k : Keyed}

theorem keep_of_any (h : ∃ l ∈ ks, l.same k = true) : keep ks k = ks :=
  if_pos (List.any_eq_true.2 h)

theorem keep_of_none (h : ∀ l ∈ ks, l.same k = false) : keep ks k = ks ++ [k] :=
  if_neg (by simpa using h)

theorem keep_cases (ks : List Keyed) (k : Keyed) :
    (∃ l ∈ ks, l.same k = true) ∧ keep ks k = ks ∨
      (∀ l ∈ ks, l.same k = false) ∧ keep ks k = ks ++ [k] := by
  by_cases h : ∃ l ∈ ks, l.same k = true
  · exact .inl ⟨h, keep_of_any h⟩
  · have none : ∀ l ∈ ks, l.same k = false := by simpa using h
    exact .inr ⟨none, keep_of_none none⟩

theorem Distinct.keep (distinct : Distinct ks) (k : Keyed) : Distinct (keep ks k) := by
  rcases keep_cases ks k with ⟨_, same⟩ | ⟨none, more⟩
  · rwa [same]
  · rw [more]
    refine List.pairwise_append.2 ⟨distinct, List.pairwise_singleton _ _, fun l hl m hm => ?_⟩
    rw [List.mem_singleton.1 hm]
    exact none l hl

theorem Distinct.foldl_keep (distinct : Distinct ks) (ls : List Keyed) :
    Distinct (ls.foldl Keyed.keep ks) := by
  induction ls generalizing ks with
  | nil => exact distinct
  | cons l ls ih => exact ih (distinct.keep l)

theorem distinct_firsts (ks : List Keyed) : Distinct (firsts ks) :=
  Distinct.foldl_keep List.Pairwise.nil ks

theorem foldl_keep_of_distinct (distinct : Distinct (ks ++ ls)) :
    ls.foldl keep ks = ks ++ ls := by
  induction ls generalizing ks with
  | nil => exact (List.append_nil ks).symm
  | cons l ls ih =>
      have none : ∀ k ∈ ks, k.same l = false := fun k hk =>
        (List.pairwise_append.1 distinct).2.2 k hk l List.mem_cons_self
      rw [List.append_cons] at distinct
      rw [List.foldl_cons, keep_of_none none, ih distinct, ← List.append_cons]

theorem mem_keep {l : Keyed} (h : l ∈ keep ks k) : l ∈ ks ∨ l = k := by
  rcases keep_cases ks k with ⟨_, same⟩ | ⟨_, more⟩
  · exact .inl (same ▸ h)
  · simpa [more] using h

theorem mem_foldl_keep {l : Keyed} (h : l ∈ ls.foldl keep ks) : l ∈ ks ∨ l ∈ ls := by
  induction ls generalizing ks with
  | nil => exact .inl h
  | cons m ls ih =>
      rcases ih h with kept | later
      · exact (mem_keep kept).imp_right fun same : l = m => same ▸ List.mem_cons_self
      · exact .inr (List.mem_cons_of_mem _ later)

theorem subset_keep (ks : List Keyed) (k : Keyed) : ks ⊆ keep ks k := by
  rcases keep_cases ks k with ⟨_, same⟩ | ⟨_, more⟩
  · rw [same]
    exact List.Subset.refl ks
  · rw [more]
    exact List.subset_append_left ks [k]

theorem subset_foldl_keep (ls ks : List Keyed) : ks ⊆ ls.foldl keep ks := by
  induction ls generalizing ks with
  | nil => exact List.Subset.refl ks
  | cons l ls ih => exact List.Subset.trans (subset_keep ks l) (ih _)

theorem firsts_append_singleton (ks : List Keyed) (k : Keyed) :
    firsts (ks ++ [k]) = keep (firsts ks) k :=
  List.foldl_append

end Keep

section Lawful

variable {K : Keyed → Prop} {ks ls ms : List Keyed} {k : Keyed}

theorem covered_keep (lawful : Lawful K) (own : K k) (ks : List Keyed) :
    ∃ l ∈ keep ks k, l.same k = true := by
  rcases keep_cases ks k with ⟨equal, same⟩ | ⟨_, more⟩
  · rwa [same]
  · exact ⟨k, more ▸ List.mem_append_right ks (List.mem_singleton_self k), lawful.same_self own⟩

theorem covered_foldl_keep (lawful : Lawful K) (hl : ∀ l ∈ ls, K l) (ks : List Keyed) :
    Covered ls (ls.foldl keep ks) := by
  induction ls generalizing ks with
  | nil => exact List.forall_mem_nil _
  | cons l ls ih =>
      rw [List.forall_mem_cons] at hl
      obtain ⟨m, hm, equal⟩ := covered_keep lawful hl.1 ks
      exact List.forall_mem_cons.2 ⟨⟨m, subset_foldl_keep ls _ hm, equal⟩, ih hl.2 _⟩

theorem foldl_keep_keep (lawful : Lawful K) (hl : ∀ l ∈ ls, K l) (hm : ∀ m ∈ ms, K m)
    (own : K k) : (keep ms k).foldl keep ls = keep (ms.foldl keep ls) k := by
  rcases keep_cases ms k with ⟨⟨m, mem, equal⟩, same⟩ | ⟨_, more⟩
  · obtain ⟨j, hj, like⟩ := covered_foldl_keep lawful hm ls m mem
    have kept : K j := (mem_foldl_keep hj).elim (hl j) (hm j)
    rw [same, keep_of_any ⟨j, hj, lawful.trans kept (hm m mem) own like equal⟩]
  · rw [more, List.foldl_append]
    rfl

theorem foldl_keep_foldl (lawful : Lawful K) (hk : ∀ k ∈ ks, K k) (hl : ∀ l ∈ ls, K l)
    (hm : ∀ m ∈ ms, K m) : (ks.foldl keep ms).foldl keep ls = ks.foldl keep (ms.foldl keep ls) := by
  induction ks generalizing ms with
  | nil => rfl
  | cons k ks ih =>
      rw [List.forall_mem_cons] at hk
      have kept : ∀ m ∈ keep ms k, K m := fun m mem =>
        (mem_keep mem).elim (hm m) fun same => same ▸ hk.1
      rw [List.foldl_cons, List.foldl_cons, ih hk.2 kept, foldl_keep_keep lawful hl hm hk.1]

theorem foldl_keep_firsts (lawful : Lawful K) (hk : ∀ k ∈ ks, K k) (hl : ∀ l ∈ ls, K l) :
    (firsts ks).foldl keep ls = ks.foldl keep ls :=
  foldl_keep_foldl lawful hk hl (List.forall_mem_nil K)

theorem covered_tail (lawful : Lawful K) (hk : ∀ l ∈ k :: ks, K l) (hl : ∀ l ∈ ls, K l)
    (distinct : Distinct (k :: ks)) (covered : Covered (k :: ks) ls) :
    ∃ before l after, ls = before ++ l :: after ∧ l.same k = true ∧
      (∀ m ∈ before ++ after, K m) ∧ Covered ks (before ++ after) := by
  obtain ⟨⟨l, mem, equal⟩, rest⟩ := List.forall_mem_cons.1 covered
  obtain ⟨before, after, rfl⟩ := List.append_of_mem mem
  have others : before ++ after ⊆ before ++ l :: after :=
    List.append_subset.2 ⟨List.subset_append_left _ _,
      List.subset_append_of_subset_right _ (List.subset_cons_self l after)⟩
  refine ⟨before, l, after, rfl, equal, fun m hm => hl m (others hm), fun j hj => ?_⟩
  obtain ⟨m, hm, like⟩ := rest j hj
  have own : K k := hk k List.mem_cons_self
  have own' : K j := hk j (List.mem_cons_of_mem k hj)
  -- One key that is equal to both would make the first equal to a later one.
  have other : m ≠ l := by
    rintro rfl
    have found : K m := hl m mem
    have same := lawful.trans own found own' (lawful.symm found own equal) like
    rw [List.rel_of_pairwise_cons distinct hj] at same
    cases same
  have left : m ∈ before ∨ m ∈ after := by simpa [other] using hm
  exact ⟨m, List.mem_append.2 left, like⟩

theorem length_le_of_covered (lawful : Lawful K) (hk : ∀ k ∈ ks, K k) (hl : ∀ l ∈ ls, K l)
    (distinct : Distinct ks) (covered : Covered ks ls) : ks.length ≤ ls.length := by
  induction ks generalizing ls with
  | nil => exact Nat.zero_le _
  | cons k ks ih =>
      obtain ⟨before, l, after, rfl, _, among, rest⟩ :=
        covered_tail lawful hk hl distinct covered
      have fewer := ih (List.forall_mem_cons.1 hk).2 among (List.pairwise_cons.1 distinct).2 rest
      simp only [List.length_append, List.length_cons] at fewer ⊢
      omega

theorem covered_of_length_le (lawful : Lawful K) (hk : ∀ k ∈ ks, K k) (hl : ∀ l ∈ ls, K l)
    (distinct : Distinct ks) (covered : Covered ks ls) (enough : ls.length ≤ ks.length) :
    Covered ls ks := by
  induction ks generalizing ls with
  | nil =>
      rw [List.length_eq_zero_iff.1 (Nat.le_zero.1 enough)]
      exact List.forall_mem_nil _
  | cons k ks ih =>
      obtain ⟨before, l, after, rfl, equal, among, rest⟩ :=
        covered_tail lawful hk hl distinct covered
      have back := ih (List.forall_mem_cons.1 hk).2 among (List.pairwise_cons.1 distinct).2 rest
        (by simp only [List.length_append, List.length_cons] at enough ⊢; omega)
      intro m hm
      have cases : m = l ∨ m ∈ before ++ after := by simpa [or_left_comm] using hm
      rcases cases with rfl | other
      · exact ⟨k, List.mem_cons_self, lawful.symm (hl m hm) (hk k List.mem_cons_self) equal⟩
      · obtain ⟨j, hj, like⟩ := back m other
        exact ⟨j, List.mem_cons_of_mem k hj, like⟩

theorem length_firsts_of_mem_iff (lawful : Lawful K) (hk : ∀ k ∈ ks, K k)
    (same : ∀ k, k ∈ ks ↔ k ∈ ls) : (firsts ks).length = (firsts ls).length := by
  have among {js : List Keyed} (h : ∀ k ∈ js, k ∈ ks) : ∀ k ∈ firsts js, K k := fun k hk' =>
    hk k (h k ((mem_foldl_keep hk').resolve_left (List.not_mem_nil)))
  have covers {js js' : List Keyed} (h : ∀ k ∈ js, k ∈ js') (own : ∀ k ∈ js', K k) :
      Covered (firsts js) (firsts js') :=
    fun k hk' => covered_foldl_keep lawful own [] k
      (h k ((mem_foldl_keep hk').resolve_left List.not_mem_nil))
  have hl : ∀ k ∈ ls, K k := fun k mem => hk k ((same k).2 mem)
  have own := among fun k (mem : k ∈ ks) => mem
  have own' := among fun k (mem : k ∈ ls) => (same k).2 mem
  exact Nat.le_antisymm
    (length_le_of_covered lawful own own' (distinct_firsts ks) (covers (fun k => (same k).1) hl))
    (length_le_of_covered lawful own' own (distinct_firsts ls) (covers (fun k => (same k).2) hk))

end Lawful

end Keyed

namespace Dictionary

open Keyed (Lawful keep)

variable {K : Keyed → Prop} (lawful : Lawful K) {d : Dictionary} {k : Keyed}

def found (d : Dictionary) (k : Keyed) : Option Datum :=
  (d.toList.find? fun s => s.under.same k).map (·.value)

theorem isSome_found : (d.found k).isSome = true ↔ ∃ l ∈ d.keys, l.same k = true := by
  simp [found, keys]

include lawful

theorem locate_eq {slots : List Slot} (keyed : ∀ s ∈ slots, K s.under) (own : K k) :
    Slot.locate k slots = .ok (slots.findIdx? fun s => s.under.same k) := by
  induction slots with
  | nil => rfl
  | cons s rest ih =>
      rw [List.forall_mem_cons] at keyed
      rw [Slot.locate, lawful.meets_eq keyed.1 own, ih keyed.2, List.findIdx?_cons]
      cases s.under.same k <;> rfl

theorem retrieve_eq {slots : List Slot} (keyed : ∀ s ∈ slots, K s.under) (own : K k) :
    Slot.retrieve k slots = .ok ((slots.find? fun s => s.under.same k).map (·.value)) := by
  induction slots with
  | nil => rfl
  | cons s rest ih =>
      rw [List.forall_mem_cons] at keyed
      rw [Slot.retrieve, lawful.meets_eq keyed.1 own, ih keyed.2, List.find?_cons]
      cases s.under.same k <;> rfl

theorem get?_eq_found (keyed : ∀ l ∈ d.keys, K l) (own : K k) : d.get? k = .ok (d.found k) := by
  rw [get?_eq]
  exact retrieve_eq lawful (fun s hs => keyed s.under (List.mem_map_of_mem hs)) own

theorem site_eq (keyed : ∀ l ∈ d.keys, K l) (own : K k) :
    d.site k = .ok ⟨k, d.toList.findIdx? fun s => s.under.same k⟩ := by
  rw [site, place?_eq,
    locate_eq lawful (fun s hs => keyed s.under (List.mem_map_of_mem hs)) own]
  rfl

theorem keys_settle_of_site (keyed : ∀ l ∈ d.keys, K l) (own : K k) {site : Site}
    (placed : d.site k = .ok site) (v : Datum) : (d.settle site v).keys = keep d.keys k := by
  rw [site_eq lawful keyed own] at placed
  cases placed
  rw [keys_settle]
  rcases Keyed.keep_cases d.keys k with ⟨equal, same⟩ | ⟨none, more⟩
  · rw [same, if_pos]
    simpa [keys] using equal
  · rw [more, if_neg]
    simpa [keys] using none

theorem put_of_none (keyed : ∀ l ∈ d.keys, K l) (own : K k) (none : ∀ l ∈ d.keys, l.same k = false)
    (v : Datum) : ∃ e, d.put k v = .ok e ∧ e.toList = d.toList ++ [⟨k, v⟩] := by
  have nowhere : (d.toList.findIdx? fun s => s.under.same k) = Option.none := by
    simpa [keys] using none
  refine ⟨_, by rw [put, site_eq lawful keyed own]; rfl, ?_⟩
  rw [nowhere]
  simp [settle, toList]

theorem put_keep (keyed : ∀ l ∈ d.keys, K l) (own : K k) (v : Datum) :
    ∃ e, d.put k v = .ok e ∧ e.keys = keep d.keys k := by
  have placed := site_eq lawful keyed own
  refine ⟨_, by rw [put, placed]; rfl, keys_settle_of_site lawful keyed own placed v⟩

theorem putAll_keep (keyed : ∀ l ∈ d.keys, K l) {slots : List Slot}
    (own : ∀ s ∈ slots, K s.under) :
    ∃ e, d.putAll slots = .ok e ∧ e.keys = (slots.map (·.under)).foldl keep d.keys := by
  induction slots generalizing d with
  | nil => exact ⟨d, rfl, rfl⟩
  | cons s rest ih =>
      rw [List.forall_mem_cons] at own
      obtain ⟨e, put, keys⟩ := put_keep lawful keyed own.1 s.value
      have keyed' : ∀ l ∈ e.keys, K l := fun l hl =>
        (Keyed.mem_keep (keys ▸ hl)).elim (keyed l) fun same => same ▸ own.1
      obtain ⟨e', putAll, keys'⟩ := ih keyed' own.2
      refine ⟨e', by rw [Dictionary.putAll, put]; exact putAll, ?_⟩
      rw [keys', keys]
      rfl

theorem merge_keep {e : Dictionary} (keyed : ∀ l ∈ d.keys, K l) (own : ∀ l ∈ e.keys, K l) :
    ∃ u, d.merge e = .ok u ∧ u.keys = e.keys.foldl keep d.keys :=
  putAll_keep lawful keyed fun s hs => own s.under (List.mem_map_of_mem hs)

end Dictionary

end ScopeResolution
