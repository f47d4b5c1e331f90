import ScopeResolution.Dictionary.Basic

namespace ScopeResolution

theorem Slot.meets_of_locate_none {k : Keyed} {slots : List Slot} (h : locate k slots = .ok none) :
    ∀ s ∈ slots, s.under.meets k = .ok false := by
  induction slots with
  | nil => exact List.forall_mem_nil _
  | cons s rest ih =>
      rw [locate] at h
      cases met : s.under.meets k with
      | error fault => simp [met, bind, Except.bind] at h
      | ok here =>
          cases here with
          | true => simp [met, bind, Except.bind, pure, Except.pure] at h
          | false =>
              refine List.forall_mem_cons.2 ⟨met, ih ?_⟩
              cases further : locate k rest with
              | error fault => simp [met, further, bind, Except.bind] at h
              | ok place => simpa [met, further, bind, Except.bind, pure, Except.pure] using h

namespace Dictionary

variable {d : Dictionary}

theorem keys_settle (d : Dictionary) (site : Site) (v : Datum) :
    (d.settle site v).keys =
      if site.place.isSome then d.keys else d.keys ++ [site.under] := by
  rcases site with ⟨k, place⟩
  cases place with
  | none => simp [settle, keys, toList]
  | some i =>
      simp only [settle, keys, toList, Array.toList_modify, Option.isSome_some, if_true]
      refine List.ext_getElem? fun j => ?_
      simp only [List.getElem?_map, List.getElem?_modify]
      split <;> cases d.slots.toList[j]? <;> rfl

def Apart (d : Dictionary) : Prop :=
  d.keys.Pairwise fun k l => k.meets l = .ok false

theorem apart_empty : empty.Apart :=
  List.Pairwise.nil

theorem Apart.settle (apart : d.Apart) {k : Keyed} {site : Site} (placed : d.site k = .ok site)
    (v : Datum) : (d.settle site v).Apart := by
  rw [Dictionary.site, place?_eq] at placed
  rw [Apart, keys_settle]
  cases located : Slot.locate k d.toList with
  | error fault =>
      rw [located] at placed
      cases placed
  | ok place =>
      rw [located] at placed
      cases placed
      cases place with
      | some i => exact apart
      | none =>
          refine List.pairwise_append.2 ⟨apart, List.pairwise_singleton _ _, fun l hl k' hk => ?_⟩
          obtain ⟨s, hs, rfl⟩ := List.mem_map.1 hl
          rw [List.mem_singleton.1 hk]
          exact Slot.meets_of_locate_none located s hs

end Dictionary

end ScopeResolution
