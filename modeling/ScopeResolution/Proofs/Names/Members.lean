import ScopeResolution.Proofs.Names.Mention
import ScopeResolution.Proofs.Resolution

namespace ScopeResolution

namespace Keyed

theorem eq_of_datum {k l : Keyed} (h : k.datum = l.datum) : k = l := by
  have same : k.datum.keyed = l.datum.keyed := congrArg Datum.keyed h
  rw [k.keyed_datum, l.keyed_datum] at same
  exact Except.ok.inj same

end Keyed

namespace Name

def entry (n : Name) : Symbol where
  datum := n.datum
  key := .tuple [n.symbol.key, .ofInt n.uid]
  key_eq := by simp [datum, Datum.key, n.symbol.key_eq, bind, Except.bind, pure, Except.pure]
  regular := by simp [datum, Datum.regular, n.symbol.regular]

def essence (n : Name) : Essence :=
  n.datum.essence

theorem essence_eq_iff (n m : Name) :
    n.essence = m.essence ↔ n.symbol.essence = m.symbol.essence ∧ n.uid = m.uid := by
  simp only [essence, datum, Datum.essence, Symbol.essence, Essence.tuple.injEq,
    List.cons.injEq, Essence.int.injEq, Int.natCast_inj, and_true]

theorem isGlobal_datum (n : Name) : n.datum.isGlobal = .ok (decide (n.uid = 0)) := by
  by_cases zero : n.uid = 0 <;>
    simp [Datum.isGlobal, datum, Datum.getAttribute, Datum.attribute?, Datum.isZero,
      Datum.countsAsTrue, zero, bind, Except.bind, pure, Except.pure]

end Name

namespace Slot

theorem store_under (slots : List Slot) (x : Symbol) (v : Datum) :
    ∃ after, store x.toKeyed v slots = .ok after ∧ after.map (·.under) =
      if x.essence ∈ slots.map (·.under.datum.essence) then slots.map (·.under)
      else slots.map (·.under) ++ [x.toKeyed] := by
  induction slots with
  | nil => exact ⟨_, rfl, rfl⟩
  | cons s rest ih =>
      have first := x.meets_symbol s.under
      obtain ⟨after, stored, same⟩ := ih
      by_cases here : s.under.datum.essence = x.essence
      · refine ⟨{ s with value := v } :: rest, ?_, ?_⟩
        · simp [store, first, here, bind, Except.bind, pure, Except.pure]
        · simp [here]
      · refine ⟨s :: after, ?_, ?_⟩
        · simp [store, first, here, stored, bind, Except.bind, pure, Except.pure]
        · have apart : ¬ x.essence = s.under.datum.essence := fun other => here other.symm
          simp only [List.map_cons, same, List.mem_cons, apart, false_or]
          split <;> rfl

end Slot

namespace Dictionary

theorem put_under (d : Dictionary) (x : Symbol) (v : Datum) :
    ∃ after, d.put x.toKeyed v = .ok after ∧ after.keys =
      if x.essence ∈ d.keys.map (·.datum.essence) then d.keys else d.keys ++ [x.toKeyed] := by
  obtain ⟨slots, stored, same⟩ := Slot.store_under d.toList x v
  have put := toList_put d x.toKeyed v
  rw [stored] at put
  cases settled : d.put x.toKeyed v with
  | error e =>
      rw [settled] at put
      cases put
  | ok after =>
      rw [settled] at put
      have kept : after.toList = slots := Except.ok.inj put
      refine ⟨after, rfl, ?_⟩
      rw [keys, keys, kept, same, List.map_map]
      rfl

end Dictionary

namespace NameSet

def Holds (s : NameSet) (ns : List Name) : Prop :=
  ∃ js : List Name, s.toList = js.map Name.datum ∧ js ⊆ ns ∧ (js.map Name.essence).Nodup ∧
    ∀ n ∈ ns, ∃ j ∈ js, j.essence = n.essence

theorem holds_empty : empty.Holds [] :=
  ⟨[], rfl, List.Subset.refl _, List.nodup_nil, fun _ h => nomatch h⟩

theorem Holds.imp {s : NameSet} {ns ms : List Name} (h : s.Holds ns) (among : ns ⊆ ms)
    (all : ∀ m ∈ ms, ∃ n ∈ ns, n.essence = m.essence) : s.Holds ms := by
  obtain ⟨js, listed, among', distinct, all'⟩ := h
  refine ⟨js, listed, fun j hj => among (among' hj), distinct, fun m hm => ?_⟩
  obtain ⟨n, hn, same⟩ := all m hm
  obtain ⟨j, hj, same'⟩ := all' n hn
  exact ⟨j, hj, same'.trans same⟩

theorem keys_of_toList {s : NameSet} {js : List Name} (h : s.toList = js.map Name.datum) :
    s.members.keys = js.map (·.entry.toKeyed) := by
  have listed : s.members.keys.map (·.datum) = (js.map (·.entry.toKeyed)).map (·.datum) := by
    rw [List.map_map]
    exact h
  exact List.map_injective_iff.2 (fun _ _ => Keyed.eq_of_datum) listed

theorem Holds.add {s : NameSet} {ns : List Name} (h : s.Holds ns) (n : Name) :
    ∃ t, s.add n.entry.toKeyed = .ok t ∧ t.Holds (ns ++ [n]) := by
  obtain ⟨js, listed, among, distinct, all⟩ := h
  have keys := keys_of_toList listed
  obtain ⟨after, put, grown⟩ := s.members.put_under n.entry .null
  refine ⟨⟨after⟩, by simp [NameSet.add, put, bind, Except.bind, pure, Except.pure], ?_⟩
  have essences : s.members.keys.map (·.datum.essence) = js.map Name.essence := by
    rw [keys, List.map_map]
    rfl
  rw [essences] at grown
  by_cases known : n.entry.essence ∈ js.map Name.essence
  · rw [if_pos known] at grown
    refine ⟨js, ?_, fun j hj => List.mem_append_left _ (among hj), distinct, fun m hm => ?_⟩
    · rw [← listed, toList, toList, grown]
    · rcases List.mem_append.1 hm with hm | hm
      · exact all m hm
      · rw [List.mem_singleton.1 hm]
        exact List.mem_map.1 known
  · rw [if_neg known] at grown
    refine ⟨js ++ [n], ?_, ?_, ?_, fun m hm => ?_⟩
    · rw [toList, grown, List.map_append, List.map_append, ← listed]
      rfl
    · exact List.append_subset.2
        ⟨fun j hj => List.mem_append_left _ (among hj), List.subset_append_right _ _⟩
    · rw [List.map_append, List.nodup_append]
      refine ⟨distinct, by simp, fun e he f hf same => known ?_⟩
      rw [List.map_singleton, List.mem_singleton] at hf
      rw [same, hf] at he
      exact he
    · rcases List.mem_append.1 hm with hm | hm
      · obtain ⟨j, hj, same⟩ := all m hm
        exact ⟨j, List.mem_append_left _ hj, same⟩
      · exact ⟨n, List.mem_append_right _ (List.mem_singleton_self n),
          by rw [List.mem_singleton.1 hm]⟩

theorem insert_of_add {s t : NameSet} {k : Keyed} (h : s.add k = .ok t) :
    s.insert k.datum = (.ok (), t) := by
  have placed : s.members.siteOf k.datum = s.members.site k := by
    simp [Dictionary.siteOf, k.keyed_datum, bind, Except.bind]
  rw [insert, placed]
  cases site : s.members.site k with
  | error e => simp [NameSet.add, Dictionary.put, site, Except.map, bind, Except.bind] at h
  | ok site' =>
      simp only [NameSet.add, Dictionary.put, site, Except.map, bind, Except.bind, pure,
        Except.pure] at h
      cases h
      rfl

def mention (p : Role × Name) : Mention :=
  .name p.1 p.2.datum

def asked (roles : Roles) (sites : List (Role × Name)) : List Name :=
  (sites.filter fun p => roles.asksFor p.1).map (·.2)

theorem Holds.record {s : NameSet} {ns : List Name} (h : s.Holds ns) (roles : Roles)
    (sites : List (Role × Name)) :
    ∃ t, record roles (sites.map mention) s = (.ok (), t) ∧ t.Holds (ns ++ asked roles sites) := by
  induction sites generalizing s ns with
  | nil => exact ⟨s, rfl, by rwa [asked, List.filter_nil, List.map_nil, List.append_nil]⟩
  | cons p sites ih =>
      rcases p with ⟨role, n⟩
      by_cases asks : roles.asksFor role = true
      · obtain ⟨t, added, holds⟩ := h.add n
        obtain ⟨u, recorded, holds'⟩ := ih holds
        refine ⟨u, ?_, ?_⟩
        · have taken : s.insert n.datum = (.ok (), t) := insert_of_add added
          simp only [List.map_cons, mention, NameSet.record, asks, if_true, taken]
          exact recorded
        · simpa [asked, asks] using holds'
      · obtain ⟨u, recorded, holds⟩ := ih h
        refine ⟨u, ?_, ?_⟩
        · simp only [List.map_cons, mention, NameSet.record, asks]
          exact recorded
        · simpa [asked, asks] using holds

theorem holds_gather (roles : Roles) (sites : List (Role × Name)) :
    ∃ s, gather roles (sites.map mention) = .ok s ∧ s.Holds (asked roles sites) := by
  obtain ⟨s, recorded, holds⟩ := holds_empty.record roles sites
  exact ⟨s, by rw [gather, recorded], holds⟩

theorem select_entries (wanted : Bool) (js : List Name) {s : NameSet} {ns : List Name}
    (h : s.Holds ns) :
    ∃ t, (js.map (·.entry.toKeyed)).foldlM (fun chosen k => do
        if (← k.datum.isGlobal) = wanted then chosen.add k else return chosen) s = .ok t ∧
      t.Holds (ns ++ js.filter fun n => decide (n.uid = 0) = wanted) := by
  induction js generalizing s ns with
  | nil => exact ⟨s, rfl, by rwa [List.filter_nil, List.append_nil]⟩
  | cons j js ih =>
      have told : j.entry.datum.isGlobal = .ok (decide (j.uid = 0)) := j.isGlobal_datum
      by_cases picked : decide (j.uid = 0) = wanted
      · obtain ⟨t, added, holds⟩ := h.add j
        obtain ⟨u, folded, holds'⟩ := ih holds
        refine ⟨u, ?_, ?_⟩
        · simp only [List.map_cons, List.foldlM_cons, told, picked, if_true, added, bind,
            Except.bind]
          exact folded
        · simpa [picked] using holds'
      · obtain ⟨u, folded, holds⟩ := ih h
        refine ⟨u, ?_, ?_⟩
        · simp only [List.map_cons, List.foldlM_cons, told, picked, if_false, bind, Except.bind]
          exact folded
        · simpa [picked] using holds

theorem Holds.select {s : NameSet} {ns : List Name} (h : s.Holds ns) (wanted : Bool) :
    ∃ t, s.select wanted = .ok t ∧
      t.Holds (ns.filter fun n => decide (n.uid = 0) = wanted) := by
  obtain ⟨js, listed, among, distinct, all⟩ := h
  obtain ⟨t, folded, holds⟩ := select_entries wanted js holds_empty
  refine ⟨t, ?_, ?_⟩
  · rw [NameSet.select, keys_of_toList listed]
    exact folded
  · refine holds.imp (fun j hj => ?_) fun n hn => ?_
    · obtain ⟨hj, picked⟩ := List.mem_filter.1 hj
      exact List.mem_filter.2 ⟨among hj, picked⟩
    · obtain ⟨hn, picked⟩ := List.mem_filter.1 hn
      obtain ⟨j, hj, same⟩ := all n hn
      have uid := ((j.essence_eq_iff n).1 same).2
      rw [← uid] at picked
      exact ⟨j, List.mem_filter.2 ⟨hj, picked⟩, same⟩

theorem gather_single (roles : Roles) (role : Role) (asks : roles.asksFor role = true)
    (x : Symbol) :
    ∃ s, gather roles [.name role x.datum] = .ok s ∧ s.members.keys = [x.toKeyed] := by
  obtain ⟨after, put, grown⟩ := empty.members.put_under x .null
  have added : empty.add x.toKeyed = .ok ⟨after⟩ := by
    simp [NameSet.add, put, bind, Except.bind, pure, Except.pure]
  have inserted : empty.insert x.datum = (.ok (), ⟨after⟩) := insert_of_add added
  refine ⟨⟨after⟩, ?_, grown⟩
  simp [gather, NameSet.record, asks, inserted]

end NameSet

end ScopeResolution
