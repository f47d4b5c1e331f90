import ScopeResolution.Proofs.Construction.Arguments

namespace ScopeResolution

open Datum

namespace Keywords

def Strays (k : Kind) (c : Keywords) (f : String) : Prop :=
  ∃ before after, c.names = before ++ f :: after ∧ (∀ g ∈ before, g ∈ k.fields) ∧ f ∉ k.fields

section Updated

variable {k : Kind} {c d : Keywords} {f : String}

theorem known_or_strays (k : Kind) (c : Keywords) :
    (∀ f ∈ c.names, f ∈ k.fields) ∨ ∃ f, c.Strays k f := by
  rcases all_or_first (· ∈ k.fields) c.names with known | ⟨before, f, after, names, known, unknown⟩
  · exact .inl known
  · exact .inr ⟨f, before, after, names, known, unknown⟩

theorem mem_names_updatedBy : f ∈ (c.updatedBy d).names ↔ f ∈ c.names ∨ f ∈ d.names := by
  rw [names_updatedBy, List.mem_append, List.mem_filter, decide_eq_true_eq]
  tauto

theorem Strays.updatedBy (h : c.Strays k f) (d : Keywords) : (c.updatedBy d).Strays k f := by
  obtain ⟨before, after, names, known, unknown⟩ := h
  refine ⟨before, after ++ d.names.filter (· ∉ c.names), ?_, known, unknown⟩
  rw [names_updatedBy, names, List.append_assoc, List.cons_append]

theorem strays_updatedBy (h : ∀ g ∈ c.names, g ∈ k.fields) (h' : d.Strays k f) :
    (c.updatedBy d).Strays k f := by
  obtain ⟨before, after, names, known, unknown⟩ := h'
  have added : f ∉ c.names := fun named => unknown (h f named)
  have kept : (f :: after).filter (· ∉ c.names) = f :: after.filter (· ∉ c.names) :=
    List.filter_cons_of_pos (by simpa using added)
  refine ⟨c.names ++ before.filter (· ∉ c.names), after.filter (· ∉ c.names), ?_, ?_, unknown⟩
  · rw [names_updatedBy, names, List.filter_append, kept, List.append_assoc]
  · exact List.forall_mem_append.2 ⟨h, fun g hg => known g (List.mem_filter.1 hg).1⟩

end Updated

end Keywords

namespace Kind

def changed (k : Kind) (c : Keywords) (vs : List Datum) : List Datum :=
  List.zipWith (fun f v => ((c.value? f).getD v).freeze) k.fields vs

section Changed

variable {k : Kind} {c d : Keywords} {vs : List Datum}

theorem getElem?_changed {i : Nat} {f : String} (at_i : k.fields[i]? = some f) :
    (k.changed c vs)[i]? = vs[i]?.map fun v => ((c.value? f).getD v).freeze := by
  rw [changed, List.getElem?_zipWith, at_i]
  cases vs[i]? <;> rfl

theorem length_changed (full : vs.length = k.fields.length) :
    (k.changed c vs).length = k.fields.length := by
  rw [changed, List.length_zipWith, full, Nat.min_self]

theorem freeze_changed : ∀ v ∈ k.changed c vs, v.freeze = v := by
  rw [changed, ← List.map_uncurry_zip_eq_zipWith]
  exact List.forall_mem_map.2 fun p _ => freeze_freeze _

theorem changed_empty (full : vs.length = k.fields.length) (frozen : ∀ v ∈ vs, v.freeze = v) :
    k.changed .empty vs = vs := by
  refine values_ext (length_changed full) full fun i f at_i => ?_
  rw [getElem?_changed at_i]
  cases held : vs[i]? with
  | none => rfl
  | some v => exact congrArg some (frozen v (List.mem_of_getElem? held))

theorem changed_changed (full : vs.length = k.fields.length) :
    k.changed d (k.changed c vs) = k.changed (c.updatedBy d) vs := by
  have inner : (k.changed c vs).length = k.fields.length := length_changed full
  refine values_ext (length_changed inner) (length_changed full) fun i f at_i => ?_
  rw [getElem?_changed at_i, getElem?_changed at_i, getElem?_changed at_i,
    Keywords.value?_updatedBy]
  cases vs[i]? with
  | none => rfl
  | some v => cases d.value? f <;> simp

theorem changed_congr (same : ∀ f, c.value? f = d.value? f) : k.changed c vs = k.changed d vs := by
  simp only [changed, same]

end Changed

namespace Plain

variable {k : Kind} (plain : k.Plain) {c d : Keywords} {vs : List Datum}
include plain

theorem update_eq (unnamed : ownName ∉ c.names) :
    (node k vs).update c.pairs =
      match c.pairs.find? fun p => p.1 ∉ k.fields with
      | some p => .error (.unknownField k p.1)
      | none => .ok (node k (k.changed c vs)) := by
  have naming : refuseOwnName .changing (c.pairs.map (·.1)) = .ok () := refuseOwnName_eq_ok unnamed
  have naming' : refuseOwnName .building k.fields = .ok () := refuseOwnName_eq_ok plain.unnamed
  simp only [update, plain.hiding?_eq_none, updateNode, naming, plain.namedFields_eq, naming']
  rfl

theorem update_of_known (known : ∀ f ∈ c.names, f ∈ k.fields) :
    (node k vs).update c.pairs = .ok (node k (k.changed c vs)) := by
  have unnamed : ownName ∉ c.names := fun named => plain.unnamed (known _ named)
  have none : c.pairs.find? (fun p => p.1 ∉ k.fields) = .none :=
    List.find?_eq_none.2 fun p hp => by simpa using known p.1 (List.mem_map_of_mem hp)
  rw [plain.update_eq unnamed, none]

theorem update_of_strays {f : String} (unnamed : ownName ∉ c.names)
    (strays : c.Strays k f) : (node k vs).update c.pairs = .error (.unknownField k f) := by
  obtain ⟨_, after, names, known, unknown⟩ := strays
  obtain ⟨before, v, rest, pairs, rfl⟩ := Keywords.pairs_of_names names
  rw [List.forall_mem_map] at known
  have first : c.pairs.find? (fun p => p.1 ∉ k.fields) = some (f, v) :=
    List.find?_eq_some_iff_append.2
      ⟨by simpa using unknown, before, rest, pairs, fun p hp => by simpa using known p hp⟩
  rw [plain.update_eq unnamed, first]

theorem update_update (full : vs.length = k.fields.length)
    (unnamed : ownName ∉ c.names) (unnamed' : ownName ∉ d.names) :
    (do (← (node k vs).update c.pairs).update d.pairs) =
      (node k vs).update (c.updatedBy d).pairs := by
  have both : ownName ∉ (c.updatedBy d).names :=
    fun named => (Keywords.mem_names_updatedBy.1 named).elim unnamed unnamed'
  -- Names that stray in the first change come before those of the second in both together.
  rcases c.known_or_strays k with known | ⟨f, strays⟩
  · rw [plain.update_of_known known]
    rcases d.known_or_strays k with known' | ⟨f, strays⟩
    · have known'' : ∀ f ∈ (c.updatedBy d).names, f ∈ k.fields :=
        fun f named => (Keywords.mem_names_updatedBy.1 named).elim (known f) (known' f)
      rw [plain.update_of_known known'', ← changed_changed full]
      exact plain.update_of_known known'
    · rw [plain.update_of_strays both (Keywords.strays_updatedBy known strays)]
      exact plain.update_of_strays unnamed' strays
  · rw [plain.update_of_strays unnamed strays, plain.update_of_strays both (strays.updatedBy d)]
    rfl

def byName (vs : List Datum) : Keywords where
  pairs := k.fields.zip vs
  distinct := distinct_zip plain.distinct vs

theorem names_byName (full : vs.length = k.fields.length) : (plain.byName vs).names = k.fields :=
  (names_zip k.fields vs).trans (full ▸ List.take_length)

theorem complete_of_known (full : vs.length = k.fields.length)
    (known : ∀ f ∈ c.names, f ∈ k.fields) :
    (Arguments.mk [] ((plain.byName vs).updatedBy c)).Complete k := by
  have names := plain.names_byName full
  refine ⟨Nat.zero_le _, fun f named => ⟨?_, List.not_mem_nil⟩, fun f hf => .inr (.inl ?_)⟩
  · exact (Keywords.mem_names_updatedBy.1 named).elim (fun own => names ▸ own) (known f)
  · exact Keywords.mem_names_updatedBy.2 (.inl (names ▸ hf))

theorem update_eq_build (full : vs.length = k.fields.length)
    (unnamed : ownName ∉ c.names) :
    (node k vs).update c.pairs = k.build [] ((plain.byName vs).updatedBy c).pairs := by
  let renewed := Arguments.mk [] ((plain.byName vs).updatedBy c)
  have names := plain.names_byName full
  rcases c.known_or_strays k with known | ⟨f, strays⟩
  · have complete : renewed.Complete k := plain.complete_of_known full known
    have filled : k.fill (renewed.given k) k.fields = k.changed c vs := by
      refine values_ext (length_fill k _ _) (length_changed full) fun i f at_i => ?_
      obtain ⟨v, held⟩ := exists_value full at_i
      have own : (plain.byName vs).value? f = some v :=
        (lastValue?_zip plain.distinct at_i).trans held
      have supplied := complete.offered?_given plain at_i
      rw [fill, List.getElem?_map, at_i, Option.map_some, supplied, getElem?_changed at_i, held,
        Arguments.supplied?, Keywords.value?_updatedBy, own]
      cases c.value? f <;> rfl
    rw [plain.update_of_known known, ← filled]
    exact (complete.build_eq plain).symm
  · obtain ⟨before, after, first, earlier, unknown⟩ :=
      Keywords.strays_updatedBy (fun g (own : g ∈ (plain.byName vs).names) => names ▸ own) strays
    have refused : renewed.Refused k (.unknownField k f) :=
      .unknown (Nat.zero_le _) first (fun g hg => ⟨earlier g hg, List.not_mem_nil⟩) unknown
    have unnamed' : ownName ∉ renewed.keywords.names := fun named =>
      (Keywords.mem_names_updatedBy.1 named).elim (fun own => plain.unnamed (names ▸ own)) unnamed
    rw [plain.update_of_strays unnamed strays]
    exact (refused.build_eq plain unnamed').symm

theorem attribute?_changed {f : String} (h : f ∈ k.fields) :
    (node k (k.changed c vs)).attribute? f =
      ((node k vs).attribute? f).map fun v => ((c.value? f).getD v).freeze := by
  obtain ⟨i, at_i⟩ := List.mem_iff_getElem?.1 h
  rw [Arguments.attribute?_node plain at_i, Arguments.attribute?_node plain at_i,
    getElem?_changed at_i]

theorem attribute?_of_changed {f : String} {v : Datum} (full : vs.length = k.fields.length)
    (h : f ∈ k.fields) (newer : c.value? f = some v) :
    (node k (k.changed c vs)).attribute? f = some v.freeze := by
  obtain ⟨i, at_i⟩ := List.mem_iff_getElem?.1 h
  obtain ⟨w, held⟩ := exists_value full at_i
  rw [plain.attribute?_changed h, Arguments.attribute?_node plain at_i, held, newer]
  rfl

theorem attribute?_of_unchanged {f : String} (frozen : ∀ v ∈ vs, v.freeze = v)
    (h : f ∈ k.fields) (kept : f ∉ c.names) :
    (node k (k.changed c vs)).attribute? f = (node k vs).attribute? f := by
  obtain ⟨i, at_i⟩ := List.mem_iff_getElem?.1 h
  rw [plain.attribute?_changed h, Arguments.attribute?_node plain at_i,
    Keywords.value?_eq_none_iff.2 kept]
  cases held : vs[i]? with
  | none => rfl
  | some v => exact congrArg some (frozen v (List.mem_of_getElem? held))

theorem update_eq_ok {m : Datum} (unnamed : ownName ∉ c.names)
    (h : (node k vs).update c.pairs = .ok m) :
    (∀ f ∈ c.names, f ∈ k.fields) ∧ m = node k (k.changed c vs) := by
  rcases c.known_or_strays k with known | ⟨f, strays⟩
  · rw [plain.update_of_known known] at h
    exact ⟨known, (Except.ok.inj h).symm⟩
  · rw [plain.update_of_strays unnamed strays] at h
    cases h

theorem update_eq_error_iff {e : Fault} (unnamed : ownName ∉ c.names) :
    (node k vs).update c.pairs = .error e ↔ ∃ f, c.Strays k f ∧ e = .unknownField k f := by
  refine ⟨fun failed => ?_, fun ⟨f, strays, same⟩ => same ▸ plain.update_of_strays unnamed strays⟩
  rcases c.known_or_strays k with known | ⟨f, strays⟩
  · rw [plain.update_of_known known] at failed
    cases failed
  · rw [plain.update_of_strays unnamed strays] at failed
    exact ⟨f, strays, (Except.error.inj failed).symm⟩

end Plain

theorem changed_comm {k : Kind} {c d : Keywords} {vs : List Datum}
    (full : vs.length = k.fields.length) (apart : ∀ f ∈ c.names, f ∉ d.names) :
    k.changed d (k.changed c vs) = k.changed c (k.changed d vs) := by
  rw [changed_changed full, changed_changed full]
  refine changed_congr fun f => ?_
  rw [Keywords.value?_updatedBy, Keywords.value?_updatedBy]
  by_cases named : f ∈ c.names
  · rw [Keywords.value?_eq_none_iff.2 (apart f named), Option.none_or, Option.or_none]
  · rw [Keywords.value?_eq_none_iff.2 named, Option.none_or, Option.or_none]

end Kind

/-- Changing a node and then changing it again comes to changing it once by both, whether it fails
or not, and no change at all leaves the node as it is. A change fails with the first of its names
that is no field; any other keeps the kind and all fields it does not name, and those it names hold
its values. Changes of different fields can be made in either order. -/
theorem Datum.update_laws {f : Form} {n : Datum} (built : (Kind.builtin f).Builds n)
    {c d : Keywords} (unnamed : ownName ∉ c.names) (unnamed' : ownName ∉ d.names) :
    (do (← n.update c.pairs).update d.pairs) = n.update (c.updatedBy d).pairs ∧
    (∀ e, n.update c.pairs = .error e ↔
      ∃ g, c.Strays (.builtin f) g ∧ e = .unknownField (.builtin f) g) ∧
    (n.update [] = .ok n ∧ ((∀ p ∈ n.fieldEntries, p.2.Equal p.2) → n.Equal n)) ∧
    (∀ m, n.update c.pairs = .ok m →
      ((Kind.builtin f).Builds m ∧ ∃ vs, m = .node (.builtin f) vs) ∧
      (∀ g ∈ f.fields, g ∉ c.names → m.attribute? g = n.attribute? g) ∧
      ∀ g v, c.value? g = some v → m.attribute? g = some v.freeze) ∧
    ∀ a b, n.update c.pairs = .ok a → n.update d.pairs = .ok b → (∀ g ∈ c.names, g ∉ d.names) →
      ∃ m, a.update d.pairs = .ok m ∧ b.update c.pairs = .ok m := by
  have plain := Kind.plain_builtin f
  obtain ⟨vs, rfl, full, frozen⟩ := plain.builds_iff.1 built
  refine ⟨plain.update_update full unnamed unnamed', fun e => plain.update_eq_error_iff unnamed,
    ⟨?_, equal_self_of_fields rfl⟩, fun m changed => ?_, fun a b first second apart => ?_⟩
  · have known : ∀ g ∈ Keywords.empty.names, g ∈ (Kind.builtin f).fields := List.forall_mem_nil _
    exact (plain.update_of_known known).trans (by rw [Kind.changed_empty full frozen])
  · obtain ⟨known, rfl⟩ := plain.update_eq_ok unnamed changed
    refine ⟨⟨plain.builds_iff.2 ⟨_, rfl, Kind.length_changed full, Kind.freeze_changed⟩, _, rfl⟩,
      fun g hg kept => plain.attribute?_of_unchanged frozen hg kept, fun g v newer => ?_⟩
    have named : g ∈ c.names := List.mem_map_of_mem (mem_of_lastValue? newer)
    exact plain.attribute?_of_changed full (known g named) newer
  · obtain ⟨known, rfl⟩ := plain.update_eq_ok unnamed first
    obtain ⟨known', rfl⟩ := plain.update_eq_ok unnamed' second
    refine ⟨_, plain.update_of_known known', ?_⟩
    rw [plain.update_of_known known, Kind.changed_comm full apart]

theorem Datum.rebound_update :
    let n : Datum := .node (.builtin .binding) [.text "f", .int 1, .null, .int 0]
    (Kind.builtin .binding).Builds n ∧
      (do
        let m ← n.update [("arity", .int 2), ("expression", .int 3)]
        m.update [("expression", .list [.int 4]), ("type_decl", .text "a")]) =
        n.update [("arity", .int 2), ("expression", .list [.int 4]), ("type_decl", .text "a")] ∧
      n.update [] = .ok n := by
  intro n
  have built : (Kind.builtin .binding).Builds n := ⟨⟨[.text "f", .int 1], .empty⟩, rfl⟩
  let c : Keywords := ⟨[("arity", .int 2), ("expression", .int 3)], by decide⟩
  let d : Keywords := ⟨[("expression", .list [.int 4]), ("type_decl", .text "a")], by decide⟩
  have unnamed : ownName ∉ c.names := by decide
  have unnamed' : ownName ∉ d.names := by decide
  obtain ⟨both, _, ⟨unchanged, _⟩, _⟩ := update_laws built unnamed unnamed'
  exact ⟨built, both, unchanged⟩

end ScopeResolution
