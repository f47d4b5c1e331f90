import ScopeResolution.Proofs.Construction.Keywords
import ScopeResolution.Proofs.Datum.Untied
import ScopeResolution.Proofs.Simulation
import ScopeResolution.Transformation

namespace ScopeResolution

open Datum Traversal Traversal.Routine

namespace Transformation

def changesOf (p : String × Datum) : List (String × Datum) :=
  if p.2.isNode || p.2.tupleItems?.isSome then [(p.1, untied.inField p.2)] else []

theorem fst_of_mem_changesOf {p c : String × Datum} (h : c ∈ changesOf p) : c.1 = p.1 := by
  rw [changesOf] at h
  split at h
  · rw [List.mem_singleton.1 h]
  · cases h

theorem lastValue?_changesOf (g : String) (v : Datum) :
    (lastValue? g (changesOf (g, v))).getD v = untied.inField v := by
  cases v <;> simp [changesOf, lastValue?, Datum.isNode, Datum.tupleItems?, untied.inField]

section Fields

variable {fields : List String} {fs : List Datum}

theorem mem_fields_of_mem_changes {c : String × Datum}
    (h : c ∈ (fields.zip fs).flatMap changesOf) : c.1 ∈ fields := by
  obtain ⟨p, hp, hc⟩ := List.mem_flatMap.1 h
  rw [fst_of_mem_changesOf hc]
  exact (List.of_mem_zip hp).1

theorem lastValue?_changes (nodup : fields.Nodup) {g : String} {v : Datum}
    (h : (g, v) ∈ fields.zip fs) :
    (lastValue? g ((fields.zip fs).flatMap changesOf)).getD v = untied.inField v := by
  induction fields generalizing fs with
  | nil => cases h
  | cons g' fields ih =>
      cases fs with
      | nil => cases h
      | cons v' fs =>
          rw [List.nodup_cons] at nodup
          rw [List.zip_cons_cons, List.flatMap_cons, lastValue?_append]
          rcases List.mem_cons.1 h with same | h
          · cases same
            -- No later field has the name of this one, so its change is the last.
            have later : lastValue? g ((fields.zip fs).flatMap changesOf) = none :=
              lastValue?_eq_none fun c hc same => nodup.1 (same ▸ mem_fields_of_mem_changes hc)
            rw [later, Option.none_or]
            exact lastValue?_changesOf g v
          · have apart : g' ≠ g := fun same => nodup.1 (same ▸ (List.of_mem_zip h).1)
            have first : lastValue? g (changesOf (g', v')) = none :=
              lastValue?_eq_none fun c hc => fst_of_mem_changesOf hc ▸ apart
            rw [first, Option.or_none]
            exact ih nodup.2 h

end Fields

theorem update_changes {f : Form} {fs : List Datum} (full : f.fields.length = fs.length)
    (frozen : ∀ v ∈ fs, v.freeze = v) :
    (node (.builtin f) fs).update ((f.fields.zip fs).flatMap changesOf) =
      .ok (node (.builtin f) fs).untied := by
  have own : ownName ∉ ((f.fields.zip fs).flatMap changesOf).map (·.1) := by
    intro mem
    obtain ⟨c, hc, same⟩ := List.mem_map.1 mem
    exact ownName_not_mem_fields f (same ▸ mem_fields_of_mem_changes hc)
  have known : ((f.fields.zip fs).flatMap changesOf).find? (fun c => c.1 ∉ f.fields) = none := by
    rw [List.find?_eq_none]
    exact fun c hc => by simpa using mem_fields_of_mem_changes hc
  rw [update_builtin f fs own, known, untied_node, ← List.map_uncurry_zip_eq_zipWith]
  have values : (f.fields.zip fs).map (fun p => untied.inField p.2) = fs.map untied.inField :=
    List.map_map.symm.trans (congrArg (List.map untied.inField) (List.map_snd_zip full.ge))
  rw [← values]
  refine congrArg (fun gs => Except.ok (node (.builtin f) gs)) (List.map_congr_left fun p hp => ?_)
  have last := lastValue?_changes f.fields_nodup hp
  exact (congrArg freeze last).trans (freeze_inField (frozen p.2 (List.of_mem_zip hp).2))

def Unties (n : Nat) (d : Datum) : Prop :=
  (visitor []).recurse ⟨n, d⟩ () = (.ok d.untied, ())

section Visits

variable {n : Nat} {d : Datum}

def visit (n : Nat) (x : Part d) : Script ⟨n, d⟩ Datum :=
  .call ⟨⟨n, x.1⟩, Place.before_of_size x.2⟩

def visits (p : Place) (c : { c : Place // Place.Before c p }) (u : Unit) :
    Outcome Unit Fault Datum :=
  (visitor []).recurse c.1 u

theorem ends_rebuildItem {x : Part d} (h : x.1.isNode = true → Unties n x.1) :
    (rebuildItem (visit n) x).Ends (visits ⟨n, d⟩) () (.ok x.1.untied) () := by
  rw [rebuildItem]
  split
  · rename_i isNode
    have ended : (visit n x).Ends (visits ⟨n, d⟩) () _ _ := ends_call _
    rw [visits, h isNode] at ended
    exact ended
  · rename_i plain
    rw [untied_of_plain (Bool.eq_false_iff.2 plain)]
    exact ends_done _

theorem ends_items {ps : List (Part d)} (h : ∀ p ∈ ps, p.1.isNode = true → Unties n p.1) :
    (ps.mapM (rebuildItem (visit n))).Ends (visits ⟨n, d⟩) () (.ok (ps.map fun p => p.1.untied))
      () := by
  induction ps with
  | nil => exact ends_mapM_nil _
  | cons p ps ih =>
      rw [List.forall_mem_cons] at h
      exact (ends_rebuildItem h.1).mapM_cons (ih h.2)

theorem ends_fieldChange_items {g : String} {x : Part d} {xs : List Datum}
    (plain : x.1.isNode = false) (items : x.1.tupleItems? = some xs)
    (h : ∀ c ∈ xs, c.isNode = true → Unties n c) :
    (fieldChange (visit n) g x).Ends (visits ⟨n, d⟩) () (.ok [(g, tuple (xs.map untied))]) () := by
  obtain ⟨ps, found, rfl⟩ := Part.tupleItems?_some items
  rw [List.forall_mem_map] at h
  rw [fieldChange, plain, found, List.map_map]
  exact (ends_items h).bind_ok (ends_pure _)

theorem ends_fieldChange {g : String} {x : Part d} (h : ∀ c ∈ x.1.nodesIn, Unties n c) :
    (fieldChange (visit n) g x).Ends (visits ⟨n, d⟩) () (.ok (changesOf (g, x.1))) () := by
  obtain ⟨v, smaller⟩ := x
  have item (xs : List Datum) (same : v.nodesIn = xs.filter isNode) :
      ∀ c ∈ xs, c.isNode = true → Unties n c :=
    fun c hc isNode => h c (same ▸ List.mem_filter.2 ⟨hc, isNode⟩)
  cases v with
  | node k fs =>
      have ended : (visit n ⟨node k fs, smaller⟩).Ends (visits ⟨n, d⟩) () _ _ := ends_call _
      rw [visits, h _ (List.mem_singleton_self _)] at ended
      exact ended.bind_ok (ends_pure _)
  | tuple xs =>
      have change : changesOf (g, tuple xs) = [(g, tuple (xs.map untied))] :=
        congrArg (fun t => [(g, t)]) (inField_tuple xs)
      rw [change]
      exact ends_fieldChange_items rfl rfl (item xs rfl)
  | name s u => exact ends_fieldChange_items rfl rfl (item [s, u] rfl)
  | _ => exact ends_pure []

theorem ends_fields {ps : List (String × Part d)}
    (h : ∀ p ∈ ps, ∀ c ∈ p.2.1.nodesIn, Unties n c) :
    (ps.mapM fun p => fieldChange (visit n) p.1 p.2).Ends (visits ⟨n, d⟩) ()
      (.ok (ps.map fun p => changesOf (p.1, p.2.1))) () := by
  induction ps with
  | nil => exact ends_mapM_nil _
  | cons p ps ih =>
      rw [List.forall_mem_cons] at h
      refine Ends.mapM_cons (ends_fieldChange h.1) ?_
      exact ih h.2

theorem map_fieldParts (k : Kind) (fs : List Datum) : (fieldParts k fs).map (·.1) = fs := by
  rw [fieldParts, List.map_map]
  exact List.attach_map_subtype_val fs

end Visits

theorem unties {d : Datum} (h : d.BuiltIn) (n : Nat) : Unties n d := by
  induction h with
  | @node f fs full frozen _ ih =>
      have parts := map_fieldParts (.builtin f) fs
      have zipped : f.fields.zip fs = (f.fields.zip (fieldParts (.builtin f) fs)).map
          fun p => (p.1, p.2.1) :=
        (congrArg f.fields.zip parts).symm.trans List.zip_map_right
      have below : ∀ p ∈ f.fields.zip (fieldParts (.builtin f) fs), ∀ c ∈ p.2.1.nodesIn,
          Unties n c := by
        intro p hp
        have mem : p.2.1 ∈ (fieldParts (.builtin f) fs).map (·.1) :=
          List.mem_map_of_mem (List.of_mem_zip hp).2
        rw [parts] at mem
        exact ih p.2.1 mem
      have updated := update_changes full frozen
      rw [zipped, List.flatMap_map] at updated
      have ended : (rebuild (node (.builtin f) fs) (visit n)).Ends (visits ⟨n, _⟩) ()
          (.ok (node (.builtin f) fs).untied) () := by
        rw [Renaming.rebuild_builtin]
        refine Ends.bind_ok (ends_fields below) ?_
        rw [← List.flatMap_def, updated]
        exact ends_ofExcept _
      rw [Unties, Visitor.recurse_eq]
      exact ended.run_eq

theorem transformed_nil (v : Vocabulary) {d : Datum} (h : d.BuiltIn) :
    d.transformed v [] = .ok d.untied := by
  rw [transformed, Visitor.drive_eq_recurse, unties h]

end Transformation

end ScopeResolution
