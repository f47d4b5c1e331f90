import ScopeResolution.Proofs.Leaks
import ScopeResolution.Proofs.Pipeline
import ScopeResolution.Proofs.Restoration
import ScopeResolution.Proofs.Scoping.Piecewise

namespace ScopeResolution

namespace Context

theorem mem_uids_bindAll (c : Context) {xs : List Symbol} (some : xs ≠ []) :
    (c.bindAll xs).last ∈ (c.bindAll xs).uids xs := by
  induction xs using List.reverseRecOn with
  | nil => exact absurd rfl some
  | append_singleton xs x _ =>
      have step : c.bindAll (xs ++ [x]) = (c.bindAll xs).bind x := List.foldl_concat bind c x xs
      have newest : ((c.bindAll xs).bind x).nameOf x = (c.bindAll xs).next x :=
        nameOf_of_bound ((c.bindAll xs).bound_bind_self x)
      rw [step, uids]
      refine List.mem_map.2 ⟨x, by simp, ?_⟩
      rw [newest]
      rfl

end Context

namespace Scoping

variable {p : Portion}

theorem length_binders_whole {ν : Type} (a : Scoping ν .whole) : a.binders.length = a.count := by
  have length := a.length_binders
  rwa [names_whole, List.length_nil, Nat.zero_add] at length

theorem leaks_of_count {s : Scoping Symbol p} (h : s.count = 0) : s.leaks = [] := by
  have none : s.allocated = [] := List.eq_nil_of_length_eq_zero (s.length_allocated.trans h)
  have leaked := s.leaked_sublist 0
  rw [none] at leaked
  rw [← s.map_essence_leaked 0, List.eq_nil_of_sublist_nil leaked, List.map_nil]

theorem names_subset_binders {ν : Type} (s : Scoping ν p) : s.names ⊆ s.binders := by
  induction s with
  | member x right rest _ ih =>
      intro y mem
      rcases List.mem_cons.1 mem with rfl | mem
      · exact List.mem_cons_self
      · exact List.mem_cons_of_mem x (List.mem_append_right _ (ih mem))
  | _ => simp [names]

theorem last_mem_uids_of_names {g : Scoping Symbol .members} (alone : g.count = 0)
    (some : g.names ≠ []) (c : Context) :
    (g.resolve (c.bindAll g.names)).2.last ∈ g.uids (c.bindAll g.names) := by
  have nothing := leaks_of_count alone
  have undisturbed : g.Undisturbed := undisturbed_of_kept fun x _ => by simp [nothing]
  have named := names_resolve undisturbed (c.bindAll g.names)
  have newest := c.mem_uids_bindAll some
  rw [last_resolve, alone, Nat.add_zero]
  obtain ⟨x, mem, uid⟩ := List.mem_map.1 newest
  have stands : (c.bindAll g.names).nameOf x ∈ (g.resolve (c.bindAll g.names)).1.names :=
    named ▸ List.mem_map_of_mem mem
  exact List.mem_map.2 ⟨_, names_subset_binders _ stands, uid⟩

theorem last_mem_uids (s : Scoping Symbol p) (some : s.count ≠ 0) (c : Context) :
    (s.resolve c).2.last ∈ s.uids c := by
  induction s generalizing c with
  | none => exact absurd rfl some
  | refer => exact absurd rfl some
  | bind x => exact List.mem_singleton_self _
  | seq a b iha ihb =>
      rw [uids_seq]
      by_cases later : b.count = 0
      · have first : a.count ≠ 0 := fun none => some (by rw [count, none, later])
        rw [resolve, last_resolve, later]
        exact List.mem_append_left _ (iha first c)
      · exact List.mem_append_right _ (ihb later _)
  | scope a ih => exact ih some c
  | group g ih =>
      by_cases alone : g.count = 0
      · have named : g.names ≠ [] := fun none => some (by rw [count, none, alone]; rfl)
        exact last_mem_uids_of_names alone named c
      · exact ih alone _
  | nil => exact absurd rfl some
  | member x right rest ihr ihrest =>
      rw [uids_member]
      refine List.mem_cons_of_mem _ ?_
      by_cases later : rest.count = 0
      · have first : right.count ≠ 0 := fun none => some (by rw [count, none, later])
        rw [resolve, last_resolve, later]
        exact List.mem_append_left _ (ihr first c)
      · exact List.mem_append_right _ (ihrest later _)

end Scoping

namespace Phrase

variable {category : Category}

theorem last_resolve_initial (t : Phrase Symbol (.one category)) :
    (t.resolve .initial).2.last = 1 + t.binders.length := by
  rw [last_resolve, binders, Scoping.length_binders_whole]
  rfl

theorem exists_newest (t : Phrase Symbol (.one category)) (some : t.binders ≠ []) :
    ∃ n ∈ (t.resolve .initial).1.binders, n.uid = 1 + t.binders.length := by
  have counted : t.scoping.count ≠ 0 := by
    rw [← Scoping.length_binders_whole]
    exact fun none => some (List.eq_nil_of_length_eq_zero none)
  have newest := t.scoping.last_mem_uids counted .initial
  rw [← (t.scoping_resolve .initial).2, last_resolve_initial] at newest
  rw [binders, (t.scoping_resolve .initial).1]
  exact List.mem_map.1 newest

end Phrase

namespace Module

theorem last_resolve_initial (m : Module Symbol) :
    (m.resolve .initial).2.last = 1 + (m.name :: m.binders).length := by
  rw [last_resolve, List.length_cons, binders, Scoping.length_binders_whole, ← Nat.add_assoc]
  rfl

theorem uid_le_of_mem_sites (m : Module Symbol) {p : Role × Name}
    (mem : p ∈ (m.resolve .initial).1.sites) : p.2.uid ≤ (m.resolve .initial).2.last := by
  have sound := m.definitions.sound_resolve Context.sound_initial
  have sound' := m.instances.sound_resolve sound
  have last := m.bindings.last_resolve (m.instances.resolve (m.definitions.resolve .initial).2).2
  have last' := m.instances.last_resolve (m.definitions.resolve .initial).2
  rw [sites_eq] at mem
  simp only [resolve, List.mem_cons, List.mem_append] at mem
  simp only [resolve, Context.bind]
  rcases mem with rfl | definition | binding | inner
  · exact Nat.le_refl _
  · have low := m.definitions.uid_le_of_mem_sites Context.sound_initial definition
    omega
  · have low := m.bindings.uid_le_of_mem_sites sound' binding
    omega
  · have low := m.instances.uid_le_of_mem_sites sound inner
    omega

end Module

structure Workspace.Notes (w : Workspace) (bindings : Nat) (made : List Name)
    (sites : List (Role × Name)) : Prop where
  noted : w.lastUid = .ok (some (.int (1 + bindings : Nat)))
  above : ∀ p ∈ sites, p.2.uid ≤ 1 + bindings
  attained : bindings ≠ 0 → ∃ n ∈ made, n.uid = 1 + bindings

namespace Pass

theorem notes_typed (t : Phrase Symbol (.one .expression))
    (kind : extent? t.datum = some .expression) (w : Workspace) :
    ∃ w', rename.apply t.datum w = (.ok (t.resolve .initial).1.datum, w') ∧
      w'.Notes t.binders.length (t.resolve .initial).1.binders (t.resolve .initial).1.sites := by
  have renames := t.refined .expression trivial .initial
  obtain ⟨w', done, noted⟩ := apply_rename kind renames w
  have last := t.last_resolve_initial
  refine ⟨w', done, ?_, fun p mem => ?_, fun some => ?_⟩
  · rw [noted, last]
  · exact last ▸ t.uid_le_of_mem_sites Context.sound_initial mem
  · exact t.exists_newest fun none => some (by rw [none, List.length_nil])

theorem notes_module (m : Module Symbol) (w : Workspace) :
    ∃ w', rename.apply m.datum w = (.ok (m.resolve .initial).1.datum, w') ∧
      w'.Notes (m.name :: m.binders).length
        ((m.resolve .initial).1.name :: (m.resolve .initial).1.binders)
        (m.resolve .initial).1.sites := by
  obtain ⟨w', done, noted⟩ := apply_rename rfl (m.renames .initial) w
  have last := m.last_resolve_initial
  refine ⟨w', done, ?_, fun p mem => ?_, fun _ => ?_⟩
  · rw [noted, last]
  · exact last ▸ m.uid_le_of_mem_sites mem
  -- The name of a module is bound after all else.
  · exact ⟨_, List.mem_cons_self, last⟩

theorem metadata_of_rename_error {tree : Datum} {w w' : Workspace} {e : Fault}
    (failed : rename.apply tree w = (.error e, w')) : w'.metadata = w.metadata := by
  rw [apply] at failed
  cases kind : extent? tree with
  | none =>
      rw [kind] at failed
      cases failed
      rfl
  | some extent =>
      rw [kind] at failed
      simp only [Workspace.rename] at failed
      split at failed
      · split at failed <;> cases failed
        rfl
      · cases failed
        rfl

/-- The pass that renames notes how many numbers the binding occurrences of the tree took, and the
last of them is in use. It notes nothing if it fails, whatever the tree. -/
theorem rename_notes_newest (e : Phrase Symbol (.one .expression)) (type location : Datum)
    (m : Module Symbol) (w : Workspace) :
    (∃ w', rename.apply (e.typed type location).datum w =
        (.ok ((e.typed type location).resolve .initial).1.datum, w') ∧
      w'.Notes (e.typed type location).binders.length
        ((e.typed type location).resolve .initial).1.binders
        ((e.typed type location).resolve .initial).1.sites) ∧
    (∃ w', rename.apply m.datum w = (.ok (m.resolve .initial).1.datum, w') ∧
      w'.Notes (m.name :: m.binders).length
        ((m.resolve .initial).1.name :: (m.resolve .initial).1.binders)
        (m.resolve .initial).1.sites) ∧
    ∀ tree fault w', rename.apply tree w = (.error fault, w') → w'.metadata = w.metadata :=
  ⟨notes_typed (e.typed type location) rfl w, notes_module m w,
    fun _ _ _ failed => metadata_of_rename_error failed⟩

def overtakenGroup : Phrase Symbol (.one .expression) :=
  let x := Symbol.ofText "x"
  let block := .doBlock (.cons (.doBind (.identifierPattern x) (.reference x)) (.nil .statement))
    (.reference x)
  .letIn (.binding x block .null (.int 0) (.binding x (.reference x) .null (.int 0) .noBinding))
    (.reference x)

def overtakenModule : Module Symbol where
  name := .ofText "m"
  classes := .null
  definitions := .nil .definition
  declared := .null
  bindings := .declaration (.ofText "x") overtakenGroup .null (.int 0) .noDeclaration
  instances := .nil .instanceOf

theorem overtakenGroup_noted :
    let w : Workspace := .empty
    ((overtakenGroup.typed .null .null).resolve .initial).1.binders.map Name.uid = [3, 4, 4] ∧
      (∃ n ∈ ((overtakenGroup.typed .null .null).resolve .initial).1.binders, n.uid = 4) ∧
      (∃ w', rename.apply overtakenModule.datum w =
        (.ok (overtakenModule.resolve .initial).1.datum, w') ∧
          w'.lastUid = .ok (some (.int 5))) ∧
      (rename.apply overtakenGroup.datum w).2.metadata = .empty := by
  intro w
  obtain ⟨⟨w₁, _, tree⟩, ⟨w₂, done, module⟩, kept⟩ :=
    rename_notes_newest overtakenGroup .null .null overtakenModule w
  exact ⟨rfl, tree.attained (by decide), ⟨w₂, done, module.noted⟩,
    kept overtakenGroup.datum .notRenamable w rfl⟩

end Pass

end ScopeResolution
