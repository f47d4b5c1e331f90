import ScopeResolution.Proofs.Scoping.Newest

namespace ScopeResolution

open Name (numbered)

namespace Context

def Among (c : Context) (ns : List Name) : Prop :=
  ∀ e n, c.bound e = some n → n ∈ ns

theorem among_initial (ns : List Name) : initial.Among ns :=
  fun _ _ bound => nomatch bound

namespace Among

variable {c inner : Context} {ns ms : List Name}

theorem mono (h : c.Among ns) (sub : ns ⊆ ms) : c.Among ms :=
  fun e n bound => sub (h e n bound)

theorem leave (h : c.Among ns) : (c.leave inner).Among ns :=
  h

theorem bind (h : c.Among ns) (x : Symbol) : (c.bind x).Among (ns ++ [c.next x]) := by
  intro e n bound
  by_cases same : x.essence = e
  · rw [← same, bound_bind_self, Option.some.injEq] at bound
    simp [bound]
  · rw [bound_bind_of_ne same] at bound
    exact List.mem_append_left _ (h e n bound)

theorem bindAll (h : c.Among ns) (xs : List Symbol) :
    (c.bindAll xs).Among (ns ++ numbered c.last xs) := by
  induction xs generalizing c ns with
  | nil => exact h.mono (List.subset_append_left ns _)
  | cons x xs ih =>
      have rest := ih (h.bind x)
      rwa [List.append_assoc] at rest

theorem nameOf {xs : List Symbol} (h : c.Among ns) (binds : c.Binds xs) {x : Symbol} (hx : x ∈ xs) :
    c.nameOf x ∈ ns := by
  obtain ⟨n, bound⟩ := Option.isSome_iff_exists.1 (binds x hx)
  rw [nameOf_of_bound bound]
  exact h x.essence n bound

end Among

end Context

namespace Scoping

variable {p : Portion} {c : Context} {ns : List Name}

theorem among_resolve (s : Scoping Symbol p) (h : c.Among ns) :
    (s.resolve c).2.Among (ns ++ numbered c.last s.allocated) := by
  induction s generalizing c ns with
  | none => exact h.mono (List.subset_append_left ns _)
  | refer => exact h.mono (List.subset_append_left ns _)
  | bind x => exact h.bind x
  | seq a b iha ihb =>
      have second := ihb (iha h)
      rwa [List.append_assoc, a.numbered_allocated_append c] at second
  | scope a => exact h.leave.mono (List.subset_append_left ns _)
  | group g ih =>
      have inner := ih (h.bindAll g.names)
      rwa [List.append_assoc, c.last_bindAll, ← Name.numbered_append] at inner
  | nil => exact h.mono (List.subset_append_left ns _)
  | member x right rest ihr ihrest =>
      have second := ihrest (ihr h)
      rwa [List.append_assoc, right.numbered_allocated_append c] at second

theorem mem_taken_of_mem_binders {s : Scoping Symbol p} (h : c.Among ns) (binds : c.Binds s.names)
    {n : Name} (mem : n ∈ (s.resolve c).1.binders) : n ∈ ns ++ numbered c.last s.allocated := by
  induction s generalizing c ns with
  | none => cases mem
  | refer => cases mem
  | bind x =>
      rw [List.mem_singleton.1 mem]
      exact List.mem_append_right ns (List.mem_singleton_self _)
  | seq a b iha ihb =>
      rw [allocated, ← a.numbered_allocated_append c, ← List.append_assoc]
      rcases List.mem_append.1 mem with mem | mem
      · exact List.mem_append_left _ (iha h (binds_whole a) mem)
      · exact ihb (a.among_resolve h) (binds_whole b) mem
  | scope a ih => exact ih h (binds_whole a) mem
  | group g ih =>
      have inner := ih (h.bindAll g.names) (c.binds_bindAll g.names) mem
      rwa [List.append_assoc, c.last_bindAll, ← Name.numbered_append] at inner
  | nil => cases mem
  | member x right rest ihr ihrest =>
      -- The name of a member was taken with its group, or later by a member that leaked over it.
      have named : c.nameOf x ∈ ns := h.nameOf binds List.mem_cons_self
      rw [names, Context.Binds, List.forall_mem_cons] at binds
      rw [allocated, ← right.numbered_allocated_append c, ← List.append_assoc]
      rcases List.mem_cons.1 mem with rfl | mem
      · exact List.mem_append_left _ (List.mem_append_left _ named)
      rcases List.mem_append.1 mem with mem | mem
      · exact List.mem_append_left _ (ihr h (binds_whole right) mem)
      · exact ihrest (right.among_resolve h) ((right.rebinds_resolve c).binds binds.2) mem

theorem binders_subset_numbered (a : Scoping Symbol .whole) :
    (a.resolve .initial).1.binders ⊆ numbered 1 a.allocated :=
  fun _ mem => mem_taken_of_mem_binders (Context.among_initial []) (binds_whole a) mem

theorem length_binders_resolve (a : Scoping Symbol .whole) :
    (a.resolve .initial).1.binders.length = a.count := by
  rw [← List.length_map Name.uid]
  exact (a.length_uids .initial).trans (by simp)

end Scoping

namespace Phrase

theorem bind_mem_sites_iff {s : Shape} (t : Phrase Symbol s) (c : Context) (n : Name)
    (bound : n.uid ≠ 0) :
    (Role.bind, n) ∈ (t.resolve c).1.sites ↔ n ∈ (t.resolve c).1.binders := by
  have global (x : Symbol) : n ≠ ⟨x, 0⟩ := fun same => bound (congrArg Name.uid same)
  rw [binders]
  induction t generalizing c <;>
    simp_all [resolve, scoping, Scoping.binders, sites, places, List.filterMap_cons, or_comm]

end Phrase

namespace Module

theorem bind_mem_sites_iff (m : Module Symbol) (n : Name) (bound : n.uid ≠ 0) :
    (Role.bind, n) ∈ (m.resolve .initial).1.sites ↔
      n ∈ (m.resolve .initial).1.name :: (m.resolve .initial).1.binders := by
  have definitions := m.definitions.bind_mem_sites_iff .initial n bound
  have instances := m.instances.bind_mem_sites_iff (m.definitions.resolve .initial).2 n bound
  have bindings := m.bindings.bind_mem_sites_iff
    (m.instances.resolve (m.definitions.resolve .initial).2).2 n bound
  rw [Phrase.binders] at definitions instances bindings
  rw [sites_eq, binders, List.mem_cons, List.mem_cons]
  refine or_congr (by simp) ?_
  simp only [resolve, scoping, Scoping.binders, List.mem_append, definitions, instances, bindings]
  exact or_congr_right or_comm

theorem binders_subset_numbered (m : Module Symbol) :
    (m.resolve .initial).1.name :: (m.resolve .initial).1.binders ⊆
      numbered 1 (m.scoping.allocated ++ [m.name]) := by
  have named : (m.resolve .initial).1.name = ⟨m.name, 1 + m.scoping.allocated.length + 1⟩ := by
    rw [m.scoping.length_allocated]
    exact congrArg (Name.mk m.name) (m.last_resolve .initial)
  rw [Name.numbered_append, named, binders, m.scoping_resolve .initial]
  refine List.cons_subset.2 ⟨List.mem_append_right _ (List.mem_singleton_self _), ?_⟩
  exact List.Subset.trans m.scoping.binders_subset_numbered (List.subset_append_left _ _)

end Module

end ScopeResolution
