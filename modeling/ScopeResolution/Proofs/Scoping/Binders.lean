import ScopeResolution.Proofs.Scoping.Basic

namespace ScopeResolution

namespace Scoping

variable {p q : Portion} {c : Context} {e : Essence} {n : Name}

/-- The members before the first one that goes by a symbol bind that symbol. -/
def Overtaken (e : Essence) : {p : Portion} → Scoping Symbol p → Prop
  | .whole, _ => False
  | .members, .nil => False
  | .members, .member x right rest => x.essence ≠ e ∧ (e ∈ right.leaks ∨ rest.Overtaken e)

theorem leaks_of_overtaken {s : Scoping Symbol p} (h : s.Overtaken e) :
    e ∈ s.leaks := by
  induction s with
  | member x right rest _ ih =>
      obtain ⟨_, here | later⟩ := h
      · exact List.mem_append_left _ here
      · exact List.mem_append_right _ (ih later)
  | _ => cases h

theorem uid_le_of_mem_binders {s : Scoping Symbol p} (h : c.Sound)
    (mem : n ∈ (s.resolve c).1.binders) : n.uid ≤ (s.resolve c).2.last := by
  induction s generalizing c with
  | none => cases mem
  | refer => cases mem
  | bind x =>
      cases List.mem_singleton.1 mem
      exact Nat.le_refl _
  | seq a b iha ihb =>
      rcases List.mem_append.1 mem with mem | mem
      · exact Nat.le_trans (iha h mem) (b.rebinds_resolve _).later
      · exact ihb (sound_resolve h) mem
  | scope a ih => exact ih h mem
  | group g ih => exact ih (h.bindAll g.names) mem
  | nil => cases mem
  | member x right rest ihr ihrest =>
      rcases List.mem_cons.1 mem with rfl | mem
      · exact Nat.le_trans (h.uid_nameOf_le x) ((member x right rest).rebinds_resolve c).later
      rcases List.mem_append.1 mem with mem | mem
      · exact Nat.le_trans (ihr h mem) (rest.rebinds_resolve _).later
      · exact ihrest (sound_resolve h) mem

theorem binds_whole (a : Scoping Symbol .whole) : c.Binds a.names := by
  rw [names_whole]
  exact List.forall_mem_nil _

variable {s : Scoping Symbol p}

theorem name_of_older_binder (h : c.Sound) (binds : c.Binds s.names)
    (mem : n ∈ (s.resolve c).1.binders) (older : n.uid ≤ c.last) :
    ∃ e ∈ s.names.map Symbol.essence, c.bound e = some n ∧ ¬ s.Overtaken e := by
  induction s generalizing c with
  | none => cases mem
  | refer => cases mem
  | bind x =>
      cases List.mem_singleton.1 mem
      exact absurd older (Nat.not_succ_le_self c.last)
  | seq a b iha ihb =>
      rcases List.mem_append.1 mem with mem | mem
      · obtain ⟨e, none, _⟩ := iha h (binds_whole a) mem older
        simp at none
      · have later := Nat.le_trans older (a.rebinds_resolve c).later
        obtain ⟨e, none, _⟩ := ihb (sound_resolve h) (binds_whole b) mem later
        simp at none
  | scope a ih =>
      obtain ⟨e, none, _⟩ := ih h (binds_whole a) mem older
      simp at none
  | group g ih =>
      have rebinds := c.rebinds_bindAll g.names
      have later := Nat.le_trans older rebinds.later
      obtain ⟨e, named, bound, _⟩ :=
        ih (h.bindAll g.names) (c.binds_bindAll g.names) mem later
      exact absurd older (Nat.not_le.2 (rebinds.lt_uid named bound))
  | nil => cases mem
  | member x right rest ihr ihrest =>
      rw [names, Context.Binds, List.forall_mem_cons] at binds
      rcases List.mem_cons.1 mem with here | mem
      · obtain ⟨m, bound⟩ := Option.isSome_iff_exists.1 binds.1
        rw [Context.nameOf_of_bound bound] at here
        subst here
        exact ⟨x.essence, List.mem_cons_self, bound, fun overtaken => overtaken.1 rfl⟩
      rcases List.mem_append.1 mem with mem | mem
      · obtain ⟨e, none, _⟩ := ihr h (binds_whole right) mem older
        simp at none
      · have rebinds := right.rebinds_resolve c
        have later := Nat.le_trans older rebinds.later
        obtain ⟨e, named, bound, first⟩ :=
          ihrest (sound_resolve h) (rebinds.binds binds.2) mem later
        have kept : e ∉ right.leaks := fun leaked =>
          Nat.not_le.2 (rebinds.lt_uid leaked bound) older
        rw [rebinds.keeps e kept] at bound
        refine ⟨e, List.mem_cons_of_mem _ named, bound, fun overtaken => ?_⟩
        rcases overtaken.2 with here | later
        · exact kept here
        · exact first later

theorem lt_uid_of_mem_binders {a : Scoping Symbol .whole} (h : c.Sound)
    (mem : n ∈ (a.resolve c).1.binders) : c.last < n.uid := by
  by_contra older
  obtain ⟨e, none, _⟩ := name_of_older_binder h (binds_whole a) mem (Nat.not_lt.1 older)
  simp at none

theorem mem_binders_of_not_overtaken (named : e ∈ s.names.map Symbol.essence)
    (bound : c.bound e = some n) (first : ¬ s.Overtaken e) : n ∈ (s.resolve c).1.binders := by
  induction s generalizing c with
  | nil => simp [names] at named
  | member x right rest _ ih =>
      by_cases here : x.essence = e
      · subst here
        exact List.mem_cons.2 (.inl (Context.nameOf_of_bound bound).symm)
      · rw [names, List.map_cons, List.mem_cons] at named
        have kept : e ∉ right.leaks := fun leaked => first ⟨here, .inl leaked⟩
        rw [← (right.rebinds_resolve c).keeps e kept] at bound
        have later := ih (named.resolve_left (Ne.symm here)) bound fun o => first ⟨here, .inr o⟩
        exact List.mem_cons_of_mem _ (List.mem_append_right _ later)
  | _ => simp at named

theorem mem_append_of_leaks {a : Scoping Symbol .whole} {b : Scoping Symbol q}
    (first : e ∈ a.leaks → (a.resolve c).2.bound e = some n → n ∈ (a.resolve c).1.binders)
    (second : e ∈ b.leaks → (b.resolve (a.resolve c).2).2.bound e = some n →
      n ∈ (b.resolve (a.resolve c).2).1.binders)
    (h : e ∈ a.leaks ++ b.leaks) (bound : (b.resolve (a.resolve c).2).2.bound e = some n) :
    n ∈ (a.resolve c).1.binders ++ (b.resolve (a.resolve c).2).1.binders := by
  by_cases later : e ∈ b.leaks
  · exact List.mem_append_right _ (second later bound)
  · rw [(b.rebinds_resolve _).keeps e later] at bound
    exact List.mem_append_left _ (first ((List.mem_append.1 h).resolve_right later) bound)

theorem mem_binders_of_leaks (h : e ∈ s.leaks) (bound : (s.resolve c).2.bound e = some n) :
    n ∈ (s.resolve c).1.binders := by
  induction s generalizing c with
  | none => cases h
  | refer => cases h
  | bind x =>
      cases List.mem_singleton.1 h
      rw [resolve, c.bound_bind_self, Option.some.injEq] at bound
      exact List.mem_singleton.2 bound.symm
  | seq a b iha ihb => exact mem_append_of_leaks iha ihb h bound
  | scope => cases h
  | group g ih =>
      by_cases inner : e ∈ g.leaks
      · exact ih inner bound
      · have named := (List.mem_append.1 h).resolve_right inner
        rw [resolve, (g.rebinds_resolve _).keeps e inner] at bound
        have first : ¬ g.Overtaken e := fun overtaken => inner (leaks_of_overtaken overtaken)
        exact mem_binders_of_not_overtaken (s := g) named bound first
  | nil => cases h
  | member x right rest ihr ihrest =>
      exact List.mem_cons_of_mem _ (mem_append_of_leaks ihr ihrest h bound)

end Scoping

end ScopeResolution
