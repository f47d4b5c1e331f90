import ScopeResolution.Proofs.Refinement
import ScopeResolution.Proofs.Scoping.Binders

namespace ScopeResolution

namespace Scoping

variable {p q : Portion}

def free : {p : Portion} → Scoping Symbol p → List Symbol
  | _, .none => []
  | _, .refer x => [x]
  | _, .bind _ => []
  | _, .seq a b => a.free ++ b.free.filter (·.essence ∉ a.leaks)
  | _, .scope a => a.free
  | _, .group g => g.free.filter (·.essence ∉ g.names.map Symbol.essence)
  | _, .nil => []
  | _, .member _ right rest => right.free ++ rest.free.filter (·.essence ∉ right.leaks)

/-- No group refers from its right-hand sides to a name of its own that is overtaken. -/
def Joined : {p : Portion} → Scoping Symbol p → Prop
  | _, .none => True
  | _, .refer _ => True
  | _, .bind _ => True
  | _, .seq a b => a.Joined ∧ b.Joined
  | _, .scope a => a.Joined
  | _, .group g => g.Joined ∧
      ∀ x ∈ g.free, x.essence ∈ g.names.map Symbol.essence → ¬ g.Overtaken x.essence
  | _, .nil => True
  | _, .member _ right rest => right.Joined ∧ rest.Joined

theorem uid_le_of_mem_references {s : Scoping Symbol p} {c : Context} {n : Name} (h : c.Sound)
    (mem : n ∈ (s.resolve c).1.references) : n.uid ≤ (s.resolve c).2.last := by
  induction s generalizing c with
  | none => cases mem
  | refer x =>
      cases List.mem_singleton.1 mem
      exact h.uid_nameOf_le x
  | bind => cases mem
  | seq a b iha ihb =>
      rcases List.mem_append.1 mem with mem | mem
      · exact Nat.le_trans (iha h mem) (b.rebinds_resolve _).later
      · exact ihb (sound_resolve h) mem
  | scope a ih => exact ih h mem
  | group g ih => exact ih (h.bindAll g.names) mem
  | nil => cases mem
  | member x right rest ihr ihrest =>
      rcases List.mem_append.1 mem with mem | mem
      · exact Nat.le_trans (ihr h mem) (rest.rebinds_resolve _).later
      · exact ihrest (sound_resolve h) mem

section References

variable {c c' : Context} {es : List Essence} {n : Name}

theorem older_of_later {P : Prop} {xs : List Symbol} (h : c.Rebinds c' es) (sound : c.Sound)
    (later : P ∧ n.uid ≤ c'.last ↔ ∃ x ∈ xs, c'.nameOf x = n) :
    P ∧ n.uid ≤ c.last ↔ ∃ x ∈ xs.filter (·.essence ∉ es), c.nameOf x = n := by
  constructor
  · rintro ⟨holds, older⟩
    obtain ⟨x, hx, meant⟩ := later.1 ⟨holds, Nat.le_trans older h.later⟩
    have kept : x.essence ∉ es := by
      intro renewed
      obtain ⟨m, bound, newer⟩ := h.renews x.essence renewed
      rw [Context.nameOf_of_bound bound] at meant
      exact Nat.not_le.2 newer (meant ▸ older)
    rw [Context.nameOf, h.keeps x.essence kept] at meant
    exact ⟨x, List.mem_filter.2 ⟨hx, decide_eq_true kept⟩, meant⟩
  · rintro ⟨x, hx, meant⟩
    obtain ⟨hx, kept⟩ := List.mem_filter.1 hx
    have same : c'.nameOf x = n := by
      rw [Context.nameOf, h.keeps x.essence (of_decide_eq_true kept)]
      exact meant
    exact ⟨(later.2 ⟨x, hx, same⟩).1, meant ▸ sound.uid_nameOf_le x⟩

theorem mem_references_iff_free {s : Scoping Symbol p} (h : c.Sound) :
    n ∈ (s.resolve c).1.references ∧ n.uid ≤ c.last ↔ ∃ x ∈ s.free, c.nameOf x = n := by
  induction s generalizing c with
  | none => simp [resolve, references, free]
  | refer x =>
      simp only [resolve, references, free, List.mem_singleton, exists_eq_left]
      constructor
      · rintro ⟨rfl, _⟩
        rfl
      · rintro rfl
        exact ⟨rfl, h.uid_nameOf_le x⟩
  | bind x => simp [resolve, references, free]
  | seq a b iha ihb =>
      have after := older_of_later (a.rebinds_resolve c) h (ihb (sound_resolve h))
      simp only [resolve, references, free, List.mem_append, or_and_right, exists_or]
      exact or_congr (iha h) after
  | scope a ih => exact ih h
  | group g ih =>
      exact older_of_later (c.rebinds_bindAll g.names) h (ih (h.bindAll g.names))
  | nil => simp [resolve, references, free]
  | member x right rest ihr ihrest =>
      have after := older_of_later (right.rebinds_resolve c) h (ihrest (sound_resolve h))
      simp only [resolve, references, free, List.mem_append, or_and_right, exists_or]
      exact or_congr (ihr h) after

end References

def Closed (s : Scoping Symbol p) (c : Context) : Prop :=
  ∀ n ∈ (s.resolve c).1.references, c.last < n.uid → n ∈ (s.resolve c).1.binders

theorem bound_of_nameOf {c : Context} {x : Symbol} {n : Name} (meant : c.nameOf x = n)
    (positive : 0 < n.uid) : c.bound x.essence = some n := by
  cases bound : c.bound x.essence with
  | none =>
      rw [Context.nameOf, bound] at meant
      subst meant
      cases positive
  | some m => rw [← meant, Context.nameOf_of_bound bound]

section Closed

variable {c : Context}

theorem closed_append {a : Scoping Symbol .whole} {b : Scoping Symbol q} (h : c.Sound)
    (binds : c.Binds b.names) :
    (∀ n ∈ (a.resolve c).1.references ++ (b.resolve (a.resolve c).2).1.references,
      c.last < n.uid → n ∈ (a.resolve c).1.binders ++ (b.resolve (a.resolve c).2).1.binders) ↔
      a.Closed c ∧ b.Closed (a.resolve c).2 := by
  have rebinds := a.rebinds_resolve c
  have sound : (a.resolve c).2.Sound := sound_resolve h
  constructor
  · intro closed
    refine ⟨fun n mem newer => ?_, fun n mem newer => ?_⟩
    · rcases List.mem_append.1 (closed n (List.mem_append_left _ mem) newer) with here | there
      · exact here
      -- a later binder with an older name has it from a group that is still open
      · have older := uid_le_of_mem_references h mem
        obtain ⟨e, _, bound, _⟩ := name_of_older_binder sound (rebinds.binds binds) there older
        exact mem_binders_of_leaks (rebinds.mem_of_lt h bound newer) bound
    · have newest := Nat.lt_of_le_of_lt rebinds.later newer
      rcases List.mem_append.1 (closed n (List.mem_append_right _ mem) newest) with here | there
      · exact absurd (uid_le_of_mem_binders h here) (Nat.not_le.2 newer)
      · exact there
  · rintro ⟨first, second⟩ n mem newer
    rcases List.mem_append.1 mem with mem | mem
    · exact List.mem_append_left _ (first n mem newer)
    · by_cases newest : (a.resolve c).2.last < n.uid
      · exact List.mem_append_right _ (second n mem newest)
      · obtain ⟨x, _, meant⟩ := (mem_references_iff_free sound).1 ⟨mem, Nat.not_lt.1 newest⟩
        have bound := bound_of_nameOf meant (Nat.zero_lt_of_lt newer)
        have leaked := rebinds.mem_of_lt h bound newer
        exact List.mem_append_left _ (mem_binders_of_leaks leaked bound)

theorem closed_group {g : Scoping Symbol .members} (h : c.Sound) :
    (group g).Closed c ↔ g.Closed (c.bindAll g.names) ∧
      ∀ x ∈ g.free, x.essence ∈ g.names.map Symbol.essence → ¬ g.Overtaken x.essence := by
  have rebinds := c.rebinds_bindAll g.names
  have sound := h.bindAll g.names
  constructor
  · intro closed
    refine ⟨fun n mem newer => ?_, fun x hx named overtaken => ?_⟩
    · exact closed n mem (Nat.lt_of_le_of_lt rebinds.later newer)
    · obtain ⟨n, bound, newer⟩ := rebinds.renews x.essence named
      have meant := Context.nameOf_of_bound bound
      obtain ⟨mem, older⟩ := (mem_references_iff_free sound).2 ⟨x, hx, meant⟩
      obtain ⟨e, _, found, first⟩ :=
        name_of_older_binder sound (c.binds_bindAll g.names) (closed n mem newer) older
      have same : x.essence = e := (sound _ n bound).1.symm.trans (sound e n found).1
      exact first (same ▸ overtaken)
  · rintro ⟨closed, first⟩ n mem newer
    by_cases newest : (c.bindAll g.names).last < n.uid
    · exact closed n mem newest
    · obtain ⟨x, hx, meant⟩ := (mem_references_iff_free sound).1 ⟨mem, Nat.not_lt.1 newest⟩
      have bound := bound_of_nameOf meant (Nat.zero_lt_of_lt newer)
      have named := rebinds.mem_of_lt h bound newer
      exact mem_binders_of_not_overtaken (s := g) named bound (first x hx named)

theorem closed_iff_joined {s : Scoping Symbol p} (h : c.Sound) (binds : c.Binds s.names) :
    s.Closed c ↔ s.Joined := by
  induction s generalizing c with
  | none => simp [Closed, Joined, resolve, references]
  | refer x =>
      simp only [Closed, Joined, resolve, references, List.mem_singleton, forall_eq, iff_true]
      exact fun newer => absurd (h.uid_nameOf_le x) (Nat.not_le.2 newer)
  | bind x => simp [Closed, Joined, resolve, references]
  | seq a b iha ihb =>
      have binds' : c.Binds b.names := binds_whole b
      refine (closed_append h binds').trans (and_congr (iha h (binds_whole a)) ?_)
      exact ihb (sound_resolve h) (binds_whole b)
  | scope a ih => exact ih h (binds_whole a)
  | group g ih =>
      refine (closed_group h).trans (and_congr_left' ?_)
      exact ih (h.bindAll g.names) (c.binds_bindAll g.names)
  | nil => simp [Closed, Joined, resolve, references]
  | member x right rest ihr ihrest =>
      rw [names, Context.Binds, List.forall_mem_cons] at binds
      have rebinds := right.rebinds_resolve c
      have both := (closed_append h binds.2).trans (and_congr (ihr h (binds_whole right))
        (ihrest (sound_resolve h) (rebinds.binds binds.2)))
      rw [Joined, ← both]
      refine forall₃_congr fun n _ newer => ?_
      have apart : n ≠ c.nameOf x := by
        rintro rfl
        exact Nat.not_le.2 newer (h.uid_nameOf_le x)
      exact List.mem_cons.trans (or_iff_right apart)

end Closed

theorem references_bound_iff (a : Scoping Symbol .whole) :
    (∀ n ∈ (a.resolve .initial).1.references, n.uid ≠ 0 → n ∈ (a.resolve .initial).1.binders) ↔
      a.Joined := by
  have sound := Context.sound_initial
  rw [← closed_iff_joined sound (binds_whole a)]
  refine forall₂_congr fun n mem => ?_
  have positive : n.uid ≠ 0 ↔ 1 < n.uid := by
    refine ⟨fun nonzero => ?_, Nat.ne_zero_of_lt⟩
    by_contra older
    obtain ⟨x, _, meant⟩ := (mem_references_iff_free sound).1 ⟨mem, Nat.not_lt.1 older⟩
    have bound := bound_of_nameOf meant (Nat.pos_of_ne_zero nonzero)
    cases bound
  rw [positive]
  rfl

end Scoping

namespace Renaming

/-- Every reference of a renamed tree that is not global has a binder just if the groups of the tree
are joined, and so for modules. -/
theorem references_bound_iff_joined (t : Phrase Symbol (.one .expression)) (m : Module Symbol) :
    ((t.datum.renamed .expression).1 = .ok (t.resolve .initial).1.datum ∧
      ((∀ n ∈ (t.resolve .initial).1.references, n.uid ≠ 0 →
        n ∈ (t.resolve .initial).1.binders) ↔ t.scoping.Joined)) ∧
    (m.datum.renamed .module).1 = .ok (m.resolve .initial).1.datum ∧
      ((∀ n ∈ (m.resolve .initial).1.references, n.uid ≠ 0 →
        n ∈ (m.resolve .initial).1.binders) ↔ m.scoping.Joined) := by
  refine ⟨⟨?_, ?_⟩, ?_, ?_⟩
  · obtain ⟨r, renamed, _⟩ := t.renamed_resolve .expression
    rw [renamed]
  · rw [Phrase.references, Phrase.binders, (t.scoping_resolve .initial).1]
    exact t.scoping.references_bound_iff
  · obtain ⟨r, renamed, _⟩ := m.renamed_resolve
    rw [renamed]
  · rw [Module.references, Module.binders, m.scoping_resolve .initial]
    exact m.scoping.references_bound_iff

def overtakenGroup : Phrase Symbol (.one .expression) :=
  let number (n : Int) : Phrase Symbol (.one .expression) := .literal .number (.ofInt n)
  let x := Symbol.ofText "x"
  let y := Symbol.ofText "y"
  let statements := .cons (.doExpr (.reference y))
    (.cons (.doBind (.identifierPattern y) (number 1)) (.nil .statement))
  .letIn (.binding x (.doBlock statements (number 0)) .null (.int 0)
    (.binding y (number 2) .null (.int 0) .noBinding)) (number 0)

theorem reference_dangles :
    (overtakenGroup.datum.renamed .expression).1 =
        .ok (overtakenGroup.resolve .initial).1.datum ∧
      ∃ n ∈ (overtakenGroup.resolve .initial).1.references,
        n.uid ≠ 0 ∧ n ∉ (overtakenGroup.resolve .initial).1.binders := by
  obtain ⟨r, renamed, _⟩ := overtakenGroup.renamed_resolve .expression
  refine ⟨by rw [renamed], ⟨Symbol.ofText "y", 3⟩, ?_, by decide, fun mem => ?_⟩
  · have only : (overtakenGroup.resolve .initial).1.references = [⟨Symbol.ofText "y", 3⟩] := rfl
    rw [only]
    exact List.mem_singleton_self _
  · have uids : (overtakenGroup.resolve .initial).1.binders.map Name.uid = [2, 4, 4] := rfl
    have uid := List.mem_map_of_mem (f := Name.uid) mem
    rw [uids] at uid
    revert uid
    decide

end Renaming

end ScopeResolution
