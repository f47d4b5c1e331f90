import ScopeResolution.Proofs.Scoping.Uniqueness

namespace ScopeResolution

open Name (numbered)

namespace Scoping

variable {ν : Type} {p : Portion}

def allocated : {p : Portion} → Scoping ν p → List ν
  | _, .none => []
  | _, .refer _ => []
  | _, .bind x => [x]
  | _, .seq a b => a.allocated ++ b.allocated
  | _, .scope a => a.allocated
  | _, .group g => g.names ++ g.allocated
  | _, .nil => []
  | _, .member _ right rest => right.allocated ++ rest.allocated

theorem length_allocated (s : Scoping ν p) : s.allocated.length = s.count := by
  induction s with
  | none => rfl
  | refer => rfl
  | bind => rfl
  | seq a b iha ihb => rw [allocated, List.length_append, iha, ihb, count]
  | scope a ih => exact ih
  | group g ih => rw [allocated, List.length_append, ih, count]
  | nil => rfl
  | member x right rest ihr ihrest => rw [allocated, List.length_append, ihr, ihrest, count]

/-- No group has two names of one symbol, and no right-hand side binds a symbol of its own group in
the scope of that group. -/
def CaptureFree : {p : Portion} → Scoping Symbol p → Prop
  | _, .none => True
  | _, .refer _ => True
  | _, .bind _ => True
  | _, .seq a b => a.CaptureFree ∧ b.CaptureFree
  | _, .scope a => a.CaptureFree
  | _, .group g =>
      (g.names.map Symbol.essence).Nodup ∧ (∀ x ∈ g.names, x.essence ∉ g.leaks) ∧ g.CaptureFree
  | _, .nil => True
  | _, .member _ right rest => right.CaptureFree ∧ rest.CaptureFree

instance decidableCaptureFree : {p : Portion} → (s : Scoping Symbol p) → Decidable s.CaptureFree
  | _, .none => inferInstanceAs (Decidable True)
  | _, .refer _ => inferInstanceAs (Decidable True)
  | _, .bind _ => inferInstanceAs (Decidable True)
  | _, .seq a b =>
      have := decidableCaptureFree a
      have := decidableCaptureFree b
      inferInstanceAs (Decidable (a.CaptureFree ∧ b.CaptureFree))
  | _, .scope a => decidableCaptureFree a
  | _, .group g =>
      have := decidableCaptureFree g
      inferInstanceAs (Decidable ((g.names.map Symbol.essence).Nodup ∧
        (∀ x ∈ g.names, x.essence ∉ g.leaks) ∧ g.CaptureFree))
  | _, .nil => inferInstanceAs (Decidable True)
  | _, .member _ right rest =>
      have := decidableCaptureFree right
      have := decidableCaptureFree rest
      inferInstanceAs (Decidable (right.CaptureFree ∧ rest.CaptureFree))

theorem kept_of_member {x : Symbol} {right : Scoping Symbol .whole} {rest : Scoping Symbol .members}
    (kept : ∀ y ∈ (member x right rest).names, y.essence ∉ (member x right rest).leaks) :
    (∀ y ∈ rest.names, y.essence ∉ right.leaks) ∧ ∀ y ∈ rest.names, y.essence ∉ rest.leaks := by
  rw [← forall₂_and]
  intro y hy
  have both := kept y (List.mem_cons_of_mem x hy)
  rwa [leaks, List.mem_append, not_or] at both

theorem settled_of_captureFree {s : Scoping Symbol p} (h : s.CaptureFree)
    (kept : ∀ x ∈ s.names, x.essence ∉ s.leaks) : s.Settled := by
  induction s with
  | none => trivial
  | refer => trivial
  | bind => trivial
  | seq a b iha ihb => exact ⟨iha h.1 (by simp), ihb h.2 (by simp)⟩
  | scope a ih => exact ih h (by simp)
  | group g ih => exact ⟨h.1, ih h.2.2 h.2.1⟩
  | nil => trivial
  | member x right rest ihr ihrest =>
      obtain ⟨apart, kept⟩ := kept_of_member kept
      exact ⟨ihr h.1 (by simp), apart, ihrest h.2 kept⟩

def Undisturbed : {p : Portion} → Scoping Symbol p → Prop
  | _, .member _ right rest => (∀ x ∈ rest.names, x.essence ∉ right.leaks) ∧ rest.Undisturbed
  | _, _ => True

theorem Settled.undisturbed {s : Scoping Symbol p} (h : s.Settled) : s.Undisturbed := by
  induction s with
  | member x right rest _ ih => exact ⟨h.2.1, ih h.2.2⟩
  | _ => trivial

theorem undisturbed_of_kept {s : Scoping Symbol p} (kept : ∀ x ∈ s.names, x.essence ∉ s.leaks) :
    s.Undisturbed := by
  induction s with
  | member x right rest _ ih => exact (kept_of_member kept).imp_right ih
  | _ => trivial

theorem names_resolve {s : Scoping Symbol p} (h : s.Undisturbed) (c : Context) :
    (s.resolve c).1.names = s.names.map c.nameOf := by
  induction s generalizing c with
  | nil => rfl
  | member x right rest _ ih =>
      have later := ih h.2 (right.resolve c).2
      have meant : ∀ y ∈ rest.names, (right.resolve c).2.nameOf y = c.nameOf y := fun y hy =>
        (right.rebinds_resolve c).nameOf (h.1 y hy)
      rw [List.map_congr_left meant] at later
      exact congrArg (c.nameOf x :: ·) later
  | _ => simp

theorem numbered_allocated_append (a : Scoping Symbol .whole) (c : Context) (xs : List Symbol) :
    numbered c.last a.allocated ++ numbered (a.resolve c).2.last xs =
      numbered c.last (a.allocated ++ xs) := by
  rw [Name.numbered_append, a.length_allocated, a.last_resolve]

theorem allocated_resolve {s : Scoping Symbol p} (h : s.Settled) (c : Context) :
    (s.resolve c).1.allocated = numbered c.last s.allocated := by
  induction s generalizing c with
  | none => rfl
  | refer => rfl
  | bind => rfl
  | seq a b iha ihb =>
      rw [resolve, allocated, iha h.1 c, ihb h.2 (a.resolve c).2]
      exact a.numbered_allocated_append c b.allocated
  | scope a ih => exact ih h c
  | group g ih =>
      have kept := names_resolve h.2.undisturbed (c.bindAll g.names)
      have named := kept.trans (c.map_nameOf_bindAll h.1)
      rw [resolve, allocated, named, ih h.2 (c.bindAll g.names), c.last_bindAll]
      exact (Name.numbered_append c.last g.names g.allocated).symm
  | nil => rfl
  | member x right rest ihr ihrest =>
      rw [resolve, allocated, ihr h.1 c, ihrest h.2.2 (right.resolve c).2]
      exact right.numbered_allocated_append c rest.allocated

end Scoping

def Phrase.allocated {ν : Type} {s : Shape} (t : Phrase ν s) : List ν :=
  t.scoping.allocated

namespace Renaming

theorem allocated_numbered (extent : Extent) (t : Phrase Symbol (.one .expression))
    (h : t.scoping.CaptureFree) :
    ∃ r, t.datum.renamed extent = (.ok (t.resolve .initial).1.datum, r) ∧
      (t.resolve .initial).1.allocated = numbered 1 t.allocated ∧
      r.counter = 1 + t.allocated.length := by
  obtain ⟨r, renamed, shown⟩ := t.renamed_resolve extent
  have settled := Scoping.settled_of_captureFree h (by simp)
  have resolved := t.scoping_resolve .initial
  refine ⟨r, renamed, ?_, ?_⟩
  · rw [Phrase.allocated, resolved.1]
    exact Scoping.allocated_resolve settled .initial
  · rw [shown.counter, resolved.2, Scoping.last_resolve, ← Scoping.length_allocated]
    rfl

def nestedGroup : Phrase Symbol (.one .expression) :=
  let x := Symbol.ofText "x"
  let y := Symbol.ofText "y"
  let z := Symbol.ofText "z"
  let leaking := .doBlock (.cons (.doBind (.identifierPattern z) (.reference y)) (.nil .statement))
    (.lambda y (.reference z))
  .letIn (.binding x leaking .null (.int 0) (.binding y (.reference x) .null (.int 0) .noBinding))
    (.caseOf (.lambda x (.reference y))
      (.cons (.alternative (.identifierPattern y) (.reference y)) (.nil .alternative)))

theorem allocated_nestedGroup :
    nestedGroup.scoping.CaptureFree ∧
      ∃ r, nestedGroup.datum.renamed .expression =
          (.ok (nestedGroup.resolve .initial).1.datum, r) ∧
        (nestedGroup.resolve .initial).1.allocated =
          numbered 1 (["x", "y", "z", "y", "y", "x"].map Symbol.ofText) ∧
        r.counter = 7 := by
  have free : nestedGroup.scoping.CaptureFree := by decide
  exact ⟨free, allocated_numbered .expression nestedGroup free⟩

end Renaming

end ScopeResolution
