import Mathlib.Algebra.GroupWithZero.Nat
import Mathlib.Data.List.Perm.Subperm
import ScopeResolution.Proofs.Refinement
import ScopeResolution.Proofs.Scoping.Binders

namespace ScopeResolution

def Name.numbered (last : Nat) (xs : List Symbol) : List Name :=
  (xs.zipIdx (last + 1)).map fun p => ⟨p.1, p.2⟩

namespace Name

theorem numbered_cons (last : Nat) (x : Symbol) (xs : List Symbol) :
    numbered last (x :: xs) = ⟨x, last + 1⟩ :: numbered (last + 1) xs := rfl

theorem numbered_append (last : Nat) (xs ys : List Symbol) :
    numbered last (xs ++ ys) = numbered last xs ++ numbered (last + xs.length) ys := by
  rw [numbered, List.zipIdx_append, List.map_append, Nat.add_right_comm]
  rfl

theorem map_uid_numbered (last : Nat) (xs : List Symbol) :
    (numbered last xs).map uid = List.range' (last + 1) xs.length := by
  induction xs generalizing last with
  | nil => rfl
  | cons x xs ih => exact congrArg ((last + 1) :: ·) (ih (last + 1))

end Name

structure Tight (low high : Nat) (P : Prop) : Prop where
  le : low ≤ high
  of_le : high ≤ low → P

namespace Tight

variable {a b c d : Nat} {P Q : Prop}

theorem refl (a : Nat) : Tight a a True :=
  ⟨Nat.le_refl a, fun _ => trivial⟩

theorem add (h : Tight a b P) (k : Tight c d Q) : Tight (a + c) (b + d) (P ∧ Q) := by
  have le := h.le
  have le' := k.le
  exact ⟨by omega, fun same => ⟨h.of_le (by omega), k.of_le (by omega)⟩⟩

theorem trans (h : Tight a b P) (k : Tight b c Q) : Tight a c (P ∧ Q) := by
  have le := h.le
  have le' := k.le
  exact ⟨by omega, fun same => ⟨h.of_le (by omega), k.of_le (by omega)⟩⟩

theorem imp (h : Tight a b P) (f : P → Q) : Tight a b Q :=
  ⟨h.le, fun same => f (h.of_le same)⟩

theorem congr (h : Tight a b P) (low : a = c) (high : b = d) : Tight c d P :=
  low ▸ high ▸ h

end Tight

namespace Context

variable {c c' : Context} {es : List Essence} {x : Symbol} {xs : List Symbol}

def uids (c : Context) (xs : List Symbol) : List Nat :=
  xs.map fun x => (c.nameOf x).uid

theorem Rebinds.nameOf (h : c.Rebinds c' es) (kept : x.essence ∉ es) :
    c'.nameOf x = c.nameOf x := by
  rw [Context.nameOf, Context.nameOf, h.keeps x.essence kept]

theorem Rebinds.uids (h : c.Rebinds c' es) (kept : ∀ x ∈ xs, x.essence ∉ es) :
    c'.uids xs = c.uids xs :=
  List.map_congr_left fun x hx => congrArg Name.uid (h.nameOf (kept x hx))

theorem Rebinds.tight_uid (h : c.Rebinds c' es) (sound : c.Sound) (x : Symbol) :
    Tight (c.nameOf x).uid (c'.nameOf x).uid (x.essence ∉ es) := by
  by_cases renewed : x.essence ∈ es
  · obtain ⟨n, bound, newer⟩ := h.renews x.essence renewed
    have older := sound.uid_nameOf_le x
    rw [nameOf_of_bound bound]
    exact ⟨by omega, fun same => by omega⟩
  · rw [h.nameOf renewed]
    exact ⟨Nat.le_refl _, fun _ => renewed⟩

theorem Rebinds.tight_uids (h : c.Rebinds c' es) (sound : c.Sound) (xs : List Symbol) :
    Tight (c.uids xs).sum (c'.uids xs).sum (∀ x ∈ xs, x.essence ∉ es) := by
  induction xs with
  | nil => exact (Tight.refl 0).imp fun _ => List.forall_mem_nil _
  | cons x xs ih =>
      rw [List.forall_mem_cons]
      exact (h.tight_uid sound x).add ih

theorem nameOf_bindAll_cons (h : x.essence ∉ xs.map Symbol.essence) (c : Context) :
    (c.bindAll (x :: xs)).nameOf x = c.next x := by
  have kept := ((c.bind x).rebinds_bindAll xs).keeps x.essence h
  exact nameOf_of_bound (kept.trans (c.bound_bind_self x))

theorem map_nameOf_bindAll (h : (xs.map Symbol.essence).Nodup) (c : Context) :
    xs.map (c.bindAll xs).nameOf = Name.numbered c.last xs := by
  induction xs generalizing c with
  | nil => rfl
  | cons x xs ih =>
      rw [List.map_cons, List.nodup_cons] at h
      rw [List.map_cons, nameOf_bindAll_cons h.1 c, Name.numbered_cons]
      exact congrArg _ (ih h.2 (c.bind x))

theorem uids_bindAll (h : (xs.map Symbol.essence).Nodup) (c : Context) :
    (c.bindAll xs).uids xs = List.range' (c.last + 1) xs.length := by
  rw [← Name.map_uid_numbered, ← map_nameOf_bindAll h, List.map_map]
  rfl

theorem tight_bindAll (sound : c.Sound) (xs : List Symbol) :
    Tight (List.range' (c.last + 1) xs.length).sum ((c.bindAll xs).uids xs).sum
      (xs.map Symbol.essence).Nodup := by
  induction xs generalizing c with
  | nil => exact (Tight.refl 0).imp fun _ => List.nodup_nil
  | cons x xs ih =>
      have rebinds := (c.bind x).rebinds_bindAll xs
      have head := rebinds.tight_uid (sound.bind x) x
      have bound : (c.bind x).nameOf x = c.next x := nameOf_of_bound (c.bound_bind_self x)
      rw [bound] at head
      rw [List.map_cons, List.nodup_cons]
      exact head.add (ih (sound.bind x))

end Context

namespace Scoping

variable {p : Portion} {c : Context}

/-- Every group names its bindings by different symbols, and none of its right-hand sides binds the
symbol of a binding that comes later. -/
def Settled : {p : Portion} → Scoping Symbol p → Prop
  | _, .none => True
  | _, .refer _ => True
  | _, .bind _ => True
  | _, .seq a b => a.Settled ∧ b.Settled
  | _, .scope a => a.Settled
  | _, .group g => (g.names.map Symbol.essence).Nodup ∧ g.Settled
  | _, .nil => True
  | _, .member _ right rest =>
      right.Settled ∧ (∀ x ∈ rest.names, x.essence ∉ right.leaks) ∧ rest.Settled

def count {ν : Type} : {p : Portion} → Scoping ν p → Nat
  | _, .none => 0
  | _, .refer _ => 0
  | _, .bind _ => 1
  | _, .seq a b => a.count + b.count
  | _, .scope a => a.count
  | _, .group g => g.names.length + g.count
  | _, .nil => 0
  | _, .member _ right rest => right.count + rest.count

def uids (s : Scoping Symbol p) (c : Context) : List Nat :=
  (s.resolve c).1.binders.map Name.uid

theorem uids_seq (a b : Scoping Symbol .whole) (c : Context) :
    (seq a b).uids c = a.uids c ++ b.uids (a.resolve c).2 :=
  List.map_append

theorem uids_member (x : Symbol) (right : Scoping Symbol .whole) (rest : Scoping Symbol .members)
    (c : Context) :
    (member x right rest).uids c =
      (c.nameOf x).uid :: (right.uids c ++ rest.uids (right.resolve c).2) :=
  congrArg ((c.nameOf x).uid :: ·) List.map_append

theorem last_resolve (s : Scoping Symbol p) (c : Context) :
    (s.resolve c).2.last = c.last + s.count := by
  induction s generalizing c with
  | none => rfl
  | refer => rfl
  | bind => rfl
  | seq a b iha ihb =>
      rw [resolve, ihb, iha, count]
      omega
  | scope a ih => exact ih c
  | group g ih =>
      rw [resolve, ih, c.last_bindAll, count]
      omega
  | nil => rfl
  | member x right rest ihr ihrest =>
      rw [resolve, ihrest, ihr, count]
      omega

theorem length_uids (s : Scoping Symbol p) (c : Context) :
    (s.uids c).length = s.names.length + s.count := by
  induction s generalizing c with
  | none => rfl
  | refer => rfl
  | bind => rfl
  | seq a b iha ihb =>
      rw [uids_seq, List.length_append, iha, ihb, count]
      simp
  | scope a ih =>
      have inner := ih c
      rw [names_whole] at inner ⊢
      exact inner
  | group g ih =>
      rw [names_whole, count]
      exact (ih _).trans (Nat.zero_add _).symm
  | nil => rfl
  | member x right rest ihr ihrest =>
      rw [uids_member, List.length_cons, List.length_append, ihr, ihrest, names_whole, names, count]
      simp only [List.length_cons, List.length_nil]
      omega

def taken (s : Scoping Symbol p) (c : Context) : List Nat :=
  List.range' (c.last + 1) s.count

theorem taken_append (s : Scoping Symbol p) (c : Context) (k : Nat) :
    s.taken c ++ List.range' ((s.resolve c).2.last + 1) k =
      List.range' (c.last + 1) (s.count + k) := by
  have next : (s.resolve c).2.last + 1 = c.last + 1 + s.count := by
    rw [last_resolve]
    omega
  rw [next, taken, List.range'_append_1]

theorem taken_seq (a b : Scoping Symbol .whole) (c : Context) :
    (seq a b).taken c = a.taken c ++ b.taken (a.resolve c).2 :=
  (a.taken_append c b.count).symm

theorem taken_group (g : Scoping Symbol .members) (c : Context) :
    (group g).taken c =
      List.range' (c.last + 1) g.names.length ++ g.taken (c.bindAll g.names) := by
  rw [taken, taken, c.last_bindAll, Nat.add_right_comm, List.range'_append_1, count]

theorem taken_member (x : Symbol) (right : Scoping Symbol .whole) (rest : Scoping Symbol .members)
    (c : Context) :
    (member x right rest).taken c = right.taken c ++ rest.taken (right.resolve c).2 :=
  (right.taken_append c rest.count).symm

theorem perm_of_settled {s : Scoping Symbol p} (h : s.Settled) (c : Context) :
    (s.uids c).Perm (c.uids s.names ++ s.taken c) := by
  induction s generalizing c with
  | none => exact .nil
  | refer => exact .nil
  | bind => exact .refl _
  | seq a b iha ihb =>
      have first := iha h.1 c
      have second := ihb h.2 (a.resolve c).2
      rw [names_whole] at first second ⊢
      rw [uids_seq, taken_seq]
      exact first.append second
  | scope a ih =>
      have inner := ih h c
      rw [names_whole] at inner ⊢
      exact inner
  | group g ih =>
      have inner := ih h.2 (c.bindAll g.names)
      rw [Context.uids_bindAll h.1] at inner
      rw [names_whole, taken_group]
      exact inner
  | nil => exact .nil
  | member x right rest ihr ihrest =>
      obtain ⟨first, kept, later⟩ := h
      have here := ihr first c
      have there := ihrest later (right.resolve c).2
      rw [names_whole] at here
      rw [(right.rebinds_resolve c).uids kept] at there
      rw [uids_member, names, taken_member]
      exact .cons _ ((here.append there).trans (List.perm_append_comm_assoc _ _ _))

theorem tight_uids {s : Scoping Symbol p} (h : c.Sound) :
    Tight ((c.uids s.names).sum + (s.taken c).sum) (s.uids c).sum s.Settled := by
  induction s generalizing c with
  | none => exact Tight.refl 0
  | refer => exact Tight.refl 0
  | bind => exact (Tight.refl _).congr (Nat.zero_add _).symm rfl
  | seq a b iha ihb =>
      have after : (a.resolve c).2.Sound := sound_resolve h
      have both := (iha h).add (ihb after)
      rw [names_whole, names_whole] at both
      refine both.congr ?_ ?_
      · rw [names_whole, taken_seq, List.sum_append]
        simp only [Context.uids, List.map_nil, List.sum_nil, Nat.zero_add]
      · rw [uids_seq, List.sum_append]
  | scope a ih =>
      have inner := ih h
      rw [names_whole] at inner ⊢
      exact inner
  | group g ih =>
      have named := Context.tight_bindAll h g.names
      have inner := (named.add (Tight.refl _)).trans (ih (h.bindAll g.names))
      refine (inner.imp fun both => ⟨both.1.1, both.2⟩).congr ?_ rfl
      rw [names_whole, taken_group, List.sum_append]
      exact (Nat.zero_add _).symm
  | nil => exact Tight.refl 0
  | member x right rest ihr ihrest =>
      -- what the right-hand side leaks can only raise the numbers of the names that come later
      have kept := (right.rebinds_resolve c).tight_uids h rest.names
      have there := (kept.add (Tight.refl _)).trans (ihrest (sound_resolve h))
      have both := (Tight.refl (c.nameOf x).uid).add ((ihr h).add there)
      refine (both.imp fun all => ⟨all.2.1, all.2.2.1.1, all.2.2.2⟩).congr ?_ ?_
      · rw [taken_member, List.sum_append]
        simp only [names, Context.uids, List.map_cons, List.map_nil, List.sum_cons, List.sum_nil]
        omega
      · rw [uids_member, List.sum_cons, List.sum_append]

theorem nodup_uids_iff {a : Scoping Symbol .whole} (h : c.Sound) :
    (a.uids c).Nodup ↔ a.Settled := by
  constructor
  · intro nodup
    have among : a.uids c ⊆ a.taken c := by
      intro u hu
      obtain ⟨n, mem, rfl⟩ := List.mem_map.1 hu
      have newer := lt_uid_of_mem_binders h mem
      have older := uid_le_of_mem_binders h mem
      rw [last_resolve] at older
      rw [taken, List.mem_range'_1]
      omega
    have long : (a.taken c).length ≤ (a.uids c).length := by
      rw [length_uids, names_whole, taken, List.length_range']
      exact Nat.le_add_left _ _
    -- different numbers among as many that were taken are all of them, so the sums agree
    have perm := (List.subperm_of_subset nodup among).perm_of_length_le long
    have tight := tight_uids (s := a) h
    refine tight.of_le ?_
    rw [names_whole, perm.sum_nat]
    exact (Nat.zero_add _).ge
  · intro settled
    have perm := perm_of_settled settled c
    rw [names_whole] at perm
    exact perm.nodup_iff.2 List.nodup_range'

end Scoping

namespace Phrase

theorem last_resolve {s : Shape} (t : Phrase Symbol s) (c : Context) :
    (t.resolve c).2.last = c.last + t.scoping.count := by
  rw [(t.scoping_resolve c).2, Scoping.last_resolve]

end Phrase

namespace Module

theorem last_resolve (m : Module Symbol) (c : Context) :
    (m.resolve c).2.last = c.last + m.scoping.count + 1 := by
  simp only [resolve, Context.bind, Phrase.last_resolve, scoping, Scoping.count]
  omega

end Module

namespace Renaming

/-- The binders of a renamed tree have numbers from two on, and all have numbers of their own just
if the groups of the tree are settled. -/
theorem binders_distinct_iff_settled (t : Phrase Symbol (.one .expression)) :
    (t.datum.renamed .expression).1 = .ok (t.resolve .initial).1.datum ∧
      (∀ n ∈ (t.resolve .initial).1.binders, 2 ≤ n.uid) ∧
      (((t.resolve .initial).1.binders.map Name.uid).Nodup ↔ t.scoping.Settled) := by
  obtain ⟨r, renamed, _⟩ := t.renamed_resolve .expression
  rw [renamed, Phrase.binders, (t.scoping_resolve .initial).1]
  have sound := Context.sound_initial
  exact ⟨rfl, fun n mem => Scoping.lt_uid_of_mem_binders sound mem, Scoping.nodup_uids_iff sound⟩

def doubledGroup : Phrase Symbol (.one .expression) :=
  let number (n : Int) : Phrase Symbol (.one .expression) := .literal .number (.ofInt n)
  let x := Symbol.ofText "x"
  .letIn (.binding x (number 1) .null (.int 0) (.binding x (number 2) .null (.int 0) .noBinding))
    (.reference x)

theorem binders_share_number :
    (doubledGroup.datum.renamed .expression).1 = .ok (doubledGroup.resolve .initial).1.datum ∧
      (doubledGroup.resolve .initial).1.binders.map Name.uid = [3, 3] := by
  obtain ⟨r, renamed, _⟩ := doubledGroup.renamed_resolve .expression
  exact ⟨by rw [renamed], rfl⟩

end Renaming

end ScopeResolution
