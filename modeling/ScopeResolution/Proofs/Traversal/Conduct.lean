import ScopeResolution.Proofs.Traversal.Ending

namespace ScopeResolution.Traversal

/-- The states that may be reached from a state, and the faults that may be met on the way. -/
structure Conduct (σ ε : Type) where
  moves : σ → σ → Prop
  fails : σ → ε → Prop
  refl : ∀ s, moves s s
  trans : ∀ {s t u}, moves s t → moves t u → moves s u
  fails_of_moves : ∀ {s t e}, moves s t → fails t e → fails s e

namespace Conduct

variable {κ σ ε ο α : Type}

def free : Conduct σ ε where
  moves _ _ := True
  fails _ _ := True
  refl _ := trivial
  trans _ _ := trivial
  fails_of_moves _ _ := trivial

structure Admits (C : Conduct σ ε) (s : σ) (p : Outcome σ ε α) (Q : α → σ → Prop) : Prop where
  moves : C.moves s p.2
  fails : ∀ e, p.1 = .error e → C.fails s e
  returns : ∀ a, p.1 = .ok a → Q a p.2

def Allows (C : Conduct σ ε) (go : κ → σ → Outcome σ ε ο) : Prop :=
  ∀ c s, C.Admits s (go c s) fun _ _ => True

theorem admits_free {s : σ} {p : Outcome σ ε α} {Q : α → σ → Prop}
    (h : ∀ a, p.1 = .ok a → Q a p.2) : free.Admits s p Q :=
  ⟨trivial, fun _ _ => trivial, h⟩

end Conduct

namespace Routine

variable {κ σ ε ο α β : Type}

def Obeys (C : Conduct σ ε) (go : κ → σ → Outcome σ ε ο) (r : Routine κ σ ε ο α) (s : σ)
    (Q : α → σ → Prop) : Prop :=
  ∃ p : Outcome σ ε α, r.Ends go s p.1 p.2 ∧ C.Admits s p Q

section Obeys

variable {C : Conduct σ ε} {go : κ → σ → Outcome σ ε ο} {s : σ}

theorem obeys_pure {Q : α → σ → Prop} {a : α} (h : Q a s) : Obeys C go (pure a) s Q := by
  refine ⟨(.ok a, s), ends_pure a, C.refl s, (fun _ failed => nomatch failed), ?_⟩
  intro b same
  cases same
  exact h

theorem obeys_fail {Q : α → σ → Prop} {e : ε} (h : C.fails s e) : Obeys C go (fail e) s Q := by
  refine ⟨(.error e, s), ends_fail e, C.refl s, ?_, (fun _ ended => nomatch ended)⟩
  intro f same
  cases same
  exact h

theorem obeys_ofExcept {x : Except ε α} (h : ∀ e, x = .error e → C.fails s e) :
    Obeys C go (ofExcept x) s fun a t => x = .ok a ∧ t = s :=
  ⟨(x, s), ends_ofExcept x, C.refl s, h, fun _ same => ⟨same, rfl⟩⟩

theorem obeys_query {f : σ → Except ε α} (h : ∀ e, f s = .error e → C.fails s e) :
    Obeys C go (query f) s fun a t => f s = .ok a ∧ t = s :=
  ⟨(f s, s), ends_query f, C.refl s, h, fun _ same => ⟨same, rfl⟩⟩

theorem obeys_modify {f : σ → σ} (h : C.moves s (f s)) :
    Obeys C go (modify f) s fun _ t => t = f s :=
  ⟨(.ok (), f s), ends_modify f, h, (fun _ failed => nomatch failed), fun _ _ => rfl⟩

theorem obeys_perform {f : σ → Outcome σ ε ο} {Q : ο → σ → Prop} (h : C.Admits s (f s) Q) :
    Obeys C go (perform f) s Q :=
  ⟨f s, ends_perform f, h⟩

theorem obeys_call {c : κ} {Q : ο → σ → Prop} (h : C.Admits s (go c s) Q) :
    Obeys C go (call c) s Q :=
  ⟨go c s, ends_call c, h⟩

theorem Obeys.bind {r : Routine κ σ ε ο α} {f : α → Routine κ σ ε ο β} {P : α → σ → Prop}
    {Q : β → σ → Prop} (first : r.Obeys C go s P)
    (next : ∀ a t, C.moves s t → P a t → (f a).Obeys C go t Q) : (r >>= f).Obeys C go s Q := by
  obtain ⟨⟨out, t⟩, ended, admitted⟩ := first
  cases out with
  | error e =>
      have failed := admitted.fails e rfl
      refine ⟨(.error e, t), ended.bind_error, admitted.moves, ?_, (fun _ ok => nomatch ok)⟩
      intro f same
      cases same
      exact failed
  | ok a =>
      obtain ⟨p, ended', admitted'⟩ := next a t admitted.moves (admitted.returns a rfl)
      refine ⟨p, ended.bind_ok ended', C.trans admitted.moves admitted'.moves, ?_,
        admitted'.returns⟩
      exact fun e failed => C.fails_of_moves admitted.moves (admitted'.fails e failed)

theorem Obeys.imp {r : Routine κ σ ε ο α} {P Q : α → σ → Prop} (h : r.Obeys C go s P)
    (imp : ∀ a t, C.moves s t → P a t → Q a t) : r.Obeys C go s Q := by
  obtain ⟨p, ended, admitted⟩ := h
  refine ⟨p, ended, admitted.moves, admitted.fails, fun a same => ?_⟩
  exact imp a p.2 admitted.moves (admitted.returns a same)

theorem Obeys.forget {r : Routine κ σ ε ο α} {Q : α → σ → Prop} (h : r.Obeys C go s Q) :
    r.Obeys C go s fun _ _ => True :=
  h.imp fun _ _ _ _ => trivial

theorem Obeys.mapM_cons {f : α → Routine κ σ ε ο β} {x : α} {xs : List α} {P Q : σ → Prop}
    (head : (f x).Obeys C go s fun _ => P)
    (tail : ∀ t, C.moves s t → P t → Obeys C go (xs.mapM f) t fun _ => Q) :
    Obeys C go ((x :: xs).mapM f) s fun _ => Q := by
  rw [List.mapM_cons]
  refine head.bind fun y t moved reached => ?_
  exact (tail t moved reached).bind fun ys u _ ended => obeys_pure ended

theorem obeys_mapM {f : α → Routine κ σ ε ο β} {Q : α → σ → Prop} {xs : List α}
    (kept : ∀ x t u, C.moves t u → Q x t → Q x u)
    (h : ∀ x ∈ xs, ∀ t, C.moves s t → (f x).Obeys C go t fun _ => Q x) :
    Obeys C go (xs.mapM f) s fun _ t => ∀ x ∈ xs, Q x t := by
  induction xs generalizing s with
  | nil =>
      rw [List.mapM_nil]
      exact obeys_pure (List.forall_mem_nil _)
  | cons x xs ih =>
      rw [List.mapM_cons]
      refine (h x List.mem_cons_self s (C.refl s)).bind fun y t moved first => ?_
      have rest := ih fun z hz u later => h z (List.mem_cons_of_mem x hz) u (C.trans moved later)
      refine rest.bind fun ys u later others => obeys_pure ?_
      exact List.forall_mem_cons.2 ⟨kept x t u later first, others⟩

end Obeys

def Keeps (C : Conduct σ ε) (r : Routine κ σ ε ο α) : Prop :=
  ∀ go, C.Allows go → ∀ s, r.Obeys C go s fun _ _ => True

section Keeps

variable {C : Conduct σ ε}

theorem keeps_pure (a : α) : Keeps C (pure a : Routine κ σ ε ο α) :=
  fun _ _ _ => obeys_pure trivial

theorem keeps_ofExcept {x : Except ε α} (h : ∀ s e, x = .error e → C.fails s e) :
    Keeps C (ofExcept x : Routine κ σ ε ο α) :=
  fun _ _ s => (obeys_ofExcept (h s)).forget

theorem keeps_query {f : σ → Except ε α} (h : ∀ s e, f s = .error e → C.fails s e) :
    Keeps C (query f : Routine κ σ ε ο α) :=
  fun _ _ s => (obeys_query (h s)).forget

theorem keeps_modify {f : σ → σ} (h : ∀ s, C.moves s (f s)) :
    Keeps C (modify f : Routine κ σ ε ο Unit) :=
  fun _ _ s => (obeys_modify (h s)).forget

theorem keeps_call (c : κ) : Keeps C (call c : Routine κ σ ε ο ο) :=
  fun _ allowed s => obeys_call (allowed c s)

theorem Keeps.bind {r : Routine κ σ ε ο α} {f : α → Routine κ σ ε ο β} (first : r.Keeps C)
    (next : ∀ a, (f a).Keeps C) : Keeps C (r >>= f) :=
  fun go allowed s => (first go allowed s).bind fun a t _ _ => next a go allowed t

end Keeps

end Routine

namespace Visitor

variable {ι σ ε ο : Type} {v : Visitor ι σ ε ο} {C : Conduct σ ε}

theorem recurse_keeps (h : ∀ i, (v.method i).Keeps C) (i : ι) (s : σ) :
    C.Admits s (v.recurse i s) fun _ _ => True := by
  induction i using v.wf.induction generalizing s with
  | _ i ih =>
      obtain ⟨p, ended, admitted⟩ := h i _ (fun c t => ih c.1 c.2 t) s
      rw [recurse_eq, ended.run_eq]
      exact admitted

end Visitor

end ScopeResolution.Traversal
