import ScopeResolution.Traversal.Visitor

namespace ScopeResolution.Traversal

namespace Routine

variable {κ σ ε ο α β : Type}

def Leads (go : κ → σ → Outcome σ ε ο) (r : Routine κ σ ε ο α) (s : σ) (ending : Ending ε)
    (out : Except ε α) (s' : σ) : Prop :=
  ∀ {β : Type} (k : α → Routine κ σ ε ο β) (pending : List (Cleanup σ ε)),
    (r.bind k).run go pending s = match out with
      | .ok a => (k a).run go pending s'
      | .error e => settle ending (.error e) pending s'

def Ends (go : κ → σ → Outcome σ ε ο) (r : Routine κ σ ε ο α) (s : σ) (out : Except ε α)
    (s' : σ) : Prop :=
  ∃ ending, r.Leads go s ending out s'

section Ends

variable {go : κ → σ → Outcome σ ε ο} {s s₁ s₂ : σ}

theorem ends_done (a : α) : Ends go (done a) s (.ok a) s :=
  ⟨.returned, fun _ _ => rfl⟩

theorem ends_pure (a : α) : Ends go (pure a) s (.ok a) s :=
  ends_done a

theorem ends_fail (e : ε) : Ends go (fail e : Routine κ σ ε ο α) s (.error e) s :=
  ⟨.failed e, fun _ _ => rfl⟩

theorem ends_ofExcept (x : Except ε α) : Ends go (ofExcept x) s x s := by
  cases x with
  | ok a => exact ends_done a
  | error e => exact ends_fail e

theorem ends_query (f : σ → Except ε α) : Ends go (query f) s (f s) s := by
  have ended : Ends go (ofExcept (f s)) s (f s) s := ends_ofExcept (f s)
  obtain ⟨ending, leads⟩ := ended
  exact ⟨ending, leads⟩

theorem ends_modify (f : σ → σ) :
    Ends go (modify f : Routine κ σ ε ο Unit) s (.ok ()) (f s) :=
  ⟨.returned, fun _ _ => rfl⟩

theorem ends_perform (f : σ → Outcome σ ε ο) :
    Ends go (perform f : Routine κ σ ε ο ο) s (f s).1 (f s).2 := by
  rcases acted : f s with ⟨out, s'⟩
  cases out with
  | ok o => exact ⟨.returned, fun k pending => by simp only [perform, bind, runTelling, acted]⟩
  | error e => exact ⟨.failed e, fun k pending => by simp only [perform, bind, runTelling, acted]⟩

theorem ends_call (c : κ) : Ends go (call c : Routine κ σ ε ο ο) s (go c s).1 (go c s).2 := by
  refine ⟨.closed, fun k pending => ?_⟩
  simp only [call, bind, runTelling]
  rcases go c s with ⟨out, s'⟩
  cases out <;> rfl

theorem Leads.bind_ok {r : Routine κ σ ε ο α} {f : α → Routine κ σ ε ο β} {a : α}
    {out : Except ε β} {ending ending' : Ending ε} (first : r.Leads go s ending (.ok a) s₁)
    (next : (f a).Leads go s₁ ending' out s₂) : Leads go (r >>= f) s ending' out s₂ := by
  intro γ k pending
  have whole : (r >>= f).bind k = r.bind fun a => (f a).bind k := bind_assoc r f k
  rw [whole, first]
  exact next k pending

theorem Leads.bind_error {r : Routine κ σ ε ο α} {f : α → Routine κ σ ε ο β} {e : ε}
    {ending : Ending ε} (first : r.Leads go s ending (.error e) s₁) :
    Leads go (r >>= f) s ending (.error e) s₁ := by
  intro γ k pending
  have whole : (r >>= f).bind k = r.bind fun a => (f a).bind k := bind_assoc r f k
  rw [whole, first]

theorem Ends.bind_ok {r : Routine κ σ ε ο α} {f : α → Routine κ σ ε ο β} {a : α}
    {out : Except ε β} (first : r.Ends go s (.ok a) s₁) (next : (f a).Ends go s₁ out s₂) :
    Ends go (r >>= f) s out s₂ := by
  obtain ⟨_, leads⟩ := first
  obtain ⟨ending, leads'⟩ := next
  exact ⟨ending, leads.bind_ok leads'⟩

theorem Ends.bind_error {r : Routine κ σ ε ο α} {f : α → Routine κ σ ε ο β} {e : ε}
    (first : r.Ends go s (.error e) s₁) : Ends go (r >>= f) s (.error e) s₁ := by
  obtain ⟨ending, leads⟩ := first
  exact ⟨ending, leads.bind_error⟩

theorem ends_mapM_nil (f : α → Routine κ σ ε ο β) : Ends go ([].mapM f) s (.ok []) s := by
  rw [List.mapM_nil]
  exact ends_pure []

theorem Ends.mapM_cons {f : α → Routine κ σ ε ο β} {x : α} {xs : List α} {y : β} {ys : List β}
    (head : (f x).Ends go s (.ok y) s₁) (tail : Ends go (xs.mapM f) s₁ (.ok ys) s₂) :
    Ends go ((x :: xs).mapM f) s (.ok (y :: ys)) s₂ := by
  rw [List.mapM_cons]
  exact head.bind_ok (tail.bind_ok (ends_pure _))

def left (ending : Ending ε) : Except ε Unit → Ending ε
  | .ok () => ending
  | .error e => .failed e

theorem Leads.within_exit {enter : σ → σ} {exit : σ → Outcome σ ε Unit}
    {body : Routine κ σ ε ο α} {out : Except ε α} {ending : Ending ε}
    (leads : body.Leads go (enter s) ending out s₁) :
    Leads go (Routine.within enter exit body) s (left ending (exit s₁).1)
      ((exit s₁).1.bind fun _ => out) (exit s₁).2 := by
  intro γ k pending
  -- the continuation runs after the release, with the cleanups that were pending before
  have opened : ((Routine.within enter exit body).bind k).run go pending s =
      (body.bind fun a => (release (done a)).bind k).run go ((fun _ => exit) :: pending)
        (enter s) :=
    congrArg (fun r => run go r ((fun _ => exit) :: pending) (enter s))
      (bind_assoc body (fun a => release (done a)) k)
  rw [opened, leads]
  rcases exited : exit s₁ with ⟨made, s₂⟩
  cases made <;> cases out <;> simp only [bind, runTelling, settle, exited, left, Except.bind]

theorem Ends.within_exit {enter : σ → σ} {exit : σ → Outcome σ ε Unit} {body : Routine κ σ ε ο α}
    {out : Except ε α} (ended : body.Ends go (enter s) out s₁) :
    Ends go (Routine.within enter exit body) s ((exit s₁).1.bind fun _ => out) (exit s₁).2 := by
  obtain ⟨_, leads⟩ := ended
  exact ⟨_, leads.within_exit⟩

theorem Ends.within {enter : σ → σ} {exit : σ → Outcome σ ε Unit} {body : Routine κ σ ε ο α}
    {out : Except ε α} (ended : body.Ends go (enter s) out s₁) (left : exit s₁ = (.ok (), s₂)) :
    Ends go (Routine.within enter exit body) s out s₂ := by
  have whole : Ends go (Routine.within enter exit body) s _ _ := ended.within_exit
  rwa [left] at whole

theorem Ends.run_eq {r : Routine κ σ ε ο α} {out : Except ε α} (h : r.Ends go s out s₁) :
    r.run go [] s = (out, s₁) := by
  obtain ⟨_, leads⟩ := h
  have alone := leads done []
  rw [bind_done] at alone
  rw [alone]
  cases out <;> rfl

end Ends

end Routine

end ScopeResolution.Traversal
