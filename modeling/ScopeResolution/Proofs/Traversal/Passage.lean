import ScopeResolution.Proofs.Traversal.Effects
import ScopeResolution.Proofs.Traversal.Ending

namespace ScopeResolution.Traversal

variable {ι κ σ ε ο α β : Type}

def Effect.acts : List (Effect ι σ ε ο) → σ → List (σ × (σ → Outcome σ ε ο))
  | [], _ => []
  | .act f :: es, s => (s, f) :: acts es (f s).2
  | e :: es, s => acts es (e.change s)

namespace Routine

def onward (go : κ → σ → Outcome σ ε ο) (log : κ → σ → List (Effect ι σ ε ο))
    (k : α → Routine κ σ ε ο β) (pending : List (Cleanup σ ε)) (ending : Ending ε) :
    Outcome σ ε α → List (Effect ι σ ε ο)
  | (.ok a, s) => (k a).effects go log pending s
  | (.error _, s) => cleaning ending pending s

def Shows (go : κ → σ → Outcome σ ε ο) (log : κ → σ → List (Effect ι σ ε ο))
    (r : Routine κ σ ε ο α) (s : σ) (es : List (Effect ι σ ε ο)) (ending : Ending ε)
    (out : Except ε α) (s' : σ) : Prop :=
  ∀ {β : Type} (k : α → Routine κ σ ε ο β) (pending : List (Cleanup σ ε)),
    (r.bind k).effects go log pending s = es ++ onward go log k pending ending (out, s')

def Passes (go : κ → σ → Outcome σ ε ο) (log : κ → σ → List (Effect ι σ ε ο))
    (r : Routine κ σ ε ο α) (s : σ) (es : List (Effect ι σ ε ο)) (out : Except ε α) (s' : σ) :
    Prop :=
  ∃ ending, r.Leads go s ending out s' ∧ r.Shows go log s es ending out s'

section Passes

variable {go : κ → σ → Outcome σ ε ο} {log : κ → σ → List (Effect ι σ ε ο)} {s s₁ s₂ : σ}
  {es fs : List (Effect ι σ ε ο)}

theorem passes_pure (a : α) : Passes go log (pure a) s [] (.ok a) s :=
  ⟨.returned, fun _ _ => rfl, fun _ _ => rfl⟩

theorem passes_fail (e : ε) : Passes go log (fail e : Routine κ σ ε ο α) s [] (.error e) s :=
  ⟨.failed e, fun _ _ => rfl, fun _ _ => rfl⟩

theorem passes_ofExcept (x : Except ε α) : Passes go log (ofExcept x) s [] x s := by
  cases x with
  | ok a => exact passes_pure a
  | error e => exact passes_fail e

theorem passes_query (f : σ → Except ε α) : Passes go log (query f) s [] (f s) s := by
  have passed : Passes go log (ofExcept (f s)) s [] (f s) s := passes_ofExcept (f s)
  obtain ⟨ending, leads, shows⟩ := passed
  exact ⟨ending, leads, shows⟩

theorem passes_modify (f : σ → σ) :
    Passes go log (modify f : Routine κ σ ε ο Unit) s [.write (f s)] (.ok ()) (f s) :=
  ⟨.returned, fun _ _ => rfl, fun _ _ => rfl⟩

theorem passes_perform (f : σ → Outcome σ ε ο) :
    Passes go log (perform f : Routine κ σ ε ο ο) s [.act f] (f s).1 (f s).2 := by
  rcases acted : f s with ⟨out, s'⟩
  cases out with
  | ok o =>
      refine ⟨.returned, fun k pending => ?_, fun k pending => ?_⟩
      · simp only [perform, bind, runTelling, acted]
      · simp only [perform, bind, effectsTelling, onward, acted, List.singleton_append]
  | error e =>
      refine ⟨.failed e, fun k pending => ?_, fun k pending => ?_⟩
      · simp only [perform, bind, runTelling, acted]
      · simp only [perform, bind, effectsTelling, onward, acted, List.singleton_append]

theorem passes_call (c : κ) :
    Passes go log (call c : Routine κ σ ε ο ο) s (log c s) (go c s).1 (go c s).2 := by
  rcases visited : go c s with ⟨out, s'⟩
  refine ⟨.closed, fun k pending => ?_, fun k pending => ?_⟩
  · cases out <;> simp only [call, bind, runTelling, visited]
  · cases out <;> simp only [call, bind, effectsTelling, onward, visited]

theorem Passes.toEnds {r : Routine κ σ ε ο α} {out : Except ε α}
    (h : r.Passes go log s es out s₁) : r.Ends go s out s₁ := by
  obtain ⟨ending, leads, _⟩ := h
  exact ⟨ending, leads⟩

theorem Passes.run_eq {r : Routine κ σ ε ο α} {out : Except ε α}
    (h : r.Passes go log s es out s₁) : r.run go [] s = (out, s₁) :=
  h.toEnds.run_eq

theorem Passes.bind_ok {r : Routine κ σ ε ο α} {f : α → Routine κ σ ε ο β} {a : α}
    {out : Except ε β} (first : r.Passes go log s es (.ok a) s₁)
    (next : (f a).Passes go log s₁ fs out s₂) : Passes go log (r >>= f) s (es ++ fs) out s₂ := by
  obtain ⟨_, leads, shows⟩ := first
  obtain ⟨ending, leads', shows'⟩ := next
  refine ⟨ending, leads.bind_ok leads', fun k pending => ?_⟩
  have whole : (r >>= f).bind k = r.bind fun a => (f a).bind k := bind_assoc r f k
  rw [whole, shows, onward, shows', List.append_assoc]

theorem Passes.bind_error {r : Routine κ σ ε ο α} {f : α → Routine κ σ ε ο β} {e : ε}
    (first : r.Passes go log s es (.error e) s₁) :
    Passes go log (r >>= f) s es (.error e) s₁ := by
  obtain ⟨ending, leads, shows⟩ := first
  refine ⟨ending, leads.bind_error, fun k pending => ?_⟩
  have whole : (r >>= f).bind k = r.bind fun a => (f a).bind k := bind_assoc r f k
  rw [whole, shows]
  rfl

def exiting (ending : Ending ε) : Except ε α → Ending ε
  | .ok _ => .returned
  | .error _ => ending

theorem Passes.within_exit {enter : σ → σ} (exit : σ → Outcome σ ε Unit)
    {body : Routine κ σ ε ο α} {out : Except ε α}
    (passed : body.Passes go log (enter s) es out s₁) :
    ∃ ending, Passes go log (Routine.within enter exit body) s
      (.write (enter s) :: (es ++ [.clean (fun _ => exit) ending]))
      ((exit s₁).1.bind fun _ => out) (exit s₁).2 := by
  obtain ⟨ending, leads, shows⟩ := passed
  refine ⟨exiting ending out, left ending (exit s₁).1, leads.within_exit, fun k pending => ?_⟩
  have inner : (body.bind fun a => release (done a)).bind k =
      body.bind fun a => release (k a) := bind_assoc body (fun a => release (done a)) k
  have opened : ((Routine.within enter exit body).bind k).effects go log pending s =
      .write (enter s) :: ((body.bind fun a => release (done a)).bind k).effects go log
        ((fun _ => exit) :: pending) (enter s) := rfl
  rw [opened, inner, shows, List.cons_append, List.append_assoc]
  refine congrArg (fun rest => .write (enter s) :: (es ++ rest)) ?_
  rcases exited : exit s₁ with ⟨made, s'⟩
  cases made <;> cases out <;>
    simp [onward, effectsTelling, exited, Except.bind, cleaning, exiting, left]

theorem Passes.effects_eq {r : Routine κ σ ε ο α} {out : Except ε α}
    (h : r.Passes go log s es out s₁) : r.effects go log [] s = es := by
  obtain ⟨_, _, shows⟩ := h
  have alone := shows done []
  rw [bind_done] at alone
  rw [alone]
  cases out <;> exact List.append_nil es

end Passes

end Routine

end ScopeResolution.Traversal
