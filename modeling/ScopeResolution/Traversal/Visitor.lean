import ScopeResolution.Traversal.Routine

/-!
Visitors: a routine for every place, which may only visit places that come before it in a
well-founded order. `Visitor.drive` carries the visits out with a stack of suspended routines in
place of recursion, so that only memory bounds the depth of a tree; when a visit fails, the routines
that wait are closed, innermost first. Main statement: recursion that does so too agrees with it
(`drive_eq_recurse`).
-/

namespace ScopeResolution.Traversal

structure Visitor (ι σ ε ο : Type) where
  before : ι → ι → Prop
  wf : WellFounded before
  method : (i : ι) → Routine { c : ι // before c i } σ ε ο ο

namespace Visitor

variable {ι σ ε ο : Type} (v : Visitor ι σ ε ο)

abbrev Code (i : ι) := Routine { c : ι // v.before c i } σ ε ο ο

/-- Visits by recursion, a routine being closed where a visit that it waits for fails. -/
def recurse (i : ι) : σ → Outcome σ ε ο :=
  (v.method i).run (fun c => recurse c.1) []
termination_by v.wf.wrap i
decreasing_by exact c.2

/-- Visits by direct recursion: the failure of a visit is met by the routine that waits for it. -/
def direct (i : ι) : σ → Outcome σ ε ο :=
  (v.method i).runTelling .failed (fun c => direct c.1) []
termination_by v.wf.wrap i
decreasing_by exact c.2

structure Frame where
  place : ι
  pending : List (Cleanup σ ε)
  resume : ο → v.Code place

/-- Either a routine runs, or a result goes back to the routine on top of the stack. -/
inductive Machine where
  | running (i : ι) (code : v.Code i) (pending : List (Cleanup σ ε)) (stack : List v.Frame) (s : σ)
  | returning (r : Except ε ο) (stack : List v.Frame) (s : σ)

variable {v}

def Machine.settled (p : Outcome σ ε ο) (stack : List v.Frame) : Machine v :=
  .returning p.1 stack p.2

def Machine.next : Machine v → Machine v ⊕ Outcome σ ε ο
  | .running i code pending stack s =>
      match code with
      | .done o => .inl (.settled (settle .returned (.ok o) pending s) stack)
      | .fail e => .inl (.settled (settle (.failed e) (.error e) pending s) stack)
      | .read k => .inl (.running i (k s) pending stack s)
      | .write s k => .inl (.running i k pending stack s)
      | .act f k =>
          match f s with
          | (.ok o, s) => .inl (.running i (k o) pending stack s)
          | (.error e, s) => .inl (.settled (settle (.failed e) (.error e) pending s) stack)
      | .visit c k => .inl (.running c.1 (v.method c.1) [] (⟨i, pending, k⟩ :: stack) s)
      | .defer f k => .inl (.running i k (f :: pending) stack s)
      | .release k =>
          match pending with
          | [] => .inl (.running i k [] stack s)
          | f :: rest =>
              match f .returned s with
              | (.ok (), s) => .inl (.running i k rest stack s)
              | (.error e, s) => .inl (.settled (settle (.failed e) (.error e) rest s) stack)
  | .returning r stack s =>
      match stack with
      | [] => .inr (r, s)
      | top :: rest =>
          match r with
          | .ok o => .inl (.running top.place (top.resume o) top.pending rest s)
          | .error e => .inl (.settled (settle .closed (.error e) top.pending s) rest)

def Machine.Follows (m m' : Machine v) : Prop :=
  m'.next = .inl m

theorem Machine.acc_of_next {m : Machine v} (h : ∀ n, m.next = .inl n → Acc Machine.Follows n) :
    Acc Machine.Follows m :=
  ⟨m, h⟩

theorem Machine.acc_of_next_eq {m n : Machine v} (h : m.next = .inl n)
    (a : Acc Machine.Follows n) : Acc Machine.Follows m :=
  acc_of_next fun n' h' => by rw [h] at h'; cases h'; exact a

theorem Machine.acc_running (i : ι) (code : v.Code i) (pending : List (Cleanup σ ε))
    (stack : List v.Frame) (s : σ)
    (h : ∀ r s, Acc Machine.Follows (Machine.returning (v := v) r stack s)) :
    Acc Machine.Follows (.running i code pending stack s) := by
  induction i using v.wf.induction generalizing pending stack s with
  | _ i ihi =>
  induction code generalizing pending s with
  | done o => exact acc_of_next_eq rfl (h _ _)
  | fail e => exact acc_of_next_eq rfl (h _ _)
  | read k ih => exact acc_of_next_eq rfl (ih _ _ _)
  | write s k ih => exact acc_of_next_eq rfl (ih _ _)
  | act f k ih =>
      rcases hf : f s with ⟨r, s'⟩
      cases r with
      | ok o => exact acc_of_next_eq (by simp only [next, hf]) (ih o pending s')
      | error e =>
          exact acc_of_next_eq (n := .settled (settle (.failed e) (.error e) pending s') stack)
            (by simp only [next, hf]) (h _ _)
  | visit c k ih =>
      refine acc_of_next_eq rfl (ihi c.1 c.2 _ _ _ _ fun r s => ?_)
      cases r with
      | ok o => exact acc_of_next_eq rfl (ih _ _ _)
      | error e => exact acc_of_next_eq rfl (h _ _)
  | defer f k ih => exact acc_of_next_eq rfl (ih _ _)
  | release k ih =>
      cases pending with
      | nil => exact acc_of_next_eq rfl (ih _ _)
      | cons f rest =>
          rcases hf : f .returned s with ⟨r, s'⟩
          cases r with
          | ok u => exact acc_of_next_eq (by simp only [next, hf]) (ih rest s')
          | error e =>
              exact acc_of_next_eq (n := .settled (settle (.failed e) (.error e) rest s') stack)
                (by simp only [next, hf]) (h _ _)

theorem Machine.acc_returning (r : Except ε ο) (stack : List v.Frame) (s : σ) :
    Acc Machine.Follows (Machine.returning r stack s) := by
  induction stack generalizing r s with
  | nil => exact acc_of_next fun n h => by simp [next] at h
  | cons top rest ih =>
      cases r with
      | ok o => exact acc_of_next_eq rfl (acc_running _ _ _ _ _ ih)
      | error e => exact acc_of_next_eq rfl (ih _ _)

theorem Machine.acc (m : Machine v) : Acc Machine.Follows m := by
  cases m with
  | running i code pending stack s =>
      exact acc_running _ _ _ _ _ fun r s => acc_returning r stack s
  | returning r stack s => exact acc_returning r stack s

theorem Machine.follows_wf : WellFounded (Machine.Follows (v := v)) :=
  ⟨Machine.acc⟩

def Machine.finish (m : Machine v) : Outcome σ ε ο :=
  match _h : m.next with
  | .inl n => finish n
  | .inr p => p
termination_by Machine.follows_wf.wrap m
decreasing_by exact _h

theorem Machine.finish_eq {m n : Machine v} (h : m.next = .inl n) : m.finish = n.finish := by
  rw [finish]
  split <;> simp_all

theorem Machine.finish_returning_nil (r : Except ε ο) (s : σ) :
    (Machine.returning (v := v) r [] s).finish = (r, s) := by
  rw [finish]
  rfl

theorem recurse_eq (i : ι) (s : σ) :
    v.recurse i s = (v.method i).run (fun c => v.recurse c.1) [] s := by
  rw [recurse]

theorem Machine.finish_running (i : ι) (code : v.Code i) (pending : List (Cleanup σ ε))
    (stack : List v.Frame) (s : σ) :
    (Machine.running i code pending stack s).finish =
      (Machine.settled (code.run (fun c => v.recurse c.1) pending s) stack).finish := by
  induction i using v.wf.induction generalizing pending stack s with
  | _ i ihi =>
  induction code generalizing pending s with
  | done o => exact finish_eq rfl
  | fail e => exact finish_eq rfl
  | read k ih => exact (finish_eq rfl).trans (ih _ _ _)
  | write s k ih => exact (finish_eq rfl).trans (ih _ _)
  | act f k ih =>
      rcases hf : f s with ⟨r, s'⟩
      cases r with
      | ok o =>
          rw [finish_eq (n := .running i (k o) pending stack s') (by simp only [next, hf]), ih]
          simp only [Routine.runTelling, hf]
      | error e =>
          rw [finish_eq (n := .settled (settle (.failed e) (.error e) pending s') stack)
            (by simp only [next, hf])]
          simp only [Routine.runTelling, hf]
  | visit c k ih =>
      refine (finish_eq rfl).trans ((ihi c.1 c.2 _ _ _ _).trans ?_)
      rw [← recurse_eq]
      simp only [Routine.runTelling]
      rcases v.recurse c.1 s with ⟨r, s'⟩
      cases r with
      | ok o => exact (finish_eq rfl).trans (ih _ _ _)
      | error e => exact finish_eq rfl
  | defer f k ih => exact (finish_eq rfl).trans (ih _ _)
  | release k ih =>
      cases pending with
      | nil => exact (finish_eq rfl).trans (ih _ _)
      | cons f rest =>
          rcases hf : f .returned s with ⟨r, s'⟩
          cases r with
          | ok u =>
              rw [finish_eq (n := .running i k rest stack s') (by simp only [next, hf]), ih]
              simp only [Routine.runTelling, hf]
          | error e =>
              rw [finish_eq (n := .settled (settle (.failed e) (.error e) rest s') stack)
                (by simp only [next, hf])]
              simp only [Routine.runTelling, hf]

variable (v)

def drive (i : ι) (s : σ) : Outcome σ ε ο :=
  Machine.finish (.running i (v.method i) [] [] s)

theorem drive_eq_recurse (i : ι) (s : σ) : v.drive i s = v.recurse i s := by
  rw [drive, Machine.finish_running, Machine.settled, Machine.finish_returning_nil, ← recurse_eq]

end Visitor

end ScopeResolution.Traversal
