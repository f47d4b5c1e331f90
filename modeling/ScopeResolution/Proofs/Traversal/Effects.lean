import ScopeResolution.Observation

/-!
What a traversal does, as a sequence of effects: the visits in the order in which they begin, the
writes, the actions and the cleanups, these with what they are told. The stack of suspended routines
comes to an end by a sequence of effects (`Machine.runs_running`), and it is the one of direct
recursion but for what the routines are told that wait for a visit that fails
(`Machine.accords_direct`).
-/

namespace ScopeResolution.Traversal

inductive Effect (ι σ ε ο : Type) where
  | visit (i : ι)
  | write (s : σ)
  | act (f : σ → Outcome σ ε ο)
  | clean (f : Cleanup σ ε) (ending : Ending ε)

variable {ι κ σ ε ο α β : Type}

namespace Effect

def change : Effect ι σ ε ο → σ → σ
  | visit _, s => s
  | write s, _ => s
  | act f, s => (f s).2
  | clean f ending, s => (f ending s).2

def replay (es : List (Effect ι σ ε ο)) (s : σ) : σ :=
  es.foldl (fun s e => e.change s) s

theorem replay_append (es fs : List (Effect ι σ ε ο)) (s : σ) :
    replay (es ++ fs) s = replay fs (replay es s) :=
  List.foldl_append

end Effect

open Effect (replay)

def cleaning (ending : Ending ε) : List (Cleanup σ ε) → σ → List (Effect ι σ ε ο)
  | [], _ => []
  | f :: rest, s => .clean f ending :: match f ending s with
      | (.ok (), s) => cleaning ending rest s
      | (.error e, s) => cleaning (.failed e) rest s

theorem settle_snd (ending : Ending ε) (r : Except ε α) (fs : List (Cleanup σ ε)) (s : σ) :
    (settle ending r fs s).2 = replay (cleaning ending fs s : List (Effect ι σ ε ο)) s := by
  induction fs generalizing ending r s with
  | nil => rfl
  | cons f fs ih =>
      rcases hf : f ending s with ⟨out, s'⟩
      have left : Effect.change (.clean f ending : Effect ι σ ε ο) s = s' := congrArg Prod.snd hf
      cases out <;> simp only [settle, cleaning, hf, ih, replay, List.foldl_cons, left]

def Cleanup.Quiet (f : Cleanup σ ε) : Prop :=
  ∀ ending s, (f ending s).1 = .ok ()

/-- A cleanup that does the same whether the routine is closed or fails. -/
def Cleanup.Unprying (f : Cleanup σ ε) : Prop :=
  ∀ e s, f .closed s = f (.failed e) s

section Quiet

variable {fs : List (Cleanup σ ε)} (quiet : ∀ f ∈ fs, Cleanup.Quiet f)
include quiet

theorem settle_fst_of_quiet (ending : Ending ε) (r : Except ε α) (s : σ) :
    (settle ending r fs s).1 = r := by
  induction fs generalizing s with
  | nil => rfl
  | cons f fs ih =>
      obtain ⟨first, rest⟩ := List.forall_mem_cons.1 quiet
      have passes := first ending s
      rcases hf : f ending s with ⟨out, s'⟩
      obtain rfl : out = .ok () := (congrArg Prod.fst hf).symm.trans passes
      simp only [settle, hf, ih rest]

theorem cleaning_of_quiet (ending : Ending ε) (s : σ) :
    (cleaning ending fs s : List (Effect ι σ ε ο)) = fs.map (.clean · ending) := by
  induction fs generalizing s with
  | nil => rfl
  | cons f fs ih =>
      obtain ⟨first, rest⟩ := List.forall_mem_cons.1 quiet
      have passes := first ending s
      rcases hf : f ending s with ⟨out, s'⟩
      obtain rfl : out = .ok () := (congrArg Prod.fst hf).symm.trans passes
      simp only [cleaning, hf, ih rest, List.map_cons]

end Quiet

namespace Routine

def Defers (P : Cleanup σ ε → Prop) : Routine κ σ ε ο α → Prop
  | done _ => True
  | fail _ => True
  | read k => ∀ s, (k s).Defers P
  | write _ k => k.Defers P
  | act _ k => ∀ o, (k o).Defers P
  | visit _ k => ∀ o, (k o).Defers P
  | defer f k => P f ∧ k.Defers P
  | release k => k.Defers P

section Defers

variable {P : Cleanup σ ε → Prop}

theorem Defers.bind {r : Routine κ σ ε ο α} {f : α → Routine κ σ ε ο β} (first : r.Defers P)
    (next : ∀ a, (f a).Defers P) : (r >>= f).Defers P := by
  induction r with
  | done a => exact next a
  | fail e => trivial
  | read k ih => exact fun s => ih s (first s)
  | write s k ih => exact ih first
  | act g k ih => exact fun o => ih o (first o)
  | visit c k ih => exact fun o => ih o (first o)
  | defer g k ih => exact ⟨first.1, ih first.2⟩
  | release k ih => exact ih first

theorem defers_ofExcept (x : Except ε α) : (ofExcept x : Routine κ σ ε ο α).Defers P := by
  cases x <;> trivial

theorem defers_mapM {f : α → Routine κ σ ε ο β} (h : ∀ x, (f x).Defers P) (xs : List α) :
    (xs.mapM f).Defers P := by
  induction xs with
  | nil =>
      rw [List.mapM_nil]
      trivial
  | cons x xs ih =>
      rw [List.mapM_cons]
      exact (h x).bind fun y => ih.bind fun ys => trivial

theorem Defers.within {enter : σ → σ} {exit : σ → Outcome σ ε Unit} {body : Routine κ σ ε ο α}
    (h : body.Defers P) (out : P fun _ => exit) : (Routine.within enter exit body).Defers P :=
  fun _ => ⟨out, h.bind fun _ => trivial⟩

end Defers

def effectsTelling (told : ε → Ending ε) (go : κ → σ → Outcome σ ε ο)
    (log : κ → σ → List (Effect ι σ ε ο)) :
    Routine κ σ ε ο α → List (Cleanup σ ε) → σ → List (Effect ι σ ε ο)
  | .done _, pending, s => cleaning .returned pending s
  | .fail e, pending, s => cleaning (.failed e) pending s
  | .read k, pending, s => (k s).effectsTelling told go log pending s
  | .write s k, pending, _ => .write s :: k.effectsTelling told go log pending s
  | .act f k, pending, s =>
      .act f :: match f s with
        | (.ok o, s) => (k o).effectsTelling told go log pending s
        | (.error e, s) => cleaning (.failed e) pending s
  | .visit c k, pending, s =>
      log c s ++ match go c s with
        | (.ok o, s) => (k o).effectsTelling told go log pending s
        | (.error e, s) => cleaning (told e) pending s
  | .defer f k, pending, s => k.effectsTelling told go log (f :: pending) s
  | .release k, [], s => k.effectsTelling told go log [] s
  | .release k, f :: rest, s =>
      .clean f .returned :: match f .returned s with
        | (.ok (), s) => k.effectsTelling told go log rest s
        | (.error e, s) => cleaning (.failed e) rest s

abbrev effects (go : κ → σ → Outcome σ ε ο) (log : κ → σ → List (Effect ι σ ε ο))
    (r : Routine κ σ ε ο α) : List (Cleanup σ ε) → σ → List (Effect ι σ ε ο) :=
  r.effectsTelling (fun _ => .closed) go log

theorem replay_effectsTelling {told : ε → Ending ε} {go : κ → σ → Outcome σ ε ο}
    {log : κ → σ → List (Effect ι σ ε ο)} (h : ∀ c s, replay (log c s) s = (go c s).2)
    (r : Routine κ σ ε ο α) (pending : List (Cleanup σ ε)) (s : σ) :
    replay (r.effectsTelling told go log pending s) s = (r.runTelling told go pending s).2 := by
  induction r generalizing pending s with
  | done a => exact (settle_snd _ _ _ _).symm
  | fail e => exact (settle_snd _ _ _ _).symm
  | read k ih => exact ih _ _ _
  | write s k ih => exact ih _ _
  | act f k ih =>
      rcases hf : f s with ⟨out, s'⟩
      have left : Effect.change (.act f : Effect ι σ ε ο) s = s' := congrArg Prod.snd hf
      simp only [effectsTelling, runTelling, hf, replay, List.foldl_cons, left]
      cases out with
      | ok o => exact ih _ _ _
      | error e => exact (settle_snd _ _ _ _).symm
  | visit c k ih =>
      have inner := h c s
      rw [effectsTelling, runTelling, Effect.replay_append, inner]
      rcases go c s with ⟨out, s'⟩
      cases out with
      | ok o => exact ih _ _ _
      | error e => exact (settle_snd _ _ _ _).symm
  | defer f k ih => exact ih _ _
  | release k ih =>
      cases pending with
      | nil => exact ih _ _
      | cons f rest =>
          rcases hf : f .returned s with ⟨out, s'⟩
          have left : Effect.change (.clean f .returned : Effect ι σ ε ο) s = s' :=
            congrArg Prod.snd hf
          simp only [effectsTelling, runTelling, hf, replay, List.foldl_cons, left]
          cases out with
          | ok u => exact ih _ _
          | error e => exact (settle_snd _ _ _ _).symm

end Routine

namespace Visitor

variable (v : Visitor ι σ ε ο)

def effects (i : ι) : σ → List (Effect ι σ ε ο) :=
  (v.method i).effects (fun c => v.recurse c.1)
    (fun (c : { c : ι // v.before c i }) s => .visit c.1 :: effects c.1 s) []
termination_by v.wf.wrap i
decreasing_by exact c.2

def directEffects (i : ι) : σ → List (Effect ι σ ε ο) :=
  (v.method i).effectsTelling .failed (fun c => v.direct c.1)
    (fun (c : { c : ι // v.before c i }) s => .visit c.1 :: directEffects c.1 s) []
termination_by v.wf.wrap i
decreasing_by exact c.2

variable {v}

abbrev visitEffects (i : ι) (c : { c : ι // v.before c i }) (s : σ) : List (Effect ι σ ε ο) :=
  .visit c.1 :: v.effects c.1 s

abbrev directVisitEffects (i : ι) (c : { c : ι // v.before c i }) (s : σ) :
    List (Effect ι σ ε ο) :=
  .visit c.1 :: v.directEffects c.1 s

theorem effects_eq (i : ι) (s : σ) :
    v.effects i s = (v.method i).effects (fun c => v.recurse c.1) (visitEffects i) [] s := by
  rw [effects]

theorem directEffects_eq (i : ι) (s : σ) : v.directEffects i s =
    (v.method i).effectsTelling .failed (fun c => v.direct c.1) (directVisitEffects i) [] s := by
  rw [directEffects]

theorem direct_eq (i : ι) (s : σ) :
    v.direct i s = (v.method i).runTelling .failed (fun c => v.direct c.1) [] s := by
  rw [direct]

theorem replay_effects (i : ι) (s : σ) : replay (v.effects i s) s = (v.recurse i s).2 := by
  induction i using v.wf.induction generalizing s with
  | _ i ih =>
      rw [effects_eq, recurse_eq]
      refine Routine.replay_effectsTelling ?_ _ _ _
      intro c s
      exact ih c.1 c.2 s

theorem replay_directEffects (i : ι) (s : σ) :
    replay (v.directEffects i s) s = (v.direct i s).2 := by
  induction i using v.wf.induction generalizing s with
  | _ i ih =>
      rw [directEffects_eq, direct_eq]
      refine Routine.replay_effectsTelling ?_ _ _ _
      intro c s
      exact ih c.1 c.2 s

namespace Machine

def effects : Machine v → List (Effect ι σ ε ο)
  | .running _ code pending _ s =>
      match code with
      | .done _ => cleaning .returned pending s
      | .fail e => cleaning (.failed e) pending s
      | .read _ => []
      | .write s _ => [.write s]
      | .act f _ =>
          match f s with
          | (.ok _, _) => [.act f]
          | (.error e, s) => .act f :: cleaning (.failed e) pending s
      | .visit c _ => [.visit c.1]
      | .defer _ _ => []
      | .release _ =>
          match pending with
          | [] => []
          | f :: rest =>
              match f .returned s with
              | (.ok (), _) => [.clean f .returned]
              | (.error e, s) => .clean f .returned :: cleaning (.failed e) rest s
  | .returning r stack s =>
      match r, stack with
      | .error _, top :: _ => cleaning .closed top.pending s
      | _, _ => []

inductive Runs : Machine v → List (Effect ι σ ε ο) → Machine v → Prop where
  | refl (m : Machine v) : Runs m [] m
  | step {m n m' : Machine v} {es : List (Effect ι σ ε ο)} (h : m.next = .inl n)
      (rest : Runs n es m') : Runs m (m.effects ++ es) m'

theorem Runs.trans {m n m' : Machine v} {es fs : List (Effect ι σ ε ο)} (h : Runs m es n)
    (k : Runs n fs m') : Runs m (es ++ fs) m' := by
  induction h with
  | refl => exact k
  | step next _ ih =>
      rw [List.append_assoc]
      exact .step next (ih k)

theorem runs_of_next {m n : Machine v} {es : List (Effect ι σ ε ο)} (next : m.next = .inl n)
    (here : m.effects = es) : Runs m es n := by
  subst here
  have one := Runs.step next (.refl n)
  rwa [List.append_nil] at one

theorem runs_act_ok {i : ι} {f : σ → Outcome σ ε ο} {k : ο → v.Code i}
    {pending : List (Cleanup σ ε)} {stack : List v.Frame} {s s' : σ} {o : ο}
    (h : f s = (.ok o, s')) :
    Runs (.running i (.act f k) pending stack s) [.act f] (.running i (k o) pending stack s') :=
  runs_of_next (by simp only [next, h]) (by simp only [effects, h])

theorem runs_release_ok {i : ι} {k : v.Code i} {f : Cleanup σ ε} {pending : List (Cleanup σ ε)}
    {stack : List v.Frame} {s s' : σ} (h : f .returned s = (.ok (), s')) :
    Runs (.running i (.release k) (f :: pending) stack s) [.clean f .returned]
      (.running i k pending stack s') :=
  runs_of_next (by simp only [next, h]) (by simp only [effects, h])

theorem runs_running (i : ι) (code : v.Code i) (pending : List (Cleanup σ ε))
    (stack : List v.Frame) (s : σ) :
    Runs (.running i code pending stack s)
      (code.effects (fun c => v.recurse c.1) (visitEffects i) pending s)
      (.settled (code.run (fun c => v.recurse c.1) pending s) stack) := by
  induction i using v.wf.induction generalizing pending stack s with
  | _ i ihi =>
  induction code generalizing pending s with
  | done o => exact runs_of_next rfl rfl
  | fail e => exact runs_of_next rfl rfl
  | read k ih => exact .step rfl (ih _ _ _)
  | write s k ih => exact .step rfl (ih _ _)
  | act f k ih =>
      rcases hf : f s with ⟨out, s'⟩
      simp only [Routine.effectsTelling, Routine.runTelling, hf]
      cases out with
      | ok o => exact (runs_act_ok hf).trans (ih o pending s')
      | error e => exact runs_of_next (by simp only [next, hf]) (by simp only [effects, hf])
  | visit c k ih =>
      have begun : Runs (.running i (.visit c k) pending stack s) [.visit c.1]
          (.running c.1 (v.method c.1) [] (⟨i, pending, k⟩ :: stack) s) := runs_of_next rfl rfl
      have visited := begun.trans (ihi c.1 c.2 (v.method c.1) [] (⟨i, pending, k⟩ :: stack) s)
      rw [← effects_eq, ← recurse_eq] at visited
      simp only [Routine.effectsTelling, Routine.runTelling]
      rcases hc : v.recurse c.1 s with ⟨out, s'⟩
      rw [hc] at visited
      cases out with
      | ok o =>
          have resumed : Runs (.settled (.ok o, s') (⟨i, pending, k⟩ :: stack)) []
              (.running i (k o) pending stack s') := runs_of_next rfl rfl
          exact visited.trans (resumed.trans (ih o pending s'))
      | error e => exact visited.trans (runs_of_next rfl rfl)
  | defer f k ih => exact .step rfl (ih _ _)
  | release k ih =>
      cases pending with
      | nil => exact .step rfl (ih _ _)
      | cons f rest =>
          rcases hf : f .returned s with ⟨out, s'⟩
          simp only [Routine.effectsTelling, Routine.runTelling, hf]
          cases out with
          | ok u => exact (runs_release_ok hf).trans (ih rest s')
          | error e => exact runs_of_next (by simp only [next, hf]) (by simp only [effects, hf])

def own : Machine v → List (Cleanup σ ε)
  | .running _ _ pending _ _ => pending
  | .returning _ _ _ => []

def waiting : Machine v → List (Cleanup σ ε)
  | .running _ _ _ stack _ => stack.flatMap (·.pending)
  | .returning _ stack _ => stack.flatMap (·.pending)

inductive Raises : Machine v → ε → List (Effect ι σ ε ο) → Prop where
  | fail (i : ι) (e : ε) (pending : List (Cleanup σ ε)) (stack : List v.Frame) (s : σ) :
      Raises (.running i (.fail e) pending stack s) e []
  | act {i : ι} {f : σ → Outcome σ ε ο} {k : ο → v.Code i} {pending : List (Cleanup σ ε)}
      {stack : List v.Frame} {s s' : σ} {e : ε} (h : f s = (.error e, s')) :
      Raises (.running i (.act f k) pending stack s) e [.act f]

def Fails (m : Machine v) (stack : List v.Frame) (e : ε) (es ds : List (Effect ι σ ε ο)) : Prop :=
  ∃ m' before last closed, Runs m before m' ∧ m'.Raises e last ∧
    m'.waiting = closed ++ stack.flatMap (·.pending) ∧
    es = before ++ (last ++ (m'.own.map (.clean · (.failed e)) ++ closed.map (.clean · .closed))) ∧
    ds = before ++ (last ++ (m'.own.map (.clean · (.failed e)) ++
      closed.map (.clean · (.failed e))))

section Fails

variable {m n : Machine v} {stack : List v.Frame} {e : ε} {es ds fs : List (Effect ι σ ε ο)}

theorem Raises.fails (h : m.Raises e fs) (waits : m.waiting = stack.flatMap (·.pending)) :
    m.Fails stack e (fs ++ m.own.map (.clean · (.failed e)))
      (fs ++ m.own.map (.clean · (.failed e))) :=
  ⟨m, [], fs, [], .refl m, h, waits, by simp, by simp⟩

theorem Fails.after (h : n.Fails stack e es ds) (runs : Runs m fs n) :
    m.Fails stack e (fs ++ es) (fs ++ ds) := by
  obtain ⟨m', before, last, closed, further, raises, waits, rfl, rfl⟩ := h
  exact ⟨m', fs ++ before, last, closed, runs.trans further, raises, waits, by simp, by simp⟩

theorem Fails.leave {top : v.Frame} (h : m.Fails (top :: stack) e es ds) :
    m.Fails stack e (es ++ top.pending.map (.clean · .closed))
      (ds ++ top.pending.map (.clean · (.failed e))) := by
  obtain ⟨m', before, last, closed, runs, raises, waits, rfl, rfl⟩ := h
  exact ⟨m', before, last, closed ++ top.pending, runs, raises, by simp [waits], by simp, by simp⟩

end Fails

structure Accords (m : Machine v) (stack : List v.Frame) (p q : Outcome σ ε ο)
    (es ds : List (Effect ι σ ε ο)) : Prop where
  outcome : p.1 = q.1
  returned : ∀ o, q.1 = .ok o → p = q ∧ es = ds
  failed : ∀ e, q.1 = .error e → m.Fails stack e es ds

section Accords

variable {m n : Machine v} {stack : List v.Frame} {p q : Outcome σ ε ο}
  {es ds fs : List (Effect ι σ ε ο)}

theorem accords_of_ok {o : ο} (h : p.1 = .ok o) : m.Accords stack p p es es :=
  ⟨rfl, fun _ _ => ⟨rfl, rfl⟩, fun _ failed => nomatch h.symm.trans failed⟩

theorem accords_of_error {e : ε} (hp : p.1 = .error e) (hq : q.1 = .error e)
    (h : m.Fails stack e es ds) : m.Accords stack p q es ds := by
  refine ⟨hp.trans hq.symm, fun _ ok => ?_, fun e' failed => ?_⟩
  · cases hq.symm.trans ok
  · cases hq.symm.trans failed
    exact h

theorem Accords.after (h : n.Accords stack p q es ds) (runs : Runs m fs n) :
    m.Accords stack p q (fs ++ es) (fs ++ ds) where
  outcome := h.outcome
  returned o ok := ⟨(h.returned o ok).1, congrArg (fs ++ ·) (h.returned o ok).2⟩
  failed e bad := (h.failed e bad).after runs

end Accords

end Machine

variable (v) in
def Defers (P : Cleanup σ ε → Prop) : Prop :=
  ∀ i, (v.method i).Defers P

namespace Machine

theorem accords_direct (quiet : v.Defers Cleanup.Quiet) (i : ι) (code : v.Code i)
    (own : code.Defers Cleanup.Quiet) (pending : List (Cleanup σ ε))
    (silent : ∀ f ∈ pending, Cleanup.Quiet f) (stack : List v.Frame) (s : σ) :
    Accords (.running i code pending stack s) stack
      (code.run (fun c => v.recurse c.1) pending s)
      (code.runTelling .failed (fun c => v.direct c.1) pending s)
      (code.effects (fun c => v.recurse c.1) (visitEffects i) pending s)
      (code.effectsTelling .failed (fun c => v.direct c.1) (directVisitEffects i) pending s) := by
  induction i using v.wf.induction generalizing pending stack s with
  | _ i ihi =>
  induction code generalizing pending s with
  | done o => exact accords_of_ok (settle_fst_of_quiet silent _ _ s)
  | fail e =>
      have failed := settle_fst_of_quiet silent (.failed e) (.error e : Except ε ο) s
      simp only [Routine.effectsTelling, cleaning_of_quiet silent]
      exact accords_of_error failed failed ((Raises.fail i e pending stack s).fails rfl)
  | read k ih => exact (ih s (own s) pending silent s).after (runs_of_next rfl rfl)
  | write s' k ih => exact (ih own pending silent s').after (runs_of_next rfl rfl)
  | act f k ih =>
      rcases hf : f s with ⟨out, s'⟩
      simp only [Routine.runTelling, Routine.effectsTelling, hf]
      cases out with
      | ok o => exact (ih o (own o) pending silent s').after (runs_act_ok hf)
      | error e =>
          have failed := settle_fst_of_quiet silent (.failed e) (.error e : Except ε ο) s'
          simp only [cleaning_of_quiet silent]
          exact accords_of_error failed failed ((Raises.act hf).fails rfl)
  | visit c k ih =>
      have begun : Runs (.running i (.visit c k) pending stack s) [.visit c.1]
          (.running c.1 (v.method c.1) [] (⟨i, pending, k⟩ :: stack) s) := runs_of_next rfl rfl
      have inner := ihi c.1 c.2 (v.method c.1) (quiet c.1) [] (List.forall_mem_nil _)
        (⟨i, pending, k⟩ :: stack) s
      have ran := runs_running c.1 (v.method c.1) [] (⟨i, pending, k⟩ :: stack) s
      rw [← recurse_eq, ← effects_eq] at inner ran
      rw [← direct_eq, ← directEffects_eq] at inner
      simp only [Routine.runTelling, Routine.effectsTelling]
      rcases hq : v.direct c.1 s with ⟨out, s'⟩
      rw [hq] at inner
      cases out with
      | ok o =>
          obtain ⟨same, effects⟩ := inner.returned o rfl
          simp only [visitEffects, same, effects] at ran ⊢
          have resumed : Runs (.settled (.ok o, s') (⟨i, pending, k⟩ :: stack)) []
              (.running i (k o) pending stack s') := runs_of_next rfl rfl
          have whole := begun.trans (ran.trans resumed)
          rw [List.append_nil] at whole
          exact (ih o (own o) pending silent s').after whole
      | error e =>
          have failed := inner.outcome
          rcases hp : v.recurse c.1 s with ⟨out, s''⟩
          rw [hp] at failed
          cases failed
          simp only [cleaning_of_quiet silent]
          exact accords_of_error (settle_fst_of_quiet silent _ _ s'')
            (settle_fst_of_quiet silent _ _ s') ((inner.failed e rfl).after begun).leave
  | defer f k ih =>
      exact (ih own.2 (f :: pending) (List.forall_mem_cons.2 ⟨own.1, silent⟩) s).after
        (runs_of_next rfl rfl)
  | release k ih =>
      cases pending with
      | nil => exact (ih own [] silent s).after (runs_of_next rfl rfl)
      | cons f rest =>
          obtain ⟨first, others⟩ := List.forall_mem_cons.1 silent
          have passes := first .returned s
          rcases hf : f .returned s with ⟨out, s'⟩
          obtain rfl : out = .ok () := (congrArg Prod.fst hf).symm.trans passes
          simp only [Routine.runTelling, Routine.effectsTelling, hf]
          exact (ih own rest others s').after (runs_release_ok hf)

end Machine

section Unprying

theorem settle_of_unprying {fs : List (Cleanup σ ε)} (h : ∀ f ∈ fs, Cleanup.Unprying f)
    (r : Except ε α) (e : ε) (s : σ) : settle .closed r fs s = settle (.failed e) r fs s := by
  induction fs generalizing s with
  | nil => rfl
  | cons f fs ih =>
      obtain ⟨first, rest⟩ := List.forall_mem_cons.1 h
      simp only [settle, first e s, ih rest]

theorem runTelling_of_unprying {go : κ → σ → Outcome σ ε ο} {code : Routine κ σ ε ο α}
    (h : code.Defers Cleanup.Unprying) (pending : List (Cleanup σ ε))
    (unprying : ∀ f ∈ pending, Cleanup.Unprying f) (s : σ) :
    code.run go pending s = code.runTelling .failed go pending s := by
  induction code generalizing pending s with
  | done a => rfl
  | fail e => rfl
  | read k ih => exact ih s (h s) pending unprying s
  | write s' k ih => exact ih h pending unprying s'
  | act f k ih =>
      simp only [Routine.runTelling]
      split
      · exact ih _ (h _) pending unprying _
      · rfl
  | visit c k ih =>
      simp only [Routine.runTelling]
      split
      · exact ih _ (h _) pending unprying _
      · exact settle_of_unprying unprying _ _ _
  | defer f k ih => exact ih h.2 (f :: pending) (List.forall_mem_cons.2 ⟨h.1, unprying⟩) s
  | release k ih =>
      cases pending with
      | nil => exact ih h [] unprying s
      | cons f rest =>
          simp only [Routine.runTelling]
          split
          · exact ih h rest (List.forall_mem_cons.1 unprying).2 _
          · rfl

theorem recurse_of_unprying (h : v.Defers Cleanup.Unprying) (i : ι) (s : σ) :
    v.recurse i s = v.direct i s := by
  induction i using v.wf.induction generalizing s with
  | _ i ih =>
      have visits : (fun c : { c : ι // v.before c i } => v.recurse c.1) = fun c => v.direct c.1 :=
        funext fun c => funext fun s => ih c.1 c.2 s
      rw [recurse_eq, direct_eq, visits]
      exact runTelling_of_unprying (h i) [] (List.forall_mem_nil _) s

end Unprying

variable (v)

abbrev Machine.start (i : ι) (s : σ) : Machine v :=
  .running i (v.method i) [] [] s

/-- If no cleanup fails, the stack of suspended routines comes to an end with what direct recursion
returns or raises. A value is returned by the very effects of recursion. A failure is one that some
method raises; the cleanups of that method follow it, told of the failure, then those of the methods
that wait, innermost first and each once, and nothing else does. By recursion the same cleanups
follow, but those that wait are told of the failure, and here they are closed. -/
theorem drive_follows_recursion (quiet : v.Defers Cleanup.Quiet) (i : ι) (s : σ) :
    (∃ m, (Machine.start v i s).Runs (v.effects i s) m ∧ m.next = .inr (v.drive i s)) ∧
      replay (v.effects i s) s = (v.drive i s).2 ∧
      replay (v.directEffects i s) s = (v.direct i s).2 ∧
      (v.drive i s).1 = (v.direct i s).1 ∧
      (∀ o, (v.direct i s).1 = .ok o →
        v.drive i s = v.direct i s ∧ v.effects i s = v.directEffects i s) ∧
      (∀ e, (v.direct i s).1 = .error e →
        ∃ m before last, (Machine.start v i s).Runs before m ∧ m.Raises e last ∧
          v.effects i s = before ++ (last ++ (m.own.map (.clean · (.failed e)) ++
            m.waiting.map (.clean · .closed))) ∧
          v.directEffects i s = before ++ (last ++ (m.own.map (.clean · (.failed e)) ++
            m.waiting.map (.clean · (.failed e))))) ∧
      (v.Defers Cleanup.Unprying → v.drive i s = v.direct i s) := by
  have follows := Machine.accords_direct quiet i (v.method i) (quiet i) [] (List.forall_mem_nil _)
    [] s
  rw [← recurse_eq, ← direct_eq, ← effects_eq, ← directEffects_eq] at follows
  rw [v.drive_eq_recurse i s]
  refine ⟨⟨.settled (v.recurse i s) [], ?_, rfl⟩, v.replay_effects i s, v.replay_directEffects i s,
    follows.outcome, follows.returned, fun e failed => ?_, fun h => recurse_of_unprying h i s⟩
  · rw [recurse_eq, effects_eq]
    exact Machine.runs_running i (v.method i) [] [] s
  · obtain ⟨m, before, last, closed, runs, raises, waits, all, all'⟩ := follows.failed e failed
    rw [List.flatMap_nil, List.append_nil] at waits
    subst waits
    exact ⟨m, before, last, runs, raises, all, all'⟩

def overseer : Visitor Bool Bool Unit Unit where
  before c i := c.toNat < i.toNat
  wf := (measure Bool.toNat).wf
  method
    | false => .fail ()
    | true => .defer (fun ending _ => (.ok (), match ending with
        | .failed _ => true
        | _ => false)) (.visit ⟨false, by decide⟩ .done)

theorem overseer_closed : overseer.Defers Cleanup.Quiet ∧
    overseer.direct true false = (.error (), true) ∧
    overseer.drive true false = (.error (), false) := by
  have direct : overseer.direct false false = (.error (), false) := by
    rw [direct_eq]
    rfl
  have recurse : overseer.recurse false false = (.error (), false) := by
    rw [recurse_eq]
    rfl
  refine ⟨fun i => ?_, ?_, ?_⟩
  · cases i with
    | false => trivial
    | true => exact ⟨fun _ _ => rfl, fun _ => trivial⟩
  · rw [direct_eq]
    simp only [overseer, Routine.runTelling] at direct ⊢
    simp only [direct, settle]
  · rw [drive_eq_recurse, recurse_eq]
    simp only [overseer, Routine.runTelling] at recurse ⊢
    simp only [recurse, settle]

end Visitor

end ScopeResolution.Traversal

namespace ScopeResolution.Observation

open Traversal Visitor Routine

section Defers

variable {P : Cleanup Events Fault → Prop} {d : Datum}

theorem note_defers {e : Datum} (m : Moment) : (note m d : Script e Unit).Defers P :=
  (defers_ofExcept _).bind fun _ _ => trivial

theorem visitChildren_defers :
    (Traversal.visitChildren d .call : Script d (List Datum)).Defers P := by
  have each (c : Datum.Part d) : (call c : Script d Datum).Defers P := fun _ => trivial
  refine (defers_mapM each d.children).bind fun _ => Defers.bind ?_ fun _ => trivial
  unfold finishEntries
  split <;> trivial

theorem walkBelow_defers : (walkBelow d).Defers P :=
  visitChildren_defers.bind fun _ => trivial

variable (h : ∀ e : Event, P fun _ es => (.ok (), { e with moment := .exit } :: es))
include h

theorem bracketed_defers {body : Script d Datum} (inner : body.Defers P) :
    (bracketed d body).Defers P :=
  (defers_ofExcept _).bind fun entry => inner.within (h entry)

theorem visitor_defers (rules : List Rule) : (visitor rules).Defers P := by
  intro d
  change (walk rules d).Defers P
  unfold walk
  cases modeFor? d.typeName rules with
  | none => exact walkBelow_defers
  | some mode =>
      cases mode with
      | leaf value => exact (note_defers .leaf).bind fun _ => defers_ofExcept _
      | enter => exact bracketed_defers h walkBelow_defers
      | total =>
          refine Defers.bind ?_ fun _ => visitChildren_defers.bind fun _ =>
            (note_defers .total).bind fun _ => trivial
          unfold finishEntries
          split <;> trivial
      | fail => trivial
      | failAfter => exact bracketed_defers h (walkBelow_defers.bind fun _ => trivial)

end Defers

def bracketedFailure : List Rule :=
  [⟨"Apply", .enter⟩, ⟨"Number", .failAfter⟩]

def number : Datum := .node (.builtin .number) [.int 1]

def selfApplied : Datum := .node (.builtin .apply) [number, number]

def leaving (kind : String) (label : Datum) : Cleanup Events Fault :=
  fun _ es => (.ok (), ⟨.exit, kind, label⟩ :: es)

def eitherNumber : { c : Datum // (visitor bracketedFailure).before c selfApplied } :=
  Datum.firstChild number [number]

theorem method_selfApplied : (visitor bracketedFailure).method selfApplied =
    .read fun es => .write (⟨.enter, "Apply", .null⟩ :: es) (.defer (leaving "Apply" .null)
      (.visit eitherNumber fun _ => .visit eitherNumber fun _ => .release (.done .null))) := rfl

theorem direct_number (es : Events) : (visitor bracketedFailure).direct number es =
    (.error (.raised "after Number"),
      ⟨.exit, "Number", .int 1⟩ :: ⟨.enter, "Number", .int 1⟩ :: es) := by
  rw [direct_eq]
  rfl

theorem drive_selfApplied :
    (visitor bracketedFailure).drive selfApplied [] =
        (visitor bracketedFailure).direct selfApplied [] ∧
      ((visitor bracketedFailure).direct selfApplied []).1 = .error (.raised "after Number") ∧
      ∃ m before last, (Machine.start (visitor bracketedFailure) selfApplied []).Runs before m ∧
        m.Raises (.raised "after Number") last ∧
        (visitor bracketedFailure).effects selfApplied [] =
          before ++ (last ++ (m.own.map (.clean · (.failed (.raised "after Number"))) ++
            m.waiting.map (.clean · .closed))) := by
  have failed : ((visitor bracketedFailure).direct selfApplied []).1 =
      .error (.raised "after Number") := by
    have first : eitherNumber.1 = number := rfl
    rw [direct_eq, method_selfApplied]
    simp only [Routine.runTelling, first, direct_number]
    rfl
  obtain ⟨_, _, _, _, _, raised, same⟩ :=
    drive_follows_recursion (visitor bracketedFailure) (visitor_defers (fun _ _ _ => rfl) _)
      selfApplied []
  obtain ⟨m, before, last, runs, raises, effects, _⟩ := raised _ failed
  exact ⟨same (visitor_defers (fun _ _ _ => rfl) _), failed, m, before, last, runs, raises, effects⟩

end ScopeResolution.Observation
