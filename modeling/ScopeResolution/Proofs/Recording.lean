import ScopeResolution.Proofs.Ledger
import ScopeResolution.Proofs.Simulation

namespace ScopeResolution

namespace Renaming

open Datum Traversal Traversal.Routine

section Records

variable {κ α β : Type} {go : κ → Resolver → Outcome Resolver Fault Datum}
  {log : κ → Resolver → List (Effect Datum Resolver Fault Datum)} {l : List Datum}
  {P Q : α → List Datum → Prop} {R : β → List Datum → Prop}

def Records (go : κ → Resolver → Outcome Resolver Fault Datum)
    (log : κ → Resolver → List (Effect Datum Resolver Fault Datum))
    (script : Routine κ Resolver Fault Datum α) (l : List Datum) (Q : α → List Datum → Prop) :
    Prop :=
  ∀ r : Resolver, r.Ledger l → ∃ es xs out r', script.Passes go log r es out r' ∧
    r.Issues es xs r' ∧ ∀ a, out = .ok a → Q a (l ++ xs)

theorem records_idle {script : Routine κ Resolver Fault Datum α}
    (h : ∀ r : Resolver, r.Ledger l →
      ∃ out, script.Passes go log r [] out r ∧ ∀ a, out = .ok a → Q a l) :
    Records go log script l Q := by
  intro r told
  obtain ⟨out, passes, returned⟩ := h r told
  refine ⟨[], [], out, r, passes, .nil r, fun a ok => ?_⟩
  rw [List.append_nil]
  exact returned a ok

theorem records_pure {a : α} (h : Q a l) : Records go log (pure a) l Q := by
  refine records_idle fun r _ => ⟨_, passes_pure a, fun b same => ?_⟩
  cases same
  exact h

theorem records_fail (e : Fault) :
    Records go log (fail e : Routine κ Resolver Fault Datum α) l Q :=
  records_idle fun _ _ => ⟨_, passes_fail e, fun _ ok => nomatch ok⟩

theorem records_ofExcept {x : Except Fault α} (h : ∀ a, x = .ok a → Q a l) :
    Records go log (ofExcept x) l Q :=
  records_idle fun _ _ => ⟨x, passes_ofExcept x, h⟩

theorem records_query {f : Resolver → Except Fault α}
    (h : ∀ r : Resolver, r.Ledger l → ∀ a, f r = .ok a → Q a l) : Records go log (query f) l Q :=
  records_idle fun r told => ⟨f r, passes_query f, h r told⟩

theorem records_note {f : Resolver → Resolver} (scopes : ∀ r, (f r).scopes = r.scopes)
    (supply : ∀ r, (f r).supply = r.supply) :
    Records go log (modify f) l fun _ l' => l' = l :=
  fun r _ => ⟨_, [], _, _, passes_modify f, .note (scopes r) (supply r) (.nil _),
    fun _ _ => List.append_nil l⟩

theorem records_debug (text : String) :
    Records go log (modify (Resolver.debug text)) l fun _ l' => l' = l :=
  records_note (fun _ => rfl) fun _ => rfl

theorem Records.imp {script : Routine κ Resolver Fault Datum α} (h : Records go log script l P)
    (imp : ∀ a l', l <+: l' → P a l' → Q a l') : Records go log script l Q := by
  intro r told
  obtain ⟨es, xs, out, r', passes, issues, returned⟩ := h r told
  refine ⟨es, xs, out, r', passes, issues, fun a ok => ?_⟩
  exact imp a (l ++ xs) (List.prefix_append l xs) (returned a ok)

theorem Records.bind {script : Routine κ Resolver Fault Datum α}
    {rest : α → Routine κ Resolver Fault Datum β} (first : Records go log script l P)
    (next : ∀ a l', l <+: l' → P a l' → Records go log (rest a) l' R) :
    Records go log (script >>= rest) l R := by
  intro r told
  obtain ⟨es, xs, out, r₁, passes, issues, returned⟩ := first r told
  cases out with
  | error e => exact ⟨es, xs, .error e, r₁, passes.bind_error, issues, fun _ ok => nomatch ok⟩
  | ok a =>
      have grown := List.prefix_append l xs
      obtain ⟨fs, ys, out', r₂, passes', issues', returned'⟩ :=
        next a (l ++ xs) grown (returned a rfl) r₁ (issues.ledger told)
      rw [List.append_assoc] at returned'
      exact ⟨_, _, out', r₂, passes.bind_ok passes', issues.append issues', returned'⟩

theorem records_ofExcept_bind {x : Except Fault α} {a : α}
    {rest : α → Routine κ Resolver Fault Datum β} (found : x = .ok a)
    (next : Records go log (rest a) l R) : Records go log (ofExcept x >>= rest) l R := by
  subst found
  exact next

theorem records_mapM_nil (f : α → Routine κ Resolver Fault Datum β) {R : List β → List Datum → Prop}
    (h : R [] l) : Records go log ([].mapM f) l R := by
  rw [List.mapM_nil]
  exact records_pure h

theorem Records.mapM_singleton {f : α → Routine κ Resolver Fault Datum β} {x : α}
    {T : List β → List Datum → Prop} (h : Records go log (f x) l R)
    (one : ∀ y l', R y l' → T [y] l') : Records go log ([x].mapM f) l T := by
  simp only [List.mapM_cons, List.mapM_nil, LawfulMonad.pure_bind]
  exact h.bind fun y l' _ returned => records_pure (one y l' returned)

theorem Records.mapM_cons {f : α → Routine κ Resolver Fault Datum β} {x : α} {xs : List α}
    {S : List β → List Datum → Prop} {T : List β → List Datum → Prop}
    (head : Records go log (f x) l R)
    (tail : ∀ l', l <+: l' → Records go log (xs.mapM f) l' S)
    (both : ∀ y ys l' l'', l' <+: l'' → R y l' → S ys l'' → T (y :: ys) l'') :
    Records go log ((x :: xs).mapM f) l T := by
  rw [List.mapM_cons]
  refine head.bind fun y l₁ grown first => ?_
  refine (tail l₁ grown).bind fun ys l₂ grown' others => ?_
  exact records_pure (both y ys l₁ l₂ grown' first others)

end Records

def Issuing {κ α : Type} (go : κ → Resolver → Outcome Resolver Fault Datum)
    (log : κ → Resolver → List (Effect Datum Resolver Fault Datum))
    (script : Routine κ Resolver Fault Datum α) : Prop :=
  ∀ l, Records go log script l fun _ _ => True

section Issuing

variable {κ α β : Type} {go : κ → Resolver → Outcome Resolver Fault Datum}
  {log : κ → Resolver → List (Effect Datum Resolver Fault Datum)}

theorem issuing_pure (a : α) : Issuing go log (pure a) :=
  fun _ => records_pure trivial

theorem issuing_ofExcept (x : Except Fault α) : Issuing go log (ofExcept x) :=
  fun _ => records_ofExcept fun _ _ => trivial

theorem issuing_debug (text : String) : Issuing go log (modify (Resolver.debug text)) :=
  fun _ => (records_debug text).imp fun _ _ _ _ => trivial

theorem Issuing.bind {script : Routine κ Resolver Fault Datum α}
    {rest : α → Routine κ Resolver Fault Datum β} (first : Issuing go log script)
    (next : ∀ a, Issuing go log (rest a)) : Issuing go log (script >>= rest) :=
  fun l => (first l).bind fun a l' _ _ => next a l'

theorem issuing_mapM {f : α → Routine κ Resolver Fault Datum β} (h : ∀ x, Issuing go log (f x)) :
    (xs : List α) → Issuing go log (xs.mapM f)
  | [] => fun _ => records_mapM_nil f trivial
  | x :: xs => fun l =>
      (h x l).mapM_cons (fun l' _ => issuing_mapM h xs l') fun _ _ _ _ _ _ _ => trivial

end Issuing

section Steps

variable {d : Datum} {go : Part d → Resolver → Outcome Resolver Fault Datum}
  {log : Part d → Resolver → List (Effect Datum Resolver Fault Datum)} {l : List Datum}

theorem records_bindFresh (symbol : Datum) :
    Records go log (bindFresh symbol) l fun v l' => ∃ n : Mark, v = n.datum ∧ n.Issued l' := by
  intro r told
  refine ⟨_, [symbol], _, _, passes_perform (Resolver.freshName symbol), .fresh symbol (.nil _),
    fun v ok => ?_⟩
  exact ⟨_, (told.freshName symbol).2 v ok, Mark.issued_last l symbol⟩

theorem records_nameOf (symbol : Datum) :
    Records go log (nameOf symbol) l fun v l' => ∃ n : Mark, v = n.datum ∧ n.Told l' :=
  records_query fun _ told _ found => told.nameOf found

theorem records_told (x : Datum) : Records go log (told x) l fun _ _ => True :=
  records_query fun _ _ _ _ => trivial

theorem records_boundName (symbol : Datum) :
    Records go log (boundName symbol) l fun v l' => ∃ n : Mark, v = n.datum ∧ n.Issued l' := by
  have looked : Records go log (query (Resolver.lookup symbol)) l fun v l' =>
      v = .null ∨ ∃ n : Mark, v = n.datum ∧ n.Issued l' :=
    records_query fun _ told _ found => told.lookup found
  refine looked.bind fun found l₁ _ held => ?_
  cases found with
  | null =>
      refine (records_told symbol).bind fun text l₂ _ _ => ?_
      refine (records_note (f := Resolver.error _) (fun _ => rfl) fun _ => rfl).bind ?_
      exact fun _ l₃ _ _ => records_fail _
  | _ => exact records_pure (held.resolve_left nofun)

theorem Records.inScope {script : Script d Datum} {Q : Datum → List Datum → Prop}
    (h : Records go log script l Q) : Records go log (inScope script) l Q := by
  intro r told
  obtain ⟨es, xs, out, r₁, passes, issues, returned⟩ := h r.enter told.enter
  obtain ⟨ending, exited⟩ := passes.within_exit Resolver.exit
  have left : r₁.Issues [.clean (fun _ => Resolver.exit) ending] [] r₁.exit.2 :=
    .exit ending (.nil _)
  have whole := issues.append left
  rw [List.append_nil] at whole
  refine ⟨_, xs, _, _, exited, .enter whole, fun v ok => ?_⟩
  cases made : r₁.exit.1 with
  | error e =>
      rw [made] at ok
      cases ok
  | ok _ =>
      rw [made] at ok
      exact returned v ok

theorem Issuing.inScope {script : Script d Datum} (h : Issuing go log script) :
    Issuing go log (inScope script) :=
  fun l => (h l).inScope

theorem records_unsupported {Q : Datum → List Datum → Prop} :
    Records go log (unsupported d) l Q :=
  (records_told d).bind fun _ _ _ _ => records_fail _

theorem issuing_bindFresh (symbol : Datum) : Issuing go log (bindFresh symbol : Script d Datum) :=
  fun _ => (records_bindFresh symbol).imp fun _ _ _ _ => trivial

theorem issuing_renameMember (visited : ∀ p : Part d, Issuing go log (call p)) (b : Part d) :
    Issuing go log (renameMember b) := by
  refine (issuing_ofExcept _).bind fun symbol => ?_
  have named : Issuing go log (boundName symbol.1 : Script d Datum) :=
    fun _ => (records_boundName symbol.1).imp fun _ _ _ _ => trivial
  refine named.bind fun bound => ?_
  have right : Issuing go log (renameRight b) := (issuing_ofExcept _).bind visited
  exact right.bind fun right => issuing_ofExcept _

theorem issuing_renameGroup (visited : ∀ p : Part d, Issuing go log (call p)) (x : Part d) :
    Issuing go log (renameGroup x) := by
  refine (issuing_ofExcept _).bind fun bs => ?_
  have bound (b : Part d) : Issuing go log (bindMember b) :=
    (issuing_ofExcept _).bind fun symbol => issuing_bindFresh symbol.1
  refine (issuing_mapM bound bs).bind fun _ => ?_
  exact (issuing_mapM (issuing_renameMember visited) bs).bind fun renamed => issuing_pure _

theorem upheld_issuing (visited : ∀ p : Part d, Issuing go log (call p)) :
    Upheld d fun script => Issuing go log script where
  pure := issuing_pure
  bind := Issuing.bind
  attempt _ := issuing_ofExcept _
  told x _ := records_told x
  debug := issuing_debug
  nameOf symbol _ := (records_nameOf symbol).imp fun _ _ _ _ => trivial
  bindFresh := issuing_bindFresh
  inScope := Issuing.inScope
  call := visited
  group := issuing_renameGroup visited

end Steps

section Visits

variable {extent : Extent} {d : Datum} {l : List Datum} {Q : Datum → List Datum → Prop}

abbrev visitLog (extent : Extent) (d : Datum) :
    Part d → Resolver → List (Effect Datum Resolver Fault Datum) :=
  Visitor.visitEffects (v := visitor extent) d

abbrev Tracked {α : Type} (extent : Extent) {d : Datum}
    (script : Routine (Part d) Resolver Fault Datum α) (l : List Datum)
    (Q : α → List Datum → Prop) : Prop :=
  Records (visits extent d) (visitLog extent d) script l Q

theorem recurse_of_tracked {r : Resolver} (h : Tracked extent (renameNode extent d) l Q)
    (told : r.Ledger l) :
    ∃ xs, r.Issues ((visitor extent).effects d r) xs ((visitor extent).recurse d r).2 ∧
      ∀ v, ((visitor extent).recurse d r).1 = .ok v → Q v (l ++ xs) := by
  obtain ⟨es, xs, out, r', passes, issues, returned⟩ := h r told
  have effects : (visitor extent).effects d r = es :=
    (Visitor.effects_eq d r).trans passes.effects_eq
  have ended : (visitor extent).recurse d r = (out, r') :=
    (Visitor.recurse_eq d r).trans passes.run_eq
  rw [effects, ended]
  exact ⟨xs, issues, returned⟩

theorem tracked_call {p : Part d} (h : Tracked extent (renameNode extent p.1) l Q) :
    Tracked extent (call p) l Q := by
  intro r told
  obtain ⟨xs, issues, returned⟩ := recurse_of_tracked h told
  exact ⟨_, xs, _, _, passes_call p, .visit p.1 issues, returned⟩

theorem issuing_visits (extent : Extent) (d : Datum) :
    Issuing (visits extent d) (visitLog extent d) (renameNode extent d) := by
  induction d using (visitor extent).wf.induction with
  | _ d ih => exact (upheld_issuing fun p l => tracked_call (ih p.1 p.2 l)).visit extent

end Visits

end Renaming

end ScopeResolution
