import ScopeResolution.Proofs.Phrase.Likeness
import ScopeResolution.Proofs.Scoping.Free

namespace ScopeResolution

namespace Context

structure Agrees (R : Name → Name → Prop) (es : List Essence) (c d : Context) : Prop where
  ahead : ∀ (x : Symbol) (k : Nat), R ⟨x, c.last + k + 1⟩ ⟨x, d.last + k + 1⟩
  meets : ∀ x : Symbol, x.essence ∈ es → R (c.nameOf x) (d.nameOf x)

namespace Agrees

variable {R : Name → Name → Prop} {es fs : List Essence} {c d c' d' : Context}

theorem mono (h : Agrees R es c d) (sub : fs ⊆ es) : Agrees R fs c d :=
  ⟨h.ahead, fun x hx => h.meets x (sub hx)⟩

theorem bind (h : Agrees R es c d) (x : Symbol) :
    Agrees R (x.essence :: es) (c.bind x) (d.bind x) := by
  refine ⟨fun y k => ?_, fun y hy => ?_⟩
  · have later := h.ahead y (k + 1)
    rwa [← Nat.add_assoc, ← Nat.add_assoc, Nat.add_right_comm c.last, Nat.add_right_comm d.last]
      at later
  · by_cases same : x.essence = y.essence
    · rw [nameOf_of_bound (same ▸ c.bound_bind_self x),
        nameOf_of_bound (same ▸ d.bound_bind_self x)]
      exact h.ahead x 0
    · rw [nameOf, nameOf, bound_bind_of_ne same, bound_bind_of_ne same]
      exact h.meets y ((List.mem_cons.1 hy).resolve_left (Ne.symm same))

theorem bindAll (h : Agrees R es c d) (xs : List Symbol) :
    Agrees R (xs.map Symbol.essence ++ es) (c.bindAll xs) (d.bindAll xs) := by
  induction xs generalizing es c d with
  | nil => exact h
  | cons x xs ih => exact (ih (h.bind x)).mono fun e he => by simpa [or_left_comm] using he

theorem leave (h : Agrees R es c d) (inner : Agrees R fs c' d') :
    Agrees R es (c.leave c') (d.leave d') :=
  ⟨inner.ahead, h.meets⟩

end Agrees

end Context

namespace Scoping

variable {p : Portion} {R : Name → Name → Prop} {es : List Essence} {c d : Context}

theorem agrees_resolve (s : Scoping Symbol p) (h : Context.Agrees R es c d) :
    Context.Agrees R (s.leaks ++ es) (s.resolve c).2 (s.resolve d).2 := by
  induction s generalizing es c d with
  | none => exact h
  | refer => exact h
  | bind x => exact h.bind x
  | seq a b iha ihb => exact (ihb (iha h)).mono fun e he => by simpa [leaks, or_left_comm] using he
  | scope a ih => exact h.leave (ih h)
  | group g ih =>
      refine (ih (h.bindAll g.names)).mono fun e he => ?_
      simpa [leaks, or_left_comm] using he
  | nil => exact h
  | member x right rest ihr ihrest =>
      exact (ihrest (ihr h)).mono fun e he => by simpa [leaks, or_left_comm] using he

end Scoping

theorem Symbol.mem_append_of_without {xs ys : List Symbol} {es : List Essence}
    (h : ∀ x ∈ without xs ys, x.essence ∈ es) :
    ∀ x ∈ xs, x.essence ∈ ys.map Symbol.essence ++ es := by
  intro x hx
  by_cases bound : x.essence ∈ ys.map Symbol.essence
  · exact List.mem_append_left _ bound
  · exact List.mem_append_right _ (h x (List.mem_filter.2 ⟨hx, decide_eq_true bound⟩))

namespace Shape

variable {category : Category} {P : Prop}

theorem one_apart (same : one category = .group) : P := by
  cases same

theorem many_apart (same : many category = .group) : P := by
  cases same

theorem declarations_apart (same : declarations = .group) : P := by
  cases same

end Shape

namespace Phrase

open ScopeResolution.Symbol (mem_append_of_without)
open Context (Agrees)
open Shape (one_apart many_apart declarations_apart)

variable {R : Name → Name → Prop} {es : List Essence} {c d : Context}

theorem agrees_resolve {s : Shape} (t : Phrase Symbol s) (h : Agrees R es c d) :
    Agrees R (t.leak.map Symbol.essence ++ es) (t.resolve c).2 (t.resolve d).2 := by
  rw [(t.scoping_resolve c).2, (t.scoping_resolve d).2, ← t.leaks_scoping]
  exact t.scoping.agrees_resolve h

section Likeness

variable {same : Datum → Datum → Prop}

theorem like_of_agrees (globals : ∀ x, R ⟨x, 0⟩ ⟨x, 0⟩) {s : Shape} (t : Phrase Symbol s)
    (h : Agrees R es c d) (free : ∀ x ∈ t.free, x.essence ∈ es)
    (names : s = .group → ∀ x ∈ t.names, x.essence ∈ es)
    (keeps : ∀ v ∈ t.carried, same v.freeze v.freeze) :
    (t.resolve c).1.Like R same (t.resolve d).1 := by
  induction t generalizing es c d with
    (simp only [Phrase.free, List.forall_mem_append, List.forall_mem_cons] at free
     simp only [carried, places, List.filterMap_append, List.filterMap_cons, List.filterMap_nil,
      Place.carried?, List.mem_append, List.mem_cons, List.not_mem_nil, or_false, or_imp,
      forall_and, forall_eq] at keeps)
  | typed e type location ih => exact ⟨_, _, _, rfl, ih h free one_apart keeps.1, keeps.2⟩
  | located e location ih => exact ⟨_, _, rfl, ih h free one_apart keeps.1, keeps.2⟩
  | literal form value => exact ⟨_, rfl, value.frozen ▸ keeps⟩
  | reference x => exact ⟨_, rfl, h.meets x free.1⟩
  | apply f a ihf iha =>
      have head := ihf h free.1 one_apart keeps.1
      have argument := iha (f.agrees_resolve h) (mem_append_of_without free.2) one_apart keeps.2
      exact ⟨_, _, rfl, head, argument⟩
  | lambda x body ih =>
      have inner := ih (h.bind x) (mem_append_of_without free) one_apart keeps
      exact ⟨_, _, rfl, h.ahead x 0, inner⟩
  | letIn g body ihg ih =>
      have bound := h.bindAll g.names
      have inside := List.forall_mem_append.1 (mem_append_of_without free)
      have own (x : Symbol) (hx : x ∈ g.names) : x.essence ∈ g.names.map Symbol.essence ++ es :=
        List.mem_append_left _ (List.mem_map_of_mem hx)
      have group := ihg bound inside.1 (fun _ => own) keeps.1
      have inner := ih (g.agrees_resolve bound) (mem_append_of_without inside.2) one_apart keeps.2
      exact ⟨_, _, rfl, group, inner⟩
  | caseOf e alternatives ihe iha =>
      have first := iha h free.1 many_apart keeps.2
      have after := alternatives.agrees_resolve h
      rw [alternatives.leak_eq_nil rfl] at after
      exact ⟨_, _, rfl, ihe after free.2 one_apart keeps.1, first⟩
  | doBlock statements e ihs ihe =>
      have first := ihs h free.1 many_apart keeps.1
      have agree := statements.agrees_resolve h
      have last := ihe agree (mem_append_of_without free.2) one_apart keeps.2
      exact ⟨_, _, rfl, first, last⟩
  | locatedPattern p location ih => exact ⟨_, _, rfl, ih h free one_apart keeps.1, keeps.2⟩
  | numberPattern value => exact ⟨_, rfl, value.frozen ▸ keeps⟩
  | wildCardPattern => rfl
  | identifierPattern x => exact ⟨_, rfl, h.ahead x 0⟩
  | constructorPattern x patterns ih => exact ⟨_, _, rfl, globals x, ih h free many_apart keeps⟩
  | alternative p e ihp ihe =>
      have first := ihp h (by simp [p.free_eq_nil rfl]) one_apart keeps.1
      have second := ihe (p.agrees_resolve h) (mem_append_of_without free) one_apart keeps.2
      exact ⟨_, _, rfl, first, second⟩
  | doExpr e ih => exact ⟨_, rfl, ih h free one_apart keeps⟩
  | doLet g ih =>
      have own (x : Symbol) (hx : x ∈ g.names) : x.essence ∈ g.names.map Symbol.essence ++ es :=
        List.mem_append_left _ (List.mem_map_of_mem hx)
      exact ⟨_, rfl, ih (h.bindAll g.names) (mem_append_of_without free) (fun _ => own) keeps⟩
  | doBind p e ihp ihe =>
      have first := ihp h (by simp [p.free_eq_nil rfl]) one_apart keeps.1
      have second := ihe (p.agrees_resolve h) (mem_append_of_without free) one_apart keeps.2
      exact ⟨_, _, rfl, first, second⟩
  | constructor x => exact ⟨_, _, _, _, rfl, globals x, keeps⟩
  | definition constructors type parameters ih =>
      exact ⟨_, _, _, rfl, ih h free many_apart keeps.1, keeps.2⟩
  | instanceOf bindings constraints type classname ih =>
      exact ⟨_, _, _, _, rfl, ih h free declarations_apart keeps.1, keeps.2⟩
  | nil => rfl
  | cons t ts iht ihts =>
      have first := iht h free.1 one_apart keeps.1
      have others := ihts (t.agrees_resolve h) (mem_append_of_without free.2) many_apart keeps.2
      exact ⟨_, _, rfl, first, others⟩
  | noBinding => rfl
  | binding x right type arity rest ihr ihrest =>
      have own := names rfl
      rw [Phrase.names, List.forall_mem_cons] at own
      have later (y : Symbol) (hy : y ∈ rest.names) :
          y.essence ∈ right.leak.map Symbol.essence ++ es :=
        List.mem_append_right _ (own.2 y hy)
      have first := ihr h free.1 one_apart keeps.1
      have others := ihrest (right.agrees_resolve h) (mem_append_of_without free.2) (fun _ => later)
        keeps.2.2.2
      exact ⟨_, _, _, _, _, rfl, h.meets x own.1, first, keeps.2.1, keeps.2.2.1, others⟩
  | noDeclaration => rfl
  | declaration x right type arity rest ihr ihrest =>
      have first := ihr h free.1 one_apart keeps.1
      have others := ihrest (right.agrees_resolve h) (mem_append_of_without free.2)
        declarations_apart keeps.2.2.2
      exact ⟨_, _, _, _, _, rfl, globals x, first, keeps.2.1, keeps.2.2.1, others⟩

end Likeness

theorem map_resolve_of_agrees {f : Name → Name} (globals : ∀ x, f ⟨x, 0⟩ = ⟨x, 0⟩) {s : Shape}
    (t : Phrase Symbol s) (h : Agrees (fun n m => f n = m) es c d)
    (free : ∀ x ∈ t.free, x.essence ∈ es) (names : s = .group → ∀ x ∈ t.names, x.essence ∈ es) :
    (t.resolve c).1.map f id = (t.resolve d).1 := by
  have like : (t.resolve c).1.Like (fun n m => f n = m) Eq (t.resolve d).1 :=
    t.like_of_agrees globals h free names fun _ _ => rfl
  exact map_eq_of_like like ((t.unnamed_resolve c).trans (t.unnamed_resolve d).symm)

end Phrase

namespace Module

open ScopeResolution.Symbol (mem_append_of_without)
open Context (Agrees)

theorem like_of_agrees {R : Name → Name → Prop} {same : Datum → Datum → Prop} {es : List Essence}
    {c d : Context} (globals : ∀ x, R ⟨x, 0⟩ ⟨x, 0⟩) (m : Module Symbol) (h : Agrees R es c d)
    (free : ∀ x ∈ m.free, x.essence ∈ es) (keeps : ∀ v ∈ m.carried, same v.freeze v.freeze) :
    (m.resolve c).1.Like R same (m.resolve d).1 := by
  simp only [carried, places, List.filterMap_append, List.filterMap_cons, Place.carried?,
    List.mem_append, List.mem_cons, or_imp, forall_and, forall_eq] at keeps
  obtain ⟨classes, definitions, declared, bindings, instances⟩ := keeps
  rw [Module.free, List.forall_mem_append] at free
  have nothing : ∀ x ∈ m.definitions.free, x.essence ∈ es := by
    simp [m.definitions.free_eq_nil rfl]
  have first := m.definitions.agrees_resolve h
  rw [m.definitions.leak_eq_nil rfl] at first
  have second := m.instances.agrees_resolve first
  have bound := mem_append_of_without free.2
  have third := m.bindings.agrees_resolve second
  exact ⟨third.ahead m.name 0, classes,
    m.definitions.like_of_agrees globals h nothing (Shape.noConfusion ·) definitions,
    declared,
    m.bindings.like_of_agrees globals second bound (Shape.noConfusion ·) bindings,
    m.instances.like_of_agrees globals first free.1 (Shape.noConfusion ·) instances⟩

end Module

end ScopeResolution
