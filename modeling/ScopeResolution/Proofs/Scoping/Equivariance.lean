import ScopeResolution.Proofs.Phrase.Places
import ScopeResolution.Proofs.Refinement

namespace ScopeResolution

namespace Symbol

def Faithful (f : Symbol → Symbol) : Prop :=
  ∀ x y, (f x).toKeyed.meets (f y).toKeyed = .ok true ↔ x.toKeyed.meets y.toKeyed = .ok true

theorem meets_iff_essence (x y : Symbol) :
    x.toKeyed.meets y.toKeyed = .ok true ↔ x.essence = y.essence := by
  rw [y.meets_symbol x.toKeyed, Except.ok.injEq, decide_eq_true_eq]
  rfl

theorem Faithful.essence_iff {f : Symbol → Symbol} (h : Faithful f) (x y : Symbol) :
    (f x).essence = (f y).essence ↔ x.essence = y.essence := by
  rw [← meets_iff_essence, ← meets_iff_essence]
  exact h x y

end Symbol

def Name.mapSymbol (f : Symbol → Symbol) (n : Name) : Name :=
  ⟨f n.symbol, n.uid⟩

namespace Context

structure Mirrors (f : Symbol → Symbol) (c c' : Context) : Prop where
  last : c'.last = c.last
  bound : ∀ x, c'.bound (f x).essence = (c.bound x.essence).map (Name.mapSymbol f)

namespace Mirrors

variable {f : Symbol → Symbol} {c c' d d' : Context}

theorem initial : Mirrors f .initial .initial :=
  ⟨rfl, fun _ => rfl⟩

theorem nameOf (h : Mirrors f c c') (x : Symbol) : c'.nameOf (f x) = (c.nameOf x).mapSymbol f := by
  rw [Context.nameOf, Context.nameOf, h.bound]
  cases c.bound x.essence <;> rfl

theorem next (h : Mirrors f c c') (x : Symbol) : c'.next (f x) = (c.next x).mapSymbol f := by
  rw [Context.next, h.last]
  rfl

theorem bind (faithful : Symbol.Faithful f) (h : Mirrors f c c') (x : Symbol) :
    Mirrors f (c.bind x) (c'.bind (f x)) := by
  refine ⟨congrArg (· + 1) h.last, fun y => ?_⟩
  by_cases same : x.essence = y.essence
  · have same' := (faithful.essence_iff x y).2 same
    rw [← same', ← same, bound_bind_self, bound_bind_self, h.next]
    rfl
  · have apart := mt (faithful.essence_iff x y).1 same
    rw [bound_bind_of_ne same, bound_bind_of_ne apart]
    exact h.bound y

theorem bindAll (faithful : Symbol.Faithful f) (h : Mirrors f c c') (xs : List Symbol) :
    Mirrors f (c.bindAll xs) (c'.bindAll (xs.map f)) := by
  induction xs generalizing c c' with
  | nil => exact h
  | cons x xs ih => exact ih (h.bind faithful x)

theorem leave (h : Mirrors f c c') (inner : Mirrors f d d') :
    Mirrors f (c.leave d) (c'.leave d') :=
  ⟨inner.last, h.bound⟩

end Mirrors

end Context

open Context (Mirrors)

namespace Phrase

variable {f : Symbol → Symbol}

structure Carries (f : Symbol → Symbol) {s : Shape} (t : Phrase Symbol s) (c c' : Context) :
    Prop where
  names : ((t.map f id).resolve c').1 = (t.resolve c).1.map (Name.mapSymbol f) id
  mirrors : Mirrors f (t.resolve c).2 ((t.map f id).resolve c').2

theorem carries (faithful : Symbol.Faithful f) {s : Shape} (t : Phrase Symbol s) {c c' : Context}
    (h : Mirrors f c c') : t.Carries f c c' := by
  induction t generalizing c c' with
  | typed e type location ih =>
      exact ⟨by simp [map, resolve, (ih h).names], (ih h).mirrors⟩
  | located e location ih =>
      exact ⟨by simp [map, resolve, (ih h).names], (ih h).mirrors⟩
  | literal => exact ⟨rfl, h⟩
  | reference x => exact ⟨by simp [map, resolve, h.nameOf], h⟩
  | apply e a ihe iha =>
      have second := iha (ihe h).mirrors
      exact ⟨by simp [map, resolve, (ihe h).names, second.names], second.mirrors⟩
  | lambda x body ih =>
      have inner := ih (h.bind faithful x)
      exact ⟨by simp [map, resolve, h.next, inner.names], h.leave inner.mirrors⟩
  | letIn g body ihg ih =>
      have group := ihg (h.bindAll faithful g.names)
      rw [← names_map f id g] at group
      have inner := ih group.mirrors
      exact ⟨by simp [map, resolve, group.names, inner.names], h.leave inner.mirrors⟩
  | caseOf e alternatives ihe iha =>
      have last := ihe (iha h).mirrors
      exact ⟨by simp [map, resolve, (iha h).names, last.names], last.mirrors⟩
  | doBlock statements e ihs ihe =>
      have last := ihe (ihs h).mirrors
      exact ⟨by simp [map, resolve, (ihs h).names, last.names], last.mirrors⟩
  | locatedPattern p location ih =>
      exact ⟨by simp [map, resolve, (ih h).names], (ih h).mirrors⟩
  | numberPattern => exact ⟨rfl, h⟩
  | wildCardPattern => exact ⟨rfl, h⟩
  | identifierPattern x => exact ⟨by simp [map, resolve, h.next], h.bind faithful x⟩
  | constructorPattern x patterns ih =>
      exact ⟨by simp [map, resolve, (ih h).names, Name.mapSymbol], (ih h).mirrors⟩
  | alternative p e ihp ihe =>
      have inner := ihe (ihp h).mirrors
      exact ⟨by simp [map, resolve, (ihp h).names, inner.names], h.leave inner.mirrors⟩
  | doExpr e ih => exact ⟨by simp [map, resolve, (ih h).names], (ih h).mirrors⟩
  | doLet g ih =>
      have group := ih (h.bindAll faithful g.names)
      rw [← names_map f id g] at group
      exact ⟨by simp [map, resolve, group.names], group.mirrors⟩
  | doBind p e ihp ihe =>
      have right := ihe (ihp h).mirrors
      exact ⟨by simp [map, resolve, (ihp h).names, right.names], right.mirrors⟩
  | constructor => exact ⟨rfl, h⟩
  | definition constructors type parameters ih =>
      exact ⟨by simp [map, resolve, (ih h).names], (ih h).mirrors⟩
  | instanceOf bindings constraints type classname ih =>
      exact ⟨by simp [map, resolve, (ih h).names], (ih h).mirrors⟩
  | nil => exact ⟨rfl, h⟩
  | cons t ts iht ihts =>
      have rest := ihts (iht h).mirrors
      exact ⟨by simp [map, resolve, (iht h).names, rest.names], rest.mirrors⟩
  | noBinding => exact ⟨rfl, h⟩
  | binding x right type arity rest ihr ihrest =>
      have others := ihrest (ihr h).mirrors
      exact ⟨by simp [map, resolve, h.nameOf, (ihr h).names, others.names], others.mirrors⟩
  | noDeclaration => exact ⟨rfl, h⟩
  | declaration x right type arity rest ihr ihrest =>
      have others := ihrest (ihr h).mirrors
      exact ⟨by simp [map, resolve, (ihr h).names, others.names, Name.mapSymbol], others.mirrors⟩

end Phrase

namespace Module

theorem names_resolve_map {f : Symbol → Symbol} (faithful : Symbol.Faithful f) (m : Module Symbol)
    {c c' : Context} (h : Mirrors f c c') :
    ((m.map f id).resolve c').1 = (m.resolve c).1.map (Name.mapSymbol f) id := by
  have definitions := m.definitions.carries faithful h
  have instances := m.instances.carries faithful definitions.mirrors
  have bindings := m.bindings.carries faithful instances.mirrors
  simp [map, resolve, definitions.names, instances.names, bindings.names, bindings.mirrors.next]

end Module

namespace Renaming

theorem renamed_equivariant (extent : Extent) (f : Symbol → Symbol) (faithful : Symbol.Faithful f)
    (t : Phrase Symbol (.one .expression)) (m : Module Symbol) :
    ((t.datum.renamed extent).1 = .ok (t.resolve .initial).1.datum ∧
      ((t.map f id).datum.renamed extent).1 =
        .ok ((t.resolve .initial).1.map (Name.mapSymbol f) id).datum) ∧
    (m.datum.renamed .module).1 = .ok (m.resolve .initial).1.datum ∧
      ((m.map f id).datum.renamed .module).1 =
        .ok ((m.resolve .initial).1.map (Name.mapSymbol f) id).datum := by
  refine ⟨⟨t.ok_renamed extent, ?_⟩, m.ok_renamed, ?_⟩
  · rw [(t.map f id).ok_renamed extent, (t.carries faithful Mirrors.initial).names]
  · rw [(m.map f id).ok_renamed, m.names_resolve_map faithful Mirrors.initial]

def boxed (x : Symbol) : Symbol where
  datum := .name (.tuple [x.datum]) .null
  key := .tuple [.tuple [x.key], .null]
  key_eq := by simp [Datum.key, Datum.key.keys, x.key_eq, bind, Except.bind, pure, Except.pure,
    Except.map]
  regular := by simp [Datum.regular, Datum.regular.all, x.regular]

theorem faithful_boxed : Symbol.Faithful boxed := by
  intro x y
  rw [Symbol.meets_iff_essence, Symbol.meets_iff_essence]
  simp [boxed, Symbol.essence, Datum.essence, Datum.essence.essences]

def crossTypedGroup : Phrase Symbol (.one .expression) :=
  let one := Symbol.ofInt 1
  let true := Symbol.ofBool true
  let block := .doBlock (.cons (.doBind (.identifierPattern true) (.reference one))
    (.nil .statement)) (.reference true)
  .letIn (.binding one block .null (.int 0) (.binding true (.reference one) .null (.int 0)
    .noBinding)) (.apply (.reference one) (.reference (.ofText "g")))

def crossTypedGroups : Module Symbol where
  name := .ofText "m"
  classes := .null
  definitions := .nil .definition
  declared := .null
  bindings := .declaration (.ofInt 1) crossTypedGroup .null (.int 0) .noDeclaration
  instances := .nil .instanceOf

theorem crossTypedGroup_boxed :
    Symbol.Faithful boxed ∧
      ((crossTypedGroup.map boxed id).datum.renamed .expression).1 =
        .ok ((crossTypedGroup.resolve .initial).1.map (Name.mapSymbol boxed) id).datum ∧
      (crossTypedGroup.resolve .initial).1.sites.map (·.2.uid) = [3, 4, 4, 4, 4, 4, 4, 0] ∧
      ((crossTypedGroups.map boxed id).datum.renamed .module).1 =
        .ok ((crossTypedGroups.resolve .initial).1.map (Name.mapSymbol boxed) id).datum := by
  obtain ⟨⟨_, tree⟩, _, module⟩ :=
    renamed_equivariant .expression boxed faithful_boxed crossTypedGroup crossTypedGroups
  exact ⟨faithful_boxed, tree, rfl, module⟩

end Renaming

end ScopeResolution
