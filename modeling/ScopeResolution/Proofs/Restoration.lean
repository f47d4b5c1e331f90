import ScopeResolution.Proofs.Phrase.Regular
import ScopeResolution.Proofs.Refinement

namespace ScopeResolution

namespace Context

theorem Sound.essence_nameOf {c : Context} (h : c.Sound) (x : Symbol) :
    (c.nameOf x).symbol.essence = x.essence := by
  cases bound : c.bound x.essence with
  | none => rw [nameOf, bound, Option.getD_none]
  | some n =>
      rw [nameOf_of_bound bound]
      exact (h x.essence n bound).1

end Context

namespace Phrase

theorem sound_resolve {s : Shape} (t : Phrase Symbol s) {c : Context} (h : c.Sound) :
    (t.resolve c).2.Sound := by
  rw [(t.scoping_resolve c).2]
  exact Scoping.sound_resolve h

section Restoration

variable {R : Name → Symbol → Prop} {same : Datum → Datum → Prop}

theorem like_resolve (names : ∀ n x, n.symbol.essence = x.essence → R n x) {s : Shape}
    (t : Phrase Symbol s) {c : Context} (h : c.Sound)
    (keeps : ∀ v ∈ t.carried, same v.freeze v.freeze) : (t.resolve c).1.Like R same t := by
  induction t generalizing c with
    simp only [carried, places, List.filterMap_append, List.filterMap_cons, List.filterMap_nil,
      Place.carried?, List.mem_append, List.mem_cons, List.not_mem_nil, or_false, or_imp,
      forall_and, forall_eq] at keeps
  | typed e type location ih => exact ⟨_, _, _, rfl, ih h keeps.1, keeps.2⟩
  | located e location ih => exact ⟨_, _, rfl, ih h keeps.1, keeps.2⟩
  | literal form value => exact ⟨_, rfl, value.frozen ▸ keeps⟩
  | reference x => exact ⟨_, rfl, names _ _ (h.essence_nameOf x)⟩
  | apply e a ihe iha => exact ⟨_, _, rfl, ihe h keeps.1, iha (e.sound_resolve h) keeps.2⟩
  | lambda x body ih => exact ⟨_, _, rfl, names _ _ rfl, ih (h.bind x) keeps⟩
  | letIn g body ihg ih =>
      have inner := h.bindAll g.names
      exact ⟨_, _, rfl, ihg inner keeps.1, ih (g.sound_resolve inner) keeps.2⟩
  | caseOf e alternatives ihe iha =>
      exact ⟨_, _, rfl, ihe (alternatives.sound_resolve h) keeps.1, iha h keeps.2⟩
  | doBlock statements e ihs ihe =>
      exact ⟨_, _, rfl, ihs h keeps.1, ihe (statements.sound_resolve h) keeps.2⟩
  | locatedPattern p location ih => exact ⟨_, _, rfl, ih h keeps.1, keeps.2⟩
  | numberPattern value => exact ⟨_, rfl, value.frozen ▸ keeps⟩
  | wildCardPattern => exact rfl
  | identifierPattern x => exact ⟨_, rfl, names _ _ rfl⟩
  | constructorPattern x patterns ih => exact ⟨_, _, rfl, names _ _ rfl, ih h keeps⟩
  | alternative p e ihp ihe => exact ⟨_, _, rfl, ihp h keeps.1, ihe (p.sound_resolve h) keeps.2⟩
  | doExpr e ih => exact ⟨_, rfl, ih h keeps⟩
  | doLet g ih => exact ⟨_, rfl, ih (h.bindAll g.names) keeps⟩
  | doBind p e ihp ihe => exact ⟨_, _, rfl, ihp h keeps.1, ihe (p.sound_resolve h) keeps.2⟩
  | constructor x type tag arity => exact ⟨_, _, _, _, rfl, names _ _ rfl, keeps⟩
  | definition constructors type parameters ih => exact ⟨_, _, _, rfl, ih h keeps.1, keeps.2⟩
  | instanceOf bindings constraints type classname ih =>
      exact ⟨_, _, _, _, rfl, ih h keeps.1, keeps.2⟩
  | nil category => exact rfl
  | cons t ts iht ihts => exact ⟨_, _, rfl, iht h keeps.1, ihts (t.sound_resolve h) keeps.2⟩
  | noBinding => exact rfl
  | binding x right type arity rest ihr ihrest =>
      refine ⟨_, _, _, _, _, rfl, names _ _ (h.essence_nameOf x), ihr h keeps.1, keeps.2.1, ?_⟩
      exact ⟨keeps.2.2.1, ihrest (right.sound_resolve h) keeps.2.2.2⟩
  | noDeclaration => exact rfl
  | declaration x right type arity rest ihr ihrest =>
      refine ⟨_, _, _, _, _, rfl, names _ _ rfl, ihr h keeps.1, keeps.2.1, ?_⟩
      exact ⟨keeps.2.2.1, ihrest (right.sound_resolve h) keeps.2.2.2⟩

end Restoration

def restored {s : Shape} (t : Phrase Name s) : Phrase Symbol s :=
  t.map Name.symbol id

end Phrase

namespace Module

theorem like_resolve {R : Name → Symbol → Prop} {same : Datum → Datum → Prop}
    (names : ∀ n x, n.symbol.essence = x.essence → R n x) (m : Module Symbol) {c : Context}
    (h : c.Sound) (keeps : ∀ v ∈ m.carried, same v.freeze v.freeze) :
    (m.resolve c).1.Like R same m := by
  simp only [carried, places, List.filterMap_append, List.filterMap_cons, Place.carried?,
    List.mem_append, List.mem_cons, or_imp, forall_and, forall_eq] at keeps
  obtain ⟨classes, definitions, declared, bindings, instances⟩ := keeps
  have first := m.definitions.sound_resolve h
  have second := m.instances.sound_resolve first
  exact ⟨names _ _ rfl, classes, m.definitions.like_resolve names h definitions, declared,
    m.bindings.like_resolve names second bindings,
    m.instances.like_resolve names first instances⟩

def restored (m : Module Name) : Module Symbol :=
  m.map Name.symbol id

end Module

namespace Renaming

section Equality

open Phrase Datum

theorem restored_equal (t : Phrase Symbol (.one .expression))
    (h : ∀ v ∈ t.carried, v.freeze.Equal v.freeze) :
    (t.resolve .initial).1.restored.datum.Equal t.datum := by
  have like := t.like_resolve (fun _ _ => Symbol.equal_of_essence) Context.sound_initial h
  have agree := (agree_reduces partwise_equal Name.symbol id _ t).intro like
  rw [map_id] at agree
  exact agree

theorem restored_module_equal (m : Module Symbol) (h : ∀ v ∈ m.carried, v.freeze.Equal v.freeze) :
    (m.resolve .initial).1.restored.datum.Equal m.datum := by
  have like := m.like_resolve (fun _ _ => Symbol.equal_of_essence) Context.sound_initial h
  have equal := Module.equal_of_like partwise_equal Name.symbol id like
  rw [Module.map_id] at equal
  exact equal

end Equality

/-- Trees and modules are renamed without a fault. In the result each identifier is a name of a
symbol equal to the one that stood there, and literals and the data carried along are the same; with
symbols in the places of its names it equals what it came from, if the data equal themselves. The
names are the same whatever the data are. -/
theorem renamed_restores (t : Phrase Symbol (.one .expression)) (m : Module Symbol) :
    ((t.datum.renamed .expression).1 = .ok (t.resolve .initial).1.datum ∧
      (t.resolve .initial).1.Like (fun n x => n.symbol.datum.Equal x.datum) Eq t ∧
      ((∀ v ∈ t.carried, v.freeze.Equal v.freeze) →
        (t.resolve .initial).1.restored.datum.Equal t.datum) ∧
      ∀ u : Phrase Symbol (.one .expression), u.bare = t.bare →
        (u.resolve .initial).1.bare = (t.resolve .initial).1.bare) ∧
    (m.datum.renamed .module).1 = .ok (m.resolve .initial).1.datum ∧
      (m.resolve .initial).1.Like (fun n x => n.symbol.datum.Equal x.datum) Eq m ∧
      ((∀ v ∈ m.carried, v.freeze.Equal v.freeze) →
        (m.resolve .initial).1.restored.datum.Equal m.datum) ∧
      ∀ n : Module Symbol, n.bare = m.bare →
        (n.resolve .initial).1.bare = (m.resolve .initial).1.bare := by
  have sound := Context.sound_initial
  refine ⟨⟨t.ok_renamed .expression, ?_, restored_equal t, fun u same => ?_⟩, m.ok_renamed, ?_,
    restored_module_equal m, fun n same => ?_⟩
  · exact t.like_resolve (fun _ _ => Symbol.equal_of_essence) sound fun _ _ => rfl
  · rw [u.bare_resolve, t.bare_resolve, same]
  · exact m.like_resolve (fun _ _ => Symbol.equal_of_essence) sound fun _ _ => rfl
  · rw [n.bare_resolve, m.bare_resolve, same]

def crossTyped : Phrase Symbol (.one .expression) :=
  .located (.lambda (.ofInt 1) (.reference (.ofBool true)))
    (.list [.list [], .int 7])

def crossTypedModule : Module Symbol where
  name := .ofText "m"
  classes := .list [.list []]
  definitions := .nil .definition
  declared := .null
  bindings := .declaration (.ofText "f") crossTyped .null (.int 0) .noDeclaration
  instances := .nil .instanceOf

theorem crossTyped_restored :
    (crossTyped.resolve .initial).1.restored.datum.Equal crossTyped.datum ∧
      (crossTypedModule.resolve .initial).1.restored.datum.Equal crossTypedModule.datum ∧
      ((crossTyped.map id fun _ => .text "a").resolve .initial).1.bare =
        (crossTyped.resolve .initial).1.bare := by
  obtain ⟨⟨_, _, tree, alike⟩, _, _, module, _⟩ := renamed_restores crossTyped crossTypedModule
  have regular : ∀ v ∈ crossTyped.carried, v.freeze.regular = true := by decide
  have regular' : ∀ v ∈ crossTypedModule.carried, v.freeze.regular = true := by decide
  refine ⟨tree fun v hv => ?_, module fun v hv => ?_, alike _ rfl⟩
  · exact Datum.equal_of_essence (regular v hv) (regular v hv) rfl
  · exact Datum.equal_of_essence (regular' v hv) (regular' v hv) rfl

theorem refused_or_unequal :
    let x := Datum.node (.derived 0 none "Opaque" ["iter_fields"] [] (.builtin .node)) [.text "x"]
    let tree := Datum.ofForm .lambda [x, .ofForm .number [.int 1]]
    let number : Phrase Symbol (.one .expression) :=
      .literal .rational ⟨.real ⟨"nan"⟩, rfl, rfl, rfl⟩
    (∃ k, x.keyed = .ok k) ∧
      (tree.renamed .expression).1 = .error (.notCallable (.text "x")) ∧
      (number.datum.renamed .expression).1 = .ok number.datum ∧
      number.datum.equals number.datum = .ok false := by
  intro x tree number
  have refused : (tree.renamed .expression).1 = .error (.notCallable (.text "x")) := by
    rw [Datum.renamed, Resolver.rename_eq_recurse, Traversal.Visitor.recurse_eq]
    rfl
  exact ⟨⟨_, rfl⟩, refused, number.ok_renamed .expression, rfl⟩

end Renaming

end ScopeResolution
