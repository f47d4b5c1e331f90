import ScopeResolution.Proofs.Phrase.Likeness

namespace ScopeResolution

theorem Symbol.equal_of_essence {x y : Symbol} (h : x.essence = y.essence) :
    x.datum.Equal y.datum :=
  Datum.equal_of_essence x.regular y.regular h

theorem regular_form {f : Form} {fs : List Datum} (h : fs.length = f.fields.length)
    (regular : ∀ d ∈ fs, d.regular = true) : (Phrase.node f fs).regular = true := by
  have names : (Kind.builtin f).tag.regular fs.length = true := by
    cases f <;> simp_all [Kind.tag, Kind.Tag.regular, Kind.Tag.fields, Form.fields, Own.name]
  simp [Phrase.node, Datum.regular, names, Datum.regular_all_iff.2 regular]

theorem regular_tuple {ds : List Datum} (regular : ∀ d ∈ ds, d.regular = true) :
    (Datum.tuple ds).regular = true :=
  Datum.regular_all_iff.2 regular

namespace Phrase

open Shape (Each)

variable {ν : Type} [Identifier ν]

theorem regular_datum (names : ∀ x : ν, (Identifier.datum x).regular = true) {s : Shape}
    (t : Phrase ν s) (h : ∀ v ∈ t.carried, v.freeze.regular = true) :
    Each (fun d => d.regular = true) t.datum := by
  induction t with
    simp only [carried, places, List.filterMap_append, List.filterMap_cons, List.filterMap_nil,
      Place.carried?, List.mem_append, List.mem_cons, List.not_mem_nil, or_false, or_imp,
      forall_and, forall_eq] at h
  | typed e type location ih => exact regular_form rfl (by simpa using ⟨ih h.1, h.2⟩)
  | located e location ih => exact regular_form rfl (by simpa using ⟨ih h.1, h.2⟩)
  | literal form value =>
      refine regular_form ?_ (by simpa [value.frozen] using h)
      cases form <;> rfl
  | reference x => exact regular_form rfl (by simp [names])
  | apply f a ihf iha => exact regular_form rfl (by simpa using ⟨ihf h.1, iha h.2⟩)
  | lambda x body ih =>
      exact regular_form rfl (List.forall_mem_cons.2
        ⟨names x, List.forall_mem_singleton.2 (ih h)⟩)
  | letIn g body ihg ih =>
      exact regular_form rfl (by simpa using ⟨regular_tuple (ihg h.1), ih h.2⟩)
  | caseOf e alternatives ihe iha =>
      exact regular_form rfl (by simpa using ⟨ihe h.1, regular_tuple (iha h.2)⟩)
  | doBlock statements e ihs ihe =>
      exact regular_form rfl (by simpa using ⟨regular_tuple (ihs h.1), ihe h.2⟩)
  | locatedPattern p location ih => exact regular_form rfl (by simpa using ⟨ih h.1, h.2⟩)
  | numberPattern value => exact regular_form rfl (by simpa [value.frozen] using h)
  | wildCardPattern => rfl
  | identifierPattern x => exact regular_form rfl (by simp [names])
  | constructorPattern x patterns ih =>
      exact regular_form rfl (by simpa [names] using regular_tuple (ih h))
  | alternative p e ihp ihe => exact regular_form rfl (by simpa using ⟨ihp h.1, ihe h.2⟩)
  | doExpr e ih => exact regular_form rfl (List.forall_mem_singleton.2 (ih h))
  | doLet g ih => exact regular_form rfl (by simpa using regular_tuple (ih h))
  | doBind p e ihp ihe => exact regular_form rfl (by simpa using ⟨ihp h.1, ihe h.2⟩)
  | constructor x type tag arity => exact regular_form rfl (by simpa [names] using h)
  | definition constructors type parameters ih =>
      exact regular_form rfl (by simpa using ⟨regular_tuple (ih h.1), h.2⟩)
  | instanceOf bindings constraints type classname ih =>
      exact regular_form rfl (by simpa using ⟨regular_tuple (ih h.1), h.2⟩)
  | nil category => exact List.forall_mem_nil _
  | cons t ts iht ihts => exact List.forall_mem_cons.2 ⟨iht h.1, ihts h.2⟩
  | noBinding => exact List.forall_mem_nil _
  | binding x right type arity rest ihr ihrest =>
      refine List.forall_mem_cons.2 ⟨regular_form rfl ?_, ihrest h.2.2.2⟩
      simpa [names] using ⟨ihr h.1, h.2.1, h.2.2.1⟩
  | noDeclaration => exact List.forall_mem_nil _
  | declaration x right type arity rest ihr ihrest =>
      refine List.forall_mem_cons.2 ⟨regular_form rfl ?_, ihrest h.2.2.2⟩
      simpa [names] using ⟨ihr h.1, h.2.1, h.2.2.1⟩

end Phrase

end ScopeResolution
