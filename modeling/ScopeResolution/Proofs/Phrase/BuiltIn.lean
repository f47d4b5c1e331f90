import ScopeResolution.Proofs.Datum.Untied
import ScopeResolution.Proofs.Phrase.Places

namespace ScopeResolution

open Datum

theorem Datum.builtIn_node {f : Form} {fs : List Datum} (full : f.fields.length = fs.length)
    (fields : ∀ v ∈ fs, v.freeze = v ∧ ∀ c ∈ v.nodesIn, c.BuiltIn) :
    (Phrase.node f fs).BuiltIn :=
  .node f full (fun v hv => (fields v hv).1) fun v hv => (fields v hv).2

namespace Place

variable {ν : Type} [Identifier ν]

def BuiltIn : Place ν → Prop
  | .identifier _ x => (Identifier.datum x).nodesIn = []
  | .literal _ => True
  | .exposed v => ∀ c ∈ v.freeze.nodesIn, c.BuiltIn
  | .sealed v => ∀ c ∈ v.freeze.nodesIn, c.BuiltIn

@[simp]
theorem builtIn_identifier (role : Role) (x : ν) :
    (identifier role x).BuiltIn ↔ (Identifier.datum x).nodesIn = [] := Iff.rfl

@[simp]
theorem builtIn_exposed (v : Datum) :
    (exposed v : Place ν).BuiltIn ↔ ∀ c ∈ v.freeze.nodesIn, c.BuiltIn := Iff.rfl

@[simp]
theorem builtIn_sealed (v : Datum) :
    («sealed» v : Place ν).BuiltIn ↔ ∀ c ∈ v.freeze.nodesIn, c.BuiltIn := Iff.rfl

theorem builtIn_of_parts {ps : List (Place ν)}
    (plain : ∀ p ∈ ps.filterMap identifier?, (Identifier.datum p.2).nodesIn = [])
    (carried : ∀ v ∈ ps.filterMap carried?, ∀ c ∈ v.freeze.nodesIn, c.BuiltIn) :
    ∀ p ∈ ps, p.BuiltIn := by
  intro p hp
  cases p with
  | identifier role x => exact plain (role, x) (List.mem_filterMap.2 ⟨_, hp, rfl⟩)
  | literal l => exact trivial
  | exposed v => exact carried v (List.mem_filterMap.2 ⟨_, hp, rfl⟩)
  | «sealed» v => exact carried v (List.mem_filterMap.2 ⟨_, hp, rfl⟩)

end Place

namespace Shape

def BuiltIn : {s : Shape} → s.Tree → Prop
  | .one _, d => d.BuiltIn
  | .many _, ds => ∀ d ∈ ds, d.BuiltIn
  | .group, ds => ∀ d ∈ ds, d.BuiltIn
  | .declarations, ds => ∀ d ∈ ds, d.BuiltIn

end Shape

namespace Phrase

variable {ν : Type} [Identifier ν]

theorem nodesIn_datum {c : Category} (t : Phrase ν (.one c)) : t.datum.nodesIn = [t.datum] := by
  cases t <;> rfl

theorem mem_nodesIn_tuple {c : Datum} {ds : List Datum} :
    c ∈ (tuple ds).nodesIn ↔ c ∈ ds ∧ c.isNode = true :=
  List.mem_filter

theorem builtIn_datum {s : Shape} (t : Phrase ν s) (h : ∀ p ∈ t.places, p.BuiltIn) :
    Shape.BuiltIn t.datum := by
  induction t with
    simp only [places, List.forall_mem_append, List.forall_mem_cons, Place.builtIn_identifier,
      Place.builtIn_exposed, Place.builtIn_sealed] at h
  | literal f value =>
      refine builtIn_node (by cases f <;> rfl) ?_
      simp [Literal.nodesIn_datum, value.frozen]
  | nil category => exact List.forall_mem_nil _
  | noBinding => exact List.forall_mem_nil _
  | noDeclaration => exact List.forall_mem_nil _
  | cons t ts iht ihts => exact List.forall_mem_cons.2 ⟨iht h.1, ihts h.2⟩
  | binding x right type arity rest ihr ihrest =>
      refine List.forall_mem_cons.2 ⟨builtIn_node rfl ?_, ihrest h.2.2.2.2⟩
      simp_all [Shape.BuiltIn, nodesIn_datum]
  | declaration x right type arity rest ihr ihrest =>
      refine List.forall_mem_cons.2 ⟨builtIn_node rfl ?_, ihrest h.2.2.2.2⟩
      simp_all [Shape.BuiltIn, nodesIn_datum]
  | _ =>
      refine builtIn_node rfl ?_
      simp_all [Shape.BuiltIn, nodesIn_datum, Literal.nodesIn_datum, Literal.frozen,
        mem_nodesIn_tuple]

end Phrase

namespace Module

variable {ν : Type} [Identifier ν]

theorem builtIn_datum (m : Module ν) (h : ∀ p ∈ m.places, p.BuiltIn) : m.datum.BuiltIn := by
  simp only [places, List.forall_mem_append, List.forall_mem_cons, Place.builtIn_identifier,
    Place.builtIn_exposed] at h
  have definitions := m.definitions.builtIn_datum
  have bindings := m.bindings.builtIn_datum
  have instances := m.instances.builtIn_datum
  refine builtIn_node rfl ?_
  simp_all [Shape.BuiltIn, Phrase.mem_nodesIn_tuple]

end Module

end ScopeResolution
