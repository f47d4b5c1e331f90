import ScopeResolution.Proofs.Phrase.Told

namespace ScopeResolution

open Datum Traversal Renaming

def Form.category? : Form → Option Category
  | .typedExpr | .number | .rational | .string | .char | .identifier | .apply | .lambda | .letIn
  | .caseOf | .doBlock => some .expression
  | .numberPattern | .wildCardPattern | .identifierPattern | .constructorPattern => some .pattern
  | .alternative => some .alternative
  | .doExpr | .doLet | .doBind => some .statement
  | .constructor => some .constructor
  | .dataDefinition => some .definition
  | .instanceOf => some .instanceOf
  | _ => none

def Datum.category? : Datum → Option Category
  | .node (.builtin .located) [inner, _] => inner.category?
  | .node (.builtin f) _ => f.category?
  | _ => none

namespace Datum

inductive Reads (ν : Type) [Identifier ν] (d : Datum) : Prop where
  | phrase {c : Category} (t : Phrase ν (.one c)) (same : d = t.datum)
  | module (m : Module ν) (same : d = m.datum)

def WellFormed (d : Datum) : Prop :=
  ∃ (ν : Type) (_ : Identifier ν), d.Reads ν

inductive Bears (d : Datum) : Datum → Prop where
  | phrase {ν : Type} [Identifier ν] {c : Category} (t : Phrase ν (.one c)) (same : d = t.datum)
      {p : Role × ν} (site : p ∈ t.sites) : Bears d (Identifier.datum p.2)
  | module {ν : Type} [Identifier ν] (m : Module ν) (same : d = m.datum) {p : Role × ν}
      (site : p ∈ m.sites) : Bears d (Identifier.datum p.2)

end Datum

namespace Phrase

variable {ν μ : Type} [Identifier ν] [Identifier μ]

theorem category?_datum : {c : Category} → (t : Phrase ν (.one c)) → t.datum.category? = some c
  | _, .located e _ => category?_datum e
  | _, .locatedPattern p _ => category?_datum p
  | _, .literal f _ => by cases f <;> rfl
  | _, .typed .. | _, .reference _ | _, .apply .. | _, .lambda .. | _, .letIn .. | _, .caseOf ..
  | _, .doBlock .. | _, .numberPattern _ | _, .wildCardPattern | _, .identifierPattern _
  | _, .constructorPattern .. | _, .alternative .. | _, .doExpr _ | _, .doLet _ | _, .doBind ..
  | _, .constructor .. | _, .definition .. | _, .instanceOf .. => rfl

theorem category_eq {c c' : Category} {t : Phrase ν (.one c)} {u : Phrase μ (.one c')}
    (same : t.datum = u.datum) : c = c' := by
  have found := t.category?_datum
  rw [same, u.category?_datum] at found
  exact (Option.some.inj found).symm

theorem like_of_datum {s : Shape} {t : Phrase ν s} {u : Phrase μ s} (same : t.datum = u.datum) :
    t.Like (fun x y => Identifier.datum x = Identifier.datum y) Eq u := by
  have reduced := agree_reduces partwise_eq id id t u
  rw [map_id, map_id] at reduced
  have each (v : s.Tree) : Shape.Each (fun _ => True) v := by
    cases s <;> simp [Shape.Each]
  have agree : Shape.Agree Eq t.datum u.datum := by
    rw [same]
    cases s <;> simp [Shape.Agree]
  exact reduced.elim ⟨each _, each _⟩ agree

end Phrase

namespace Module

variable {ν μ : Type} [Identifier ν] [Identifier μ]

theorem category?_datum (m : Module ν) : m.datum.category? = none := rfl

theorem like_of_datum {m : Module ν} {n : Module μ} (same : m.datum = n.datum) :
    m.Like (fun x y => Identifier.datum x = Identifier.datum y) Eq n := by
  simp only [datum, Phrase.node, Datum.node.injEq, List.cons.injEq, Datum.tuple.injEq, and_true,
    true_and] at same
  obtain ⟨name, classes, definitions, declared, bindings, instances⟩ := same
  refine ⟨name, classes, ?_, declared, ?_, ?_⟩
  · exact Phrase.like_of_datum definitions
  · exact Phrase.like_of_datum bindings
  · exact Phrase.like_of_datum instances

end Module

def Datum.AllTold (d : Datum) (l : List Datum) : Prop :=
  d.Reads Mark ∧ ∀ x, d.Bears x → ∃ n : Mark, x = n.datum ∧ n.Told l

section AllTold

variable {ν : Type} [Identifier ν] {l : List Datum}

theorem exists_told {us : List (Role × Mark.In l)} {vs : List (Role × ν)} {p : Role × ν}
    (facing : List.Forall₂ (Phrase.Facing fun x y => Identifier.datum x = Identifier.datum y) vs us)
    (site : p ∈ vs) : ∃ n : Mark, Identifier.datum p.2 = n.datum ∧ n.Told l := by
  induction facing with
  | nil => cases site
  | @cons q n _ _ head _ ih =>
      rcases List.mem_cons.1 site with rfl | later
      · exact ⟨n.2.1, head.2, n.2.2⟩
      · exact ih later

theorem Shape.Told.allTold {c : Category} {d : Datum} (h : (Shape.one c).Told d l) :
    d.AllTold l := by
  obtain ⟨u, rfl⟩ := h
  have plain : (u.map Subtype.val id).datum = u.datum :=
    Phrase.datum_map (f := Subtype.val) (fun _ => rfl) u
  refine ⟨.phrase _ plain.symm, fun x bears => ?_⟩
  cases bears with
  | phrase t same site =>
      cases Phrase.category_eq same
      exact exists_told (Phrase.sites_of_like (Phrase.like_of_datum same.symm)) site
  | module m same site =>
      have none := m.category?_datum
      rw [← same, u.category?_datum] at none
      cases none

theorem Module.Told.allTold {d : Datum} (h : Module.Told d l) : d.AllTold l := by
  obtain ⟨u, rfl⟩ := h
  have plain : (u.map Subtype.val id).datum = u.datum :=
    Module.datum_map (f := Subtype.val) (fun _ => rfl) u
  refine ⟨.module _ plain.symm, fun x bears => ?_⟩
  cases bears with
  | phrase t same site =>
      have none := u.category?_datum
      rw [same, t.category?_datum] at none
      cases none
  | module m same site =>
      exact exists_told (Module.sites_of_like (Module.like_of_datum same.symm)) site

end AllTold

theorem Resolver.rename_allTold {r : Resolver} {l : List Datum} (told : r.Ledger l)
    (extent : Extent) (tree : Datum) :
    ∃ xs, r.Issues ((visitor extent).effects tree r) xs (r.rename extent tree).2 ∧
      (tree.WellFormed → ∀ v, (r.rename extent tree).1 = .ok v → v.AllTold (l ++ xs)) := by
  rw [rename_eq_recurse]
  by_cases formed : tree.WellFormed
  · obtain ⟨ν, _, reads⟩ := id formed
    cases reads with
    | phrase t same =>
        subst same
        obtain ⟨xs, issues, returned⟩ := recurse_of_tracked (t.answers extent l) told
        exact ⟨xs, issues, fun _ v ok => (returned v ok).allTold⟩
    | module m same =>
        subst same
        obtain ⟨xs, issues, returned⟩ := recurse_of_tracked (m.answers extent l) told
        exact ⟨xs, issues, fun _ v ok => (returned v ok).allTold⟩
  · obtain ⟨xs, issues, _⟩ := recurse_of_tracked (issuing_visits extent tree l) told
    exact ⟨xs, issues, fun reads => absurd reads formed⟩

end ScopeResolution
