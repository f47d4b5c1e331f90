import ScopeResolution.Proofs.Datum.Comparison
import ScopeResolution.Proofs.Phrase.Places

namespace ScopeResolution

structure Reduces (D A P : Prop) : Prop where
  intro : P → A
  elim : D → A → P

namespace Reduces

variable {D A P Q : Prop}

theorem iff (h : Reduces D A P) (d : D) : A ↔ P :=
  ⟨h.elim d, h.intro⟩

theorem congr (h : Reduces D A P) (same : P ↔ Q) : Reduces D A Q :=
  ⟨fun q => h.intro (same.2 q), fun d a => same.1 (h.elim d a)⟩

theorem refl (D A : Prop) : Reduces D A A :=
  ⟨id, fun _ => id⟩

end Reduces

/-- A notion of equality that is decided part by part. Equal parts make equal trees; equal trees of
a domain have equal parts. -/
structure Partwise (D : Datum → Prop) (E : Datum → Datum → Prop) : Prop where
  fields : ∀ {f fs}, D (.node (.builtin f) fs) → ∀ x ∈ fs, D x
  items : ∀ {xs}, D (.tuple xs) → ∀ x ∈ xs, D x
  node : ∀ {f g fs gs}, Reduces (D (.node (.builtin f) fs) ∧ D (.node (.builtin g) gs))
    (E (.node (.builtin f) fs) (.node (.builtin g) gs)) (f = g ∧ List.Forall₂ E fs gs)
  tuple : ∀ {xs ys}, Reduces (D (.tuple xs) ∧ D (.tuple ys))
    (E (.tuple xs) (.tuple ys)) (List.Forall₂ E xs ys)

namespace Partwise

variable {D : Datum → Prop} {E : Datum → Datum → Prop}

theorem apart (h : Partwise D E) {f g : Form} {fs gs : List Datum} {P : Prop} (differ : f ≠ g)
    (fails : ¬ P) : Reduces (D (.node (.builtin f) fs) ∧ D (.node (.builtin g) gs))
      (E (.node (.builtin f) fs) (.node (.builtin g) gs)) P :=
  ⟨fun holds => absurd holds fails, fun domain equal => absurd (h.node.elim domain equal).1 differ⟩

inductive Fields (D : Datum → Prop) (E : Datum → Datum → Prop) :
    List Datum → List Datum → Prop → Prop where
  | nil : Fields D E [] [] True
  | cons {x y : Datum} {xs ys : List Datum} {P Q : Prop} (head : Reduces (D x ∧ D y) (E x y) P)
      (tail : Fields D E xs ys Q) : Fields D E (x :: xs) (y :: ys) (P ∧ Q)

theorem Fields.same {x y : Datum} {xs ys : List Datum} {Q : Prop} (tail : Fields D E xs ys Q) :
    Fields D E (x :: xs) (y :: ys) (E x y ∧ Q) :=
  .cons (.refl _ _) tail

theorem reduces_cons {x y : Datum} {xs ys : List Datum} {P Q : Prop}
    (head : Reduces (D x ∧ D y) (E x y) P)
    (tail : Reduces ((∀ d ∈ xs, D d) ∧ ∀ d ∈ ys, D d) (List.Forall₂ E xs ys) Q) :
    Reduces ((∀ d ∈ x :: xs, D d) ∧ ∀ d ∈ y :: ys, D d) (List.Forall₂ E (x :: xs) (y :: ys))
      (P ∧ Q) := by
  refine ⟨fun both => .cons (head.intro both.1) (tail.intro both.2), ?_⟩
  rintro ⟨hx, hy⟩ equal
  rw [List.forall_mem_cons] at hx hy
  obtain ⟨first, others⟩ := List.forall₂_cons.1 equal
  exact ⟨head.elim ⟨hx.1, hy.1⟩ first, tail.elim ⟨hx.2, hy.2⟩ others⟩

theorem Fields.reduces {fs gs : List Datum} {P : Prop} (h : Fields D E fs gs P) :
    Reduces ((∀ d ∈ fs, D d) ∧ ∀ d ∈ gs, D d) (List.Forall₂ E fs gs) P := by
  induction h with
  | nil => exact ⟨fun _ => .nil, fun _ _ => trivial⟩
  | cons head _ ih => exact reduces_cons head ih

theorem node_of_fields (h : Partwise D E) {f g : Form} {fs gs : List Datum} {P : Prop}
    (fields : Fields D E fs gs P) : Reduces (D (.node (.builtin f) fs) ∧ D (.node (.builtin g) gs))
      (E (.node (.builtin f) fs) (.node (.builtin g) gs)) (f = g ∧ P) := by
  have parts := fields.reduces
  refine ⟨fun both => h.node.intro ⟨both.1, parts.intro both.2⟩, fun domain equal => ?_⟩
  obtain ⟨same, agree⟩ := h.node.elim domain equal
  exact ⟨same, parts.elim ⟨h.fields domain.1, h.fields domain.2⟩ agree⟩

theorem tuple_of_items (h : Partwise D E) {xs ys : List Datum} {P : Prop}
    (items : Reduces ((∀ d ∈ xs, D d) ∧ ∀ d ∈ ys, D d) (List.Forall₂ E xs ys) P) :
    Reduces (D (.tuple xs) ∧ D (.tuple ys)) (E (.tuple xs) (.tuple ys)) P :=
  ⟨fun holds => h.tuple.intro (items.intro holds), fun domain equal =>
    items.elim ⟨h.items domain.1, h.items domain.2⟩ (h.tuple.elim domain equal)⟩

end Partwise

theorem partwise_eq : Partwise (fun _ => True) Eq := by
  refine ⟨fun _ _ _ => trivial, fun _ _ _ => trivial, ?_, ?_⟩
  · intro f g fs gs
    rw [List.forall₂_eq_eq_eq, Datum.node.injEq, Kind.builtin.injEq]
    exact .refl _ _
  · intro xs ys
    rw [List.forall₂_eq_eq_eq, Datum.tuple.injEq]
    exact .refl _ _

theorem partwise_equal : Partwise (fun d => d.regular = true) Datum.Equal := by
  refine ⟨fun h => ?_, fun h => ?_, ?_, ?_⟩
  · exact Datum.regular_all_iff.1 (Datum.regular_node h).2.2.2
  · exact Datum.regular_all_iff.1 h
  · intro f g fs gs
    refine ⟨?_, fun domain equal => ?_⟩
    · rintro ⟨rfl, fields⟩
      exact Datum.equal_form_of_fields fields
    · have length := (Datum.regular_node domain.1).2.2.1
      have length' := (Datum.regular_node domain.2).2.2.1
      exact Datum.fields_of_equal_form length length' equal
  · intro xs ys
    refine ⟨Datum.equal_tuple_of_items, fun domain equal => ?_⟩
    exact Datum.items_of_equal_tuple domain.1 domain.2 equal

namespace LiteralForm

theorem form_injective (f g : LiteralForm) : f.form = g.form ↔ f = g := by
  cases f <;> cases g <;> simp [form]

theorem form_eq_iff (f : LiteralForm) (g : Form) :
    f.form = g ↔ f = .number ∧ g = .number ∨ f = .rational ∧ g = .rational ∨
      f = .string ∧ g = .string ∨ f = .char ∧ g = .char := by
  cases f <;> simp [form, eq_comm]

theorem eq_form_iff (f : LiteralForm) (g : Form) :
    g = f.form ↔ f = .number ∧ g = .number ∨ f = .rational ∧ g = .rational ∨
      f = .string ∧ g = .string ∨ f = .char ∧ g = .char := by
  rw [eq_comm, form_eq_iff]

end LiteralForm

namespace Shape

def Each (D : Datum → Prop) : {s : Shape} → s.Tree → Prop
  | .one _, d => D d
  | .many _, ds => ∀ d ∈ ds, D d
  | .group, ds => ∀ d ∈ ds, D d
  | .declarations, ds => ∀ d ∈ ds, D d

def Agree (E : Datum → Datum → Prop) : {s : Shape} → s.Tree → s.Tree → Prop
  | .one _, d, e => E d e
  | .many _, ds, es => List.Forall₂ E ds es
  | .group, ds, es => List.Forall₂ E ds es
  | .declarations, ds, es => List.Forall₂ E ds es

end Shape

namespace Phrase

variable {ν μ : Type}

def Like (R : ν → μ → Prop) (same : Datum → Datum → Prop) :
    {s : Shape} → Phrase ν s → Phrase μ s → Prop
  | _, .typed e type location, q => ∃ e' type' location', q = .typed e' type' location' ∧
      e.Like R same e' ∧ same type.freeze type'.freeze ∧ same location.freeze location'.freeze
  | _, .located e location, q => ∃ e' location', q = .located e' location' ∧
      e.Like R same e' ∧ same location.freeze location'.freeze
  | _, .literal form value, q => ∃ value', q = .literal form value' ∧ same value.datum value'.datum
  | _, .reference x, q => ∃ x', q = .reference x' ∧ R x x'
  | _, .apply f a, q => ∃ f' a', q = .apply f' a' ∧ f.Like R same f' ∧ a.Like R same a'
  | _, .lambda x body, q => ∃ x' body', q = .lambda x' body' ∧ R x x' ∧ body.Like R same body'
  | _, .letIn g body, q => ∃ g' body', q = .letIn g' body' ∧
      g.Like R same g' ∧ body.Like R same body'
  | _, .caseOf e alternatives, q => ∃ e' alternatives', q = .caseOf e' alternatives' ∧
      e.Like R same e' ∧ alternatives.Like R same alternatives'
  | _, .doBlock statements e, q => ∃ statements' e', q = .doBlock statements' e' ∧
      statements.Like R same statements' ∧ e.Like R same e'
  | _, .locatedPattern p location, q => ∃ p' location', q = .locatedPattern p' location' ∧
      p.Like R same p' ∧ same location.freeze location'.freeze
  | _, .numberPattern value, q => ∃ value', q = .numberPattern value' ∧
      same value.datum value'.datum
  | _, .wildCardPattern, q => q = .wildCardPattern
  | _, .identifierPattern x, q => ∃ x', q = .identifierPattern x' ∧ R x x'
  | _, .constructorPattern x patterns, q => ∃ x' patterns', q = .constructorPattern x' patterns' ∧
      R x x' ∧ patterns.Like R same patterns'
  | _, .alternative p e, q => ∃ p' e', q = .alternative p' e' ∧
      p.Like R same p' ∧ e.Like R same e'
  | _, .doExpr e, q => ∃ e', q = .doExpr e' ∧ e.Like R same e'
  | _, .doLet g, q => ∃ g', q = .doLet g' ∧ g.Like R same g'
  | _, .doBind p e, q => ∃ p' e', q = .doBind p' e' ∧ p.Like R same p' ∧ e.Like R same e'
  | _, .constructor x type tag arity, q => ∃ x' type' tag' arity',
      q = .constructor x' type' tag' arity' ∧ R x x' ∧ same type.freeze type'.freeze ∧
        same tag.freeze tag'.freeze ∧ same arity.freeze arity'.freeze
  | _, .definition constructors type parameters, q => ∃ constructors' type' parameters',
      q = .definition constructors' type' parameters' ∧ constructors.Like R same constructors' ∧
        same type.freeze type'.freeze ∧ same parameters.freeze parameters'.freeze
  | _, .instanceOf bindings constraints type classname, q =>
      ∃ bindings' constraints' type' classname',
      q = .instanceOf bindings' constraints' type' classname' ∧ bindings.Like R same bindings' ∧
        same constraints.freeze constraints'.freeze ∧ same type.freeze type'.freeze ∧
          same classname.freeze classname'.freeze
  | _, .nil category, q => q = .nil category
  | _, .cons t ts, q => ∃ t' ts', q = .cons t' ts' ∧ t.Like R same t' ∧ ts.Like R same ts'
  | _, .noBinding, q => q = .noBinding
  | _, .binding x right type arity rest, q => ∃ x' right' type' arity' rest',
      q = .binding x' right' type' arity' rest' ∧ R x x' ∧ right.Like R same right' ∧
        same type.freeze type'.freeze ∧ same arity.freeze arity'.freeze ∧ rest.Like R same rest'
  | _, .noDeclaration, q => q = .noDeclaration
  | _, .declaration x right type arity rest, q => ∃ x' right' type' arity' rest',
      q = .declaration x' right' type' arity' rest' ∧ R x x' ∧ right.Like R same right' ∧
        same type.freeze type'.freeze ∧ same arity.freeze arity'.freeze ∧ rest.Like R same rest'

def Facing (R : ν → μ → Prop) (p : Role × ν) (q : Role × μ) : Prop :=
  p.1 = q.1 ∧ R p.2 q.2

theorem sites_of_like {R : ν → μ → Prop} {same : Datum → Datum → Prop} {s : Shape}
    {p : Phrase ν s} {q : Phrase μ s} (h : p.Like R same q) :
    List.Forall₂ (Facing R) p.sites q.sites := by
  induction p with
  | typed e type location ih =>
      obtain ⟨e', _, _, rfl, he, _⟩ := h
      simpa [sites, places, List.filterMap_cons] using ih he
  | located e location ih =>
      obtain ⟨e', _, rfl, he, _⟩ := h
      simpa [sites, places, List.filterMap_cons] using ih he
  | literal form value =>
      obtain ⟨_, rfl, _⟩ := h
      exact .nil
  | reference x =>
      obtain ⟨x', rfl, hx⟩ := h
      exact .cons ⟨rfl, hx⟩ .nil
  | apply f a ihf iha =>
      obtain ⟨f', a', rfl, hf, ha⟩ := h
      simpa [sites, places] using List.rel_append (ihf hf) (iha ha)
  | lambda x body ih =>
      obtain ⟨x', body', rfl, hx, hbody⟩ := h
      exact .cons ⟨rfl, hx⟩ (ih hbody)
  | letIn g body ihg ih =>
      obtain ⟨g', body', rfl, hg, hbody⟩ := h
      simpa [sites, places] using List.rel_append (ihg hg) (ih hbody)
  | caseOf e alternatives ihe iha =>
      obtain ⟨e', alternatives', rfl, he, ha⟩ := h
      simpa [sites, places] using List.rel_append (ihe he) (iha ha)
  | doBlock statements e ihs ihe =>
      obtain ⟨statements', e', rfl, hs, he⟩ := h
      simpa [sites, places] using List.rel_append (ihs hs) (ihe he)
  | locatedPattern p location ih =>
      obtain ⟨p', _, rfl, hp, _⟩ := h
      simpa [sites, places, List.filterMap_cons] using ih hp
  | numberPattern value =>
      obtain ⟨_, rfl, _⟩ := h
      exact .nil
  | wildCardPattern =>
      obtain rfl := h
      exact .nil
  | identifierPattern x =>
      obtain ⟨x', rfl, hx⟩ := h
      exact .cons ⟨rfl, hx⟩ .nil
  | constructorPattern x patterns ih =>
      obtain ⟨x', patterns', rfl, hx, hp⟩ := h
      exact .cons ⟨rfl, hx⟩ (ih hp)
  | alternative p e ihp ihe =>
      obtain ⟨p', e', rfl, hp, he⟩ := h
      simpa [sites, places] using List.rel_append (ihp hp) (ihe he)
  | doExpr e ih =>
      obtain ⟨e', rfl, he⟩ := h
      exact ih he
  | doLet g ih =>
      obtain ⟨g', rfl, hg⟩ := h
      exact ih hg
  | doBind p e ihp ihe =>
      obtain ⟨p', e', rfl, hp, he⟩ := h
      simpa [sites, places] using List.rel_append (ihp hp) (ihe he)
  | constructor x type tag arity =>
      obtain ⟨x', _, _, _, rfl, hx, _⟩ := h
      exact .cons ⟨rfl, hx⟩ .nil
  | definition constructors type parameters ih =>
      obtain ⟨constructors', _, _, rfl, hc, _⟩ := h
      simpa [sites, places, List.filterMap_cons] using ih hc
  | instanceOf bindings constraints type classname ih =>
      obtain ⟨bindings', _, _, _, rfl, hb, _⟩ := h
      simpa [sites, places, List.filterMap_cons] using ih hb
  | nil category =>
      obtain rfl := h
      exact .nil
  | cons t ts iht ihts =>
      obtain ⟨t', ts', rfl, ht, hts⟩ := h
      simpa [sites, places] using List.rel_append (iht ht) (ihts hts)
  | noBinding =>
      obtain rfl := h
      exact .nil
  | binding x right type arity rest ihr ihrest =>
      obtain ⟨x', right', _, _, rest', rfl, hx, hr, _, _, hrest⟩ := h
      refine .cons ⟨rfl, hx⟩ ?_
      simpa [sites, places, List.filterMap_cons] using List.rel_append (ihr hr) (ihrest hrest)
  | noDeclaration =>
      obtain rfl := h
      exact .nil
  | declaration x right type arity rest ihr ihrest =>
      obtain ⟨x', right', _, _, rest', rfl, hx, hr, _, _, hrest⟩ := h
      refine .cons ⟨rfl, hx⟩ ?_
      simpa [sites, places, List.filterMap_cons] using List.rel_append (ihr hr) (ihrest hrest)

section Agreement

open Shape (Each Agree)

variable {κ κ' : Type} [Identifier κ] [Identifier κ'] {D : Datum → Prop} {E : Datum → Datum → Prop}

theorem agree_reduces (h : Partwise D E) (f : ν → κ) (g : μ → κ') {s : Shape} (p : Phrase ν s)
    (q : Phrase μ s) : Reduces (Each D (p.map f id).datum ∧ Each D (q.map g id).datum)
      (Agree E (p.map f id).datum (q.map g id).datum)
      (p.Like (fun x y => E (Identifier.datum (f x)) (Identifier.datum (g y))) E q) := by
  induction p with
  | typed e type location ih =>
      cases q with
      | typed e' type' location' =>
          refine (h.node_of_fields (.cons (ih e') (.same (.same .nil)))).congr ?_
          simp [Like]
      | _ => exact h.apart (by simp [LiteralForm.eq_form_iff]) (by simp [Like])
  | located e location ih =>
      cases q with
      | located e' location' =>
          refine (h.node_of_fields (.cons (ih e') (.same .nil))).congr ?_
          simp [Like]
      | _ => exact h.apart (by simp [LiteralForm.eq_form_iff]) (by simp [Like])
  | literal form value =>
      cases q with
      | literal form' value' =>
          refine (h.node_of_fields (.same .nil)).congr ?_
          simp [Like, LiteralForm.form_injective, eq_comm]
      | _ => exact h.apart (by simp [LiteralForm.form_eq_iff]) (by simp [Like])
  | reference x =>
      cases q with
      | reference x' =>
          refine (h.node_of_fields (.same .nil)).congr ?_
          simp [Like]
      | _ => exact h.apart (by simp [LiteralForm.eq_form_iff]) (by simp [Like])
  | apply e a ihe iha =>
      cases q with
      | apply e' a' =>
          refine (h.node_of_fields (.cons (ihe e') (.cons (iha a') .nil))).congr ?_
          simp [Like]
      | _ => exact h.apart (by simp [LiteralForm.eq_form_iff]) (by simp [Like])
  | lambda x body ih =>
      cases q with
      | lambda x' body' =>
          refine (h.node_of_fields (.same (.cons (ih body') .nil))).congr ?_
          simp [Like]
      | _ => exact h.apart (by simp [LiteralForm.eq_form_iff]) (by simp [Like])
  | letIn bs body ihb ih =>
      cases q with
      | letIn bs' body' =>
          refine (h.node_of_fields (.cons (h.tuple_of_items (ihb bs'))
            (.cons (ih body') .nil))).congr ?_
          simp [Like]
      | _ => exact h.apart (by simp [LiteralForm.eq_form_iff]) (by simp [Like])
  | caseOf e alternatives ihe iha =>
      cases q with
      | caseOf e' alternatives' =>
          refine (h.node_of_fields (.cons (ihe e')
            (.cons (h.tuple_of_items (iha alternatives')) .nil))).congr ?_
          simp [Like]
      | _ => exact h.apart (by simp [LiteralForm.eq_form_iff]) (by simp [Like])
  | doBlock statements e ihs ihe =>
      cases q with
      | doBlock statements' e' =>
          refine (h.node_of_fields (.cons (h.tuple_of_items (ihs statements'))
            (.cons (ihe e') .nil))).congr ?_
          simp [Like]
      | _ => exact h.apart (by simp [LiteralForm.eq_form_iff]) (by simp [Like])
  | locatedPattern p location ih =>
      cases q with
      | locatedPattern p' location' =>
          refine (h.node_of_fields (.cons (ih p') (.same .nil))).congr ?_
          simp [Like]
      | _ => exact h.apart (by simp) (by simp [Like])
  | numberPattern value =>
      cases q with
      | numberPattern value' =>
          refine (h.node_of_fields (.same .nil)).congr ?_
          simp [Like]
      | _ => exact h.apart (by simp) (by simp [Like])
  | wildCardPattern =>
      cases q with
      | wildCardPattern =>
          refine (h.node_of_fields (.nil)).congr ?_
          simp [Like]
      | _ => exact h.apart (by simp) (by simp [Like])
  | identifierPattern x =>
      cases q with
      | identifierPattern x' =>
          refine (h.node_of_fields (.same .nil)).congr ?_
          simp [Like]
      | _ => exact h.apart (by simp) (by simp [Like])
  | constructorPattern x patterns ih =>
      cases q with
      | constructorPattern x' patterns' =>
          refine (h.node_of_fields (.same (.cons (h.tuple_of_items (ih patterns')) .nil))).congr ?_
          simp [Like]
      | _ => exact h.apart (by simp) (by simp [Like])
  | alternative p e ihp ihe =>
      cases q with
      | alternative p' e' =>
          refine (h.node_of_fields (.cons (ihp p') (.cons (ihe e') .nil))).congr ?_
          simp [Like]
  | doExpr e ih =>
      cases q with
      | doExpr e' =>
          refine (h.node_of_fields (.cons (ih e') .nil)).congr ?_
          simp [Like]
      | _ => exact h.apart (by simp) (by simp [Like])
  | doLet bs ih =>
      cases q with
      | doLet bs' =>
          refine (h.node_of_fields (.cons (h.tuple_of_items (ih bs')) .nil)).congr ?_
          simp [Like]
      | _ => exact h.apart (by simp) (by simp [Like])
  | doBind p e ihp ihe =>
      cases q with
      | doBind p' e' =>
          refine (h.node_of_fields (.cons (ihp p') (.cons (ihe e') .nil))).congr ?_
          simp [Like]
      | _ => exact h.apart (by simp) (by simp [Like])
  | constructor x type tag arity =>
      cases q with
      | constructor x' type' tag' arity' =>
          refine (h.node_of_fields (.same (.same (.same (.same .nil))))).congr ?_
          simp [Like]
  | definition constructors type parameters ih =>
      cases q with
      | definition constructors' type' parameters' =>
          refine (h.node_of_fields (.cons (h.tuple_of_items (ih constructors'))
            (.same (.same .nil)))).congr ?_
          simp [Like]
  | instanceOf bindings constraints type classname ih =>
      cases q with
      | instanceOf bindings' constraints' type' classname' =>
          refine (h.node_of_fields (.cons (h.tuple_of_items (ih bindings'))
            (.same (.same (.same .nil))))).congr ?_
          simp [Like]
  | nil category =>
      cases q with
      | nil => exact ⟨fun _ => .nil, fun _ _ => rfl⟩
      | cons => exact ⟨by simp [Like], fun _ equal => nomatch equal⟩
  | cons t ts iht ihts =>
      cases q with
      | nil => exact ⟨by simp [Like], fun _ equal => nomatch equal⟩
      | cons t' ts' =>
          refine (Partwise.reduces_cons (iht t') (ihts ts')).congr ?_
          simp [Like]
  | noBinding =>
      cases q with
      | noBinding => exact ⟨fun _ => .nil, fun _ _ => rfl⟩
      | binding => exact ⟨by simp [Like], fun _ equal => nomatch equal⟩
  | binding x right type arity rest ihr ihrest =>
      cases q with
      | noBinding => exact ⟨by simp [Like], fun _ equal => nomatch equal⟩
      | binding x' right' type' arity' rest' =>
          refine (Partwise.reduces_cons (h.node_of_fields (.same (.cons (ihr right')
            (.same (.same .nil))))) (ihrest rest')).congr ?_
          simp [Like, and_assoc]
  | noDeclaration =>
      cases q with
      | noDeclaration => exact ⟨fun _ => .nil, fun _ _ => rfl⟩
      | declaration => exact ⟨by simp [Like], fun _ equal => nomatch equal⟩
  | declaration x right type arity rest ihr ihrest =>
      cases q with
      | noDeclaration => exact ⟨by simp [Like], fun _ equal => nomatch equal⟩
      | declaration x' right' type' arity' rest' =>
          refine (Partwise.reduces_cons (h.node_of_fields (.same (.cons (ihr right')
            (.same (.same .nil))))) (ihrest rest')).congr ?_
          simp [Like, and_assoc]

end Agreement

theorem map_eq_of_like {f : ν → μ} {s : Shape} {p : Phrase ν s} {q : Phrase μ s}
    (like : p.Like (fun x y => f x = y) Eq q)
    (same : p.map (fun _ => ()) id = q.map (fun _ => ()) id) : p.map f id = q := by
  induction p <;> cases q <;> simp only [Like, map, reduceCtorEq] at like same ⊢ <;> grind

end Phrase

namespace Module

variable {ν μ : Type}

structure Like (R : ν → μ → Prop) (same : Datum → Datum → Prop) (m : Module ν) (n : Module μ) :
    Prop where
  name : R m.name n.name
  classes : same m.classes.freeze n.classes.freeze
  definitions : m.definitions.Like R same n.definitions
  declared : same m.declared.freeze n.declared.freeze
  bindings : m.bindings.Like R same n.bindings
  instances : m.instances.Like R same n.instances

theorem sites_of_like {R : ν → μ → Prop} {same : Datum → Datum → Prop} {m : Module ν}
    {n : Module μ} (h : m.Like R same n) : List.Forall₂ (Phrase.Facing R) m.sites n.sites := by
  have definitions := Phrase.sites_of_like h.definitions
  have bindings := Phrase.sites_of_like h.bindings
  have instances := Phrase.sites_of_like h.instances
  refine .cons ⟨rfl, h.name⟩ ?_
  simpa [Phrase.sites, places, List.filterMap_cons] using
    List.rel_append definitions (List.rel_append bindings instances)

variable {κ κ' : Type} [Identifier κ] [Identifier κ'] {D : Datum → Prop} {E : Datum → Datum → Prop}

theorem equal_of_like (h : Partwise D E) (f : ν → κ) (g : μ → κ') {m : Module ν} {n : Module μ}
    (like : m.Like (fun x y => E (Identifier.datum (f x)) (Identifier.datum (g y))) E n) :
    E (m.map f id).datum (n.map g id).datum := by
  have definitions := (Phrase.agree_reduces h f g _ _).intro like.definitions
  have bindings := (Phrase.agree_reduces h f g _ _).intro like.bindings
  have instances := (Phrase.agree_reduces h f g _ _).intro like.instances
  refine h.node.intro ⟨rfl, .cons like.name (.cons like.classes ?_)⟩
  refine .cons (h.tuple.intro definitions) (.cons like.declared ?_)
  exact .cons (h.tuple.intro bindings) (.cons (h.tuple.intro instances) .nil)

end Module

end ScopeResolution
