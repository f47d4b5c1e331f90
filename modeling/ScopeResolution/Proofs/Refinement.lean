import ScopeResolution.Proofs.Scoping.Basic
import ScopeResolution.Proofs.Simulation

namespace ScopeResolution

open Datum Traversal Traversal.Routine Renaming

namespace Renaming

def Extent.Covers (extent : Extent) : Category → Prop
  | .constructor => extent = .module
  | .definition => extent = .module
  | .instanceOf => extent = .module
  | _ => True

def Extent.CoversShape (extent : Extent) : Shape → Prop
  | .one c => extent.Covers c
  | .many c => extent.Covers c
  | .group => True
  | .declarations => True

end Renaming

namespace Phrase

def Refined (extent : Extent) : {s : Shape} → Phrase Symbol s → Prop
  | .one _, t => ∀ c, Renames extent t.datum c (t.resolve c).1.datum (t.resolve c).2
  | .many _, ts => ∀ (d : Datum) c (ps : List (Part d)), ps.map (·.1) = ts.datum →
      Gives (visits extent d) (ps.mapM call) c (ts.resolve c).1.datum (ts.resolve c).2
  | .group, g => ∀ (d : Datum) c (ps : List (Part d)), ps.map (·.1) = g.datum →
      c.Binds g.names →
      Gives (visits extent d) (ps.mapM renameMember) c (g.resolve c).1.datum (g.resolve c).2
  | .declarations, bs => ∀ (d : Datum) c (ps : List (Part d)), ps.map (·.1) = bs.datum →
      Gives (visits extent d) (ps.mapM renameDeclared) c (bs.resolve c).1.datum (bs.resolve c).2

section Members

variable {extent : Extent} {d : Datum} {c c₁ : Context}

theorem gives_renameRight {p : Part d} {e v : Datum} (right : p.1.attribute? "expression" = some e)
    (h : Renames extent e c v c₁) : Gives (visits extent d) (renameRight p) c v c₁ := by
  obtain ⟨q, found, same⟩ := Part.attr_ok right
  subst same
  exact (gives_ofExcept found).bind (gives_call h)

theorem update_binding (f g h k v w : Datum) :
    (node .binding [f, g, h.freeze, k.freeze]).update [("name", v), ("expression", w)] =
      .ok (node .binding [v.freeze, w.freeze, h.freeze, k.freeze]) := by
  simp [node, update_builtin, Form.fields, ownName, lastValue?]

theorem gives_bindMembers {xs : List Symbol} {ps : List (Part d)}
    (named : ps.map (fun p => p.1.attribute? "name") = xs.map fun x => some x.datum)
    (c : Context) : ∃ vs, Gives (visits extent d) (ps.mapM bindMember) c vs (c.bindAll xs) := by
  induction xs generalizing ps c with
  | nil =>
      rw [List.map_eq_nil_iff.1 named]
      exact ⟨[], gives_mapM_nil _⟩
  | cons x xs ih =>
      obtain ⟨p, qs, rfl, first, others⟩ := List.map_eq_cons_iff.1 named
      obtain ⟨vs, tail⟩ := ih others (c.bind x)
      obtain ⟨q, found, same⟩ := Part.attr_ok first
      have head : Gives (visits extent d) (bindMember p) c (c.next x).datum (c.bind x) := by
        refine (gives_ofExcept found).bind ?_
        rw [same]
        exact gives_bindFresh x
      exact ⟨_, head.mapM_cons tail⟩

theorem map_name_datum (g : Phrase Symbol .group) :
    g.datum.map (·.attribute? "name") = g.names.map fun x => some x.datum :=
  match g with
  | .noBinding => by rw [names]; rfl
  | .binding x right type arity rest => by
      rw [names]
      exact congrArg (some x.datum :: ·) (map_name_datum rest)

theorem gives_renameMember {p : Part d} {x : Symbol} {right v type arity : Datum}
    (member : p.1 = node .binding [x.datum, right, type.freeze, arity.freeze])
    (bound : (c.bound x.essence).isSome) (h : Renames extent right c v c₁) (frozen : v.freeze = v) :
    Gives (visits extent d) (renameMember p) c
      (node .binding [(c.nameOf x).datum, v, type.freeze, arity.freeze]) c₁ := by
  have named : p.1.attribute? "name" = some x.datum := by rw [member]; rfl
  obtain ⟨q, found, same⟩ := Part.attr_ok named
  have bindsTo : p.1.attribute? "expression" = some right := by rw [member]; rfl
  refine (gives_ofExcept found).bind ?_
  rw [same]
  refine (gives_boundName bound).bind ((gives_renameRight bindsTo h).bind (gives_ofExcept ?_))
  rw [member, update_binding, Name.freeze_datum, frozen]

theorem gives_renameDeclared {p : Part d} {x : Symbol} {right v type arity : Datum}
    (member : p.1 = node .binding [x.datum, right, type.freeze, arity.freeze])
    (h : Renames extent right c v c₁) (frozen : v.freeze = v) :
    Gives (visits extent d) (renameDeclared p) c
      (node .binding [globalName x.datum, v, type.freeze, arity.freeze]) c₁ := by
  have named : p.1.attribute? "name" = some x.datum := by rw [member]; rfl
  obtain ⟨q, found, same⟩ := Part.attr_ok named
  have bindsTo : p.1.attribute? "expression" = some right := by rw [member]; rfl
  refine (gives_renameRight bindsTo h).bind ((gives_ofExcept found).bind (gives_ofExcept ?_))
  rw [member, same, update_binding, frozen]
  rfl

theorem gives_renameDeclarations {x : Part d} {bs : Phrase Symbol .declarations}
    (items : x.1.items? = some bs.datum) (h : bs.Refined extent) (c : Context) :
    Gives (visits extent d) (renameDeclarations x) c (bs.resolve c).1.datum (bs.resolve c).2 := by
  obtain ⟨ps, found, same⟩ := Part.items_ok items
  exact (gives_ofExcept found).bind (h d c ps same)

theorem gives_renameGroup {x : Part d} {g : Phrase Symbol .group}
    (items : x.1.items? = some g.datum) (h : g.Refined extent) (c : Context) :
    Gives (visits extent d) (renameGroup x) c (.tuple (g.resolve (c.bindAll g.names)).1.datum)
      (g.resolve (c.bindAll g.names)).2 := by
  obtain ⟨ps, found, same⟩ := Part.items_ok items
  have named : ps.map (fun p => p.1.attribute? "name") = g.names.map fun x => some x.datum := by
    rw [← map_name_datum g, ← same, List.map_map]
    rfl
  obtain ⟨vs, bound⟩ : ∃ vs, Gives (visits extent d) _ c vs _ := gives_bindMembers named c
  refine (gives_ofExcept found).bind (bound.bind ?_)
  have renamed := h d (c.bindAll g.names) ps same (c.binds_bindAll g.names)
  exact renamed.bind (gives_pure _)

end Members

section Rules

variable {extent : Extent}

theorem Refined.typed {e : Phrase Symbol (.one .expression)} (ih : e.Refined extent)
    (type location : Datum) : (typed e type location).Refined extent := by
  intro c
  refine renames_of_gives ?_
  rw [datum, node, renameNode_typedExpr]
  refine (gives_call (ih c)).bind (gives_return ?_)
  simp [ofForm, resolve, datum, node]

theorem Refined.located {e : Phrase Symbol (.one .expression)} (ih : e.Refined extent)
    (location : Datum) : (located e location).Refined extent := by
  intro c
  refine renames_of_gives ?_
  rw [datum, node, renameNode_located]
  refine (gives_call (ih c)).bind (gives_return ?_)
  simp [ofForm, resolve, datum, node]

theorem refined_literal (f : LiteralForm) (value : Literal) :
    (literal f value : Phrase Symbol _).Refined extent := by
  intro c
  have through : passesThrough f.form = true := by cases f <;> rfl
  have fields : f.form.fields = ["value"] := by cases f <;> rfl
  refine renames_of_gives ?_
  rw [datum, node, renameNode_of_passesThrough through]
  exact gives_rebuild_plain fields value.plain value.itemless value.frozen

theorem refined_reference (x : Symbol) : (reference x).Refined extent := by
  intro c
  refine renames_of_gives ?_
  rw [datum, node, renameNode_identifier]
  exact (gives_nameOf x).bind (gives_return rfl)

theorem Refined.apply {f a : Phrase Symbol (.one .expression)} (ihf : f.Refined extent)
    (iha : a.Refined extent) : (apply f a).Refined extent := by
  intro c
  refine renames_of_gives ?_
  rw [datum, node, renameNode_of_passesThrough rfl]
  refine gives_rebuild_pair rfl (gives_fieldChange_node f.isNode_datum (ihf c))
    (gives_fieldChange_node a.isNode_datum (iha _)) ?_ ?_
  · exact freeze_datum _
  · exact freeze_datum _

theorem Refined.lambda {body : Phrase Symbol (.one .expression)} (ih : body.Refined extent)
    (x : Symbol) : (lambda x body).Refined extent := by
  intro c
  refine renames_of_gives ?_
  rw [datum, node, renameNode_lambda]
  refine Gives.inScope ((gives_bindFresh x).bind ?_)
  refine (gives_call (ih (c.bind x))).bind (gives_return ?_)
  simp [ofForm, resolve, datum, node, Identifier.datum_name]

theorem Refined.letIn {g : Phrase Symbol .group} {body : Phrase Symbol (.one .expression)}
    (ihg : g.Refined extent) (ih : body.Refined extent) : (letIn g body).Refined extent := by
  intro c
  refine renames_of_gives ?_
  rw [datum, node, renameNode_letIn]
  refine Gives.inScope ((gives_renameGroup rfl ihg c).bind ?_)
  refine (gives_call (ih _)).bind (gives_return ?_)
  simp [ofForm, resolve, datum, node]

theorem Refined.caseOf {e : Phrase Symbol (.one .expression)}
    {alternatives : Phrase Symbol (.many .alternative)} (ihe : e.Refined extent)
    (iha : alternatives.Refined extent) : (caseOf e alternatives).Refined extent := by
  intro c
  refine renames_of_gives ?_
  rw [datum, node, renameNode_caseOf]
  refine (gives_renameItems rfl fun ps => iha _ c ps).bind ?_
  refine (gives_call (ihe _)).bind (gives_return ?_)
  simp [ofForm, resolve, datum, node]

theorem Refined.doBlock {statements : Phrase Symbol (.many .statement)}
    {e : Phrase Symbol (.one .expression)} (ihs : statements.Refined extent)
    (ihe : e.Refined extent) : (doBlock statements e).Refined extent := by
  intro c
  refine renames_of_gives ?_
  rw [datum, node, renameNode_of_passesThrough rfl]
  refine gives_rebuild_pair rfl
    (gives_fieldChange_items statements.isNode_of_mem fun ps => ihs _ c ps)
    (gives_fieldChange_node e.isNode_datum (ihe _)) rfl ?_
  exact freeze_datum _

theorem Refined.locatedPattern {p : Phrase Symbol (.one .pattern)} (ih : p.Refined extent)
    (location : Datum) : (locatedPattern p location).Refined extent := by
  intro c
  refine renames_of_gives ?_
  rw [datum, node, renameNode_located]
  refine (gives_call (ih c)).bind (gives_return ?_)
  simp [ofForm, resolve, datum, node]

theorem refined_numberPattern (value : Literal) :
    (numberPattern value : Phrase Symbol _).Refined extent := by
  intro c
  refine renames_of_gives ?_
  rw [datum, node, renameNode_of_passesThrough rfl]
  exact gives_rebuild_plain rfl value.plain value.itemless value.frozen

theorem refined_wildCardPattern : (wildCardPattern : Phrase Symbol _).Refined extent := by
  intro c
  refine renames_of_gives ?_
  rw [datum, node, renameNode_of_passesThrough rfl]
  exact gives_rebuild [] (gives_mapM_nil _) rfl

theorem refined_identifierPattern (x : Symbol) : (identifierPattern x).Refined extent := by
  intro c
  refine renames_of_gives ?_
  rw [datum, node, renameNode_identifierPattern]
  exact (gives_bindFresh x).bind (gives_return rfl)

theorem Refined.constructorPattern {patterns : Phrase Symbol (.many .pattern)}
    (ih : patterns.Refined extent) (x : Symbol) :
    (constructorPattern x patterns).Refined extent := by
  intro c
  refine renames_of_gives ?_
  rw [datum, node, renameNode_constructorPattern]
  refine (gives_renameItems rfl fun ps => ih _ c ps).bind ?_
  exact gives_return rfl

theorem Refined.alternative {p : Phrase Symbol (.one .pattern)}
    {e : Phrase Symbol (.one .expression)} (ihp : p.Refined extent) (ihe : e.Refined extent) :
    (alternative p e).Refined extent := by
  intro c
  refine renames_of_gives ?_
  rw [datum, node, renameNode_alternative]
  refine Gives.inScope ((gives_call (ihp c)).bind ?_)
  refine (gives_call (ihe _)).bind (gives_return ?_)
  simp [ofForm, resolve, datum, node]

theorem Refined.doExpr {e : Phrase Symbol (.one .expression)} (ih : e.Refined extent) :
    (doExpr e).Refined extent := by
  intro c
  refine renames_of_gives ?_
  rw [datum, node, renameNode_of_passesThrough rfl]
  refine gives_rebuild_single rfl (gives_fieldChange_node e.isNode_datum (ih c)) ?_
  exact freeze_datum _

theorem Refined.doLet {g : Phrase Symbol .group} (ih : g.Refined extent) :
    (doLet g).Refined extent := by
  intro c
  refine renames_of_gives ?_
  rw [datum, node, renameNode_doLet]
  refine (gives_renameGroup rfl ih c).bind (gives_return ?_)
  simp [ofForm, resolve, datum, node]

theorem Refined.doBind {p : Phrase Symbol (.one .pattern)} {e : Phrase Symbol (.one .expression)}
    (ihp : p.Refined extent) (ihe : e.Refined extent) : (doBind p e).Refined extent := by
  intro c
  refine renames_of_gives ?_
  rw [datum, node, renameNode_of_passesThrough rfl]
  refine gives_rebuild_pair rfl (gives_fieldChange_node p.isNode_datum (ihp c))
    (gives_fieldChange_node e.isNode_datum (ihe _)) ?_ ?_
  · exact freeze_datum _
  · exact freeze_datum _

theorem refined_constructor (x : Symbol) (type tag arity : Datum) :
    (constructor x type tag arity).Refined .module := by
  intro c
  refine renames_of_gives ?_
  rw [datum, node, renameNode_constructor]
  refine gives_return ?_
  simp only [ofForm, List.map, freeze_globalName, freeze_freeze]
  rfl

theorem Refined.definition {constructors : Phrase Symbol (.many .constructor)}
    (ih : constructors.Refined .module) (type parameters : Datum) :
    (definition constructors type parameters).Refined .module := by
  intro c
  refine renames_of_gives ?_
  rw [datum, node, renameNode_dataDefinition]
  refine (gives_renameItems rfl fun ps => ih _ c ps).bind (gives_return ?_)
  simp [ofForm, resolve, datum, node]

theorem Refined.instanceOf {bindings : Phrase Symbol .declarations}
    (ih : bindings.Refined .module) (constraints type classname : Datum) :
    (instanceOf bindings constraints type classname).Refined .module := by
  intro c
  refine renames_of_gives ?_
  rw [datum, node, renameNode_instanceOf]
  refine (gives_renameDeclarations rfl ih c).bind (gives_return ?_)
  simp [ofForm, resolve, datum, node]

theorem Refined.cons {category : Category} {t : Phrase Symbol (.one category)}
    {ts : Phrase Symbol (.many category)} (iht : t.Refined extent) (ihts : ts.Refined extent) :
    (cons t ts).Refined extent := by
  intro d c ps same
  obtain ⟨p, qs, rfl, first, others⟩ := List.map_eq_cons_iff.1 same
  have head := iht c
  rw [← first] at head
  exact (gives_call head).mapM_cons (ihts d _ qs others)

theorem Refined.binding {right : Phrase Symbol (.one .expression)} {rest : Phrase Symbol .group}
    (ihright : right.Refined extent) (ihrest : rest.Refined extent) (x : Symbol)
    (type arity : Datum) : (binding x right type arity rest).Refined extent := by
  intro d c ps same bound
  obtain ⟨p, qs, rfl, first, others⟩ := List.map_eq_cons_iff.1 same
  rw [names, Context.Binds, List.forall_mem_cons] at bound
  have head := gives_renameMember first bound.1 (ihright c) (freeze_datum _)
  exact head.mapM_cons (ihrest d _ qs others (right.binds_resolve bound.2))

theorem Refined.declaration {right : Phrase Symbol (.one .expression)}
    {rest : Phrase Symbol .declarations} (ihright : right.Refined extent)
    (ihrest : rest.Refined extent) (x : Symbol) (type arity : Datum) :
    (declaration x right type arity rest).Refined extent := by
  intro d c ps same
  obtain ⟨p, qs, rfl, first, others⟩ := List.map_eq_cons_iff.1 same
  have head := gives_renameDeclared first (ihright c) (freeze_datum _)
  exact head.mapM_cons (ihrest d _ qs others)

end Rules

-- Constructors, definitions and instances have a rule in a module only, hence the condition.
theorem refined (extent : Extent) {s : Shape} (t : Phrase Symbol s) (h : extent.CoversShape s) :
    t.Refined extent := by
  induction t with
  | typed e type location ih => exact (ih trivial).typed type location
  | located e location ih => exact (ih trivial).located location
  | literal f value => exact refined_literal f value
  | reference x => exact refined_reference x
  | apply f a ihf iha => exact (ihf trivial).apply (iha trivial)
  | lambda x body ih => exact (ih trivial).lambda x
  | letIn g body ihg ih => exact (ihg trivial).letIn (ih trivial)
  | caseOf e alternatives ihe iha => exact (ihe trivial).caseOf (iha trivial)
  | doBlock statements e ihs ihe => exact (ihs trivial).doBlock (ihe trivial)
  | locatedPattern p location ih => exact (ih trivial).locatedPattern location
  | numberPattern value => exact refined_numberPattern value
  | wildCardPattern => exact refined_wildCardPattern
  | identifierPattern x => exact refined_identifierPattern x
  | constructorPattern x patterns ih => exact (ih trivial).constructorPattern x
  | alternative p e ihp ihe => exact (ihp trivial).alternative (ihe trivial)
  | doExpr e ih => exact (ih trivial).doExpr
  | doLet g ih => exact (ih trivial).doLet
  | doBind p e ihp ihe => exact (ihp trivial).doBind (ihe trivial)
  | constructor x type tag arity =>
      cases h
      exact refined_constructor x type tag arity
  | definition constructors type parameters ih =>
      cases h
      exact Refined.definition (ih rfl) type parameters
  | instanceOf bindings constraints type classname ih =>
      cases h
      exact Refined.instanceOf (ih trivial) constraints type classname
  | nil category =>
      intro d c ps same
      rw [List.map_eq_nil_iff.1 same]
      exact gives_mapM_nil _
  | cons t ts iht ihts => exact (iht h).cons (ihts h)
  | noBinding =>
      intro d c ps same _
      rw [List.map_eq_nil_iff.1 same]
      exact gives_mapM_nil _
  | binding x right type arity rest ihright ihrest =>
      exact (ihright trivial).binding (ihrest trivial) x type arity
  | noDeclaration =>
      intro d c ps same
      rw [List.map_eq_nil_iff.1 same]
      exact gives_mapM_nil _
  | declaration x right type arity rest ihright ihrest =>
      exact (ihright trivial).declaration (ihrest trivial) x type arity

theorem renamed_resolve (extent : Extent) (t : Phrase Symbol (.one .expression)) :
    ∃ r, t.datum.renamed extent = (.ok (t.resolve .initial).1.datum, r) ∧
      r.Shows (t.resolve .initial).2 := by
  obtain ⟨r, renamed, _, shown⟩ :=
    refined extent t trivial .initial Resolver.initial Resolver.shows_initial
  rw [Datum.renamed, Resolver.rename_eq_recurse]
  exact ⟨r, renamed, shown⟩

theorem ok_renamed (extent : Extent) (t : Phrase Symbol (.one .expression)) :
    (t.datum.renamed extent).1 = .ok (t.resolve .initial).1.datum := by
  obtain ⟨r, renamed, _⟩ := t.renamed_resolve extent
  rw [renamed]

/-- A tree renamed on its own is the tree resolved from the empty map, and the resolver that is left
tells the names that are left. -/
theorem renamed_refines_resolve (extent : Extent) (t : Phrase Symbol (.one .expression)) :
    ∃ r, t.datum.renamed extent = (.ok (t.resolve .initial).1.datum, r) ∧
      r.counter = (t.resolve .initial).2.last ∧
      ∀ x : Symbol, r.nameOf x.datum = .ok ((t.resolve .initial).2.nameOf x).datum := by
  obtain ⟨r, renamed, shown⟩ := t.renamed_resolve extent
  exact ⟨r, renamed, shown.counter, shown.nameOf⟩

end Phrase

namespace Module

theorem renames (m : Module Symbol) (c : Context) :
    Renames .module m.datum c (m.resolve c).1.datum (m.resolve c).2 := by
  refine renames_of_gives ?_
  rw [datum, Phrase.node, renameNode_module]
  refine (gives_told m.name).bind ((gives_debug _).bind ?_)
  refine (gives_renameItems rfl fun ps => m.definitions.refined .module rfl _ c ps).bind ?_
  refine (gives_renameItems rfl fun ps => m.instances.refined .module rfl _ _ ps).bind ?_
  refine (Phrase.gives_renameDeclarations rfl (m.bindings.refined .module trivial) _).bind ?_
  refine (gives_bindFresh m.name).bind (gives_return ?_)
  simp [ofForm, resolve, datum, Phrase.node, Identifier.datum_name]

theorem renamed_resolve (m : Module Symbol) :
    ∃ r, m.datum.renamed .module = (.ok (m.resolve .initial).1.datum, r) ∧
      r.Shows (m.resolve .initial).2 := by
  obtain ⟨r, renamed, _, shown⟩ := m.renames .initial Resolver.initial Resolver.shows_initial
  rw [Datum.renamed, Resolver.rename_eq_recurse]
  exact ⟨r, renamed, shown⟩

theorem ok_renamed (m : Module Symbol) :
    (m.datum.renamed .module).1 = .ok (m.resolve .initial).1.datum := by
  obtain ⟨r, renamed, _⟩ := m.renamed_resolve
  rw [renamed]

end Module

end ScopeResolution
