import ScopeResolution.Proofs.Phrase.Likeness
import ScopeResolution.Proofs.Recording
import ScopeResolution.Proofs.Refinement

namespace ScopeResolution

open Datum Traversal Traversal.Routine Renaming

namespace Mark

abbrev In (l : List Datum) :=
  {n : Mark // n.Told l}

instance (l : List Datum) : Identifier (In l) := ⟨fun n => n.1.datum, fun _ => rfl⟩

variable {l l' : List Datum}

def In.later (grown : l <+: l') (n : In l) : In l' :=
  ⟨n.1, n.2.later grown⟩

def In.global (l : List Datum) (symbol : Datum) : In l :=
  ⟨⟨symbol, 0⟩, .inl rfl⟩

end Mark

open Mark (In)

theorem Phrase.datum_map {ν μ : Type} [Identifier ν] [Identifier μ] {f : ν → μ}
    (same : ∀ x, Identifier.datum (f x) = Identifier.datum x) {s : Shape} (t : Phrase ν s) :
    (t.map f id).datum = t.datum := by
  induction t <;> simp_all [map, datum]

theorem Module.datum_map {ν μ : Type} [Identifier ν] [Identifier μ] {f : ν → μ}
    (same : ∀ x, Identifier.datum (f x) = Identifier.datum x) (m : Module ν) :
    (m.map f id).datum = m.datum := by
  simp [map, datum, same, Phrase.datum_map same]

namespace Shape

variable {s : Shape} {l l' : List Datum}

def Told (s : Shape) (v : s.Tree) (l : List Datum) : Prop :=
  ∃ u : Phrase (In l) s, v = u.datum

theorem told_datum (u : Phrase (In l) s) : s.Told u.datum l :=
  ⟨u, rfl⟩

theorem Told.later {v : s.Tree} (h : s.Told v l) (grown : l <+: l') : s.Told v l' := by
  obtain ⟨u, rfl⟩ := h
  have same : (u.map (In.later grown) id).datum = u.datum :=
    Phrase.datum_map (f := In.later grown) (fun _ => rfl) u
  exact same ▸ told_datum _

theorem Told.freeze {c : Category} {v : Datum} (h : (one c).Told v l) : v.freeze = v := by
  obtain ⟨u, rfl⟩ := h
  exact u.freeze_datum

end Shape

namespace Renaming

section Fields

variable {extent : Extent} {d : Datum} {l : List Datum} {P Q R : Datum → List Datum → Prop}

theorem tracked_renameItems {x : Part d} {xs : List Datum} {S : List Datum → List Datum → Prop}
    (items : x.1.items? = some xs)
    (h : ∀ ps : List (Part d), ps.map (·.1) = xs → Tracked extent (ps.mapM call) l S) :
    Tracked extent (renameItems x) l S := by
  obtain ⟨ps, found, same⟩ := Part.items_ok items
  exact records_ofExcept_bind found (h ps same)

def Change (f : String) (P : Datum → List Datum → Prop) (changes : List (String × Datum))
    (l : List Datum) : Prop :=
  ∃ v, changes = [(f, v)] ∧ P v l

theorem tracked_fieldChange_node {f : String} {e : Datum} {smaller : e.size < d.size}
    (isNode : e.isNode = true) (h : Tracked extent (renameNode extent e) l P) :
    Tracked extent (d := d) (fieldChange call f ⟨e, smaller⟩) l (Change f P) := by
  rw [fieldChange_node isNode]
  exact (tracked_call h).bind fun v _ _ visited => records_pure ⟨v, rfl, visited⟩

theorem tracked_fieldChange_items {f : String} {xs : List Datum}
    {smaller : (tuple xs).size < d.size} {S : List Datum → List Datum → Prop}
    (nodes : ∀ e ∈ xs, e.isNode = true)
    (h : ∀ ps : List (Part d), ps.map (·.1) = xs → Tracked extent (ps.mapM call) l S) :
    Tracked extent (d := d) (fieldChange call f ⟨tuple xs, smaller⟩) l
      (Change f fun v l' => ∃ vs, v = tuple vs ∧ S vs l') := by
  obtain ⟨ps, same, visited⟩ := fieldChange_items f nodes
  rw [visited]
  exact (h ps same).bind fun vs _ _ each => records_pure ⟨.tuple vs, rfl, vs, rfl, each⟩

theorem tracked_rebuild_pair {f : Form} {a b : String} {x y : Datum} (fields : f.fields = [a, b])
    (first : Tracked extent (d := node (.builtin f) [x, y])
      (fieldChange call a (child x List.mem_cons_self)) l (Change a P))
    (second : ∀ l', l <+: l' → Tracked extent (d := node (.builtin f) [x, y])
      (fieldChange call b (child y (List.mem_cons_of_mem x List.mem_cons_self))) l' (Change b Q))
    (both : ∀ v w l' l'', l' <+: l'' → P v l' → Q w l'' →
      v.freeze = v ∧ w.freeze = w ∧ R (node (.builtin f) [v, w]) l'') :
    Tracked extent (rebuild (node (.builtin f) [x, y]) call) l R := by
  rw [rebuild_builtin, fields]
  refine Records.bind (P := fun changes l' => ∃ v w, changes = [[(a, v)], [(b, w)]] ∧
    v.freeze = v ∧ w.freeze = w ∧ R (node (.builtin f) [v, w]) l') ?_ ?_
  · refine Records.mapM_cons (S := fun changes l' => ∃ w, changes = [[(b, w)]] ∧ Q w l') first
      (fun l' grown => ?_) ?_
    · refine (second l' grown).mapM_singleton ?_
      rintro _ l₁ ⟨w, rfl, hw⟩
      exact ⟨w, rfl, hw⟩
    · rintro _ _ l₁ l₂ grown ⟨v, rfl, hv⟩ ⟨w, rfl, hw⟩
      exact ⟨v, w, rfl, both v w l₁ l₂ grown hv hw⟩
  · rintro _ l' _ ⟨v, w, rfl, hv, hw, made⟩
    refine records_ofExcept fun t updated => ?_
    cases (update_pair fields hv hw).symm.trans updated
    exact made

theorem tracked_rebuild_single {f : Form} {a : String} {x : Datum} (fields : f.fields = [a])
    (changed : Tracked extent (d := node (.builtin f) [x])
      (fieldChange call a (child x List.mem_cons_self)) l (Change a P))
    (made : ∀ v l', P v l' → v.freeze = v ∧ R (node (.builtin f) [v]) l') :
    Tracked extent (rebuild (node (.builtin f) [x]) call) l R := by
  rw [rebuild_builtin, fields]
  refine Records.bind (P := fun changes l' => ∃ v, changes = [[(a, v)]] ∧
    v.freeze = v ∧ R (node (.builtin f) [v]) l') ?_ ?_
  · refine changed.mapM_singleton ?_
    rintro _ l₁ ⟨v, rfl, hv⟩
    exact ⟨v, rfl, made v l₁ hv⟩
  · rintro _ l' _ ⟨v, rfl, hv, result⟩
    refine records_ofExcept fun t updated => ?_
    cases (update_single fields hv).symm.trans updated
    exact result

theorem tracked_rebuild_plain {f : Form} {a : String} {x : Datum} (fields : f.fields = [a])
    (plain : x.isNode = false) (itemless : x.tupleItems? = none) (frozen : x.freeze = x)
    (same : ∀ l', R (node (.builtin f) [x]) l') :
    Tracked extent (rebuild (node (.builtin f) [x]) call) l R := by
  have unchanged : (fieldChange call a (child x List.mem_cons_self) :
      Script (node (.builtin f) [x]) _) = pure [] := fieldChange_plain plain itemless
  have updated : (node (.builtin f) [x]).update [] = .ok (node (.builtin f) [x]) := by
    simp [update_builtin, fields, lastValue?, frozen]
  rw [rebuild_builtin, fields]
  refine Records.bind (P := fun changes _ => changes = [[]]) ?_ ?_
  · refine Records.mapM_singleton (R := fun changes _ => changes = []) ?_ ?_
    · exact unchanged.symm ▸ records_pure rfl
    · rintro _ _ rfl
      rfl
  · rintro _ l' _ rfl
    refine records_ofExcept fun t made => ?_
    cases updated.symm.trans made
    exact same l'

end Fields

end Renaming

namespace Phrase

variable {ν : Type} [Identifier ν]

def Answers (extent : Extent) : {s : Shape} → Phrase ν s → Prop
  | .one c, t => ∀ l, Tracked extent (renameNode extent t.datum) l (Shape.one c).Told
  | .many c, ts => ∀ (d : Datum) l (ps : List (Part d)), ps.map (·.1) = ts.datum →
      Tracked extent (ps.mapM call) l (Shape.many c).Told
  | .group, g => ∀ (d : Datum) l (ps : List (Part d)), ps.map (·.1) = g.datum →
      Tracked extent (ps.mapM renameMember) l Shape.group.Told
  | .declarations, bs => ∀ (d : Datum) l (ps : List (Part d)), ps.map (·.1) = bs.datum →
      Tracked extent (ps.mapM renameDeclared) l Shape.declarations.Told

section Members

variable {extent : Extent} {d : Datum} {l : List Datum}

def Member (type arity v : Datum) (l : List Datum) : Prop :=
  ∃ (n : In l) (u : Phrase (In l) (.one .expression)),
    v = node .binding [Identifier.datum n, u.datum, type.freeze, arity.freeze]

theorem Member.later {type arity v : Datum} {l' : List Datum} (h : Member type arity v l)
    (grown : l <+: l') : Member type arity v l' := by
  obtain ⟨n, u, rfl⟩ := h
  obtain ⟨u', same⟩ := (Shape.told_datum u).later grown
  exact ⟨n.later grown, u', by rw [same]; rfl⟩

theorem tracked_renameRight {p : Part d} {e : Phrase ν (.one .expression)}
    (right : p.1.attribute? "expression" = some e.datum) (h : e.Answers extent) :
    Tracked extent (renameRight p) l (Shape.one .expression).Told := by
  obtain ⟨q, found, same⟩ := Part.attr_ok right
  refine records_ofExcept_bind found (tracked_call ?_)
  rw [same]
  exact h l

theorem tracked_renameMember {p : Part d} {x : ν} {right : Phrase ν (.one .expression)}
    {type arity : Datum}
    (member : p.1 = node .binding [Identifier.datum x, right.datum, type.freeze, arity.freeze])
    (h : right.Answers extent) : Tracked extent (renameMember p) l (Member type arity) := by
  have named : p.1.attribute? "name" = some (Identifier.datum x) := by rw [member]; rfl
  obtain ⟨q, found, same⟩ := Part.attr_ok named
  have bindsTo : p.1.attribute? "expression" = some right.datum := by rw [member]; rfl
  refine records_ofExcept_bind found ((records_boundName _).bind ?_)
  rintro _ l₁ _ ⟨n, rfl, issued⟩
  refine (tracked_renameRight bindsTo h).bind ?_
  rintro _ l₂ grown ⟨u, rfl⟩
  refine records_ofExcept fun v updated => ?_
  rw [member, update_binding, u.freeze_datum] at updated
  cases updated
  exact ⟨⟨n, .inr (issued.later grown)⟩, u, rfl⟩

theorem tracked_renameDeclared {p : Part d} {x : ν} {right : Phrase ν (.one .expression)}
    {type arity : Datum}
    (member : p.1 = node .binding [Identifier.datum x, right.datum, type.freeze, arity.freeze])
    (h : right.Answers extent) : Tracked extent (renameDeclared p) l (Member type arity) := by
  have named : p.1.attribute? "name" = some (Identifier.datum x) := by rw [member]; rfl
  obtain ⟨q, found, same⟩ := Part.attr_ok named
  have bindsTo : p.1.attribute? "expression" = some right.datum := by rw [member]; rfl
  refine (tracked_renameRight bindsTo h).bind ?_
  rintro _ l₁ _ ⟨u, rfl⟩
  refine records_ofExcept_bind found (records_ofExcept fun v updated => ?_)
  rw [member, update_binding, u.freeze_datum] at updated
  cases updated
  exact ⟨.global l₁ q.1, u, rfl⟩

theorem tracked_renameDeclarations {x : Part d} {bs : Phrase ν .declarations}
    (items : x.1.items? = some bs.datum) (h : bs.Answers extent) :
    Tracked extent (renameDeclarations x) l Shape.declarations.Told := by
  obtain ⟨ps, found, same⟩ := Part.items_ok items
  exact records_ofExcept_bind found (h d l ps same)

theorem tracked_renameGroup {x : Part d} {g : Phrase ν .group}
    (items : x.1.items? = some g.datum) (h : g.Answers extent) :
    Tracked extent (renameGroup x) l fun v l' => ∃ bs, v = .tuple bs ∧ Shape.group.Told bs l' := by
  obtain ⟨ps, found, same⟩ := Part.items_ok items
  have bound (p : Part d) : Issuing (visits extent d) (visitLog extent d) (bindMember p) :=
    (issuing_ofExcept _).bind fun symbol => issuing_bindFresh symbol.1
  refine records_ofExcept_bind found ((issuing_mapM bound ps l).bind fun _ l₁ _ _ => ?_)
  exact (h d l₁ ps same).bind fun bs _ _ told => records_pure ⟨bs, rfl, told⟩

end Members

section Rules

variable {extent : Extent}

theorem Answers.typed {e : Phrase ν (.one .expression)} (ih : e.Answers extent)
    (type location : Datum) : (typed e type location).Answers extent := by
  intro l
  rw [datum, node, renameNode_typedExpr]
  refine (tracked_call (ih l)).bind ?_
  rintro _ l₁ _ ⟨u, rfl⟩
  refine records_pure ⟨.typed u type location, ?_⟩
  simp [ofForm, datum, node]

theorem Answers.located {e : Phrase ν (.one .expression)} (ih : e.Answers extent)
    (location : Datum) : (located e location).Answers extent := by
  intro l
  rw [datum, node, renameNode_located]
  refine (tracked_call (ih l)).bind ?_
  rintro _ l₁ _ ⟨u, rfl⟩
  refine records_pure ⟨.located u location, ?_⟩
  simp [ofForm, datum, node]

theorem answers_literal (f : LiteralForm) (value : Literal) :
    (literal f value : Phrase ν _).Answers extent := by
  intro l
  have through : passesThrough f.form = true := by cases f <;> rfl
  have fields : f.form.fields = ["value"] := by cases f <;> rfl
  rw [datum, node, renameNode_of_passesThrough through]
  refine tracked_rebuild_plain fields value.plain value.itemless value.frozen fun l' => ?_
  exact ⟨.literal f value, rfl⟩

theorem answers_reference (x : ν) : (reference x).Answers extent := by
  intro l
  rw [datum, node, renameNode_identifier]
  refine (records_nameOf _).bind ?_
  rintro _ l₁ _ ⟨n, rfl, told⟩
  exact records_pure ⟨.reference ⟨n, told⟩, rfl⟩

theorem Answers.apply {f a : Phrase ν (.one .expression)} (ihf : f.Answers extent)
    (iha : a.Answers extent) : (apply f a).Answers extent := by
  intro l
  rw [datum, node, renameNode_of_passesThrough rfl]
  refine tracked_rebuild_pair rfl (tracked_fieldChange_node f.isNode_datum (ihf l))
    (fun l' _ => tracked_fieldChange_node a.isNode_datum (iha l')) ?_
  intro v w l₁ l₂ grown hv hw
  refine ⟨hv.freeze, hw.freeze, ?_⟩
  obtain ⟨u, rfl⟩ := hv.later grown
  obtain ⟨u', rfl⟩ := hw
  exact ⟨.apply u u', rfl⟩

theorem Answers.lambda {body : Phrase ν (.one .expression)} (ih : body.Answers extent) (x : ν) :
    (lambda x body).Answers extent := by
  intro l
  rw [datum, node, renameNode_lambda]
  refine Records.inScope ((records_bindFresh _).bind ?_)
  rintro _ l₁ _ ⟨n, rfl, issued⟩
  refine (tracked_call (ih l₁)).bind ?_
  rintro _ l₂ grown ⟨u, rfl⟩
  refine records_pure ⟨.lambda ⟨n, .inr (issued.later grown)⟩ u, ?_⟩
  simp [ofForm, datum, node]
  rfl

theorem Answers.letIn {g : Phrase ν .group} {body : Phrase ν (.one .expression)}
    (ihg : g.Answers extent) (ih : body.Answers extent) : (letIn g body).Answers extent := by
  intro l
  rw [datum, node, renameNode_letIn]
  refine Records.inScope ((tracked_renameGroup rfl ihg).bind ?_)
  rintro _ l₁ _ ⟨bs, rfl, told⟩
  refine (tracked_call (ih l₁)).bind ?_
  rintro _ l₂ grown ⟨u, rfl⟩
  obtain ⟨g', rfl⟩ := told.later grown
  refine records_pure ⟨.letIn g' u, ?_⟩
  simp [ofForm, datum, node]

theorem Answers.caseOf {e : Phrase ν (.one .expression)}
    {alternatives : Phrase ν (.many .alternative)} (ihe : e.Answers extent)
    (iha : alternatives.Answers extent) : (caseOf e alternatives).Answers extent := by
  intro l
  rw [datum, node, renameNode_caseOf]
  refine (tracked_renameItems rfl fun ps => iha _ l ps).bind ?_
  intro vs l₁ _ told
  refine (tracked_call (ihe l₁)).bind ?_
  rintro _ l₂ grown ⟨u, rfl⟩
  obtain ⟨us, rfl⟩ := told.later grown
  refine records_pure ⟨.caseOf u us, ?_⟩
  simp [ofForm, datum, node]

theorem Answers.doBlock {statements : Phrase ν (.many .statement)}
    {e : Phrase ν (.one .expression)} (ihs : statements.Answers extent)
    (ihe : e.Answers extent) : (doBlock statements e).Answers extent := by
  intro l
  rw [datum, node, renameNode_of_passesThrough rfl]
  refine tracked_rebuild_pair rfl
    (tracked_fieldChange_items statements.isNode_of_mem fun ps => ihs _ l ps)
    (fun l' _ => tracked_fieldChange_node e.isNode_datum (ihe l')) ?_
  rintro _ w l₁ l₂ grown ⟨vs, rfl, told⟩ hw
  refine ⟨rfl, hw.freeze, ?_⟩
  obtain ⟨us, rfl⟩ := told.later grown
  obtain ⟨u, rfl⟩ := hw
  exact ⟨.doBlock us u, rfl⟩

theorem Answers.locatedPattern {p : Phrase ν (.one .pattern)} (ih : p.Answers extent)
    (location : Datum) : (locatedPattern p location).Answers extent := by
  intro l
  rw [datum, node, renameNode_located]
  refine (tracked_call (ih l)).bind ?_
  rintro _ l₁ _ ⟨u, rfl⟩
  refine records_pure ⟨.locatedPattern u location, ?_⟩
  simp [ofForm, datum, node]

theorem answers_numberPattern (value : Literal) :
    (numberPattern value : Phrase ν _).Answers extent := by
  intro l
  rw [datum, node, renameNode_of_passesThrough rfl]
  refine tracked_rebuild_plain rfl value.plain value.itemless value.frozen fun l' => ?_
  exact ⟨.numberPattern value, rfl⟩

theorem answers_wildCardPattern : (wildCardPattern : Phrase ν _).Answers extent := by
  intro l
  rw [datum, node, renameNode_of_passesThrough rfl, rebuild_builtin]
  refine (records_mapM_nil (R := fun changes _ => changes = []) _ rfl).bind ?_
  rintro _ l₁ _ rfl
  exact records_ofExcept_bind rfl (records_pure ⟨.wildCardPattern, rfl⟩)

theorem answers_identifierPattern (x : ν) : (identifierPattern x).Answers extent := by
  intro l
  rw [datum, node, renameNode_identifierPattern]
  refine (records_bindFresh _).bind ?_
  rintro _ l₁ _ ⟨n, rfl, issued⟩
  exact records_pure ⟨.identifierPattern ⟨n, .inr issued⟩, rfl⟩

theorem Answers.constructorPattern {patterns : Phrase ν (.many .pattern)}
    (ih : patterns.Answers extent) (x : ν) : (constructorPattern x patterns).Answers extent := by
  intro l
  rw [datum, node, renameNode_constructorPattern]
  refine (tracked_renameItems rfl fun ps => ih _ l ps).bind ?_
  rintro _ l₁ _ ⟨us, rfl⟩
  exact records_pure ⟨.constructorPattern (.global l₁ (Identifier.datum x)) us, rfl⟩

theorem Answers.alternative {p : Phrase ν (.one .pattern)} {e : Phrase ν (.one .expression)}
    (ihp : p.Answers extent) (ihe : e.Answers extent) : (alternative p e).Answers extent := by
  intro l
  rw [datum, node, renameNode_alternative]
  refine Records.inScope ((tracked_call (ihp l)).bind ?_)
  intro v l₁ _ told
  refine (tracked_call (ihe l₁)).bind ?_
  rintro _ l₂ grown ⟨u', rfl⟩
  obtain ⟨u, rfl⟩ := told.later grown
  refine records_pure ⟨.alternative u u', ?_⟩
  simp [ofForm, datum, node]

theorem Answers.doExpr {e : Phrase ν (.one .expression)} (ih : e.Answers extent) :
    (doExpr e).Answers extent := by
  intro l
  rw [datum, node, renameNode_of_passesThrough rfl]
  refine tracked_rebuild_single rfl (tracked_fieldChange_node e.isNode_datum (ih l)) ?_
  rintro _ l₁ ⟨u, rfl⟩
  exact ⟨u.freeze_datum, .doExpr u, rfl⟩

theorem Answers.doLet {g : Phrase ν .group} (ih : g.Answers extent) :
    (doLet g).Answers extent := by
  intro l
  rw [datum, node, renameNode_doLet]
  refine (tracked_renameGroup rfl ih).bind ?_
  rintro _ l₁ _ ⟨_, rfl, g', rfl⟩
  refine records_pure ⟨.doLet g', ?_⟩
  simp [ofForm, datum, node]

theorem Answers.doBind {p : Phrase ν (.one .pattern)} {e : Phrase ν (.one .expression)}
    (ihp : p.Answers extent) (ihe : e.Answers extent) : (doBind p e).Answers extent := by
  intro l
  rw [datum, node, renameNode_of_passesThrough rfl]
  refine tracked_rebuild_pair rfl (tracked_fieldChange_node p.isNode_datum (ihp l))
    (fun l' _ => tracked_fieldChange_node e.isNode_datum (ihe l')) ?_
  intro v w l₁ l₂ grown hv hw
  refine ⟨hv.freeze, hw.freeze, ?_⟩
  obtain ⟨u, rfl⟩ := hv.later grown
  obtain ⟨u', rfl⟩ := hw
  exact ⟨.doBind u u', rfl⟩

theorem answers_constructor (x : ν) (type tag arity : Datum) :
    (constructor x type tag arity).Answers extent := by
  intro l
  cases extent with
  | expression => exact records_unsupported
  | module =>
      rw [datum, node, renameNode_constructor]
      refine records_pure ⟨.constructor (.global l (Identifier.datum x)) type tag arity, ?_⟩
      simp only [ofForm, List.map, freeze_globalName, freeze_freeze]
      rfl

theorem Answers.definition {constructors : Phrase ν (.many .constructor)}
    (ih : constructors.Answers extent) (type parameters : Datum) :
    (definition constructors type parameters).Answers extent := by
  intro l
  cases extent with
  | expression => exact records_unsupported
  | module =>
      rw [datum, node, renameNode_dataDefinition]
      refine (tracked_renameItems rfl fun ps => ih _ l ps).bind ?_
      rintro _ l₁ _ ⟨us, rfl⟩
      refine records_pure ⟨.definition us type parameters, ?_⟩
      simp [ofForm, datum, node]

theorem Answers.instanceOf {bindings : Phrase ν .declarations} (ih : bindings.Answers extent)
    (constraints type classname : Datum) :
    (instanceOf bindings constraints type classname).Answers extent := by
  intro l
  cases extent with
  | expression => exact records_unsupported
  | module =>
      rw [datum, node, renameNode_instanceOf]
      refine (tracked_renameDeclarations rfl ih).bind ?_
      rintro _ l₁ _ ⟨bs, rfl⟩
      refine records_pure ⟨.instanceOf bs constraints type classname, ?_⟩
      simp [ofForm, datum, node]

theorem Answers.cons {category : Category} {t : Phrase ν (.one category)}
    {ts : Phrase ν (.many category)} (iht : t.Answers extent) (ihts : ts.Answers extent) :
    (cons t ts).Answers extent := by
  intro d l ps same
  obtain ⟨p, qs, rfl, first, others⟩ := List.map_eq_cons_iff.1 same
  have head := iht l
  rw [← first] at head
  refine (tracked_call head).mapM_cons (fun l' _ => ihts d l' qs others) ?_
  rintro v _ l₁ l₂ grown told ⟨us, rfl⟩
  obtain ⟨u, rfl⟩ := told.later grown
  exact ⟨.cons u us, rfl⟩

theorem Answers.binding {right : Phrase ν (.one .expression)} {rest : Phrase ν .group}
    (ihright : right.Answers extent) (ihrest : rest.Answers extent) (x : ν)
    (type arity : Datum) : (binding x right type arity rest).Answers extent := by
  intro d l ps same
  obtain ⟨p, qs, rfl, first, others⟩ := List.map_eq_cons_iff.1 same
  refine (tracked_renameMember first ihright).mapM_cons (fun l' _ => ihrest d l' qs others) ?_
  rintro v _ l₁ l₂ grown member ⟨bs, rfl⟩
  obtain ⟨n, u, rfl⟩ := member.later grown
  exact ⟨.binding n u type arity bs, rfl⟩

theorem Answers.declaration {right : Phrase ν (.one .expression)}
    {rest : Phrase ν .declarations} (ihright : right.Answers extent)
    (ihrest : rest.Answers extent) (x : ν) (type arity : Datum) :
    (declaration x right type arity rest).Answers extent := by
  intro d l ps same
  obtain ⟨p, qs, rfl, first, others⟩ := List.map_eq_cons_iff.1 same
  refine (tracked_renameDeclared first ihright).mapM_cons (fun l' _ => ihrest d l' qs others) ?_
  rintro v _ l₁ l₂ grown member ⟨bs, rfl⟩
  obtain ⟨n, u, rfl⟩ := member.later grown
  exact ⟨.declaration n u type arity bs, rfl⟩

end Rules

theorem answers (extent : Extent) {s : Shape} (t : Phrase ν s) : t.Answers extent := by
  induction t with
  | typed e type location ih => exact ih.typed type location
  | located e location ih => exact ih.located location
  | literal f value => exact answers_literal f value
  | reference x => exact answers_reference x
  | apply f a ihf iha => exact ihf.apply iha
  | lambda x body ih => exact ih.lambda x
  | letIn g body ihg ih => exact ihg.letIn ih
  | caseOf e alternatives ihe iha => exact ihe.caseOf iha
  | doBlock statements e ihs ihe => exact ihs.doBlock ihe
  | locatedPattern p location ih => exact ih.locatedPattern location
  | numberPattern value => exact answers_numberPattern value
  | wildCardPattern => exact answers_wildCardPattern
  | identifierPattern x => exact answers_identifierPattern x
  | constructorPattern x patterns ih => exact ih.constructorPattern x
  | alternative p e ihp ihe => exact ihp.alternative ihe
  | doExpr e ih => exact ih.doExpr
  | doLet g ih => exact ih.doLet
  | doBind p e ihp ihe => exact ihp.doBind ihe
  | constructor x type tag arity => exact answers_constructor x type tag arity
  | definition constructors type parameters ih => exact ih.definition type parameters
  | instanceOf bindings constraints type classname ih =>
      exact ih.instanceOf constraints type classname
  | nil category =>
      intro d l ps same
      rw [List.map_eq_nil_iff.1 same]
      exact records_mapM_nil _ ⟨.nil category, rfl⟩
  | cons t ts iht ihts => exact iht.cons ihts
  | noBinding =>
      intro d l ps same
      rw [List.map_eq_nil_iff.1 same]
      exact records_mapM_nil _ ⟨.noBinding, rfl⟩
  | binding x right type arity rest ihright ihrest =>
      exact ihright.binding ihrest x type arity
  | noDeclaration =>
      intro d l ps same
      rw [List.map_eq_nil_iff.1 same]
      exact records_mapM_nil _ ⟨.noDeclaration, rfl⟩
  | declaration x right type arity rest ihright ihrest =>
      exact ihright.declaration ihrest x type arity

end Phrase

namespace Module

variable {ν : Type} [Identifier ν]

def Told (v : Datum) (l : List Datum) : Prop :=
  ∃ u : Module (In l), v = u.datum

theorem answers (extent : Extent) (m : Module ν) (l : List Datum) :
    Tracked extent (renameNode extent m.datum) l Told := by
  cases extent with
  | expression => exact records_unsupported
  | module =>
      rw [datum, Phrase.node, renameNode_module]
      refine (records_told _).bind fun text l₁ _ _ => ?_
      refine (records_debug _).bind fun _ l₂ _ _ => ?_
      refine (tracked_renameItems rfl fun ps => m.definitions.answers .module _ l₂ ps).bind ?_
      intro definitions l₃ _ told
      refine (tracked_renameItems rfl fun ps => m.instances.answers .module _ l₃ ps).bind ?_
      intro instances l₄ grown told'
      refine (Phrase.tracked_renameDeclarations rfl (m.bindings.answers .module)).bind ?_
      intro bindings l₅ grown' told''
      refine (records_bindFresh _).bind ?_
      rintro _ l₆ grown'' ⟨n, rfl, issued⟩
      obtain ⟨ds, rfl⟩ := told.later (grown.trans (grown'.trans grown''))
      obtain ⟨is, rfl⟩ := told'.later (grown'.trans grown'')
      obtain ⟨bs, rfl⟩ := told''.later grown''
      refine records_pure ⟨⟨⟨n, .inr issued⟩, m.classes, ds, m.declared, bs, is⟩, ?_⟩
      simp [ofForm, datum, Phrase.node]
      rfl

end Module

end ScopeResolution
