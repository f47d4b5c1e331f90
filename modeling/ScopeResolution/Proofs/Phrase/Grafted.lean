import ScopeResolution.Proofs.Course
import ScopeResolution.Proofs.Phrase.Places
import ScopeResolution.Proofs.Scoping.Numbering

namespace ScopeResolution

open Datum Traversal Traversal.Routine

namespace Phrase

open Renaming

/-- The tree is that of the phrase with strangers in the place of some of its nodes. The course is
what renaming comes across in it, in order. -/
inductive Grafted : {s : Shape} → Phrase Symbol s → s.Tree → List Encounter → Prop
  | intact {s : Shape} (t : Phrase Symbol s) : Grafted t t.datum (t.allocated.map .binding)
  | stranger {c : Category} (t : Phrase Symbol (.one c)) {d : Datum} (h : Unsupported d) :
      Grafted (s := .one c) t d [.stranger d]
  | typed {e d es} (type location : Datum) (h : Grafted (s := .one .expression) e d es) :
      Grafted (.typed e type location) (node .typedExpr [d, type.freeze, location.freeze]) es
  | located {e d es} (location : Datum) (h : Grafted (s := .one .expression) e d es) :
      Grafted (.located e location) (node .located [d, location.freeze]) es
  | apply {f a d d' es es'} (hf : Grafted (s := .one .expression) f d es)
      (ha : Grafted (s := .one .expression) a d' es') :
      Grafted (.apply f a) (node .apply [d, d']) (es ++ es')
  | lambda {body d es} (x : Symbol) (h : Grafted (s := .one .expression) body d es) :
      Grafted (.lambda x body) (node .lambda [x.datum, d]) (.binding x :: es)
  | letIn {g body ds d es es'} (hg : Grafted (s := .group) g ds es)
      (h : Grafted (s := .one .expression) body d es') :
      Grafted (.letIn g body) (node .letIn [.tuple ds, d]) (g.names.map .binding ++ es ++ es')
  | caseOf {e alternatives d ds es es'} (h : Grafted (s := .one .expression) e d es)
      (ha : Grafted (s := .many .alternative) alternatives ds es') :
      Grafted (.caseOf e alternatives) (node .caseOf [d, .tuple ds]) (es' ++ es)
  | doBlock {statements e ds d es es'} (hs : Grafted (s := .many .statement) statements ds es)
      (h : Grafted (s := .one .expression) e d es') :
      Grafted (.doBlock statements e) (node .doBlock [.tuple ds, d]) (es ++ es')
  | locatedPattern {p d es} (location : Datum) (h : Grafted (s := .one .pattern) p d es) :
      Grafted (.locatedPattern p location) (node .located [d, location.freeze]) es
  | constructorPattern {patterns ds es} (x : Symbol)
      (h : Grafted (s := .many .pattern) patterns ds es) :
      Grafted (.constructorPattern x patterns) (node .constructorPattern [x.datum, .tuple ds]) es
  | alternative {p e d d' es es'} (hp : Grafted (s := .one .pattern) p d es)
      (h : Grafted (s := .one .expression) e d' es') :
      Grafted (.alternative p e) (node .alternative [d, d']) (es ++ es')
  | doExpr {e d es} (h : Grafted (s := .one .expression) e d es) :
      Grafted (.doExpr e) (node .doExpr [d]) es
  | doLet {g ds es} (h : Grafted (s := .group) g ds es) :
      Grafted (.doLet g) (node .doLet [.tuple ds]) (g.names.map .binding ++ es)
  | doBind {p e d d' es es'} (hp : Grafted (s := .one .pattern) p d es)
      (h : Grafted (s := .one .expression) e d' es') :
      Grafted (.doBind p e) (node .doBind [d, d']) (es ++ es')
  | cons {c t ts d ds es es'} (ht : Grafted (s := .one c) t d es)
      (hts : Grafted (s := .many c) ts ds es') :
      Grafted (s := .many c) (.cons t ts) (d :: ds) (es ++ es')
  | binding {right rest d ds es es'} (x : Symbol) (type arity : Datum)
      (h : Grafted (s := .one .expression) right d es) (hrest : Grafted (s := .group) rest ds es') :
      Grafted (.binding x right type arity rest)
        (node .binding [x.datum, d, type.freeze, arity.freeze] :: ds) (es ++ es')

def Presents : {s : Shape} → Phrase Symbol s → s.Tree → Prop
  | .one _, _, d => d.isNode = true
  | .many _, _, ds => ∀ d ∈ ds, d.isNode = true
  | .group, g, ds => ds.map (·.attribute? "name") = g.names.map fun x => some x.datum
  | .declarations, _, _ => True

def Takes : {s : Shape} → Phrase Symbol s → s.Tree → List Encounter → Prop
  | .one _, t, d, es => ∀ c, Meets d c es (t.resolve c).1.datum (t.resolve c).2
  | .many _, ts, ds, es => ∀ (e : Datum) c (ps : List (Part e)), ps.map (·.1) = ds →
      Renaming.Takes (visits .expression e) (ps.mapM call) c es (ts.resolve c).1.datum
        (ts.resolve c).2
  | .group, g, ds, es => ∀ (e : Datum) c (ps : List (Part e)), ps.map (·.1) = ds →
      c.Binds g.names → Renaming.Takes (visits .expression e) (ps.mapM renameMember) c es
        (g.resolve c).1.datum (g.resolve c).2
  | .declarations, _, _, _ => True

theorem presents_datum {s : Shape} (t : Phrase Symbol s) : t.Presents t.datum :=
  match s, t with
  | .one _, t => t.isNode_datum
  | .many _, ts => ts.isNode_of_mem
  | .group, g => g.map_name_datum
  | .declarations, _ => trivial

theorem last_allocated {s : Shape} (t : Phrase Symbol s) (c : Context) :
    (t.resolve c).2.last = c.last + t.allocated.length := by
  rw [t.last_resolve, allocated, Scoping.length_allocated]

theorem takes_datum {s : Shape} (t : Phrase Symbol s) (h : Extent.expression.CoversShape s) :
    t.Takes t.datum (t.allocated.map .binding) :=
  match s, t, t.refined .expression h with
  | .one _, t, refined => fun c => meets_of_renames (refined c) (t.last_allocated c)
  | .many _, ts, refined => fun e c ps same =>
      (refined e c ps same).takes _ (ts.last_allocated c)
  | .group, g, refined => fun e c ps same binds =>
      (refined e c ps same binds).takes _ (g.last_allocated c)
  | .declarations, _, _ => trivial

namespace Grafted

theorem presents {s : Shape} {t : Phrase Symbol s} {tree : s.Tree} {es : List Encounter}
    (h : Grafted t tree es) : t.Presents tree := by
  induction h with
  | intact t => exact t.presents_datum
  | stranger _ unsupported => exact isNode_of_unsupported unsupported
  | cons _ _ head tail => exact List.forall_mem_cons.2 ⟨head, tail⟩
  | binding x _ _ _ _ _ tail =>
      rw [Presents, names]
      exact congrArg (some x.datum :: ·) tail
  | _ => exact rfl

theorem unsupported {s : Shape} {t : Phrase Symbol s} {tree : s.Tree} {es : List Encounter}
    (h : Grafted t tree es) : ∀ d, .stranger d ∈ es → Unsupported d := by
  induction h with
  | stranger _ unsupported => simpa using unsupported
  | _ => simp_all [or_imp]

theorem takes {s : Shape} {t : Phrase Symbol s} {tree : s.Tree} {es : List Encounter}
    (h : Grafted t tree es) (covers : Extent.expression.CoversShape s) : t.Takes tree es := by
  induction h with
  | intact t => exact t.takes_datum covers
  | stranger t unsupported => exact fun c => meets_stranger unsupported
  | typed type location _ ih =>
      intro c
      refine meets_of_takes ?_
      rw [node, renameNode_typedExpr]
      refine (takes_call (ih trivial c)).bind_last (takes_return ?_)
      simp [ofForm, resolve, datum, node]
  | located location _ ih =>
      intro c
      refine meets_of_takes ?_
      rw [node, renameNode_located]
      refine (takes_call (ih trivial c)).bind_last (takes_return ?_)
      simp [ofForm, resolve, datum, node]
  | apply hf ha ihf iha =>
      intro c
      refine meets_pair rfl rfl (takes_fieldChange_node hf.presents (ihf trivial c))
        (takes_fieldChange_node ha.presents (iha trivial _)) ?_ ?_
      · exact freeze_datum _
      · exact freeze_datum _
  | lambda x _ ih =>
      intro c
      refine meets_of_takes ?_
      rw [node, renameNode_lambda]
      refine Reaches.inScope ((takes_bindFresh x).bind ?_)
      refine (takes_call (ih trivial (c.bind x))).bind_last (takes_return ?_)
      simp [ofForm, resolve, datum, node, Identifier.datum_name]
  | letIn hg _ ihg ih =>
      -- All names of the group are bound before any of its right sides is visited.
      intro c
      refine meets_of_takes ?_
      rw [node, renameNode_letIn]
      refine Reaches.inScope ((takes_renameGroup rfl hg.presents fun ps same =>
        ihg trivial _ _ ps same (c.binds_bindAll _)).bind ?_)
      refine (takes_call (ih trivial _)).bind_last (takes_return ?_)
      simp [ofForm, resolve, datum, node]
  | caseOf _ _ ih iha =>
      -- The alternatives are visited before the expression, which is the first field.
      intro c
      refine meets_of_takes ?_
      rw [node, renameNode_caseOf]
      refine (takes_renameItems rfl fun ps => iha trivial _ c ps).bind ?_
      refine (takes_call (ih trivial _)).bind_last (takes_return ?_)
      simp [ofForm, resolve, datum, node]
  | doBlock hs h ihs ih =>
      intro c
      refine meets_pair rfl rfl (takes_fieldChange_items hs.presents fun ps => ihs trivial _ c ps)
        (takes_fieldChange_node h.presents (ih trivial _)) rfl ?_
      exact freeze_datum _
  | locatedPattern location _ ih =>
      intro c
      refine meets_of_takes ?_
      rw [node, renameNode_located]
      refine (takes_call (ih trivial c)).bind_last (takes_return ?_)
      simp [ofForm, resolve, datum, node]
  | constructorPattern x _ ih =>
      intro c
      refine meets_of_takes ?_
      rw [node, renameNode_constructorPattern]
      refine (takes_renameItems rfl fun ps => ih trivial _ c ps).bind_last ?_
      exact takes_return rfl
  | alternative _ _ ihp ih =>
      intro c
      refine meets_of_takes ?_
      rw [node, renameNode_alternative]
      refine Reaches.inScope ((takes_call (ihp trivial c)).bind ?_)
      refine (takes_call (ih trivial _)).bind_last (takes_return ?_)
      simp [ofForm, resolve, datum, node]
  | doExpr h ih =>
      intro c
      refine meets_single rfl rfl (takes_fieldChange_node h.presents (ih trivial c)) ?_
      exact freeze_datum _
  | doLet hg ihg =>
      intro c
      refine meets_of_takes ?_
      rw [node, renameNode_doLet]
      refine (takes_renameGroup rfl hg.presents fun ps same =>
        ihg trivial _ _ ps same (c.binds_bindAll _)).bind_last (takes_return ?_)
      simp [ofForm, resolve, datum, node]
  | doBind hp h ihp ih =>
      intro c
      refine meets_pair rfl rfl (takes_fieldChange_node hp.presents (ihp trivial c))
        (takes_fieldChange_node h.presents (ih trivial _)) ?_ ?_
      · exact freeze_datum _
      · exact freeze_datum _
  | cons _ _ iht ihts =>
      intro e c ps same
      obtain ⟨p, qs, rfl, first, others⟩ := List.map_eq_cons_iff.1 same
      have head := iht covers c
      rw [← first] at head
      exact (takes_call head).mapM_cons (ihts covers e _ qs others)
  | binding x type arity _ _ ih ihrest =>
      intro e c ps same bound
      obtain ⟨p, qs, rfl, first, others⟩ := List.map_eq_cons_iff.1 same
      rw [names, Context.Binds, List.forall_mem_cons] at bound
      have head := takes_renameMember first bound.1 (ih trivial c) (freeze_datum _)
      exact head.mapM_cons (ihrest trivial e _ qs others (binds_resolve _ bound.2))

end Grafted

end Phrase

namespace Renaming

open Encounter (offender? taken)

theorem Meets.rename {d v : Datum} {c c₁ : Context} {es : List Encounter} (h : Meets d c es v c₁)
    {r : Resolver} (shown : r.Shows c) {first : Datum} (offends : offender? es = some first) :
    ∃ r', r.rename .expression d = (.error (refusal first), r') ∧
      r'.counter = r.counter + (taken es).length := by
  obtain ⟨r', _, counted, out⟩ := h r shown
  rw [offends] at out
  rw [Resolver.rename_eq_recurse]
  exact ⟨r', out, counted.trans (congrArg (· + (taken es).length) shown.counter.symm)⟩

theorem rename_carries (t : Phrase Symbol (.one .expression)) {r : Resolver} {c : Context}
    (shown : r.Shows c) :
    ∃ r', r.rename .expression t.datum = (.ok (t.resolve c).1.datum, r') ∧
      (t.resolve c).1.carried = t.carried := by
  obtain ⟨r', renamed, _⟩ := t.refined .expression trivial c r shown
  rw [Resolver.rename_eq_recurse]
  exact ⟨r', renamed, t.carried_resolve c⟩

/-- Renaming refuses the first stranger in its course, once all bindings before it are made. What a
tree carries is no stranger, whatever it is. -/
theorem rename_refuses {t : Phrase Symbol (.one .expression)} {tree : Datum} {es : List Encounter}
    (h : t.Grafted tree es) (strange : ∃ d, .stranger d ∈ es) {r : Resolver} {c : Context}
    (shown : r.Shows c) :
    (∃ (xs : List Symbol) (d : Datum) (after : List Encounter) (r' : Resolver),
      es = xs.map .binding ++ .stranger d :: after ∧
      r.rename .expression tree = (.error (refusal d), r') ∧
      r'.counter = r.counter + xs.length ∧
      ∀ text, d.rendered = .ok text → (refusal d).category = .wrongType ∧
        (refusal d).message = "Unsupported node " ++ text) ∧
    ∃ r', r.rename .expression t.datum = (.ok (t.resolve c).1.datum, r') ∧
      (t.resolve c).1.carried = t.carried := by
  obtain ⟨d, after, split, offends⟩ := Encounter.exists_first strange
  obtain ⟨r', refused, counted⟩ := Meets.rename (h.takes trivial c) shown offends
  have unsupported := h.unsupported d (Encounter.mem_of_offender? offends)
  exact ⟨⟨taken es, d, after, r', split, refused, counted, fun text told =>
    refusal_of_rendered unsupported told⟩, rename_carries t shown⟩

def closure : Datum :=
  .node (.derived 0 none "Closure" ["arg", "body"] [] (.builtin .lambda)) [.text "x", .null]

def inspection : Phrase Symbol (.one .expression) :=
  let x := Symbol.ofText "x"
  let alternative := Phrase.alternative (.identifierPattern x) (.reference x)
  .lambda x (.typed (.caseOf (.reference x) (.cons alternative (.nil .alternative)))
    (Phrase.node .module []) .null)

theorem inspection_refused :
    let x := Symbol.ofText "x"
    let location := Phrase.node .location [.int 1, .int 2, .int 0]
    let course := [.binding x, .binding x, .stranger closure, .stranger location]
    ∃ tree, inspection.Grafted tree course ∧ ∃ r',
      Resolver.initial.rename .expression tree = (.error (refusal closure), r') ∧
      r'.counter = 3 ∧
      (refusal closure).message = "Unsupported node Closure(arg='x', body=None)" := by
  intro x location course
  have derived : Unsupported closure := ⟨by decide, rfl⟩
  have builtin : Unsupported location := ⟨by decide, rfl⟩
  have grafted : inspection.Grafted _ course :=
    .lambda x (.typed _ _ (.caseOf (.stranger _ builtin)
      (.cons (.alternative (.intact _) (.stranger _ derived)) (.intact _))))
  have strange : ∃ d, Encounter.stranger d ∈ course := ⟨closure, by simp [course]⟩
  obtain ⟨⟨xs, d, after, r', split, refused, counted, told⟩, _⟩ :=
    rename_refuses grafted strange Resolver.shows_initial
  obtain ⟨offends, before⟩ := Encounter.first_of_split xs d after
  rw [← split] at offends before
  obtain rfl : closure = d := Option.some.inj offends
  rw [← before] at counted
  exact ⟨_, grafted, r', refused, counted, (told _ rfl).2⟩

end Renaming

end ScopeResolution
