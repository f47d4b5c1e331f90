import ScopeResolution.Proofs.Names.Members
import ScopeResolution.Proofs.Restoration

namespace ScopeResolution

open Datum Names

namespace Datum

def fieldMentions (v : Datum) : List Mention :=
  v.nodesIn.flatMap mentions

theorem mentionsBelow_of_entries {d : Datum} {fs : List Datum} (fault : d.entriesFault? = none)
    (held : d.fieldEntries.map (·.2) = fs) :
    mentionsBelow d (fun c => c.1.mentions) = fs.flatMap fieldMentions := by
  have children : d.children.flatMap (fun c => c.1.mentions) = d.childNodes.flatMap mentions := by
    rw [Datum.children, List.flatMap_map]
    exact List.flatMap_subtype (p := (· ∈ d.childNodes)) (fun _ _ => rfl) |>.trans (by simp)
  rw [mentionsBelow, fault, children, childNodes, List.flatMap_assoc, ← held, List.flatMap_map]
  exact List.append_nil _

theorem mentionsBelow_form (f : Form) {fs : List Datum} (h : f.fields.length = fs.length) :
    mentionsBelow (.node (.builtin f) fs) (fun c => c.1.mentions) = fs.flatMap fieldMentions := by
  refine mentionsBelow_of_entries rfl ?_
  exact List.map_snd_zip h.ge

theorem mentions_of_unruled {f : Form} (plain : rule? f = none) (fs : List Datum) :
    (Phrase.node f fs).mentions = mentionsBelow (Phrase.node f fs) fun c => c.1.mentions := by
  have unruled : ruleOf? (Phrase.node f fs) = none := plain
  rw [mentions, mentionsNode, unruled]

theorem mentions_of_below {f : Form} {fs : List Datum} (plain : rule? f = none)
    (h : f.fields.length = fs.length) :
    (Phrase.node f fs).mentions = fs.flatMap fieldMentions :=
  (mentions_of_unruled plain fs).trans (mentionsBelow_form f h)

theorem mentions_of_rule {f : Form} {rule : Rule} (ruled : rule? f = some rule) (fs : List Datum) :
    (Phrase.node f fs).mentions = rule.mentions (Phrase.node f fs) fun c => c.1.mentions := by
  have found : ruleOf? (Phrase.node f fs) = some rule := ruled
  rw [mentions, mentionsNode, found]

theorem mentionsAt_of_field? {a : String} {f : Form} {fs : List Datum} {v : Datum}
    (h : field? a f.fields fs = some v) (told : Part (Phrase.node f fs) → List Mention) :
    mentionsAt (Phrase.node f fs) a told = told (child v (mem_of_field? h)) := by
  have found : part a (Phrase.node f fs) = .ok (child v (mem_of_field? h)) := part_of_field? h
  rw [mentionsAt, found]

theorem mentionsAt_of_missing {a : String} {f : Form} {fs : List Datum}
    (h : field? a f.fields fs = none) (told : Part (Phrase.node f fs) → List Mention) :
    mentionsAt (Phrase.node f fs) a told = [.fault (.noAttribute (Phrase.node f fs) a)] := by
  have missing : part a (Phrase.node f fs) = .error (.noAttribute (Phrase.node f fs) a) :=
    part_of_missing h
  rw [mentionsAt, missing]

theorem mentions_named {f : Form} {role : Role} {a : String} {x : Datum} {fs : List Datum}
    (named : rule? f = some (.head role a)) (first : field? a f.fields (x :: fs) = some x)
    (h : f.fields.length = fs.length + 1) :
    (Phrase.node f (x :: fs)).mentions = .name role x :: (x :: fs).flatMap fieldMentions := by
  have below : (mentionsBelow (Phrase.node f (x :: fs)) fun d => d.1.mentions) = _ :=
    mentionsBelow_form f h
  rw [mentions_of_rule named, Rule.mentions, mentionsAt_of_field? first, below]
  rfl

theorem mentions_of_name {f : Form} {role : Role} {a : String} {x : Datum} {fs : List Datum}
    (named : rule? f = some (.head role a)) (first : field? a f.fields (x :: fs) = some x)
    (h : f.fields.length = fs.length + 1) (plain : x.nodesIn = []) :
    (Phrase.node f (x :: fs)).mentions = .name role x :: fs.flatMap fieldMentions := by
  rw [mentions_named named first h, List.flatMap_cons, fieldMentions, plain]
  rfl

theorem mentions_typed (e type location : Datum) :
    (Phrase.node .typedExpr [e, type, location]).mentions = e.mentions := by
  have first : field? "expr" Form.typedExpr.fields [e, type, location] = some e := rfl
  rw [mentions_of_rule rfl, Rule.mentions, mentionsAt_of_field? first]
  rfl

theorem mentions_leaf {f : Form} {role : Role} {a : String} {x : Datum} {fs : List Datum}
    (ruled : rule? f = some (.leaf role a)) (first : field? a f.fields (x :: fs) = some x) :
    (Phrase.node f (x :: fs)).mentions = [.name role x] := by
  rw [mentions_of_rule ruled, Rule.mentions, mentionsAt_of_field? first]
  rfl

theorem mentions_identifier (x : Datum) :
    (Phrase.node .identifier [x]).mentions = [.name .load x] :=
  mentions_leaf (f := .identifier) rfl rfl

theorem mentions_identifierPattern (x : Datum) :
    (Phrase.node .identifierPattern [x]).mentions = [.name .bind x] :=
  mentions_leaf (f := .identifierPattern) rfl rfl

theorem mentions_constructor (x : Datum) (fs : List Datum) :
    (Phrase.node .constructor (x :: fs)).mentions = [.name .constructor x] :=
  mentions_leaf (f := .constructor) rfl rfl

theorem mentions_binding {x : Datum} (plain : x.nodesIn = []) (right type arity : Datum) :
    (Phrase.node .binding [x, right, type, arity]).mentions =
      .name .bind x :: [right, type, arity].flatMap fieldMentions :=
  mentions_of_name (f := .binding) rfl rfl rfl plain

theorem fieldMentions_of_nodes {ds : List Datum} (h : ∀ d ∈ ds, d.isNode = true) :
    (tuple ds).fieldMentions = ds.flatMap mentions := by
  have same : ds.filter isNode = ds := List.filter_eq_self.2 h
  rw [fieldMentions, nodesIn, same]

end Datum

@[simp]
theorem Literal.fieldMentions_datum (l : Literal) : l.datum.fieldMentions = [] := by
  rw [fieldMentions, l.nodesIn_datum]
  rfl

namespace Place

variable {ν : Type} [Identifier ν]

def mentions : Place ν → List Mention
  | .identifier role x => [.name role (Identifier.datum x)]
  | .exposed v => v.freeze.fieldMentions
  | .sealed _ => []
  | .literal _ => []

end Place

namespace Shape

def mentions : {s : Shape} → s.Tree → List Mention
  | .one _, d => d.mentions
  | .many _, ds => ds.flatMap Datum.mentions
  | .group, ds => ds.flatMap Datum.mentions
  | .declarations, ds => ds.flatMap Datum.mentions

end Shape

namespace Phrase

variable {ν : Type} [Identifier ν]

theorem isNode_of_mem_group : (g : Phrase ν .group) → ∀ d ∈ g.datum, d.isNode = true
  | .noBinding, d, h => by cases h
  | .binding x right type arity rest, d, h => by
      rcases List.mem_cons.1 h with rfl | h
      · rfl
      · exact isNode_of_mem_group rest d h

theorem isNode_of_mem_declarations : (bs : Phrase ν .declarations) → ∀ d ∈ bs.datum, d.isNode = true
  | .noDeclaration, d, h => by cases h
  | .declaration x right type arity rest, d, h => by
      rcases List.mem_cons.1 h with rfl | h
      · rfl
      · exact isNode_of_mem_declarations rest d h

@[simp]
theorem fieldMentions_datum {c : Category} (t : Phrase ν (.one c)) :
    t.datum.fieldMentions = Shape.mentions t.datum := by
  have isNode := t.isNode_datum
  cases same : t.datum with
  | node k fs => simp [fieldMentions, nodesIn, Shape.mentions]
  | _ =>
      rw [same] at isNode
      cases isNode

@[simp]
theorem fieldMentions_many {c : Category} (ts : Phrase ν (.many c)) :
    (tuple ts.datum).fieldMentions = Shape.mentions ts.datum :=
  fieldMentions_of_nodes ts.isNode_of_mem

@[simp]
theorem fieldMentions_group (g : Phrase ν .group) :
    (tuple g.datum).fieldMentions = Shape.mentions g.datum :=
  fieldMentions_of_nodes g.isNode_of_mem_group

@[simp]
theorem fieldMentions_declarations (bs : Phrase ν .declarations) :
    (tuple bs.datum).fieldMentions = Shape.mentions bs.datum :=
  fieldMentions_of_nodes bs.isNode_of_mem_declarations

theorem mentions_datum {s : Shape} (t : Phrase ν s)
    (h : ∀ p ∈ t.sites, (Identifier.datum p.2).nodesIn = []) :
    Shape.mentions t.datum = t.places.flatMap Place.mentions := by
  induction t with
    simp only [sites, places, List.filterMap_append, List.filterMap_cons, List.filterMap_nil,
      Place.identifier?, List.mem_append, List.mem_cons, List.not_mem_nil, or_false, or_imp,
      forall_and, forall_eq] at h
  | typed e type location ih =>
      refine (mentions_typed _ _ _).trans ((ih h).trans ?_)
      simp [places, Place.mentions]
  | located e location ih =>
      refine (mentions_of_below rfl rfl).trans ?_
      simp [places, Place.mentions, ih h]
  | literal form value =>
      refine (mentions_of_below ?_ ?_).trans ?_
      · cases form <;> rfl
      · cases form <;> rfl
      · simp [places, Place.mentions]
  | reference x => exact mentions_identifier _
  | apply f a ihf iha =>
      refine (mentions_of_below rfl rfl).trans ?_
      simp [places, ihf h.1, iha h.2]
  | lambda x body ih =>
      refine (mentions_of_name rfl rfl rfl h.1).trans ?_
      simp [places, Place.mentions, ih h.2]
  | letIn g body ihg ih =>
      refine (mentions_of_below rfl rfl).trans ?_
      simp [places, ihg h.1, ih h.2]
  | caseOf e alternatives ihe iha =>
      refine (mentions_of_below rfl rfl).trans ?_
      simp [places, ihe h.1, iha h.2]
  | doBlock statements e ihs ihe =>
      refine (mentions_of_below rfl rfl).trans ?_
      simp [places, ihs h.1, ihe h.2]
  | locatedPattern p location ih =>
      refine (mentions_of_below rfl rfl).trans ?_
      simp [places, Place.mentions, ih h]
  | numberPattern value =>
      refine (mentions_of_below rfl rfl).trans ?_
      simp [places, Place.mentions]
  | wildCardPattern =>
      refine (mentions_of_below rfl rfl).trans ?_
      simp [places]
  | identifierPattern x => exact mentions_identifierPattern _
  | constructorPattern x patterns ih =>
      refine (mentions_of_name rfl rfl rfl h.1).trans ?_
      simp [places, Place.mentions, ih h.2]
  | alternative p e ihp ihe =>
      refine (mentions_of_below rfl rfl).trans ?_
      simp [places, ihp h.1, ihe h.2]
  | doExpr e ih =>
      refine (mentions_of_below rfl rfl).trans ?_
      simp [places, ih h]
  | doLet g ih =>
      refine (mentions_of_below rfl rfl).trans ?_
      simp [places, ih h]
  | doBind p e ihp ihe =>
      refine (mentions_of_below rfl rfl).trans ?_
      simp [places, ihp h.1, ihe h.2]
  | constructor x type tag arity => exact mentions_constructor _ _
  | definition constructors type parameters ih =>
      refine (mentions_of_below rfl rfl).trans ?_
      simp [places, Place.mentions, ih h]
  | instanceOf bindings constraints type classname ih =>
      refine (mentions_of_below rfl rfl).trans ?_
      simp [places, Place.mentions, ih h]
  | nil category => rfl
  | cons t ts iht ihts =>
      simp [Shape.mentions, datum, places, ← iht h.1, ← ihts h.2]
  | noBinding => rfl
  | binding x right type arity rest ihr ihrest =>
      refine (congrArg₂ (· ++ ·) (mentions_binding h.1 _ _ _) (ihrest h.2.2)).trans ?_
      simp [places, Place.mentions, ihr h.2.1]
  | noDeclaration => rfl
  | declaration x right type arity rest ihr ihrest =>
      refine (congrArg₂ (· ++ ·) (mentions_binding h.1 _ _ _) (ihrest h.2.2)).trans ?_
      simp [places, Place.mentions, ihr h.2.1]

end Phrase

namespace Module

variable {ν : Type} [Identifier ν]

theorem mentions_datum (m : Module ν) (h : ∀ p ∈ m.sites, (Identifier.datum p.2).nodesIn = []) :
    m.datum.mentions = m.places.flatMap Place.mentions := by
  simp only [sites, places, List.filterMap_append, List.filterMap_cons, Place.identifier?,
    List.mem_append, List.mem_cons, or_imp, forall_and, forall_eq] at h
  obtain ⟨name, definitions, bindings, instances⟩ := h
  refine (mentions_of_name rfl rfl rfl name).trans ?_
  simp [places, Place.mentions, m.definitions.mentions_datum definitions,
    m.bindings.mentions_datum bindings, m.instances.mentions_datum instances]

end Module

namespace Datum

/-- No node that stands in the field mentions anything. -/
def Silent (v : Datum) : Prop :=
  v.freeze.fieldMentions = []

theorem silent_of_nodes {v : Datum} (h : ∀ d ∈ v.freeze.nodesIn, d.mentions = []) : v.Silent :=
  List.flatMap_eq_nil_iff.2 h

theorem mentions_location (row column absolute : Int) :
    (Phrase.node .location [.int row, .int column, .int absolute]).mentions = [] := by
  refine (mentions_of_below rfl rfl).trans ?_
  simp [fieldMentions, nodesIn]

theorem isNode_of_essence {d e : Datum} (same : d.essence = e.essence) (h : e.isNode = false) :
    d.isNode = false := by
  cases d with
  | node k fs => exact absurd same.symm (essence_ne_node h _ _)
  | _ => rfl

end Datum

namespace Place

theorem length_le_mentions (ps : List (Place Name)) :
    (ps.filterMap identifier?).length ≤ (ps.flatMap mentions).length := by
  induction ps with
  | nil => exact Nat.le_refl _
  | cons p ps ih =>
      cases p <;> simp only [List.filterMap_cons, identifier?, List.flatMap_cons, mentions,
        List.length_append, List.length_cons, List.length_nil] <;> omega

theorem mentions_eq_iff (ps : List (Place Name)) :
    ps.flatMap mentions = (ps.filterMap identifier?).map NameSet.mention ↔
      ∀ v ∈ ps.filterMap exposed?, v.Silent := by
  induction ps with
  | nil => simp
  | cons p ps ih =>
      cases p with
      | identifier role x =>
          simp only [List.flatMap_cons, List.filterMap_cons, identifier?, exposed?, List.map_cons,
            ← ih]
          exact List.cons_inj_right _
      | «sealed» v => simpa [List.filterMap_cons, mentions] using ih
      | literal l => simpa [List.filterMap_cons, mentions] using ih
      | exposed v =>
          simp only [List.flatMap_cons, List.filterMap_cons, identifier?, exposed?,
            List.forall_mem_cons, ← ih]
          constructor
          · intro same
            -- There are no more mentions than identifiers, so none is left for the data.
            have lengths := congrArg List.length same
            have least := length_le_mentions ps
            rw [List.length_append, List.length_map] at lengths
            have silent : mentions (.exposed v : Place Name) = [] :=
              List.length_eq_zero_iff.1 (by omega)
            rw [silent, List.nil_append] at same
            exact ⟨silent, same⟩
          · rintro ⟨silent, rest⟩
            have none : mentions (.exposed v : Place Name) = [] := silent
            rw [none, List.nil_append, rest]

end Place

def Phrase.Plain {s : Shape} (t : Phrase Symbol s) : Prop :=
  ∀ p ∈ t.sites, p.2.datum.isNode = false

def Module.Plain (m : Module Symbol) : Prop :=
  ∀ p ∈ m.sites, p.2.datum.isNode = false

namespace Names

theorem nodesIn_of_facing {ps : List (Role × Name)} {qs : List (Role × Symbol)}
    (h : List.Forall₂ (Phrase.Facing fun n x => n.symbol.essence = x.essence) ps qs)
    (plain : ∀ q ∈ qs, q.2.datum.isNode = false) :
    ∀ p ∈ ps, (Identifier.datum p.2).nodesIn = [] := by
  induction h with
  | nil => exact List.forall_mem_nil _
  | @cons p q ps qs facing _ ih =>
      rw [List.forall_mem_cons] at plain
      refine List.forall_mem_cons.2 ⟨?_, ih plain.2⟩
      have isNode := isNode_of_essence facing.2 plain.1
      have number : (Datum.int p.2.uid).isNode = false := rfl
      simp [Identifier.datum_name, Name.datum, nodesIn, isNode, number]

theorem nodesIn_sites_resolve (t : Phrase Symbol (.one .expression)) (h : t.Plain) :
    ∀ p ∈ (t.resolve .initial).1.sites, (Identifier.datum p.2).nodesIn = [] := by
  have like : (t.resolve .initial).1.Like (fun n x => n.symbol.essence = x.essence) Eq t :=
    t.like_resolve (fun _ _ => id) Context.sound_initial fun _ _ => rfl
  exact nodesIn_of_facing (Phrase.sites_of_like like) h

theorem nodesIn_sites_resolve_module (m : Module Symbol) (h : m.Plain) :
    ∀ p ∈ (m.resolve .initial).1.sites, (Identifier.datum p.2).nodesIn = [] := by
  have like : (m.resolve .initial).1.Like (fun n x => n.symbol.essence = x.essence) Eq m :=
    m.like_resolve (fun _ _ => id) Context.sound_initial fun _ _ => rfl
  exact nodesIn_of_facing (Module.sites_of_like like) h

theorem mentions_resolve (t : Phrase Symbol (.one .expression)) (h : t.Plain) :
    (t.resolve .initial).1.datum.mentions =
      (t.resolve .initial).1.places.flatMap Place.mentions :=
  Phrase.mentions_datum _ (nodesIn_sites_resolve t h)

theorem mentions_resolve_module (m : Module Symbol) (h : m.Plain) :
    (m.resolve .initial).1.datum.mentions =
      (m.resolve .initial).1.places.flatMap Place.mentions :=
  Module.mentions_datum _ (nodesIn_sites_resolve_module m h)

/-- What is collected from a value in whose places identifiers and data stand: the names at the
places of identifiers, and what the exposed data mention. If that is nothing, the sets of names are
exact and the global ones can be picked. -/
structure Collects (d : Datum) (places : List (Place Name)) : Prop where
  gathers : ∀ roles, d.names roles = NameSet.gather roles (places.flatMap Place.mentions)
  sees_sites_iff : d.mentions = (places.filterMap Place.identifier?).map NameSet.mention ↔
    ∀ v ∈ places.filterMap Place.exposed?, v.Silent
  exact : (∀ v ∈ places.filterMap Place.exposed?, v.Silent) → ∀ roles, ∃ s,
    d.names roles = .ok s ∧ s.Holds (NameSet.asked roles (places.filterMap Place.identifier?))
  globals : (∀ v ∈ places.filterMap Place.exposed?, v.Silent) → ∃ s,
    d.globalReferences = .ok s ∧ s.Holds ((NameSet.asked (.one .load)
      (places.filterMap Place.identifier?)).filter fun n => n.uid = 0)

theorem collects_of_mentions {d : Datum} {places : List (Place Name)}
    (h : d.mentions = places.flatMap Place.mentions) : Collects d places := by
  have exact : (∀ v ∈ places.filterMap Place.exposed?, v.Silent) → ∀ roles, ∃ s,
      d.names roles = .ok s ∧
        s.Holds (NameSet.asked roles (places.filterMap Place.identifier?)) := by
    intro silent roles
    rw [names_eq_gather, h, (Place.mentions_eq_iff places).2 silent]
    exact NameSet.holds_gather roles _
  refine ⟨fun roles => by rw [names_eq_gather, h], by rw [h, Place.mentions_eq_iff], exact, ?_⟩
  intro silent
  obtain ⟨s, collected, holds⟩ := exact silent (.one .load)
  obtain ⟨t, selected, holds'⟩ := holds.select true
  refine ⟨t, ?_, by simpa using holds'⟩
  simp [globalReferences, collected, selected, bind, Except.bind]

theorem collects_resolve (t : Phrase Symbol (.one .expression)) (h : t.Plain) :
    Collects (t.resolve .initial).1.datum (t.resolve .initial).1.places :=
  collects_of_mentions (mentions_resolve t h)

theorem collects_resolve_module (m : Module Symbol) (h : m.Plain) :
    Collects (m.resolve .initial).1.datum (m.resolve .initial).1.places :=
  collects_of_mentions (mentions_resolve_module m h)

theorem names_eq_of_sites {d e : Datum} {ps qs : List (Place Name)} (hd : Collects d ps)
    (he : Collects e qs) (same : ps.filterMap Place.identifier? = qs.filterMap Place.identifier?)
    (silent : ∀ v ∈ ps.filterMap Place.exposed?, v.Silent)
    (silent' : ∀ v ∈ qs.filterMap Place.exposed?, v.Silent) (roles : Roles) :
    d.names roles = e.names roles := by
  rw [names_eq_gather, names_eq_gather, hd.sees_sites_iff.2 silent, he.sees_sites_iff.2 silent',
    same]

theorem renamed_collects (t u : Phrase Symbol (.one .expression)) (m n : Module Symbol)
    (ht : t.Plain) (hm : m.Plain) :
    ((t.datum.renamed .expression).1 = .ok (t.resolve .initial).1.datum ∧
      Collects (t.resolve .initial).1.datum (t.resolve .initial).1.places ∧
      (u.bare = t.bare → (∀ v ∈ u.exposed, v.Silent) → (∀ v ∈ t.exposed, v.Silent) → ∀ roles,
        (u.resolve .initial).1.datum.names roles = (t.resolve .initial).1.datum.names roles)) ∧
    (m.datum.renamed .module).1 = .ok (m.resolve .initial).1.datum ∧
      Collects (m.resolve .initial).1.datum (m.resolve .initial).1.places ∧
      (n.bare = m.bare → (∀ v ∈ n.exposed, v.Silent) → (∀ v ∈ m.exposed, v.Silent) → ∀ roles,
        (n.resolve .initial).1.datum.names roles = (m.resolve .initial).1.datum.names roles) := by
  refine ⟨⟨t.ok_renamed .expression, collects_resolve t ht, fun same silent silent' => ?_⟩,
    m.ok_renamed, collects_resolve_module m hm, fun same silent silent' => ?_⟩
  · have plain : u.Plain := by
      rw [Phrase.Plain, ← u.sites_bare, same, t.sites_bare]
      exact ht
    rw [← u.exposed_resolve .initial] at silent
    rw [← t.exposed_resolve .initial] at silent'
    refine names_eq_of_sites (collects_resolve u plain) (collects_resolve t ht) ?_ silent silent'
    have bare := congrArg Phrase.sites (u.bare_resolve .initial)
    rw [same, ← t.bare_resolve, Phrase.sites_bare, Phrase.sites_bare] at bare
    exact bare
  · have plain : n.Plain := by
      rw [Module.Plain, ← n.sites_bare, same, m.sites_bare]
      exact hm
    rw [← n.exposed_resolve .initial] at silent
    rw [← m.exposed_resolve .initial] at silent'
    refine names_eq_of_sites (collects_resolve_module n plain) (collects_resolve_module m hm) ?_
      silent silent'
    have bare := congrArg Module.sites (n.bare_resolve .initial)
    rw [same, ← m.bare_resolve, Module.sites_bare, Module.sites_bare] at bare
    exact bare

def markedFunction (type : String) (row : Int) : Phrase Symbol (.one .expression) :=
  let x := Symbol.ofText "x"
  .located (.lambda x (.typed (.reference x) (Phrase.node .identifier [.text type]) .null))
    (Phrase.node .location [.int row, .int 1, .int 0])

def markedModule (type : String) (row : Int) : Module Symbol where
  name := .ofText "m"
  classes := .null
  definitions := .nil .definition
  declared := .null
  bindings := .declaration (.ofText "f") (markedFunction type row) .null (.int 1) .noDeclaration
  instances := .nil .instanceOf

theorem silent_marked (row : Int) : (Phrase.node .location [.int row, .int 1, .int 0]).Silent := by
  refine silent_of_nodes fun d hd => ?_
  rw [List.mem_singleton.1 hd]
  exact mentions_location row 1 0

theorem silent_markedModule (type : String) (row : Int) :
    ∀ v ∈ (markedModule type row).exposed, v.Silent := by
  have exposed : (markedModule type row).exposed =
    [.null, .null, Phrase.node .location [.int row, .int 1, .int 0], .null, .int 1] := rfl
  simp only [exposed, List.forall_mem_cons]
  exact ⟨rfl, rfl, silent_marked row, rfl, rfl, List.forall_mem_nil _⟩

theorem collects_marked :
    (∃ s, ((markedFunction "a" 1).resolve .initial).1.datum.names .all = .ok s ∧
      s.Holds [⟨.ofText "x", 2⟩, ⟨.ofText "x", 2⟩]) ∧
    ((markedModule "a" 1).resolve .initial).1.datum.names .all =
      ((markedModule "b" 2).resolve .initial).1.datum.names .all := by
  have plain : ∀ p ∈ (markedFunction "a" 1).sites, p.2.datum.isNode = false := by decide
  have plain' : ∀ p ∈ (markedModule "b" 2).sites, p.2.datum.isNode = false := by decide
  obtain ⟨⟨_, tree, _⟩, _, _, alike⟩ := renamed_collects (markedFunction "a" 1)
    (markedFunction "b" 2) (markedModule "b" 2) (markedModule "a" 1) plain plain'
  have silent : ∀ v ∈ (markedFunction "a" 1).exposed, v.Silent :=
    List.forall_mem_singleton.2 (silent_marked 1)
  refine ⟨tree.exact silent .all, ?_⟩
  exact alike rfl (silent_markedModule "a" 1) (silent_markedModule "b" 2) .all

def hiddenReference : Phrase Symbol (.one .expression) :=
  .located (.literal .number (.ofInt 1)) (Phrase.node .identifier [.text "x"])

theorem collects_hidden_reference :
    (hiddenReference.datum.renamed .expression).1 =
        .ok (hiddenReference.resolve .initial).1.datum ∧
      (hiddenReference.resolve .initial).1.sites = [] ∧
      (∃ s, (hiddenReference.resolve .initial).1.datum.names .all = .ok s ∧
        s.toList = [.text "x"]) ∧
      (hiddenReference.resolve .initial).1.datum.globalReferences =
        .error (.noAttribute (.text "x") "is_global") := by
  have told : (hiddenReference.resolve .initial).1.datum.mentions = [.name .load (.text "x")] := by
    have places := Phrase.mentions_datum (hiddenReference.resolve .initial).1
      fun _ mem => nomatch mem
    refine places.trans ((List.append_nil _).trans ?_)
    exact (List.append_nil _).trans (mentions_identifier (.text "x"))
  have global : (Symbol.ofText "x").datum.isGlobal =
      .error (.noAttribute (.text "x") "is_global") := rfl
  refine ⟨hiddenReference.ok_renamed .expression, rfl, ?_, ?_⟩
  · obtain ⟨s, gathered, keys⟩ := NameSet.gather_single .all .load rfl (Symbol.ofText "x")
    refine ⟨s, by rw [names_eq_gather, told]; exact gathered, ?_⟩
    rw [NameSet.toList, keys]
    rfl
  · obtain ⟨s, gathered, keys⟩ := NameSet.gather_single (.one .load) .load rfl (Symbol.ofText "x")
    have collected : (hiddenReference.resolve .initial).1.datum.names (.one .load) = .ok s := by
      rw [names_eq_gather, told]
      exact gathered
    simp [globalReferences, collected, NameSet.select, keys, global, bind, Except.bind]

end Names

end ScopeResolution
