import ScopeResolution.Proofs.Names.Sites
import ScopeResolution.Proofs.Phrase.BuiltIn
import ScopeResolution.Proofs.Transformation

namespace ScopeResolution

open Datum Names

def Mention.untied : Mention → Mention
  | .name role d => .name role (untied.inField d)
  | .fault (.noAttribute d a) => .fault (.noAttribute (untied.inField d) a)
  | .fault f => .fault f

namespace Datum

theorem filter_isNode_untied (xs : List Datum) :
    (xs.map untied).filter isNode = (xs.filter isNode).map untied := by
  rw [List.filter_map]
  refine congrArg (List.map untied) (List.filter_congr fun x _ => ?_)
  exact x.isNode_untied

theorem nodesIn_inField (v : Datum) : (untied.inField v).nodesIn = v.nodesIn.map untied := by
  cases v with
  | node k fs => rfl
  | tuple xs =>
      rw [inField_tuple]
      exact filter_isNode_untied xs
  | name s u => exact filter_isNode_untied [s, u]
  | _ => rfl

theorem mentions_of_plain {d : Datum} (h : d.isNode = false) :
    d.mentions = [.fault (.noAttribute d Own.entries.name)] := by
  rw [mentions]
  cases d <;> first | rfl | cases h

theorem isNode_inField (v : Datum) : (untied.inField v).isNode = v.isNode := by
  cases v <;> rfl

theorem fieldMentions_inField {v : Datum}
    (h : ∀ c ∈ v.nodesIn, c.untied.mentions = c.mentions.map Mention.untied) :
    (untied.inField v).fieldMentions = v.fieldMentions.map Mention.untied := by
  rw [fieldMentions, nodesIn_inField, List.flatMap_map, fieldMentions, List.map_flatMap]
  exact List.flatMap_congr h

theorem fieldsMentions_untied {fs : List Datum}
    (h : ∀ v ∈ fs, ∀ c ∈ v.nodesIn, c.untied.mentions = c.mentions.map Mention.untied) :
    (fs.map untied.inField).flatMap fieldMentions =
      (fs.flatMap fieldMentions).map Mention.untied := by
  rw [List.flatMap_map, List.map_flatMap]
  exact List.flatMap_congr fun v hv => fieldMentions_inField (h v hv)

theorem mentions_inField {e : Datum}
    (h : ∀ c ∈ e.nodesIn, c.untied.mentions = c.mentions.map Mention.untied) :
    (untied.inField e).mentions = e.mentions.map Mention.untied := by
  cases plain : e.isNode with
  | false =>
      rw [mentions_of_plain plain, mentions_of_plain (e.isNode_inField.trans plain)]
      rfl
  | true =>
      cases e with
      | node k fs => exact h _ (List.mem_singleton_self _)
      | _ => cases plain

def UntiesMentions (d : Datum) : Prop :=
  d.untied.mentions = d.mentions.map Mention.untied

section Forms

variable {f : Form} {fs : List Datum}

theorem mentionsAt_untied (a : String) (told told' : Datum → List Mention)
    (h : ∀ v ∈ fs, told' (untied.inField v) = (told v).map Mention.untied) :
    mentionsAt (Phrase.node f (fs.map untied.inField)) a (fun x => told' x.1) =
      (mentionsAt (Phrase.node f fs) a fun x => told x.1).map Mention.untied := by
  have same := field?_map untied.inField a f.fields fs
  cases found : field? a f.fields fs with
  | some v =>
      rw [found] at same
      rw [mentionsAt_of_field? found, mentionsAt_of_field? same]
      exact h v (mem_of_field? found)
  | none =>
      rw [found] at same
      have rebuilt : untied.inField (Phrase.node f fs) = Phrase.node f (fs.map untied.inField) :=
        untied_node _ _
      rw [mentionsAt_of_missing found, mentionsAt_of_missing same, ← rebuilt]
      rfl

variable (full : f.fields.length = fs.length)
  (below : ∀ v ∈ fs, ∀ c ∈ v.nodesIn, c.UntiesMentions)
include full below

theorem mentionsBelow_untied :
    mentionsBelow (Phrase.node f (fs.map untied.inField)) (fun c => c.1.mentions) =
      (mentionsBelow (Phrase.node f fs) fun c => c.1.mentions).map Mention.untied := by
  have before : mentionsBelow (Phrase.node f fs) (fun c => c.1.mentions) = _ :=
    mentionsBelow_form f full
  have after : mentionsBelow (Phrase.node f (fs.map untied.inField)) (fun c => c.1.mentions) = _ :=
    mentionsBelow_form f (by rw [List.length_map, full])
  rw [before, after, fieldsMentions_untied below]

theorem untiesMentions_form : (Phrase.node f fs).UntiesMentions := by
  have rebuilt : (Phrase.node f fs).untied = Phrase.node f (fs.map untied.inField) :=
    untied_node _ _
  have under := mentionsBelow_untied full below
  rw [UntiesMentions, rebuilt]
  cases ruled : rule? f with
  | none => rw [mentions_of_unruled ruled, mentions_of_unruled ruled, under]
  | some rule =>
      rw [mentions_of_rule ruled, mentions_of_rule ruled]
      cases rule with
      | through a =>
          exact mentionsAt_untied a mentions mentions fun v hv => mentions_inField (below v hv)
      | leaf role a =>
          exact mentionsAt_untied a (fun x => [.name role x]) (fun x => [.name role x])
            fun _ _ => rfl
      | head role a =>
          simp only [Rule.mentions, under]
          exact mentionsAt_untied a (fun x => .name role x :: mentionsBelow _ _)
            (fun x => .name role x :: (mentionsBelow _ _).map _) fun _ _ => rfl

end Forms

theorem BuiltIn.untiesMentions {d : Datum} (h : d.BuiltIn) : d.UntiesMentions := by
  induction h with
  | node f full _ _ ih => exact untiesMentions_form full ih

end Datum

namespace Name

def parted (n : Name) : Symbol where
  datum := .tuple [n.symbol.datum, .int n.uid]
  key := .tuple [n.symbol.key, .ofInt n.uid]
  key_eq := by
    simp [Datum.key, Datum.key.keys, n.symbol.key_eq, Except.map, bind, Except.bind, pure,
      Except.pure]
  regular := by simp [Datum.regular, Datum.regular.all, n.symbol.regular]

theorem essence_parted (n : Name) : n.parted.essence = n.essence := rfl

theorem parted_ne_datum (n m : Name) : n.parted.datum ≠ m.datum := by
  intro same
  cases same

theorem inField_datum {n : Name} (plain : n.symbol.datum.isNode = false) :
    untied.inField n.datum = n.parted.datum :=
  congrArg (fun s => tuple [s, .int n.uid]) (untied_of_plain plain)

end Name

namespace NameSet

def keep (js : List Name) (n : Name) : List Name :=
  if n.essence ∈ js.map Name.essence then js else js ++ [n]

def firsts (ns : List Name) : List Name :=
  ns.foldl keep []

theorem prefix_foldl_keep (ns js : List Name) : js <+: ns.foldl keep js := by
  induction ns generalizing js with
  | nil => exact List.prefix_refl js
  | cons n ns ih =>
      refine List.IsPrefix.trans ?_ (ih (keep js n))
      rw [keep]
      split
      · exact List.prefix_refl js
      · exact List.prefix_append js [n]

theorem firsts_cons (n : Name) (ns : List Name) : ∃ ms, firsts (n :: ns) = n :: ms := by
  obtain ⟨ms, same⟩ := prefix_foldl_keep ns [n]
  exact ⟨ms, same.symm⟩

section Keys

variable {g : Name → Symbol} {s : NameSet} {js : List Name}

theorem insert_keep (like : ∀ n, (g n).essence = n.essence)
    (h : s.members.keys = js.map fun j => (g j).toKeyed) (n : Name) :
    ∃ t, s.insert (g n).datum = (.ok (), t) ∧
      t.members.keys = (keep js n).map fun j => (g j).toKeyed := by
  obtain ⟨after, put, grown⟩ := s.members.put_under (g n) .null
  have essences : s.members.keys.map (·.datum.essence) = js.map Name.essence := by
    rw [h, List.map_map]
    exact List.map_congr_left fun j _ => like j
  refine ⟨⟨after⟩, insert_of_add ?_, ?_⟩
  · simp [NameSet.add, put, bind, Except.bind, pure, Except.pure]
  · rw [grown, essences, like, h, keep]
    split <;> simp

theorem record_keep (like : ∀ n, (g n).essence = n.essence)
    (h : s.members.keys = js.map fun j => (g j).toKeyed) (roles : Roles)
    (sites : List (Role × Name)) :
    ∃ t, record roles (sites.map fun p => .name p.1 (g p.2).datum) s = (.ok (), t) ∧
      t.members.keys = ((asked roles sites).foldl keep js).map fun j => (g j).toKeyed := by
  induction sites generalizing s js with
  | nil => exact ⟨s, rfl, h⟩
  | cons p sites ih =>
      rcases p with ⟨role, n⟩
      by_cases asks : roles.asksFor role = true
      · obtain ⟨t, taken, keys⟩ := insert_keep like h n
        obtain ⟨u, recorded, keys'⟩ := ih keys
        refine ⟨u, ?_, ?_⟩
        · simp only [List.map_cons, record, asks, if_true, taken]
          exact recorded
        · simpa [asked, asks] using keys'
      · obtain ⟨u, recorded, keys⟩ := ih h
        refine ⟨u, ?_, ?_⟩
        · simp only [List.map_cons, record, asks]
          exact recorded
        · simpa [asked, asks] using keys

theorem gather_keep (like : ∀ n, (g n).essence = n.essence) (roles : Roles)
    (sites : List (Role × Name)) :
    ∃ s, gather roles (sites.map fun p => .name p.1 (g p.2).datum) = .ok s ∧
      s.members.keys = (firsts (asked roles sites)).map fun j => (g j).toKeyed := by
  have none : empty.members.keys = ([] : List Name).map fun j => (g j).toKeyed := rfl
  obtain ⟨s, recorded, keys⟩ := record_keep like none roles sites
  exact ⟨s, by rw [gather, recorded], keys⟩

end Keys

theorem gather_of_unasked (f : Name → Datum) {roles : Roles} {sites : List (Role × Name)}
    (h : asked roles sites = []) :
    gather roles (sites.map fun p => .name p.1 (f p.2)) = .ok empty := by
  have recorded : record roles (sites.map fun p => .name p.1 (f p.2)) empty = (.ok (), empty) := by
    induction sites with
    | nil => rfl
    | cons p sites ih =>
        have skipped : roles.asksFor p.1 ≠ true := fun asks => by simp [asked, asks] at h
        have rest : asked roles sites = [] := by simpa [asked, skipped] using h
        rw [List.map_cons, record, if_neg skipped]
        exact ih rest
  rw [gather, recorded]

theorem select_parted {s : NameSet} {j : Name} {js : List Name}
    (h : s.members.keys = (j :: js).map fun n => n.parted.toKeyed) (wanted : Bool) :
    s.select wanted = .error (.noAttribute j.parted.datum "is_global") := by
  have untold : j.parted.datum.isGlobal = .error (.noAttribute j.parted.datum "is_global") := rfl
  simp [select, h, untold, bind, Except.bind]

end NameSet

namespace Names

open NameSet (asked firsts)

/-- What is collected from a tree with these sites, before and after its names came apart. The sets
that come of it are the same only if they are empty, and where a name is referred to, none can be
told to be global. -/
structure Parts (d : Datum) (sites : List (Role × Name)) : Prop where
  sets : ∀ roles, ∃ s t, d.names roles = .ok s ∧ d.untied.names roles = .ok t ∧
    s.toList = (firsts (asked roles sites)).map Name.datum ∧
    t.toList = (firsts (asked roles sites)).map fun n => n.parted.datum
  sets_same_iff : ∀ roles, d.untied.names roles = d.names roles ↔ asked roles sites = []
  globals_same : asked (.one .load) sites = [] → d.untied.globalReferences = d.globalReferences
  globals_fail : ∀ n ns, asked (.one .load) sites = n :: ns →
    (∃ s, d.globalReferences = .ok s) ∧
      d.untied.globalReferences = .error (.noAttribute n.parted.datum "is_global")

theorem parts_of_mentions {d : Datum} {sites : List (Role × Name)} (h : d.BuiltIn)
    (told : d.mentions = sites.map NameSet.mention)
    (plain : ∀ p ∈ sites, p.2.symbol.datum.isNode = false) : Parts d sites := by
  have apart : d.untied.mentions = sites.map fun p => .name p.1 p.2.parted.datum := by
    rw [h.untiesMentions, told, List.map_map]
    refine List.map_congr_left fun p hp => ?_
    exact congrArg (Mention.name p.1) (Name.inField_datum (plain p hp))
  have before (roles : Roles) := NameSet.gather_keep (g := Name.entry) (fun _ => rfl) roles sites
  have after (roles : Roles) := NameSet.gather_keep Name.essence_parted roles sites
  have sets : ∀ roles, ∃ s t, d.names roles = .ok s ∧ d.untied.names roles = .ok t ∧
      s.toList = (firsts (asked roles sites)).map Name.datum ∧
      t.toList = (firsts (asked roles sites)).map fun n => n.parted.datum := by
    intro roles
    obtain ⟨s, gathered, keys⟩ := before roles
    obtain ⟨t, gathered', keys'⟩ := after roles
    refine ⟨s, t, ?_, ?_, ?_, ?_⟩
    · rw [names_eq_gather, told]
      exact gathered
    · rw [names_eq_gather, apart, gathered']
    · rw [NameSet.toList, keys, List.map_map]
      rfl
    · rw [NameSet.toList, keys', List.map_map]
      rfl
  have unasked (roles : Roles) (none : asked roles sites = []) :
      d.untied.names roles = d.names roles := by
    rw [names_eq_gather, names_eq_gather, told, apart]
    exact (NameSet.gather_of_unasked (fun n => n.parted.datum) none).trans
      (NameSet.gather_of_unasked Name.datum none).symm
  refine ⟨sets, fun roles => ⟨fun same => ?_, unasked roles⟩, fun none => ?_, fun n ns some => ?_⟩
  · obtain ⟨s, t, found, found', listed, listed'⟩ := sets roles
    rw [found, found'] at same
    cases same
    cases met : asked roles sites with
    | nil => rfl
    | cons n ns =>
        -- The first name asked for is in both sets, in one of them as a tuple.
        obtain ⟨ms, kept⟩ := NameSet.firsts_cons n ns
        rw [met, kept] at listed listed'
        exact absurd (List.cons.inj (listed'.symm.trans listed)).1 (n.parted_ne_datum n)
  · rw [globalReferences, globalReferences, unasked _ none]
  · obtain ⟨s, gathered, holds⟩ := NameSet.holds_gather (.one .load) sites
    obtain ⟨u, selected, _⟩ := holds.select true
    obtain ⟨t, gathered', keys⟩ := after (.one .load)
    obtain ⟨ms, kept⟩ := NameSet.firsts_cons n ns
    rw [some, kept] at keys
    constructor
    · refine ⟨u, ?_⟩
      rw [globalReferences, names_eq_gather, told, gathered]
      exact selected
    · rw [globalReferences, names_eq_gather, apart, gathered']
      exact NameSet.select_parted keys true

theorem plain_of_nodesIn {n : Name} (h : n.datum.nodesIn = []) :
    n.symbol.datum.isNode = false := by
  have first := List.filter_eq_nil_iff.1 h n.symbol.datum List.mem_cons_self
  exact Bool.eq_false_iff.2 first

theorem builtIn_resolve {t : Phrase Symbol (.one .expression)} (plain : t.Plain)
    (carried : ∀ v ∈ t.carried, ∀ c ∈ v.freeze.nodesIn, c.BuiltIn) :
    (t.resolve .initial).1.datum.BuiltIn := by
  refine (t.resolve .initial).1.builtIn_datum ?_
  refine Place.builtIn_of_parts (nodesIn_sites_resolve t plain) ?_
  rwa [← t.carried_resolve .initial] at carried

theorem builtIn_resolve_module {m : Module Symbol} (plain : m.Plain)
    (carried : ∀ v ∈ m.carried, ∀ c ∈ v.freeze.nodesIn, c.BuiltIn) :
    (m.resolve .initial).1.datum.BuiltIn := by
  refine (m.resolve .initial).1.builtIn_datum ?_
  refine Place.builtIn_of_parts (nodesIn_sites_resolve_module m plain) ?_
  rwa [← m.carried_resolve .initial] at carried

theorem parts_resolve {t : Phrase Symbol (.one .expression)} (plain : t.Plain)
    (carried : ∀ v ∈ t.carried, ∀ c ∈ v.freeze.nodesIn, c.BuiltIn)
    (silent : ∀ v ∈ t.exposed, v.Silent) :
    Parts (t.resolve .initial).1.datum (t.resolve .initial).1.sites := by
  rw [← t.exposed_resolve .initial] at silent
  exact parts_of_mentions (builtIn_resolve plain carried)
    ((collects_resolve t plain).sees_sites_iff.2 silent)
    fun p hp => plain_of_nodesIn (nodesIn_sites_resolve t plain p hp)

theorem parts_resolve_module {m : Module Symbol} (plain : m.Plain)
    (carried : ∀ v ∈ m.carried, ∀ c ∈ v.freeze.nodesIn, c.BuiltIn)
    (silent : ∀ v ∈ m.exposed, v.Silent) :
    Parts (m.resolve .initial).1.datum (m.resolve .initial).1.sites := by
  rw [← m.exposed_resolve .initial] at silent
  exact parts_of_mentions (builtIn_resolve_module plain carried)
    ((collects_resolve_module m plain).sees_sites_iff.2 silent)
    fun p hp => plain_of_nodesIn (nodesIn_sites_resolve_module m plain p hp)

/-- A tree of built-in nodes that is transformed without rules comes to an equal one. The texts of
the two, and the sets of names collected from a renamed tree, agree only where no name came
apart. -/
theorem transformed_comes_apart (v : Vocabulary) {d : Datum} (h : d.BuiltIn)
    (t : Phrase Symbol (.one .expression)) (m : Module Symbol) (ht : t.Plain) (hm : m.Plain)
    (carried : ∀ v ∈ t.carried, ∀ c ∈ v.freeze.nodesIn, c.BuiltIn)
    (carried' : ∀ v ∈ m.carried, ∀ c ∈ v.freeze.nodesIn, c.BuiltIn)
    (silent : ∀ v ∈ t.exposed, v.Silent) (silent' : ∀ v ∈ m.exposed, v.Silent) :
    (d.transformed v [] = .ok d.untied ∧ d.untied.essence = d.essence ∧
      (d.ties = 0 → d.untied = d) ∧ d.untied.mentions = d.mentions.map Mention.untied ∧
      ∀ text, d.rendered = .ok text → ∃ text', d.untied.rendered = .ok text' ∧
        text.length = text'.length + 15 * d.ties ∧ (text' = text ↔ d.ties = 0)) ∧
    ((t.datum.renamed .expression).1 = .ok (t.resolve .initial).1.datum ∧
      (t.resolve .initial).1.datum.transformed v [] = .ok (t.resolve .initial).1.datum.untied ∧
      Parts (t.resolve .initial).1.datum (t.resolve .initial).1.sites) ∧
    (m.datum.renamed .module).1 = .ok (m.resolve .initial).1.datum ∧
      (m.resolve .initial).1.datum.transformed v [] = .ok (m.resolve .initial).1.datum.untied ∧
      Parts (m.resolve .initial).1.datum (m.resolve .initial).1.sites := by
  refine ⟨⟨Transformation.transformed_nil v h, h.sheds.essence.symm, d.untied_of_ties,
    h.untiesMentions, fun text told => h.rendered_untied told⟩, ⟨t.ok_renamed .expression, ?_, ?_⟩,
    m.ok_renamed, ?_, ?_⟩
  · exact Transformation.transformed_nil v (builtIn_resolve ht carried)
  · exact parts_resolve ht carried silent
  · exact Transformation.transformed_nil v (builtIn_resolve_module hm carried')
  · exact parts_resolve_module hm carried' silent'

def boundReference : Datum :=
  Phrase.node .identifier [(Name.mk (.ofText "x") 2).datum]

def pairedReference : Datum :=
  Phrase.node .identifier [.tuple [.text "x", .int 2]]

theorem builtIn_boundReference : boundReference.BuiltIn :=
  .node .identifier rfl (List.forall_mem_singleton.2 rfl)
    (List.forall_mem_singleton.2 fun _ hc => nomatch hc)

theorem reached_atoms : (∀ c ∈ Datum.null.freeze.nodesIn, c.BuiltIn) ∧
    ∀ c ∈ (Datum.int 1).freeze.nodesIn, c.BuiltIn :=
  ⟨fun _ hc => (nomatch hc), fun _ hc => nomatch hc⟩

theorem reached_marked : (∀ c ∈ (Phrase.node .identifier [.text "a"]).freeze.nodesIn, c.BuiltIn) ∧
    ∀ c ∈ (Phrase.node .location [.int 1, .int 1, .int 0]).freeze.nodesIn, c.BuiltIn := by
  have type : (Phrase.node .identifier [.text "a"]).BuiltIn :=
    .node .identifier rfl (List.forall_mem_singleton.2 rfl)
      (List.forall_mem_singleton.2 fun _ hc => nomatch hc)
  have location : (Phrase.node .location [.int 1, .int 1, .int 0]).BuiltIn :=
    builtIn_node rfl (by simp [Datum.freeze, nodesIn])
  exact ⟨List.forall_mem_singleton.2 type, List.forall_mem_singleton.2 location⟩

theorem markedFunction_comes_apart :
    boundReference.transformed .builtin [] = .ok pairedReference ∧
      ((markedFunction "a" 1).resolve .initial).1.datum.untied.names .all ≠
        ((markedFunction "a" 1).resolve .initial).1.datum.names .all ∧
      ((markedModule "a" 1).resolve .initial).1.datum.untied.globalReferences =
        .error (.noAttribute (.tuple [.text "x", .int 2]) "is_global") := by
  have plain : ∀ p ∈ (markedFunction "a" 1).sites, p.2.datum.isNode = false := by decide
  have plain' : ∀ p ∈ (markedModule "a" 1).sites, p.2.datum.isNode = false := by decide
  obtain ⟨null, number⟩ := reached_atoms
  obtain ⟨type, location⟩ := reached_marked
  have carried : ∀ v ∈ (markedFunction "a" 1).carried, ∀ c ∈ v.freeze.nodesIn, c.BuiltIn := by
    have held : (markedFunction "a" 1).carried = [Phrase.node .identifier [.text "a"], .null,
      Phrase.node .location [.int 1, .int 1, .int 0]] := rfl
    simp only [held, List.forall_mem_cons]
    exact ⟨type, null, location, List.forall_mem_nil _⟩
  have carried' : ∀ v ∈ (markedModule "a" 1).carried, ∀ c ∈ v.freeze.nodesIn, c.BuiltIn := by
    have held : (markedModule "a" 1).carried = [.null, .null, Phrase.node .identifier [.text "a"],
      .null, Phrase.node .location [.int 1, .int 1, .int 0], .null, .int 1] := rfl
    simp only [held, List.forall_mem_cons]
    exact ⟨null, null, type, null, location, null, number, List.forall_mem_nil _⟩
  have silent : ∀ v ∈ (markedFunction "a" 1).exposed, v.Silent :=
    List.forall_mem_singleton.2 (silent_marked 1)
  obtain ⟨tree, ⟨_, _, function⟩, _, _, module⟩ := transformed_comes_apart .builtin
    builtIn_boundReference (markedFunction "a" 1) (markedModule "a" 1) plain plain' carried carried'
    silent (silent_markedModule "a" 1)
  refine ⟨tree.1, fun same => ?_, (module.globals_fail ⟨.ofText "x", 2⟩ [] rfl).2⟩
  have none := (function.sets_same_iff .all).1 same
  cases none

theorem reference_comes_apart :
    boundReference.transformed .builtin [] = .ok pairedReference ∧
      boundReference.rendered = .ok "Identifier(name=Name(symbol='x', uid=2))" ∧
      pairedReference.rendered = .ok "Identifier(name=('x', 2))" ∧
      (∃ s, boundReference.globalReferences = .ok s) ∧
      pairedReference.globalReferences =
        .error (.noAttribute (.tuple [.text "x", .int 2]) "is_global") := by
  have parts : Parts boundReference [(.load, ⟨.ofText "x", 2⟩)] :=
    parts_of_mentions builtIn_boundReference (mentions_identifier _)
      (List.forall_mem_singleton.2 rfl)
  obtain ⟨found, failed⟩ := parts.globals_fail _ [] rfl
  have bound : boundReference.render = "Identifier(name=Name(symbol='x', uid=2))" := by decide
  have paired : pairedReference.render = "Identifier(name=('x', 2))" := by decide
  exact ⟨Transformation.transformed_nil .builtin builtIn_boundReference, congrArg Except.ok bound,
    congrArg Except.ok paired, found, failed⟩

end Names

end ScopeResolution
