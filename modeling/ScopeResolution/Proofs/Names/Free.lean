import ScopeResolution.Proofs.Names.Sites
import ScopeResolution.Proofs.Scoping.Free

namespace ScopeResolution

namespace Phrase

theorem mem_references_iff {ν : Type} {s : Shape} (t : Phrase ν s) (x : ν) :
    x ∈ t.references ↔ (Role.load, x) ∈ t.sites := by
  rw [references]
  induction t <;>
    simp_all [scoping, Scoping.references, sites, places, List.filterMap_cons, or_comm]

end Phrase

namespace Module

theorem mem_references_iff {ν : Type} (m : Module ν) (x : ν) :
    x ∈ m.references ↔ (Role.load, x) ∈ m.sites := by
  have definitions := m.definitions.mem_references_iff x
  have instances := m.instances.mem_references_iff x
  have bindings := m.bindings.mem_references_iff x
  simp only [Phrase.references] at definitions instances bindings
  simp [references, scoping, Scoping.references, definitions, instances, bindings, Phrase.sites,
    sites, places, List.filterMap_cons, or_comm]

end Module

namespace Names

open Datum

def LocationsOnly (v : Datum) : Prop :=
  ∀ d ∈ v.freeze.nodesIn, ∃ row column absolute : Int,
    d = Phrase.node .location [.int row, .int column, .int absolute]

theorem LocationsOnly.silent {v : Datum} (h : LocationsOnly v) : v.Silent := by
  refine silent_of_nodes fun d hd => ?_
  obtain ⟨row, column, absolute, rfl⟩ := h d hd
  exact mentions_location row column absolute

theorem mem_globals_iff {a : Scoping Symbol .whole} {sites : List (Role × Name)}
    (h : ∀ n, n ∈ (a.resolve .initial).1.references ↔ (Role.load, n) ∈ sites) (n : Name) :
    n ∈ (NameSet.asked (.one .load) sites).filter (fun n => n.uid = 0) ↔
      n ∈ a.free.map fun x => ⟨x, 0⟩ := by
  have asked : n ∈ NameSet.asked (.one .load) sites ↔ (Role.load, n) ∈ sites := by
    simp [NameSet.asked, Roles.asksFor]
  have meant := Scoping.mem_references_iff_free (s := a) (n := n) Context.sound_initial
  rw [List.mem_filter, asked, ← h n, List.mem_map]
  constructor
  · rintro ⟨mem, global⟩
    have zero : n.uid = 0 := of_decide_eq_true global
    exact meant.1 ⟨mem, by omega⟩
  · rintro ⟨x, hx, rfl⟩
    exact ⟨(meant.2 ⟨x, hx, rfl⟩).1, rfl⟩

theorem globalReferences_of_collects {d : Datum} {places : List (Place Name)}
    {a : Scoping Symbol .whole} (collects : Collects d places)
    (silent : ∀ v ∈ places.filterMap Place.exposed?, v.Silent)
    (h : ∀ n, n ∈ (a.resolve .initial).1.references ↔
      (Role.load, n) ∈ places.filterMap Place.identifier?) :
    ∃ s, d.globalReferences = .ok s ∧ s.Holds (a.free.map fun x => ⟨x, 0⟩) := by
  obtain ⟨s, found, holds⟩ := collects.globals silent
  have same := mem_globals_iff h
  exact ⟨s, found, holds.imp (fun n => (same n).1) fun n hn => ⟨n, (same n).2 hn, rfl⟩⟩

theorem globalReferences_renamed (t : Phrase Symbol (.one .expression)) (m : Module Symbol)
    (ht : t.Plain) (hm : m.Plain) (located : ∀ v ∈ t.exposed, LocationsOnly v)
    (located' : ∀ v ∈ m.exposed, LocationsOnly v) :
    ((t.datum.renamed .expression).1 = .ok (t.resolve .initial).1.datum ∧
      ∃ s, (t.resolve .initial).1.datum.globalReferences = .ok s ∧
        s.Holds (t.free.map fun x => ⟨x, 0⟩)) ∧
    (m.datum.renamed .module).1 = .ok (m.resolve .initial).1.datum ∧
      ∃ s, (m.resolve .initial).1.datum.globalReferences = .ok s ∧
        s.Holds (m.free.map fun x => ⟨x, 0⟩) := by
  refine ⟨⟨t.ok_renamed .expression, ?_⟩, m.ok_renamed, ?_⟩
  · rw [← t.exposed_resolve .initial] at located
    rw [← t.free_scoping]
    refine globalReferences_of_collects (collects_resolve t ht)
      (fun v hv => (located v hv).silent) fun n => ?_
    rw [← (t.scoping_resolve .initial).1]
    exact (t.resolve .initial).1.mem_references_iff n
  · rw [← m.exposed_resolve .initial] at located'
    rw [← m.free_scoping]
    refine globalReferences_of_collects (collects_resolve_module m hm)
      (fun v hv => (located' v hv).silent) fun n => ?_
    rw [← m.scoping_resolve .initial]
    exact (m.resolve .initial).1.mem_references_iff n

def leakingBlock : Phrase Symbol (.one .expression) :=
  let y := Symbol.ofText "y"
  let statement := .doBind (.identifierPattern y) (.reference (.ofText "z"))
  .apply (.doBlock (.cons statement (.nil .statement)) (.reference y))
    (.located (.apply (.reference y) (.reference (.ofText "w")))
      (Phrase.node .location [.int 1, .int 2, .int 0]))

def leakingModule : Module Symbol where
  name := .ofText "m"
  classes := .null
  definitions := .nil .definition
  declared := .null
  bindings := .declaration (.ofText "f") (.reference (.ofText "y")) .null (.int 0) .noDeclaration
  instances := .cons (.instanceOf (.declaration (.ofText "g") leakingBlock .null (.int 0)
    .noDeclaration) .null .null .null) (.nil .instanceOf)

theorem globalReferences_leaking :
    (∃ s, (leakingBlock.resolve .initial).1.datum.globalReferences = .ok s ∧
      s.Holds [⟨.ofText "z", 0⟩, ⟨.ofText "w", 0⟩]) ∧
    ∃ s, (leakingModule.resolve .initial).1.datum.globalReferences = .ok s ∧
      s.Holds [⟨.ofText "z", 0⟩, ⟨.ofText "w", 0⟩] := by
  have plain : ∀ p ∈ leakingBlock.sites, p.2.datum.isNode = false := by decide
  have plain' : ∀ p ∈ leakingModule.sites, p.2.datum.isNode = false := by decide
  have location : LocationsOnly (Phrase.node .location [.int 1, .int 2, .int 0]) :=
    fun d hd => ⟨1, 2, 0, List.mem_singleton.1 hd⟩
  have nothing : LocationsOnly .null ∧ LocationsOnly (.int 0) :=
    ⟨fun _ hd => (nomatch hd), fun _ hd => nomatch hd⟩
  have located : ∀ v ∈ leakingBlock.exposed, LocationsOnly v :=
    List.forall_mem_singleton.2 location
  have exposed : leakingModule.exposed = [.null, .null, .null, .int 0,
    Phrase.node .location [.int 1, .int 2, .int 0], .null, .int 0, .null, .null, .null] := rfl
  have located' : ∀ v ∈ leakingModule.exposed, LocationsOnly v := by
    simp [exposed, location, nothing]
  obtain ⟨⟨_, tree⟩, _, module⟩ :=
    globalReferences_renamed leakingBlock leakingModule plain plain' located located'
  exact ⟨tree, module⟩

end Names

end ScopeResolution
