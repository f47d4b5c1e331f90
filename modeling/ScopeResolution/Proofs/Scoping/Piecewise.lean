import Mathlib.Data.List.Forall2
import Mathlib.Data.List.Perm.Basic
import ScopeResolution.Proofs.Names.Free
import ScopeResolution.Proofs.Scoping.Coincidence
import ScopeResolution.Proofs.Scoping.Uniqueness

namespace ScopeResolution

namespace Name

def raised (k : Nat) (n : Name) : Name :=
  if n.uid = 0 then n else ⟨n.symbol, n.uid + k⟩

theorem raised_global (k : Nat) (x : Symbol) : raised k ⟨x, 0⟩ = ⟨x, 0⟩ :=
  if_pos rfl

theorem raised_succ (k : Nat) (x : Symbol) (uid : Nat) :
    raised k ⟨x, uid + 1⟩ = ⟨x, uid + 1 + k⟩ :=
  if_neg (Nat.succ_ne_zero uid)

end Name

namespace Context

def blank (k : Nat) : Context :=
  ⟨fun _ => none, 1 + k⟩

theorem initial_eq_blank : initial = blank 0 := rfl

theorem agrees_blank (es : List Essence) (k : Nat) :
    Agrees (fun n m => n.raised k = m) es .initial (blank k) := by
  refine ⟨fun x j => ?_, fun x _ => Name.raised_global k x⟩
  rw [Name.raised_succ, Name.mk.injEq]
  refine ⟨rfl, ?_⟩
  simp only [initial, blank]
  omega

theorem eq_blank_of_rebinds {c : Context} {k j : Nat} (h : (blank k).Rebinds c [])
    (last : c.last = 1 + k + j) : c = blank (k + j) := by
  have bound : c.bound = fun _ => none := funext fun e => h.keeps e List.not_mem_nil
  rcases c with ⟨_, _⟩
  cases bound
  rw [blank, ← Nat.add_assoc, ← last]

end Context

theorem Scoping.length_binders {ν : Type} {p : Portion} (s : Scoping ν p) :
    s.binders.length = s.names.length + s.count := by
  induction s with
  | member x right rest ihr ihrest =>
      simp only [binders, names, count, List.length_cons, List.length_append, ihr, ihrest,
        names_whole, List.length_nil]
      omega
  | _ => simp_all [binders, names, count]

namespace Phrase

theorem resolve_blank {category : Category} (t : Phrase Symbol (.one category)) (h : t.leak = [])
    (k : Nat) : (t.resolve (.blank k)).1 = (t.resolve .initial).1.map (Name.raised k) id ∧
      (t.resolve (.blank k)).2 = .blank (k + t.binders.length) := by
  constructor
  · have free : ∀ x ∈ t.free, x.essence ∈ t.free.map Symbol.essence :=
      fun _ hx => List.mem_map_of_mem hx
    have agrees := Context.agrees_blank (t.free.map Symbol.essence) k
    exact (t.map_resolve_of_agrees (Name.raised_global k) agrees free nofun).symm
  · have rebinds := t.scoping.rebinds_resolve (.blank k)
    rw [← (t.scoping_resolve _).2, t.leaks_scoping, h] at rebinds
    refine Context.eq_blank_of_rebinds rebinds ?_
    rw [t.last_resolve, binders, Scoping.length_binders, Scoping.names_whole]
    simp [Context.blank]

end Phrase

structure Declaration (ν : Type) where
  name : ν
  right : Phrase ν (.one .expression)
  type : Datum
  arity : Datum

structure Instance (ν : Type) where
  declarations : List (Declaration ν)
  constraints : Datum
  type : Datum
  classname : Datum

variable {ν : Type}

namespace Phrase

def declarations : {s : Shape} → Phrase ν s → List (Declaration ν)
  | .one _, _ => []
  | .many _, _ => []
  | .group, _ => []
  | .declarations, .noDeclaration => []
  | .declarations, .declaration x right type arity rest =>
      ⟨x, right, type, arity⟩ :: rest.declarations

def instances : {s : Shape} → Phrase ν s → List (Instance ν)
  | .one _, .instanceOf bindings constraints type classname =>
      [⟨bindings.declarations, constraints, type, classname⟩]
  | .one _, _ => []
  | .many _, .nil _ => []
  | .many _, .cons t ts => t.instances ++ ts.instances
  | .group, _ => []
  | .declarations, _ => []

theorem instances_cons (bs : Phrase ν .declarations) (constraints type classname : Datum)
    (ts : Phrase ν (.many .instanceOf)) :
    instances (.cons (.instanceOf bs constraints type classname) ts) =
      ⟨bs.declarations, constraints, type, classname⟩ :: ts.instances := by
  rw [instances, instances, List.singleton_append]

end Phrase

namespace Module

def inner (m : Module ν) : List (Declaration ν) :=
  m.instances.instances.flatMap Instance.declarations

def declarations (m : Module ν) : List (Declaration ν) :=
  m.inner ++ m.bindings.declarations

end Module

namespace Declaration

def alone (b : Declaration Symbol) : Declaration Name :=
  ⟨⟨b.name, 0⟩, (b.right.resolve .initial).1, b.type, b.arity⟩

def raised (k : Nat) (b : Declaration Name) : Declaration Name :=
  { b with right := b.right.map (Name.raised k) id }

def pieces : Nat → List (Declaration Symbol) → List (Declaration Name)
  | _, [] => []
  | k, b :: bs => b.alone.raised k :: pieces (k + b.right.binders.length) bs

def total (bs : List (Declaration Symbol)) : Nat :=
  (bs.map fun b => b.right.binders.length).sum

end Declaration

open Declaration (pieces total)

namespace Declaration

theorem pieces_append (k : Nat) (bs cs : List (Declaration Symbol)) :
    pieces k (bs ++ cs) = pieces k bs ++ pieces (k + total bs) cs := by
  induction bs generalizing k with
  | nil => rfl
  | cons b bs ih =>
      rw [List.cons_append, pieces, ih, pieces, List.cons_append, total, total, List.map_cons,
        List.sum_cons, Nat.add_assoc]

theorem total_append (bs cs : List (Declaration Symbol)) :
    total (bs ++ cs) = total bs + total cs := by
  rw [total, List.map_append, List.sum_append]
  rfl

end Declaration

def Sealed (bs : List (Declaration Symbol)) : Prop :=
  ∀ b ∈ bs, b.right.leak = []

theorem sealed_append {bs cs : List (Declaration Symbol)} :
    Sealed (bs ++ cs) ↔ Sealed bs ∧ Sealed cs :=
  List.forall_mem_append

def Declaration.Renamed (b : Declaration Symbol) (b' : Declaration Name) : Prop :=
  ∃ k, b' = b.alone.raised k

theorem Declaration.renamed_pieces (k : Nat) (bs : List (Declaration Symbol)) :
    List.Forall₂ Renamed bs (pieces k bs) := by
  induction bs generalizing k with
  | nil => exact .nil
  | cons b bs ih => exact .cons ⟨k, rfl⟩ (ih _)

structure Instance.Renamed (i : Instance Symbol) (i' : Instance Name) : Prop where
  declarations : List.Forall₂ Declaration.Renamed i.declarations i'.declarations
  constraints : i'.constraints = i.constraints
  type : i'.type = i.type
  classname : i'.classname = i.classname

namespace Phrase

theorem declarations_resolve : (bs : Phrase Symbol .declarations) → Sealed bs.declarations →
    (k : Nat) → (bs.resolve (.blank k)).1.declarations = pieces k bs.declarations ∧
      (bs.resolve (.blank k)).2 = .blank (k + total bs.declarations)
  | .noDeclaration, _, k => by simp [declarations, resolve, pieces, total]
  | .declaration x right type arity rest, h, k => by
      rw [declarations, Sealed, List.forall_mem_cons] at h
      obtain ⟨renamed, after⟩ := right.resolve_blank h.1 k
      obtain ⟨others, last⟩ := declarations_resolve rest h.2 (k + right.binders.length)
      rw [resolve, after]
      refine ⟨?_, ?_⟩
      · rw [declarations, others, renamed, declarations]
        rfl
      · rw [last, declarations, total, total, List.map_cons, List.sum_cons, Nat.add_assoc]

theorem instances_resolve : (ts : Phrase Symbol (.many .instanceOf)) →
    Sealed (ts.instances.flatMap Instance.declarations) → (k : Nat) →
    (ts.resolve (.blank k)).1.instances.flatMap Instance.declarations =
        pieces k (ts.instances.flatMap Instance.declarations) ∧
      (ts.resolve (.blank k)).2 =
        .blank (k + total (ts.instances.flatMap Instance.declarations)) ∧
      List.Forall₂ Instance.Renamed ts.instances (ts.resolve (.blank k)).1.instances
  | .nil _, _, k => by simp [instances, resolve, pieces, total]
  | .cons (.instanceOf bs constraints type classname) ts, h, k => by
      rw [instances_cons, List.flatMap_cons, sealed_append] at h
      obtain ⟨first, after⟩ := bs.declarations_resolve h.1 k
      obtain ⟨others, last, each⟩ := instances_resolve ts h.2 (k + total bs.declarations)
      rw [resolve, resolve, after, instances_cons, instances_cons, List.flatMap_cons,
        List.flatMap_cons]
      refine ⟨?_, ?_, .cons ⟨?_, rfl, rfl, rfl⟩ each⟩
      · rw [others, Declaration.pieces_append, first]
      · rw [last, Declaration.total_append, Nat.add_assoc]
      · exact first.symm ▸ Declaration.renamed_pieces k bs.declarations

theorem resolve_global {s : Shape} (t : Phrase Symbol s) (mute : s.refers = false)
    (tight : s.leaks = false) (c : Context) : t.resolve c = (t.map (fun x => ⟨x, 0⟩) id, c) := by
  induction t with
  | constructor => rfl
  | definition constructors type parameters ih => simp [resolve, map, ih rfl rfl]
  | nil => rfl
  | cons t ts iht ihts =>
      have first := iht ((Shape.refers_one _).trans mute) ((Shape.leaks_one _).trans tight)
      simp [resolve, map, first, ihts mute tight]
  | locatedPattern | numberPattern | wildCardPattern | identifierPattern | constructorPattern =>
      cases tight
  | _ => cases mute

theorem mem_of_mem_sites {s : Shape} (t : Phrase Symbol s) (c : Context) (p : Role × Name)
    (mem : p ∈ (t.resolve c).1.sites) : p.2 ∈ (t.resolve c).1.binders ∨
      p.2 ∈ (t.resolve c).1.references ∨ p.2.uid = 0 := by
  simp only [binders, references, sites] at mem ⊢
  induction t generalizing c <;>
    simp only [resolve, places, List.filterMap_append, List.filterMap_cons, List.filterMap_nil,
      Place.identifier?, List.mem_append, List.mem_cons, List.not_mem_nil, or_false, scoping,
      Scoping.binders, Scoping.references] at mem ⊢ <;>
    grind

theorem uid_le_of_mem_sites {s : Shape} (t : Phrase Symbol s) {c : Context} (h : c.Sound)
    {p : Role × Name} (mem : p ∈ (t.resolve c).1.sites) : p.2.uid ≤ (t.resolve c).2.last := by
  have cases := t.mem_of_mem_sites c p mem
  rw [binders, references, (t.scoping_resolve c).1] at cases
  rw [(t.scoping_resolve c).2]
  rcases cases with binder | reference | global
  · exact Scoping.uid_le_of_mem_binders h binder
  · exact Scoping.uid_le_of_mem_references h reference
  · rw [global]
    exact Nat.zero_le _

end Phrase

theorem Context.sound_blank (k : Nat) : (blank k).Sound :=
  fun _ _ bound => nomatch bound

namespace Module

theorem sites_eq (m : Module ν) : m.sites =
    (.bind, m.name) :: (m.definitions.sites ++ (m.bindings.sites ++ m.instances.sites)) := by
  simp [sites, places, Phrase.sites, List.filterMap_cons]

structure Piecewise (m : Module Symbol) (n : Module Name) : Prop where
  declarations : n.declarations = pieces 0 m.declarations
  definitions : n.definitions = m.definitions.map (fun x => ⟨x, 0⟩) id
  rest : n.map (fun _ => ()) id = m.map (fun _ => ()) id
  name : n.name = ⟨m.name, 2 + total m.declarations⟩
  newest : ∃ others, n.sites = (.bind, n.name) :: others ∧ ∀ p ∈ others, p.2.uid < n.name.uid
  unreferenced : ∀ x ∈ n.references, x.uid ≠ n.name.uid

theorem total_parts (m : Module Symbol) :
    total m.inner + total m.bindings.declarations = total m.declarations :=
  (Declaration.total_append _ _).symm

section Resolution

variable {m : Module Symbol} (h : Sealed m.declarations)

include h

theorem resolve_sealed : m.resolve .initial =
    (⟨⟨m.name, 2 + total m.declarations⟩, m.classes, m.definitions.map (fun x => ⟨x, 0⟩) id,
      m.declared, (m.bindings.resolve (.blank (total m.inner))).1,
      (m.instances.resolve (.blank 0)).1⟩, (Context.blank (total m.declarations)).bind m.name) := by
  obtain ⟨within, outer⟩ := sealed_append.1 h
  have after : (m.instances.resolve (.blank 0)).2 = .blank (total m.inner) := by
    rw [(m.instances.instances_resolve within 0).2.1, Nat.zero_add, inner]
  have last := (m.bindings.declarations_resolve outer (total m.inner)).2
  have counted : 1 + total m.declarations + 1 = 2 + total m.declarations := by omega
  rw [resolve, m.definitions.resolve_global rfl rfl .initial, Context.initial_eq_blank]
  simp only [after, last, m.total_parts]
  rw [Context.next, Context.blank, ← counted]

theorem bindings_renamed : (m.resolve .initial).1.bindings.declarations =
    pieces (total m.inner) m.bindings.declarations := by
  rw [resolve_sealed h]
  exact (m.bindings.declarations_resolve (sealed_append.1 h).2 _).1

theorem each_binding_renamed : List.Forall₂ Declaration.Renamed m.bindings.declarations
    (m.resolve .initial).1.bindings.declarations := by
  rw [bindings_renamed h]
  exact Declaration.renamed_pieces _ _

theorem inner_renamed : (m.resolve .initial).1.inner = pieces 0 m.inner := by
  rw [resolve_sealed h]
  exact (m.instances.instances_resolve (sealed_append.1 h).1 0).1

theorem instances_renamed : List.Forall₂ Instance.Renamed m.instances.instances
    (m.resolve .initial).1.instances.instances := by
  rw [resolve_sealed h]
  exact (m.instances.instances_resolve (sealed_append.1 h).1 0).2.2

theorem uid_le_of_mem_parts {p : Role × Name} (mem : p ∈ (m.resolve .initial).1.definitions.sites ++
    ((m.resolve .initial).1.bindings.sites ++ (m.resolve .initial).1.instances.sites)) :
    p.2.uid ≤ 1 + total m.declarations := by
  obtain ⟨within, outer⟩ := sealed_append.1 h
  have definitions := m.definitions.resolve_global rfl rfl .initial
  have global : (m.definitions.resolve .initial).1 = m.definitions.map (fun x => ⟨x, 0⟩) id := by
    rw [definitions]
  rw [resolve_sealed h] at mem
  simp only [List.mem_append, ← global] at mem
  rcases mem with mem | mem | mem
  · have low := m.definitions.uid_le_of_mem_sites Context.sound_initial mem
    rw [definitions] at low
    exact Nat.le_trans low (Nat.le_add_right 1 _)
  · have low := m.bindings.uid_le_of_mem_sites (Context.sound_blank _) mem
    rwa [(m.bindings.declarations_resolve outer _).2, m.total_parts] at low
  · have low := m.instances.uid_le_of_mem_sites (Context.sound_blank _) mem
    rw [(m.instances.instances_resolve within 0).2.1, Nat.zero_add, ← inner] at low
    refine Nat.le_trans low (Nat.add_le_add_left ?_ 1)
    rw [← m.total_parts]
    exact Nat.le_add_right _ _

theorem piecewise_resolve : m.Piecewise (m.resolve .initial).1 := by
  have name : (m.resolve .initial).1.name = ⟨m.name, 2 + total m.declarations⟩ := by
    rw [resolve_sealed h]
  have sites := sites_eq (m.resolve .initial).1
  have newest : ∀ p ∈ (m.resolve .initial).1.definitions.sites ++
      ((m.resolve .initial).1.bindings.sites ++ (m.resolve .initial).1.instances.sites),
      p.2.uid < (m.resolve .initial).1.name.uid := by
    intro p mem
    have low := uid_le_of_mem_parts h mem
    simp only [name]
    omega
  refine ⟨?_, ?_, m.unnamed_resolve .initial, name, ⟨_, sites, newest⟩, fun x mem => ?_⟩
  · rw [declarations, inner_renamed h, bindings_renamed h, declarations, Declaration.pieces_append,
      Nat.zero_add]
  · rw [resolve_sealed h]
  · rw [mem_references_iff, sites, List.mem_cons] at mem
    exact Nat.ne_of_lt (newest _ (mem.resolve_left (by simp)))

end Resolution

end Module

def Reordered {α β : Type} (S : α → β → Prop) (l : List α) (l' : List β) : Prop :=
  ∃ u, l.Perm u ∧ List.Forall₂ S u l'

namespace Reordered

variable {α β γ δ : Type} {S : α → β → Prop} {l : List α} {l' : List β}

theorem imp {T : α → β → Prop} (h : Reordered S l l') (imp : ∀ a b, S a b → T a b) :
    Reordered T l l' := by
  obtain ⟨u, perm, related⟩ := h
  exact ⟨u, perm, related.imp imp⟩

theorem forall₂_square {P : α → γ → Prop} {Q : β → δ → Prop} {n : List γ} {n' : List δ}
    (first : List.Forall₂ P l n) (across : List.Forall₂ S l l') (second : List.Forall₂ Q l' n') :
    List.Forall₂ (fun c d => ∃ a b, P a c ∧ S a b ∧ Q b d) n n' := by
  induction first generalizing l' n' with
  | nil =>
      cases across
      cases second
      exact .nil
  | cons head _ ih =>
      cases across with
      | cons related across =>
          cases second with
          | cons head' second => exact .cons ⟨_, _, head, related, head'⟩ (ih across second)

theorem transfer {P : α → γ → Prop} {Q : β → δ → Prop} {n : List γ} {n' : List δ}
    (h : Reordered S l l') (first : List.Forall₂ P l n) (second : List.Forall₂ Q l' n') :
    Reordered (fun c d => ∃ a b, P a c ∧ S a b ∧ Q b d) n n' := by
  obtain ⟨u, perm, across⟩ := h
  obtain ⟨w, made, reordered⟩ := List.perm_comp_forall₂ perm.symm first
  exact ⟨w, reordered.symm, forall₂_square made across second⟩

theorem perm {l' : List α} (h : Reordered Eq l l') : l.Perm l' := by
  obtain ⟨u, perm, same⟩ := h
  rw [List.forall₂_eq_eq_eq] at same
  exact same ▸ perm

end Reordered

structure Instance.Reorders (S : Declaration ν → Declaration ν → Prop) (i i' : Instance ν) :
    Prop where
  declarations : Reordered S i.declarations i'.declarations
  constraints : i'.constraints = i.constraints
  type : i'.type = i.type
  classname : i'.classname = i.classname

def Declaration.Shifted (b b' : Declaration Name) : Prop :=
  ∃ a j k, b = raised j a ∧ b' = raised k a

namespace Module

structure Reorders (S : Declaration ν → Declaration ν → Prop) (m m' : Module ν) : Prop where
  name : m'.name = m.name
  classes : m'.classes = m.classes
  definitions : m'.definitions = m.definitions
  declared : m'.declared = m.declared
  bindings : Reordered S m.bindings.declarations m'.bindings.declarations
  instances : Reordered (Instance.Reorders S) m.instances.instances m'.instances.instances

namespace Reorders

variable {m m' : Module Symbol}

theorem perm_flatMap {is is' : List (Instance Symbol)}
    (h : Reordered (Instance.Reorders Eq) is is') :
    (is.flatMap Instance.declarations).Perm (is'.flatMap Instance.declarations) := by
  obtain ⟨u, perm, same⟩ := h
  refine (perm.flatMap_right _).trans ?_
  clear perm
  induction same with
  | nil => exact .nil
  | cons head _ ih =>
      rw [List.flatMap_cons, List.flatMap_cons]
      exact head.declarations.perm.append ih

theorem perm_declarations (h : m.Reorders Eq m') : m.declarations.Perm m'.declarations :=
  (perm_flatMap h.instances).append h.bindings.perm

end Reorders

theorem shifted_of_renamed {b b' : Declaration Name}
    (h : ∃ a a' : Declaration Symbol, a.Renamed b ∧ a = a' ∧ a'.Renamed b') : b.Shifted b' := by
  obtain ⟨a, _, ⟨j, first⟩, rfl, k, second⟩ := h
  exact ⟨a.alone, j, k, first, second⟩

theorem reorders_of_renamed {i i' : Instance Name} (h : ∃ a a' : Instance Symbol,
    a.Renamed i ∧ a.Reorders Eq a' ∧ a'.Renamed i') : i.Reorders Declaration.Shifted i' := by
  obtain ⟨a, a', first, same, second⟩ := h
  have bindings := same.declarations.transfer first.declarations second.declarations
  exact ⟨bindings.imp fun _ _ => shifted_of_renamed,
    second.constraints.trans (same.constraints.trans first.constraints.symm),
    second.type.trans (same.type.trans first.type.symm),
    second.classname.trans (same.classname.trans first.classname.symm)⟩

theorem reorders_resolve {m m' : Module Symbol} (h : Sealed m.declarations)
    (reorders : m.Reorders Eq m') :
    (m.resolve .initial).1.Reorders Declaration.Shifted (m'.resolve .initial).1 := by
  have perm := reorders.perm_declarations
  have h' : Sealed m'.declarations := fun b mem => h b (perm.mem_iff.2 mem)
  have total : total m'.declarations = total m.declarations := (perm.map _).sum_nat.symm
  have bindings := reorders.bindings.transfer (each_binding_renamed h) (each_binding_renamed h')
  have instances := reorders.instances.transfer (instances_renamed h) (instances_renamed h')
  refine ⟨?_, ?_, ?_, ?_, ?_, ?_⟩
  · rw [(piecewise_resolve h).name, (piecewise_resolve h').name, total, reorders.name]
  · exact reorders.classes
  · rw [(piecewise_resolve h).definitions, (piecewise_resolve h').definitions, reorders.definitions]
  · exact reorders.declared
  · exact bindings.imp fun _ _ => shifted_of_renamed
  · exact instances.imp fun _ _ => reorders_of_renamed

end Module

namespace Renaming

/-- A module from whose bindings nothing leaks is renamed piece by piece: each right-hand side as on
its own, with its numbers raised by as many as there are binders in those before it. For instances
and bindings in another order the result is in that order, with numbers shifted. -/
theorem renamed_piecewise (m : Module Symbol) (h : Sealed m.declarations) :
    (m.datum.renamed .module).1 = .ok (m.resolve .initial).1.datum ∧
      (∀ b ∈ m.declarations, (b.right.datum.renamed .expression).1 = .ok b.alone.right.datum) ∧
      m.Piecewise (m.resolve .initial).1 ∧
      ∀ m' : Module Symbol, m.Reorders Eq m' →
        (m'.datum.renamed .module).1 = .ok (m'.resolve .initial).1.datum ∧
          (m.resolve .initial).1.Reorders Declaration.Shifted (m'.resolve .initial).1 :=
  ⟨m.ok_renamed, fun b _ => b.right.ok_renamed .expression, Module.piecewise_resolve h,
    fun m' reorders => ⟨m'.ok_renamed, Module.reorders_resolve h reorders⟩⟩

def sealedModule : Module Symbol :=
  let x := Symbol.ofText "x"
  let y := Symbol.ofText "y"
  let block := .doBlock (.cons (.doBind (.identifierPattern y) (.reference x)) (.nil .statement))
    (.reference y)
  { name := .ofText "m"
    classes := .null
    definitions := .cons (.definition (.cons (.constructor (.ofText "C") .null .null .null)
      (.nil .constructor)) .null .null) (.nil .definition)
    declared := .null
    bindings := .declaration (.ofText "f") (.lambda x block) .null (.int 1) .noDeclaration
    instances := .cons (.instanceOf (.declaration (.ofText "g") (.lambda y (.reference y)) .null
      (.int 1) (.declaration (.ofText "h") (.letIn (.binding x (.reference (.ofText "g")) .null
        (.int 0) .noBinding) (.reference x)) .null (.int 0) .noDeclaration)) .null .null .null)
      (.nil .instanceOf) }

def sealedModuleSwapped : Module Symbol :=
  let x := Symbol.ofText "x"
  let y := Symbol.ofText "y"
  { sealedModule with
    instances := .cons (.instanceOf (.declaration (.ofText "h") (.letIn (.binding x
      (.reference (.ofText "g")) .null (.int 0) .noBinding) (.reference x)) .null (.int 0)
      (.declaration (.ofText "g") (.lambda y (.reference y)) .null (.int 1) .noDeclaration))
      .null .null .null) (.nil .instanceOf) }

theorem sealedModule_piecewise : Sealed sealedModule.declarations ∧
    sealedModule.Piecewise (sealedModule.resolve .initial).1 ∧
    (sealedModule.resolve .initial).1.name = ⟨.ofText "m", 6⟩ ∧
    (sealedModule.resolve .initial).1.Reorders Declaration.Shifted
      (sealedModuleSwapped.resolve .initial).1 := by
  have h : Sealed sealedModule.declarations := List.forall_mem_cons.2
    ⟨rfl, List.forall_mem_cons.2 ⟨rfl, List.forall_mem_cons.2 ⟨rfl, List.forall_mem_nil _⟩⟩⟩
  have bindings : Reordered Eq sealedModule.bindings.declarations
      sealedModuleSwapped.bindings.declarations := ⟨_, .refl _, List.forall₂_refl _⟩
  have instances : Reordered (Instance.Reorders Eq) sealedModule.instances.instances
      sealedModuleSwapped.instances.instances :=
    ⟨_, .refl _, .cons ⟨⟨_, .swap _ _ _, List.forall₂_refl _⟩, rfl, rfl, rfl⟩ .nil⟩
  obtain ⟨_, _, piecewise, reorders⟩ := renamed_piecewise sealedModule h
  have swapped := reorders sealedModuleSwapped ⟨rfl, rfl, rfl, rfl, bindings, instances⟩
  exact ⟨h, piecewise, piecewise.name, swapped.2⟩

end Renaming

end ScopeResolution
