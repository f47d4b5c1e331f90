import ScopeResolution.Proofs.Resolution

/-!
The scoping of a phrase: which identifiers it binds and refers to, in what order, in what scopes and
groups. Resolution depends on nothing else (`Phrase.scoping_resolve`). What is bound in the
innermost scope when a scoping ends is what it leaks: what leaks means a newer name afterwards, and
all else means what it meant (`Scoping.rebinds_resolve`).
-/

namespace ScopeResolution

inductive Portion where
  | whole
  | members
  deriving DecidableEq, Repr

inductive Scoping (ν : Type) : Portion → Type where
  | none : Scoping ν .whole
  | refer (x : ν) : Scoping ν .whole
  | bind (x : ν) : Scoping ν .whole
  | seq (a b : Scoping ν .whole) : Scoping ν .whole
  | scope (a : Scoping ν .whole) : Scoping ν .whole
  | group (g : Scoping ν .members) : Scoping ν .whole
  | nil : Scoping ν .members
  | member (x : ν) (right : Scoping ν .whole) (rest : Scoping ν .members) : Scoping ν .members

namespace Scoping

variable {ν : Type} {p : Portion}

def names : {p : Portion} → Scoping ν p → List ν
  | .whole, _ => []
  | .members, .nil => []
  | .members, .member x _ rest => x :: rest.names

@[simp]
theorem names_whole (a : Scoping ν .whole) : a.names = [] := by
  rw [names]

def binders : {p : Portion} → Scoping ν p → List ν
  | _, .none => []
  | _, .refer _ => []
  | _, .bind x => [x]
  | _, .seq a b => a.binders ++ b.binders
  | _, .scope a => a.binders
  | _, .group g => g.binders
  | _, .nil => []
  | _, .member x right rest => x :: (right.binders ++ rest.binders)

def references : {p : Portion} → Scoping ν p → List ν
  | _, .none => []
  | _, .refer x => [x]
  | _, .bind _ => []
  | _, .seq a b => a.references ++ b.references
  | _, .scope a => a.references
  | _, .group g => g.references
  | _, .nil => []
  | _, .member _ right rest => right.references ++ rest.references

def resolve : {p : Portion} → Scoping Symbol p → Context → Scoping Name p × Context
  | _, .none, c => (.none, c)
  | _, .refer x, c => (.refer (c.nameOf x), c)
  | _, .bind x, c => (.bind (c.next x), c.bind x)
  | _, .seq a b, c =>
      let a := a.resolve c
      let b := b.resolve a.2
      (.seq a.1 b.1, b.2)
  | _, .scope a, c =>
      let a := a.resolve c
      (.scope a.1, c.leave a.2)
  | _, .group g, c =>
      let g := g.resolve (c.bindAll g.names)
      (.group g.1, g.2)
  | _, .nil, c => (.nil, c)
  | _, .member x right rest, c =>
      let right := right.resolve c
      let rest := rest.resolve right.2
      (.member (c.nameOf x) right.1 rest.1, rest.2)

def leaks : {p : Portion} → Scoping Symbol p → List Essence
  | _, .none => []
  | _, .refer _ => []
  | _, .bind x => [x.essence]
  | _, .seq a b => a.leaks ++ b.leaks
  | _, .scope _ => []
  | _, .group g => g.names.map Symbol.essence ++ g.leaks
  | _, .nil => []
  | _, .member _ right rest => right.leaks ++ rest.leaks

theorem rebinds_resolve (s : Scoping Symbol p) (c : Context) :
    c.Rebinds (s.resolve c).2 s.leaks := by
  induction s generalizing c with
  | none => exact c.rebinds_refl
  | refer => exact c.rebinds_refl
  | bind x => exact c.rebinds_bind x
  | seq a b iha ihb => exact (iha c).append (ihb _)
  | scope a ih => exact (ih c).leave
  | group g ih => exact (c.rebinds_bindAll g.names).append (ih _)
  | nil => exact c.rebinds_refl
  | member x right rest ihr ihrest => exact (ihr c).append (ihrest _)

theorem sound_resolve {s : Scoping Symbol p} {c : Context} (h : c.Sound) :
    (s.resolve c).2.Sound := by
  induction s generalizing c with
  | none => exact h
  | refer => exact h
  | bind x => exact h.bind x
  | seq a b iha ihb => exact ihb (iha h)
  | scope a _ => exact h.leave (a.rebinds_resolve c).later
  | group g ih => exact ih (h.bindAll g.names)
  | nil => exact h
  | member x right rest ihr ihrest => exact ihrest (ihr h)

end Scoping

abbrev Shape.portion : Shape → Portion
  | .one _ => .whole
  | .many _ => .whole
  | .group => .members
  | .declarations => .whole

namespace Phrase

variable {ν : Type}

def scoping : {s : Shape} → Phrase ν s → Scoping ν s.portion
  | _, .typed e _ _ => e.scoping
  | _, .located e _ => e.scoping
  | _, .literal _ _ => .none
  | _, .reference x => .refer x
  | _, .apply f a => .seq f.scoping a.scoping
  | _, .lambda x body => .scope (.seq (.bind x) body.scoping)
  | _, .letIn g body => .scope (.seq (.group g.scoping) body.scoping)
  | _, .caseOf e alternatives => .seq alternatives.scoping e.scoping
  | _, .doBlock statements e => .seq statements.scoping e.scoping
  | _, .locatedPattern p _ => p.scoping
  | _, .numberPattern _ => .none
  | _, .wildCardPattern => .none
  | _, .identifierPattern x => .bind x
  | _, .constructorPattern _ patterns => patterns.scoping
  | _, .alternative p e => .scope (.seq p.scoping e.scoping)
  | _, .doExpr e => e.scoping
  | _, .doLet g => .group g.scoping
  | _, .doBind p e => .seq p.scoping e.scoping
  | _, .constructor _ _ _ _ => .none
  | _, .definition constructors _ _ => constructors.scoping
  | _, .instanceOf bindings _ _ _ => bindings.scoping
  | _, .nil _ => .none
  | _, .cons t ts => .seq t.scoping ts.scoping
  | _, .noBinding => .nil
  | _, .binding x right _ _ rest => .member x right.scoping rest.scoping
  | _, .noDeclaration => .none
  | _, .declaration _ right _ _ rest => .seq right.scoping rest.scoping

def binders {s : Shape} (t : Phrase ν s) : List ν :=
  t.scoping.binders

def references {s : Shape} (t : Phrase ν s) : List ν :=
  t.scoping.references

theorem names_scoping : (g : Phrase ν .group) → g.scoping.names = g.names
  | .noBinding => by rw [scoping, names, Scoping.names]
  | .binding x right type arity rest => by
      rw [scoping, names, Scoping.names, names_scoping rest]

theorem scoping_resolve {s : Shape} (t : Phrase Symbol s) (c : Context) :
    (t.resolve c).1.scoping = (t.scoping.resolve c).1 ∧
      (t.resolve c).2 = (t.scoping.resolve c).2 := by
  induction t generalizing c with
  | typed e _ _ ih => exact ih c
  | located e _ ih => exact ih c
  | literal => exact ⟨rfl, rfl⟩
  | reference => exact ⟨rfl, rfl⟩
  | apply f a ihf iha => simp [resolve, scoping, Scoping.resolve, ihf, iha]
  | lambda x body ih => simp [resolve, scoping, Scoping.resolve, ih]
  | letIn g body ihg ih => simp [resolve, scoping, Scoping.resolve, names_scoping, ihg, ih]
  | caseOf e alternatives ihe iha => simp [resolve, scoping, Scoping.resolve, ihe, iha]
  | doBlock statements e ihs ihe => simp [resolve, scoping, Scoping.resolve, ihs, ihe]
  | locatedPattern p _ ih => exact ih c
  | numberPattern => exact ⟨rfl, rfl⟩
  | wildCardPattern => exact ⟨rfl, rfl⟩
  | identifierPattern => exact ⟨rfl, rfl⟩
  | constructorPattern _ patterns ih => exact ih c
  | alternative p e ihp ihe => simp [resolve, scoping, Scoping.resolve, ihp, ihe]
  | doExpr e ih => exact ih c
  | doLet g ih => simp [resolve, scoping, Scoping.resolve, names_scoping, ih]
  | doBind p e ihp ihe => simp [resolve, scoping, Scoping.resolve, ihp, ihe]
  | constructor => exact ⟨rfl, rfl⟩
  | definition constructors _ _ ih => exact ih c
  | instanceOf bindings _ _ _ ih => exact ih c
  | nil => exact ⟨rfl, rfl⟩
  | cons t ts iht ihts => simp [resolve, scoping, Scoping.resolve, iht, ihts]
  | noBinding => exact ⟨rfl, rfl⟩
  | binding x right _ _ rest ihr ihrest => simp [resolve, scoping, Scoping.resolve, ihr, ihrest]
  | noDeclaration => exact ⟨rfl, rfl⟩
  | declaration x right _ _ rest ihr ihrest =>
      simp [resolve, scoping, Scoping.resolve, ihr, ihrest]

theorem binds_resolve {s : Shape} (t : Phrase Symbol s) {c : Context} {xs : List Symbol}
    (h : c.Binds xs) : (t.resolve c).2.Binds xs := by
  rw [(t.scoping_resolve c).2]
  exact (t.scoping.rebinds_resolve c).binds h

end Phrase

namespace Module

variable {ν : Type}

def scoping (m : Module ν) : Scoping ν .whole :=
  .seq m.definitions.scoping (.seq m.instances.scoping m.bindings.scoping)

def binders (m : Module ν) : List ν :=
  m.scoping.binders

def references (m : Module ν) : List ν :=
  m.scoping.references

theorem scoping_resolve (m : Module Symbol) (c : Context) :
    (m.resolve c).1.scoping = (m.scoping.resolve c).1 := by
  simp [resolve, scoping, Scoping.resolve, Phrase.scoping_resolve]

end Module

end ScopeResolution
