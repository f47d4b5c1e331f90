import ScopeResolution.Proofs.Scoping.Reference

namespace ScopeResolution

namespace Shape

def refers : Shape → Bool
  | .one .pattern | .one .constructor | .one .definition => false
  | .many .pattern | .many .constructor | .many .definition => false
  | _ => true

def leaks : Shape → Bool
  | .one .alternative | .one .constructor | .one .definition => false
  | .many .alternative | .many .constructor | .many .definition => false
  | _ => true

theorem refers_one (c : Category) : (one c).refers = (many c).refers := by
  cases c <;> rfl

theorem leaks_one (c : Category) : (one c).leaks = (many c).leaks := by
  cases c <;> rfl

end Shape

def Symbol.without (xs ys : List Symbol) : List Symbol :=
  xs.filter (·.essence ∉ ys.map Symbol.essence)

namespace Phrase

open ScopeResolution.Symbol (without)

/-- The symbols bound in a phrase that are still bound after it; those of a pattern are its
variables. -/
def leak : {s : Shape} → Phrase Symbol s → List Symbol
  | _, .typed e _ _ => e.leak
  | _, .located e _ => e.leak
  | _, .literal _ _ => []
  | _, .reference _ => []
  | _, .apply f a => f.leak ++ a.leak
  | _, .lambda _ _ => []
  | _, .letIn _ _ => []
  | _, .caseOf e _ => e.leak
  | _, .doBlock statements e => statements.leak ++ e.leak
  | _, .locatedPattern p _ => p.leak
  | _, .numberPattern _ => []
  | _, .wildCardPattern => []
  | _, .identifierPattern x => [x]
  | _, .constructorPattern _ patterns => patterns.leak
  | _, .alternative _ _ => []
  | _, .doExpr e => e.leak
  | _, .doLet g => g.names ++ g.leak
  | _, .doBind p e => p.leak ++ e.leak
  | _, .constructor _ _ _ _ => []
  | _, .definition constructors _ _ => constructors.leak
  | _, .instanceOf bindings _ _ _ => bindings.leak
  | _, .nil _ => []
  | _, .cons t ts => t.leak ++ ts.leak
  | _, .noBinding => []
  | _, .binding _ right _ _ rest => right.leak ++ rest.leak
  | _, .noDeclaration => []
  | _, .declaration _ right _ _ rest => right.leak ++ rest.leak

def free : {s : Shape} → Phrase Symbol s → List Symbol
  | _, .typed e _ _ => e.free
  | _, .located e _ => e.free
  | _, .literal _ _ => []
  | _, .reference x => [x]
  | _, .apply f a => f.free ++ without a.free f.leak
  | _, .lambda x body => without body.free [x]
  | _, .letIn g body => without (g.free ++ without body.free g.leak) g.names
  | _, .caseOf e alternatives => alternatives.free ++ e.free
  | _, .doBlock statements e => statements.free ++ without e.free statements.leak
  | _, .locatedPattern p _ => p.free
  | _, .numberPattern _ => []
  | _, .wildCardPattern => []
  | _, .identifierPattern _ => []
  | _, .constructorPattern _ patterns => patterns.free
  | _, .alternative p e => without e.free p.leak
  | _, .doExpr e => e.free
  | _, .doLet g => without g.free g.names
  | _, .doBind p e => without e.free p.leak
  | _, .constructor _ _ _ _ => []
  | _, .definition constructors _ _ => constructors.free
  | _, .instanceOf bindings _ _ _ => bindings.free
  | _, .nil _ => []
  | _, .cons t ts => t.free ++ without ts.free t.leak
  | _, .noBinding => []
  | _, .binding _ right _ _ rest => right.free ++ without rest.free right.leak
  | _, .noDeclaration => []
  | _, .declaration _ right _ _ rest => right.free ++ without rest.free right.leak

theorem free_eq_nil {s : Shape} (t : Phrase Symbol s) (h : s.refers = false) : t.free = [] := by
  induction t with
  | locatedPattern p location ih => exact ih rfl
  | numberPattern => rfl
  | wildCardPattern => rfl
  | identifierPattern => rfl
  | constructorPattern x patterns ih => exact ih rfl
  | constructor => rfl
  | definition constructors type parameters ih => exact ih rfl
  | nil => rfl
  | cons t ts iht ihts =>
      rw [free, iht ((Shape.refers_one _).trans h), ihts h]
      rfl
  | _ => cases h

theorem leak_eq_nil {s : Shape} (t : Phrase Symbol s) (h : s.leaks = false) : t.leak = [] := by
  induction t with
  | alternative => rfl
  | constructor => rfl
  | definition constructors type parameters ih => exact ih rfl
  | nil => rfl
  | cons t ts iht ihts => rw [leak, iht ((Shape.leaks_one _).trans h), ihts h, List.append_nil]
  | _ => cases h

theorem leaks_scoping {s : Shape} (t : Phrase Symbol s) :
    t.scoping.leaks = t.leak.map Symbol.essence := by
  induction t with
  | caseOf e alternatives ihe iha =>
      have nothing := alternatives.leak_eq_nil rfl
      rw [nothing] at iha
      simp [scoping, Scoping.leaks, leak, iha, ihe]
  | _ => simp_all [scoping, Scoping.leaks, leak, names_scoping]

theorem free_scoping {s : Shape} (t : Phrase Symbol s) : t.scoping.free = t.free := by
  induction t with
  | lambda x body ih => simp [scoping, Scoping.free, Scoping.leaks, free, without, ih]
  | letIn g body ihg ih =>
      simp [scoping, Scoping.free, Scoping.leaks, free, without, leaks_scoping, names_scoping, ihg,
        ih, List.filter_filter, Bool.and_comm]
  | caseOf e alternatives ihe iha =>
      have nothing := alternatives.leak_eq_nil rfl
      simp [scoping, Scoping.free, free, leaks_scoping, nothing, ihe, iha]
  | alternative p e ihp ihe =>
      rw [p.free_eq_nil rfl] at ihp
      simp [scoping, Scoping.free, free, without, leaks_scoping, ihp, ihe]
  | doLet g ih => simp [scoping, Scoping.free, free, without, names_scoping, ih]
  | doBind p e ihp ihe =>
      rw [p.free_eq_nil rfl] at ihp
      simp [scoping, Scoping.free, free, without, leaks_scoping, ihp, ihe]
  | _ => simp_all [scoping, Scoping.free, free, leaks_scoping, without]

end Phrase

namespace Module

open ScopeResolution.Symbol (without)

def free (m : Module Symbol) : List Symbol :=
  m.instances.free ++ without m.bindings.free m.instances.leak

theorem free_scoping (m : Module Symbol) : m.scoping.free = m.free := by
  have free := m.definitions.free_eq_nil rfl
  have leak := m.definitions.leak_eq_nil rfl
  simp [scoping, Scoping.free, Module.free, without, Phrase.free_scoping, Phrase.leaks_scoping,
    free, leak]

end Module

end ScopeResolution
