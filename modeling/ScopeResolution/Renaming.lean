import ScopeResolution.Resolver
import ScopeResolution.Traversal.Parts

/-!
Renaming: the symbols of a tree give way to names. Every binding occurrence gets a new name, and
every reference the name that the innermost binding of its symbol holds, or a global name.

A lambda, a let and an alternative each open a scope. A do block opens none: what its lets and binds
introduce stays until the enclosing scope ends. The alternatives of a case are renamed before the
value it inspects, and all names of a group are bound before its right-hand sides are renamed. In a
module, top-level and instance bindings and constructors are global.
-/

namespace ScopeResolution.Renaming

open Datum Traversal

inductive Extent where
  | expression
  | module
  deriving DecidableEq, Repr

abbrev Script (d : Datum) := Routine (Part d) Resolver Fault Datum

def passesThrough : Form → Bool
  | .number | .rational | .string | .char | .apply | .doBlock | .doExpr | .doBind
  | .numberPattern | .wildCardPattern => true
  | _ => false

section Steps

variable {d : Datum}

def bindFresh (symbol : Datum) : Script d Datum :=
  .perform (Resolver.freshName symbol)

def nameOf (symbol : Datum) : Script d Datum :=
  .query (Resolver.nameOf symbol)

def inScope (body : Script d Datum) : Script d Datum :=
  .within Resolver.enter Resolver.exit body

def renameItems (x : Part d) : Script d (List Datum) := do
  let xs ← .ofExcept x.items
  .callAll xs

def told (x : Datum) : Script d String :=
  .query fun r => r.limits.displayed x

/-- The name a group's binding gets: the one its symbol is bound to when its turn comes. -/
def boundName (symbol : Datum) : Script d Datum := do
  match ← .query (Resolver.lookup symbol) with
  | .null => do
      let text ← told symbol
      .modify (Resolver.error ("binding " ++ text ++ " was not registered"))
      .fail (.unboundBinding symbol)
  | found => return found

def renameRight (b : Part d) : Script d Datum := do
  let e ← .ofExcept (b.attr "expression")
  .call e

def bindMember (b : Part d) : Script d Datum := do
  let symbol ← .ofExcept (b.attr "name")
  bindFresh symbol.1

def renameMember (b : Part d) : Script d Datum := do
  let symbol ← .ofExcept (b.attr "name")
  let bound ← boundName symbol.1
  let right ← renameRight b
  .ofExcept (b.1.update [("name", bound), ("expression", right)])

def renameGroup (x : Part d) : Script d Datum := do
  let bs ← .ofExcept x.items
  let _ ← bs.mapM bindMember
  let renamed ← bs.mapM renameMember
  return .tuple renamed

def renameDeclared (b : Part d) : Script d Datum := do
  let right ← renameRight b
  let symbol ← .ofExcept (b.attr "name")
  .ofExcept (b.1.update [("name", .globalName symbol.1), ("expression", right)])

def renameDeclarations (x : Part d) : Script d (List Datum) := do
  let bs ← .ofExcept x.items
  bs.mapM renameDeclared

end Steps

def unsupported (d : Datum) : Script d Datum := do
  let _ ← told d
  .fail (.unsupportedNode d)

def renameOther (k : Kind) (fs : List Datum) : Script (.node k fs) Datum :=
  if passesThrough k.root then rebuild _ .call else unsupported _

section Rules

variable (d : Datum)

def renameWithin (a : String) : Script d Datum := do
  let x ← .ofExcept (d.part a)
  let inner ← .call x
  .ofExcept (d.update [(a, inner)])

def renameIdentifier : Script d Datum := do
  let symbol ← .ofExcept (d.part "name")
  let bound ← nameOf symbol.1
  return .ofForm .identifier [bound]

def renameLambda : Script d Datum := inScope do
  let symbol ← .ofExcept (d.part "arg")
  let arg ← bindFresh symbol.1
  let x ← .ofExcept (d.part "body")
  let body ← .call x
  return .ofForm .lambda [arg, body]

def renameLet : Script d Datum := inScope do
  let bs ← .ofExcept (d.part "bindings")
  let bindings ← renameGroup bs
  let x ← .ofExcept (d.part "body")
  let body ← .call x
  return .ofForm .letIn [bindings, body]

def renameCase : Script d Datum := do
  let xs ← .ofExcept (d.part "alternatives")
  let alternatives ← renameItems xs
  let x ← .ofExcept (d.part "expr")
  let expr ← .call x
  return .ofForm .caseOf [expr, .tuple alternatives]

def renameAlternative : Script d Datum := inScope do
  let p ← .ofExcept (d.part "pattern")
  let pattern ← .call p
  let x ← .ofExcept (d.part "expression")
  let expression ← .call x
  return .ofForm .alternative [pattern, expression]

def renameDoLet : Script d Datum := do
  let bs ← .ofExcept (d.part "bindings")
  let bindings ← renameGroup bs
  return .ofForm .doLet [bindings]

def renameConstructorPattern : Script d Datum := do
  let xs ← .ofExcept (d.part "patterns")
  let patterns ← renameItems xs
  let symbol ← .ofExcept (d.part "name")
  return .ofForm .constructorPattern [.globalName symbol.1, .tuple patterns]

def renameIdentifierPattern : Script d Datum := do
  let symbol ← .ofExcept (d.part "name")
  let bound ← bindFresh symbol.1
  return .ofForm .identifierPattern [bound]

/-- The new name of a module is taken after all that is in it, and before the module can be asked
for a replacement. -/
def renameModule : Script d Datum := do
  let shown ← .ofExcept (d.part "name")
  let text ← told shown.1
  .modify (Resolver.debug ("renaming module " ++ text))
  let types ← .ofExcept (d.part "data_definitions")
  let types ← renameItems types
  let instances ← .ofExcept (d.part "instances")
  let instances ← renameItems instances
  let bs ← .ofExcept (d.part "bindings")
  let bindings ← renameDeclarations bs
  let symbol ← .ofExcept (d.part "name")
  let bound ← bindFresh symbol.1
  .ofExcept (d.update [("name", bound), ("data_definitions", .tuple types),
    ("bindings", .tuple bindings), ("instances", .tuple instances)])

def renameDataDefinition : Script d Datum := do
  let xs ← .ofExcept (d.part "constructors")
  let constructors ← renameItems xs
  .ofExcept (d.update [("constructors", .tuple constructors)])

def renameConstructor : Script d Datum := do
  let symbol ← .ofExcept (d.part "name")
  .ofExcept (d.update [("name", .globalName symbol.1)])

def renameInstance : Script d Datum := do
  let bs ← .ofExcept (d.part "bindings")
  let bindings ← renameDeclarations bs
  .ofExcept (d.update [("bindings", .tuple bindings)])

end Rules

/-- What is done with the nodes whose kinds bear the name of a form, if that is no matter of what
they descend from. -/
def rule? (extent : Extent) : Form → Option ((d : Datum) → Script d Datum)
  | .typedExpr => some (renameWithin · "expr")
  | .located => some (renameWithin · "node")
  | .identifier => some renameIdentifier
  | .lambda => some renameLambda
  | .letIn => some renameLet
  | .caseOf => some renameCase
  | .alternative => some renameAlternative
  | .doLet => some renameDoLet
  | .constructorPattern => some renameConstructorPattern
  | .identifierPattern => some renameIdentifierPattern
  | f => match extent, f with
      | .module, .module => some renameModule
      | .module, .dataDefinition => some renameDataDefinition
      | .module, .constructor => some renameConstructor
      | .module, .instanceOf => some renameInstance
      | _, _ => none

def renameNode (extent : Extent) : (d : Datum) → Script d Datum
  | .node k fs => match k.bears.bind (rule? extent) with
      | some rule => rule (.node k fs)
      | none => renameOther k fs
  | d => unsupported d

def visitor (extent : Extent) : Visitor Datum Resolver Fault Datum where
  before c d := c.size < d.size
  wf := Datum.size_wf
  method := renameNode extent

end Renaming

open Renaming (Extent)

namespace Resolver

def rename (extent : Extent) (tree : Datum) (r : Resolver) : Except Fault Datum × Resolver :=
  (Renaming.visitor extent).drive tree r

end Resolver

namespace Datum

def renamed (extent : Extent) (tree : Datum) : Except Fault Datum × Resolver :=
  Resolver.initial.rename extent tree

end Datum

end ScopeResolution
