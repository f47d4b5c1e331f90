import ScopeResolution.Attributes
import ScopeResolution.Dictionary.Basic
import ScopeResolution.Traversal.Parts

namespace ScopeResolution

inductive Role where
  | bind
  | load
  | constructor
  deriving DecidableEq, Repr

/-- The roles that are asked for. A tuple of none stands for all of them, a list of none for
none. -/
inductive Roles where
  | one (r : Role)
  | list (rs : List Role)
  | tuple (rs : List Role)

namespace Roles

def all : Roles := .tuple []

def asksFor : Roles → Role → Bool
  | .one s, r => r == s
  | .list rs, r => rs.contains r
  | .tuple [], _ => true
  | .tuple rs, r => rs.contains r

end Roles

/-- Values in the order in which they were first met; what is stored under them counts for
nothing. -/
structure NameSet where
  members : Dictionary

namespace NameSet

def empty : NameSet := ⟨.empty⟩

def add (s : NameSet) (k : Keyed) : Except Fault NameSet := do
  return ⟨← s.members.put k .null⟩

def insert (d : Datum) (s : NameSet) : Except Fault Unit × NameSet :=
  match s.members.siteOf d with
  | .ok site => (.ok (), ⟨s.members.settle site .null⟩)
  | .error e => (.error e, s)

def toList (s : NameSet) : List Datum :=
  s.members.keys.map (·.datum)

def sorted (s : NameSet) : Except Fault (List Datum) := do
  let texts ← s.toList.mapM Datum.rendered
  return ((texts.zip s.toList).mergeSort fun a b => !(decide (b.1 < a.1))).map (·.2)

end NameSet

namespace Names

open Datum Traversal

abbrev Script (d : Datum) := Routine (Part d) NameSet Fault Unit

def add {d : Datum} (roles : Roles) (role : Role) (name : Datum) : Script d Unit :=
  if roles.asksFor role then .perform (NameSet.insert name) else .done ()

def collectBelow (d : Datum) : Script d Unit := do
  let _ ← visitChildren d .call

/-- What is done with the nodes of a kind: to visit what is in one field, or to take in the name in
one, and what is below it or not. -/
inductive Rule where
  | through (a : String)
  | leaf (role : Role) (a : String)
  | head (role : Role) (a : String)

def Rule.collect (roles : Roles) (d : Datum) : Rule → Script d Unit
  | .through a => do
      let x ← .ofExcept (d.part a)
      .call x
  | .leaf role a => do
      let x ← .ofExcept (d.part a)
      add roles role x.1
  | .head role a => do
      let x ← .ofExcept (d.part a)
      add roles role x.1
      collectBelow d

def rule? : Form → Option Rule
  | .typedExpr => some (.through "expr")
  | .identifier => some (.leaf .load "name")
  | .identifierPattern => some (.leaf .bind "name")
  | .constructor => some (.leaf .constructor "name")
  | .lambda => some (.head .bind "arg")
  | .binding => some (.head .bind "name")
  | .module => some (.head .bind "name")
  | .constructorPattern => some (.head .constructor "name")
  | _ => none

def ruleOf? : Datum → Option Rule
  | .node k _ => k.bears.bind rule?
  | _ => none

def collectNode (roles : Roles) (d : Datum) : Script d Unit :=
  match ruleOf? d with
  | some rule => rule.collect roles d
  | none => collectBelow d

def visitor (roles : Roles) : Visitor Datum NameSet Fault Unit where
  before c d := c.size < d.size
  wf := Datum.size_wf
  method := collectNode roles

end Names

namespace Datum

def names (roles : Roles) (tree : Datum) : Except Fault NameSet :=
  match (Names.visitor roles).drive tree .empty with
  | (.ok (), s) => .ok s
  | (.error e, _) => .error e

def isGlobal (d : Datum) : Except Fault Bool := do
  return (← d.getAttribute "is_global").countsAsTrue

end Datum

namespace NameSet

def select (wanted : Bool) (s : NameSet) : Except Fault NameSet :=
  s.members.keys.foldlM (fun chosen k => do
    if (← k.datum.isGlobal) = wanted then chosen.add k else return chosen) empty

end NameSet

namespace Datum

def globalReferences (tree : Datum) : Except Fault NameSet := do
  (← tree.names (.one .load)).select true

def localBindings (tree : Datum) : Except Fault NameSet := do
  (← tree.names (.one .bind)).select false

end Datum

end ScopeResolution
