import ScopeResolution.Construction
import ScopeResolution.Proofs.Symbol

/-!
Well-formed trees: built-in nodes that stand where their forms belong, with `ν` at the places of
identifiers. `Phrase.datum` is the tree that a phrase stands for; a phrase of symbols is a tree to
be renamed, a phrase of names a tree that was renamed. Types, locations and the other data that
trees carry may be any value.
-/

namespace ScopeResolution

inductive Category where
  | expression
  | pattern
  | alternative
  | statement
  | constructor
  | definition
  | instanceOf
  deriving DecidableEq, Repr

/-- A node of a category, a row of such nodes, a group of bindings that may refer to each other, or
the bindings that a module declares. -/
inductive Shape where
  | one (c : Category)
  | many (c : Category)
  | group
  | declarations
  deriving DecidableEq, Repr

inductive LiteralForm where
  | number
  | rational
  | string
  | char
  deriving DecidableEq, Repr

def LiteralForm.form : LiteralForm → Form
  | .number => .number
  | .rational => .rational
  | .string => .string
  | .char => .char

/-- The value of a literal is neither a node nor made of items. -/
structure Literal where
  datum : Datum
  plain : datum.isNode = false
  itemless : datum.tupleItems? = none
  frozen : datum.freeze = datum

def Literal.ofInt (n : Int) : Literal :=
  ⟨.int n, rfl, rfl, rfl⟩

inductive Phrase (ν : Type) : Shape → Type where
  | typed (e : Phrase ν (.one .expression)) (type location : Datum) : Phrase ν (.one .expression)
  | located (e : Phrase ν (.one .expression)) (location : Datum) : Phrase ν (.one .expression)
  | literal (f : LiteralForm) (value : Literal) : Phrase ν (.one .expression)
  | reference (x : ν) : Phrase ν (.one .expression)
  | apply (f a : Phrase ν (.one .expression)) : Phrase ν (.one .expression)
  | lambda (x : ν) (body : Phrase ν (.one .expression)) : Phrase ν (.one .expression)
  | letIn (g : Phrase ν .group) (body : Phrase ν (.one .expression)) : Phrase ν (.one .expression)
  | caseOf (e : Phrase ν (.one .expression)) (alternatives : Phrase ν (.many .alternative)) :
      Phrase ν (.one .expression)
  | doBlock (statements : Phrase ν (.many .statement)) (e : Phrase ν (.one .expression)) :
      Phrase ν (.one .expression)
  | locatedPattern (p : Phrase ν (.one .pattern)) (location : Datum) : Phrase ν (.one .pattern)
  | numberPattern (value : Literal) : Phrase ν (.one .pattern)
  | wildCardPattern : Phrase ν (.one .pattern)
  | identifierPattern (x : ν) : Phrase ν (.one .pattern)
  | constructorPattern (x : ν) (patterns : Phrase ν (.many .pattern)) : Phrase ν (.one .pattern)
  | alternative (p : Phrase ν (.one .pattern)) (e : Phrase ν (.one .expression)) :
      Phrase ν (.one .alternative)
  | doExpr (e : Phrase ν (.one .expression)) : Phrase ν (.one .statement)
  | doLet (g : Phrase ν .group) : Phrase ν (.one .statement)
  | doBind (p : Phrase ν (.one .pattern)) (e : Phrase ν (.one .expression)) :
      Phrase ν (.one .statement)
  | constructor (x : ν) (type tag arity : Datum) : Phrase ν (.one .constructor)
  | definition (constructors : Phrase ν (.many .constructor)) (type parameters : Datum) :
      Phrase ν (.one .definition)
  | instanceOf (bindings : Phrase ν .declarations) (constraints type classname : Datum) :
      Phrase ν (.one .instanceOf)
  | nil (c : Category) : Phrase ν (.many c)
  | cons {c : Category} (t : Phrase ν (.one c)) (ts : Phrase ν (.many c)) : Phrase ν (.many c)
  | noBinding : Phrase ν .group
  | binding (x : ν) (right : Phrase ν (.one .expression)) (type arity : Datum)
      (rest : Phrase ν .group) : Phrase ν .group
  | noDeclaration : Phrase ν .declarations
  | declaration (x : ν) (right : Phrase ν (.one .expression)) (type arity : Datum)
      (rest : Phrase ν .declarations) : Phrase ν .declarations

class Identifier (ν : Type) where
  datum : ν → Datum
  freeze_datum : ∀ x, (datum x).freeze = datum x

instance : Identifier Symbol := ⟨fun x => x.datum, Symbol.datum_freeze⟩

structure Name where
  symbol : Symbol
  uid : Nat

namespace Name

def datum (n : Name) : Datum :=
  .name n.symbol.datum (.int n.uid)

@[simp]
theorem freeze_datum (n : Name) : n.datum.freeze = n.datum := rfl

instance : Identifier Name := ⟨datum, freeze_datum⟩

end Name

namespace Identifier

attribute [simp] freeze_datum

theorem datum_name (n : Name) : datum n = n.datum := rfl

end Identifier

@[simp]
theorem Datum.freeze_tuple (xs : List Datum) : (tuple xs).freeze = tuple xs := rfl

@[simp]
theorem Datum.freeze_globalName (x : Datum) : (globalName x).freeze = globalName x := rfl

abbrev Shape.Tree : Shape → Type
  | .one _ => Datum
  | .many _ => List Datum
  | .group => List Datum
  | .declarations => List Datum

namespace Phrase

variable {ν : Type} [Identifier ν]

def node (f : Form) (fields : List Datum) : Datum :=
  .node (.builtin f) fields

def datum : {s : Shape} → Phrase ν s → s.Tree
  | _, .typed e type location => node .typedExpr [e.datum, type.freeze, location.freeze]
  | _, .located e location => node .located [e.datum, location.freeze]
  | _, .literal f value => node f.form [value.datum]
  | _, .reference x => node .identifier [Identifier.datum x]
  | _, .apply f a => node .apply [f.datum, a.datum]
  | _, .lambda x body => node .lambda [Identifier.datum x, body.datum]
  | _, .letIn g body => node .letIn [.tuple g.datum, body.datum]
  | _, .caseOf e alternatives => node .caseOf [e.datum, .tuple alternatives.datum]
  | _, .doBlock statements e => node .doBlock [.tuple statements.datum, e.datum]
  | _, .locatedPattern p location => node .located [p.datum, location.freeze]
  | _, .numberPattern value => node .numberPattern [value.datum]
  | _, .wildCardPattern => node .wildCardPattern []
  | _, .identifierPattern x => node .identifierPattern [Identifier.datum x]
  | _, .constructorPattern x patterns =>
      node .constructorPattern [Identifier.datum x, .tuple patterns.datum]
  | _, .alternative p e => node .alternative [p.datum, e.datum]
  | _, .doExpr e => node .doExpr [e.datum]
  | _, .doLet g => node .doLet [.tuple g.datum]
  | _, .doBind p e => node .doBind [p.datum, e.datum]
  | _, .constructor x type tag arity =>
      node .constructor [Identifier.datum x, type.freeze, tag.freeze, arity.freeze]
  | _, .definition constructors type parameters =>
      node .dataDefinition [.tuple constructors.datum, type.freeze, parameters.freeze]
  | _, .instanceOf bindings constraints type classname =>
      node .instanceOf [.tuple bindings.datum, constraints.freeze, type.freeze, classname.freeze]
  | _, .nil _ => []
  | _, .cons t ts => t.datum :: ts.datum
  | _, .noBinding => []
  | _, .binding x right type arity rest =>
      node .binding [Identifier.datum x, right.datum, type.freeze, arity.freeze] :: rest.datum
  | _, .noDeclaration => []
  | _, .declaration x right type arity rest =>
      node .binding [Identifier.datum x, right.datum, type.freeze, arity.freeze] :: rest.datum

theorem isNode_datum {c : Category} (t : Phrase ν (.one c)) : t.datum.isNode = true := by
  cases t <;> rfl

@[simp]
theorem freeze_datum {c : Category} (t : Phrase ν (.one c)) : t.datum.freeze = t.datum := by
  cases t <;> simp only [datum, node, Datum.freeze]

theorem isNode_of_mem {c : Category} : (ts : Phrase ν (.many c)) → ∀ d ∈ ts.datum, d.isNode = true
  | .nil _, d, h => by cases h
  | .cons t ts, d, h => by
      rcases List.mem_cons.1 h with rfl | h
      · exact isNode_datum t
      · exact isNode_of_mem ts d h

end Phrase

structure Module (ν : Type) where
  name : ν
  classes : Datum
  definitions : Phrase ν (.many .definition)
  declared : Datum
  bindings : Phrase ν .declarations
  instances : Phrase ν (.many .instanceOf)

namespace Module

variable {ν : Type} [Identifier ν]

def datum (m : Module ν) : Datum :=
  Phrase.node .module [Identifier.datum m.name, m.classes.freeze, .tuple m.definitions.datum,
    m.declared.freeze, .tuple m.bindings.datum, .tuple m.instances.datum]

end Module

end ScopeResolution
