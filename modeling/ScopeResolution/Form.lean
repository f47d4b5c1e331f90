namespace ScopeResolution

inductive Form where
  | node | location | located | typedExpr
  | expr | number | rational | string | char | identifier | apply
  | lambda | letIn | caseOf | doBlock | alternative
  | statement | doExpr | doLet | doBind
  | pattern | numberPattern | constructorPattern | identifierPattern | wildCardPattern
  | binding | constructor | dataDefinition | instanceOf | module
  deriving DecidableEq, Repr

namespace Form

def all : List Form :=
  [.node, .location, .located, .typedExpr, .expr, .number, .rational, .string, .char, .identifier,
   .apply, .lambda, .letIn, .caseOf, .doBlock, .alternative, .statement, .doExpr, .doLet, .doBind,
   .pattern, .numberPattern, .constructorPattern, .identifierPattern, .wildCardPattern, .binding,
   .constructor, .dataDefinition, .instanceOf, .module]

def name : Form → String
  | .node => "Node"
  | .location => "Location"
  | .located => "Located"
  | .typedExpr => "TypedExpr"
  | .expr => "Expr"
  | .number => "Number"
  | .rational => "Rational"
  | .string => "String"
  | .char => "Char"
  | .identifier => "Identifier"
  | .apply => "Apply"
  | .lambda => "Lambda"
  | .letIn => "Let"
  | .caseOf => "Case"
  | .doBlock => "Do"
  | .alternative => "Alternative"
  | .statement => "DoBinding"
  | .doExpr => "DoExpr"
  | .doLet => "DoLet"
  | .doBind => "DoBind"
  | .pattern => "Pattern"
  | .numberPattern => "NumberPattern"
  | .constructorPattern => "ConstructorPattern"
  | .identifierPattern => "IdentifierPattern"
  | .wildCardPattern => "WildCardPattern"
  | .binding => "Binding"
  | .constructor => "Constructor"
  | .dataDefinition => "DataDefinition"
  | .instanceOf => "Instance"
  | .module => "Module"

def named? (name : String) : Option Form :=
  all.find? (·.name = name)

theorem named?_name (f : Form) : named? f.name = some f := by
  cases f <;> rfl

theorem name_of_named? {name : String} {f : Form} (h : named? name = some f) : f.name = name := by
  unfold named? at h
  simpa using List.find?_some h

def fields : Form → List String
  | .node | .expr | .statement | .pattern | .wildCardPattern => []
  | .location => ["row", "column", "absolute"]
  | .located => ["node", "location"]
  | .typedExpr => ["expr", "typ", "location"]
  | .number | .rational | .string | .char | .numberPattern => ["value"]
  | .identifier | .identifierPattern => ["name"]
  | .apply => ["func", "arg"]
  | .lambda => ["arg", "body"]
  | .letIn => ["bindings", "body"]
  | .caseOf => ["expr", "alternatives"]
  | .doBlock => ["bindings", "expr"]
  | .alternative => ["pattern", "expression"]
  | .doExpr => ["expr"]
  | .doLet => ["bindings"]
  | .doBind => ["pattern", "expr"]
  | .constructorPattern => ["name", "patterns"]
  | .binding => ["name", "expression", "type_decl", "arity"]
  | .constructor => ["name", "typ", "tag", "arity"]
  | .dataDefinition => ["constructors", "typ", "parameters"]
  | .instanceOf => ["bindings", "constraints", "typ", "classname"]
  | .module =>
      ["name", "classes", "data_definitions", "type_declarations", "bindings", "instances"]

theorem fields_nodup (f : Form) : f.fields.Nodup := by
  cases f <;> decide

end Form

end ScopeResolution
