import ScopeResolution.Datum.Fields
import ScopeResolution.Datum.Sharing

namespace ScopeResolution

def lastValue? {α : Type} (f : String) : List (String × α) → Option α
  | [] => none
  | (g, v) :: rest => match lastValue? f rest with
      | some w => some w
      | none => if g = f then some v else none

/-- The name by which an operation knows the node it works on. -/
def ownName : String := "self"

def refuseOwnName (naming : Naming) (names : List String) : Except Fault Unit :=
  if ownName ∈ names then .error (.ownName naming) else .ok ()

theorem refuseOwnName_eq_ok {naming : Naming} {names : List String} (h : ownName ∉ names) :
    refuseOwnName naming names = .ok () :=
  if_neg h

theorem ownName_not_mem_fields (f : Form) : ownName ∉ f.fields := by
  cases f <;> decide

namespace Form

def defaults : Form → List (String × Datum)
  | .location => [("absolute", .int 0)]
  | .located => [("location", .null)]
  | .typedExpr => [("typ", .null), ("location", .null)]
  | .constructorPattern => [("patterns", .tuple [])]
  | .binding => [("type_decl", .null), ("arity", .int 0)]
  | .constructor => [("typ", .null), ("tag", .int 0), ("arity", .int 0)]
  | .dataDefinition => [("typ", .null), ("parameters", .tuple [])]
  | .instanceOf => [("constraints", .tuple []), ("typ", .null), ("classname", .null)]
  | .module =>
      [("classes", .tuple []), ("data_definitions", .tuple []), ("type_declarations", .tuple []),
       ("bindings", .tuple []), ("instances", .tuple [])]
  | _ => []

end Form

def Reserved.ofName? (f : String) : Option Reserved :=
  [kind, dictionary, references].find? (·.name = f)

namespace Kind

def defaults : Kind → List (String × Datum)
  | .builtin f => f.defaults
  | .derived _ _ _ _ ds _ => ds

def assign (k : Kind) (given : List (String × Datum)) :
    List (String × Datum) → Except Fault (List (String × Datum))
  | [] => .ok given
  | (f, v) :: rest =>
      if f ∉ k.fields then .error (.unknownField k f)
      else if (lastValue? f given).isSome then .error (.repeatedField k f)
      else assign k (given ++ [(f, v)]) rest

/-- The value a field takes: the given one, or else the default. A value that has taken the place of
the defaults has none to offer. -/
def valueFor (k : Kind) (given : List (String × Datum)) (placed : Option Datum) (f : String) :
    Except Fault Datum :=
  match lastValue? f given, placed, lastValue? f k.defaults with
  | some v, _, _ => .ok v.freeze
  | none, some h, _ => .error (.noEntries h)
  | none, none, some v => .ok v.freeze
  | none, none, none => .error (.missingField k f)

def complete (k : Kind) (given : List (String × Datum)) :
    Option Datum → List String → Except Fault (List Datum)
  | _, [] => .ok []
  | placed, f :: fs => do
      let v ← k.valueFor given placed f
      match Reserved.ofName? f with
      | some r => .error (.reserved r v)
      | none => do
          let vs ← complete k given (if f = Own.defaults.name then some v else placed) fs
          return v :: vs

def build (k : Kind) (args : List Datum) (named : List (String × Datum)) :
    Except Fault Datum := do
  refuseOwnName .building (named.map (·.1))
  if k.fields.length < args.length then
    .error (.tooManyArguments k args.length)
  else
    let given ← k.assign (k.fields.zip args) named
    return .node k (← k.complete given none k.fields)

def buildNamed (k : Kind) (values : List (String × Datum)) : Except Fault Datum := do
  refuseOwnName .building (values.map (·.1))
  match values.find? fun c => c.1 ∉ k.fields with
  | some c => .error (.unknownField k c.1)
  | none => return .node k (← k.complete values none k.fields)

end Kind

def settleNamed : List (String × Datum) → Nat → List (String × Datum)
  | [], _ => []
  | (f, v) :: rest, free => (f, v.settle free) :: settleNamed rest (free + v.size)

structure Vocabulary where
  derived : List Kind
  free : Nat

namespace Vocabulary

def builtin : Vocabulary := ⟨[], 0⟩

def find? (v : Vocabulary) (name : String) : Option Kind :=
  match v.derived.find? (·.name = name) with
  | some k => some k
  | none => (Form.named? name).map Kind.builtin

def define (v : Vocabulary) (name : String) (fields : Option (List String))
    (defaults : Option (List (String × Datum))) (base : Kind) : Except Fault Vocabulary :=
  if '\x00' ∈ name.toList then .error .nullInName
  else
    let own := defaults.map fun ds => settleNamed ds v.free
    .ok ⟨.derived v.derived.length none name (fields.getD base.fields) (own.getD base.defaults) base
      :: v.derived, v.free + Datum.size.sizes ((defaults.getD []).map (·.2))⟩

def defaultValues (v : Vocabulary) : List Datum :=
  v.derived.flatMap fun k => k.defaults.map (·.2)

end Vocabulary

namespace Datum

def updateNode (changes : List (String × Datum)) (k : Kind) (fs : List Datum) :
    Except Fault Datum := do
  refuseOwnName .changing (changes.map (·.1))
  let kept ← (Datum.node k fs).namedFields
  match hiding? .names k fs with
  | some _ => k.buildNamed (kept ++ changes)
  | none => do
      refuseOwnName .building k.fields
      match changes.find? fun c => c.1 ∉ k.fields with
      | some c => .error (.unknownField k c.1)
      | none => return .node k (List.zipWith (fun f v => ((lastValue? f changes).getD v).freeze)
          k.fields fs)

/-- Gives the fields of a node new values. A field that is called like this operation hides it. Of
the other values only a text can be asked for a replacement, and none described by named values. -/
def update (changes : List (String × Datum)) : Datum → Except Fault Datum
  | .node k fs =>
      match hiding? .change k fs with
      | some v => .error (.notCallable v)
      | none => updateNode changes k fs
  | .text _ => .error (.textReplacement (!changes.isEmpty))
  | d => .error (.noAttribute d Own.change.name)

theorem update_builtin (f : Form) (fs : List Datum) {changes : List (String × Datum)}
    (h : ownName ∉ changes.map (·.1)) :
    update changes (.node (.builtin f) fs) =
      match changes.find? fun c => c.1 ∉ f.fields with
      | some c => .error (.unknownField (.builtin f) c.1)
      | none => .ok (.node (.builtin f)
          (List.zipWith (fun g v => ((lastValue? g changes).getD v).freeze) f.fields fs)) := by
  simp only [update, hiding?, updateNode, namedFields, entriesFault?, fieldNames, Kind.fields,
    refuseOwnName_eq_ok h, refuseOwnName_eq_ok (ownName_not_mem_fields f)]
  rfl

def updateIf (changes : Except Fault (List (String × Datum))) (d : Datum) : Except Fault Datum :=
  match d with
  | .node _ _ | .text _ => do d.update (← changes)
  | _ => d.update []

end Datum

end ScopeResolution
