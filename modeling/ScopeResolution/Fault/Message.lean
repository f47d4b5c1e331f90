import ScopeResolution.Datum.Render

namespace ScopeResolution

namespace Text

/-- A character that the cut would go through gives way to the replacement character. -/
def cutChars : (limit : Nat) → List Char → List Char
  | _, [] => []
  | n, c :: cs =>
      if c.utf8Size ≤ n then c :: cutChars (n - c.utf8Size) cs
      else if n = 0 then [] else ['\uFFFD']

def cut (limit : Nat) (s : String) : String :=
  String.ofList (cutChars limit s.toList)

end Text

namespace Fault

def ownerType (v : Datum) : String :=
  Text.cut 50 v.typeName

def valueType (v : Datum) : String :=
  Text.cut 200 v.typeName

def operandType (type : String) : String :=
  Text.cut 100 type

def sign : Precedence → String
  | .before => "<"
  | .after => ">"

def digitsGiven : Option Nat → String
  | some n => ": value has " ++ toString n ++ " digits"
  | none => ""

def unwritable (place : Nat) : List Char → String
  | [c] => " '" ++ String.ofList (Text.escapeByCode c.toNat) ++ "' in position " ++ toString place
  | cs => "s in position " ++ toString place ++ "-" ++ toString (place + cs.length - 1)

def message : Fault → String
  | .ownName .building => "Node.__init__() got multiple values for argument 'self'"
  | .ownName .changing => "Node.replace() got multiple values for argument 'self'"
  | .tooManyArguments k given =>
      k.name ++ " takes at most " ++ toString k.fields.length ++ " positional arguments ("
        ++ toString given ++ " given)"
  | .unknownField k f => k.name ++ " has no field " ++ Text.quoted f
  | .repeatedField k f => k.name ++ " got multiple values for field " ++ Text.quoted f
  | .missingField k f => k.name ++ " missing field " ++ Text.quoted f
  | .reserved .kind v => "__class__ must be set to a class, not '" ++ v.typeName ++ "' object"
  | .reserved .dictionary v =>
      "__dict__ must be set to a dictionary, not a '" ++ valueType v ++ "'"
  | .reserved .references _ => "attribute '__weakref__' of 'Node' objects is not writable"
  | .noEntries (.text _) => "string indices must be integers, not 'str'"
  | .noEntries (.tuple _) | .noEntries (.name _ _) =>
      "tuple indices must be integers or slices, not str"
  | .noEntries v => "'" ++ valueType v ++ "' object is not subscriptable"
  | .immutable k => k.name ++ " is immutable"
  | .fixedPart removing => if removing then "can't delete attribute" else "can't set attribute"
  | .computedPart removing =>
      "property of 'Name' object has no " ++ if removing then "deleter" else "setter"
  | .notWritable type a => "attribute '" ++ a ++ "' of '" ++ type ++ "' objects is not writable"
  | .readOnly v a => "'" ++ ownerType v ++ "' object attribute '" ++ a ++ "' is read-only"
  | .kindRemoval => "can't delete __class__ attribute"
  | .noAttribute v a => "'" ++ ownerType v ++ "' object has no attribute '" ++ a ++ "'"
  | .noName v => "attribute name must be string, not '" ++ valueType v ++ "'"
  | .notCallable v => "'" ++ valueType v ++ "' object is not callable"
  | .notIterable v => "'" ++ valueType v ++ "' object is not iterable"
  | .unhashable => "unhashable type: 'list'"
  | .unordered question l r =>
      "'" ++ sign question ++ "' not supported between instances of '" ++ operandType l
        ++ "' and '" ++ operandType r ++ "'"
  | .unformattable v => "unsupported format string passed to " ++ valueType v ++ ".__format__"
  | .textReplacement named =>
      if named then "str.replace() takes no keyword arguments"
      else "replace expected at least 2 arguments, got 0"
  | .unsupportedNode v => "Unsupported node " ++ v.display
  | .notRenamable => "rename must be run on a Module or a TypedExpr"
  | .abstractPass => "Can't instantiate abstract class Pass with abstract method rewrite"
  | .unboundBinding s => "Undefined variable " ++ s.display
  | .unmatchedExit => "exit_scope called without a matching enter_scope"
  | .missingKey k => k.render
  | .nullInName => "type name must not contain null characters"
  | .tooManyDigits most given =>
      "Exceeds the limit (" ++ toString most
        ++ " digits) for integer string conversion" ++ digitsGiven given
        ++ "; use sys.set_int_max_str_digits() to increase the limit"
  | .tooDeep => "maximum recursion depth exceeded while getting the repr of an object"
  | .unencodable encoding place found reason =>
      "'" ++ encoding ++ "' codec can't encode character" ++ unwritable place found ++ ": " ++
        reason
  | .raised t => t
  | .endless v => "no end to the transformation of " ++ v.typeName

def messageFault? : Fault → Option Fault
  | .missingKey k => k.renderFault?
  | _ => none

end Fault

end ScopeResolution
