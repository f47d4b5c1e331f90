import ScopeResolution.Datum.Basic

namespace ScopeResolution

inductive Naming where
  | building
  | changing
  deriving DecidableEq, Repr

inductive Reserved where
  | kind
  | dictionary
  | references
  deriving DecidableEq, Repr

inductive Precedence where
  | before
  | after
  deriving DecidableEq, Repr

inductive Fault where
  | ownName (naming : Naming)
  | tooManyArguments (kind : Kind) (given : Nat)
  | unknownField (kind : Kind) (field : String)
  | repeatedField (kind : Kind) (field : String)
  | missingField (kind : Kind) (field : String)
  | reserved (what : Reserved) (value : Datum)
  | noEntries (value : Datum)
  | immutable (kind : Kind)
  | fixedPart (removing : Bool)
  | computedPart (removing : Bool)
  | notWritable (type : String) (name : String)
  | readOnly (value : Datum) (name : String)
  | kindRemoval
  | noAttribute (value : Datum) (name : String)
  | noName (value : Datum)
  | notCallable (value : Datum)
  | notIterable (value : Datum)
  | unhashable
  | unordered (question : Precedence) (left right : String)
  | unformattable (value : Datum)
  | textReplacement (named : Bool)
  | unsupportedNode (value : Datum)
  | notRenamable
  | abstractPass
  | unboundBinding (symbol : Datum)
  | unmatchedExit
  | missingKey (key : Datum)
  | nullInName
  | tooManyDigits (most : Nat) (given : Option Nat)
  | tooDeep
  | unencodable (encoding : String) (place : Nat) (found : List Char) (reason : String)
  | raised (text : String)
  | endless (value : Datum)

inductive Fault.Category where
  | wrongType
  | missingAttribute
  | unbound
  | scope
  | missingKey
  | wrongValue
  | recursion
  | encoding
  deriving DecidableEq, Repr

namespace Fault

def category : Fault → Category
  | .immutable _ | .fixedPart _ | .computedPart _ | .notWritable _ _ | .readOnly _ _
  | .noAttribute _ _ | .reserved .references _ => .missingAttribute
  | .unboundBinding _ => .unbound
  | .unmatchedExit => .scope
  | .missingKey _ => .missingKey
  | .nullInName | .tooManyDigits _ _ | .raised _ => .wrongValue
  | .tooDeep | .endless _ => .recursion
  | .unencodable _ _ _ _ => .encoding
  | _ => .wrongType

end Fault

end ScopeResolution
