import ScopeResolution.Construction

namespace ScopeResolution

namespace Datum

def integerPart? (a : String) (n : Int) : Option Datum :=
  if a = "real" ∨ a = "numerator" then some (.int n)
  else if a = "imag" then some (.int 0)
  else if a = "denominator" then some (.int 1)
  else none

def numberPart? (a : String) : Datum → Option Datum
  | .bool b => integerPart? a (if b then 1 else 0)
  | .int n => integerPart? a n
  | .real d =>
      if a = "real" then some (.real d)
      else if a = "imag" then some (.real ⟨"0.0"⟩)
      else none
  | _ => none

def common? (a : String) : Datum → Option Datum
  | .node k _ =>
      if a = Own.names.name then some (.tuple (k.fields.map .text))
      else (k.remark? a).map ofRemark
  | .name _ _ =>
      if a = "_fields" ∨ a = "__match_args__" then some (.tuple [.text "symbol", .text "uid"])
      else if a = "__module__" then some (.text "alpha_rename.name")
      else if a = "__slots__" then some (.tuple [])
      else none
  | d => numberPart? a d

def getAttribute (a : String) (d : Datum) : Except Fault Datum :=
  match (d.attribute? a).or (common? a d) with
  | some v => .ok v
  | none => .error (.noAttribute d a)

def generalOperations : List String :=
  ["__delattr__", "__dir__", "__doc__", "__eq__", "__format__", "__ge__", "__getattribute__",
   "__getstate__", "__gt__", "__hash__", "__init__", "__init_subclass__", "__le__", "__lt__",
   "__ne__", "__new__", "__reduce__", "__reduce_ex__", "__repr__", "__setattr__", "__sizeof__",
   "__str__", "__subclasshook__"]

def numberOperations : List String :=
  ["as_integer_ratio", "conjugate", "__abs__", "__add__", "__bool__", "__ceil__", "__divmod__",
   "__float__", "__floor__", "__floordiv__", "__getnewargs__", "__int__", "__mod__", "__mul__",
   "__neg__", "__pos__", "__pow__", "__radd__", "__rdivmod__", "__rfloordiv__", "__rmod__",
   "__rmul__", "__round__", "__rpow__", "__rsub__", "__rtruediv__", "__sub__", "__truediv__",
   "__trunc__"]

def integerOperations : List String :=
  ["bit_count", "bit_length", "from_bytes", "to_bytes", "__and__", "__index__", "__invert__",
   "__lshift__", "__or__", "__rand__", "__rlshift__", "__ror__", "__rrshift__", "__rshift__",
   "__rxor__", "__xor__"]

def sequenceOperations : List String :=
  ["count", "index", "__add__", "__contains__", "__getitem__", "__iter__", "__len__", "__mul__",
   "__rmul__"]

def textOperations : List String :=
  ["capitalize", "casefold", "center", "encode", "endswith", "expandtabs", "find", "format",
   "format_map", "isalnum", "isalpha", "isascii", "isdecimal", "isdigit", "isidentifier",
   "islower", "isnumeric", "isprintable", "isspace", "istitle", "isupper", "join", "ljust",
   "lower", "lstrip", "maketrans", "partition", "removeprefix", "removesuffix", "replace",
   "rfind", "rindex", "rjust", "rpartition", "rsplit", "rstrip", "split", "splitlines",
   "startswith", "strip", "swapcase", "title", "translate", "upper", "zfill", "__getnewargs__",
   "__mod__", "__rmod__"]

def listOperations : List String :=
  ["append", "clear", "copy", "extend", "insert", "pop", "remove", "reverse", "sort",
   "__class_getitem__", "__delitem__", "__iadd__", "__imul__", "__reversed__", "__setitem__"]

def operations : Datum → List String
  | .null => ["__bool__"]
  | .bool _ | .int _ => numberOperations ++ integerOperations
  | .real _ => numberOperations ++ ["fromhex", "hex", "is_integer", "__getformat__"]
  | .text _ => sequenceOperations ++ textOperations
  | .list _ => sequenceOperations ++ listOperations
  | .tuple _ => sequenceOperations ++ ["__class_getitem__", "__getnewargs__"]
  | .name _ _ =>
      sequenceOperations ++
        ["global_", "__annotations__", "__class_getitem__", "__getnewargs__", "__match_args__",
         "__module__", "__orig_bases__", "__slots__", "_asdict", "_field_defaults", "_fields",
         "_make", "_replace"]
  | .node _ _ => []

inductive Mutation where
  | setting (value : Datum)
  | removing

def numberType : Datum → String
  | .bool _ => "int"
  | d => d.typeName

def mutationFault (m : Mutation) (a : String) : Datum → Fault
  | .node k _ => .immutable k
  | d =>
      if a = Reserved.kind.name then
        match m with
        | .setting v => .reserved .kind v
        | .removing => .kindRemoval
      else if (numberPart? a d).isSome then .notWritable d.numberType a
      else if a ∈ generalOperations ++ d.operations then .readOnly d a
      else match d, m with
        | .name s u, m =>
            let removing := match m with
              | .setting _ => false
              | .removing => true
            if a = "symbol" ∨ a = "uid" then .fixedPart removing
            else if a = "is_global" then .computedPart removing
            else .noAttribute (.name s u) a
        | d, _ => .noAttribute d a

end Datum

end ScopeResolution
