import ScopeResolution.Fault

namespace ScopeResolution

/-- The characters that can be written, and what is said of others. -/
structure Encoding where
  name : String
  holds : Char → Bool
  reason : String

namespace Encoding

def utf8 : Encoding := ⟨"utf-8", fun _ => true, "surrogates not allowed"⟩

def ascii : Encoding := ⟨"ascii", fun c => c.toNat < 128, "ordinal not in range(128)"⟩

def fault? (e : Encoding) (text : String) : Option Fault :=
  match text.toList.dropWhile e.holds with
  | [] => none
  | c :: cs =>
      let place := (text.toList.takeWhile e.holds).length
      some (.unencodable e.name place (c :: cs.takeWhile fun d => !e.holds d) e.reason)

end Encoding

structure Files where
  entries : List (String × String)
  encoding : Encoding

namespace Files

def empty : Files := ⟨[], .utf8⟩

def read? (name : String) : List (String × String) → Option String
  | [] => none
  | (n, t) :: rest => if n = name then some t else read? name rest

def store (name text : String) : List (String × String) → List (String × String)
  | [] => [(name, text)]
  | (n, t) :: rest => if n = name then (n, text) :: rest else (n, t) :: store name text rest

def text (name : String) (fs : Files) : String :=
  (read? name fs.entries).getD ""

def write (name text : String) (fs : Files) : Files :=
  { fs with entries := store name text fs.entries }

def ofList (texts : List (String × String)) : Files :=
  texts.foldl (fun fs f => fs.write f.1 f.2) empty

def opened (name : String) (append : Bool) (fs : Files) : Files :=
  fs.write name (if append then fs.text name else "")

def deliver (name : String) (append : Bool) (text : String) (fs : Files) :
    Except Fault Unit × Files :=
  let file := fs.opened name append
  match fs.encoding.fault? text with
  | some fault => (.error fault, file)
  | none => (.ok (), file.write name (file.text name ++ text))

def sorted (fs : Files) : List (String × String) :=
  fs.entries.mergeSort fun a b => !(decide (b.1 < a.1))

end Files

end ScopeResolution
