import ScopeResolution.Names.Listing
import ScopeResolution.Pipeline.Files
import ScopeResolution.Renaming

namespace ScopeResolution

structure Workspace where
  metadata : Dictionary
  files : Files
  terminal : Encoding
  printed : String
  log : Log

def Workspace.empty : Workspace := ⟨.empty, .empty, .utf8, "", []⟩

structure DebugOptions where
  ast : Bool
  names : Bool
  metadata : Bool
  file : Option String
  append : Option Bool

inductive Pass where
  | rename
  | debug (options : DebugOptions)
  | put (key value : Datum)
  | noop
  | fail (text : String)

namespace DebugOptions

def lined (ls : List String) : String :=
  String.join (ls.map (· ++ "\n"))

def titled (title : String) (lines : List String) : String :=
  "-- " ++ title ++ " --\n" ++ lined lines

def metadataLines (m : Dictionary) : Except Fault (List String) :=
  m.entries.mapM fun p => do return (← p.1.displayed) ++ " = " ++ (← p.2.rendered)

def text (o : DebugOptions) (tree : Datum) (m : Dictionary) : Except Fault String := do
  let ast ← if o.ast then tree.rendered.map fun t => titled "ast" [t] else .ok ""
  let names ← if o.names then (Names.listing tree).map (titled "names") else .ok ""
  let metadata ← if o.metadata then (metadataLines m).map (titled "metadata") else .ok ""
  return ast ++ names ++ metadata

def send (o : DebugOptions) (t : String) (w : Workspace) : Except Fault Unit × Workspace :=
  match o.file with
  | none => match w.terminal.fault? t with
      | some fault => (.error fault, w)
      | none => (.ok (), { w with printed := w.printed ++ t })
  | some name =>
      let (out, files) := w.files.deliver name (o.append = some true) t
      (out, { w with files })

def warning? (o : DebugOptions) : Option String :=
  if o.append.isSome && o.file.isNone then
    some "Option append has no effect when file is None"
  else none

end DebugOptions

namespace Workspace

def error (text : String) (w : Workspace) : Workspace :=
  { w with log := w.log.error text }

def note (key value : Datum) (w : Workspace) : Except Fault Unit × Workspace :=
  match w.metadata.insert key value with
  | .ok m => (.ok (), { w with metadata := m })
  | .error e => (.error e, w)

/-- Adds the entries of a dictionary to the notes, one by one; those before one that cannot be
added stay. -/
def noteAll (w : Workspace) : List Slot → Except Fault Unit × Workspace
  | [] => (.ok (), w)
  | s :: rest => match w.metadata.put s.under s.value with
      | .ok m => noteAll { w with metadata := m } rest
      | .error e => (.error e, w)

def rename (extent : Renaming.Extent) (tree : Datum) (w : Workspace) :
    Except Fault Datum × Workspace :=
  match { Resolver.initial with log := w.log }.rename extent tree with
  | (.ok tree, r) =>
      let renamed := { w with log := r.log }
      match w.metadata.put (.ofText "last_uid") (.int r.counter) with
      | .ok m => (.ok tree, { renamed with metadata := m })
      | .error e => (.error e, renamed)
  | (.error e, r) => (.error e, { w with log := r.log })

end Workspace

namespace Pass

def name : Pass → String
  | .rename => "rename"
  | .debug _ => "debug"
  | .put _ _ => "put"
  | .noop => "noop"
  | .fail _ => "fail"

def warning? : Pass → Option String
  | .debug o => o.warning?
  | _ => none

def extent? : Datum → Option Renaming.Extent
  | .node k _ => match k.root with
      | .module => some .module
      | .typedExpr => some .expression
      | _ => none
  | _ => none

def apply (p : Pass) (tree : Datum) (w : Workspace) : Except Fault Datum × Workspace :=
  match p with
  | .rename => match extent? tree with
      | some extent => w.rename extent tree
      | none => (.error .notRenamable, w)
  | .debug o => match o.text tree w.metadata with
      | .ok t => match o.send t w with
          | (.ok (), w) => (.ok tree, w)
          | (.error e, w) => (.error e, w)
      | .error e => (.error e, w)
  | .put key value => match w.note key value with
      | (.ok (), w) => (.ok tree, w)
      | (.error e, w) => (.error e, w)
  | .noop => (.ok tree, w)
  | .fail t => (.error (.raised t), w)

end Pass

end ScopeResolution
