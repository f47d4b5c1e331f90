import ScopeResolution.Fault.Message
import ScopeResolution.Renaming

/-!
Runs of steps on one resolver. Every step is reported with its outcome and with what the resolver
looks like after it. A step that fails does not end the run, but a step that cannot be reported
does, with the fault met in telling its own or in counting the symbols. A block of steps between an
entry and an exit of a scope leaves it again however the block ends, and when that exit fails its
failure takes the place of the block's.
-/

namespace ScopeResolution

namespace Session

inductive Step where
  | enter
  | exit
  | within (steps : List Step) (raises : Option Fault)
  | insert (symbol value : Datum)
  | lookup (symbol : Datum)
  | require (symbol : Datum)
  | get (symbol default : Datum)
  | contains (symbol : Datum)
  | fresh (symbol : Datum)
  | items
  | frames
  | equals (other : Dictionary)
  | render
  | rename (tree : Datum)
  | nameOf (symbol : Datum)
  | pin (uid : Datum)
  | malformed (fault : Fault)
  deriving Inhabited

mutual

inductive Reply where
  | value (d : Datum)
  | entries (pairs : List (Datum × Datum))
  | frames (frames : List (List (Datum × Datum)))
  | block (reports : List Report)

inductive Report where
  | mk (outcome : Except Fault Reply) (depth count counter : Nat)

end

/-- Why the fault of a step cannot be told. -/
def untold? : Except Fault Reply → Option Fault
  | .error fault => fault.messageFault?
  | .ok _ => none

def report (p : Except Fault Reply × Resolver) : Except Fault Report × Resolver :=
  match untold? p.1 with
  | some fault => (.error fault, p.2)
  | none => (p.2.scopes.size.map fun count => .mk p.1 p.2.scopes.depth count p.2.counter, p.2)

def replied (f : α → Datum) (p : Except Fault α × Resolver) : Except Fault Reply × Resolver :=
  (p.1.map fun a => .value (f a), p.2)

def leave (r : Resolver) (ended : Except Fault Reply) : Except Fault Reply × Resolver :=
  match r.exit with
  | (.ok (), r) => (ended, r)
  | (.error e, r) => (.error e, r)

def ended : Except Fault (List Report) → Option Fault → Except Fault Reply
  | .error fault, _ => .error fault
  | .ok reports, none => .ok (.block reports)
  | .ok _, some fault => .error fault

def run (extent : Renaming.Extent) : Step → Resolver → Except Fault Report × Resolver
  | .enter, r => report (.ok (.value .null), r.enter)
  | .exit, r => report (replied (fun _ => .null) r.exit)
  | .within steps raises, r =>
      let (reports, r) := runAll extent steps r.enter
      report (leave r (ended reports raises))
  | .insert symbol value, r => report (replied (fun _ => .null) (r.insert symbol value))
  | .lookup symbol, r => report (replied id (r.lookup symbol, r))
  | .require symbol, r => report (replied id (r.scopes.getOrFail symbol, r))
  | .get symbol default, r => report (replied id (r.scopes.getOr symbol default, r))
  | .contains symbol, r => report (replied .bool (r.scopes.contains symbol, r))
  | .fresh symbol, r => report (replied id (r.freshName symbol))
  | .items, r => report (r.scopes.visible.map fun d => .entries d.entries, r)
  | .frames, r => report (.ok (.frames (r.scopes.frames.map Dictionary.entries)), r)
  | .equals other, r => report (replied .bool (r.scopes.equals other, r))
  | .render, r => report (replied .text (r.scopes.rendered, r))
  | .rename tree, r => report (replied id (r.rename extent tree))
  | .nameOf symbol, r => report (replied id (r.nameOf symbol, r))
  | .pin uid, r =>
      report (.ok (.value .null), { r with supply := { r.supply with pinned := some uid } })
  | .malformed fault, r => report (.error fault, r)
where
  runAll (extent : Renaming.Extent) :
      List Step → Resolver → Except Fault (List Report) × Resolver
    | [], r => (.ok [], r)
    | s :: ss, r =>
        match run extent s r with
        | (.error fault, r) => (.error fault, r)
        | (.ok p, r) =>
            let (ps, r) := runAll extent ss r
            (ps.map (p :: ·), r)

end Session

end ScopeResolution
