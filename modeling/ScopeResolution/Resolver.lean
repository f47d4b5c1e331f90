import ScopeResolution.Datum.Render
import ScopeResolution.Scopes

namespace ScopeResolution

inductive Severity where
  | debug
  | error
  deriving DecidableEq, Repr

structure Record where
  severity : Severity
  text : String
  deriving DecidableEq, Repr

abbrev Log := List Record

namespace Log

def debug (text : String) (log : Log) : Log :=
  ⟨.debug, text⟩ :: log

def error (text : String) (log : Log) : Log :=
  ⟨.error, text⟩ :: log

def chronological (log : Log) : List Record :=
  log.reverse

end Log

/-- Where the numbers of new names come from: a counter, or one number given over and over. -/
structure Supply where
  counter : Nat
  pinned : Option Datum

def Supply.initial : Supply := ⟨1, none⟩

structure Resolver where
  scopes : Scopes
  supply : Supply
  log : Log
  limits : Limits

namespace Resolver

def initial : Resolver := ⟨.empty, .initial, [], .unbounded⟩

def limited (l : Limits) : Resolver :=
  { initial with limits := l }

def counter (r : Resolver) : Nat :=
  r.supply.counter

def debug (text : String) (r : Resolver) : Resolver :=
  { r with log := r.log.debug text }

def error (text : String) (r : Resolver) : Resolver :=
  { r with log := r.log.error text }

def enter (r : Resolver) : Resolver :=
  { r with scopes := r.scopes.enter }.debug s!"enter scope {r.scopes.depth + 1}"

def exit (r : Resolver) : Except Fault Unit × Resolver :=
  match r.scopes.exit? with
  | none => (.error .unmatchedExit, r)
  | some scopes => (.ok (), { r with scopes }.debug s!"exit scope {r.scopes.depth}")

def insert (symbol value : Datum) (r : Resolver) : Except Fault Unit × Resolver :=
  match r.scopes.siteOf symbol with
  | .error e => (.error e, r)
  | .ok site => (.ok (), { r with scopes := r.scopes.settle site value })

def lookup (symbol : Datum) (r : Resolver) : Except Fault Datum :=
  r.scopes.lookup symbol

/-- A new name for a symbol. The number is taken before the name is bound, so a symbol that cannot
be bound uses one up, and one that has no text to be shown in the log is bound all the same. A
pinned supply takes no number and binds nothing. -/
def freshName (symbol : Datum) (r : Resolver) : Except Fault Datum × Resolver :=
  match r.supply.pinned with
  | some uid => (.ok (.name symbol uid), r)
  | none =>
      let uid := r.counter + 1
      let depth := r.scopes.depth
      let name := Datum.name symbol (.int uid)
      let taken := { r with supply := { r.supply with counter := uid } }
      match taken.scopes.siteOf symbol with
      | .error e => (.error e, taken)
      | .ok site =>
          let bound := { taken with scopes := taken.scopes.settle site name }
          match r.limits.displayed symbol with
          | .error e => (.error e, bound)
          | .ok text =>
              (.ok name, bound.debug ("bound " ++ text ++ s!" to uid {uid} at depth {depth}"))

def nameOf (symbol : Datum) (r : Resolver) : Except Fault Datum := do
  match ← r.lookup symbol with
  | .null => return .globalName symbol
  | found => return found

theorem counter_le_freshName (symbol : Datum) (r : Resolver) :
    r.counter ≤ (r.freshName symbol).2.counter := by
  unfold freshName
  split
  · exact Nat.le_refl _
  · simp only
    split
    · exact Nat.le_succ _
    · split <;> exact Nat.le_succ _

end Resolver

end ScopeResolution
