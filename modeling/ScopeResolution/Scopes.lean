import ScopeResolution.Dictionary.Basic

namespace ScopeResolution

/-- The innermost scope, those around it from the inside outwards, and how many those are. -/
structure Scopes where
  inner : Dictionary
  outer : List Dictionary
  depth : Nat
  depth_eq : depth = outer.length

namespace Scopes

def empty : Scopes := ⟨.empty, [], 0, rfl⟩

def frames (s : Scopes) : List Dictionary :=
  s.inner :: s.outer

def enter (s : Scopes) : Scopes :=
  ⟨.empty, s.frames, s.depth + 1, by simp [s.depth_eq, frames]⟩

def exit? (s : Scopes) : Option Scopes :=
  match h : s.outer with
  | [] => none
  | d :: rest => some ⟨d, rest, s.depth - 1, by simp [s.depth_eq, h]⟩

theorem exit?_eq_none_iff (s : Scopes) : s.exit? = none ↔ s.depth = 0 := by
  rcases s with ⟨_, outer, _, rfl⟩
  cases outer <;> simp [exit?]

def siteOf (s : Scopes) (symbol : Datum) : Except Fault Site :=
  s.inner.siteOf symbol

def settle (s : Scopes) (site : Site) (value : Datum) : Scopes :=
  { s with inner := s.inner.settle site value }

@[simp]
theorem depth_settle (s : Scopes) (site : Site) (value : Datum) :
    (s.settle site value).depth = s.depth := rfl

def find? (k : Keyed) : List Dictionary → Except Fault (Option Datum)
  | [] => .ok none
  | d :: rest => do
      match ← d.get? k with
      | some v => return some v
      | none => find? k rest

def get? (s : Scopes) (k : Keyed) : Except Fault (Option Datum) :=
  find? k s.frames

def getOr (s : Scopes) (symbol default : Datum) : Except Fault Datum := do
  return (← s.get? (← symbol.keyed)).getD default

def lookup (s : Scopes) (symbol : Datum) : Except Fault Datum :=
  s.getOr symbol .null

def getOrFail (s : Scopes) (symbol : Datum) : Except Fault Datum := do
  match ← s.get? (← symbol.keyed) with
  | some v => return v
  | none => .error (.missingKey symbol)

def contains (s : Scopes) (symbol : Datum) : Except Fault Bool := do
  return (← s.get? (← symbol.keyed)).isSome

def united (all : Dictionary) : List Dictionary → Except Fault Dictionary
  | [] => .ok all
  | d :: rest => do united (← all.merge d) rest

/-- Every visible symbol once: those of the outermost scope in order of insertion, then those that
each inner scope adds. A symbol stands as it was first written. -/
def symbols (s : Scopes) : Except Fault (List Keyed) := do
  return (← united .empty s.frames.reverse).keys

def show? (s : Scopes) (all : Dictionary) (k : Keyed) : Except Fault Dictionary := do
  match ← s.get? k with
  | some v => all.put k v
  | none => return all

def visible (s : Scopes) : Except Fault Dictionary := do
  (← s.symbols).foldlM s.show? .empty

def size (s : Scopes) : Except Fault Nat := do
  return (← united s.inner s.outer).size

def equals (s : Scopes) (d : Dictionary) : Except Fault Bool := do
  (← s.visible).equals d

def render (s : Scopes) : String :=
  "SymbolTable([" ++ Datum.joined (s.frames.map Dictionary.render) ++ "])"

def rendered (s : Scopes) : Except Fault String :=
  match s.frames.findSome? Dictionary.renderFault? with
  | some fault => .error fault
  | none => .ok s.render

end Scopes

end ScopeResolution
