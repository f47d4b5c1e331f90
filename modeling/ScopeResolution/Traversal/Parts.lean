import ScopeResolution.Datum.Equality
import ScopeResolution.Construction
import ScopeResolution.Traversal.Visitor

namespace ScopeResolution.Datum

def child {k : Kind} {fs : List Datum} (x : Datum) (h : x ∈ fs) : Part (.node k fs) :=
  ⟨x, size_of_mem_fields h⟩

def firstChild {k : Kind} (x : Datum) (rest : List Datum) : Part (.node k (x :: rest)) :=
  child x List.mem_cons_self

def fieldParts (k : Kind) (fs : List Datum) : List (Part (.node k fs)) :=
  fs.attach.map fun x => child x.1 x.2

theorem size_wf : WellFounded fun c d : Datum => c.size < d.size :=
  (measure size).wf

def part (a : String) (d : Datum) : Except Fault (Part d) :=
  match h : d.attribute? a with
  | some v => .ok ⟨v, size_of_attribute? h⟩
  | none => .error (.noAttribute d a)

theorem part_of_field? {a : String} {k : Kind} {fs : List Datum} {v : Datum}
    (h : field? a k.fields fs = some v) :
    part a (.node k fs) = .ok (child v (mem_of_field? h)) := by
  unfold part
  split
  · rename_i w found
    cases h.symm.trans found
    rfl
  · rename_i missing
    cases h.symm.trans missing

theorem part_of_missing {a : String} {k : Kind} {fs : List Datum}
    (h : field? a k.fields fs = none) :
    part a (.node k fs) = .error (.noAttribute (.node k fs) a) := by
  unfold part
  split
  · rename_i w found
    cases h.symm.trans found
  · rfl

namespace Part

variable {d : Datum}

def items (x : Part d) : Except Fault (List (Part d)) :=
  match h : x.1.items? with
  | some xs =>
      .ok (xs.attach.map fun c => ⟨c.1, Nat.lt_of_le_of_lt (size_of_mem_items? h c.2) x.2⟩)
  | none => .error (.notIterable x.1)

def attr (a : String) (x : Part d) : Except Fault (Part d) :=
  (x.1.part a).map fun v => ⟨v.1, Nat.lt_trans v.2 x.2⟩

theorem size_of_mem_tupleItems? {e c : Datum} {xs : List Datum} (h : e.tupleItems? = some xs)
    (hc : c ∈ xs) : c.size ≤ e.size := by
  cases e with
  | tuple ys => exact size_of_mem_items? (d := .tuple ys) h hc
  | name s u => exact size_of_mem_items? (d := .name s u) h hc
  | _ => simp [tupleItems?] at h

def tupleItems? (x : Part d) : Option (List (Part d)) :=
  match h : x.1.tupleItems? with
  | some xs =>
      some (xs.attach.map fun c => ⟨c.1, Nat.lt_of_le_of_lt (size_of_mem_tupleItems? h c.2) x.2⟩)
  | none => none

end Part

def children (d : Datum) : List (Part d) :=
  d.childNodes.attach.map fun c => ⟨c.1, size_of_mem_childNodes c.2⟩

end ScopeResolution.Datum

namespace ScopeResolution.Traversal

open Datum

variable {κ σ ο : Type}

def finishEntries (d : Datum) : Routine κ σ Fault ο Unit :=
  match d.entriesFault? with
  | some fault => .fail fault
  | none => .done ()

def visitChildren (d : Datum) (visit : Part d → Routine κ σ Fault ο ο) :
    Routine κ σ Fault ο (List ο) := do
  let results ← d.children.mapM visit
  finishEntries d
  return results

section Rebuild

variable {d : Datum} (visit : Part d → Routine κ σ Fault ο Datum)

def rebuildItem (x : Part d) : Routine κ σ Fault ο Datum :=
  if x.1.isNode then visit x else .done x.1

/-- The change a field calls for. A node is replaced by what it comes to. A tuple is rebuilt from
its items, and so is a name, which thereby becomes a plain tuple. Anything else stays. -/
def fieldChange (f : String) (x : Part d) : Routine κ σ Fault ο (List (String × Datum)) :=
  if x.1.isNode then do
    let y ← visit x
    return [(f, y)]
  else match x.tupleItems? with
    | some xs => do
        let ys ← xs.mapM (rebuildItem visit)
        return [(f, .tuple ys)]
    | none => return []

end Rebuild

def rebuild (d : Datum) (visit : Part d → Routine κ σ Fault ο Datum) :
    Routine κ σ Fault ο Datum :=
  match d with
  | .node k fs => do
      let parts := entries k fs (fun _ => none) ((fieldParts k fs).map some)
      let changes ← parts.mapM fun p => match p.2 with
        | some x => fieldChange visit p.1 x
        | none => return []
      finishEntries (.node k fs)
      .ofExcept ((Datum.node k fs).update changes.flatten)
  | d => .fail (.noAttribute d Own.entries.name)

end ScopeResolution.Traversal
