import ScopeResolution.Traversal.Parts

/-!
Transforming a tree by rules. A rule says what takes the place of the nodes of one kind; a node
without a rule is built anew from what its children come to.

A rule may change a node before its children are visited, and so may send the work into values of
its own, or into values that a kind gives by default. On the way from the root to any place a
transformation that ends meets no part of the tree, of a rule or of a default twice, so the number
of such changes on the way is bounded from the start (`Transformation.allowance`), and a
transformation that needs more has no end.
-/

namespace ScopeResolution

namespace Transformation

/-- What a rule makes of a node. The values a rule brings may not be at hand, which shows only when
the rule is used. -/
inductive Mode where
  | const (value : Except Fault Datum)
  | keep
  | update (changes : Except Fault (List (String × Datum)))
  | pre (changes : Except Fault (List (String × Datum)))
  | fail

structure Rule where
  kind : String
  mode : Mode

def modeFor? (kind : String) : List Rule → Option Mode
  | [] => none
  | r :: rest => match modeFor? kind rest with
      | some m => some m
      | none => if r.kind = kind then some r.mode else none

def Rule.values (r : Rule) : List Datum :=
  match r.mode with
  | .pre (.ok changes) => changes.map (·.2)
  | _ => []

/-- How many changes there can be on the way to one place of a transformation that ends. -/
def allowance (v : Vocabulary) (rules : List Rule) (tree : Datum) : Nat :=
  tree.size + Datum.size.sizes (rules.flatMap Rule.values) + Datum.size.sizes v.defaultValues

structure Place where
  changes : Nat
  value : Datum

def Place.measure (p : Place) : Nat × Nat :=
  (p.changes, p.value.size)

def Place.Before (p q : Place) : Prop :=
  (Prod.instWellFoundedRelation.rel : Nat × Nat → Nat × Nat → Prop) p.measure q.measure

theorem Place.before_wf : WellFounded Place.Before :=
  (invImage Place.measure Prod.instWellFoundedRelation).wf

theorem Place.before_of_size {n : Nat} {c d : Datum} (h : c.size < d.size) :
    Place.Before ⟨n, c⟩ ⟨n, d⟩ :=
  Prod.Lex.right _ h

theorem Place.before_of_changes {n : Nat} {c d : Datum} : Place.Before ⟨n, c⟩ ⟨n + 1, d⟩ :=
  Prod.Lex.left _ _ (Nat.lt_succ_self n)

open Datum Traversal

abbrev Script (p : Place) := Routine { c : Place // Place.Before c p } Unit Fault Datum

def rebuildAt (n : Nat) (d : Datum) : Script ⟨n, d⟩ Datum :=
  rebuild d fun x => .call ⟨⟨n, x.1⟩, Place.before_of_size x.2⟩

def rebuildChanged (changes : Except Fault (List (String × Datum))) (d : Datum) :
    (n : Nat) → Script ⟨n, d⟩ Datum
  | 0 => .fail (.endless d)
  | n + 1 => do
      let e ← .ofExcept (d.updateIf changes)
      rebuild e fun x => .call ⟨⟨n, x.1⟩, Place.before_of_changes⟩

def transform (rules : List Rule) (p : Place) : Script p Datum :=
  match modeFor? p.value.typeName rules with
  | none => rebuildAt p.changes p.value
  | some (.const value) => .ofExcept value
  | some .keep => return p.value
  | some (.update changes) => do
      let e ← rebuildAt p.changes p.value
      .ofExcept (e.updateIf changes)
  | some (.pre changes) => rebuildChanged changes p.value p.changes
  | some .fail => .fail (.raised ("at " ++ p.value.typeName))

def visitor (rules : List Rule) : Visitor Place Unit Fault Datum where
  before := Place.Before
  wf := Place.before_wf
  method := transform rules

end Transformation

open Transformation (Rule allowance)

def Datum.transformed (v : Vocabulary) (rules : List Rule) (tree : Datum) : Except Fault Datum :=
  ((Transformation.visitor rules).drive ⟨allowance v rules tree, tree⟩ ()).1

end ScopeResolution
