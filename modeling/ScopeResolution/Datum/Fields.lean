import ScopeResolution.Fault

/-!
How a node goes through its fields. Besides its fields a node has attributes of its own: the list of
its field names, the defaults of its kind, and the operations that go through the fields and change
them. A field that is called like one of them takes its place: field names are then read off its
value, up to the first that names nothing, and an operation it hides cannot be carried out. No field
of a built-in kind does so (`Own.name_not_mem_fields`). Names that are read off a value may also
name what is remarked of the node's kind, which then counts as a field.

`entries` are what a node comes to when its fields are gone through, and `entriesFault?` is the
fault met after them.
-/

namespace ScopeResolution

/-- The attributes of its own that a field of a node can hide. -/
inductive Own where
  | names
  | defaults
  | entries
  | change
  deriving DecidableEq, Repr

def Own.name : Own → String
  | .names => "_fields"
  | .defaults => "_defaults"
  | .entries => "iter_fields"
  | .change => "replace"

theorem Own.name_not_mem_fields (o : Own) (f : Form) : o.name ∉ f.fields := by
  cases o <;> cases f <;> decide

def Reserved.name : Reserved → String
  | .kind => "__class__"
  | .dictionary => "__dict__"
  | .references => "__weakref__"

abbrev Remark := Option String

namespace Kind

def moduleName : Kind → String
  | .builtin _ => "alpha_rename.nodes"
  | .derived _ _ _ _ _ _ => "__main__"

def remark? (k : Kind) (a : String) : Option Remark :=
  if a = "__module__" then some (some k.moduleName)
  else if a = "__doc__" ∨ a = Reserved.references.name then some none
  else none

end Kind

namespace Datum

def ofRemark : Remark → Datum
  | none => .null
  | some s => .text s

def hiding? (o : Own) : Kind → List Datum → Option Datum
  | .builtin _, _ => none
  | k, fs => field? o.name k.fields fs

theorem hiding?_eq_field? (o : Own) (k : Kind) (fs : List Datum) :
    hiding? o k fs = field? o.name k.fields fs := by
  cases k with
  | builtin f => exact (field?_eq_none (o.name_not_mem_fields f)).symm
  | derived i p n gs ds base => rfl

def namesAmong (k : Kind) (fs : List Datum) : List Datum → List String × Option Fault
  | [] => ([], none)
  | .text f :: rest =>
      if f ∈ k.fields ∨ (k.remark? f).isSome then
        let (names, fault) := namesAmong k fs rest
        (f :: names, fault)
      else ([], some (.noAttribute (.node k fs) f))
  | v :: _ => ([], some (.noName v))

def fieldNames (k : Kind) (fs : List Datum) : List String × Option Fault :=
  match hiding? .names k fs with
  | none => (k.fields, none)
  | some v => match v.items? with
      | some items => namesAmong k fs items
      | none => ([], some (.notIterable v))

def named? {α : Type} (k : Kind) (remarked : Remark → α) (xs : List α) (f : String) : Option α :=
  (field? f k.fields xs).or ((k.remark? f).map remarked)

def known {α : Type} (k : Kind) (fs : List Datum) (remarked : Remark → α) (xs : List α) :
    List (String × α) :=
  match hiding? .names k fs with
  | none => k.fields.zip xs
  | some _ => (fieldNames k fs).1.filterMap fun f => (named? k remarked xs f).map (f, ·)

def entries {α : Type} (k : Kind) (fs : List Datum) (remarked : Remark → α) (xs : List α) :
    List (String × α) :=
  match hiding? .entries k fs with
  | none => known k fs remarked xs
  | some _ => []

def entriesFault? : Datum → Option Fault
  | .node k fs => match hiding? .entries k fs with
      | none => (fieldNames k fs).2
      | some v => some (.notCallable v)
  | d => some (.noAttribute d Own.entries.name)

theorem field?_map {α β : Type} (g : α → β) (a : String) (fs : List String) (xs : List α) :
    field? a fs (xs.map g) = (field? a fs xs).map g := by
  induction fs generalizing xs with
  | nil => rfl
  | cons f fs ih =>
      cases xs with
      | nil => rfl
      | cons x xs => by_cases h : f = a <;> simp [field?, h, ih]

theorem mem_of_mem_known {α : Type} {k : Kind} {fs : List Datum} {remarked : Remark → α}
    {xs : List α} {p : String × α} (h : p ∈ known k fs remarked xs) :
    p.2 ∈ xs ∨ ∃ r, p.2 = remarked r := by
  unfold known at h
  split at h
  · exact .inl (List.of_mem_zip h).2
  · obtain ⟨f, _, hf⟩ := List.mem_filterMap.1 h
    obtain ⟨x, hx, rfl⟩ := Option.map_eq_some_iff.1 hf
    cases found : field? f k.fields xs with
    | some y =>
        simp only [named?, found, Option.some_or, Option.some.injEq] at hx
        exact .inl (hx ▸ mem_of_field? found)
    | none =>
        simp only [named?, found, Option.none_or] at hx
        obtain ⟨r, _, hr⟩ := Option.map_eq_some_iff.1 hx
        exact .inr ⟨r, hr.symm⟩

theorem mem_of_mem_entries {α : Type} {k : Kind} {fs : List Datum} {remarked : Remark → α}
    {xs : List α} {p : String × α} (h : p ∈ entries k fs remarked xs) :
    p.2 ∈ xs ∨ ∃ r, p.2 = remarked r := by
  unfold entries at h
  split at h
  · exact mem_of_mem_known h
  · cases h

def fieldEntries : Datum → List (String × Datum)
  | .node k fs => entries k fs ofRemark fs
  | _ => []

theorem nodesIn_ofRemark (r : Remark) : nodesIn (ofRemark r) = [] := by
  cases r <;> rfl

def childNodes (d : Datum) : List Datum :=
  d.fieldEntries.flatMap fun p => nodesIn p.2

theorem size_of_mem_childNodes {d x : Datum} (h : x ∈ d.childNodes) : x.size < d.size := by
  obtain ⟨p, hp, hx⟩ := List.mem_flatMap.1 h
  cases d with
  | node k fs =>
      rcases mem_of_mem_entries hp with held | ⟨r, hr⟩
      · exact Nat.lt_of_le_of_lt (size_of_mem_nodesIn hx) (size_of_mem_fields held)
      · simp [hr, nodesIn_ofRemark] at hx
  | _ => cases hp

/-- The two ways through a value: each field of a node is reached when all that the field before it
holds has been gone through, or all fields of a node are reached before any of them is. -/
inductive Passage where
  | inTurn
  | ahead
  deriving DecidableEq, Repr

/-- The first fault met on the way through a value and all that it holds. Within a name the way is
always in turn. -/
def passageFault? : Datum → Passage → Option Fault
  | .list xs, p => (faults xs p).findSome? id
  | .tuple xs, p => (faults xs p).findSome? id
  | .name s u, _ => (passageFault? s .inTurn).or (passageFault? u .inTurn)
  | .node k fs, p =>
      let within := (entries k fs (fun _ => none) (faults fs p)).findSome? (·.2)
      match p with
      | .inTurn => within.or (entriesFault? (.node k fs))
      | .ahead => (entriesFault? (.node k fs)).or within
  | _, _ => none
where
  faults : List Datum → Passage → List (Option Fault)
    | [], _ => []
    | d :: ds, p => passageFault? d p :: faults ds p

def namedFields (d : Datum) : Except Fault (List (String × Datum)) :=
  match d.entriesFault? with
  | some fault => .error fault
  | none => .ok d.fieldEntries

end Datum

end ScopeResolution
