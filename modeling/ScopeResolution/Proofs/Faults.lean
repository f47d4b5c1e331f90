import ScopeResolution.Renaming

namespace ScopeResolution

def Fault.Ordinary (fault : Fault) : Prop :=
  fault.category = .wrongType ∨ fault.category = .missingAttribute

theorem Reserved.ordinary (what : Reserved) (v : Datum) : (Fault.reserved what v).Ordinary := by
  cases what with
  | kind => exact .inl rfl
  | dictionary => exact .inl rfl
  | references => exact .inr rfl

def FailsOrdinarily {α : Type} (x : Except Fault α) : Prop :=
  ∀ fault, x = .error fault → fault.Ordinary

/-- A fault that needs no limits, or comes of one that is set. -/
def Limits.Allows (l : Limits) (fault : Fault) : Prop :=
  fault.Ordinary ∨ (l.digits ≠ none ∧ fault.category = .wrongValue) ∨
    (l.calls ≠ none ∧ fault.category = .recursion)

section Ordinarily

variable {α β : Type}

theorem ordinarily_ok (a : α) : FailsOrdinarily (.ok a) :=
  fun _ h => nomatch h

theorem ordinarily_error {fault : Fault} (h : fault.Ordinary) :
    FailsOrdinarily (.error fault : Except Fault α) := by
  intro met same
  cases same
  exact h

theorem FailsOrdinarily.bind {x : Except Fault α} {f : α → Except Fault β}
    (first : FailsOrdinarily x) (next : ∀ a, FailsOrdinarily (f a)) :
    FailsOrdinarily (x >>= f) := by
  cases x with
  | error fault => exact ordinarily_error (first fault rfl)
  | ok a => exact next a

theorem FailsOrdinarily.map {x : Except Fault α} (h : FailsOrdinarily x) (f : α → β) :
    FailsOrdinarily (x.map f) := by
  cases x with
  | error fault => exact ordinarily_error (h fault rfl)
  | ok a => exact ordinarily_ok (f a)

theorem ordinarily_mapM {f : α → Except Fault β} {xs : List α}
    (h : ∀ x ∈ xs, FailsOrdinarily (f x)) : FailsOrdinarily (xs.mapM f) := by
  induction xs with
  | nil => exact ordinarily_ok []
  | cons x xs ih =>
      rw [List.mapM_cons]
      have rest := ih fun y hy => h y (List.mem_cons_of_mem x hy)
      exact (h x List.mem_cons_self).bind fun y => rest.bind fun ys => ordinarily_ok (y :: ys)

end Ordinarily

namespace Datum

section Fields

variable {k : Kind} {fs : List Datum} {fault : Fault}

theorem ordinary_of_mem_namesAmong {items : List Datum}
    (h : (namesAmong k fs items).2 = some fault) : fault.Ordinary := by
  induction items with
  | nil => cases h
  | cons v rest ih =>
      cases v with
      | text f =>
          rw [namesAmong] at h
          split at h
          · exact ih h
          · cases h
            exact .inr rfl
      | _ =>
          cases h
          exact .inl rfl

theorem ordinary_of_fieldNames (h : (fieldNames k fs).2 = some fault) : fault.Ordinary := by
  unfold fieldNames at h
  split at h
  · cases h
  · split at h
    · exact ordinary_of_mem_namesAmong h
    · cases h
      exact .inl rfl

theorem ordinary_of_entriesFault {d : Datum} (h : d.entriesFault? = some fault) :
    fault.Ordinary := by
  unfold entriesFault? at h
  split at h
  · split at h
    · exact ordinary_of_fieldNames h
    · cases h
      exact .inl rfl
  · cases h
    exact .inr rfl

end Fields

mutual

theorem ordinarily_key : (d : Datum) → FailsOrdinarily d.key
  | .null => ordinarily_ok _
  | .bool _ => ordinarily_ok _
  | .int _ => ordinarily_ok _
  | .real _ => ordinarily_ok _
  | .text _ => ordinarily_ok _
  | .list _ => ordinarily_error (.inl rfl)
  | .tuple xs => by
      rw [key]
      exact (ordinarily_keys xs).map _
  | .name s u => by
      rw [key]
      exact (ordinarily_key s).bind fun _ => (ordinarily_key u).bind fun _ => ordinarily_ok _
  | .node k fs => by
      rw [key]
      split
      · exact (ordinarily_keys fs).map _
      · split
        case h_1 fault met => exact ordinarily_error (ordinary_of_fieldNames met)
        case h_2 =>
          refine (ordinarily_mapM fun p hp => ?_).bind fun _ => ordinarily_ok _
          rcases mem_of_mem_known hp with held | ⟨r, remarked⟩
          · exact ordinarily_eachKey fs p.2 held
          · rw [remarked]
            exact ordinarily_ok _

theorem ordinarily_keys : (ds : List Datum) → FailsOrdinarily (key.keys ds)
  | [] => ordinarily_ok _
  | d :: ds => by
      rw [key.keys]
      exact (ordinarily_key d).bind fun _ => (ordinarily_keys ds).bind fun _ => ordinarily_ok _

theorem ordinarily_eachKey : (ds : List Datum) → ∀ x ∈ key.eachKey ds, FailsOrdinarily x
  | [], x, h => by cases h
  | d :: ds, x, h => by
      rw [key.eachKey] at h
      rcases List.mem_cons.1 h with rfl | later
      · exact ordinarily_key d
      · exact ordinarily_eachKey ds x later

end

theorem ordinarily_keyed (d : Datum) : FailsOrdinarily d.keyed := by
  unfold keyed
  split
  case h_1 => exact ordinarily_ok _
  case h_2 fault met => exact ordinarily_error (ordinarily_key d fault met)

section Comparison

theorem ordinarily_itemOutcome {x : Except Fault Bool} (h : FailsOrdinarily x) (a b : Datum) :
    FailsOrdinarily (itemOutcome a b x) := by
  rw [itemOutcome]
  split
  · exact ordinarily_ok true
  · exact h

theorem ordinarily_agreement {parts : List (String × Except Fault Bool)} {end? : Option Fault}
    (h : ∀ p ∈ parts, FailsOrdinarily p.2) (last : ∀ fault, end? = some fault → fault.Ordinary) :
    FailsOrdinarily (agreement parts end?) := by
  induction parts with
  | nil =>
      cases end? with
      | none => exact ordinarily_ok true
      | some fault => exact ordinarily_error (last fault rfl)
  | cons p rest ih =>
      rw [agreement]
      refine (h p List.mem_cons_self).bind fun r => ?_
      cases r with
      | false => exact ordinarily_ok false
      | true => exact ih fun q hq => h q (List.mem_cons_of_mem p hq)

theorem ordinarily_fields {k : Kind} {fs : List Datum} {parts : List (Except Fault Bool)}
    (h : ∀ o ∈ parts, FailsOrdinarily o) :
    FailsOrdinarily (agreement (known k fs alike parts) (fieldNames k fs).2) := by
  refine ordinarily_agreement (fun p hp => ?_) fun _ => ordinary_of_fieldNames
  rcases mem_of_mem_known hp with held | ⟨_, remarked⟩
  · exact h p.2 held
  · rw [remarked]
    exact ordinarily_ok true

mutual

theorem ordinarily_compare : (a : Datum) → (side : Side) → (b : Datum) →
    FailsOrdinarily (compare a side b)
  | .null, side, b => by
      cases b <;> exact ordinarily_ok _
  | .bool _, _, _ => ordinarily_ok _
  | .int _, _, _ => ordinarily_ok _
  | .real _, _, _ => ordinarily_ok _
  | .text s, side, b => by
      cases b <;> exact ordinarily_ok _
  | .list xs, side, b => by
      cases b with
      | list ys =>
          rw [compare]
          split
          · exact ordinarily_compareItems xs side ys
          · exact ordinarily_ok false
      | _ => exact ordinarily_ok false
  | .tuple xs, side, b => by
      rw [compare]
      split
      · exact ordinarily_compareItems xs _ _
      · exact ordinarily_ok false
  | .name s u, side, b => by
      rw [compare]
      split
      case h_1 t rest _ =>
        refine (ordinarily_itemOutcome (ordinarily_compare s _ t) s t).bind fun same => ?_
        cases same with
        | false => exact ordinarily_ok false
        | true =>
            cases rest with
            | nil => exact ordinarily_ok false
            | cons v rest =>
                refine (ordinarily_itemOutcome (ordinarily_compare u _ v) u v).bind fun same => ?_
                cases same <;> exact ordinarily_ok _
      · exact ordinarily_ok false
  | .node k fs, side, b => by
      cases b with
      | node l gs =>
          unfold compare
          dsimp only
          split
          · cases side with
            | left => exact ordinarily_fields (ordinarily_compareFields fs .left gs)
            | right => exact ordinarily_fields (ordinarily_compareFields fs .right gs)
          · exact ordinarily_ok false
      | _ => exact ordinarily_ok false

theorem ordinarily_compareItems : (xs : List Datum) → (side : Side) → (ys : List Datum) →
    FailsOrdinarily (compare.compareItems xs side ys)
  | [], _, [] => ordinarily_ok _
  | [], _, _ :: _ => ordinarily_ok _
  | _ :: _, _, [] => ordinarily_ok _
  | x :: xs, side, y :: ys => by
      rw [compare.compareItems]
      refine (ordinarily_itemOutcome (ordinarily_compare x side y) x y).bind fun same => ?_
      cases same with
      | false => exact ordinarily_ok false
      | true => exact ordinarily_compareItems xs side ys

theorem ordinarily_compareFields : (xs : List Datum) → (side : Side) → (ys : List Datum) →
    ∀ o ∈ compare.compareFields xs side ys, FailsOrdinarily o
  | [], _, _, o, h => by cases h
  | _ :: _, _, [], o, h => by cases h
  | x :: xs, side, y :: ys, o, h => by
      rw [compare.compareFields] at h
      rcases List.mem_cons.1 h with rfl | later
      · exact ordinarily_compare x side y
      · exact ordinarily_compareFields xs side ys o later

end

end Comparison

section Update

variable {k : Kind} {fs : List Datum}

theorem ordinarily_refuseOwnName (naming : Naming) (names : List String) :
    FailsOrdinarily (refuseOwnName naming names) := by
  unfold refuseOwnName
  split
  · exact ordinarily_error (.inl rfl)
  · exact ordinarily_ok ()

theorem ordinarily_valueFor (given : List (String × Datum)) (placed : Option Datum) (f : String) :
    FailsOrdinarily (k.valueFor given placed f) := by
  unfold Kind.valueFor
  split
  · exact ordinarily_ok _
  · exact ordinarily_error (.inl rfl)
  · exact ordinarily_ok _
  · exact ordinarily_error (.inl rfl)

theorem ordinarily_complete (given : List (String × Datum)) (placed : Option Datum)
    (names : List String) : FailsOrdinarily (k.complete given placed names) := by
  induction names generalizing placed with
  | nil => exact ordinarily_ok []
  | cons f names ih =>
      rw [Kind.complete]
      refine (ordinarily_valueFor given placed f).bind fun v => ?_
      split
      case h_1 what _ => exact ordinarily_error (what.ordinary v)
      case h_2 => exact (ih _).bind fun vs => ordinarily_ok (v :: vs)

theorem ordinarily_buildNamed (values : List (String × Datum)) :
    FailsOrdinarily (k.buildNamed values) := by
  refine (ordinarily_refuseOwnName .building _).bind fun _ => ?_
  split
  · exact ordinarily_error (.inl rfl)
  · exact (ordinarily_complete values none k.fields).bind fun _ => ordinarily_ok _

theorem ordinarily_namedFields (d : Datum) : FailsOrdinarily d.namedFields := by
  unfold namedFields
  split
  case h_1 fault met => exact ordinarily_error (ordinary_of_entriesFault met)
  case h_2 => exact ordinarily_ok _

theorem ordinarily_updateNode (changes : List (String × Datum)) :
    FailsOrdinarily (updateNode changes k fs) := by
  refine (ordinarily_refuseOwnName .changing _).bind fun _ => ?_
  refine (ordinarily_namedFields _).bind fun kept => ?_
  split
  · exact ordinarily_buildNamed _
  · refine (ordinarily_refuseOwnName .building _).bind fun _ => ?_
    split
    · exact ordinarily_error (.inl rfl)
    · exact ordinarily_ok _

theorem ordinarily_update (changes : List (String × Datum)) (d : Datum) :
    FailsOrdinarily (update changes d) := by
  cases d with
  | node k fs =>
      rw [update]
      split
      · exact ordinarily_error (.inl rfl)
      · exact ordinarily_updateNode changes
  | text s => exact ordinarily_error (.inl rfl)
  | _ => exact ordinarily_error (.inr rfl)

end Update

theorem ordinarily_part (d : Datum) (a : String) : FailsOrdinarily (d.part a) := by
  unfold part
  split
  · exact ordinarily_ok _
  · exact ordinarily_error (.inr rfl)

namespace Part

variable {d : Datum} (x : Part d)

theorem ordinarily_items : FailsOrdinarily x.items := by
  unfold items
  split
  · exact ordinarily_ok _
  · exact ordinarily_error (.inl rfl)

theorem ordinarily_attr (a : String) : FailsOrdinarily (x.attr a) :=
  (ordinarily_part x.1 a).map _

end Part

end Datum

theorem Keyed.ordinarily_meets (stored sought : Keyed) : FailsOrdinarily (stored.meets sought) := by
  unfold meets
  split
  · split
    · exact ordinarily_ok true
    · exact Datum.ordinarily_compare _ _ _
  · exact ordinarily_ok false

theorem Slot.ordinarily_locate (k : Keyed) (slots : List Slot) :
    FailsOrdinarily (locate k slots) := by
  induction slots with
  | nil => exact ordinarily_ok none
  | cons s rest ih =>
      refine (s.under.ordinarily_meets k).bind fun here => ?_
      cases here with
      | true => exact ordinarily_ok _
      | false => exact ih.bind fun _ => ordinarily_ok _

namespace Dictionary

theorem ordinarily_get (d : Dictionary) (k : Keyed) : FailsOrdinarily (d.get? k) := by
  rw [get?, place?_eq]
  exact (Slot.ordinarily_locate k d.toList).map _

theorem ordinarily_siteOf (d : Dictionary) (v : Datum) : FailsOrdinarily (d.siteOf v) := by
  refine v.ordinarily_keyed.bind fun k => ?_
  rw [site, place?_eq]
  exact (Slot.ordinarily_locate k d.toList).map _

end Dictionary

namespace Limits

variable {l : Limits} {used : Nat} {fault : Fault}

theorem allows_of_depthFault (h : l.depthFault? used = some fault) : l.Allows fault := by
  unfold depthFault? at h
  split at h
  · rename_i set
    split at h
    · cases h
    · cases h
      exact .inr (.inr ⟨by simp [set], rfl⟩)
  · cases h

theorem allows_of_digitsFault {n : Int} (h : l.digitsFault? n = some fault) : l.Allows fault := by
  unfold digitsFault? at h
  split at h
  · rename_i set
    split at h
    · cases h
    · cases h
      exact .inr (.inl ⟨by simp [set], rfl⟩)
  · cases h

mutual

theorem allows_of_renderFault : (d : Datum) → {used : Nat} →
    l.renderFault? d used = some fault → l.Allows fault
  | .null, _, h | .bool _, _, h | .real _, _, h | .text _, _, h => allows_of_depthFault h
  | .int n, _, h => (Option.or_eq_some_iff.1 h).elim allows_of_depthFault
      fun long => allows_of_digitsFault long.2
  | .list xs, used, h | .tuple xs, used, h => by
      rw [renderFault?, Option.or_eq_some_iff] at h
      rcases h with deep | ⟨_, within⟩
      · exact allows_of_depthFault deep
      · obtain ⟨met, mem, rfl⟩ := List.exists_of_findSome?_eq_some within
        exact allows_of_faults xs mem
  | .name s u, used, h => by
      rw [renderFault?, Option.or_eq_some_iff, Option.or_eq_some_iff] at h
      rcases h with deep | ⟨_, symbol | ⟨_, uid⟩⟩
      · exact allows_of_depthFault deep
      · exact allows_of_renderFault s symbol
      · exact allows_of_renderFault u uid
  | .node k fs, used, h => by
      rw [renderFault?, Option.or_eq_some_iff, Option.or_eq_some_iff] at h
      rcases h with deep | ⟨_, within | ⟨_, after⟩⟩
      · exact allows_of_depthFault deep
      · obtain ⟨q, mem, met⟩ := List.exists_of_findSome?_eq_some within
        rcases Datum.mem_of_mem_entries mem with held | ⟨_, remarked⟩
        · exact allows_of_faults fs (met ▸ held)
        · cases met.symm.trans remarked
      · exact .inl (Datum.ordinary_of_entriesFault after)

theorem allows_of_faults : (ds : List Datum) → {used : Nat} →
    some fault ∈ renderFault?.faults l ds used → l.Allows fault
  | [], _, h => by cases h
  | d :: ds, used, h => by
      rw [renderFault?.faults] at h
      rcases List.mem_cons.1 h with first | later
      · exact allows_of_renderFault d first.symm
      · exact allows_of_faults ds later

end

theorem allows_of_displayFault (d : Datum) (h : l.displayFault? d used = some fault) :
    l.Allows fault := by
  induction d, used using displayFault?.induct with
  | case1 => cases h
  | case2 s u used ih =>
      rw [displayFault?, Option.or_eq_some_iff] at h
      exact h.elim allows_of_depthFault fun symbol => ih symbol.2
  | case3 d used =>
      have rendering : l.renderFault? d used = some fault := by simpa [displayFault?] using h
      exact allows_of_renderFault d rendering

theorem allows_of_displayed {d : Datum} (h : l.displayed d = .error fault) : l.Allows fault := by
  unfold displayed at h
  split at h
  · rename_i met
    cases h
    exact allows_of_displayFault d met
  · cases h

section Unbounded

mutual

theorem renderFault?_unbounded : (d : Datum) → (used : Nat) →
    unbounded.renderFault? d used = d.renderFault?
  | .null, _ | .bool _, _ | .int _, _ | .real _, _ | .text _, _ => rfl
  | .list xs, used => by
      show (renderFault?.faults unbounded xs (used + 1)).findSome? id = _
      rw [faults_unbounded]
      rfl
  | .tuple xs, used => by
      show (renderFault?.faults unbounded xs (used + 1)).findSome? id = _
      rw [faults_unbounded]
      rfl
  | .name s u, used => by
      show (unbounded.renderFault? s (used + 2)).or (unbounded.renderFault? u (used + 2)) = _
      rw [renderFault?_unbounded s, renderFault?_unbounded u]
      rfl
  | .node k fs, used => by
      show ((Datum.entries k fs (fun _ => none)
        (renderFault?.faults unbounded fs (used + 4))).findSome? (·.2)).or _ = _
      rw [faults_unbounded]
      rfl

theorem faults_unbounded : (ds : List Datum) → (used : Nat) →
    renderFault?.faults unbounded ds used = Datum.passageFault?.faults ds .inTurn
  | [], _ => rfl
  | d :: ds, used => by
      rw [renderFault?.faults, Datum.passageFault?.faults, renderFault?_unbounded d,
        faults_unbounded ds]
      rfl

end

theorem displayFault?_unbounded (d : Datum) (used : Nat) :
    unbounded.displayFault? d used = d.displayFault? := by
  induction d, used using displayFault?.induct with
  | case1 => rfl
  | case2 s u used ih => exact ih
  | case3 d used =>
      have same := renderFault?_unbounded d used
      cases d <;> first | exact same | simp_all

theorem displayed_unbounded (d : Datum) : unbounded.displayed d = d.displayed := by
  rw [displayed, Datum.displayed, displayFault?_unbounded]

end Unbounded

end Limits

namespace Scopes

theorem ordinarily_find (k : Keyed) (frames : List Dictionary) :
    FailsOrdinarily (find? k frames) := by
  induction frames with
  | nil => exact ordinarily_ok none
  | cons d rest ih =>
      refine (d.ordinarily_get k).bind fun found => ?_
      cases found with
      | some v => exact ordinarily_ok _
      | none => exact ih

theorem ordinarily_lookup (s : Scopes) (symbol : Datum) : FailsOrdinarily (s.lookup symbol) := by
  refine symbol.ordinarily_keyed.bind fun k => ?_
  exact (ordinarily_find k s.frames).bind fun _ => ordinarily_ok _

end Scopes

end ScopeResolution
