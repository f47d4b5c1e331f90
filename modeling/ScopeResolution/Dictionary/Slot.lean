import ScopeResolution.Datum.Key

namespace ScopeResolution

structure Slot where
  under : Keyed
  value : Datum

namespace Slot

def placesOf (code : Nat) : List Slot → (n : Nat) → List Nat
  | [], _ => []
  | s :: rest, n =>
      if s.under.key.code = code then n :: placesOf code rest (n + 1)
      else placesOf code rest (n + 1)

theorem placesOf_append (code : Nat) (slots : List Slot) (s : Slot) (n : Nat) :
    placesOf code (slots ++ [s]) n =
      placesOf code slots n ++ if s.under.key.code = code then [n + slots.length] else [] := by
  induction slots generalizing n with
  | nil => simp [placesOf]
  | cons t rest ih =>
      have shifted : n + 1 + rest.length = n + (rest.length + 1) := by omega
      simp only [List.cons_append, placesOf, ih, List.length_cons, shifted]
      split <;> rfl

theorem placesOf_modify (code : Nat) (slots : List Slot) (i n : Nat) (v : Datum) :
    placesOf code (slots.modify i fun s => { s with value := v }) n = placesOf code slots n := by
  induction slots generalizing i n with
  | nil => simp
  | cons t rest ih =>
      cases i with
      | zero => simp [placesOf]
      | succ i => simp [placesOf, ih]

def locate (k : Keyed) : List Slot → Except Fault (Option Nat)
  | [] => .ok none
  | s :: rest => do
      if ← s.under.meets k then return some 0 else return (← locate k rest).map (· + 1)

def retrieve (k : Keyed) : List Slot → Except Fault (Option Datum)
  | [] => .ok none
  | s :: rest => do if ← s.under.meets k then return some s.value else retrieve k rest

def store (k : Keyed) (v : Datum) : List Slot → Except Fault (List Slot)
  | [] => .ok [⟨k, v⟩]
  | s :: rest => do
      if ← s.under.meets k then return { s with value := v } :: rest
      else return s :: (← store k v rest)

theorem retrieve_eq_locate (k : Keyed) (slots : List Slot) :
    retrieve k slots = (locate k slots).map fun place =>
      place.bind fun i => slots[i]?.map (·.value) := by
  induction slots with
  | nil => rfl
  | cons s rest ih =>
      cases here : s.under.meets k with
      | error e => simp [retrieve, locate, here, bind, Except.bind, Except.map]
      | ok found =>
          cases found with
          | true => simp [retrieve, locate, here, bind, Except.bind, Except.map, pure, Except.pure]
          | false =>
              simp only [retrieve, locate, here, ih, bind, Except.bind]
              cases locate k rest with
              | error e => rfl
              | ok place => cases place <;> rfl

theorem store_eq_locate (k : Keyed) (v : Datum) (slots : List Slot) :
    store k v slots = (locate k slots).map fun place => match place with
      | some i => slots.modify i fun s => { s with value := v }
      | none => slots ++ [⟨k, v⟩] := by
  induction slots with
  | nil => rfl
  | cons s rest ih =>
      cases here : s.under.meets k with
      | error e => simp [store, locate, here, bind, Except.bind, Except.map]
      | ok found =>
          cases found with
          | true => simp [store, locate, here, bind, Except.bind, Except.map, pure, Except.pure]
          | false =>
              simp only [store, locate, here, ih, bind, Except.bind]
              cases locate k rest with
              | error e => rfl
              | ok place => cases place <;> simp [Except.map, pure, Except.pure]

theorem store_cons {k : Keyed} {v : Datum} {s : Slot} {rest after : List Slot}
    (h : store k v (s :: rest) = .ok after) :
    (s.under.meets k = .ok true ∧ after = { s with value := v } :: rest) ∨
      (s.under.meets k = .ok false ∧ ∃ kept, store k v rest = .ok kept ∧ after = s :: kept) := by
  cases here : s.under.meets k with
  | error e => simp [store, here, bind, Except.bind] at h
  | ok found =>
      cases found with
      | true =>
          simp only [store, here, bind, Except.bind, pure, Except.pure] at h
          cases h
          exact .inl ⟨rfl, rfl⟩
      | false =>
          cases tail : store k v rest with
          | error e => simp [store, here, tail, bind, Except.bind] at h
          | ok kept =>
              simp only [store, here, tail, bind, Except.bind, pure, Except.pure] at h
              cases h
              exact .inr ⟨rfl, kept, rfl, rfl⟩

theorem retrieve_of_store_self {k : Keyed} {v : Datum} {before after : List Slot}
    (h : store k v before = .ok after) : retrieve k after = .ok (some v) := by
  induction before generalizing after with
  | nil =>
      cases h
      simp [retrieve, k.meets_self, bind, Except.bind, pure, Except.pure]
  | cons s rest ih =>
      rcases store_cons h with ⟨here, rfl⟩ | ⟨here, kept, tail, rfl⟩
      · simp [retrieve, here, bind, Except.bind, pure, Except.pure]
      · simp [retrieve, here, ih tail, bind, Except.bind]

theorem retrieve_of_store_apart {k l : Keyed} {v : Datum} {before after : List Slot}
    (h : store k v before = .ok after)
    (old : ∀ s ∈ before, s.under.meets k = .ok true → s.under.meets l = .ok false)
    (new : k.meets l = .ok false) : retrieve l after = retrieve l before := by
  induction before generalizing after with
  | nil =>
      cases h
      simp [retrieve, new, bind, Except.bind]
  | cons s rest ih =>
      rcases store_cons h with ⟨here, rfl⟩ | ⟨_, kept, tail, rfl⟩
      · simp [retrieve, old s List.mem_cons_self here, bind, Except.bind]
      · simp [retrieve, ih tail fun t ht => old t (List.mem_cons_of_mem _ ht)]

def firstAmong (k : Keyed) (slots : Array Slot) : List Nat → Except Fault (Option Nat)
  | [] => .ok none
  | i :: rest => match slots[i]? with
      | some s => do if ← s.under.meets k then return some i else firstAmong k slots rest
      | none => firstAmong k slots rest

theorem firstAmong_placesOf (k : Keyed) (all : Array Slot) (slots : List Slot) (n : Nat)
    (h : ∀ i s, slots[i]? = some s → all[n + i]? = some s) :
    firstAmong k all (placesOf k.key.code slots n) = (locate k slots).map (·.map (· + n)) := by
  induction slots generalizing n with
  | nil => rfl
  | cons s rest ih =>
      have first : all[n]? = some s := h 0 s rfl
      have later := ih (n + 1) fun i t ht => by
        have shifted := h (i + 1) t (by simpa using ht)
        rwa [show n + (i + 1) = n + 1 + i by omega] at shifted
      have moved : (locate k rest).map (·.map (· + (n + 1))) =
          ((locate k rest).map (·.map (· + 1))).map (·.map (· + n)) := by
        cases locate k rest with
        | error e => rfl
        | ok place =>
            cases place with
            | none => rfl
            | some i =>
                simp only [Except.map, Option.map, Except.ok.injEq, Option.some.injEq]
                omega
      by_cases filed : s.under.key.code = k.key.code
      · simp only [placesOf, if_pos filed, firstAmong, first, locate]
        cases s.under.meets k with
        | error e => rfl
        | ok found =>
            cases found with
            | true => simp [bind, Except.bind, pure, Except.pure, Except.map]
            | false =>
                simp only [bind, Except.bind, later, moved]
                cases locate k rest <;> rfl
      · have apart : s.under.meets k = .ok false :=
          Keyed.meets_of_key_ne fun same => filed (by rw [same])
        simp only [placesOf, if_neg filed, locate, apart, bind, Except.bind, later, moved]
        cases locate k rest <;> rfl

end Slot

end ScopeResolution
