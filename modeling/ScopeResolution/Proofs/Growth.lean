import Mathlib.Data.List.Infix
import Mathlib.Order.Defs.Unbundled
import ScopeResolution.Proofs.Faults
import ScopeResolution.Proofs.Traversal.Conduct

namespace ScopeResolution

namespace Scopes

theorem eq_of_frames {s t : Scopes} (h : s.frames = t.frames) : s = t := by
  rcases s with ⟨inner, outer, _, rfl⟩
  rcases t with ⟨_, _, _, rfl⟩
  cases h
  rfl

theorem exit?_of_outer {s t : Scopes} (h : s.outer = t.frames) : s.exit? = some t := by
  rcases s with ⟨inner, outer, _, rfl⟩
  cases h
  exact congrArg some (eq_of_frames rfl)

theorem outer_of_exit? {s t : Scopes} (h : s.exit? = some t) : s.outer = t.frames := by
  rcases s with ⟨inner, outer, _, rfl⟩
  cases outer with
  | nil => cases h
  | cons d rest =>
      cases h
      rfl

end Scopes

namespace Resolver

structure Grows (r r' : Resolver) : Prop where
  outer : r'.scopes.outer = r.scopes.outer
  keys : r.scopes.inner.keys <+: r'.scopes.inner.keys
  counter : r.counter ≤ r'.counter

instance : IsPreorder Resolver Grows where
  refl _ := ⟨rfl, List.prefix_rfl, Nat.le_refl _⟩
  trans _ _ _ h k :=
    ⟨k.outer.trans h.outer, h.keys.trans k.keys, Nat.le_trans h.counter k.counter⟩

theorem exit_of_outer {r r' : Resolver} (h : r'.scopes.outer = r.scopes.frames) :
    ∃ r₂, r'.exit = (.ok (), r₂) ∧
      r₂.scopes = r.scopes ∧ r₂.supply = r'.supply ∧ r₂.limits = r'.limits := by
  have left : r'.scopes.exit? = some r.scopes := Scopes.exit?_of_outer h
  simp only [exit, left]
  exact ⟨_, rfl, rfl, rfl, rfl⟩

namespace Grows

variable {r r' : Resolver}

theorem of_same (scopes : r'.scopes = r.scopes) (counter : r.counter ≤ r'.counter) :
    r.Grows r' :=
  ⟨by rw [scopes], by rw [scopes], counter⟩

theorem depth (h : r.Grows r') : r'.scopes.depth = r.scopes.depth := by
  rw [r'.scopes.depth_eq, h.outer, r.scopes.depth_eq]

theorem exit_of_enter (h : r.enter.Grows r') :
    ∃ r₂, r'.exit = (.ok (), r₂) ∧
      r₂.scopes = r.scopes ∧ r₂.supply = r'.supply ∧ r₂.limits = r'.limits :=
  exit_of_outer h.outer

end Grows

end Resolver

namespace Slot

inductive Extends : List Slot → List Slot → Prop where
  | more (added : List Slot) : Extends [] added
  | slot {s t : Slot} {before after : List Slot} (under : t.under = s.under)
      (filled : s.value ≠ .null → t.value ≠ .null) (rest : Extends before after) :
      Extends (s :: before) (t :: after)

namespace Extends

variable {before after later : List Slot}

theorem append (before added : List Slot) : Extends before (before ++ added) := by
  induction before with
  | nil => exact .more added
  | cons s before ih => exact .slot rfl id ih

theorem refl (before : List Slot) : Extends before before := by
  have none := append before []
  rwa [List.append_nil] at none

theorem trans (h : Extends before after) (k : Extends after later) : Extends before later := by
  induction h generalizing later with
  | more => exact .more later
  | slot under filled _ ih =>
      cases k with
      | slot under' filled' rest' =>
          exact .slot (under'.trans under) (fun some => filled' (filled some)) (ih rest')

theorem modify (before : List Slot) (i : Nat) {v : Datum} (h : v ≠ .null) :
    Extends before (before.modify i fun s => { s with value := v }) := by
  induction before generalizing i with
  | nil => exact .more _
  | cons s before ih =>
      cases i with
      | zero => exact .slot rfl (fun _ => h) (refl before)
      | succ i => exact .slot rfl id (ih i)

theorem under (h : Extends before after) :
    before.map (·.under) <+: after.map (·.under) := by
  induction h with
  | more => exact List.nil_prefix
  | slot under _ _ ih =>
      rw [List.map_cons, List.map_cons, under]
      exact (List.prefix_cons_inj _).2 ih

theorem retrieve (h : Extends before after) {k : Keyed} {v : Datum}
    (found : retrieve k before = .ok (some v)) (filled : v ≠ .null) :
    ∃ w, Slot.retrieve k after = .ok (some w) ∧ w ≠ .null := by
  induction h with
  | more => cases found
  | slot under kept _ ih =>
      rw [Slot.retrieve] at found ⊢
      rw [under]
      cases here : Keyed.meets _ k with
      | error e =>
          rw [here] at found
          cases found
      | ok same =>
          rw [here] at found
          cases same with
          | true =>
              cases found
              exact ⟨_, rfl, kept filled⟩
          | false => exact ih found

end Extends

theorem mem_store {k : Keyed} {v : Datum} {before after : List Slot} {s : Slot}
    (h : store k v before = .ok after) (hs : s ∈ after) :
    s ∈ before ∨ s.value = v ∧ s.under.meets k = .ok true := by
  induction before generalizing after with
  | nil =>
      cases h
      rw [List.mem_singleton.1 hs]
      exact .inr ⟨rfl, k.meets_self⟩
  | cons t before ih =>
      rcases store_cons h with ⟨here, rfl⟩ | ⟨_, kept, tail, rfl⟩
      · rcases List.mem_cons.1 hs with rfl | rest
        · exact .inr ⟨rfl, here⟩
        · exact .inl (List.mem_cons_of_mem t rest)
      · rcases List.mem_cons.1 hs with rfl | rest
        · exact .inl List.mem_cons_self
        · exact (ih tail rest).imp_left (List.mem_cons_of_mem t)

end Slot

theorem Datum.datum_of_keyed {d : Datum} {k : Keyed} (h : d.keyed = .ok k) : k.datum = d := by
  unfold keyed at h
  split at h
  case h_1 => cases h; rfl
  case h_2 => cases h

namespace Dictionary

theorem siteOf_eq_ok {d : Dictionary} {v : Datum} {site : Site} (h : d.siteOf v = .ok site) :
    ∃ k, v.keyed = .ok k ∧ d.site k = .ok site := by
  rw [siteOf] at h
  cases keyed : v.keyed with
  | error e =>
      rw [keyed] at h
      cases h
  | ok k =>
      rw [keyed] at h
      exact ⟨k, rfl, h⟩

theorem mem_settle {d : Dictionary} {k : Keyed} {site : Site} {v : Datum} {s : Slot}
    (placed : d.site k = .ok site) (h : s ∈ (d.settle site v).toList) :
    s ∈ d.toList ∨ s.value = v ∧ s.under.meets k = .ok true := by
  have put : d.put k v = .ok (d.settle site v) := by
    rw [Dictionary.put, placed]
    rfl
  exact Slot.mem_store (store_of_put put) h

theorem extends_settle (d : Dictionary) (site : Site) {v : Datum} (h : v ≠ .null) :
    Slot.Extends d.toList (d.settle site v).toList := by
  rcases site with ⟨under, place⟩
  cases place with
  | none => simpa [settle, toList] using Slot.Extends.append _ _
  | some i => simpa [settle, toList] using Slot.Extends.modify _ i h

end Dictionary

/-- The slot holds a name of a symbol of the key that it is stored under, with a number up to the
one given. -/
def Slot.IssuedBy (last : Nat) (s : Slot) : Prop :=
  ∃ (k : Keyed) (uid : Nat),
    uid ≤ last ∧ s.value = .name k.datum (.int uid) ∧ s.under.key = k.key

theorem Slot.IssuedBy.later {m n : Nat} {s : Slot} (h : s.IssuedBy m) (le : m ≤ n) :
    s.IssuedBy n := by
  obtain ⟨k, uid, taken, named⟩ := h
  exact ⟨k, uid, Nat.le_trans taken le, named⟩

theorem Keyed.key_of_meets {stored sought : Keyed} (h : stored.meets sought = .ok true) :
    stored.key = sought.key := by
  by_contra apart
  rw [meets_of_key_ne apart] at h
  cases h

namespace Resolver

def Issued (r : Resolver) : Prop :=
  ∀ d ∈ r.scopes.frames, ∀ s ∈ d.toList, s.IssuedBy r.counter

theorem Issued.of_same {r r' : Resolver} (h : r.Issued) (scopes : r'.scopes = r.scopes)
    (counter : r.counter ≤ r'.counter) : r'.Issued := by
  intro d hd s hs
  rw [scopes] at hd
  exact (h d hd s hs).later counter

structure Secures (r r' : Resolver) : Prop extends Grows r r' where
  limits : r'.limits = r.limits
  pinned : r'.supply.pinned = r.supply.pinned
  held : Slot.Extends r.scopes.inner.toList r'.scopes.inner.toList
  idle : r.supply.pinned ≠ none → r'.scopes = r.scopes
  issued : r.Issued → r'.Issued

namespace Secures

variable {r r' r'' : Resolver}

theorem of_same (scopes : r'.scopes = r.scopes) (counter : r.counter ≤ r'.counter)
    (limits : r'.limits = r.limits) (pinned : r'.supply.pinned = r.supply.pinned) :
    r.Secures r' := by
  refine ⟨.of_same scopes counter, limits, pinned, ?_, fun _ => scopes,
    fun h => h.of_same scopes counter⟩
  rw [scopes]
  exact .refl _

theorem trans (h : r.Secures r') (k : r'.Secures r'') : r.Secures r'' := by
  refine ⟨trans_of Grows h.toGrows k.toGrows, k.limits.trans h.limits, k.pinned.trans h.pinned,
    h.held.trans k.held, ?_, fun issued => k.issued (h.issued issued)⟩
  intro pinned
  exact (k.idle (h.pinned ▸ pinned)).trans (h.idle pinned)

end Secures

theorem secures_debug (text : String) (r : Resolver) : r.Secures (r.debug text) :=
  .of_same rfl (Nat.le_refl _) rfl rfl

theorem secures_error (text : String) (r : Resolver) : r.Secures (r.error text) :=
  .of_same rfl (Nat.le_refl _) rfl rfl

section FreshName

variable {r : Resolver} {symbol : Datum}

def nextName (r : Resolver) (symbol : Datum) : Datum :=
  .name symbol (.int ((r.counter + 1 : Nat) : Int))

theorem freshName_of_pinned {uid : Datum} (h : r.supply.pinned = some uid) :
    r.freshName symbol = (.ok (.name symbol uid), r) := by
  rw [freshName, h]

theorem freshName_of_unplaced {fault : Fault} (unpinned : r.supply.pinned = none)
    (h : r.scopes.siteOf symbol = .error fault) :
    r.freshName symbol =
      (.error fault, { r with supply := { r.supply with counter := r.counter + 1 } }) := by
  rw [freshName, unpinned]
  simp only [h]

theorem freshName_of_placed {site : Site} (unpinned : r.supply.pinned = none)
    (h : r.scopes.siteOf symbol = .ok site) :
    (r.freshName symbol).1 = (r.limits.displayed symbol).map (fun _ => r.nextName symbol) ∧
      (r.freshName symbol).2.scopes = r.scopes.settle site (r.nextName symbol) ∧
      (r.freshName symbol).2.supply = { r.supply with counter := r.counter + 1 } ∧
      (r.freshName symbol).2.limits = r.limits := by
  rw [freshName, unpinned]
  simp only [h]
  cases r.limits.displayed symbol <;> exact ⟨rfl, rfl, rfl, rfl⟩

theorem Issued.freshName {site : Site} (h : r.Issued) (unpinned : r.supply.pinned = none)
    (placed : r.scopes.siteOf symbol = .ok site) : (r.freshName symbol).2.Issued := by
  obtain ⟨_, scopes, supply, _⟩ := freshName_of_placed unpinned placed
  obtain ⟨k, keyed, found⟩ := Dictionary.siteOf_eq_ok placed
  have named : r.nextName symbol = .name k.datum (.int ((r.counter + 1 : Nat) : Int)) := by
    rw [Datum.datum_of_keyed keyed]
    rfl
  have counted : (r.freshName symbol).2.counter = r.counter + 1 := by
    rw [Resolver.counter, supply]
  have older {s : Slot} (issued : s.IssuedBy r.counter) :
      s.IssuedBy (r.freshName symbol).2.counter :=
    issued.later (counter_le_freshName symbol r)
  intro d hd s hs
  rw [scopes] at hd
  rcases List.mem_cons.1 hd with rfl | outer
  · rcases Dictionary.mem_settle found hs with old | ⟨new, met⟩
    · exact older (h _ List.mem_cons_self s old)
    · exact ⟨k, _, Nat.le_of_eq counted.symm, new.trans named, Keyed.key_of_meets met⟩
  · exact older (h d (List.mem_cons_of_mem _ outer) s hs)

theorem secures_freshName (symbol : Datum) (r : Resolver) :
    r.Secures (r.freshName symbol).2 := by
  cases pinned : r.supply.pinned with
  | some uid =>
      rw [freshName_of_pinned pinned]
      exact .of_same rfl (Nat.le_refl _) rfl rfl
  | none =>
      cases placed : r.scopes.siteOf symbol with
      | error fault =>
          rw [freshName_of_unplaced pinned placed]
          exact .of_same rfl (Nat.le_succ _) rfl rfl
      | ok site =>
          obtain ⟨_, scopes, supply, limits⟩ := freshName_of_placed pinned placed
          have held : Slot.Extends r.scopes.inner.toList
              (r.freshName symbol).2.scopes.inner.toList := by
            rw [scopes]
            exact r.scopes.inner.extends_settle site (nomatch ·)
          have outer : (r.freshName symbol).2.scopes.outer = r.scopes.outer := by rw [scopes]; rfl
          have grown : r.Grows (r.freshName symbol).2 :=
            ⟨outer, held.under, counter_le_freshName symbol r⟩
          exact ⟨grown, limits, by rw [supply], held, fun other => absurd pinned other,
            fun issued => issued.freshName pinned placed⟩

theorem freshName_ok {name : Datum} (unpinned : r.supply.pinned = none)
    (h : (r.freshName symbol).1 = .ok name) :
    name = r.nextName symbol ∧ (r.freshName symbol).2.counter = r.counter + 1 ∧
      ∃ k, symbol.keyed = .ok k ∧
        r.scopes.inner.put k name = .ok (r.freshName symbol).2.scopes.inner := by
  cases placed : r.scopes.siteOf symbol with
  | error fault =>
      rw [freshName_of_unplaced unpinned placed] at h
      cases h
  | ok site =>
      obtain ⟨out, scopes, supply, _⟩ := freshName_of_placed unpinned placed
      obtain ⟨k, keyed, found⟩ := Dictionary.siteOf_eq_ok placed
      have named : name = r.nextName symbol := by
        rw [out] at h
        cases shown : r.limits.displayed symbol <;> rw [shown] at h <;> cases h
        rfl
      refine ⟨named, by rw [counter, supply], k, keyed, ?_⟩
      rw [Dictionary.put, found, scopes, named]
      rfl

theorem allows_freshName {fault : Fault} (unpinned : r.supply.pinned = none)
    (h : (r.freshName symbol).1 = .error fault) : r.limits.Allows fault := by
  cases placed : r.scopes.siteOf symbol with
  | error met =>
      rw [freshName_of_unplaced unpinned placed] at h
      cases h
      exact .inl (r.scopes.inner.ordinarily_siteOf symbol fault placed)
  | ok site =>
      rw [(freshName_of_placed unpinned placed).1] at h
      cases shown : r.limits.displayed symbol <;> rw [shown] at h <;> cases h
      exact Limits.allows_of_displayed shown

end FreshName

def Registered (r : Resolver) (symbol : Datum) : Prop :=
  ∃ k v, symbol.keyed = .ok k ∧ Slot.retrieve k r.scopes.inner.toList = .ok (some v) ∧ v ≠ .null

theorem registered_freshName {symbol name : Datum} {r : Resolver}
    (unpinned : r.supply.pinned = none) (h : (r.freshName symbol).1 = .ok name) :
    (r.freshName symbol).2.Registered symbol := by
  obtain ⟨named, _, k, keyed, put⟩ := freshName_ok unpinned h
  have found := Slot.retrieve_of_store_self (Dictionary.store_of_put put)
  refine ⟨k, name, keyed, found, ?_⟩
  rw [named]
  exact (nomatch ·)

theorem Secures.registered {r r' : Resolver} (h : r.Secures r') {symbol : Datum}
    (held : r.Registered symbol) : r'.Registered symbol := by
  obtain ⟨k, v, keyed, found, filled⟩ := held
  obtain ⟨w, found', filled'⟩ := h.held.retrieve found filled
  exact ⟨k, w, keyed, found', filled'⟩

theorem Registered.lookup {r : Resolver} {symbol : Datum} (h : r.Registered symbol) :
    ∃ v, r.lookup symbol = .ok v ∧ v ≠ .null := by
  obtain ⟨k, v, keyed, found, filled⟩ := h
  refine ⟨v, ?_, filled⟩
  have held : r.scopes.inner.get? k = .ok (some v) := (Dictionary.get?_eq _ _).trans found
  have first : r.scopes.get? k = .ok (some v) := by
    rw [Scopes.get?, Scopes.frames, Scopes.find?, held]
    rfl
  rw [Resolver.lookup, Scopes.lookup, Scopes.getOr, keyed]
  exact congrArg (· >>= fun found => pure (found.getD .null)) first

def orderly : Traversal.Conduct Resolver Fault where
  moves := Secures
  fails r fault := r.supply.pinned = none → r.limits.Allows fault
  refl _ := .of_same rfl (Nat.le_refl _) rfl rfl
  trans := Secures.trans
  fails_of_moves moved failed unpinned := moved.limits ▸ failed (moved.pinned.trans unpinned)

theorem admits_freshName (symbol : Datum) (r : Resolver) :
    orderly.Admits r (r.freshName symbol) fun _ r' =>
      r.supply.pinned = none → r'.Registered symbol where
  moves := secures_freshName symbol r
  fails _ failed unpinned := allows_freshName unpinned failed
  returns _ named unpinned := registered_freshName unpinned named

end Resolver

end ScopeResolution
