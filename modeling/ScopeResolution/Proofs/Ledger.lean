import ScopeResolution.Proofs.Growth
import ScopeResolution.Proofs.Phrase
import ScopeResolution.Proofs.Traversal.Passage

/-!
The ledger of a resolver: the symbols that names were asked for, in order, the first with the number
two. A symbol that could not be bound is entered too, since its number is taken. While nothing else
is put into the scopes they hold what the ledger tells (`Resolver.Ledger`), and effects that only
issue names add a line for each of them (`Resolver.Issues.ledger`).
-/

namespace ScopeResolution

open Traversal

structure Mark where
  symbol : Datum
  uid : Nat

namespace Mark

def datum (n : Mark) : Datum :=
  .name n.symbol (.int n.uid)

instance : Identifier Mark := ⟨datum, fun _ => rfl⟩

theorem datum_injective {n m : Mark} (h : n.datum = m.datum) : n = m := by
  rcases n with ⟨symbol, uid⟩
  rcases m with ⟨symbol', uid'⟩
  simp only [datum, Datum.name.injEq, Datum.int.injEq, Int.natCast_inj] at h
  rw [h.1, h.2]

def Issued (l : List Datum) (n : Mark) : Prop :=
  2 ≤ n.uid ∧ l[n.uid - 2]? = some n.symbol

def Told (l : List Datum) (n : Mark) : Prop :=
  n.uid = 0 ∨ n.Issued l

variable {l l' : List Datum} {n m : Mark}

theorem Issued.uid_le (h : n.Issued l) : n.uid ≤ l.length + 1 := by
  have within := (List.getElem?_eq_some_iff.1 h.2).1
  omega

theorem Issued.later (h : n.Issued l) (grown : l <+: l') : n.Issued l' := by
  obtain ⟨more, rfl⟩ := grown
  have within := (List.getElem?_eq_some_iff.1 h.2).1
  exact ⟨h.1, (List.getElem?_append_left within).trans h.2⟩

theorem Told.later (h : n.Told l) (grown : l <+: l') : n.Told l' :=
  h.imp_right fun issued => issued.later grown

theorem Issued.eq_of_uid (h : n.Issued l) (k : m.Issued l) (same : n.uid = m.uid) :
    n = m := by
  rcases n with ⟨symbol, uid⟩
  rcases m with ⟨symbol', uid'⟩
  cases same
  exact congrArg (Mark.mk · uid) (Option.some.inj (h.2.symm.trans k.2))

theorem issued_last (l : List Datum) (symbol : Datum) :
    Issued (l ++ [symbol]) ⟨symbol, l.length + 2⟩ :=
  ⟨Nat.le_add_left 2 _, List.getElem?_concat_length⟩

end Mark

theorem Slot.mem_of_retrieve {k : Keyed} {slots : List Slot} {v : Datum}
    (h : retrieve k slots = .ok (some v)) : ∃ s ∈ slots, s.value = v := by
  induction slots with
  | nil => cases h
  | cons s rest ih =>
      rw [retrieve] at h
      cases met : s.under.meets k with
      | error e =>
          rw [met] at h
          cases h
      | ok same =>
          rw [met] at h
          cases same with
          | true =>
              cases h
              exact ⟨s, List.mem_cons_self, rfl⟩
          | false =>
              obtain ⟨t, mem, value⟩ := ih h
              exact ⟨t, List.mem_cons_of_mem s mem, value⟩

namespace Scopes

theorem mem_of_find? {k : Keyed} {ds : List Dictionary} {v : Datum}
    (h : find? k ds = .ok (some v)) : ∃ d ∈ ds, ∃ s ∈ d.toList, s.value = v := by
  induction ds with
  | nil => cases h
  | cons d rest ih =>
      rw [find?] at h
      cases found : d.get? k with
      | error e =>
          rw [found] at h
          cases h
      | ok held =>
          rw [found] at h
          cases held with
          | some w =>
              cases h
              rw [Dictionary.get?_eq] at found
              exact ⟨d, List.mem_cons_self, Slot.mem_of_retrieve found⟩
          | none =>
              obtain ⟨e, mem, holds⟩ := ih h
              exact ⟨e, List.mem_cons_of_mem d mem, holds⟩

theorem mem_of_lookup {s : Scopes} {symbol v : Datum} (h : s.lookup symbol = .ok v) :
    v = .null ∨ ∃ d ∈ s.frames, ∃ t ∈ d.toList, t.value = v := by
  rw [lookup, getOr] at h
  cases keyed : symbol.keyed with
  | error e =>
      rw [keyed] at h
      cases h
  | ok k =>
      rw [keyed] at h
      cases found : s.get? k with
      | error e =>
          simp only [found, bind, Except.bind] at h
          cases h
      | ok held =>
          simp only [found, bind, Except.bind, pure, Except.pure, Except.ok.injEq] at h
          cases held with
          | none => exact .inl h.symm
          | some w =>
              cases h
              exact .inr (mem_of_find? found)

end Scopes

namespace Resolver

/-- The numbers up to the counter were issued for these symbols, in order, and the scopes hold names
that were issued and nothing else. -/
structure Ledger (r : Resolver) (l : List Datum) : Prop where
  unpinned : r.supply.pinned = none
  counter : r.counter = l.length + 1
  held : ∀ d ∈ r.scopes.frames, ∀ s ∈ d.toList, ∃ n : Mark, s.value = n.datum ∧ n.Issued l

namespace Ledger

variable {r r' : Resolver} {l : List Datum}

theorem initial : Resolver.initial.Ledger [] := by
  refine ⟨rfl, rfl, fun d hd s hs => ?_⟩
  rw [List.mem_singleton.1 hd] at hs
  cases hs

theorem of_same (h : r.Ledger l) (scopes : r'.scopes = r.scopes)
    (supply : r'.supply = r.supply) : r'.Ledger l := by
  refine ⟨?_, ?_, ?_⟩
  · rw [supply]
    exact h.unpinned
  · rw [Resolver.counter, supply]
    exact h.counter
  · rw [scopes]
    exact h.held

theorem enter (h : r.Ledger l) : r.enter.Ledger l := by
  refine ⟨h.unpinned, h.counter, fun d hd s hs => ?_⟩
  rcases List.mem_cons.1 hd with rfl | outer
  · cases hs
  · exact h.held d outer s hs

theorem exit (h : r.Ledger l) : r.exit.2.Ledger l := by
  rw [Resolver.exit]
  cases left : r.scopes.exit? with
  | none => exact h
  | some scopes =>
      refine ⟨h.unpinned, h.counter, fun d hd s hs => ?_⟩
      have outer : d ∈ r.scopes.outer := Scopes.outer_of_exit? left ▸ hd
      exact h.held d (List.mem_cons_of_mem _ outer) s hs

theorem freshName (h : r.Ledger l) (symbol : Datum) :
    (r.freshName symbol).2.Ledger (l ++ [symbol]) ∧
      ∀ v, (r.freshName symbol).1 = .ok v → v = Mark.datum ⟨symbol, l.length + 2⟩ := by
  have number : r.counter + 1 = (l ++ [symbol]).length + 1 := by
    rw [h.counter, List.length_append]
    rfl
  have kept : ∀ d ∈ r.scopes.frames, ∀ s ∈ d.toList,
      ∃ n : Mark, s.value = n.datum ∧ n.Issued (l ++ [symbol]) := by
    intro d hd s hs
    obtain ⟨n, value, issued⟩ := h.held d hd s hs
    exact ⟨n, value, issued.later (List.prefix_append _ _)⟩
  cases placed : r.scopes.siteOf symbol with
  | error fault =>
      rw [freshName_of_unplaced h.unpinned placed]
      exact ⟨⟨h.unpinned, number, kept⟩, fun v ok => nomatch ok⟩
  | ok site =>
      obtain ⟨out, scopes, supply, _⟩ := freshName_of_placed h.unpinned placed
      obtain ⟨_, _, found⟩ := Dictionary.siteOf_eq_ok placed
      have own : r.nextName symbol = Mark.datum ⟨symbol, l.length + 2⟩ := by
        rw [nextName, h.counter]
        rfl
      refine ⟨⟨?_, ?_, fun d hd s hs => ?_⟩, fun v ok => ?_⟩
      · rw [supply]
        exact h.unpinned
      · rw [Resolver.counter, supply]
        exact number
      · rw [scopes] at hd
        rcases List.mem_cons.1 hd with rfl | outer
        · rcases Dictionary.mem_settle found hs with old | ⟨new, _⟩
          · exact kept _ List.mem_cons_self s old
          · exact ⟨_, new.trans own, Mark.issued_last l symbol⟩
        · exact kept d (List.mem_cons_of_mem _ outer) s hs
      · rw [out, own] at ok
        cases shown : r.limits.displayed symbol <;> rw [shown] at ok <;> cases ok
        rfl

theorem lookup (h : r.Ledger l) {symbol v : Datum} (found : r.lookup symbol = .ok v) :
    v = .null ∨ ∃ n : Mark, v = n.datum ∧ n.Issued l := by
  refine (Scopes.mem_of_lookup found).imp_right ?_
  rintro ⟨d, hd, s, hs, rfl⟩
  exact h.held d hd s hs

theorem nameOf (h : r.Ledger l) {symbol v : Datum} (found : r.nameOf symbol = .ok v) :
    ∃ n : Mark, v = n.datum ∧ n.Told l := by
  rw [Resolver.nameOf] at found
  cases looked : r.lookup symbol with
  | error e =>
      rw [looked] at found
      cases found
  | ok w =>
      rw [looked] at found
      rcases h.lookup looked with rfl | ⟨n, rfl, issued⟩
      · cases found
        exact ⟨⟨symbol, 0⟩, rfl, .inl rfl⟩
      · cases found
        exact ⟨n, rfl, .inr issued⟩

end Ledger

abbrev Call :=
  Resolver × (Resolver → Outcome Resolver Fault Datum)

def Call.number (c : Call) : Nat :=
  (c.2 c.1).2.counter

inductive Asked : List Datum → List Call → List Datum → Prop where
  | nil (l : List Datum) : Asked l [] l
  | cons {r : Resolver} {l l' : List Datum} {cs : List Call} (symbol : Datum) (told : r.Ledger l)
      (rest : Asked (l ++ [symbol]) cs l') : Asked l ((r, Resolver.freshName symbol) :: cs) l'

namespace Asked

variable {r : Resolver} {l l' l'' : List Datum} {cs ds : List Call}

theorem append (h : Asked l cs l') (k : Asked l' ds l'') : Asked l (cs ++ ds) l'' := by
  induction h with
  | nil => exact k
  | cons symbol told _ ih => exact .cons symbol told (ih k)

theorem grown (h : Asked l cs l') : l <+: l' := by
  induction h with
  | nil => exact List.prefix_rfl
  | cons symbol _ _ ih => exact (List.prefix_append _ _).trans ih

theorem length (h : Asked l cs l') : l'.length = l.length + cs.length := by
  induction h with
  | nil => rfl
  | cons symbol _ _ ih =>
      simp only [ih, List.length_append, List.length_cons, List.length_nil]
      omega

theorem number_freshName (told : r.Ledger l) (symbol : Datum) :
    Call.number (r, Resolver.freshName symbol) = l.length + 2 := by
  rw [Call.number, (told.freshName symbol).1.counter, List.length_append, List.length_singleton]

theorem numbers (h : Asked l cs l') :
    cs.map Call.number = List.range' (l.length + 2) cs.length := by
  induction h with
  | nil => rfl
  | cons symbol told _ ih =>
      rw [List.length_append, List.length_singleton] at ih
      rw [List.map_cons, number_freshName told, ih, List.length_cons, List.range'_succ]

theorem made (h : Asked l cs l') {c : Call} (mem : c ∈ cs) :
    ∃ symbol, c.2 = Resolver.freshName symbol ∧
      ∀ v, (c.2 c.1).1 = .ok v → v = .name symbol (.int c.number) := by
  induction h with
  | nil => cases mem
  | cons symbol told _ ih =>
      rcases List.mem_cons.1 mem with rfl | later
      · refine ⟨symbol, rfl, fun v ok => ?_⟩
        rw [number_freshName told]
        exact (told.freshName symbol).2 v ok
      · exact ih later

theorem issued (h : Asked l cs l') {n : Mark} (issued : n.Issued l')
    (newer : l.length + 2 ≤ n.uid) :
    ∃ c, cs.filter (fun c => c.number = n.uid) = [c] ∧ c.2 = Resolver.freshName n.symbol := by
  induction h with
  | nil l =>
      have taken := issued.uid_le
      omega
  | @cons r l l' cs symbol told rest ih =>
      have number := number_freshName told symbol
      by_cases own : n.uid = l.length + 2
      · have others : cs.filter (fun c => c.number = n.uid) = [] := by
          refine List.filter_eq_nil_iff.2 fun c mem => ?_
          have later : c.number ∈ cs.map Call.number := List.mem_map_of_mem mem
          rw [rest.numbers, List.mem_range'_1, List.length_append, List.length_singleton] at later
          simp only [decide_eq_true_eq]
          omega
        have same : n.symbol = symbol := by
          have held := (Mark.issued_last l symbol).later rest.grown
          exact congrArg Mark.symbol (issued.eq_of_uid held own)
        refine ⟨(r, Resolver.freshName symbol), ?_, by rw [same]⟩
        rw [List.filter_cons_of_pos (by simp [number, own]), others]
      · have newer' : (l ++ [symbol]).length + 2 ≤ n.uid := by
          rw [List.length_append, List.length_singleton]
          omega
        obtain ⟨c, only, asked⟩ := ih issued newer'
        refine ⟨c, ?_, asked⟩
        rw [List.filter_cons_of_neg, only]
        simp only [number, decide_eq_true_eq]
        omega

end Asked

inductive Issues : Resolver → List (Effect Datum Resolver Fault Datum) → List Datum → Resolver →
    Prop where
  | nil (r : Resolver) : Issues r [] [] r
  | visit {r r' : Resolver} {es xs} (d : Datum) (rest : Issues r es xs r') :
      Issues r (.visit d :: es) xs r'
  | fresh {r r' : Resolver} {es xs} (symbol : Datum)
      (rest : Issues (r.freshName symbol).2 es xs r') :
      Issues r (.act (Resolver.freshName symbol) :: es) (symbol :: xs) r'
  | enter {r r' : Resolver} {es xs} (rest : Issues r.enter es xs r') :
      Issues r (.write r.enter :: es) xs r'
  | note {r r' w : Resolver} {es xs} (scopes : w.scopes = r.scopes) (supply : w.supply = r.supply)
      (rest : Issues w es xs r') : Issues r (.write w :: es) xs r'
  | exit {r r' : Resolver} {es xs} (ending : Ending Fault) (rest : Issues r.exit.2 es xs r') :
      Issues r (.clean (fun _ => Resolver.exit) ending :: es) xs r'

namespace Issues

variable {r r' r'' : Resolver} {es fs : List (Effect Datum Resolver Fault Datum)}
  {l xs ys : List Datum}

theorem append (h : Issues r es xs r') (k : Issues r' fs ys r'') :
    Issues r (es ++ fs) (xs ++ ys) r'' := by
  induction h with
  | nil => exact k
  | visit d _ ih => exact .visit d (ih k)
  | fresh symbol _ ih => exact .fresh symbol (ih k)
  | enter _ ih => exact .enter (ih k)
  | note scopes supply _ ih => exact .note scopes supply (ih k)
  | exit ending _ ih => exact .exit ending (ih k)

theorem ledger (h : Issues r es xs r') (told : r.Ledger l) : r'.Ledger (l ++ xs) := by
  induction h generalizing l with
  | nil => rwa [List.append_nil]
  | visit d _ ih => exact ih told
  | fresh symbol _ ih =>
      have rest := ih (told.freshName symbol).1
      rwa [List.append_assoc] at rest
  | enter _ ih => exact ih told.enter
  | note scopes supply _ ih => exact ih (told.of_same scopes supply)
  | exit _ _ ih => exact ih told.exit

theorem asked (h : Issues r es xs r') (told : r.Ledger l) :
    Asked l (Effect.acts es r) (l ++ xs) := by
  induction h generalizing l with
  | nil r =>
      rw [List.append_nil]
      exact .nil l
  | visit d _ ih => exact ih told
  | @fresh r r' es xs symbol _ ih =>
      have rest := ih (told.freshName symbol).1
      rw [List.append_assoc] at rest
      exact .cons symbol told rest
  | enter _ ih => exact ih told.enter
  | note scopes supply _ ih => exact ih (told.of_same scopes supply)
  | exit _ _ ih => exact ih told.exit

end Issues

end Resolver

end ScopeResolution
