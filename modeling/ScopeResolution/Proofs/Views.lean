import ScopeResolution.Proofs.Dictionary.Firsts
import ScopeResolution.Proofs.Discipline

namespace ScopeResolution

open Keyed (Lawful keep firsts Distinct Covered)

theorem isSome_eq_of_rel {α β : Type} {r : α → β → Prop} {x : Option α} {y : Option β}
    (h : Option.Rel r x y) : x.isSome = y.isSome := by
  cases h <;> rfl

namespace Dictionary

theorem size_eq_length_keys (d : Dictionary) : d.size = d.keys.length := by
  simp [size, keys, toList]

variable {K : Keyed → Prop} (lawful : Lawful K) {d : Dictionary} {k l : Keyed}
include lawful

theorem found_congr (keyed : ∀ m ∈ d.keys, K m) (hk : K k) (hl : K l) (same : k.same l = true) :
    d.found k = d.found l := by
  have alike : ∀ s ∈ d.toList, s.under.same k = s.under.same l := fun s hs =>
    lawful.same_congr (keyed s.under (List.mem_map_of_mem hs)) hk hl same
  rw [found, found, ← List.head?_filter, ← List.head?_filter, List.filter_congr alike]

theorem matched_iff {e : Dictionary} (keyed : ∀ m ∈ e.keys, K m) {slots : List Slot}
    (own : ∀ s ∈ slots, K s.under) :
    matched e slots = .ok true ↔
      ∀ s ∈ slots, ∃ y, e.found s.under = some y ∧ s.value.equalsItem y = .ok true := by
  induction slots with
  | nil => simp [matched]
  | cons s rest ih =>
      rw [List.forall_mem_cons] at own ⊢
      rw [matched, get?_eq_found lawful keyed own.1, ← ih own.2]
      cases e.found s.under with
      | none => simp [bind, Except.bind, pure, Except.pure]
      | some y =>
          simp only [bind, Except.bind, Option.some.injEq, exists_eq_left']
          cases s.value.equalsItem y with
          | error fault => simp
          | ok same => cases same <;> simp [pure, Except.pure]

theorem matched_answers {e : Dictionary} (keyed : ∀ m ∈ e.keys, K m) {slots : List Slot}
    (own : ∀ s ∈ slots, K s.under)
    (answers : ∀ s ∈ slots, ∀ y, e.found s.under = some y → ∃ b, s.value.equalsItem y = .ok b) :
    ∃ b, matched e slots = .ok b := by
  induction slots with
  | nil => exact ⟨true, rfl⟩
  | cons s rest ih =>
      rw [List.forall_mem_cons] at own answers
      obtain ⟨b, further⟩ := ih own.2 answers.2
      rw [matched, get?_eq_found lawful keyed own.1]
      cases found : e.found s.under with
      | none => exact ⟨false, rfl⟩
      | some y =>
          obtain ⟨same, told⟩ := answers.1 y found
          cases same with
          | false => exact ⟨false, by simp [told, bind, Except.bind, pure, Except.pure]⟩
          | true => exact ⟨b, by simp [told, further, bind, Except.bind]⟩

end Dictionary

namespace Scopes

variable {s : Scopes} {K : Keyed → Prop}

def listed (s : Scopes) : List Keyed :=
  firsts (s.frames.reverse.flatMap Dictionary.keys)

def found (s : Scopes) (k : Keyed) : Option Datum :=
  s.frames.findSome? (·.found k)

theorem mem_of_listed {k : Keyed} (h : k ∈ s.listed) : ∃ d ∈ s.frames, k ∈ d.keys := by
  have mem := (Keyed.mem_foldl_keep h).resolve_left List.not_mem_nil
  simpa using mem

theorem keyed_listed (keyed : ∀ d ∈ s.frames, ∀ k ∈ d.keys, K k) : ∀ k ∈ s.listed, K k := by
  intro k hk
  obtain ⟨d, hd, mem⟩ := mem_of_listed hk
  exact keyed d hd k mem

section Lawful

variable (lawful : Lawful K) (keyed : ∀ d ∈ s.frames, ∀ k ∈ d.keys, K k)
include lawful

theorem united_keep {all : Dictionary} (own : ∀ k ∈ all.keys, K k) {ds : List Dictionary}
    (keyed : ∀ d ∈ ds, ∀ k ∈ d.keys, K k) :
    ∃ e, united all ds = .ok e ∧ e.keys = (ds.flatMap Dictionary.keys).foldl keep all.keys := by
  induction ds generalizing all with
  | nil => exact ⟨all, rfl, rfl⟩
  | cons d ds ih =>
      rw [List.forall_mem_cons] at keyed
      obtain ⟨u, merged, keys⟩ := Dictionary.merge_keep lawful own keyed.1
      have own' : ∀ k ∈ u.keys, K k := fun k hk =>
        (Keyed.mem_foldl_keep (keys ▸ hk)).elim (own k) (keyed.1 k)
      obtain ⟨e, all', keys'⟩ := ih own' keyed.2
      refine ⟨e, by rw [united, merged]; exact all', ?_⟩
      rw [keys', keys, List.flatMap_cons, List.foldl_append]

include keyed

theorem symbols_eq : s.symbols = .ok s.listed := by
  have none : ∀ k ∈ Dictionary.empty.keys, K k := List.forall_mem_nil K
  have among : ∀ d ∈ s.frames.reverse, ∀ k ∈ d.keys, K k := fun d hd =>
    keyed d (List.mem_reverse.1 hd)
  obtain ⟨e, all, keys⟩ := united_keep lawful none among
  rw [symbols, all]
  exact congrArg Except.ok keys

theorem size_eq (distinct : Distinct s.inner.keys) : s.size = .ok s.listed.length := by
  obtain ⟨e, all, keys⟩ := united_keep lawful (keyed s.inner List.mem_cons_self)
    fun d hd => keyed d (List.mem_cons_of_mem _ hd)
  have inner : firsts s.inner.keys = s.inner.keys := Keyed.foldl_keep_of_distinct distinct
  have listing : e.keys = firsts (s.frames.flatMap Dictionary.keys) := by
    rw [keys, frames, List.flatMap_cons, firsts, List.foldl_append]
    exact congrArg (List.foldl keep · _) inner.symm
  rw [size, all]
  refine congrArg Except.ok (e.size_eq_length_keys.trans ?_)
  rw [listing, listed]
  refine Keyed.length_firsts_of_mem_iff lawful (fun k hk => ?_) fun k => by simp
  obtain ⟨d, hd, mem⟩ := List.mem_flatMap.1 hk
  exact keyed d hd k mem

theorem get?_eq_found {k : Keyed} (own : K k) : s.get? k = .ok (s.found k) := by
  have through : ∀ ds : List Dictionary, (∀ d ∈ ds, ∀ k ∈ d.keys, K k) →
      find? k ds = .ok (ds.findSome? (·.found k)) := by
    intro ds keyed
    induction ds with
    | nil => rfl
    | cons d ds ih =>
        rw [List.forall_mem_cons] at keyed
        rw [find?, Dictionary.get?_eq_found lawful keyed.1 own, List.findSome?_cons, ih keyed.2]
        cases d.found k <;> rfl
  exact through s.frames keyed

theorem isSome_found {k : Keyed} (own : K k) :
    (s.found k).isSome = true ↔ ∃ l ∈ s.listed, l.same k = true := by
  simp only [found, List.findSome?_isSome_iff, Dictionary.isSome_found]
  constructor
  · rintro ⟨d, hd, l, hl, same⟩
    have all : ∀ k ∈ s.frames.reverse.flatMap Dictionary.keys, K k := fun k hk => by
      obtain ⟨e, he, mem⟩ := List.mem_flatMap.1 hk
      exact keyed e (List.mem_reverse.1 he) k mem
    obtain ⟨j, hj, like⟩ := Keyed.covered_foldl_keep lawful all [] l
      (List.mem_flatMap.2 ⟨d, List.mem_reverse.2 hd, hl⟩)
    obtain ⟨e, he, mem⟩ := mem_of_listed hj
    exact ⟨j, hj, lawful.trans (keyed e he j mem) (keyed d hd l hl) own like same⟩
  · rintro ⟨l, hl, same⟩
    obtain ⟨d, hd, mem⟩ := mem_of_listed hl
    exact ⟨d, hd, l, mem, same⟩

theorem found_congr {k l : Keyed} (hk : K k) (hl : K l) (same : k.same l = true) :
    s.found k = s.found l := by
  have alike : ∀ d ∈ s.frames, d.found k = d.found l := fun d hd =>
    Dictionary.found_congr lawful (keyed d hd) hk hl same
  rw [found, found, ← List.head?_filterMap, ← List.head?_filterMap, List.filterMap_congr alike]

theorem foldlM_show? {ks : List Keyed} (own : ∀ k ∈ ks, K k)
    (held : ∀ k ∈ ks, (s.found k).isSome = true) {d : Dictionary} (before : ∀ k ∈ d.keys, K k)
    (distinct : Distinct (d.keys ++ ks)) :
    ∃ e, ks.foldlM s.show? d = .ok e ∧
      e.toList = d.toList ++ ks.map fun k => ⟨k, (s.found k).getD .null⟩ := by
  induction ks generalizing d with
  | nil => exact ⟨d, rfl, (List.append_nil _).symm⟩
  | cons k ks ih =>
      rw [List.forall_mem_cons] at own held
      obtain ⟨v, value⟩ := Option.isSome_iff_exists.1 held.1
      have none : ∀ l ∈ d.keys, l.same k = false := fun l hl =>
        (List.pairwise_append.1 distinct).2.2 l hl k List.mem_cons_self
      obtain ⟨u, put, slots⟩ := Dictionary.put_of_none lawful before own.1 none v
      have keys : u.keys = d.keys ++ [k] := by
        rw [Dictionary.keys, slots, List.map_append]
        rfl
      have after : ∀ l ∈ u.keys, K l := by
        rw [keys]
        exact List.forall_mem_append.2 ⟨before, List.forall_mem_singleton.2 own.1⟩
      obtain ⟨e, rest, slots'⟩ := ih own.2 held.2 after (by rwa [keys, ← List.append_cons])
      have first : s.show? d k = .ok u := by
        rw [show?, get?_eq_found lawful keyed own.1, value]
        exact put
      refine ⟨e, by rw [List.foldlM_cons, first]; exact rest, ?_⟩
      rw [slots', slots, List.map_cons, value, ← List.append_cons]
      rfl

theorem visible_eq :
    ∃ d, s.visible = .ok d ∧ d.toList = s.listed.map fun k => ⟨k, (s.found k).getD .null⟩ := by
  have own := keyed_listed keyed
  have held : ∀ k ∈ s.listed, (s.found k).isSome = true := fun k hk =>
    (isSome_found lawful keyed (own k hk)).2 ⟨k, hk, lawful.same_self (own k hk)⟩
  obtain ⟨d, shown, slots⟩ := foldlM_show? lawful keyed own held (d := .empty)
    (List.forall_mem_nil K) (Keyed.distinct_firsts _)
  refine ⟨d, ?_, slots⟩
  rw [visible, symbols_eq lawful keyed]
  exact shown

theorem equals_eq (e : Dictionary) : s.equals e =
    if s.listed.length = e.keys.length
    then e.matched (s.listed.map fun k => ⟨k, (s.found k).getD .null⟩) else .ok false := by
  obtain ⟨d, shown, slots⟩ := visible_eq lawful keyed
  have size : d.size = s.listed.length := by
    rw [d.size_eq_length_keys, Dictionary.keys, slots, List.length_map, List.length_map]
  rw [equals, shown, ← slots, ← size, ← e.size_eq_length_keys]
  rfl

theorem equals_iff {e : Dictionary} (own : ∀ k ∈ e.keys, K k) (distinct : Distinct e.keys) :
    s.equals e = .ok true ↔ ∀ k, K k →
      Option.Rel (fun x y => x.equalsItem y = .ok true) (s.found k) (e.found k) := by
  have among := keyed_listed keyed
  have compared : s.equals e = .ok true ↔ s.listed.length = e.keys.length ∧ ∀ k ∈ s.listed,
      ∃ y, e.found k = some y ∧ ((s.found k).getD .null).equalsItem y = .ok true := by
    rw [equals_eq lawful keyed]
    split
    · rename_i lengths
      rw [Dictionary.matched_iff lawful own (by simpa using among), List.forall_mem_map]
      exact (and_iff_right lengths).symm
    · rename_i lengths
      simp [lengths]
  rw [compared]
  constructor
  · rintro ⟨lengths, matched⟩ k hk
    have covered : Covered s.listed e.keys := fun l hl => by
      obtain ⟨y, found, _⟩ := matched l hl
      exact Dictionary.isSome_found.1 (by rw [found]; rfl)
    -- The dictionary has as many symbols, so it has none besides those.
    have back := Keyed.covered_of_length_le lawful among own (Keyed.distinct_firsts _) covered
      lengths.ge
    cases here : s.found k with
    | some x =>
        obtain ⟨l, hl, same⟩ := (isSome_found lawful keyed hk).1 (by rw [here]; rfl)
        obtain ⟨y, found, equal⟩ := matched l hl
        rw [found_congr lawful keyed (among l hl) hk same, here] at equal
        rw [← Dictionary.found_congr lawful own (among l hl) hk same, found]
        exact .some equal
    | none =>
        cases there : e.found k with
        | none => exact .none
        | some y =>
            obtain ⟨m, hm, same⟩ := Dictionary.isSome_found.1 (by rw [there]; rfl)
            obtain ⟨l, hl, like⟩ := back m hm
            have some := (isSome_found lawful keyed hk).2
              ⟨l, hl, lawful.trans (among l hl) (own m hm) hk like same⟩
            rw [here] at some
            cases some
  · intro related
    have covered : Covered s.listed e.keys := fun l hl => by
      rw [← Dictionary.isSome_found, ← isSome_eq_of_rel (related l (among l hl)),
        isSome_found lawful keyed (among l hl)]
      exact ⟨l, hl, lawful.same_self (among l hl)⟩
    have back : Covered e.keys s.listed := fun m hm => by
      rw [← isSome_found lawful keyed (own m hm), isSome_eq_of_rel (related m (own m hm)),
        Dictionary.isSome_found]
      exact ⟨m, hm, lawful.same_self (own m hm)⟩
    refine ⟨?_, fun k hk => ?_⟩
    · exact Nat.le_antisymm
        (Keyed.length_le_of_covered lawful among own (Keyed.distinct_firsts _) covered)
        (Keyed.length_le_of_covered lawful own among distinct back)
    · have some := (isSome_found lawful keyed (among k hk)).2 ⟨k, hk, lawful.same_self (among k hk)⟩
      have relation := related k (among k hk)
      have found := isSome_eq_of_rel relation
      rw [some] at found
      obtain ⟨x, here⟩ := Option.isSome_iff_exists.1 some
      obtain ⟨y, there⟩ := Option.isSome_iff_exists.1 found.symm
      rw [here, there, Option.rel_some_some] at relation
      exact ⟨y, there, by rwa [here]⟩

end Lawful

/-- What the ways to read a table come to, for symbols of a class: all that is visible, each symbol
once and in this order, and what is stored under each. -/
structure Views (K : Keyed → Prop) (s : Scopes) (symbols : List Keyed)
    (value : Keyed → Option Datum) : Prop where
  iterated : s.symbols = .ok symbols
  distinct : Distinct symbols
  visible_iff {k : Keyed} : K k → ((value k).isSome = true ↔ ∃ l ∈ symbols, l.same k = true)
  counted : s.size = .ok symbols.length
  contained {k : Keyed} : K k → s.contains k.datum = .ok (value k).isSome
  indexed {k : Keyed} : K k → s.getOrFail k.datum =
    match value k with
    | some v => .ok v
    | none => .error (.missingKey k.datum)
  got {k : Keyed} (default : Datum) : K k → s.getOr k.datum default = .ok ((value k).getD default)
  lookedUp {k : Keyed} : K k → s.lookup k.datum = .ok ((value k).getD .null)
  paired : ∃ items, s.visible = .ok items ∧
    items.toList.map (fun t => (t.under, some t.value)) = symbols.map fun k => (k, value k)
  equal_iff {slots : List Slot} {e : Dictionary} : (∀ t ∈ slots, K t.under) →
    Dictionary.empty.putAll slots = .ok e →
    (s.equals e = .ok true ↔ ∀ k, K k → ∃ found, e.get? k = .ok found ∧
      Option.Rel (fun x y => x.equalsItem y = .ok true) (value k) found)
  compared {slots : List Slot} {e : Dictionary} : (∀ t ∈ slots, K t.under) →
    Dictionary.empty.putAll slots = .ok e →
    (∀ k, K k → ∀ x y, value k = some x → e.get? k = .ok (some y) → ∃ b, x.equalsItem y = .ok b) →
    ∃ b, s.equals e = .ok b

theorem views (lawful : Lawful K) (keyed : ∀ d ∈ s.frames, ∀ k ∈ d.keys, K k)
    (distinct : Distinct s.inner.keys) {value : Keyed → Option Datum}
    (told : ∀ k, K k → s.found k = value k) : Views K s s.listed value := by
  have among := keyed_listed keyed
  have sought {k : Keyed} (hk : K k) : s.get? k = .ok (value k) := by
    rw [get?_eq_found lawful keyed hk, told k hk]
  have seen {k : Keyed} (hk : K k) :
      (value k).isSome = true ↔ ∃ l ∈ s.listed, l.same k = true := by
    rw [← told k hk]
    exact isSome_found lawful keyed hk
  have put {slots : List Slot} {e : Dictionary} (own : ∀ t ∈ slots, K t.under)
      (built : Dictionary.empty.putAll slots = .ok e) :
      (∀ k ∈ e.keys, K k) ∧ Distinct e.keys := by
    have none : ∀ k ∈ Dictionary.empty.keys, K k := List.forall_mem_nil K
    obtain ⟨e', built', keys⟩ := Dictionary.putAll_keep lawful none own
    cases built.symm.trans built'
    rw [keys]
    refine ⟨fun k hk => ?_, Keyed.distinct_firsts _⟩
    have mem := (Keyed.mem_foldl_keep hk).resolve_left List.not_mem_nil
    obtain ⟨t, ht, rfl⟩ := List.mem_map.1 mem
    exact own t ht
  constructor
  case iterated => exact symbols_eq lawful keyed
  case distinct => exact Keyed.distinct_firsts _
  case visible_iff => exact seen
  case counted => exact size_eq lawful keyed distinct
  case contained =>
    intro k hk
    rw [contains, k.keyed_datum]
    exact congrArg (· >>= fun v => pure v.isSome) (sought hk)
  case indexed =>
    intro k hk
    rw [getOrFail, k.keyed_datum]
    simp only [bind, Except.bind, sought hk]
    cases value k <;> rfl
  case got =>
    intro k default hk
    rw [getOr, k.keyed_datum]
    exact congrArg (· >>= fun v => pure (v.getD default)) (sought hk)
  case lookedUp =>
    intro k hk
    rw [lookup, getOr, k.keyed_datum]
    exact congrArg (· >>= fun v => pure (v.getD .null)) (sought hk)
  case paired =>
    obtain ⟨items, shown, slots⟩ := visible_eq lawful keyed
    refine ⟨items, shown, ?_⟩
    rw [slots, List.map_map]
    refine List.map_congr_left fun k hk => ?_
    have held := (seen (among k hk)).2 ⟨k, hk, lawful.same_self (among k hk)⟩
    obtain ⟨v, here⟩ := Option.isSome_iff_exists.1 held
    simp [told k (among k hk), here]
  case equal_iff =>
    intro slots e own built
    obtain ⟨own', distinct'⟩ := put own built
    rw [equals_iff lawful keyed own' distinct']
    refine forall₂_congr fun k hk => ?_
    rw [Dictionary.get?_eq_found lawful own' hk, told k hk]
    simp
  case compared =>
    intro slots e own built answers
    obtain ⟨own', _⟩ := put own built
    rw [equals_eq lawful keyed]
    split
    · refine Dictionary.matched_answers lawful own' (by simpa using among) ?_
      rw [List.forall_mem_map]
      intro k hk y found
      have own := among k hk
      obtain ⟨x, here⟩ := Option.isSome_iff_exists.1 ((seen own).2 ⟨k, hk, lawful.same_self own⟩)
      rw [told k own, here]
      exact answers k own x y here (by rw [Dictionary.get?_eq_found lawful own' own, found])
    · exact ⟨false, rfl⟩

end Scopes

end ScopeResolution
