import Mathlib.Data.List.Sort
import ScopeResolution.Names.Listing
import ScopeResolution.Proofs.Names.Free
import ScopeResolution.Proofs.Scoping.Taken

namespace ScopeResolution

open Datum

namespace Name

def text (n : Name) : String :=
  n.symbol.datum.display

theorem displayed_datum (n : Name) : n.datum.displayed = .ok n.text :=
  displayed_of_regular n.entry.regular

theorem shownAs_text (n : Name) : n.symbol.datum.ShownAs n.text :=
  (displayed_eq_ok_iff n.text n.datum).1 n.displayed_datum

def row (n : Name) : String :=
  Text.alignRight 4 (toString n.uid) ++ " " ++ n.text

/-- The line shows the number at the end of four columns, and then the symbol. -/
def LinedAs (n : Name) (line : String) : Prop :=
  ∃ shown, n.symbol.datum.ShownAs shown ∧
    line.toList = List.replicate (4 - (toString n.uid).length) ' ' ++ (toString n.uid).toList ++
      ' ' :: shown.toList

theorem linedAs_row (n : Name) : n.LinedAs n.row :=
  ⟨n.text, n.shownAs_text, by simp [row, Text.alignRight]⟩

def numberedDatum (n : Name) : Datum × Datum :=
  (.int n.uid, n.datum)

theorem withUid_datum (n : Name) : Names.withUid n.datum = .ok n.numberedDatum := by
  simp [Names.withUid, numberedDatum, datum, getAttribute, attribute?, bind, Except.bind, pure,
    Except.pure]

theorem line_numberedDatum (n : Name) : Names.line n.numberedDatum = .ok n.row := by
  simp only [Names.line, numberedDatum, Names.column, n.displayed_datum, bind, Except.bind, pure,
    Except.pure]
  rfl

end Name

theorem mapM_ok {α β : Type} {f : α → Except Fault β} {g : α → β} (h : ∀ a, f a = .ok (g a))
    (xs : List α) : xs.mapM f = .ok (xs.map g) := by
  rw [funext h]
  exact List.mapM_pure

namespace Names

def byUid (ns : List Name) : List Name :=
  ns.mergeSort fun n m => decide (n.uid ≤ m.uid)

theorem ascending_numbered (ns : List Name) :
    ascending (ns.map Name.numberedDatum) = .ok ((byUid ns).map Name.numberedDatum) := by
  have numbered : (ns.map Name.numberedDatum).mapM integerUid? =
      some (ns.map fun n => ((n.uid : Int), n.datum)) := by
    rw [List.mapM_map]
    exact List.mapM_pure
  have sorted : (ns.map fun n => ((n.uid : Int), n.datum)).mergeSort
      (fun a b => decide (a.1 ≤ b.1)) = (byUid ns).map fun n => ((n.uid : Int), n.datum) := by
    rw [byUid, List.map_mergeSort]
    simp
  rw [ascending, numbered]
  simp only [sorted, List.map_map]
  rfl

theorem pairwise_byUid {ns : List Name} (distinct : (ns.map Name.uid).Nodup) :
    (byUid ns).Pairwise fun n m => n.uid < m.uid := by
  have perm : (byUid ns).Perm ns := List.mergeSort_perm ns _
  have weak : (byUid ns).Pairwise fun n m => decide (n.uid ≤ m.uid) = true :=
    List.pairwise_mergeSort (fun a b c => by simpa using Nat.le_trans)
      (fun a b => by simpa using Nat.le_total a.uid b.uid) ns
  have apart : ((byUid ns).map Name.uid).Nodup := (perm.map Name.uid).nodup_iff.2 distinct
  rw [List.Nodup, List.pairwise_map] at apart
  exact (weak.and apart).imp fun both => by
    have le := of_decide_eq_true both.1
    have ne := both.2
    omega

theorem sortedTexts_perm (ss : List String) : (sortedTexts ss).Perm ss :=
  List.mergeSort_perm ss _

theorem pairwise_sortedTexts (ss : List String) : (sortedTexts ss).Pairwise (· ≤ ·) := by
  have le_iff (a b : String) : (!decide (b < a)) = true ↔ a ≤ b := by
    rw [Bool.not_eq_true', decide_eq_false_iff_not, String.not_lt]
  have sorted : (sortedTexts ss).Pairwise fun a b => (!decide (b < a)) = true := by
    refine List.pairwise_mergeSort (fun a b c first second => ?_) (fun a b => ?_) ss
    · rw [le_iff] at *
      exact String.le_trans first second
    · rw [Bool.or_eq_true, le_iff, le_iff]
      exact String.le_total a b
  exact sorted.imp fun h => (le_iff _ _).1 h

/-- The lines are one for each name that is bound at a site and is not global, in the order of the
numbers, and then one with the texts of the global names that are referred to, in order, if there
are any. -/
structure Lists (lines : List String) (sites : List (Role × Name)) (locals free : List Name)
    (texts : List String) : Prop where
  lines : ∃ rows, List.Forall₂ Name.LinedAs locals rows ∧ lines = rows ++
    if ∃ p ∈ sites, p.1 = .load ∧ p.2.uid = 0 then ["free: " ++ " ".intercalate texts] else []
  ascending : locals.Pairwise fun n m => n.uid < m.uid
  mem_locals : ∀ n, n ∈ locals ↔ (Role.bind, n) ∈ sites ∧ n.uid ≠ 0
  free_at : ∀ n ∈ free, (Role.load, n) ∈ sites ∧ n.uid = 0
  free_apart : (free.map Name.essence).Nodup
  free_all : ∀ n, (Role.load, n) ∈ sites → n.uid = 0 → ∃ m ∈ free, m.essence = n.essence
  shown : ∃ ts, List.Forall₂ (fun n : Name => n.symbol.datum.ShownAs) free ts ∧ texts.Perm ts
  texts_sorted : texts.Pairwise (· ≤ ·)

theorem freeLine_eq {ns : List Name} {P : Prop} [Decidable P] (h : ns ≠ [] ↔ P) :
    freeLine (ns.map Name.text) =
      if P then ["free: " ++ " ".intercalate (sortedTexts (ns.map Name.text))] else [] := by
  cases ns with
  | nil => exact (if_neg fun p => h.2 p rfl).symm
  | cons n ns => exact (if_pos (h.1 (List.cons_ne_nil n ns))).symm

theorem mem_asked_one {role : Role} {sites : List (Role × Name)} {n : Name} :
    n ∈ NameSet.asked (.one role) sites ↔ (role, n) ∈ sites := by
  simp [NameSet.asked, Roles.asksFor]

theorem nodup_uids {js : List Name} {P : Name → Prop} (among : ∀ j ∈ js, P j)
    (told : ∀ n m, P n → P m → n.uid = m.uid → n = m) (apart : (js.map Name.essence).Nodup) :
    (js.map Name.uid).Nodup :=
  (List.Nodup.of_map _ apart).map_on fun n hn m hm => told n m (among n hn) (among m hm)

theorem lists_of_collects {d : Datum} {places : List (Place Name)} (collects : Collects d places)
    (silent : ∀ v ∈ places.filterMap Place.exposed?, v.Silent) {taken : List Name}
    (distinct : (taken.map Name.uid).Nodup)
    (known : ∀ n, (Role.bind, n) ∈ places.filterMap Place.identifier? → n.uid ≠ 0 → n ∈ taken) :
    ∃ lines locals free texts, listing d = .ok lines ∧
      Lists lines (places.filterMap Place.identifier?) locals free texts := by
  have told : ∀ n m : Name, n ∈ taken → m ∈ taken → n.uid = m.uid → n = m :=
    fun n m hn hm => List.inj_on_of_nodup_map distinct hn hm
  obtain ⟨s, collected, holds⟩ := collects.exact silent (.one .bind)
  obtain ⟨t, selected, js, listed, among, apart, all⟩ := holds.select false
  obtain ⟨u, references, free, listed', among', apart', all'⟩ := collects.globals silent
  have bound : d.localBindings = .ok t := by
    simp [localBindings, collected, selected, bind, Except.bind]
  have site : ∀ j ∈ js, (Role.bind, j) ∈ places.filterMap Place.identifier? ∧ j.uid ≠ 0 := by
    intro j hj
    have chosen := among hj
    simpa [mem_asked_one] using chosen
  have among_taken : ∀ j ∈ js, j ∈ taken := fun j hj => known j (site j hj).1 (site j hj).2
  -- The set holds unequal names, and among the names taken unequal ones have unequal numbers.
  have uids : (js.map Name.uid).Nodup := nodup_uids among_taken told apart
  have global : ∀ n ∈ free, (Role.load, n) ∈ places.filterMap Place.identifier? ∧ n.uid = 0 := by
    intro n hn
    simpa [mem_asked_one] using among' hn
  have reached : ∀ n, (Role.load, n) ∈ places.filterMap Place.identifier? → n.uid = 0 →
      ∃ m ∈ free, m.essence = n.essence := by
    intro n mem zero
    exact all' n (List.mem_filter.2 ⟨mem_asked_one.2 mem, decide_eq_true zero⟩)
  have some : free ≠ [] ↔
      ∃ p ∈ places.filterMap Place.identifier?, p.1 = .load ∧ p.2.uid = 0 := by
    rw [← List.length_pos_iff, List.length_pos_iff_exists_mem]
    constructor
    · rintro ⟨n, hn⟩
      exact ⟨(.load, n), (global n hn).1, rfl, (global n hn).2⟩
    · rintro ⟨⟨role, n⟩, mem, rfl, zero⟩
      obtain ⟨m, hm, _⟩ := reached n mem zero
      exact ⟨m, hm⟩
  have rows : List.Forall₂ Name.LinedAs (byUid js) ((byUid js).map Name.row) :=
    List.forall₂_map_right_iff.2 (List.forall₂_same.2 fun n _ => n.linedAs_row)
  have shown : List.Forall₂ (fun n : Name => n.symbol.datum.ShownAs) free (free.map Name.text) :=
    List.forall₂_map_right_iff.2 (List.forall₂_same.2 fun n _ => n.shownAs_text)
  refine ⟨_, byUid js, free, sortedTexts (free.map Name.text), ?_, ⟨_, rows, rfl⟩,
    pairwise_byUid uids, ?_, global, apart', reached, ⟨_, shown, sortedTexts_perm _⟩,
    pairwise_sortedTexts _⟩
  · have rows : (js.map Name.datum).mapM withUid = .ok (js.map Name.numberedDatum) := by
      rw [List.mapM_map]
      exact mapM_ok Name.withUid_datum js
    have lines : ((byUid js).map Name.numberedDatum).mapM line = .ok ((byUid js).map Name.row) := by
      rw [List.mapM_map]
      exact mapM_ok Name.line_numberedDatum (byUid js)
    have texts : (free.map Name.datum).mapM displayed = .ok (free.map Name.text) := by
      rw [List.mapM_map]
      exact mapM_ok Name.displayed_datum free
    simp [listing, bound, listed, rows, ascending_numbered, lines, references, listed', texts,
      freeLine_eq some, bind, Except.bind, pure, Except.pure]
  · intro n
    have same : n ∈ byUid js ↔ n ∈ js := (List.mergeSort_perm js _).mem_iff
    refine same.trans ⟨site n, fun here => ?_⟩
    obtain ⟨mem, nonzero⟩ := here
    obtain ⟨j, hj, like⟩ := all n (List.mem_filter.2 ⟨mem_asked_one.2 mem, by simpa using nonzero⟩)
    have uid := ((j.essence_eq_iff n).1 like).2
    exact told j n (among_taken j hj) (known n mem nonzero) uid ▸ hj

theorem eq_range_iff {ls us : List Nat} {k : Nat} (ascending : ls.Pairwise (· < ·))
    (same : ∀ u, u ∈ ls ↔ u ∈ us) (among : us ⊆ List.range' 2 k) (length : us.length = k) :
    ls = List.range' 2 k ↔ us.Nodup := by
  have size : (List.range' 2 k).length = us.length := by rw [List.length_range', length]
  constructor
  · intro whole
    have covered : List.range' 2 k ⊆ us := fun u hu => (same u).1 (whole ▸ hu)
    have perm := (List.subperm_of_subset List.nodup_range' covered).perm_of_length_le size.ge
    exact perm.nodup_iff.1 List.nodup_range'
  · intro nodup
    have perm := (List.subperm_of_subset nodup among).perm_of_length_le size.le
    refine ascending.eq_of_mem_iff List.pairwise_lt_range' fun u => ?_
    rw [same, perm.mem_iff]

theorem locals_eq_range_iff {lines texts : List String} {sites : List (Role × Name)}
    {locals free bs : List Name} {xs : List Symbol} (h : Lists lines sites locals free texts)
    (bound : ∀ n : Name, n.uid ≠ 0 → ((Role.bind, n) ∈ sites ↔ n ∈ bs))
    (among : bs ⊆ Name.numbered 1 xs) (length : bs.length = xs.length) :
    locals.map Name.uid = List.range' 2 xs.length ↔ (bs.map Name.uid).Nodup := by
  have within : bs.map Name.uid ⊆ List.range' 2 xs.length :=
    Name.map_uid_numbered 1 xs ▸ List.map_subset _ among
  have positive : ∀ n ∈ bs, n.uid ≠ 0 := fun n hn => by
    have least := (List.mem_range'_1.1 (within (List.mem_map_of_mem hn))).1
    omega
  have same : ∀ n, n ∈ locals ↔ n ∈ bs := fun n => (h.mem_locals n).trans
    ⟨fun ⟨mem, nonzero⟩ => (bound n nonzero).1 mem,
      fun mem => ⟨(bound n (positive n mem)).2 mem, positive n mem⟩⟩
  have ascending : (locals.map Name.uid).Pairwise (· < ·) := List.pairwise_map.2 h.ascending
  refine eq_range_iff ascending (fun u => ?_) within (by rw [List.length_map, length])
  simp only [List.mem_map, same]

def ListedFaithfully (d : Datum) (sites : List (Role × Name)) (last : Nat) (settled : Prop) :
    Prop :=
  ∃ lines locals free texts, listing d = .ok lines ∧ Lists lines sites locals free texts ∧
    (locals.map Name.uid = List.range' 2 (last - 1) ↔ settled)

theorem listed_of_collects {d : Datum} {places : List (Place Name)} {bs : List Name}
    {xs : List Symbol} (collects : Collects d places)
    (silent : ∀ v ∈ places.filterMap Place.exposed?, v.Silent)
    (bound : ∀ n : Name, n.uid ≠ 0 → ((Role.bind, n) ∈ places.filterMap Place.identifier? ↔ n ∈ bs))
    (among : bs ⊆ Name.numbered 1 xs) (length : bs.length = xs.length) :
    ListedFaithfully d (places.filterMap Place.identifier?) (1 + bs.length)
      (bs.map Name.uid).Nodup := by
  have distinct : ((Name.numbered 1 xs).map Name.uid).Nodup := by
    rw [Name.map_uid_numbered]
    exact List.nodup_range'
  obtain ⟨lines, locals, free, texts, listed, lists⟩ := lists_of_collects collects silent distinct
    fun n mem nonzero => among ((bound n nonzero).1 mem)
  refine ⟨lines, locals, free, texts, listed, lists, ?_⟩
  rw [Nat.add_sub_cancel_left, length]
  exact locals_eq_range_iff lists bound among length

theorem listed_resolve {t : Phrase Symbol (.one .expression)} (plain : t.Plain)
    (located : ∀ v ∈ t.exposed, LocationsOnly v) :
    ListedFaithfully (t.resolve .initial).1.datum (t.resolve .initial).1.sites
      (1 + t.binders.length) t.scoping.Settled := by
  have silent : ∀ v ∈ (t.resolve .initial).1.exposed, v.Silent :=
    fun v hv => (located v (t.exposed_resolve .initial ▸ hv)).silent
  have binders : (t.resolve .initial).1.binders = (t.scoping.resolve .initial).1.binders := by
    rw [Phrase.binders, (t.scoping_resolve .initial).1]
  have length := t.scoping.length_binders_resolve
  have settled : ((t.scoping.resolve .initial).1.binders.map Name.uid).Nodup ↔ t.scoping.Settled :=
    Scoping.nodup_uids_iff Context.sound_initial
  have listed := listed_of_collects (collects_resolve t plain) silent
    (t.bind_mem_sites_iff .initial) (binders ▸ t.scoping.binders_subset_numbered)
    (by rw [binders, length, t.scoping.length_allocated])
  rw [binders, length, ← t.scoping.length_binders_whole, propext settled] at listed
  exact listed

theorem nodup_name_binders_iff (m : Module Symbol) :
    (((m.resolve .initial).1.name :: (m.resolve .initial).1.binders).map Name.uid).Nodup ↔
      m.scoping.Settled := by
  have settled : ((m.scoping.resolve .initial).1.binders.map Name.uid).Nodup ↔ m.scoping.Settled :=
    Scoping.nodup_uids_iff Context.sound_initial
  have last := m.last_resolve .initial
  have name : (m.resolve .initial).1.name.uid = (m.resolve .initial).2.last := rfl
  have earlier : (m.resolve .initial).1.name.uid ∉
      (m.scoping.resolve .initial).1.binders.map Name.uid := by
    intro mem
    obtain ⟨n, hn, same⟩ := List.mem_map.1 mem
    have older := Scoping.uid_le_of_mem_binders Context.sound_initial hn
    rw [Scoping.last_resolve] at older
    omega
  rw [List.map_cons, List.nodup_cons, Module.binders, m.scoping_resolve .initial,
    and_iff_right earlier]
  exact settled

theorem listed_resolve_module {m : Module Symbol} (plain : m.Plain)
    (located : ∀ v ∈ m.exposed, LocationsOnly v) :
    ListedFaithfully (m.resolve .initial).1.datum (m.resolve .initial).1.sites
      (1 + (m.name :: m.binders).length) m.scoping.Settled := by
  have silent : ∀ v ∈ (m.resolve .initial).1.exposed, v.Silent :=
    fun v hv => (located v (m.exposed_resolve .initial ▸ hv)).silent
  have binders : (m.resolve .initial).1.binders = (m.scoping.resolve .initial).1.binders := by
    rw [Module.binders, m.scoping_resolve .initial]
  have length := m.scoping.length_binders_resolve
  have same : ((m.resolve .initial).1.name :: (m.resolve .initial).1.binders).length =
      (m.name :: m.binders).length := by
    rw [List.length_cons, List.length_cons, binders, length, Module.binders,
      Scoping.length_binders_whole]
  have listed := listed_of_collects (collects_resolve_module m plain) silent m.bind_mem_sites_iff
    m.binders_subset_numbered
    (by rw [List.length_cons, binders, length, List.length_append, m.scoping.length_allocated]; rfl)
  rw [same, propext (nodup_name_binders_iff m)] at listed
  exact listed

theorem listing_renamed (e : Phrase Symbol (.one .expression)) (type location : Datum)
    (m : Module Symbol) (w : Workspace) (plain : (e.typed type location).Plain) (plain' : m.Plain)
    (located : ∀ v ∈ (e.typed type location).exposed, LocationsOnly v)
    (located' : ∀ v ∈ m.exposed, LocationsOnly v) :
    (∃ w', Pass.rename.apply (e.typed type location).datum w =
        (.ok ((e.typed type location).resolve .initial).1.datum, w') ∧
      w'.lastUid = .ok (some (.int (1 + (e.typed type location).binders.length : Nat))) ∧
      ListedFaithfully ((e.typed type location).resolve .initial).1.datum
        ((e.typed type location).resolve .initial).1.sites
        (1 + (e.typed type location).binders.length) (e.typed type location).scoping.Settled) ∧
    ∃ w', Pass.rename.apply m.datum w = (.ok (m.resolve .initial).1.datum, w') ∧
      w'.lastUid = .ok (some (.int (1 + (m.name :: m.binders).length : Nat))) ∧
      ListedFaithfully (m.resolve .initial).1.datum (m.resolve .initial).1.sites
        (1 + (m.name :: m.binders).length) m.scoping.Settled := by
  constructor
  · obtain ⟨w', done, notes⟩ := Pass.notes_typed (e.typed type location) rfl w
    exact ⟨w', done, notes.noted, listed_resolve plain located⟩
  · obtain ⟨w', done, notes⟩ := Pass.notes_module m w
    exact ⟨w', done, notes.noted, listed_resolve_module plain' located'⟩

theorem overtakenGroup_listed :
    let tree := ((Pass.overtakenGroup.typed .null .null).resolve .initial).1
    let module := (leakingModule.resolve .initial).1
    (∃ lines locals free texts, listing tree.datum = .ok lines ∧
      Lists lines tree.sites locals free texts ∧ locals.map Name.uid ≠ [2, 3, 4]) ∧
    ∃ lines locals free texts, listing module.datum = .ok lines ∧
      Lists lines module.sites locals free texts ∧ locals.map Name.uid = [2, 3] := by
  have location : LocationsOnly (Phrase.node .location [.int 1, .int 2, .int 0]) :=
    fun d hd => ⟨1, 2, 0, List.mem_singleton.1 hd⟩
  have nothing : LocationsOnly .null ∧ LocationsOnly (.int 0) :=
    ⟨fun _ hd => (nomatch hd), fun _ hd => nomatch hd⟩
  have located : ∀ v ∈ (Pass.overtakenGroup.typed .null .null).exposed, LocationsOnly v := by
    have exposed : (Pass.overtakenGroup.typed .null .null).exposed =
      [.null, .int 0, .null, .int 0] := rfl
    simp [exposed, nothing]
  have located' : ∀ v ∈ leakingModule.exposed, LocationsOnly v := by
    have exposed : leakingModule.exposed = [.null, .null, .null, .int 0,
      Phrase.node .location [.int 1, .int 2, .int 0], .null, .int 0, .null, .null, .null] := rfl
    simp [exposed, location, nothing]
  have doubled : ¬ (Pass.overtakenGroup.typed .null .null).scoping.Settled := fun settled =>
    absurd settled.1.1 (by decide)
  have captureFree : leakingModule.scoping.CaptureFree := by decide
  have settled := Scoping.settled_of_captureFree captureFree (by simp)
  have plain : ∀ p ∈ (Pass.overtakenGroup.typed .null .null).sites,
    p.2.datum.isNode = false := by decide
  have plain' : ∀ p ∈ leakingModule.sites, p.2.datum.isNode = false := by decide
  obtain ⟨⟨_, _, _, tree⟩, _, _, _, module⟩ := listing_renamed Pass.overtakenGroup .null .null
    leakingModule .empty plain plain' located located'
  obtain ⟨lines, locals, free, texts, listed, lists, whole⟩ := tree
  obtain ⟨lines', locals', free', texts', listed', lists', whole'⟩ := module
  exact ⟨⟨lines, locals, free, texts, listed, lists, mt whole.1 doubled⟩,
    lines', locals', free', texts', listed', lists', whole'.2 settled⟩

end Names

end ScopeResolution
