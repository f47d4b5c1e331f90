import ScopeResolution.Proofs.Datum.Lawful

namespace ScopeResolution

inductive Operation where
  | enter
  | exit
  | insert (symbol value : Datum)
  | fresh (symbol : Datum)

namespace Operation

def symbol? : Operation → Option Datum
  | .enter => none
  | .exit => none
  | .insert symbol _ => some symbol
  | .fresh symbol => some symbol

def Within (K : Keyed → Prop) (op : Operation) : Prop :=
  ∀ symbol ∈ op.symbol?, ∀ k, symbol.keyed = .ok k → K k

/-- How many scopes are entered and not left, with some before the operations; `none` if one is left
that was not entered. -/
def pending : List Operation → Nat → Option Nat
  | [], n => some n
  | .enter :: ops, n => pending ops (n + 1)
  | .exit :: ops, n => match n with
      | 0 => none
      | n + 1 => pending ops n
  | .insert _ _ :: ops, n => pending ops n
  | .fresh _ :: ops, n => pending ops n

end Operation

structure Entry where
  scope : Nat
  symbol : Keyed
  value : Datum

/-- The number of the innermost scope, those of the scopes around it, how many scopes were entered,
the last number taken for a name, and what was bound, the latest first. -/
structure History where
  scope : Nat
  around : List Nat
  entered : Nat
  taken : Nat
  entries : List Entry

namespace History

def initial : History := ⟨0, [], 0, 1, []⟩

def opened (h : History) : List Nat :=
  h.scope :: h.around

def add (k : Keyed) (value : Datum) (h : History) : History :=
  { h with entries := ⟨h.scope, k, value⟩ :: h.entries }

def record (symbol value : Datum) (h : History) : History :=
  match symbol.keyed with
  | .ok k => h.add k value
  | .error _ => h

def step (h : History) : Operation → History
  | .enter => { h with scope := h.entered + 1, around := h.opened, entered := h.entered + 1 }
  | .exit => match h.around with
      | [] => h
      | n :: rest => { h with scope := n, around := rest }
  | .insert symbol value => h.record symbol value
  | .fresh symbol =>
      let uid := h.taken + 1
      { h with taken := uid }.record symbol (.name symbol (.int uid))

def after (ops : List Operation) (h : History) : History :=
  ops.foldl step h

def sees (h : History) (s : Keyed) (e : Entry) : Bool :=
  h.opened.contains e.scope && e.symbol.same s

def latest (h : History) (s : Keyed) : Option Entry :=
  h.entries.find? (h.sees s)

def latestIn (h : History) (s : Keyed) (n : Nat) : Option Entry :=
  h.entries.find? fun e => e.scope == n && e.symbol.same s

/-- Scopes are entered in the order of their numbers, and bindings are made in the innermost one: an
earlier binding was made further out, unless its scope has been left. -/
structure Ordered (h : History) : Prop where
  inward : h.opened.Pairwise (· > ·)
  entered : ∀ n ∈ h.opened, n ≤ h.entered
  numbered : ∀ e ∈ h.entries, e.scope ≤ h.entered
  outward : h.entries.Pairwise fun e older => older.scope ∈ h.opened → older.scope ≤ e.scope

variable {h : History}

theorem record_of_keyed {symbol : Datum} {k : Keyed} (keyed : symbol.keyed = .ok k)
    (value : Datum) : h.record symbol value = h.add k value := by
  rw [record, keyed]

theorem record_of_unkeyed {symbol : Datum} {fault : Fault} (unkeyed : symbol.keyed = .error fault)
    (value : Datum) : h.record symbol value = h := by
  rw [record, unkeyed]

theorem step_exit_of_around {n : Nat} {rest : List Nat} (around : h.around = n :: rest) :
    h.step .exit = { h with scope := n, around := rest } := by
  rw [step, around]

theorem step_exit_outermost (around : h.around = []) : h.step .exit = h := by
  rw [step, around]

theorem step_exit_keeps (h : History) :
    (h.step .exit).entries = h.entries ∧ (h.step .exit).taken = h.taken := by
  cases around : h.around with
  | nil => rw [step_exit_outermost around]; exact ⟨rfl, rfl⟩
  | cons n rest => rw [step_exit_of_around around]; exact ⟨rfl, rfl⟩

theorem ordered_initial : initial.Ordered :=
  ⟨List.pairwise_singleton _ _, by simp [initial, opened], List.forall_mem_nil _, .nil⟩

namespace Ordered

theorem le_scope (ordered : h.Ordered) {n : Nat} (opened : n ∈ h.opened) : n ≤ h.scope := by
  rcases List.mem_cons.1 opened with innermost | outer
  · exact Nat.le_of_eq innermost
  · exact Nat.le_of_lt (List.rel_of_pairwise_cons ordered.inward outer)

theorem record (ordered : h.Ordered) (symbol value : Datum) : (h.record symbol value).Ordered := by
  cases keyed : symbol.keyed with
  | error fault => rwa [record_of_unkeyed keyed]
  | ok k =>
      rw [record_of_keyed keyed]
      refine ⟨ordered.inward, ordered.entered, ?_, List.pairwise_cons.2 ⟨?_, ordered.outward⟩⟩
      · exact List.forall_mem_cons.2 ⟨ordered.entered h.scope List.mem_cons_self, ordered.numbered⟩
      · exact fun older _ opened => ordered.le_scope opened

theorem enter (ordered : h.Ordered) : (h.step .enter).Ordered := by
  refine ⟨List.pairwise_cons.2 ⟨fun n hn => ?_, ordered.inward⟩, ?_, fun e he => ?_, ?_⟩
  · exact Nat.lt_succ_of_le (ordered.entered n hn)
  · refine List.forall_mem_cons.2 ⟨Nat.le_refl _, fun n hn => ?_⟩
    exact Nat.le_succ_of_le (ordered.entered n hn)
  · exact Nat.le_succ_of_le (ordered.numbered e he)
  · refine ordered.outward.imp_of_mem fun _ holder outward opened => ?_
    rcases List.mem_cons.1 opened with new | old
    · have numbered := ordered.numbered _ holder
      exact absurd (new ▸ numbered) (Nat.not_succ_le_self _)
    · exact outward old

theorem exit (ordered : h.Ordered) : (h.step .exit).Ordered := by
  cases around : h.around with
  | nil => rwa [step_exit_outermost around]
  | cons n rest =>
      have outer : ∀ m ∈ n :: rest, m ∈ h.opened := fun m hm => by simp [opened, around, hm]
      have inward : (h.scope :: n :: rest).Pairwise (· > ·) := around ▸ ordered.inward
      rw [step_exit_of_around around]
      refine ⟨(List.pairwise_cons.1 inward).2, fun m hm => ordered.entered m (outer m hm),
        ordered.numbered, ordered.outward.imp fun outward opened => ?_⟩
      exact outward (outer _ opened)

theorem step (ordered : h.Ordered) (op : Operation) : (h.step op).Ordered := by
  cases op with
  | enter => exact ordered.enter
  | exit => exact ordered.exit
  | insert symbol value => exact ordered.record symbol value
  | fresh symbol =>
      have taken : { h with taken := h.taken + 1 }.Ordered :=
        ⟨ordered.inward, ordered.entered, ordered.numbered, ordered.outward⟩
      exact taken.record symbol _

end Ordered

theorem find?_eq_findSome? (s : Keyed) {ns : List Nat} (inward : ns.Pairwise (· > ·))
    {entries : List Entry}
    (outward : entries.Pairwise fun e older => older.scope ∈ ns → older.scope ≤ e.scope) :
    entries.find? (fun e => ns.contains e.scope && e.symbol.same s) =
      ns.findSome? fun n => entries.find? fun e => e.scope == n && e.symbol.same s := by
  induction entries with
  | nil => exact (List.findSome?_eq_none_iff.2 fun _ _ => rfl).symm
  | cons e rest ih =>
      obtain ⟨first, outward⟩ := List.pairwise_cons.1 outward
      by_cases found : e.scope ∈ ns ∧ e.symbol.same s = true
      · obtain ⟨opened, same⟩ := found
        obtain ⟨within, around, rfl⟩ := List.append_of_mem opened
        have hit : ((e :: rest).find? fun f => f.scope == e.scope && f.symbol.same s) = some e := by
          simp [same]
        have passed : ∀ n ∈ within,
            ((e :: rest).find? fun f => f.scope == n && f.symbol.same s) = none := by
          intro n hn
          -- nothing older than this entry was made further in
          have further : e.scope < n :=
            (List.pairwise_append.1 inward).2.2 n hn e.scope List.mem_cons_self
          refine List.find?_eq_none.2 (List.forall_mem_cons.2 ⟨?_, fun older holder => ?_⟩)
          · simp [Nat.ne_of_lt further]
          · have nearer := first older holder
            grind
        rw [List.findSome?_eq_some_iff.2 ⟨within, e.scope, around, rfl, hit, passed⟩]
        simp [same]
      · rw [List.find?_cons_of_neg (by simpa using found), ih outward]
        rw [← List.head?_filterMap, ← List.head?_filterMap]
        refine congrArg List.head? (List.filterMap_congr fun n hn => ?_)
        rw [List.find?_cons_of_neg]
        intro here
        simp only [Bool.and_eq_true, beq_iff_eq] at here
        exact found ⟨here.1 ▸ hn, here.2⟩

theorem Ordered.latest_eq (ordered : h.Ordered) (s : Keyed) :
    h.latest s = h.opened.findSome? (h.latestIn s) :=
  find?_eq_findSome? s ordered.inward ordered.outward

theorem record_adds (h : History) (symbol value : Datum) :
    (h.record symbol value).opened = h.opened ∧
      ∃ newer, (h.record symbol value).entries = newer ++ h.entries ∧
        ∀ e ∈ newer, e.scope = h.scope := by
  cases keyed : symbol.keyed with
  | error fault =>
      rw [record_of_unkeyed keyed]
      exact ⟨rfl, [], rfl, List.forall_mem_nil _⟩
  | ok k =>
      rw [record_of_keyed keyed]
      exact ⟨rfl, [⟨h.scope, k, value⟩], rfl, List.forall_mem_singleton.2 rfl⟩

theorem Ordered.step_of_pending (ordered : h.Ordered) {op : Operation} {ops : List Operation}
    {within around : List Nat} {n m : Nat} (opened : h.opened = within ++ n :: around)
    (stays : Operation.pending (op :: ops) within.length = some m) :
    ∃ within' newer, (h.step op).opened = within' ++ n :: around ∧
      Operation.pending ops within'.length = some m ∧
      (h.step op).entries = newer ++ h.entries ∧ ∀ e ∈ newer, n ≤ e.scope := by
  have innermost : n ≤ h.scope := ordered.le_scope (by simp [opened])
  cases op with
  | enter =>
      exact ⟨(h.entered + 1) :: within, [], congrArg _ opened, stays, rfl, List.forall_mem_nil _⟩
  | exit =>
      cases within with
      | nil => cases stays
      | cons w within =>
          have outer : h.around = within ++ n :: around := (List.cons.inj opened).2
          obtain ⟨first, rest, split⟩ := List.exists_cons_of_ne_nil
            (List.append_ne_nil_of_right_ne_nil within (List.cons_ne_nil n around))
          rw [step_exit_of_around (outer.trans split)]
          exact ⟨within, [], split.symm, stays, rfl, List.forall_mem_nil _⟩
  | insert symbol value =>
      obtain ⟨same, newer, entries, here⟩ := h.record_adds symbol value
      exact ⟨within, newer, same.trans opened, stays, entries, fun e he => here e he ▸ innermost⟩
  | fresh symbol =>
      obtain ⟨same, newer, entries, here⟩ := { h with taken := h.taken + 1 }.record_adds symbol
        (.name symbol (.int (h.taken + 1 : Nat)))
      exact ⟨within, newer, same.trans opened, stays, entries, fun e he => here e he ▸ innermost⟩

theorem Ordered.after_of_pending (ordered : h.Ordered) {ops : List Operation}
    {within around : List Nat} {n m : Nat} (opened : h.opened = within ++ n :: around)
    (stays : Operation.pending ops within.length = some m) :
    ∃ within' newer, (h.after ops).opened = within' ++ n :: around ∧ within'.length = m ∧
      (h.after ops).entries = newer ++ h.entries ∧ ∀ e ∈ newer, n ≤ e.scope := by
  induction ops generalizing h within with
  | nil =>
      cases stays
      exact ⟨within, [], opened, rfl, rfl, List.forall_mem_nil _⟩
  | cons op ops ih =>
      obtain ⟨within₁, newer₁, opened₁, stays₁, entries₁, inner₁⟩ :=
        ordered.step_of_pending opened stays
      obtain ⟨within₂, newer₂, opened₂, count, entries₂, inner₂⟩ :=
        ih (ordered.step op) opened₁ stays₁
      refine ⟨within₂, newer₂ ++ newer₁, opened₂, count, ?_, ?_⟩
      · exact entries₂.trans (by rw [entries₁, List.append_assoc])
      · exact List.forall_mem_append.2 ⟨inner₂, inner₁⟩

theorem after_append (ops ops' : List Operation) (h : History) :
    h.after (ops ++ ops') = (h.after ops).after ops' :=
  List.foldl_append

theorem Ordered.after (ordered : h.Ordered) (ops : List Operation) : (h.after ops).Ordered := by
  induction ops generalizing h with
  | nil => exact ordered
  | cons op ops ih => exact ih (ordered.step op)

theorem Ordered.latest_of_left (ordered : h.Ordered) {inner : List Operation}
    (closed : Operation.pending inner 0 = some 0) (s : Keyed) :
    (((h.step .enter).after inner).step .exit).latest s = h.latest s := by
  obtain ⟨within, newer, opened, count, entries, further⟩ :=
    ordered.enter.after_of_pending
      (show (h.step .enter).opened = [] ++ (h.entered + 1) :: h.opened from rfl) closed
  rw [List.length_eq_zero_iff.1 count] at opened
  obtain ⟨_, around⟩ := List.cons.inj opened
  have gone : ∀ e ∈ newer, e.scope ∉ h.opened := fun e he opened =>
    absurd (Nat.le_trans (further e he) (ordered.entered _ opened)) (Nat.not_succ_le_self _)
  have unseen : newer.find? (h.sees s) = none :=
    List.find?_eq_none.2 fun e he => by simp [sees, gone e he]
  rw [step_exit_of_around around]
  show List.find? (h.sees s) _ = _
  rw [entries, List.find?_append, unseen]
  rfl

theorem step_of_symbol? (h : History) {op : Operation} {k : Keyed}
    (binds : op.symbol? = some k.datum) :
    ∃ e : Entry, e.scope = h.scope ∧ e.symbol = k ∧ (h.step op).opened = h.opened ∧
      (h.step op).entries = e :: h.entries := by
  cases op with
  | enter => cases binds
  | exit => cases binds
  | insert symbol value =>
      cases binds
      rw [step, record_of_keyed k.keyed_datum]
      exact ⟨_, rfl, rfl, rfl, rfl⟩
  | fresh symbol =>
      cases binds
      rw [step, record_of_keyed k.keyed_datum]
      exact ⟨_, rfl, rfl, rfl, rfl⟩

theorem Ordered.latest_of_pending (ordered : h.Ordered) {op : Operation} {inner : List Operation}
    {k s : Keyed} {m : Nat} (binds : op.symbol? = some k.datum) (same : k.same s = true)
    (stays : Operation.pending inner 0 = some m) :
    ∃ newer, ((h.step op).after inner).entries = newer ++ h.entries ∧
      ∃ e ∈ newer, e.symbol.same s = true ∧ ((h.step op).after inner).latest s = some e := by
  obtain ⟨first, scope, symbol, opened, bound⟩ := h.step_of_symbol? binds
  obtain ⟨within, newer, opened', _, entries, _⟩ := (ordered.step op).after_of_pending
    (show (h.step op).opened = [] ++ h.scope :: h.around from opened) stays
  have split : ((h.step op).after inner).entries = (newer ++ [first]) ++ h.entries := by
    rw [entries, bound, List.append_assoc]
    rfl
  have seen : ((h.step op).after inner).sees s first = true := by
    simp [sees, opened', scope, symbol, same]
  have shadowing : ((newer ++ [first]).find? (((h.step op).after inner).sees s)).isSome :=
    List.find?_isSome.2 ⟨first, by simp, seen⟩
  obtain ⟨e, found⟩ := Option.isSome_iff_exists.1 shadowing
  have seen' := List.find?_some found
  simp only [sees, Bool.and_eq_true] at seen'
  refine ⟨_, split, e, List.mem_of_find?_eq_some found, seen'.2, ?_⟩
  rw [latest, split, List.find?_append, found]
  rfl

theorem latestIn_add_self (k : Keyed) (value : Datum) (h : History) (s : Keyed) :
    ((h.add k value).latestIn s h.scope).map (·.value) =
      if k.same s then some value else (h.latestIn s h.scope).map (·.value) := by
  cases same : k.same s <;> simp [latestIn, add, same]

theorem latestIn_add_of_ne {n : Nat} (apart : n ≠ h.scope) (k : Keyed) (value : Datum) (s : Keyed) :
    (h.add k value).latestIn s n = h.latestIn s n :=
  List.find?_cons_of_neg (by simp [apart.symm])

def lookup (h : History) (s : Keyed) : Datum :=
  ((h.latest s).map (·.value)).getD .null

end History

end ScopeResolution
