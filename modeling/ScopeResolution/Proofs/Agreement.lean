import ScopeResolution.Proofs.Views

namespace ScopeResolution

open Keyed (Lawful keep firsts Distinct)

namespace History

variable {h : History} {K : Keyed → Prop}

def boundIn (h : History) (n : Nat) : List Keyed :=
  ((h.entries.filter fun e => e.scope == n).map (·.symbol)).reverse

def bound (h : History) : List Keyed :=
  h.opened.reverse.flatMap h.boundIn

def value (h : History) (s : Keyed) : Option Datum :=
  h.opened.findSome? fun n => (h.latestIn s n).map (·.value)

theorem boundIn_add_self (k : Keyed) (v : Datum) (h : History) :
    (h.add k v).boundIn h.scope = h.boundIn h.scope ++ [k] := by
  simp [boundIn, add]

theorem boundIn_add_of_ne {n : Nat} (apart : n ≠ h.scope) (k : Keyed) (v : Datum) :
    (h.add k v).boundIn n = h.boundIn n := by
  simp [boundIn, add, apart.symm]

def Within (K : Keyed → Prop) (h : History) : Prop :=
  ∀ e ∈ h.entries, K e.symbol

theorem within_record (within : h.Within K) {symbol : Datum}
    (own : ∀ k, symbol.keyed = .ok k → K k) (v : Datum) : (h.record symbol v).Within K := by
  cases keyed : symbol.keyed with
  | error fault => rwa [record_of_unkeyed keyed]
  | ok k =>
      rw [record_of_keyed keyed]
      exact List.forall_mem_cons.2 ⟨own k keyed, within⟩

theorem within_step (within : h.Within K) {op : Operation} (own : op.Within K) :
    (h.step op).Within K := by
  cases op with
  | enter => exact within
  | exit =>
      rw [Within, h.step_exit_keeps.1]
      exact within
  | insert symbol v => exact within_record within (own symbol rfl) v
  | fresh symbol =>
      have taken : { h with taken := h.taken + 1 }.Within K := within
      exact within_record taken (own symbol rfl) _

theorem within_after (within : h.Within K) {ops : List Operation} (own : ∀ op ∈ ops, op.Within K) :
    (h.after ops).Within K := by
  induction ops generalizing h with
  | nil => exact within
  | cons op ops ih =>
      rw [List.forall_mem_cons] at own
      exact ih (within_step within own.1) own.2

theorem keyed_boundIn (within : h.Within K) (n : Nat) : ∀ k ∈ h.boundIn n, K k := by
  intro k hk
  simp only [boundIn, List.mem_reverse, List.mem_map, List.mem_filter] at hk
  obtain ⟨e, ⟨mem, _⟩, rfl⟩ := hk
  exact within e mem

end History

namespace Resolver

variable {K : Keyed → Prop} {r : Resolver} {h : History}

def Lists (r : Resolver) (h : History) : Prop :=
  List.Forall₂ (fun n d => d.keys = firsts (h.boundIn n)) h.opened r.scopes.frames

theorem Follows.keyed (follows : r.Follows K h) : ∀ d ∈ r.scopes.frames, ∀ k ∈ d.keys, K k := by
  have each : ∀ {ns : List Nat} {ds : List Dictionary} {held : Nat → Keyed → Option Datum},
      List.Forall₂ (fun n d => d.Holds K (held n)) ns ds → ∀ d ∈ ds, ∀ k ∈ d.keys, K k := by
    intro ns ds held related
    induction related with
    | nil => exact List.forall_mem_nil _
    | cons first _ ih => exact List.forall_mem_cons.2 ⟨List.forall_mem_map.2 first.keyed, ih⟩
  exact each follows.frames

theorem lists_initial : initial.Lists .initial :=
  .cons rfl .nil

namespace Lists

theorem settle (lists : r.Lists h) (follows : r.Follows K h) (ordered : h.Ordered)
    (lawful : Lawful K) {symbol : Datum} {k : Keyed} (keyed : symbol.keyed = .ok k) (own : K k)
    {site : Site} (placed : r.scopes.siteOf symbol = .ok site) (v stored : Datum) :
    List.Forall₂ (fun n d => d.keys = firsts ((h.add k v).boundIn n)) h.opened
      (r.scopes.settle site stored).frames := by
  obtain ⟨inner, outer⟩ := List.forall₂_cons.1 lists
  rw [Scopes.siteOf, Dictionary.siteOf, keyed] at placed
  refine .cons ?_ ?_
  · have among := follows.keyed r.scopes.inner List.mem_cons_self
    rw [History.boundIn_add_self, Keyed.firsts_append_singleton, ← inner]
    exact Dictionary.keys_settle_of_site lawful among own placed stored
  · have apart : ∀ n ∈ h.around, n ≠ h.scope := fun n hn =>
      (List.rel_of_pairwise_cons ordered.inward hn).ne
    refine ((List.forall₂_and_left _ _).2 ⟨apart, outer⟩).imp fun n d listed => ?_
    rw [History.boundIn_add_of_ne listed.1]
    exact listed.2

theorem perform (lists : r.Lists h) (follows : r.Follows K h) (ordered : h.Ordered)
    (lawful : Lawful K) {op : Operation} (own : op.Within K) :
    (r.perform op).Lists (h.step op) := by
  cases op with
  | enter =>
      refine .cons ?_ lists
      -- The new scope has a number that no entry bears.
      have unused : h.boundIn (h.entered + 1) = [] := by
        have none : h.entries.filter (fun e => e.scope == h.entered + 1) = [] :=
          List.filter_eq_nil_iff.2 fun e he => by
            have numbered := ordered.numbered e he
            simp [(Nat.lt_succ_of_le numbered).ne]
        rw [History.boundIn, none]
        rfl
      exact congrArg firsts unused.symm
  | exit =>
      show r.exit.2.Lists (h.step .exit)
      have frames := frames_exit lists
      simpa only [Lists, History.boundIn, h.step_exit_keeps.1] using frames
  | insert symbol v =>
      rw [Resolver.perform, Resolver.insert, History.step]
      cases keyed : symbol.keyed with
      | error fault =>
          rw [Scopes.siteOf_of_unkeyed keyed, History.record_of_unkeyed keyed]
          exact lists
      | ok k =>
          have own := own symbol rfl k keyed
          obtain ⟨site, placed, _⟩ := follows.settle ordered lawful keyed own
          rw [placed, History.record_of_keyed keyed]
          exact lists.settle follows ordered lawful keyed own placed v v
  | fresh symbol =>
      rw [Resolver.perform, History.step]
      cases keyed : symbol.keyed with
      | error fault =>
          rw [freshName_of_unplaced follows.unpinned (Scopes.siteOf_of_unkeyed keyed),
            History.record_of_unkeyed keyed]
          exact lists
      | ok k =>
          have own := own symbol rfl k keyed
          obtain ⟨site, placed, _⟩ := follows.settle ordered lawful keyed own
          obtain ⟨_, scopes, _⟩ := freshName_of_placed follows.unpinned placed
          rw [Lists, scopes, History.record_of_keyed keyed]
          exact lists.settle follows ordered lawful keyed own placed _ _

theorem after (lists : r.Lists h) (follows : r.Follows K h) (ordered : h.Ordered)
    (lawful : Lawful K) {ops : List Operation} (own : ∀ op ∈ ops, op.Within K) :
    (r.after ops).Lists (h.after ops) := by
  induction ops generalizing r h with
  | nil => exact lists
  | cons op ops ih =>
      rw [List.forall_mem_cons] at own
      exact ih (lists.perform follows ordered lawful own.1)
        (follows.perform ordered lawful own.1) (ordered.step op) own.2

theorem foldl_keep_frames (lawful : Lawful K) (within : h.Within K) {all : List Keyed}
    (own : ∀ k ∈ all, K k) {ns : List Nat} {ds : List Dictionary}
    (related : List.Forall₂ (fun n d => d.keys = firsts (h.boundIn n)) ns ds) :
    (ds.flatMap Dictionary.keys).foldl keep all = (ns.flatMap h.boundIn).foldl keep all := by
  induction related generalizing all with
  | nil => rfl
  | @cons n d ns ds keys _ ih =>
      -- A scope lists the first of its equal symbols, and no other of them is kept here either.
      have bound := History.keyed_boundIn within n
      have own' : ∀ k ∈ (h.boundIn n).foldl keep all, K k := fun k hk =>
        (Keyed.mem_foldl_keep hk).elim (own k) (bound k)
      rw [List.flatMap_cons, List.flatMap_cons, List.foldl_append, List.foldl_append, keys,
        Keyed.foldl_keep_firsts lawful bound own, ih own']

theorem listed (lists : r.Lists h) (lawful : Lawful K) (within : h.Within K) :
    r.scopes.listed = firsts h.bound :=
  foldl_keep_frames lawful within (List.forall_mem_nil K) (List.rel_reverse lists)

end Lists

theorem views_after (lawful : Lawful K) {ops : List Operation} (own : ∀ op ∈ ops, op.Within K) :
    Scopes.Views K (initial.after ops).scopes (firsts (History.initial.after ops).bound)
      (History.initial.after ops).value := by
  have ordered := History.ordered_initial
  have follows := (follows_initial K).after ordered lawful own
  have lists := lists_initial.after (follows_initial K) ordered lawful own
  have none : History.initial.Within K := List.forall_mem_nil _
  have within := History.within_after none own
  have keyed := follows.keyed
  have distinct : Distinct (initial.after ops).scopes.inner.keys := by
    rw [(List.forall₂_cons.1 lists).1]
    exact Keyed.distinct_firsts _
  rw [← lists.listed lawful within]
  refine Scopes.views lawful keyed distinct fun k hk => ?_
  have sought := Scopes.get?_eq_found lawful keyed hk
  exact Except.ok.inj (sought.symm.trans (Scopes.find?_of_holds hk follows.frames))

end Resolver

namespace Session

/-- After any run of steps on the table, failed ones and blocks included, all ways to read it agree
on what the history of the run tells. -/
theorem views_agree {K : Keyed → Prop} (lawful : Lawful K) {extent : Renaming.Extent}
    {steps : List Step} (table : Step.OnTable.all steps)
    (own : ∀ op ∈ operationsAll extent steps .initial, op.Within K) :
    let history := History.initial.after (operationsAll extent steps .initial)
    Scopes.Views K (run.runAll extent steps .initial).2.scopes (firsts history.bound)
      history.value := by
  rw [after_operationsAll extent steps table .initial]
  exact Resolver.views_after lawful own

def rebinding : List Step :=
  [.exit, .insert (.int 1) (.text "outer"), .insert (.text "x") .null, .insert (.list []) .null,
   .enter, .insert (.bool true) (.text "inner"), .within [.enter, .fresh (.text "x")] none, .exit,
   .fresh (.text "y")]

theorem rebound_views_agree :
    let t := (run.runAll .module rebinding .initial).2.scopes
    let x := Keyed.ofText "x"
    t.symbols = .ok [Resolver.one, x, .ofText "y"] ∧ t.size = .ok 3 ∧
      t.contains (.bool true) = .ok true ∧ t.getOr x.datum (.int 9) = .ok .null ∧
      (∃ items, t.visible = .ok items ∧ items.toList.map (fun s => (s.under, some s.value)) =
        [(Resolver.one, some (.text "inner")), (x, some .null),
          (.ofText "y", some (.name (.text "y") (.int 3)))]) ∧
      t.equals .empty ≠ .ok true := by
  intro t x
  have own : ∀ op ∈ operationsAll .module rebinding .initial,
      op.Within fun k => k.datum.regular = true := by
    have done : operationsAll .module rebinding .initial =
        [.exit, .insert (.int 1) (.text "outer"), .insert x.datum .null, .insert (.list []) .null,
          .enter, .insert (.bool true) (.text "inner"), .enter, .enter, .fresh x.datum, .exit,
          .exit, .fresh (.text "y")] := rfl
    intro op mem symbol named k keyed
    rw [Datum.datum_of_keyed keyed]
    rw [done] at mem
    revert symbol
    revert op
    simp [Operation.symbol?, x, Keyed.ofText, Datum.regular, Datum.regular.all]
  have table : Step.OnTable.all rebinding := by
    simp [rebinding, Step.OnTable.all, Step.OnTable]
  have views := views_agree Keyed.lawful_regular table own
  have regular : x.datum.regular = true := rfl
  refine ⟨views.iterated, views.counted, views.contained (k := Resolver.yes) rfl,
    views.got _ regular, views.paired, fun equal => ?_⟩
  have none : ∀ s ∈ ([] : List Slot), s.under.datum.regular = true := List.forall_mem_nil _
  obtain ⟨found, here, related⟩ := (views.equal_iff none rfl).1 equal x regular
  cases here
  cases related

theorem selective_views :
    let outer := Datum.selective "a" 0 0 0
    let inner := Datum.selective "b" 1 0 0
    let steps := [Step.insert outer (.int 1), .enter, .insert inner (.int 2)]
    let s := (run.runAll .module steps .initial).2
    ∃ k l, outer.keyed = .ok k ∧ inner.keyed = .ok l ∧ s.scopes.symbols = .ok [k, l] ∧
      s.scopes.size = .ok 1 :=
  ⟨⟨.selective "a" 0 0 0, .node selectiveKind.tag [.ofInt 0], rfl⟩,
    ⟨.selective "b" 1 0 0, .node selectiveKind.tag [.ofInt 0], rfl⟩, rfl, rfl, rfl, rfl⟩

end Session

end ScopeResolution
