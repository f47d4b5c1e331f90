import ScopeResolution.Proofs.Balance
import ScopeResolution.Proofs.Resolution

/-!
Renaming in nested scopes follows resolution in one map. A resolver shows a context if its scopes
hold the names that the context binds and its counter stands where the context's does
(`Resolver.Shows`). A script gives a value from one context to another if it does so from every
resolver that shows the first to one that shows the second (`Renaming.Gives`); here are the steps
that all scripts are made of.
-/

namespace ScopeResolution

namespace Resolver

structure Shows (r : Resolver) (c : Context) : Prop where
  unpinned : r.supply.pinned = none
  counter : r.counter = c.last
  limits : r.limits = .unbounded
  held : ∀ x : Symbol, r.scopes.held x.essence = (c.bound x.essence).map Name.datum

theorem shows_initial : initial.Shows .initial :=
  ⟨rfl, rfl, rfl, fun _ => rfl⟩

namespace Shows

variable {r r' : Resolver} {c c' : Context}

theorem of_same (h : r.Shows c) (scopes : r'.scopes = r.scopes) (supply : r'.supply = r.supply)
    (limits : r'.limits = r.limits) : r'.Shows c := by
  refine ⟨?_, ?_, limits.trans h.limits, ?_⟩
  · rw [supply]
    exact h.unpinned
  · rw [Resolver.counter, supply]
    exact h.counter
  · rw [scopes]
    exact h.held

theorem enter (h : r.Shows c) : r.enter.Shows c :=
  ⟨h.unpinned, h.counter, h.limits, h.held⟩

theorem leave (h : r.Shows c) (inner : r'.Shows c') {r₂ : Resolver}
    (scopes : r₂.scopes = r.scopes) (supply : r₂.supply = r'.supply)
    (limits : r₂.limits = r'.limits) : r₂.Shows (c.leave c') := by
  refine ⟨?_, ?_, limits.trans inner.limits, ?_⟩
  · rw [supply]
    exact inner.unpinned
  · rw [Resolver.counter, supply]
    exact inner.counter
  · rw [scopes]
    exact h.held

theorem lookup (h : r.Shows c) (x : Symbol) :
    r.lookup x.datum = .ok (((c.bound x.essence).map Name.datum).getD .null) := by
  rw [Resolver.lookup, Scopes.lookup_symbol, h.held]

theorem lookup_of_bound (h : r.Shows c) {x : Symbol} {n : Name}
    (bound : c.bound x.essence = some n) :
    r.lookup x.datum = .ok n.datum := by
  rw [h.lookup, bound]
  rfl

theorem nameOf (h : r.Shows c) (x : Symbol) : r.nameOf x.datum = .ok (c.nameOf x).datum := by
  simp only [Resolver.nameOf, h.lookup, Context.nameOf]
  cases c.bound x.essence <;> rfl

theorem told (h : r.Shows c) (x : Symbol) : r.limits.displayed x.datum = .ok x.datum.display := by
  rw [h.limits, Limits.displayed_unbounded, Datum.displayed_of_regular x.regular]

theorem freshName (h : r.Shows c) (x : Symbol) :
    ∃ r', r.freshName x.datum = (.ok (c.next x).datum, r') ∧ r'.Shows (c.bind x) := by
  obtain ⟨site, placed, settled⟩ := r.scopes.siteOf_symbol x
  obtain ⟨out, scopes, supply, limits⟩ := freshName_of_placed h.unpinned placed
  have named : r.nextName x.datum = (c.next x).datum := by
    rw [nextName, h.counter]
    rfl
  rw [h.told, named] at out
  rw [named] at scopes
  refine ⟨_, Prod.ext out rfl, ?_, ?_, limits.trans h.limits, fun y => ?_⟩
  · rw [supply]
    exact h.unpinned
  · rw [Resolver.counter, supply]
    exact congrArg (· + 1) h.counter
  · rw [scopes, settled, Context.bind, h.held]
    by_cases same : x.essence = y.essence <;> simp [same]

end Shows

end Resolver

namespace Datum

theorem part_ok {d : Datum} {a : String} {v : Datum} (h : d.attribute? a = some v) :
    ∃ p, d.part a = .ok p ∧ p.1 = v := by
  unfold part
  split
  · rename_i w found
    cases h.symm.trans found
    exact ⟨_, rfl, rfl⟩
  · rename_i missing
    cases h.symm.trans missing

namespace Part

variable {d : Datum} {x : Part d}

theorem items_ok {xs : List Datum} (h : x.1.items? = some xs) :
    ∃ ps, x.items = .ok ps ∧ ps.map (·.1) = xs := by
  unfold items
  split
  · rename_i ys found
    cases h.symm.trans found
    exact ⟨_, rfl, by simp⟩
  · rename_i missing
    cases h.symm.trans missing

theorem attr_ok {a : String} {v : Datum} (h : x.1.attribute? a = some v) :
    ∃ p, x.attr a = .ok p ∧ p.1 = v := by
  obtain ⟨q, found, same⟩ := part_ok h
  rw [attr, found]
  exact ⟨_, rfl, same⟩

theorem tupleItems?_some {xs : List Datum} (h : x.1.tupleItems? = some xs) :
    ∃ ps, x.tupleItems? = some ps ∧ ps.map (·.1) = xs := by
  unfold tupleItems?
  split
  · rename_i ys found
    cases h.symm.trans found
    exact ⟨_, rfl, by simp⟩
  · rename_i missing
    cases h.symm.trans missing

theorem tupleItems?_none (h : x.1.tupleItems? = none) : x.tupleItems? = none := by
  unfold tupleItems?
  split
  · rename_i ys found
    cases h.symm.trans found
  · rfl

end Part

end Datum

namespace Renaming

open Datum Traversal Traversal.Routine

section Gives

variable {κ α β : Type} {go : κ → Resolver → Outcome Resolver Fault Datum} {c c₁ c₂ : Context}

def Gives (go : κ → Resolver → Outcome Resolver Fault Datum)
    (script : Routine κ Resolver Fault Datum α) (c : Context) (a : α) (c' : Context) : Prop :=
  ∀ r, r.Shows c → ∃ r', script.Ends go r (.ok a) r' ∧ r.Grows r' ∧ r'.Shows c'

theorem gives_of_ends {script : Routine κ Resolver Fault Datum α} {a : α}
    (h : ∀ r, r.Shows c → script.Ends go r (.ok a) r) : Gives go script c a c :=
  fun r shown => ⟨r, h r shown, refl_of Resolver.Grows r, shown⟩

theorem gives_pure (a : α) : Gives go (pure a) c a c :=
  gives_of_ends fun _ _ => ends_pure a

theorem gives_return {a b : α} (h : a = b) : Gives go (pure a) c b c :=
  h ▸ gives_pure a

theorem gives_ofExcept {x : Except Fault α} {a : α} (h : x = .ok a) :
    Gives go (ofExcept x) c a c := by
  subst h
  exact gives_of_ends fun _ _ => ends_ofExcept _

theorem gives_query {f : Resolver → Except Fault α} {a : α}
    (h : ∀ r, r.Shows c → f r = .ok a) : Gives go (query f) c a c := by
  refine gives_of_ends fun r shown => ?_
  have ended : (query f).Ends go r (f r) r := ends_query f
  rwa [h r shown] at ended

theorem gives_debug (text : String) : Gives go (modify (Resolver.debug text)) c () c :=
  fun r shown => ⟨r.debug text, ends_modify _, (Resolver.secures_debug text r).toGrows,
    shown.of_same rfl rfl rfl⟩

theorem Gives.bind {script : Routine κ Resolver Fault Datum α}
    {rest : α → Routine κ Resolver Fault Datum β} {a : α} {b : β}
    (first : Gives go script c a c₁) (next : Gives go (rest a) c₁ b c₂) :
    Gives go (script >>= rest) c b c₂ := by
  intro r shown
  obtain ⟨r₁, ended, grown, shown₁⟩ := first r shown
  obtain ⟨r₂, ended', grown', shown₂⟩ := next r₁ shown₁
  exact ⟨r₂, ended.bind_ok ended', trans_of Resolver.Grows grown grown', shown₂⟩

theorem gives_mapM_nil (f : α → Routine κ Resolver Fault Datum β) :
    Gives go ([].mapM f) c [] c :=
  gives_of_ends fun _ _ => ends_mapM_nil f

theorem Gives.mapM_cons {f : α → Routine κ Resolver Fault Datum β} {x : α} {xs : List α} {y : β}
    {ys : List β} (head : Gives go (f x) c y c₁) (tail : Gives go (xs.mapM f) c₁ ys c₂) :
    Gives go ((x :: xs).mapM f) c (y :: ys) c₂ := by
  rw [List.mapM_cons]
  exact head.bind (tail.bind (gives_pure _))

end Gives

section Steps

variable {d : Datum} {go : Part d → Resolver → Outcome Resolver Fault Datum} {c c' : Context}

theorem gives_bindFresh (x : Symbol) :
    Gives go (bindFresh x.datum) c (c.next x).datum (c.bind x) := by
  intro r shown
  obtain ⟨r', taken, shown'⟩ := shown.freshName x
  have ended : (bindFresh x.datum).Ends go r (r.freshName x.datum).1 (r.freshName x.datum).2 :=
    ends_perform (Resolver.freshName x.datum)
  have grown := (Resolver.secures_freshName x.datum r).toGrows
  rw [taken] at ended grown
  exact ⟨r', ended, grown, shown'⟩

theorem gives_nameOf (x : Symbol) : Gives go (nameOf x.datum) c (c.nameOf x).datum c :=
  gives_query fun _ shown => shown.nameOf x

theorem gives_told (x : Symbol) : Gives go (told x.datum) c x.datum.display c :=
  gives_query fun _ shown => shown.told x

theorem gives_boundName {x : Symbol} (h : (c.bound x.essence).isSome) :
    Gives go (boundName x.datum) c (c.nameOf x).datum c := by
  obtain ⟨n, bound⟩ := Option.isSome_iff_exists.1 h
  have meant : c.nameOf x = n := by rw [Context.nameOf, bound, Option.getD_some]
  rw [meant]
  exact Gives.bind (gives_query fun _ shown => shown.lookup_of_bound bound) (gives_pure n.datum)

theorem Gives.inScope {script : Script d Datum} {v : Datum} (h : Gives go script c v c') :
    Gives go (inScope script) c v (c.leave c') := by
  intro r shown
  obtain ⟨r₁, ended, grown, shown₁⟩ := h r.enter shown.enter
  obtain ⟨r₂, left, scopes, supply, limits⟩ := grown.exit_of_enter
  have counted : r.counter ≤ r₂.counter := by
    rw [Resolver.counter, Resolver.counter, supply]
    exact grown.counter
  exact ⟨r₂, ended.within left, .of_same scopes counted,
    shown.leave shown₁ scopes supply limits⟩

end Steps

def Renames (extent : Extent) (d : Datum) (c : Context) (d' : Datum) (c' : Context) : Prop :=
  ∀ r, r.Shows c → ∃ r', (visitor extent).recurse d r = (.ok d', r') ∧ r.Grows r' ∧ r'.Shows c'

def visits (extent : Extent) (d : Datum) (p : Part d) (r : Resolver) :
    Outcome Resolver Fault Datum :=
  (visitor extent).recurse p.1 r

section Visits

variable {extent : Extent} {d v : Datum} {c c₁ c₂ : Context}

theorem renames_of_gives (h : Gives (visits extent d) (renameNode extent d) c v c₁) :
    Renames extent d c v c₁ := by
  intro r shown
  obtain ⟨r', ended, grown, shown'⟩ := h r shown
  exact ⟨r', (Visitor.recurse_eq d r).trans ended.run_eq, grown, shown'⟩

theorem gives_call {p : Part d} (h : Renames extent p.1 c v c₁) :
    Gives (visits extent d) (call p) c v c₁ := by
  intro r shown
  obtain ⟨r', visited, grown, shown'⟩ := h r shown
  have ended : (call p).Ends (visits extent d) r _ _ := ends_call p
  rw [visits, visited] at ended
  exact ⟨r', ended, grown, shown'⟩

theorem gives_renameItems {x : Part d} {xs vs : List Datum} (items : x.1.items? = some xs)
    (h : ∀ ps : List (Part d), ps.map (·.1) = xs → Gives (visits extent d) (ps.mapM call) c vs c₁) :
    Gives (visits extent d) (renameItems x) c vs c₁ := by
  obtain ⟨ps, found, same⟩ := Part.items_ok items
  exact (gives_ofExcept found).bind (h ps same)

theorem rebuild_builtin {κ σ : Type} (f : Form) (fs : List Datum)
    (visit : Part (node (.builtin f) fs) → Routine κ σ Fault Datum Datum) :
    rebuild (node (.builtin f) fs) visit = (do
      let changes ← (f.fields.zip (fieldParts (.builtin f) fs)).mapM fun p =>
        fieldChange visit p.1 p.2
      Routine.ofExcept ((node (.builtin f) fs).update changes.flatten)) := by
  have through : entries (.builtin f) fs (fun _ => none)
      ((fieldParts (.builtin f) fs).map some) =
      (f.fields.zip (fieldParts (.builtin f) fs)).map fun p => (p.1, some p.2) :=
    List.zip_map_right
  rw [rebuild, through, List.mapM_map]
  rfl

theorem gives_rebuild {f : Form} {fs : List Datum} (changes : List (List (String × Datum)))
    (changed : Gives (visits extent (node (.builtin f) fs))
      ((f.fields.zip (fieldParts (.builtin f) fs)).mapM fun p => fieldChange call p.1 p.2)
      c changes c₁)
    (updated : (node (.builtin f) fs).update changes.flatten = .ok v) :
    Gives (visits extent (node (.builtin f) fs)) (rebuild (node (.builtin f) fs) call) c v c₁ := by
  rw [rebuild_builtin]
  exact changed.bind (gives_ofExcept updated)

theorem fieldChange_node {f : String} {x : Part d} (isNode : x.1.isNode = true) :
    (fieldChange call f x : Script d _) = (do
      let y ← call x
      return [(f, y)]) :=
  if_pos isNode

theorem gives_fieldChange_node {f : String} {e : Datum} {smaller : e.size < d.size}
    (isNode : e.isNode = true) (h : Renames extent e c v c₁) :
    Gives (visits extent d) (fieldChange call f ⟨e, smaller⟩) c [(f, v)] c₁ := by
  rw [fieldChange_node isNode]
  exact Gives.bind (gives_call h) (gives_pure _)

theorem mapM_rebuildItem {ps : List (Part d)} (nodes : ∀ p ∈ ps, p.1.isNode = true) :
    (ps.mapM (rebuildItem call) : Script d (List Datum)) = ps.mapM call := by
  induction ps with
  | nil => rfl
  | cons p ps ih =>
      have first : (rebuildItem call p : Script d Datum) = call p :=
        if_pos (nodes p List.mem_cons_self)
      have rest := ih fun q hq => nodes q (List.mem_cons_of_mem p hq)
      rw [List.mapM_cons, List.mapM_cons, first, rest]

theorem fieldChange_items (f : String) {xs : List Datum} {smaller : (tuple xs).size < d.size}
    (nodes : ∀ e ∈ xs, e.isNode = true) :
    ∃ ps : List (Part d), ps.map (·.1) = xs ∧
      (fieldChange call f ⟨tuple xs, smaller⟩ : Script d _) = (do
        let ys ← ps.mapM call
        return [(f, .tuple ys)]) := by
  have items : (tuple xs).tupleItems? = some xs := rfl
  obtain ⟨ps, found, same⟩ := Part.tupleItems?_some (x := ⟨tuple xs, smaller⟩) items
  have visited := mapM_rebuildItem fun p hp => nodes p.1 (same ▸ List.mem_map_of_mem hp)
  have plain : (tuple xs).isNode ≠ true := Bool.false_ne_true
  refine ⟨ps, same, ?_⟩
  rw [fieldChange, if_neg plain, found]
  simp only [visited]

theorem gives_fieldChange_items {f : String} {xs vs : List Datum}
    {smaller : (tuple xs).size < d.size} (nodes : ∀ e ∈ xs, e.isNode = true)
    (h : ∀ ps : List (Part d), ps.map (·.1) = xs → Gives (visits extent d) (ps.mapM call) c vs c₁) :
    Gives (visits extent d) (fieldChange call f ⟨tuple xs, smaller⟩) c [(f, .tuple vs)] c₁ := by
  obtain ⟨ps, same, visited⟩ := fieldChange_items f nodes
  rw [visited]
  exact (h ps same).bind (gives_pure _)

theorem fieldChange_plain {f : String} {x : Part d} (plain : x.1.isNode = false)
    (itemless : x.1.tupleItems? = none) : (fieldChange call f x : Script d _) = pure [] := by
  rw [fieldChange, plain, if_neg Bool.false_ne_true, Part.tupleItems?_none itemless]

theorem gives_fieldChange_plain {f : String} {x : Part d} (plain : x.1.isNode = false)
    (itemless : x.1.tupleItems? = none) :
    Gives (visits extent d) (fieldChange call f x) c [] c := by
  rw [fieldChange_plain plain itemless]
  exact gives_pure []

theorem update_pair {f : Form} {a b : String} {x y v w : Datum} (fields : f.fields = [a, b])
    (frozen : v.freeze = v) (frozen' : w.freeze = w) :
    (node (.builtin f) [x, y]).update [(a, v), (b, w)] = .ok (node (.builtin f) [v, w]) := by
  have distinct : a ≠ b := by
    have nodup := f.fields_nodup
    rw [fields] at nodup
    exact List.ne_of_not_mem_cons (List.nodup_cons.1 nodup).1
  have own : ownName ∉ [a, b] := fields ▸ ownName_not_mem_fields f
  have updated : update [(a, v), (b, w)] (node (.builtin f) [x, y]) = _ :=
    update_builtin f [x, y] own
  rw [updated]
  simp [fields, lastValue?, distinct.symm, frozen, frozen']

theorem gives_rebuild_pair {f : Form} {a b : String} {x y w : Datum} (fields : f.fields = [a, b])
    (first : Gives (visits extent (node (.builtin f) [x, y]))
      (fieldChange call a (child x List.mem_cons_self)) c [(a, v)] c₁)
    (second : Gives (visits extent (node (.builtin f) [x, y]))
      (fieldChange call b (child y (List.mem_cons_of_mem x List.mem_cons_self))) c₁ [(b, w)] c₂)
    (frozen : v.freeze = v) (frozen' : w.freeze = w) :
    Gives (visits extent (node (.builtin f) [x, y])) (rebuild (node (.builtin f) [x, y]) call) c
      (node (.builtin f) [v, w]) c₂ := by
  refine gives_rebuild [[(a, v)], [(b, w)]] ?_ (update_pair fields frozen frozen')
  rw [fields]
  refine Gives.mapM_cons first ?_
  exact Gives.mapM_cons second (gives_mapM_nil _)

theorem update_single {f : Form} {a : String} {x v : Datum} (fields : f.fields = [a])
    (frozen : v.freeze = v) :
    (node (.builtin f) [x]).update [(a, v)] = .ok (node (.builtin f) [v]) := by
  have own : ownName ∉ [a] := fields ▸ ownName_not_mem_fields f
  have updated : update [(a, v)] (node (.builtin f) [x]) = _ := update_builtin f [x] own
  rw [updated]
  simp [fields, lastValue?, frozen]

theorem gives_rebuild_single {f : Form} {a : String} {x : Datum} (fields : f.fields = [a])
    (changed : Gives (visits extent (node (.builtin f) [x]))
      (fieldChange call a (child x List.mem_cons_self)) c [(a, v)] c₁) (frozen : v.freeze = v) :
    Gives (visits extent (node (.builtin f) [x])) (rebuild (node (.builtin f) [x]) call) c
      (node (.builtin f) [v]) c₁ := by
  refine gives_rebuild [[(a, v)]] ?_ (update_single fields frozen)
  rw [fields]
  exact Gives.mapM_cons changed (gives_mapM_nil _)

theorem gives_rebuild_plain {f : Form} {a : String} {x : Datum} (fields : f.fields = [a])
    (plain : x.isNode = false) (itemless : x.tupleItems? = none) (frozen : x.freeze = x) :
    Gives (visits extent (node (.builtin f) [x])) (rebuild (node (.builtin f) [x]) call) c
      (node (.builtin f) [x]) c := by
  refine gives_rebuild [[]] ?_ ?_
  · rw [fields]
    exact Gives.mapM_cons (gives_fieldChange_plain plain itemless) (gives_mapM_nil _)
  · simp [update_builtin, fields, lastValue?, frozen]

theorem renameNode_of_passesThrough {f : Form} (h : passesThrough f = true) (fs : List Datum) :
    renameNode extent (node (.builtin f) fs) = rebuild (node (.builtin f) fs) call := by
  cases f <;> first | exact absurd h Bool.false_ne_true | cases extent <;> rfl

end Visits

end Renaming

end ScopeResolution
