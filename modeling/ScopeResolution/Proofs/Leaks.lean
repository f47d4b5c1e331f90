import ScopeResolution.Proofs.Refinement
import ScopeResolution.Proofs.Scoping.Numbering

namespace ScopeResolution

open Name (numbered)
open Datum Traversal Traversal.Routine Renaming

namespace Name

theorem map_essence_numbered (n : Nat) (xs : List Symbol) :
    (numbered n xs).map (fun x => x.symbol.essence) = xs.map Symbol.essence := by
  induction xs generalizing n with
  | nil => rfl
  | cons x xs ih => exact congrArg (x.essence :: ·) (ih (n + 1))

def slot (n : Name) : Slot :=
  ⟨n.symbol.toKeyed, n.datum⟩

end Name

namespace Scoping

variable {p : Portion}

/-- The names that stay in the innermost scope, in the order in which they are bound, if `n` is the
number that was taken last. -/
def leaked : {p : Portion} → Scoping Symbol p → (n : Nat) → List Name
  | _, .none, _ => []
  | _, .refer _, _ => []
  | _, .bind x, n => [⟨x, n + 1⟩]
  | _, .seq a b, n => a.leaked n ++ b.leaked (n + a.count)
  | _, .scope _, _ => []
  | _, .group g, n => numbered n g.names ++ g.leaked (n + g.names.length)
  | _, .nil, _ => []
  | _, .member _ right rest, n => right.leaked n ++ rest.leaked (n + right.count)

theorem map_essence_leaked (s : Scoping Symbol p) (n : Nat) :
    (s.leaked n).map (fun x => x.symbol.essence) = s.leaks := by
  induction s generalizing n with
  | none => rfl
  | refer => rfl
  | bind => rfl
  | seq a b iha ihb => rw [leaked, List.map_append, iha, ihb, leaks]
  | scope => rfl
  | group g ih => rw [leaked, List.map_append, Name.map_essence_numbered, ih, leaks]
  | nil => rfl
  | member x right rest ihr ihrest => rw [leaked, List.map_append, ihr, ihrest, leaks]

theorem leaked_sublist (s : Scoping Symbol p) (n : Nat) :
    (s.leaked n).Sublist (numbered n s.allocated) := by
  induction s generalizing n with
  | none => exact .slnil
  | refer => exact .slnil
  | bind => exact List.Sublist.refl _
  | seq a b iha ihb =>
      rw [leaked, allocated, Name.numbered_append, a.length_allocated]
      exact (iha n).append (ihb _)
  | scope a => exact List.nil_sublist _
  | group g ih =>
      rw [leaked, allocated, Name.numbered_append]
      exact (List.Sublist.refl _).append (ih _)
  | nil => exact .slnil
  | member x right rest ihr ihrest =>
      rw [leaked, allocated, Name.numbered_append, right.length_allocated]
      exact (ihr n).append (ihrest _)

end Scoping

namespace Dictionary

theorem putAll_append (d : Dictionary) (xs ys : List Slot) :
    d.putAll (xs ++ ys) = d.putAll xs >>= fun e => e.putAll ys := by
  induction xs generalizing d with
  | nil => rfl
  | cons s xs ih =>
      rw [List.cons_append, putAll, putAll]
      cases d.put s.under s.value with
      | error e => rfl
      | ok e => exact ih e

end Dictionary

namespace Resolver

structure Gains (r : Resolver) (ns : List Name) (taken : Nat) (r' : Resolver) : Prop where
  unpinned : r'.supply.pinned = none
  outer : r'.scopes.outer = r.scopes.outer
  counter : r'.counter = r.counter + taken
  inner : r.scopes.inner.putAll (ns.map Name.slot) = .ok r'.scopes.inner

namespace Gains

variable {r r₁ r₂ : Resolver} {ns ms : List Name} {taken more : Nat}

theorem none (h : r.supply.pinned = .none) : r.Gains [] 0 r :=
  ⟨h, rfl, rfl, rfl⟩

theorem append (h : r.Gains ns taken r₁) (k : r₁.Gains ms more r₂) :
    r.Gains (ns ++ ms) (taken + more) r₂ := by
  refine ⟨k.unpinned, k.outer.trans h.outer, ?_, ?_⟩
  · rw [k.counter, h.counter, Nat.add_assoc]
  · rw [List.map_append, Dictionary.putAll_append, h.inner]
    exact k.inner

theorem scopes (h : r.Gains [] taken r₁) : r₁.scopes = r.scopes := by
  have same : r.scopes.inner = r₁.scopes.inner := Except.ok.inj h.inner
  refine Scopes.eq_of_frames ?_
  rw [Scopes.frames, Scopes.frames, h.outer, same]

end Gains

theorem gains_freshName {r : Resolver} (h : r.supply.pinned = none) (x : Symbol) {name : Datum}
    (ok : (r.freshName x.datum).1 = .ok name) :
    r.Gains [⟨x, r.counter + 1⟩] 1 (r.freshName x.datum).2 := by
  have secured := secures_freshName x.datum r
  obtain ⟨named, counter, k, keyed, put⟩ := freshName_ok h ok
  rw [x.keyed_datum, Except.ok.injEq] at keyed
  refine ⟨secured.pinned.trans h, secured.outer, counter, ?_⟩
  subst keyed named
  have stored : r.scopes.inner.putAll ([⟨x, r.counter + 1⟩].map Name.slot) =
      r.scopes.inner.put x.toKeyed (Name.datum ⟨x, r.counter + 1⟩) >>= .ok := rfl
  rw [stored]
  exact congrArg (· >>= Except.ok) put

end Resolver

namespace Renaming

def Leaves {κ α : Type} {p : Portion} (go : κ → Resolver → Outcome Resolver Fault Datum)
    (script : Routine κ Resolver Fault Datum α) (s : Scoping Symbol p) : Prop :=
  ∀ r, r.supply.pinned = none →
    script.Obeys .free go r fun _ r' => r.Gains (s.leaked r.counter) s.count r'

section Leaves

variable {κ α β : Type} {p q : Portion} {go : κ → Resolver → Outcome Resolver Fault Datum}
  {script : Routine κ Resolver Fault Datum α} {rest : α → Routine κ Resolver Fault Datum β}
  {a : Scoping Symbol p} {b : Scoping Symbol q}

theorem leaves_pure (x : α) : Leaves go (pure x) Scoping.none :=
  fun _ unpinned => obeys_pure (.none unpinned)

theorem leaves_ofExcept (x : Except Fault α) : Leaves go (ofExcept x) Scoping.none := by
  intro r unpinned
  refine (obeys_ofExcept fun _ _ => trivial).imp fun _ t _ h => ?_
  rw [h.2]
  exact .none unpinned

theorem leaves_query (f : Resolver → Except Fault α) : Leaves go (query f) Scoping.none := by
  intro r unpinned
  refine (obeys_query fun _ _ => trivial).imp fun _ t _ h => ?_
  rw [h.2]
  exact .none unpinned

theorem Leaves.bind {q' : Portion} {c : Scoping Symbol q'} (first : Leaves go script a)
    (next : ∀ x, Leaves go (rest x) b)
    (leaked : ∀ n, c.leaked n = a.leaked n ++ b.leaked (n + a.count))
    (count : c.count = a.count + b.count) : Leaves go (script >>= rest) c := by
  intro r unpinned
  refine (first r unpinned).bind fun x t _ gained => ?_
  refine (next x t gained.unpinned).imp fun _ u _ gained' => ?_
  rw [leaked, count]
  rw [gained.counter] at gained'
  exact gained.append gained'

theorem Leaves.seq {a b : Scoping Symbol .whole} (first : Leaves go script a)
    (next : ∀ x, Leaves go (rest x) b) : Leaves go (script >>= rest) (a.seq b) :=
  first.bind next (fun _ => rfl) rfl

theorem Leaves.followed (first : Leaves go script a)
    (next : ∀ x, Leaves go (rest x) Scoping.none) : Leaves go (script >>= rest) a :=
  first.bind next (fun _ => (List.append_nil _).symm) rfl

theorem Leaves.preceded (first : Leaves go script Scoping.none)
    (next : ∀ x, Leaves go (rest x) b) : Leaves go (script >>= rest) b :=
  first.bind next (fun _ => rfl) (Nat.zero_add _).symm

theorem leaves_ofExcept_bind {x : Except Fault α} {v : α} (found : x = .ok v)
    (next : Leaves go (rest v) b) : Leaves go (ofExcept x >>= rest) b := by
  subst found
  exact next

theorem leaves_mapM_nil (f : α → Routine κ Resolver Fault Datum β) :
    Leaves go ([].mapM f) Scoping.none := by
  rw [List.mapM_nil]
  exact leaves_pure []

theorem Leaves.mapM_cons {f : α → Routine κ Resolver Fault Datum β} {x : α} {xs : List α}
    {q' : Portion} {c : Scoping Symbol q'} (head : Leaves go (f x) a)
    (tail : Leaves go (xs.mapM f) b)
    (leaked : ∀ n, c.leaked n = a.leaked n ++ b.leaked (n + a.count))
    (count : c.count = a.count + b.count) : Leaves go ((x :: xs).mapM f) c := by
  rw [List.mapM_cons]
  exact head.bind (fun y => tail.followed fun ys => leaves_pure (y :: ys)) leaked count

end Leaves

section Steps

variable {d : Datum} {go : Part d → Resolver → Outcome Resolver Fault Datum}

theorem leaves_bindFresh (x : Symbol) :
    Leaves go (bindFresh x.datum : Script d Datum) (Scoping.bind x) := fun _ unpinned =>
  obeys_perform (Conduct.admits_free fun _ ok => Resolver.gains_freshName unpinned x ok)

theorem leaves_nameOf (x : Symbol) :
    Leaves go (nameOf x.datum : Script d Datum) (Scoping.refer x) :=
  leaves_query (Resolver.nameOf x.datum)

theorem Leaves.inScope {script : Script d Datum} {a : Scoping Symbol .whole}
    (h : Leaves go script a) : Leaves go (inScope script) a.scope := by
  intro r unpinned
  obtain ⟨⟨out, r₁⟩, ended, admitted⟩ := h r.enter unpinned
  refine ⟨(_, _), ended.within_exit, Conduct.admits_free fun v ok => ?_⟩
  cases out with
  | error e =>
      cases left : (r₁.exit).1 <;> rw [left] at ok <;> cases ok
  | ok w =>
      have gained := admitted.returns w rfl
      obtain ⟨r₂, left, scopes, supply, _⟩ := Resolver.exit_of_outer gained.outer
      have counted : r₁.counter = r.counter + a.count := gained.counter
      rw [left]
      refine ⟨?_, ?_, ?_, ?_⟩
      · rw [supply]
        exact gained.unpinned
      · rw [scopes]
      · rw [Resolver.counter, supply]
        exact counted
      · rw [scopes]
        rfl

theorem leaves_unsupported {p : Portion} (a : Scoping Symbol p) :
    Leaves go (unsupported d) a :=
  fun _ _ => (obeys_ofExcept fun _ _ => trivial).bind fun _ _ _ _ => obeys_fail trivial

theorem leaves_boundName (symbol : Datum) :
    Leaves go (boundName symbol : Script d Datum) Scoping.none := by
  refine (leaves_query (Resolver.lookup symbol)).preceded fun found r unpinned => ?_
  cases found with
  | null =>
      refine (obeys_ofExcept fun _ _ => trivial).bind fun text t _ _ => ?_
      refine (obeys_modify trivial).bind fun _ u _ _ => ?_
      exact obeys_fail trivial
  | _ => exact obeys_pure (.none unpinned)

end Steps

section Visits

variable {extent : Extent} {d : Datum}

theorem leaves_call {c : Category} {t : Phrase Symbol (.one c)} {p : Part d} (same : p.1 = t.datum)
    (h : Leaves (visits extent t.datum) (renameNode extent t.datum) t.scoping) :
    Leaves (visits extent d) (call p) t.scoping := by
  intro r unpinned
  obtain ⟨⟨out, r'⟩, ended, admitted⟩ := h r unpinned
  have visited : visits extent d p r = (out, r') := by
    rw [visits, same, Visitor.recurse_eq]
    exact ended.run_eq
  refine obeys_call ?_
  rw [visited]
  exact admitted

theorem leaves_renameItems {x : Part d} {xs : List Datum} {a : Scoping Symbol .whole}
    (items : x.1.items? = some xs)
    (h : ∀ ps : List (Part d), ps.map (·.1) = xs → Leaves (visits extent d) (ps.mapM call) a) :
    Leaves (visits extent d) (renameItems x) a := by
  obtain ⟨ps, found, same⟩ := Part.items_ok items
  exact leaves_ofExcept_bind found (h ps same)

theorem leaves_rebuild_pair {f : Form} {k l : String} {x y : Datum} {a b : Scoping Symbol .whole}
    (fields : f.fields = [k, l])
    (first : Leaves (visits extent (Phrase.node f [x, y]))
      (fieldChange call k (child x List.mem_cons_self)) a)
    (second : Leaves (visits extent (Phrase.node f [x, y]))
      (fieldChange call l (child y (List.mem_cons_of_mem x List.mem_cons_self))) b) :
    Leaves (visits extent (Phrase.node f [x, y])) (rebuild (Phrase.node f [x, y]) call)
      (a.seq b) := by
  rw [Phrase.node, rebuild_builtin, fields]
  refine Leaves.followed ?_ fun _ => leaves_ofExcept _
  refine Leaves.mapM_cons first ?_ (fun _ => rfl) rfl
  exact Leaves.mapM_cons second (leaves_mapM_nil _) (fun _ => (List.append_nil _).symm) rfl

theorem leaves_rebuild_single {f : Form} {k : String} {x : Datum} {a : Scoping Symbol .whole}
    (fields : f.fields = [k])
    (changed : Leaves (visits extent (Phrase.node f [x]))
      (fieldChange call k (child x List.mem_cons_self)) a) :
    Leaves (visits extent (Phrase.node f [x])) (rebuild (Phrase.node f [x]) call) a := by
  rw [Phrase.node, rebuild_builtin, fields]
  refine Leaves.followed ?_ fun _ => leaves_ofExcept _
  exact changed.mapM_cons (leaves_mapM_nil _) (fun _ => (List.append_nil _).symm) rfl

theorem leaves_fieldChange_node {f : String} {x : Part d} {a : Scoping Symbol .whole}
    (isNode : x.1.isNode = true) (h : Leaves (visits extent d) (call x) a) :
    Leaves (visits extent d) (fieldChange call f x) a := by
  rw [fieldChange_node isNode]
  exact h.followed fun _ => leaves_pure _

theorem leaves_fieldChange_items {f : String} {xs : List Datum} {smaller : (tuple xs).size < d.size}
    {a : Scoping Symbol .whole} (nodes : ∀ e ∈ xs, e.isNode = true)
    (h : ∀ ps : List (Part d), ps.map (·.1) = xs → Leaves (visits extent d) (ps.mapM call) a) :
    Leaves (visits extent d) (fieldChange call f ⟨tuple xs, smaller⟩) a := by
  obtain ⟨ps, same, visited⟩ := fieldChange_items f nodes
  rw [visited]
  exact (h ps same).followed fun _ => leaves_pure _

theorem leaves_fieldChange_plain {f : String} {x : Part d} (plain : x.1.isNode = false)
    (itemless : x.1.tupleItems? = none) :
    Leaves (visits extent d) (fieldChange call f x) Scoping.none := by
  rw [fieldChange_plain plain itemless]
  exact leaves_pure []

end Visits

end Renaming

namespace Phrase

def Leaving (extent : Extent) : {s : Shape} → Phrase Symbol s → Prop
  | .one _, t => Leaves (visits extent t.datum) (renameNode extent t.datum) t.scoping
  | .many _, ts => ∀ (d : Datum) (ps : List (Part d)), ps.map (·.1) = ts.datum →
      Leaves (visits extent d) (ps.mapM call) ts.scoping
  | .group, g => ∀ (d : Datum) (ps : List (Part d)), ps.map (·.1) = g.datum →
      Leaves (visits extent d) (ps.mapM renameMember) g.scoping
  | .declarations, bs => ∀ (d : Datum) (ps : List (Part d)), ps.map (·.1) = bs.datum →
      Leaves (visits extent d) (ps.mapM renameDeclared) bs.scoping

section Members

variable {extent : Extent} {d : Datum}

theorem leaves_renameRight {p : Part d} {e : Phrase Symbol (.one .expression)}
    (right : p.1.attribute? "expression" = some e.datum) (h : e.Leaving extent) :
    Leaves (visits extent d) (renameRight p) e.scoping := by
  obtain ⟨q, found, same⟩ := Part.attr_ok right
  exact leaves_ofExcept_bind found (leaves_call same h)

theorem gains_bindMembers : (g : Phrase Symbol .group) → (ps : List (Part d)) →
    ps.map (·.1) = g.datum → ∀ r : Resolver, r.supply.pinned = none →
    (ps.mapM bindMember).Obeys .free (visits extent d) r fun _ r' =>
      r.Gains (numbered r.counter g.names) g.names.length r'
  | .noBinding, ps, same, r, unpinned => by
      rw [List.map_eq_nil_iff.1 same, List.mapM_nil, names]
      exact obeys_pure (.none unpinned)
  | .binding x right type arity rest, ps, same, r, unpinned => by
      obtain ⟨p, qs, rfl, first, others⟩ := List.map_eq_cons_iff.1 same
      have named : p.1.attribute? "name" = some x.datum := by rw [first]; rfl
      obtain ⟨q, found, same⟩ := Part.attr_ok named
      have head : Leaves (visits extent d) (bindMember p) (Scoping.bind x) := by
        refine leaves_ofExcept_bind found ?_
        rw [same]
        exact leaves_bindFresh x
      refine (head r unpinned).mapM_cons fun t _ gained => ?_
      refine (gains_bindMembers rest qs others t gained.unpinned).imp fun _ u _ gained' => ?_
      rw [gained.counter] at gained'
      rw [names, List.length_cons, Nat.add_comm]
      exact gained.append gained'

theorem leaves_renameGroup {x : Part d} {g : Phrase Symbol .group}
    (items : x.1.items? = some g.datum) (h : g.Leaving extent) :
    Leaves (visits extent d) (renameGroup x) (Scoping.group g.scoping) := by
  intro r unpinned
  obtain ⟨ps, found, same⟩ := Part.items_ok items
  refine (obeys_ofExcept fun _ _ => trivial).bind fun qs t _ held => ?_
  obtain ⟨held, rfl⟩ := held
  cases found.symm.trans held
  refine (gains_bindMembers g ps same t unpinned).bind fun _ u _ gained => ?_
  refine (h d ps same u gained.unpinned).bind fun renamed w _ gained' => obeys_pure ?_
  rw [gained.counter] at gained'
  have both := gained.append gained'
  rwa [← g.names_scoping] at both

theorem leaves_renameMember {p : Part d} {x : Symbol} {right : Phrase Symbol (.one .expression)}
    {type arity : Datum} (member : p.1 = node .binding [x.datum, right.datum, type, arity])
    (h : right.Leaving extent) : Leaves (visits extent d) (renameMember p) right.scoping := by
  have bindsTo : p.1.attribute? "expression" = some right.datum := by rw [member]; rfl
  refine (leaves_ofExcept _).preceded fun symbol => ?_
  refine (leaves_boundName symbol.1).preceded fun bound => ?_
  exact (leaves_renameRight bindsTo h).followed fun _ => leaves_ofExcept _

theorem leaves_renameDeclared {p : Part d} {x : Symbol} {right : Phrase Symbol (.one .expression)}
    {type arity : Datum} (member : p.1 = node .binding [x.datum, right.datum, type, arity])
    (h : right.Leaving extent) : Leaves (visits extent d) (renameDeclared p) right.scoping := by
  have bindsTo : p.1.attribute? "expression" = some right.datum := by rw [member]; rfl
  refine (leaves_renameRight bindsTo h).followed fun right => ?_
  exact (leaves_ofExcept _).preceded fun symbol => leaves_ofExcept _

theorem leaves_renameDeclarations {x : Part d} {bs : Phrase Symbol .declarations}
    (items : x.1.items? = some bs.datum) (h : bs.Leaving extent) :
    Leaves (visits extent d) (renameDeclarations x) bs.scoping := by
  obtain ⟨ps, found, same⟩ := Part.items_ok items
  exact leaves_ofExcept_bind found (h d ps same)

end Members

-- Outside a module constructors, definitions and instances are refused, and nothing is to be shown.
theorem leaving (extent : Extent) {s : Shape} (t : Phrase Symbol s) : t.Leaving extent := by
  induction t with
  | typed e type location ih =>
      exact (leaves_call rfl ih).followed fun _ => leaves_pure _
  | located e location ih =>
      exact (leaves_call rfl ih).followed fun _ => leaves_pure _
  | literal f value =>
      have through : passesThrough f.form = true := by cases f <;> rfl
      have fields : f.form.fields = ["value"] := by cases f <;> rfl
      rw [Leaving, datum, node, renameNode_of_passesThrough through]
      exact leaves_rebuild_single fields (leaves_fieldChange_plain value.plain value.itemless)
  | reference x =>
      exact (leaves_nameOf x).followed fun _ => leaves_pure _
  | apply f a ihf iha =>
      rw [Leaving, datum, node, renameNode_of_passesThrough rfl]
      exact leaves_rebuild_pair rfl (leaves_fieldChange_node f.isNode_datum (leaves_call rfl ihf))
        (leaves_fieldChange_node a.isNode_datum (leaves_call rfl iha))
  | lambda x body ih =>
      refine Leaves.inScope ((leaves_bindFresh x).seq fun _ => ?_)
      exact (leaves_call rfl ih).followed fun _ => leaves_pure _
  | letIn g body ihg ih =>
      refine Leaves.inScope ((leaves_renameGroup rfl ihg).seq fun _ => ?_)
      exact (leaves_call rfl ih).followed fun _ => leaves_pure _
  | caseOf e alternatives ihe iha =>
      refine (leaves_renameItems rfl (iha _)).seq fun _ => ?_
      exact (leaves_call rfl ihe).followed fun _ => leaves_pure _
  | doBlock statements e ihs ihe =>
      rw [Leaving, datum, node, renameNode_of_passesThrough rfl]
      exact leaves_rebuild_pair rfl
        (leaves_fieldChange_items statements.isNode_of_mem (ihs _))
        (leaves_fieldChange_node e.isNode_datum (leaves_call rfl ihe))
  | locatedPattern p location ih =>
      exact (leaves_call rfl ih).followed fun _ => leaves_pure _
  | numberPattern value =>
      rw [Leaving, datum, node, renameNode_of_passesThrough rfl]
      exact leaves_rebuild_single rfl (leaves_fieldChange_plain value.plain value.itemless)
  | wildCardPattern =>
      rw [Leaving, datum, node, renameNode_of_passesThrough rfl, rebuild_builtin]
      exact (leaves_mapM_nil _).followed fun _ => leaves_ofExcept _
  | identifierPattern x =>
      exact (leaves_bindFresh x).followed fun _ => leaves_pure _
  | constructorPattern x patterns ih =>
      exact (leaves_renameItems rfl (ih _)).followed fun _ => leaves_pure _
  | alternative p e ihp ihe =>
      refine Leaves.inScope ((leaves_call rfl ihp).seq fun _ => ?_)
      exact (leaves_call rfl ihe).followed fun _ => leaves_pure _
  | doExpr e ih =>
      rw [Leaving, scoping, datum, node, renameNode_of_passesThrough rfl]
      exact leaves_rebuild_single rfl (leaves_fieldChange_node e.isNode_datum (leaves_call rfl ih))
  | doLet g ih =>
      exact (leaves_renameGroup rfl ih).followed fun _ => leaves_pure _
  | doBind p e ihp ihe =>
      rw [Leaving, datum, node, renameNode_of_passesThrough rfl]
      exact leaves_rebuild_pair rfl (leaves_fieldChange_node p.isNode_datum (leaves_call rfl ihp))
        (leaves_fieldChange_node e.isNode_datum (leaves_call rfl ihe))
  | constructor x type tag arity =>
      cases extent with
      | expression => exact leaves_unsupported _
      | module => exact leaves_pure _
  | definition constructors type parameters ih =>
      cases extent with
      | expression => exact leaves_unsupported _
      | module => exact (leaves_renameItems rfl (ih _)).followed fun _ => leaves_pure _
  | instanceOf bindings constraints type classname ih =>
      cases extent with
      | expression => exact leaves_unsupported _
      | module => exact (leaves_renameDeclarations rfl ih).followed fun _ => leaves_pure _
  | nil category =>
      intro d ps same
      rw [List.map_eq_nil_iff.1 same]
      exact leaves_mapM_nil _
  | cons t ts iht ihts =>
      intro d ps same
      obtain ⟨p, qs, rfl, first, others⟩ := List.map_eq_cons_iff.1 same
      exact (leaves_call first iht).mapM_cons (ihts d qs others) (fun _ => rfl) rfl
  | noBinding =>
      intro d ps same
      rw [List.map_eq_nil_iff.1 same]
      exact fun r unpinned => leaves_mapM_nil _ r unpinned
  | binding x right type arity rest ihright ihrest =>
      intro d ps same
      obtain ⟨p, qs, rfl, first, others⟩ := List.map_eq_cons_iff.1 same
      have head := leaves_renameMember first ihright
      exact head.mapM_cons (ihrest d qs others) (fun _ => rfl) rfl
  | noDeclaration =>
      intro d ps same
      rw [List.map_eq_nil_iff.1 same]
      exact leaves_mapM_nil _
  | declaration x right type arity rest ihright ihrest =>
      intro d ps same
      obtain ⟨p, qs, rfl, first, others⟩ := List.map_eq_cons_iff.1 same
      have head := leaves_renameDeclared first ihright
      exact head.mapM_cons (ihrest d qs others) (fun _ => rfl) rfl

end Phrase

namespace Resolver

def left (r : Resolver) {s : Shape} (t : Phrase Symbol s) : List Name :=
  match r.supply.pinned with
  | none => t.scoping.leaked r.counter
  | some _ => []

theorem gains_rename (extent : Extent) {c : Category} (t : Phrase Symbol (.one c)) {r r' : Resolver}
    {v : Datum} (unpinned : r.supply.pinned = none) (h : r.rename extent t.datum = (.ok v, r')) :
    r.Gains (t.scoping.leaked r.counter) t.scoping.count r' := by
  obtain ⟨⟨out, r₁⟩, ended, admitted⟩ := t.leaving extent r unpinned
  rw [rename_eq_recurse, Visitor.recurse_eq] at h
  cases ended.run_eq.symm.trans h
  exact admitted.returns v rfl

/-- A renaming that succeeds gives the innermost scope the names that the tree leaks, one after the
other, and leaves the scopes around it alone. If the tree leaks nothing, all scopes stay as they
were. -/
theorem rename_leaves (extent : Extent) {c : Category} (t : Phrase Symbol (.one c))
    (r r' : Resolver) (v : Datum) (h : r.rename extent t.datum = (.ok v, r')) :
    r'.scopes.outer = r.scopes.outer ∧
      r.scopes.inner.putAll ((r.left t).map Name.slot) = .ok r'.scopes.inner ∧
      (t.scoping.leaks = [] → r'.scopes = r.scopes) := by
  cases pinned : r.supply.pinned with
  | some uid =>
      have secured := (rename_keeps extent t.datum r).moves
      rw [h] at secured
      have still : r'.scopes = r.scopes := secured.idle (by rw [pinned]; exact (nomatch ·))
      rw [left, pinned, still]
      exact ⟨rfl, rfl, fun _ => rfl⟩
  | none =>
      have gained := gains_rename extent t pinned h
      rw [left, pinned]
      refine ⟨gained.outer, gained.inner, fun nothing => ?_⟩
      have leaked : t.scoping.leaked r.counter = [] := by
        rw [← List.map_eq_nil_iff, t.scoping.map_essence_leaked, nothing]
      rw [leaked] at gained
      exact gained.scopes

def rebindingBlock : Phrase Symbol (.one .expression) :=
  let x := Symbol.ofText "x"
  let y := Symbol.ofText "y"
  let hidden := .lambda x (.doBlock (.cons (.doBind (.identifierPattern y) (.reference x))
    (.nil .statement)) (.reference y))
  .doBlock (.cons (.doBind (.identifierPattern x) hidden)
    (.cons (.doLet (.binding y (.reference x) .null (.int 0) .noBinding))
    (.cons (.doBind (.identifierPattern x) (.reference y)) (.nil .statement)))) (.reference x)

theorem rebindingBlock_leaves :
    ∃ v r', initial.enter.rename .expression rebindingBlock.datum = (.ok v, r') ∧
      r'.scopes.outer = [Dictionary.empty] ∧
      Dictionary.empty.putAll
        ([⟨.ofText "x", 2⟩, ⟨.ofText "y", 5⟩, ⟨.ofText "x", 6⟩].map Name.slot) =
          .ok r'.scopes.inner := by
  obtain ⟨r', renamed, _⟩ := rebindingBlock.refined .expression trivial .initial initial.enter
    shows_initial.enter
  rw [← rename_eq_recurse] at renamed
  have left := rename_leaves .expression rebindingBlock initial.enter r' _ renamed
  exact ⟨_, r', renamed, left.1, left.2.1⟩

end Resolver

end ScopeResolution
