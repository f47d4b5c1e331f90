import ScopeResolution.Proofs.Growth
import ScopeResolution.Proofs.Rules

namespace ScopeResolution

namespace Renaming

open Datum Traversal Traversal.Routine

section Steps

variable {d : Datum} {go : Part d → Resolver → Outcome Resolver Fault Datum} {r : Resolver}

theorem obeys_ordinarily {α : Type} {x : Except Fault α} (h : FailsOrdinarily x) :
    Obeys Resolver.orderly go (ofExcept x) r fun a t => x = .ok a ∧ t = r :=
  obeys_ofExcept fun fault failed _ => .inl (h fault failed)

theorem keeps_ordinarily {κ α : Type} {x : Except Fault α} (h : FailsOrdinarily x) :
    Keeps Resolver.orderly (ofExcept x : Routine κ Resolver Fault Datum α) :=
  keeps_ofExcept fun _ fault failed _ => .inl (h fault failed)

theorem obeys_told (x : Datum) :
    Obeys Resolver.orderly go (told x) r fun _ t => t = r := by
  have shown : Obeys Resolver.orderly go (query fun r => r.limits.displayed x) r fun text t =>
      r.limits.displayed x = .ok text ∧ t = r :=
    obeys_query fun _ failed _ => Limits.allows_of_displayed failed
  exact shown.imp fun _ _ _ h => h.2

theorem bindFresh_keeps (symbol : Datum) :
    (bindFresh symbol : Script d Datum).Keeps Resolver.orderly :=
  fun _ _ r => (obeys_perform (Resolver.admits_freshName symbol r)).forget

theorem nameOf_keeps (symbol : Datum) :
    (nameOf symbol : Script d Datum).Keeps Resolver.orderly := by
  refine keeps_query fun r fault failed _ => .inl ?_
  refine ((r.scopes.ordinarily_lookup symbol).bind fun found => ?_) fault failed
  cases found <;> exact ordinarily_ok _

theorem inScope_keeps {body : Script d Datum} (h : body.Keeps Resolver.orderly) :
    (inScope body).Keeps Resolver.orderly := by
  intro go allowed r
  obtain ⟨p, ended, admitted⟩ := h go allowed r.enter
  obtain ⟨r₂, left, scopes, supply, limits⟩ := admitted.moves.exit_of_enter
  have counted : r.counter ≤ p.2.counter := admitted.moves.counter
  refine ⟨(p.1, r₂), ended.within left, .of_same scopes ?_ ?_ ?_, admitted.fails,
    fun _ _ => trivial⟩
  · simpa only [Resolver.counter, supply] using counted
  · exact limits.trans admitted.moves.limits
  · rw [supply]
    exact admitted.moves.pinned

theorem renameRight_keeps (b : Part d) : (renameRight b).Keeps Resolver.orderly :=
  (keeps_ordinarily (b.ordinarily_attr _)).bind fun e => keeps_call e

def Named (b : Part d) (r : Resolver) : Prop :=
  r.supply.pinned = none → ∀ symbol, b.attr "name" = .ok symbol → r.Registered symbol.1

theorem Named.of_moves {b : Part d} {r r' : Resolver} (moved : r.Secures r') (h : Named b r) :
    Named b r' :=
  fun unpinned symbol named => moved.registered (h (moved.pinned.symm.trans unpinned) symbol named)

theorem bindMember_obeys (b : Part d) :
    (bindMember b).Obeys Resolver.orderly go r fun _ => Named b := by
  refine (obeys_ordinarily (b.ordinarily_attr _)).bind fun symbol t _ found => ?_
  have bound : (bindFresh symbol.1).Obeys Resolver.orderly go t fun _ u =>
      t.supply.pinned = none → u.Registered symbol.1 :=
    obeys_perform (Resolver.admits_freshName symbol.1 t)
  refine bound.imp fun _ u moved registered unpinned other named => ?_
  cases found.1.symm.trans named
  exact registered (moved.pinned.symm.trans unpinned)

theorem boundName_obeys {symbol : Datum} (h : r.supply.pinned = none → r.Registered symbol) :
    (boundName symbol : Script d Datum).Obeys Resolver.orderly go r fun _ _ => True := by
  have looked : Obeys Resolver.orderly go (query (Resolver.lookup symbol)) r fun found t =>
      r.lookup symbol = .ok found ∧ t = r :=
    obeys_query fun fault failed _ => .inl <| r.scopes.ordinarily_lookup symbol fault failed
  refine looked.bind fun found t _ held => ?_
  obtain ⟨held, rfl⟩ := held
  cases found with
  | null =>
      refine (obeys_told symbol).bind fun text u moved _ => ?_
      refine (obeys_modify (Resolver.secures_error _ u)).bind fun _ w moved' _ => ?_
      refine obeys_fail fun unpinned => ?_
      -- what is registered is not found to be null
      have moved : t.Secures w := moved.trans moved'
      obtain ⟨v, found, filled⟩ := (h (moved.pinned.symm.trans unpinned)).lookup
      rw [held, Except.ok.injEq] at found
      exact absurd found.symm filled
  | _ => exact obeys_pure trivial

theorem renameMember_obeys (allowed : Resolver.orderly.Allows go) {b : Part d} (h : Named b r) :
    (renameMember b).Obeys Resolver.orderly go r fun _ _ => True := by
  refine (obeys_ordinarily (b.ordinarily_attr _)).bind fun symbol t _ found => ?_
  obtain ⟨found, rfl⟩ := found
  refine (boundName_obeys fun unpinned => h unpinned symbol found).bind fun bound u _ _ => ?_
  refine (renameRight_keeps b go allowed u).bind fun right w _ _ => ?_
  exact (obeys_ordinarily (ordinarily_update _ b.1)).forget

theorem renameGroup_keeps (x : Part d) : (renameGroup x).Keeps Resolver.orderly := by
  refine (keeps_ordinarily x.ordinarily_items).bind fun bs go allowed r => ?_
  have named : Obeys Resolver.orderly go (bs.mapM bindMember) r fun _ t => ∀ b ∈ bs, Named b t :=
    obeys_mapM (fun _ _ _ => Named.of_moves) fun b _ t _ => bindMember_obeys b
  refine named.bind fun _ t _ all => ?_
  have renamed : Obeys Resolver.orderly go (bs.mapM renameMember) t fun _ _ => ∀ b ∈ bs, True :=
    obeys_mapM (fun _ _ _ _ _ => trivial) fun b mem u moved =>
      renameMember_obeys allowed ((all b mem).of_moves moved)
  exact renamed.bind fun _ _ _ _ => obeys_pure trivial

end Steps

theorem upheld_keeps (d : Datum) : Upheld d fun r => r.Keeps Resolver.orderly where
  pure := keeps_pure
  bind := Keeps.bind
  attempt := keeps_ordinarily
  told x _ _ _ := (obeys_told x).forget
  debug text := keeps_modify fun r => Resolver.secures_debug text r
  nameOf := nameOf_keeps
  bindFresh := bindFresh_keeps
  inScope := inScope_keeps
  call := keeps_call
  group := renameGroup_keeps

theorem renameNode_keeps (extent : Extent) (d : Datum) :
    (renameNode extent d).Keeps Resolver.orderly :=
  (upheld_keeps d).visit extent

end Renaming

namespace Resolver

open Renaming (Extent)

theorem rename_eq_recurse (extent : Extent) (tree : Datum) (r : Resolver) :
    r.rename extent tree = (Renaming.visitor extent).recurse tree r :=
  Traversal.Visitor.drive_eq_recurse _ tree r

theorem rename_keeps (extent : Extent) (tree : Datum) (r : Resolver) :
    orderly.Admits r (r.rename extent tree) fun _ _ => True := by
  rw [rename_eq_recurse]
  exact Traversal.Visitor.recurse_keeps (Renaming.renameNode_keeps extent) tree r

theorem rename_grows (extent : Extent) (tree : Datum) (r : Resolver) :
    r.Grows (r.rename extent tree).2 :=
  (rename_keeps extent tree r).moves.toGrows

/-- However a renaming ends, the depth and the scopes around the innermost one are what they were,
the innermost one holds every symbol it held, in the same place, and no number is given back. -/
theorem rename_balanced (extent : Extent) (tree : Datum) (r : Resolver) :
    (r.rename extent tree).2.scopes.depth = r.scopes.depth ∧
      (r.rename extent tree).2.scopes.outer = r.scopes.outer ∧
      r.scopes.inner.keys <+: (r.rename extent tree).2.scopes.inner.keys ∧
      r.counter ≤ (r.rename extent tree).2.counter := by
  have grown := rename_grows extent tree r
  exact ⟨grown.depth, grown.outer, grown.keys, grown.counter⟩

end Resolver

end ScopeResolution
