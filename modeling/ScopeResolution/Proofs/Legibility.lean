import ScopeResolution.Proofs.Datum.Legible
import ScopeResolution.Proofs.Dictionary.Apart
import ScopeResolution.Proofs.Dumps
import ScopeResolution.Proofs.Names.Listing

namespace ScopeResolution

theorem Dictionary.Apart.nodup {d : Dictionary} (apart : d.Apart) :
    (d.keys.map (·.datum)).Nodup := by
  rw [List.Nodup, List.pairwise_map]
  refine apart.imp fun {k l} unmet same => ?_
  rw [Keyed.eq_of_datum same, Keyed.meets_self] at unmet
  cases unmet

namespace NameSet

theorem apart_insert {s : NameSet} (apart : s.members.Apart) (d : Datum) :
    (s.insert d).2.members.Apart := by
  rw [insert, Dictionary.siteOf]
  cases keyed : d.keyed with
  | error fault => exact apart
  | ok k =>
      cases placed : s.members.site k with
      | error fault => simpa [placed, bind, Except.bind] using apart
      | ok site => simpa [placed, bind, Except.bind] using apart.settle placed .null

theorem apart_record (roles : Roles) (ms : List Mention) {s : NameSet} (apart : s.members.Apart) :
    (record roles ms s).2.members.Apart := by
  induction ms generalizing s with
  | nil => exact apart
  | cons m ms ih =>
      cases m with
      | fault f => exact apart
      | name role d =>
          rw [record]
          split
          · have taken := apart_insert apart d
            split <;> rename_i inserted <;> rw [inserted] at taken
            · exact ih taken
            · exact taken
          · exact ih apart

theorem nodup_of_names {tree : Datum} {roles : Roles} {s : NameSet}
    (collected : tree.names roles = .ok s) : s.toList.Nodup := by
  have apart := apart_record roles tree.mentions (s := empty) Dictionary.apart_empty
  rw [Datum.names_eq_gather, gather] at collected
  split at collected
  case h_1 t recorded =>
    cases collected
    rw [recorded] at apart
    exact apart.nodup
  case h_2 => cases collected

end NameSet

namespace Datum

theorem MadeOf.regular {d : Datum} (made : d.MadeOf Kind.IsBuiltIn) : d.regular = true := by
  induction made with
  | list _ ih => exact regular_all_iff.2 ih
  | tuple _ ih => exact regular_all_iff.2 ih
  | name _ _ symbol uid => simp [Datum.regular, symbol, uid]
  | node own full _ ih =>
      obtain ⟨f, rfl⟩ := own
      have plain : (Kind.builtin f).tag.regular (Kind.builtin f).fields.length = true := by
        cases f <;> decide
      simp [Datum.regular, full, plain, regular_all_iff.2 ih]
  | _ => rfl

theorem MadeOf.rendered {d : Datum} (made : d.MadeOf Kind.IsBuiltIn) :
    d.rendered = .ok d.render := by
  rw [Datum.rendered, renderFault?, passageFault?_of_regular d .inTurn made.regular]

theorem eq_of_render {d e : Datum} (hd : d.MadeOf Kind.IsBuiltIn) (he : e.MadeOf Kind.IsBuiltIn)
    (same : d.render = e.render) : d = e :=
  (legible hd e he [] [] rfl rfl (congrArg (·.toList ++ []) same)).1

end Datum

namespace DebugOptions

open Datum

theorem text_of_ast {o : DebugOptions} {d : Datum} {m : Dictionary} {t : String}
    (made : d.MadeOf Kind.IsBuiltIn) (ast : o.ast = true) (shown : o.text d m = .ok t) :
    ∃ rest, t.toList = "-- ast --\n".toList ++ (d.render.toList ++ '\n' :: rest) := by
  obtain ⟨first, names, notes, rfl, tree, _, _⟩ := (Dump.text_eq_ok_iff ⟨o, d, m⟩ t).1 shown
  simp only [ast, Dump.Part, if_true] at tree
  obtain ⟨_, ⟨r, rendered, rfl⟩, rfl⟩ := tree
  cases made.rendered.symm.trans rendered
  exact ⟨names.toList ++ notes.toList, by simp⟩

end DebugOptions

namespace NameSet

theorem mapM_rendered {ds : List Datum} (members : ∀ d ∈ ds, d.MadeOf Kind.IsBuiltIn) :
    ds.mapM Datum.rendered = .ok (ds.map Datum.render) := by
  induction ds with
  | nil => rfl
  | cons d ds ih =>
      rw [List.forall_mem_cons] at members
      rw [List.mapM_cons, members.1.rendered, ih members.2]
      rfl

def byText (ds : List Datum) : List Datum :=
  ds.mergeSort fun d e => !(decide (e.render < d.render))

theorem byText_perm (ds : List Datum) : (byText ds).Perm ds :=
  List.mergeSort_perm ds _

theorem pairwise_byText {ds : List Datum} (apart : (ds.map Datum.render).Nodup) :
    (byText ds).Pairwise fun d e => d.render < e.render := by
  have texts : (byText ds).map Datum.render = Names.sortedTexts (ds.map Datum.render) :=
    List.map_mergeSort fun _ _ _ _ => rfl
  have weak := Names.pairwise_sortedTexts (ds.map Datum.render)
  have distinct : (Names.sortedTexts (ds.map Datum.render)).Nodup :=
    (Names.sortedTexts_perm _).nodup_iff.2 apart
  rw [← texts] at weak distinct
  rw [List.Nodup, List.pairwise_map] at distinct
  exact ((List.pairwise_map.1 weak).and distinct).imp fun both =>
    Std.lt_of_le_of_ne both.1 both.2

theorem sorted_eq {s : NameSet} (members : ∀ d ∈ s.toList, d.MadeOf Kind.IsBuiltIn) :
    s.sorted = .ok (byText s.toList) := by
  have paired : (s.toList.map Datum.render).zip s.toList =
      s.toList.map fun d => (d.render, d) := by
    rw [← List.zip_map', List.map_id']
  have sorted : (byText s.toList).map (fun d => (d.render, d)) =
      (s.toList.map fun d => (d.render, d)).mergeSort fun a b => !(decide (b.1 < a.1)) :=
    List.map_mergeSort fun _ _ _ _ => rfl
  rw [NameSet.sorted, mapM_rendered members]
  simp only [bind, Except.bind, pure, Except.pure, paired, ← sorted, List.map_map]
  exact congrArg _ (List.map_id' _)

end NameSet

namespace Datum

structure TextsTell (C : Datum → Prop) : Prop where
  shown {d : Datum} : C d → d.rendered = .ok d.render
  alone {d e : Datum} : C d → C e → d.render = e.render → d = e
  dumped {d e : Datum} {o o' : DebugOptions} {m m' : Dictionary} {t : String} : C d → C e →
    o.ast = true → o'.ast = true → o.text d m = .ok t → o'.text e m' = .ok t → d = e
  ordered {d e : Datum} : C d → C e → d.render < e.render ∨ d = e ∨ e.render < d.render
  arranged {tree : Datum} {roles : Roles} {s : NameSet} : tree.names roles = .ok s →
    (∀ d ∈ s.toList, C d) → ∃ ds, s.sorted = .ok ds ∧ ∀ es : List Datum,
      es.Perm s.toList ∧ es.Pairwise (fun d e => d.render < e.render) ↔ es = ds

theorem texts_tell : TextsTell (MadeOf Kind.IsBuiltIn) where
  shown made := made.rendered
  alone := eq_of_render
  dumped {d e o o' m m' t} hd he ast ast' shown shown' := by
    obtain ⟨rest, first⟩ := DebugOptions.text_of_ast hd ast shown
    obtain ⟨rest', second⟩ := DebugOptions.text_of_ast he ast' shown'
    rw [first] at second
    exact (legible hd e he _ _ rfl rfl (List.append_cancel_left second)).1
  ordered {d e} hd he := (Std.lt_trichotomy d.render e.render).imp_right
    (Or.imp_left (eq_of_render hd he))
  arranged {tree roles s} collected members := by
    refine ⟨_, NameSet.sorted_eq members, fun es => ?_⟩
    have apart : (s.toList.map render).Nodup :=
      (NameSet.nodup_of_names collected).map_on fun d hd e he same =>
        eq_of_render (members d hd) (members e he) same
    have sorted := NameSet.pairwise_byText apart
    have perm := NameSet.byText_perm s.toList
    refine ⟨fun ⟨perm', sorted'⟩ => ?_, fun same => same ▸ ⟨perm, sorted⟩⟩
    exact (perm'.trans perm.symm).eq_of_pairwise
      (fun d e _ _ less more => absurd less (String.lt_asymm more)) sorted' sorted

def imitations : List Datum :=
  [.name (.text "x") (.int 1), .tuple [.text "x", .int 1], .text "Name(symbol='x', uid=1)",
   .tuple [.text "x', 1"], .tuple [.text "x"], .list [.text "x"], .text "x", .bool true, .int 1,
   .text "True", .node (.builtin .identifier) [.text "x"], .text "'\""]

theorem imitations_told : (imitations.map render).Nodup := by
  have x : (text "x").MadeOf Kind.IsBuiltIn := .text "x"
  have made : ∀ d ∈ imitations, d.MadeOf Kind.IsBuiltIn := by
    simp only [imitations, List.forall_mem_cons, List.not_mem_nil, false_imp_iff, implies_true,
      and_true]
    refine ⟨.name x (.int 1), .tuple ?_, .text _, .tuple ?_, .tuple ?_, .list ?_, x, .bool true,
      .int 1, .text _, .node ⟨_, rfl⟩ rfl ?_, .text _⟩
    · exact List.forall_mem_cons.2 ⟨x, List.forall_mem_singleton.2 (.int 1)⟩
    · exact List.forall_mem_singleton.2 (.text _)
    · exact List.forall_mem_singleton.2 x
    · exact List.forall_mem_singleton.2 x
    · exact List.forall_mem_singleton.2 x
  have apart : imitations.Nodup := by
    simp [imitations]
  exact apart.map_on fun d hd e he => texts_tell.alone (made d hd) (made e he)

end Datum

end ScopeResolution
