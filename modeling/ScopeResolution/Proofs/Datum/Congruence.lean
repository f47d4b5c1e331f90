import ScopeResolution.Proofs.Vocabulary

namespace ScopeResolution

namespace Datum

inductive HoldsList : Datum → Prop
  | list (xs : List Datum) : HoldsList (.list xs)
  | item {xs : List Datum} {x : Datum} (mem : x ∈ xs) (h : HoldsList x) : HoldsList (.tuple xs)
  | symbol {s : Datum} (u : Datum) (h : HoldsList s) : HoldsList (.name s u)
  | uid {u : Datum} (s : Datum) (h : HoldsList u) : HoldsList (.name s u)
  | field {k : Kind} {fs : List Datum} {v : Datum} (mem : v ∈ fs) (h : HoldsList v) :
      HoldsList (.node k fs)

mutual

theorem holdsList_essence : (d : Datum) → (d.essence.holdsList = true ↔ d.HoldsList)
  | .null => ⟨nofun, nofun⟩
  | .bool _ => ⟨nofun, nofun⟩
  | .int _ => ⟨nofun, nofun⟩
  | .real d => by
      rw [(essence_real_key d).1]
      exact ⟨nofun, nofun⟩
  | .text _ => ⟨nofun, nofun⟩
  | .list xs => ⟨fun _ => .list xs, fun _ => rfl⟩
  | .tuple xs => by
      rw [essence, Essence.holdsList, anyHoldsList_essences xs]
      exact ⟨fun ⟨x, mem, h⟩ => .item mem h, fun | .item mem h => ⟨_, mem, h⟩⟩
  | .name s u => by
      have symbol := holdsList_essence s
      have uid := holdsList_essence u
      simp only [essence, Essence.holdsList, Essence.holdsList.anyHoldsList, Bool.or_eq_true,
        symbol, uid, Bool.false_eq_true, or_false]
      refine ⟨fun h => h.elim (.symbol u) (.uid s), fun h => ?_⟩
      cases h with
      | symbol _ h => exact .inl h
      | uid _ h => exact .inr h
  | .node k fs => by
      rw [essence, Essence.holdsList, anyHoldsList_essences fs]
      exact ⟨fun ⟨v, mem, h⟩ => .field mem h, fun | .field mem h => ⟨_, mem, h⟩⟩

theorem anyHoldsList_essences : (ds : List Datum) →
    (Essence.holdsList.anyHoldsList (essence.essences ds) = true ↔ ∃ d ∈ ds, d.HoldsList)
  | [] => ⟨nofun, nofun⟩
  | d :: ds => by
      simp only [essence.essences, Essence.holdsList.anyHoldsList, Bool.or_eq_true,
        holdsList_essence d, anyHoldsList_essences ds, List.exists_mem_cons_iff]

end

/-- Equality is an equivalence on the class, and equal values have one key or none. -/
structure Congruence (C : Datum → Prop) : Prop where
  answers {a b : Datum} : C a → C b → ∃ r, a.equals b = .ok r ∧ a.differs b = .ok (!r)
  refl {a : Datum} : C a → a.Equal a
  symm {a b : Datum} : C a → C b → a.equals b = b.equals a
  trans {a b c : Datum} : C a → C b → C c → a.Equal b → b.Equal c → a.Equal c
  key_eq {a b : Datum} : C a → C b → a.Equal b → a.key = b.key
  unkeyed {a : Datum} : C a → a.HoldsList → a.key = .error .unhashable
  keyed {a : Datum} : C a → ¬ a.HoldsList → ∃ k, a.key = .ok k

structure Crossings (C : Datum → Prop) : Prop where
  one : (int 1).Equal (bool true)
  zero : (int 0).Equal (bool false)
  name_tuple {s u : Datum} : C (.name s u) → C (.tuple [s, u]) → (name s u).Equal (tuple [s, u])
  list_apart {xs : List Datum} {b : Datum} : C (.list xs) → C b → (∀ ys, b ≠ .list ys) →
    (list xs).equals b = .ok false
  node_iff {k l : Kind} {fs gs : List Datum} : C (.node k fs) → C (.node l gs) →
    ((node k fs).Equal (node l gs) ↔ k.unplaced = l.unplaced ∧ List.Forall₂ Equal fs gs)
  ancestor_apart {k l : Kind} {fs gs : List Datum} : C (.node k fs) → C (.node l gs) →
    l.unplaced ∈ k.ancestors → (node k fs).equals (node l gs) = .ok false

namespace Closed

variable {C : Datum → Prop}

theorem equals_eq (closed : Closed C) {a b : Datum} (ha : C a) (hb : C b) :
    a.equals b = .ok (decide (a.essence = b.essence)) :=
  closed.tells a ha .left b hb

theorem equal_iff (closed : Closed C) {a b : Datum} (ha : C a) (hb : C b) :
    a.Equal b ↔ a.essence = b.essence := by
  rw [Equal, closed.equals_eq ha hb, Except.ok.injEq, decide_eq_true_eq]

theorem congruence (closed : Closed C) : Congruence C where
  answers ha hb := by
    refine ⟨_, closed.equals_eq ha hb, ?_⟩
    rw [differs, closed.equals_eq ha hb]
    rfl
  refl ha := (closed.equal_iff ha ha).2 rfl
  symm ha hb := by
    rw [closed.equals_eq ha hb, closed.equals_eq hb ha]
    exact congrArg _ (decide_eq_decide.2 eq_comm)
  trans ha hb hc first second := by
    rw [closed.equal_iff ha hb] at first
    rw [closed.equal_iff hb hc] at second
    exact (closed.equal_iff ha hc).2 (first.trans second)
  key_eq ha hb equal := by
    rw [closed.key_eq _ ha, closed.key_eq _ hb, (closed.equal_iff ha hb).1 equal]
  unkeyed {a} ha holds := by
    rw [closed.key_eq a ha, if_pos ((holdsList_essence a).2 holds)]
  keyed {a} ha without := by
    rw [closed.key_eq a ha, if_neg fun holds => without ((holdsList_essence a).1 holds)]
    exact ⟨_, rfl⟩

theorem essences_eq_iff (closed : Closed C) {xs ys : List Datum} (hx : ∀ x ∈ xs, C x)
    (hy : ∀ y ∈ ys, C y) :
    essence.essences xs = essence.essences ys ↔ List.Forall₂ Equal xs ys := by
  induction xs generalizing ys with
  | nil => cases ys <;> simp [essence.essences]
  | cons x xs ih =>
      cases ys with
      | nil => simp [essence.essences]
      | cons y ys =>
          rw [List.forall_mem_cons] at hx hy
          rw [essence.essences, essence.essences, List.cons.injEq, List.forall₂_cons,
            closed.equal_iff hx.1 hy.1, ih hx.2 hy.2]

theorem crossings (closed : Closed C)
    (tags : ∀ {k l : Kind} {fs gs : List Datum}, C (.node k fs) → C (.node l gs) →
      (k.tag = l.tag ↔ k.unplaced = l.unplaced)) : Crossings C where
  one := rfl
  zero := rfl
  name_tuple ha hb := (closed.equal_iff ha hb).2 rfl
  list_apart {xs b} ha hb apart := by
    rw [closed.equals_eq ha hb, decide_eq_false (essence_list_ne xs apart)]
  node_iff ha hb := by
    rw [closed.equal_iff ha hb, essence, essence, Essence.node.injEq, tags ha hb,
      closed.essences_eq_iff (closed.fields ha) (closed.fields hb)]
  ancestor_apart {k l fs gs} ha hb above := by
    rw [closed.equals_eq ha hb, decide_eq_false]
    intro same
    exact Kind.unplaced_ne_of_ancestor above ((tags ha hb).1 (Essence.node.inj same).1)

end Closed

end Datum

namespace Vocabulary

theorem equality_respected {v : Vocabulary} (defined : v.Defined) :
    Datum.Congruence (Datum.MadeOf v.Direct) ∧ Datum.Crossings (Datum.MadeOf v.Direct) := by
  refine ⟨v.closed_direct.congruence, v.closed_direct.crossings fun own own' => ?_⟩
  cases own with
  | node own =>
      cases own' with
      | node own' =>
          refine ⟨defined.unplaced_eq_of_tag own.1 own'.1, fun same => ?_⟩
          rw [← Kind.tag_unplaced, same, Kind.tag_unplaced]

def call : Kind :=
  .derived 0 none "Call" ["func", "arg"] [] (.builtin .apply)

def send : Kind :=
  .derived 1 none "Send" ["func", "arg"] [] call

def calls : Vocabulary := ⟨[send, call], 0⟩

theorem defined_calls : calls.Defined := by
  have first : builtin.define "Call" none none (.builtin .apply) = .ok ⟨[call], 0⟩ := rfl
  have second : define ⟨[call], 0⟩ "Send" none none call = .ok calls := rfl
  exact .define (.define .builtin first) second

theorem nested_equality_respected :
    let called := Datum.name (.text "x") (.int 1)
    let spelled := Datum.tuple [.text "x", .bool true]
    let sent (x : Datum) := Datum.node send [x, .tuple [.bool true]]
    (sent called).Equal (sent spelled) ∧ (sent called).key = (sent spelled).key ∧
      (sent called).equals (.node call [called, .tuple [.bool true]]) = .ok false ∧
      (sent (.tuple [.list []])).key = .error .unhashable := by
  intro called spelled sent
  obtain ⟨congruence, crossings⟩ := equality_respected defined_calls
  have direct : calls.Direct send ∧ calls.Direct call := by
    simp [Direct, Has, calls, send, call, Kind.unplaced, Kind.fields, Own.name]
  have yes : (Datum.tuple [.bool true]).MadeOf calls.Direct :=
    .tuple (by simpa using .bool true)
  have first : called.MadeOf calls.Direct := .name (.text "x") (.int 1)
  have second : spelled.MadeOf calls.Direct := .tuple (by simpa using ⟨.text "x", .bool true⟩)
  have made {x : Datum} (h : x.MadeOf calls.Direct) : (sent x).MadeOf calls.Direct :=
    .node direct.1 rfl (by simpa using ⟨h, yes⟩)
  have base : (Datum.node call [called, .tuple [.bool true]]).MadeOf calls.Direct :=
    .node direct.2 rfl (by simpa using ⟨first, yes⟩)
  have parts : called.Equal spelled := rfl
  have equal : (sent called).Equal (sent spelled) := (crossings.node_iff (made first)
    (made second)).2 ⟨rfl, .cons parts (.cons (congruence.refl yes) .nil)⟩
  refine ⟨equal, congruence.key_eq (made first) (made second) equal, ?_, ?_⟩
  · exact crossings.ancestor_apart (made first) base List.mem_cons_self
  · have held : (Datum.tuple [.list []]).MadeOf calls.Direct :=
      .tuple (by simpa using .list (List.forall_mem_nil _))
    exact congruence.unkeyed (made held)
      (.field List.mem_cons_self (.item List.mem_cons_self (.list [])))

def selective : Kind :=
  .derived 0 none "Selective" [Own.names.name, "a"] [] (.builtin .node)

theorem selective_one_sided :
    let v : Vocabulary := ⟨[selective], 0⟩
    let none := Datum.node selective [.tuple [], .int 1]
    let one := Datum.node selective [.tuple [.text "a"], .int 2]
    v.Defined ∧ none.MadeOf v.Has ∧ one.MadeOf v.Has ∧
      none.equals one = .ok true ∧ one.equals none = .ok false ∧ none.key ≠ one.key := by
  intro v none one
  have derived : Vocabulary.builtin.define "Selective" (some [Own.names.name, "a"]) Option.none
      (.builtin .node) = .ok v := rfl
  have own : v.Has selective := .inr List.mem_cons_self
  refine ⟨.define .builtin derived, ?_, ?_, rfl, rfl, ?_⟩
  · exact .node own rfl (by simpa using ⟨.tuple (List.forall_mem_nil _), .int 1⟩)
  · exact .node own rfl (by simpa using ⟨.tuple (by simpa using .text "a"), .int 2⟩)
  · have first : none.key = .ok (.node selective.tag []) := rfl
    have second : one.key = .ok (.node selective.tag [.ofInt 2]) := rfl
    rw [first, second]
    simp

end Vocabulary

end ScopeResolution
