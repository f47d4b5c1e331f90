import ScopeResolution.Proofs.Datum.Comparison

namespace ScopeResolution

namespace Essence

def holdsList : Essence → Bool
  | .list _ => true
  | .tuple as => anyHoldsList as
  | .node _ as => anyHoldsList as
  | _ => false
where
  anyHoldsList : List Essence → Bool
    | [] => false
    | a :: as => holdsList a || anyHoldsList as

end Essence

namespace Datum

structure Closed (C : Datum → Prop) : Prop where
  number {d : Decimal} : C (.real d) → d.isNumber = true
  items {d : Datum} {xs : List Datum} : C d → d.tupleItems? = some xs → ∀ x ∈ xs, C x
  list {xs : List Datum} : C (.list xs) → ∀ x ∈ xs, C x
  names {k : Kind} {fs : List Datum} : C (.node k fs) → hiding? .names k fs = none
  full {k : Kind} {fs : List Datum} : C (.node k fs) → fs.length = k.fields.length
  fields {k : Kind} {fs : List Datum} : C (.node k fs) → ∀ x ∈ fs, C x

def Tells (C : Datum → Prop) (a : Datum) : Prop :=
  ∀ (side : Side) (b : Datum), C b → Told side a b

section Tells

variable {C : Datum → Prop}

theorem compareItems_of_tells {xs ys : List Datum} (side : Side) (hx : ∀ x ∈ xs, x.Tells C)
    (hy : ∀ y ∈ ys, C y) :
    compare.compareItems xs side ys = .ok (decide (essence.essences xs = essence.essences ys)) := by
  induction xs generalizing ys with
  | nil => cases ys <;> simp [compare.compareItems, essence.essences]
  | cons x xs ih =>
      cases ys with
      | nil => simp [compare.compareItems, essence.essences]
      | cons y ys =>
          rw [List.forall_mem_cons] at hx hy
          simp only [compare.compareItems, itemOutcome_of_told (hx.1 side y hy.1), ih hx.2 hy.2,
            essence.essences, List.cons.injEq]
          by_cases same : x.essence = y.essence <;>
            simp [same, bind, Except.bind, pure, Except.pure]

end Tells

namespace Closed

variable {C : Datum → Prop} (closed : Closed C)
include closed

theorem tells_of_tupleItems? {a : Datum} {xs : List Datum} (items : a.tupleItems? = some xs)
    (h : ∀ x ∈ xs, x.Tells C) : a.Tells C := by
  intro side b member
  rw [Told, compare_of_tupleItems? items, essence_of_tupleItems? items]
  cases items' : b.tupleItems? with
  | none => simp [(essence_ne_tuple items' _).symm]
  | some ys =>
      rw [essence_of_tupleItems? items']
      simpa using compareItems_of_tells (leader a b side) h (closed.items member items')

theorem tells_list {xs : List Datum} (h : ∀ x ∈ xs, x.Tells C) : (Datum.list xs).Tells C := by
  intro side b member
  cases b with
  | list ys =>
      simp only [Told, compare, essence, Essence.list.injEq]
      split
      · exact compareItems_of_tells side h (closed.list member)
      · rename_i apart
        have differ : essence.essences xs ≠ essence.essences ys := fun same =>
          apart (by simpa [length_essences] using congrArg List.length same)
        rw [decide_eq_false differ]
  | _ =>
      rw [Told, decide_eq_false (essence_list_ne xs fun ys => by simp)]
      rfl

theorem tells_node {k : Kind} {fs : List Datum} (own : C (.node k fs))
    (h : ∀ x ∈ fs, x.Tells C) : (node k fs).Tells C := by
  intro side b member
  cases isNode : b.isNode with
  | false => exact told_node_of_not isNode k fs side
  | true =>
      cases b with
      | node l gs =>
          by_cases tags : k.tag = l.tag
          · have even : fs.length = gs.length := by
              rw [closed.full own, closed.full member, Kind.fields_eq_of_tag tags]
            -- Either node may be asked first, and it lists the fields then.
            have told : ∀ side, List.Forall₂ (Told side) fs gs := fun side =>
              List.forall₂_iff_get.2 ⟨even, fun i hi hj =>
                h _ (List.get_mem fs ⟨i, hi⟩) side _
                  (closed.fields member _ (List.get_mem gs ⟨i, hj⟩))⟩
            cases side with
            | left =>
                simp only [Told, compare, known, closed.names own, fieldNames, essence,
                  Essence.node.injEq, tags, true_and]
                exact agreement_of_told (told .left) (closed.full own)
            | right =>
                simp only [Told, compare, known, closed.names member, fieldNames, essence,
                  Essence.node.injEq, tags, true_and]
                exact agreement_of_told (told .right) (even.trans (closed.full member))
          · simp [Told, compare, essence, tags]
      | _ => cases isNode

end Closed

mutual

theorem Closed.tells {C : Datum → Prop} (closed : Closed C) : (a : Datum) → C a → a.Tells C
  | .null, _ => fun side b _ => told_null side b
  | .bool x, _ => fun _ b _ => congrArg Except.ok (sameNumber_int (a := .bool x) rfl b)
  | .int n, _ => fun _ b _ => congrArg Except.ok (sameNumber_int (a := .int n) rfl b)
  | .real _, h => fun _ b _ => congrArg Except.ok (sameNumber_real (closed.number h) b)
  | .text s, _ => fun side b _ => told_text side s b
  | .list xs, h => closed.tells_list (closed.each_tells xs (closed.list h))
  | .tuple xs, h => closed.tells_of_tupleItems? rfl (closed.each_tells xs (closed.items h rfl))
  | .name s u, h => by
      have symbol := closed.tells s (closed.items h rfl s (by simp))
      have uid := closed.tells u (closed.items h rfl u (by simp))
      exact closed.tells_of_tupleItems? (a := .name s u) rfl (by simp [symbol, uid])
  | .node k fs, h => closed.tells_node h (closed.each_tells fs (closed.fields h))

theorem Closed.each_tells {C : Datum → Prop} (closed : Closed C) :
    (ds : List Datum) → (∀ d ∈ ds, C d) → ∀ d ∈ ds, d.Tells C
  | [], _ => List.forall_mem_nil _
  | d :: ds, h =>
      List.forall_mem_cons.2 ⟨closed.tells d (h d List.mem_cons_self),
        closed.each_tells ds fun x hx => h x (List.mem_cons_of_mem d hx)⟩

end

theorem essence_real_key (d : Decimal) :
    (real d).essence.holdsList = false ∧ (real d).essence.key = .ofReal d := by
  simp only [essence]
  split <;> simp_all [Essence.holdsList, Essence.key, Key.ofReal]

mutual

theorem Closed.key_eq {C : Datum → Prop} (closed : Closed C) : (d : Datum) → C d →
    d.key = if d.essence.holdsList then .error .unhashable else .ok d.essence.key
  | .null, _ => rfl
  | .bool _, _ => rfl
  | .int _, _ => rfl
  | .real d, _ => by
      obtain ⟨whole, keyed⟩ := essence_real_key d
      simp [key, whole, keyed]
  | .text _, _ => rfl
  | .list _, _ => rfl
  | .tuple xs, h => by
      rw [key, closed.keys_eq xs (closed.items h rfl)]
      simp only [essence, Essence.holdsList, Essence.key]
      split <;> rfl
  | .name s u, h => by
      have symbol := closed.key_eq s (closed.items h rfl s (by simp))
      have uid := closed.key_eq u (closed.items h rfl u (by simp))
      simp only [key, symbol, uid, essence, Essence.holdsList, Essence.holdsList.anyHoldsList,
        Essence.key, Essence.key.keys]
      cases s.essence.holdsList <;> cases u.essence.holdsList <;> rfl
  | .node k fs, h => by
      simp only [key, closed.names h, closed.keys_eq fs (closed.fields h), essence,
        Essence.holdsList, Essence.key]
      split <;> rfl

theorem Closed.keys_eq {C : Datum → Prop} (closed : Closed C) :
    (ds : List Datum) → (∀ d ∈ ds, C d) → key.keys ds =
      if Essence.holdsList.anyHoldsList (essence.essences ds) then .error .unhashable
      else .ok (Essence.key.keys (essence.essences ds))
  | [], _ => rfl
  | d :: ds, h => by
      have head := closed.key_eq d (h d List.mem_cons_self)
      have tail := closed.keys_eq ds fun x hx => h x (List.mem_cons_of_mem d hx)
      simp only [key.keys, head, tail, essence.essences, Essence.holdsList.anyHoldsList,
        Essence.key.keys]
      cases d.essence.holdsList <;>
        cases Essence.holdsList.anyHoldsList (essence.essences ds) <;> rfl

end

end Datum

end ScopeResolution
