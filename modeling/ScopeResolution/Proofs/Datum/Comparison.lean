import ScopeResolution.Proofs.Datum.Essence

namespace ScopeResolution.Datum

def Answers (outcome : Except Fault Bool) (P : Prop) : Prop :=
  ∃ r, outcome = .ok r ∧ (P → r = true)

theorem answers_of_told {side : Side} {x y : Datum} (h : Told side x y) :
    Answers (x.compare side y) (x.essence = y.essence) :=
  ⟨_, h, decide_eq_true⟩

theorem answers_false {P : Prop} (h : ¬ P) : Answers (.ok false) P :=
  ⟨false, rfl, fun holds => absurd holds h⟩

theorem essence_list_ne (xs : List Datum) {b : Datum} (h : ∀ ys, b ≠ .list ys) :
    (list xs).essence ≠ b.essence := by
  cases b with
  | list ys => exact absurd rfl (h ys)
  | real d => rcases essence_real d with ⟨n, e⟩ | e <;> rw [e] <;> simp [essence]
  | _ => simp [essence]

theorem Answers.item {x y : Datum} {outcome : Except Fault Bool} {P : Prop}
    (h : Answers outcome P) : Answers (itemOutcome x y outcome) P := by
  unfold itemOutcome
  split
  · exact ⟨true, rfl, fun _ => rfl⟩
  · exact h

theorem answers_items_cons {side : Side} {x y : Datum} {xs ys : List Datum} {P Q : Prop}
    (head : Answers (x.compare side y) P) (tail : Answers (compare.compareItems xs side ys) Q) :
    Answers (compare.compareItems (x :: xs) side (y :: ys)) (P ∧ Q) := by
  obtain ⟨r, compared, yes⟩ := head.item (x := x) (y := y)
  obtain ⟨q, rest, yes'⟩ := tail
  simp only [compare.compareItems, compared, rest]
  cases r with
  | true => exact ⟨q, rfl, fun both => yes' both.2⟩
  | false => exact ⟨false, rfl, fun both => yes both.1⟩

theorem answers_agreement {f : String} {rest : List (String × Except Fault Bool)} {P Q : Prop}
    {outcome : Except Fault Bool} (head : Answers outcome P)
    (tail : Answers (agreement rest none) Q) :
    Answers (agreement ((f, outcome) :: rest) none) (P ∧ Q) := by
  obtain ⟨r, rfl, yes⟩ := head
  cases r with
  | true =>
      obtain ⟨q, found, yes'⟩ := tail
      exact ⟨q, found, fun both => yes' both.2⟩
  | false => exact ⟨false, rfl, fun both => yes both.1⟩

theorem Answers.imp {outcome : Except Fault Bool} {P Q : Prop} (h : Answers outcome P)
    (f : Q → P) : Answers outcome Q := by
  obtain ⟨r, found, yes⟩ := h
  exact ⟨r, found, fun holds => yes (f holds)⟩

theorem answers_rest (side : Side) (ys : List Datum) :
    Answers (compare.compareItems [] side ys) ([] = essence.essences ys) := by
  cases ys with
  | nil => exact ⟨true, rfl, fun _ => rfl⟩
  | cons y ys => exact answers_false (by simp [essence.essences])

mutual

theorem answers_of_regular : (a b : Datum) → (side : Side) → a.regular = true →
    b.regular = true → Answers (a.compare side b) (a.essence = b.essence)
  | .null, b, side, _, _ => answers_of_told (told_null side b)
  | .bool x, b, _, _, _ =>
      answers_of_told (congrArg Except.ok (sameNumber_int (a := .bool x) rfl b))
  | .int n, b, _, _, _ =>
      answers_of_told (congrArg Except.ok (sameNumber_int (a := .int n) rfl b))
  | .real d, b, _, ha, _ => answers_of_told (congrArg Except.ok (sameNumber_real ha b))
  | .text s, b, side, _, _ => answers_of_told (told_text side s b)
  | .list xs, b, side, ha, hb => by
      cases b with
      | list ys =>
          simp only [compare]
          split
          · exact (answers_items xs ys side ha hb).imp Essence.list.inj
          · rename_i apart
            refine answers_false fun same => apart ?_
            have lengths := congrArg List.length (Essence.list.inj same)
            rwa [length_essences, length_essences] at lengths
      | _ => exact answers_false (essence_list_ne xs fun ys => by simp)
  | .tuple xs, b, side, ha, hb => by
      rw [compare_of_tupleItems? (a := .tuple xs) rfl]
      cases items : b.tupleItems? with
      | none => exact answers_false (essence_ne_tuple items _).symm
      | some ys =>
          rw [essence_of_tupleItems? items]
          exact (answers_items xs ys _ ha (regular_of_tupleItems? items hb)).imp Essence.tuple.inj
  | .name s u, b, side, ha, hb => by
      rw [compare_of_tupleItems? (a := .name s u) rfl]
      cases items : b.tupleItems? with
      | none => exact answers_false (essence_ne_tuple items _).symm
      | some ys =>
          have whole := regular_of_tupleItems? items hb
          simp only [regular, Bool.and_eq_true] at ha
          rw [essence_of_tupleItems? items]
          rcases ys with _ | ⟨t, _ | ⟨v, rest⟩⟩
          · exact answers_false (by simp [essence, essence.essences])
          · simp only [regular.all, Bool.and_eq_true] at whole
            have head := answers_of_regular s t (leader (.name s u) b side) ha.1 whole.1
            have tail : Answers (compare.compareItems [u] (leader (.name s u) b side) [])
              (essence.essences [u] = []) := answers_false (by simp [essence.essences])
            exact (answers_items_cons head tail).imp fun same =>
              List.cons.inj (Essence.tuple.inj same)
          · simp only [regular.all, Bool.and_eq_true] at whole
            have head := answers_of_regular s t (leader (.name s u) b side) ha.1 whole.1
            have second := answers_of_regular u v (leader (.name s u) b side) ha.2 whole.2.1
            have tail := answers_items_cons second (answers_rest (leader (.name s u) b side) rest)
            refine (answers_items_cons head tail).imp fun same => ?_
            obtain ⟨first, others⟩ := List.cons.inj (Essence.tuple.inj same)
            exact ⟨first, List.cons.inj others⟩
  | .node k fs, b, side, ha, hb => by
      cases isNode : b.isNode with
      | false => exact answers_of_told (told_node_of_not isNode k fs side)
      | true =>
          cases b with
          | node l gs =>
              obtain ⟨names, _, _, parts⟩ := regular_node ha
              obtain ⟨names', _, _, parts'⟩ := regular_node hb
              simp only [compare]
              split
              · have compared := answers_fields fs gs side parts parts'
                simp only [known, names, names', fieldNames]
                cases side with
                | left => exact (compared k.fields).imp fun same => (Essence.node.inj same).2
                | right => exact (compared l.fields).imp fun same => (Essence.node.inj same).2
              · rename_i apart
                exact answers_false fun same => apart (Essence.node.inj same).1
          | _ => cases isNode

theorem answers_items : (xs ys : List Datum) → (side : Side) → regular.all xs = true →
    regular.all ys = true → Answers (compare.compareItems xs side ys)
      (essence.essences xs = essence.essences ys)
  | [], ys, side, _, _ => answers_rest side ys
  | x :: xs, [], _, _, _ => answers_false (by simp [essence.essences])
  | x :: xs, y :: ys, side, hx, hy => by
      simp only [regular.all, Bool.and_eq_true] at hx hy
      have head := answers_of_regular x y side hx.1 hy.1
      have tail := answers_items xs ys side hx.2 hy.2
      exact (answers_items_cons head tail).imp List.cons.inj

theorem answers_fields : (xs ys : List Datum) → (side : Side) → regular.all xs = true →
    regular.all ys = true → (names : List String) →
    Answers (agreement (names.zip (compare.compareFields xs side ys)) none)
      (essence.essences xs = essence.essences ys)
  | [], ys, _, _, _, names => by
      simp only [compare.compareFields, List.zip_nil_right]
      exact ⟨true, rfl, fun _ => rfl⟩
  | x :: xs, [], _, _, _, names => by
      simp only [compare.compareFields, List.zip_nil_right]
      exact ⟨true, rfl, fun _ => rfl⟩
  | x :: xs, y :: ys, side, hx, hy, names => by
      simp only [regular.all, Bool.and_eq_true] at hx hy
      cases names with
      | nil => exact ⟨true, rfl, fun _ => rfl⟩
      | cons f names =>
          have head := answers_of_regular x y side hx.1 hy.1
          have tail := answers_fields xs ys side hx.2 hy.2 names
          exact (answers_agreement head tail).imp List.cons.inj

end

theorem regular_all_iff {ds : List Datum} :
    regular.all ds = true ↔ ∀ d ∈ ds, d.regular = true := by
  induction ds with
  | nil => simp [regular.all]
  | cons d ds ih => simp [regular.all, ih]

def Equal (a b : Datum) : Prop :=
  a.equals b = .ok true

theorem equal_of_essence {a b : Datum} (ha : a.regular = true) (hb : b.regular = true)
    (same : a.essence = b.essence) : a.Equal b := by
  obtain ⟨r, compared, yes⟩ := answers_of_regular a b .left ha hb
  rw [yes same] at compared
  exact compared

theorem agreement_of_forall {l : List (String × Except Fault Bool)}
    (h : ∀ p ∈ l, p.2 = .ok true) : agreement l none = .ok true := by
  induction l with
  | nil => rfl
  | cons p rest ih =>
      have tail := ih fun q hq => h q (List.mem_cons_of_mem _ hq)
      rcases p with ⟨f, r⟩
      obtain rfl : r = .ok true := h (f, r) List.mem_cons_self
      simp [agreement, tail, bind, Except.bind]

theorem agreement_eq_ok_true {f : String} {outcome : Except Fault Bool}
    {rest : List (String × Except Fault Bool)} :
    agreement ((f, outcome) :: rest) none = .ok true ↔
      outcome = .ok true ∧ agreement rest none = .ok true := by
  rcases outcome with e | r
  · simp [agreement, bind, Except.bind]
  · cases r <;> simp [agreement, bind, Except.bind, pure, Except.pure]

theorem compareFields_of_equal {xs ys : List Datum} (h : List.Forall₂ Equal xs ys) :
    ∀ r ∈ compare.compareFields xs .left ys, r = .ok true := by
  induction h with
  | nil => exact List.forall_mem_nil _
  | cons head _ ih => exact List.forall_mem_cons.2 ⟨head, ih⟩

theorem equals_form (f : Form) (fs gs : List Datum) :
    (node (.builtin f) fs).equals (node (.builtin f) gs) =
      agreement (f.fields.zip (compare.compareFields fs .left gs)) none := by
  simp only [equals, compare, if_true]
  rfl

theorem equal_form_of_fields {f : Form} {fs gs : List Datum} (h : List.Forall₂ Equal fs gs) :
    (node (.builtin f) fs).Equal (node (.builtin f) gs) := by
  refine (equals_form f fs gs).trans (agreement_of_forall fun p hp => ?_)
  exact compareFields_of_equal h p.2 (List.of_mem_zip hp).2

theorem fields_of_agreement {names : List String} {xs ys : List Datum}
    (h : xs.length = names.length) (h' : ys.length = names.length)
    (agreed : agreement (names.zip (compare.compareFields xs .left ys)) none = .ok true) :
    List.Forall₂ Equal xs ys := by
  induction names generalizing xs ys with
  | nil =>
      rw [List.length_eq_zero_iff.1 h, List.length_eq_zero_iff.1 h']
      exact .nil
  | cons f names ih =>
      obtain ⟨x, xs, rfl⟩ := List.exists_cons_of_length_eq_add_one h
      obtain ⟨y, ys, rfl⟩ := List.exists_cons_of_length_eq_add_one h'
      simp only [compare.compareFields, List.zip_cons_cons, agreement_eq_ok_true] at agreed
      exact .cons agreed.1 (ih (Nat.succ.inj h) (Nat.succ.inj h') agreed.2)

theorem fields_of_equal_form {f g : Form} {fs gs : List Datum} (h : fs.length = f.fields.length)
    (h' : gs.length = g.fields.length)
    (equal : (node (.builtin f) fs).Equal (node (.builtin g) gs)) :
    f = g ∧ List.Forall₂ Equal fs gs := by
  by_cases same : f = g
  · subst same
    rw [Equal, equals_form] at equal
    exact ⟨rfl, fields_of_agreement h h' equal⟩
  · have compared : (node (.builtin f) fs).equals (node (.builtin g) gs) = .ok false := by
      simp [equals, compare, Kind.tag, same]
    rw [Equal, compared] at equal
    cases equal

theorem equal_tuple_of_items {xs ys : List Datum} (h : List.Forall₂ Equal xs ys) :
    (tuple xs).Equal (tuple ys) := by
  have all : compare.compareItems xs .left ys = .ok true := by
    induction h with
    | nil => rfl
    | @cons x y xs ys head _ ih =>
        have first : x.compare .left y = .ok true := head
        simp [compare.compareItems, first, itemOutcome, ih, bind, Except.bind]
  exact all

theorem items_of_compareItems {xs ys : List Datum} (h : regular.all xs = true)
    (h' : regular.all ys = true) (equal : compare.compareItems xs .left ys = .ok true) :
    List.Forall₂ Equal xs ys := by
  induction xs generalizing ys with
  | nil =>
      cases ys with
      | nil => exact .nil
      | cons y ys => cases equal
  | cons x xs ih =>
      cases ys with
      | nil => cases equal
      | cons y ys =>
          simp only [regular.all, Bool.and_eq_true] at h h'
          obtain ⟨r, compared, yes⟩ := answers_of_regular x y .left h.1 h'.1
          cases r with
          | true =>
              simp only [compare.compareItems, compared, itemOutcome, ite_self] at equal
              exact .cons compared (ih h.2 h'.2 equal)
          | false =>
              have apart : x.identical y = false := by
                by_contra same
                exact Bool.false_ne_true (yes (essence_of_identical (by simpa using same)))
              simp [compare.compareItems, compared, itemOutcome, apart, bind, Except.bind, pure,
                Except.pure] at equal

theorem items_of_equal_tuple {xs ys : List Datum} (h : regular.all xs = true)
    (h' : regular.all ys = true) (equal : (tuple xs).Equal (tuple ys)) : List.Forall₂ Equal xs ys :=
  items_of_compareItems h h' equal

end ScopeResolution.Datum
