import Mathlib.Algebra.GroupWithZero.Nat
import ScopeResolution.Proofs.Datum.Essence

namespace ScopeResolution

namespace Datum

/-- The tree with a plain tuple in the place of each name that stands in a field of a node which is
reached through fields and the items of tuples and names in them. -/
def untied : Datum → Datum
  | .node k fs => .node k (inFields fs)
  | d => d
where
  inField : Datum → Datum
    | .node k fs => .node k (inFields fs)
    | .tuple xs => .tuple (inItems xs)
    | .name s u => .tuple [untied s, untied u]
    | d => d
  inFields : List Datum → List Datum
    | [] => []
    | v :: vs => inField v :: inFields vs
  inItems : List Datum → List Datum
    | [] => []
    | x :: xs => untied x :: inItems xs

def ties : Datum → Nat
  | .node _ fs => inFields fs
  | _ => 0
where
  inField : Datum → Nat
    | .node _ fs => inFields fs
    | .tuple xs => inItems xs
    | .name s u => 1 + (ties s + ties u)
    | _ => 0
  inFields : List Datum → Nat
    | [] => 0
    | v :: vs => inField v + inFields vs
  inItems : List Datum → Nat
    | [] => 0
    | x :: xs => ties x + inItems xs

inductive BuiltIn : Datum → Prop
  | node (f : Form) {fs : List Datum} (full : f.fields.length = fs.length)
      (frozen : ∀ v ∈ fs, v.freeze = v) (below : ∀ v ∈ fs, ∀ c ∈ v.nodesIn, BuiltIn c) :
      BuiltIn (.node (.builtin f) fs)

theorem untied_of_plain {d : Datum} (h : d.isNode = false) : d.untied = d := by
  cases d <;> first | rfl | cases h

theorem isNode_untied (d : Datum) : d.untied.isNode = d.isNode := by
  cases d <;> rfl

theorem untied_inItems (xs : List Datum) : untied.inItems xs = xs.map untied := by
  induction xs with
  | nil => rfl
  | cons x xs ih => exact congrArg (x.untied :: ·) ih

theorem untied_inFields (fs : List Datum) : untied.inFields fs = fs.map untied.inField := by
  induction fs with
  | nil => rfl
  | cons v vs ih => exact congrArg (untied.inField v :: ·) ih

theorem untied_node (k : Kind) (fs : List Datum) :
    (node k fs).untied = node k (fs.map untied.inField) :=
  congrArg (node k) (untied_inFields fs)

theorem inField_tuple (xs : List Datum) :
    untied.inField (tuple xs) = tuple (xs.map untied) :=
  congrArg tuple (untied_inItems xs)

theorem freeze_inField {v : Datum} (h : v.freeze = v) :
    (untied.inField v).freeze = untied.inField v := by
  cases v <;> first | rfl | cases h

theorem length_joined (ts : List String) :
    (joined ts).length = (ts.map String.length).sum + 2 * (ts.length - 1) := by
  induction ts with
  | nil => rfl
  | cons t ts ih =>
      cases ts with
      | nil => simp [joined]
      | cons u us =>
          simp only [joined, String.intercalate_cons_cons, String.length_append, List.map_cons,
            List.sum_cons, List.length_cons] at ih ⊢
          have comma : ", ".length = 2 := rfl
          omega

theorem length_joined_add {ts us : List String} {n : Nat} (same : ts.length = us.length)
    (longer : (ts.map String.length).sum = (us.map String.length).sum + n) :
    (joined ts).length = (joined us).length + n := by
  rw [length_joined, length_joined, same]
  omega

theorem length_tupled_add {ts us : List String} {n : Nat} (same : ts.length = us.length)
    (longer : (ts.map String.length).sum = (us.map String.length).sum + n) :
    (tupled ts).length = (tupled us).length + n := by
  match ts, us, same with
  | [], [], _ => exact length_joined_add rfl longer
  | [t], [u], _ =>
      simp only [List.map_cons, List.map_nil, List.sum_cons, List.sum_nil, Nat.add_zero] at longer
      rw [tupled, tupled, String.length_append, String.length_append, longer]
      omega
  | t :: t' :: ts, u :: u' :: us, same => exact length_joined_add same longer

theorem length_renderAll (ds : List Datum) : (render.renderAll ds).length = ds.length := by
  induction ds with
  | nil => rfl
  | cons d ds ih => exact congrArg (· + 1) ih

theorem sum_length_fields {fields ts : List String} (full : fields.length = ts.length) :
    (((fields.zip ts).map fun p => p.1 ++ "=" ++ p.2).map String.length).sum =
      (fields.map String.length).sum + fields.length + (ts.map String.length).sum := by
  induction fields generalizing ts with
  | nil =>
      rw [List.length_eq_zero_iff.1 full.symm]
      rfl
  | cons g fields ih =>
      obtain ⟨t, ts, rfl⟩ := List.exists_cons_of_length_eq_add_one full.symm
      have rest := ih (Nat.succ.inj full)
      have sign : "=".length = 1 := rfl
      simp only [List.zip_cons_cons, List.map_cons, List.sum_cons, String.length_append, rest,
        List.length_cons]
      omega

theorem length_fields_add {fields ts us : List String} {n : Nat} (full : fields.length = ts.length)
    (same : ts.length = us.length)
    (longer : (ts.map String.length).sum = (us.map String.length).sum + n) :
    (joined ((fields.zip ts).map fun p => p.1 ++ "=" ++ p.2)).length =
      (joined ((fields.zip us).map fun p => p.1 ++ "=" ++ p.2)).length + n := by
  refine length_joined_add ?_ ?_
  · simp only [List.length_map, List.length_zip, same]
  · rw [sum_length_fields full, sum_length_fields (full.trans same), longer]
    omega

structure Sheds (d e : Datum) (n : Nat) : Prop where
  essence : d.essence = e.essence
  fault : d.passageFault? .inTurn = e.passageFault? .inTurn
  longer : d.render.length = e.render.length + 15 * n

structure ShedsAll (ds es : List Datum) (n : Nat) : Prop where
  same : (render.renderAll ds).length = (render.renderAll es).length
  essences : essence.essences ds = essence.essences es
  faults : passageFault?.faults ds .inTurn = passageFault?.faults es .inTurn
  longer : ((render.renderAll ds).map String.length).sum =
    ((render.renderAll es).map String.length).sum + 15 * n

theorem Sheds.refl (d : Datum) : d.Sheds d 0 :=
  ⟨rfl, rfl, rfl⟩

namespace ShedsAll

variable {d e : Datum} {ds es : List Datum} {m n : Nat}

theorem nil : ShedsAll [] [] 0 :=
  ⟨rfl, rfl, rfl, rfl⟩

theorem cons (head : d.Sheds e m) (tail : ShedsAll ds es n) :
    ShedsAll (d :: ds) (e :: es) (m + n) := by
  refine ⟨congrArg (· + 1) tail.same, ?_, ?_, ?_⟩
  · rw [essence.essences, essence.essences, head.essence, tail.essences]
  · rw [passageFault?.faults, passageFault?.faults, head.fault, tail.faults]
  · have first := head.longer
    have rest := tail.longer
    simp only [render.renderAll, List.map_cons, List.sum_cons]
    omega

theorem ofTuple (h : ShedsAll ds es n) : (tuple ds).Sheds (tuple es) n := by
  refine ⟨congrArg Essence.tuple h.essences, ?_, ?_⟩
  · rw [passageFault?, passageFault?, h.faults]
  · have shown : ∀ gs, (tuple gs).render = "(" ++ tupled (render.renderAll gs) ++ ")" :=
      fun _ => rfl
    have inside := length_tupled_add h.same h.longer
    simp only [shown, String.length_append, inside]
    omega

theorem ofNode {f : Form} (full : f.fields.length = ds.length) (h : ShedsAll ds es n) :
    (node (.builtin f) ds).Sheds (node (.builtin f) es) n := by
  refine ⟨congrArg (Essence.node _) h.essences, ?_, ?_⟩
  · have through : ∀ gs, passageFault? (.node (.builtin f) gs) .inTurn =
        ((f.fields.zip (passageFault?.faults gs .inTurn)).findSome? (·.2)).or none := fun _ => rfl
    rw [through, through, h.faults]
  · have shown : ∀ gs, (node (.builtin f) gs).render = f.name ++ "(" ++
        joined ((f.fields.zip (render.renderAll gs)).map fun p => p.1 ++ "=" ++ p.2) ++ ")" :=
      fun _ => rfl
    rw [← length_renderAll] at full
    have inside := length_fields_add full h.same h.longer
    simp only [shown, String.length_append, inside]
    omega

end ShedsAll

theorem Sheds.ofName {s t u v : Datum} {m n : Nat} (symbol : s.Sheds t m) (uid : u.Sheds v n) :
    (name s u).Sheds (tuple [t, v]) (1 + (m + n)) := by
  refine ⟨?_, ?_, ?_⟩
  · simp only [Datum.essence, essence.essences, symbol.essence, uid.essence]
  · simp only [passageFault?, passageFault?.faults, symbol.fault, uid.fault]
    cases t.passageFault? .inTurn <;> cases v.passageFault? .inTurn <;> rfl
  · have first := symbol.longer
    have second := uid.longer
    have opening : "Name(symbol=".length = 12 := rfl
    have between : ", uid=".length = 6 := rfl
    have comma : ", ".length = 2 := rfl
    have bracket : "(".length = 1 := rfl
    have bracket' : ")".length = 1 := rfl
    have shown : (name s u).render = "Name(symbol=" ++ s.render ++ ", uid=" ++ u.render ++ ")" :=
      rfl
    have shown' : (tuple [t, v]).render = "(" ++ joined [t.render, v.render] ++ ")" := rfl
    simp only [shown, shown', joined, String.intercalate_cons_cons, String.intercalate_singleton,
      String.length_append]
    omega

theorem shedsAll_items {xs : List Datum} (h : ∀ x ∈ xs, x.Sheds x.untied x.ties) :
    ShedsAll xs (untied.inItems xs) (ties.inItems xs) := by
  induction xs with
  | nil => exact .nil
  | cons x xs ih =>
      rw [List.forall_mem_cons] at h
      exact .cons h.1 (ih h.2)

theorem shedsAll_fields {fs : List Datum}
    (h : ∀ v ∈ fs, v.Sheds (untied.inField v) (ties.inField v)) :
    ShedsAll fs (untied.inFields fs) (ties.inFields fs) := by
  induction fs with
  | nil => exact .nil
  | cons v vs ih =>
      rw [List.forall_mem_cons] at h
      exact .cons h.1 (ih h.2)

theorem sheds_item {x : Datum} (h : x.isNode = true → x.Sheds x.untied x.ties) :
    x.Sheds x.untied x.ties := by
  cases x with
  | node k fs => exact h rfl
  | _ => exact .refl _

theorem sheds_field {v : Datum} (h : ∀ c ∈ v.nodesIn, c.Sheds c.untied c.ties) :
    v.Sheds (untied.inField v) (ties.inField v) := by
  have item : ∀ x, (x.isNode = true → x ∈ v.nodesIn) → x.Sheds x.untied x.ties :=
    fun x found => sheds_item fun isNode => h x (found isNode)
  cases v with
  | node k fs => exact h _ (List.mem_singleton_self _)
  | tuple xs =>
      exact (shedsAll_items fun x hx => item x fun isNode => List.mem_filter.2 ⟨hx, isNode⟩).ofTuple
  | name s u =>
      refine .ofName (item s fun isNode => List.mem_filter.2 ⟨by simp, isNode⟩) ?_
      exact item u fun isNode => List.mem_filter.2 ⟨by simp, isNode⟩
  | _ => exact .refl _

theorem BuiltIn.sheds {d : Datum} (h : d.BuiltIn) : d.Sheds d.untied d.ties := by
  induction h with
  | node f full _ _ ih =>
      exact (shedsAll_fields fun v hv => sheds_field (ih v hv)).ofNode full

mutual

theorem untied_of_ties : (d : Datum) → d.ties = 0 → d.untied = d
  | .node k fs, h => congrArg (node k) (inFields_of_ties fs h)
  | .null, _ | .bool _, _ | .int _, _ | .real _, _ | .text _, _ | .list _, _ | .tuple _, _
  | .name _ _, _ => rfl

theorem inField_of_ties : (v : Datum) → ties.inField v = 0 → untied.inField v = v
  | .node k fs, h => congrArg (node k) (inFields_of_ties fs h)
  | .tuple xs, h => congrArg tuple (inItems_of_ties xs h)
  | .name s u, h => by
      rw [ties.inField] at h
      omega
  | .null, _ | .bool _, _ | .int _, _ | .real _, _ | .text _, _ | .list _, _ => rfl

theorem inFields_of_ties : (fs : List Datum) → ties.inFields fs = 0 → untied.inFields fs = fs
  | [], _ => rfl
  | v :: vs, h => by
      obtain ⟨first, rest⟩ := Nat.add_eq_zero_iff.1 h
      rw [untied.inFields, inField_of_ties v first, inFields_of_ties vs rest]

theorem inItems_of_ties : (xs : List Datum) → ties.inItems xs = 0 → untied.inItems xs = xs
  | [], _ => rfl
  | x :: xs, h => by
      obtain ⟨first, rest⟩ := Nat.add_eq_zero_iff.1 h
      rw [untied.inItems, untied_of_ties x first, inItems_of_ties xs rest]

end

theorem BuiltIn.rendered_untied {d : Datum} (h : d.BuiltIn) {text : String}
    (told : d.rendered = .ok text) :
    ∃ text', d.untied.rendered = .ok text' ∧ text.length = text'.length + 15 * d.ties ∧
      (text' = text ↔ d.ties = 0) := by
  have sheds := h.sheds
  have fault : d.renderFault? = d.untied.renderFault? := sheds.fault
  have longer := sheds.longer
  rw [rendered, fault] at told
  rw [rendered]
  cases met : d.untied.renderFault? with
  | some fault =>
      rw [met] at told
      cases told
  | none =>
      rw [met] at told
      cases told
      refine ⟨_, rfl, longer, fun same => ?_, fun none => by rw [d.untied_of_ties none]⟩
      have lengths := congrArg String.length same
      omega

end Datum

end ScopeResolution
