import Mathlib.Data.List.Forall2
import ScopeResolution.Datum.Key
import ScopeResolution.Datum.Render

/-!
What values that are equal have in common. A value is regular if no NaN stands in it and every node
in it has one value per field and no field that hides the names or the entries of the node's own.
Among regular values of one key equality is equality of essences (`Datum.told_of_key`), and the key
is read off the essence (`Datum.key_of_regular`). Whatever has the key or the essence of a regular
value is regular itself.
-/

namespace ScopeResolution

namespace Kind

def Tag.fields : Tag → List String
  | .builtin f => f.fields
  | .derived _ fs => fs

theorem fields_tag (k : Kind) : k.tag.fields = k.fields := by
  cases k <;> rfl

/-- A node with this tag and so many values has one for each field, and none that takes the place
of what is its own. -/
def Tag.regular (t : Tag) (values : Nat) : Bool :=
  Own.names.name ∉ t.fields && Own.entries.name ∉ t.fields && values == t.fields.length

end Kind

inductive Essence where
  | null
  | int (n : Int)
  | real (d : Decimal)
  | text (s : String)
  | list (items : List Essence)
  | tuple (items : List Essence)
  | node (tag : Kind.Tag) (fields : List Essence)

namespace Essence

def agrees : Essence → Essence → Bool
  | .null, .null => true
  | .int m, .int n => m == n
  | .real c, .real d => c == d
  | .text s, .text t => s == t
  | .list as, .list bs => agreeAll as bs
  | .tuple as, .tuple bs => agreeAll as bs
  | .node s as, .node t bs => s == t && agreeAll as bs
  | _, _ => false
where
  agreeAll : List Essence → List Essence → Bool
    | [], [] => true
    | a :: as, b :: bs => agrees a b && agreeAll as bs
    | _, _ => false

mutual

theorem agrees_iff_eq : ∀ {a b : Essence}, a.agrees b = true ↔ a = b
  | .list as, b => by cases b <;> simp [agrees, agreeAll_iff_eq]
  | .tuple as, b => by cases b <;> simp [agrees, agreeAll_iff_eq]
  | .node s as, b => by cases b <;> simp [agrees, agreeAll_iff_eq]
  | .null, b => by cases b <;> simp [agrees]
  | .int n, b => by cases b <;> simp [agrees]
  | .real d, b => by cases b <;> simp [agrees]
  | .text s, b => by cases b <;> simp [agrees]

theorem agreeAll_iff_eq : ∀ {as bs : List Essence}, agrees.agreeAll as bs = true ↔ as = bs
  | [], bs => by cases bs <;> simp [agrees.agreeAll]
  | a :: as, bs => by cases bs <;> simp [agrees.agreeAll, agrees_iff_eq, agreeAll_iff_eq]

end

instance : DecidableEq Essence := fun _ _ => decidable_of_iff _ agrees_iff_eq

def key : Essence → Key
  | .null => .null
  | .int n => .ofInt n
  | .real d => .ofReal d
  | .text s => .ofText s
  | .list _ => .null
  | .tuple as => .tuple (keys as)
  | .node t as => .node t (keys as)
where
  keys : List Essence → List Key
    | [] => []
    | a :: as => key a :: keys as

def regular : Essence → Bool
  | .real d => d.isNumber
  | .list as => all as
  | .tuple as => all as
  | .node t as => t.regular as.length && all as
  | _ => true
where
  all : List Essence → Bool
    | [] => true
    | a :: as => regular a && all as

end Essence

namespace Key

def regular : Key → Bool
  | .real d => d.isNumber
  | .tuple ks => all ks
  | .node t ks => t.regular ks.length && all ks
  | _ => true
where
  all : List Key → Bool
    | [] => true
    | k :: ks => regular k && all ks

end Key

namespace Datum

def essence : Datum → Essence
  | .null => .null
  | .bool b => .int (if b then 1 else 0)
  | .int n => .int n
  | .real d => match d.integer? with
      | some n => .int n
      | none => .real d
  | .text s => .text s
  | .list xs => .list (essences xs)
  | .tuple xs => .tuple (essences xs)
  | .name s u => .tuple [essence s, essence u]
  | .node k fs => .node k.tag (essences fs)
where
  essences : List Datum → List Essence
    | [] => []
    | d :: ds => essence d :: essences ds

theorem length_essences (xs : List Datum) : (essence.essences xs).length = xs.length := by
  induction xs with
  | nil => rfl
  | cons x xs ih => simp [essence.essences, ih]

def regular : Datum → Bool
  | .real d => d.isNumber
  | .list xs => all xs
  | .tuple xs => all xs
  | .name s u => regular s && regular u
  | .node k fs => k.tag.regular fs.length && all fs
  | _ => true
where
  all : List Datum → Bool
    | [] => true
    | d :: ds => regular d && all ds

theorem regular_node {k : Kind} {fs : List Datum} (h : (node k fs).regular = true) :
    hiding? .names k fs = none ∧ hiding? .entries k fs = none ∧ fs.length = k.fields.length ∧
      regular.all fs = true := by
  simp only [regular, Kind.Tag.regular, Kind.fields_tag, Bool.and_eq_true, decide_eq_true_eq,
    beq_iff_eq] at h
  obtain ⟨⟨⟨names, entries⟩, full⟩, all⟩ := h
  simp only [hiding?_eq_field?]
  exact ⟨field?_eq_none names, field?_eq_none entries, full, all⟩

theorem key_of_tupleItems? {d : Datum} {xs : List Datum} (h : d.tupleItems? = some xs) :
    d.key = (key.keys xs).map .tuple := by
  cases d with
  | tuple ys => cases h; rfl
  | name s u =>
      cases h
      simp only [key, key.keys]
      cases s.key with
      | error e => rfl
      | ok k => cases u.key <;> rfl
  | _ => cases h

theorem essence_of_tupleItems? {d : Datum} {xs : List Datum} (h : d.tupleItems? = some xs) :
    d.essence = .tuple (essence.essences xs) := by
  cases d with
  | tuple ys => cases h; rfl
  | name s u => cases h; rfl
  | _ => cases h

theorem regular_of_tupleItems? {d : Datum} {xs : List Datum} (h : d.tupleItems? = some xs)
    (hd : d.regular = true) : regular.all xs = true := by
  cases d with
  | tuple ys => cases h; exact hd
  | name s u => cases h; simpa [regular, regular.all] using hd
  | _ => cases h

theorem keys_cons_ok {d : Datum} {ds : List Datum} {ks : List Key}
    (h : key.keys (d :: ds) = .ok ks) :
    ∃ k ls, d.key = .ok k ∧ key.keys ds = .ok ls ∧ ks = k :: ls := by
  cases head : d.key with
  | error e => simp [key.keys, head, bind, Except.bind] at h
  | ok k =>
      cases tail : key.keys ds with
      | error e => simp [key.keys, head, tail, bind, Except.bind] at h
      | ok ls =>
          simp only [key.keys, head, tail, bind, Except.bind, pure, Except.pure,
            Except.ok.injEq] at h
          exact ⟨k, ls, rfl, rfl, h.symm⟩

theorem map_ok {α β : Type} {f : α → β} {x : Except Fault α} {b : β} (h : x.map f = .ok b) :
    ∃ a, x = .ok a ∧ f a = b := by
  cases x with
  | error e => cases h
  | ok a => exact ⟨a, rfl, Except.ok.inj h⟩

theorem key_regular_node {k : Kind} {fs : List Datum} {l : Key} (h : (node k fs).regular = true)
    (hl : (node k fs).key = .ok l) : ∃ ks, key.keys fs = .ok ks ∧ l = .node k.tag ks := by
  obtain ⟨names, _, _, _⟩ := regular_node h
  simp only [key, names] at hl
  obtain ⟨ks, all, rfl⟩ := map_ok hl
  exact ⟨ks, all, rfl⟩

mutual

theorem key_of_regular : (d : Datum) → {k : Key} → d.regular = true → d.key = .ok k →
    k = d.essence.key
  | .null, _, _, h => (Except.ok.inj h).symm
  | .bool _, _, _, h => (Except.ok.inj h).symm
  | .int _, _, _, h => (Except.ok.inj h).symm
  | .real d, _, _, h => by
      rw [← Except.ok.inj h, essence, Key.ofReal]
      split <;> simp_all [Essence.key, Key.ofReal]
  | .text _, _, _, h => (Except.ok.inj h).symm
  | .list _, _, _, h => by cases h
  | .tuple xs, _, regular, h => by
      obtain ⟨ks, all, rfl⟩ := map_ok h
      rw [keys_of_regular xs regular all]
      rfl
  | .name s u, _, regular, h => by
      rw [key_of_tupleItems? (d := .name s u) rfl] at h
      obtain ⟨ks, all, rfl⟩ := map_ok h
      obtain ⟨k, ls, head, tail, rfl⟩ := keys_cons_ok all
      obtain ⟨l, _, second, rest, rfl⟩ := keys_cons_ok tail
      cases rest
      simp only [Datum.regular, Bool.and_eq_true] at regular
      rw [key_of_regular s regular.1 head, key_of_regular u regular.2 second]
      rfl
  | .node k fs, _, regular, h => by
      obtain ⟨ks, all, rfl⟩ := key_regular_node regular h
      rw [keys_of_regular fs (regular_node regular).2.2.2 all]
      rfl

theorem keys_of_regular : (ds : List Datum) → {ks : List Key} → regular.all ds = true →
    key.keys ds = .ok ks → ks = Essence.key.keys (essence.essences ds)
  | [], _, _, h => (Except.ok.inj h).symm
  | d :: ds, _, whole, h => by
      simp only [regular.all, Bool.and_eq_true] at whole
      obtain ⟨k, ls, head, tail, rfl⟩ := keys_cons_ok h
      rw [key_of_regular d whole.1 head, keys_of_regular ds whole.2 tail]
      rfl

end

theorem essence_eq_int_iff (d : Datum) (n : Int) : d.essence = .int n ↔ d.integer? = some n := by
  cases d with
  | real x =>
      simp only [essence, integer?]
      cases x.integer? <;> simp
  | _ => simp [essence, integer?]

theorem sameNumber_int {a : Datum} {m : Int} (h : a.integer? = some m) (b : Datum) :
    sameNumber a b = decide (a.essence = b.essence) := by
  have left : a.essence = .int m := (essence_eq_int_iff a m).2 h
  have right : (Essence.int m = b.essence) ↔ b.integer? = some m := by
    rw [eq_comm, essence_eq_int_iff]
  simp only [left, decide_eq_decide.2 right]
  cases hb : b.integer? with
  | none => simp [sameNumber, h, hb]
  | some n =>
      simp only [sameNumber, h, hb, Option.some.injEq]
      by_cases same : m = n
      · simp [same]
      · simp [same, Ne.symm same]

theorem sameNumber_real {x : Decimal} (number : x.isNumber = true) (b : Datum) :
    sameNumber (.real x) b = decide ((Datum.real x).essence = b.essence) := by
  cases hx : x.integer? with
  | some m => exact sameNumber_int (a := .real x) hx b
  | none =>
      have left : (Datum.real x).essence = .real x := by simp only [essence, hx]
      rw [left]
      cases b with
      | real y =>
          cases hy : y.integer? with
          | some n => simp [sameNumber, integer?, hx, hy, essence]
          | none =>
              by_cases same : x = y
              · simp [sameNumber, integer?, hx, essence, number, ← same]
              · simp [sameNumber, integer?, hx, hy, essence, same]
      | _ => simp [sameNumber, integer?, hx, essence]

theorem compare_of_tupleItems? {a : Datum} {xs : List Datum} (h : a.tupleItems? = some xs)
    (side : Side) (b : Datum) :
    a.compare side b = match b.tupleItems? with
      | some ys => compare.compareItems xs (leader a b side) ys
      | none => .ok false := by
  cases a with
  | tuple zs => cases h; rfl
  | name s u =>
      cases h
      simp only [compare]
      cases b.tupleItems? with
      | none => rfl
      | some ys =>
          cases ys with
          | nil => rfl
          | cons t rest =>
              simp only [compare.compareItems]
              cases itemOutcome s t (s.compare (leader (.name s u) b side) t) with
              | error e => rfl
              | ok same =>
                  cases same with
                  | false => rfl
                  | true =>
                      cases rest with
                      | nil => rfl
                      | cons v more =>
                          cases second : itemOutcome u v
                              (u.compare (leader (.name s u) b side) v) with
                          | error e => simp [compare.compareItems, second, bind, Except.bind]
                          | ok same =>
                              cases same <;> cases more <;>
                                simp [compare.compareItems, second, bind, Except.bind, pure,
                                  Except.pure]
  | _ => cases h

def Told (side : Side) (x y : Datum) : Prop :=
  x.compare side y = .ok (decide (x.essence = y.essence))

mutual

theorem essence_of_matching {alike : Kind → Kind → Bool}
    (tags : ∀ {k l}, alike k l = true → k.tag = l.tag) :
    {a b : Datum} → matching alike a b = true → a.essence = b.essence
  | .null, b, h | .bool _, b, h | .int _, b, h | .real _, b, h | .text _, b, h => by
      cases b <;> simp_all [matching, essence]
  | .list xs, b, h => by
      cases b <;> simp_all [matching, essence]
      exact essences_of_matching tags h
  | .tuple xs, b, h => by
      cases b <;> simp_all [matching, essence]
      exact essences_of_matching tags h
  | .name s u, b, h => by
      cases b <;> simp_all [matching, essence]
      exact ⟨essence_of_matching tags h.1, essence_of_matching tags h.2⟩
  | .node k xs, b, h => by
      cases b <;> simp_all [matching, essence]
      exact ⟨tags h.1, essences_of_matching tags h.2⟩

theorem essences_of_matching {alike : Kind → Kind → Bool}
    (tags : ∀ {k l}, alike k l = true → k.tag = l.tag) :
    {xs ys : List Datum} → matching.all alike xs ys = true →
      essence.essences xs = essence.essences ys
  | [], ys, h => by cases ys <;> simp_all [matching.all]
  | x :: xs, ys, h => by
      cases ys <;> simp_all [matching.all, essence.essences]
      exact ⟨essence_of_matching tags h.1, essences_of_matching tags h.2⟩

end

theorem essence_of_identical {a b : Datum} (h : a.identical b = true) : a.essence = b.essence :=
  essence_of_matching (by simp_all [Kind.shared]) h

theorem essence_of_resembles {a b : Datum} (h : a.resembles b = true) : a.essence = b.essence :=
  essence_of_matching (by simp) h

theorem itemOutcome_of_told {side : Side} {x y : Datum} (h : Told side x y) :
    itemOutcome x y (x.compare side y) = .ok (decide (x.essence = y.essence)) := by
  rw [itemOutcome, h]
  split
  · rename_i same
    rw [decide_eq_true (essence_of_identical same)]
  · rfl

theorem compareItems_of_told {side : Side} {xs ys : List Datum}
    (h : List.Forall₂ (Told side) xs ys) :
    compare.compareItems xs side ys = .ok (decide (essence.essences xs = essence.essences ys)) := by
  induction h with
  | nil => rfl
  | @cons x y xs ys head _ ih =>
      simp only [compare.compareItems, itemOutcome_of_told head, ih, essence.essences,
        List.cons.injEq]
      by_cases same : x.essence = y.essence <;>
        simp [same, bind, Except.bind, pure, Except.pure]

theorem agreement_of_told {side : Side} {names : List String} {xs ys : List Datum}
    (h : List.Forall₂ (Told side) xs ys) (named : xs.length = names.length) :
    agreement (names.zip (compare.compareFields xs side ys)) none =
      .ok (decide (essence.essences xs = essence.essences ys)) := by
  induction h generalizing names with
  | nil => cases names <;> simp [compare.compareFields, agreement, essence.essences]
  | @cons x y xs ys head _ ih =>
      cases names with
      | nil => simp at named
      | cons f fs =>
          have tail := @ih fs (by simpa using named)
          have first : x.compare side y = .ok (decide (x.essence = y.essence)) := head
          simp only [compare.compareFields, List.zip_cons_cons, agreement, first, tail,
            essence.essences, List.cons.injEq]
          by_cases same : x.essence = y.essence <;>
            simp [same, bind, Except.bind, pure, Except.pure]

theorem essence_real (d : Decimal) :
    (∃ n, (real d).essence = .int n) ∨ (real d).essence = .real d := by
  simp only [essence]
  cases d.integer? with
  | some n => exact .inl ⟨n, rfl⟩
  | none => exact .inr rfl

theorem essence_ne_tuple {b : Datum} (h : b.tupleItems? = none) (as : List Essence) :
    b.essence ≠ .tuple as := by
  cases b with
  | real d => rcases essence_real d with ⟨n, e⟩ | e <;> simp [e]
  | tuple ys => cases h
  | name s u => cases h
  | _ => simp [essence]

theorem essence_ne_node {b : Datum} (h : b.isNode = false) (t : Kind.Tag) (as : List Essence) :
    b.essence ≠ .node t as := by
  cases b with
  | real d => rcases essence_real d with ⟨n, e⟩ | e <;> simp [e]
  | node k fs => cases h
  | _ => simp [essence]

theorem told_node_of_not {b : Datum} (h : b.isNode = false) (k : Kind) (fs : List Datum)
    (side : Side) : Told side (node k fs) b := by
  have apart : (node k fs).essence ≠ b.essence := (essence_ne_node h _ _).symm
  have compared : (node k fs).compare side b = .ok false := by
    cases b with
    | node l gs => cases h
    | _ => simp only [compare]
  rw [Told, compared, decide_eq_false apart]

theorem told_of_tupleItems? {a b : Datum} {xs : List Datum} (ha : a.tupleItems? = some xs)
    (side : Side)
    (h : ∀ ys side, b.tupleItems? = some ys → List.Forall₂ (Told side) xs ys) : Told side a b := by
  rw [Told, compare_of_tupleItems? ha, essence_of_tupleItems? ha]
  cases hb : b.tupleItems? with
  | none => simp [(essence_ne_tuple hb _).symm]
  | some ys =>
      rw [essence_of_tupleItems? hb]
      simpa using compareItems_of_told (h ys (leader a b side) hb)

theorem keys_of_tuple_key {d : Datum} {xs : List Datum} {ks : List Key}
    (hd : d.tupleItems? = some xs) (h : d.key = .ok (.tuple ks)) : key.keys xs = .ok ks := by
  rw [key_of_tupleItems? hd] at h
  obtain ⟨ls, all, same⟩ := map_ok h
  cases same
  exact all

theorem keys_nil_ok {ds : List Datum} (h : key.keys ds = .ok []) : ds = [] := by
  cases ds with
  | nil => rfl
  | cons d ds =>
      obtain ⟨k, ls, _, _, impossible⟩ := keys_cons_ok h
      cases impossible

theorem told_null (side : Side) (b : Datum) : Told side .null b := by
  cases b with
  | real d =>
      have apart : Datum.null.essence ≠ (real d).essence := by
        rcases essence_real d with ⟨n, e⟩ | e <;> rw [e] <;> simp [essence]
      simp [Told, compare, apart]
  | _ => simp [Told, compare, essence]

theorem told_text (side : Side) (s : String) (b : Datum) : Told side (.text s) b := by
  cases b with
  | real d =>
      have apart : (Datum.text s).essence ≠ (real d).essence := by
        rcases essence_real d with ⟨n, e⟩ | e <;> rw [e] <;> simp [essence]
      simp [Told, compare, apart]
  | text t => by_cases same : s = t <;> simp [Told, compare, essence, same]
  | _ => simp [Told, compare, essence]

mutual

theorem told_of_key : (a b : Datum) → (side : Side) → {k : Key} → a.regular = true →
    b.regular = true → a.key = .ok k → b.key = .ok k → Told side a b
  | .null, b, side, _, _, _, _, _ => told_null side b
  | .bool x, b, _, _, _, _, _, _ => congrArg Except.ok (sameNumber_int (a := .bool x) rfl b)
  | .int n, b, _, _, _, _, _, _ => congrArg Except.ok (sameNumber_int (a := .int n) rfl b)
  | .real d, b, _, _, ha, _, _, _ => congrArg Except.ok (sameNumber_real ha b)
  | .text s, b, side, _, _, _, _, _ => told_text side s b
  | .list xs, _, _, _, _, _, h, _ => by cases h
  | .tuple xs, b, side, _, ha, hb, h, h' => by
      obtain ⟨ks, all, rfl⟩ := map_ok h
      refine told_of_tupleItems? rfl side fun ys side items => ?_
      exact told_of_keys xs ys side ha (regular_of_tupleItems? items hb) all
        (keys_of_tuple_key items h')
  | .name s u, b, side, _, ha, hb, h, h' => by
      rw [key_of_tupleItems? (d := .name s u) rfl] at h
      obtain ⟨ks, all, rfl⟩ := map_ok h
      obtain ⟨k, ls, first, tail, rfl⟩ := keys_cons_ok all
      obtain ⟨l, _, second, rest, rfl⟩ := keys_cons_ok tail
      cases rest
      refine told_of_tupleItems? rfl side fun ys side items => ?_
      have whole := regular_of_tupleItems? items hb
      have keyed := keys_of_tuple_key items h'
      simp only [regular, Bool.and_eq_true] at ha
      rcases ys with _ | ⟨t, ys⟩
      · cases keyed
      obtain ⟨_, _, first', tail', same⟩ := keys_cons_ok keyed
      cases same
      rcases ys with _ | ⟨v, ys⟩
      · cases tail'
      obtain ⟨_, _, second', rest', same⟩ := keys_cons_ok tail'
      cases same
      cases keys_nil_ok rest'
      simp only [regular.all, Bool.and_eq_true] at whole
      exact .cons (told_of_key s t side ha.1 whole.1 first first')
        (.cons (told_of_key u v side ha.2 whole.2.1 second second') .nil)
  | .node k fs, b, side, _, ha, hb, h, h' => by
      obtain ⟨ks, all, rfl⟩ := key_regular_node ha h
      cases isNode : b.isNode with
      | false => exact told_node_of_not isNode k fs side
      | true =>
          cases b with
          | node l gs =>
              obtain ⟨ls, all', same⟩ := key_regular_node hb h'
              obtain ⟨tags, rfl⟩ := Key.node.inj same
              obtain ⟨names, _, long, parts⟩ := regular_node ha
              obtain ⟨names', _, long', parts'⟩ := regular_node hb
              have told := fun side => told_of_keys fs gs side parts parts' all all'
              have even : fs.length = gs.length := (told side).length_eq
              cases side with
              | left =>
                  simp only [Told, compare, known, names, fieldNames, essence,
                    Essence.node.injEq, tags, true_and]
                  exact agreement_of_told (told .left) long
              | right =>
                  simp only [Told, compare, known, names', fieldNames, essence,
                    Essence.node.injEq, tags, true_and]
                  exact agreement_of_told (told .right) (even.trans long')
          | _ => cases isNode

theorem told_of_keys : (xs ys : List Datum) → (side : Side) → {ks : List Key} →
    regular.all xs = true → regular.all ys = true → key.keys xs = .ok ks → key.keys ys = .ok ks →
    List.Forall₂ (Told side) xs ys
  | [], ys, side, _, _, _, h, h' => by
      cases h
      cases keys_nil_ok h'
      exact .nil
  | x :: xs, ys, side, _, hx, hy, h, h' => by
      obtain ⟨k, ls, head, tail, rfl⟩ := keys_cons_ok h
      cases ys with
      | nil => cases h'
      | cons y ys =>
          obtain ⟨_, _, head', tail', same⟩ := keys_cons_ok h'
          cases same
          simp only [regular.all, Bool.and_eq_true] at hx hy
          exact .cons (told_of_key x y side hx.1 hy.1 head head')
            (told_of_keys xs ys side hx.2 hy.2 tail tail')

end

theorem entries_regular {α : Type} {k : Kind} {fs : List Datum} (h : (node k fs).regular = true)
    (remarked : Remark → α) (xs : List α) : entries k fs remarked xs = k.fields.zip xs := by
  obtain ⟨names, own, _, _⟩ := regular_node h
  simp only [entries, own, known, names]

theorem entriesFault?_regular {k : Kind} {fs : List Datum} (h : (node k fs).regular = true) :
    (node k fs).entriesFault? = none := by
  obtain ⟨names, own, _, _⟩ := regular_node h
  simp only [entriesFault?, own, fieldNames, names]

mutual

theorem passageFault?_of_regular : (d : Datum) → (p : Passage) → d.regular = true →
    d.passageFault? p = none
  | .null, _, _ => rfl
  | .bool _, _, _ => rfl
  | .int _, _, _ => rfl
  | .real _, _, _ => rfl
  | .text _, _, _ => rfl
  | .list xs, p, h => List.findSome?_eq_none_iff.2 (faults_of_regular xs p h)
  | .tuple xs, p, h => List.findSome?_eq_none_iff.2 (faults_of_regular xs p h)
  | .name s u, p, h => by
      simp only [regular, Bool.and_eq_true] at h
      simp only [passageFault?, passageFault?_of_regular s .inTurn h.1,
        passageFault?_of_regular u .inTurn h.2, Option.or]
  | .node k fs, p, h => by
      have within : ((k.fields.zip (passageFault?.faults fs p)).findSome? (·.2)) = none :=
        List.findSome?_eq_none_iff.2 fun q hq =>
          faults_of_regular fs p (regular_node h).2.2.2 q.2 (List.of_mem_zip hq).2
      simp only [passageFault?, entries_regular h, entriesFault?_regular h, within]
      cases p <;> rfl

theorem faults_of_regular : (ds : List Datum) → (p : Passage) → regular.all ds = true →
    ∀ fault ∈ passageFault?.faults ds p, fault = none
  | [], _, _ => by simp [passageFault?.faults]
  | d :: ds, p, h => by
      simp only [regular.all, Bool.and_eq_true] at h
      intro fault member
      simp only [passageFault?.faults, List.mem_cons] at member
      rcases member with rfl | member
      · exact passageFault?_of_regular d p h.1
      · exact faults_of_regular ds p h.2 fault member

end

theorem displayFault?_of_regular : (d : Datum) → d.regular = true → d.displayFault? = none
  | .text _, _ => rfl
  | .name s u, h => by
      simp only [regular, Bool.and_eq_true] at h
      exact displayFault?_of_regular s h.1
  | .null, h | .bool _, h | .int _, h | .real _, h | .list _, h | .tuple _, h | .node _ _, h =>
      passageFault?_of_regular _ .inTurn h

theorem displayed_of_regular {d : Datum} (h : d.regular = true) : d.displayed = .ok d.display := by
  rw [displayed, displayFault?_of_regular d h]

def ShownAs : Datum → String → Prop
  | .text s, t => t = s
  | .name s _, t => s.ShownAs t
  | d, t => d.rendered = .ok t

theorem displayed_eq_ok_iff (t : String) : (d : Datum) → (d.displayed = .ok t ↔ d.ShownAs t)
  | .text _ => ⟨fun h => (Except.ok.inj h).symm, fun h => congrArg Except.ok h.symm⟩
  | .name s _ => displayed_eq_ok_iff t s
  | .null | .bool _ | .int _ | .real _ | .list _ | .tuple _ | .node _ _ => Iff.rfl

mutual

theorem regular_essence : (d : Datum) → d.essence.regular = d.regular
  | .null | .bool _ | .int _ | .text _ => rfl
  | .real d => by
      simp only [essence]
      split
      · exact (Decimal.isNumber_of_integer? ‹_›).symm
      · rfl
  | .list xs => all_essences xs
  | .tuple xs => all_essences xs
  | .name s u => by
      simp [essence, Essence.regular, Essence.regular.all, regular, regular_essence s,
        regular_essence u]
  | .node k fs => by
      simp [essence, Essence.regular, regular, length_essences, all_essences fs]

theorem all_essences : (ds : List Datum) →
    Essence.regular.all (essence.essences ds) = regular.all ds
  | [] => rfl
  | d :: ds => by
      simp [essence.essences, Essence.regular.all, regular.all, regular_essence d, all_essences ds]

end

theorem length_of_keys {ds : List Datum} {ks : List Key} (h : key.keys ds = .ok ks) :
    ks.length = ds.length := by
  induction ds generalizing ks with
  | nil => cases h; rfl
  | cons d ds ih =>
      obtain ⟨_, ls, _, tail, rfl⟩ := keys_cons_ok h
      simp [ih tail]

theorem regular_ofReal (d : Decimal) : (Key.ofReal d).regular = d.isNumber := by
  unfold Key.ofReal
  split
  · exact (Decimal.isNumber_of_integer? ‹_›).symm
  · split
    · simp [Key.ofInt, Key.regular, Decimal.isNumber, *]
    · split
      · simp [Key.ofInt, Key.regular, Decimal.isNumber, *]
      · rfl

theorem regular_of_hidden {k : Kind} {fs : List Datum} {v : Datum}
    (h : hiding? .names k fs = some v) (n : Nat) : k.tag.regular n = false := by
  have named : Own.names.name ∈ k.tag.fields := by
    rw [Kind.fields_tag]
    by_contra without
    rw [hiding?_eq_field?, field?_eq_none without] at h
    cases h
  simp [Kind.Tag.regular, named]

mutual

theorem regular_key : (d : Datum) → {k : Key} → d.key = .ok k → k.regular = d.regular
  | .null, _, h | .bool _, _, h | .int _, _, h => by cases h; rfl
  | .text s, _, h => by
      cases h
      unfold Key.ofText
      split <;> rfl
  | .real d, _, h => by
      cases h
      exact regular_ofReal d
  | .list _, _, h => by cases h
  | .tuple xs, _, h => by
      obtain ⟨ks, all, rfl⟩ := map_ok h
      exact all_keys xs all
  | .name s u, _, h => by
      rw [key_of_tupleItems? (d := .name s u) rfl] at h
      obtain ⟨ks, all, rfl⟩ := map_ok h
      obtain ⟨k, ls, head, tail, rfl⟩ := keys_cons_ok all
      obtain ⟨l, _, second, rest, rfl⟩ := keys_cons_ok tail
      cases rest
      simp [Key.regular, Key.regular.all, regular, regular_key s head, regular_key u second]
  | .node k fs, _, h => by
      simp only [key] at h
      split at h
      · obtain ⟨ks, all, rfl⟩ := map_ok h
        simp [Key.regular, regular, length_of_keys all, all_keys fs all]
      · rename_i v hidden
        have untagged := regular_of_hidden hidden
        split at h
        · cases h
        · simp only [bind, Except.bind] at h
          split at h
          · cases h
          · cases h
            simp [Key.regular, regular, untagged]

theorem all_keys : (ds : List Datum) → {ks : List Key} → key.keys ds = .ok ks →
    Key.regular.all ks = regular.all ds
  | [], _, h => by cases h; rfl
  | d :: ds, _, h => by
      obtain ⟨k, ls, head, tail, rfl⟩ := keys_cons_ok h
      simp [Key.regular.all, regular.all, regular_key d head, all_keys ds tail]

end

end Datum

namespace Keyed

variable {stored sought : Keyed}

theorem key_eq_essence (h : stored.datum.regular = true) : stored.key = stored.datum.essence.key :=
  Datum.key_of_regular stored.datum h stored.key_eq

theorem meets_of_regular (h : sought.datum.regular = true) :
    stored.meets sought = .ok (decide (stored.datum.essence = sought.datum.essence)) := by
  by_cases same : stored.key = sought.key
  · have regular : stored.datum.regular = true := by
      rw [← Datum.regular_key _ stored.key_eq, same, Datum.regular_key _ sought.key_eq, h]
    rw [meets, if_pos same]
    split
    · rename_i alike
      rw [decide_eq_true (Datum.essence_of_resembles alike)]
    · exact Datum.told_of_key stored.datum sought.datum .left regular h stored.key_eq
        (same ▸ sought.key_eq)
  · have apart : stored.datum.essence ≠ sought.datum.essence := by
      intro e
      have regular : stored.datum.regular = true := by
        rw [← Datum.regular_essence, e, Datum.regular_essence, h]
      rw [key_eq_essence regular, key_eq_essence h, e] at same
      exact same rfl
    rw [meets_of_key_ne same, decide_eq_false apart]

end Keyed

end ScopeResolution
