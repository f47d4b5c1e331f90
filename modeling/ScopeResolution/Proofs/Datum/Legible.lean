import Std.Data.String.ToInt
import ScopeResolution.Proofs.Text.Quoted
import ScopeResolution.Proofs.Vocabulary

namespace ScopeResolution

open Text

def Kind.IsBuiltIn (k : Kind) : Prop :=
  ∃ f, k = .builtin f

namespace Text

def closes : List Char → Bool
  | [] => true
  | c :: _ => [',', ')', ']', '\n'].contains c

theorem closes_append {w : List Char} (h : closes w = false) (r : List Char) :
    closes (w ++ r) = false := by
  cases w with
  | nil => cases h
  | cons c cs => exact h

theorem takeWhile_of_closes {p : Char → Bool} (apart : [',', ')', ']', '\n'].any p = false)
    {r : List Char} (h : closes r = true) : r.takeWhile p = [] := by
  cases r with
  | nil => rfl
  | cons c cs =>
      have mem : c ∈ [',', ')', ']', '\n'] := List.contains_iff_mem.1 h
      exact List.takeWhile_cons_of_neg (List.any_eq_false.1 apart c mem)

theorem append_inj_of_forall {p : Char → Bool} {w w' r r' : List Char} (hw : ∀ c ∈ w, p c = true)
    (hw' : ∀ c ∈ w', p c = true) (stop : r.takeWhile p = []) (stop' : r'.takeWhile p = [])
    (same : w ++ r = w' ++ r') : w = w' ∧ r = r' := by
  have taken := congrArg (List.takeWhile p) same
  rw [List.takeWhile_append_of_pos hw, List.takeWhile_append_of_pos hw', stop, stop',
    List.append_nil, List.append_nil] at taken
  subst taken
  exact ⟨rfl, List.append_cancel_left same⟩

theorem isAlpha_eq_false_of_isDigit {c : Char} (h : c.isDigit = true) : c.isAlpha = false := by
  have low : c.toNat ≤ 57 := (Char.isDigit_iff_toNat.1 h).2
  have below (d : Char) (hd : 57 < d.toNat) : ¬ c.val ≥ d.val :=
    Nat.not_le_of_lt (Nat.lt_of_le_of_lt low hd)
  have upper : c.isUpper = false :=
    decide_eq_false fun range => below 'A' (by decide) range.1
  have lower : c.isLower = false := Bool.eq_false_iff.2 fun range =>
    below 'a' (by decide) (of_decide_eq_true (Bool.and_eq_true_iff.1 range).1)
  show (c.isUpper || c.isLower) = false
  rw [upper, lower]
  rfl

def isNumeral (c : Char) : Bool :=
  c == '-' || c.isDigit

theorem isNumeral_repr (n : Int) : ∀ c ∈ (toString n).toList, isNumeral c = true := by
  have digits (m : Nat) : ∀ c ∈ (Nat.repr m).toList, isNumeral c = true := by
    intro c mem
    rw [Nat.repr, String.toList_ofList] at mem
    have digit : c.isDigit = true := Nat.isDigit_of_mem_toDigits (by decide) (by decide) mem
    rw [isNumeral, digit, Bool.or_true]
  rw [Int.toString_eq_repr]
  cases n with
  | ofNat m => exact digits m
  | negSucc m =>
      rw [Int.repr, String.toList_append]
      exact List.forall_mem_append.2 ⟨List.all_eq_true.1 rfl, digits _⟩

theorem repr_ne_nil (n : Int) : (toString n).toList ≠ [] := by
  rw [Int.toString_eq_repr]
  cases n with
  | ofNat m =>
      rw [Int.repr, Nat.repr, String.toList_ofList]
      exact Nat.toDigits_ne_nil
  | negSucc m => simp [Int.repr]

theorem repr_append_inj {m n : Int} {r r' : List Char} (hr : closes r = true)
    (hr' : closes r' = true) (same : (toString m).toList ++ r = (toString n).toList ++ r') :
    m = n ∧ r = r' := by
  have stop {s : List Char} : closes s = true → s.takeWhile isNumeral = [] :=
    takeWhile_of_closes rfl
  obtain ⟨numerals, rest⟩ := append_inj_of_forall (isNumeral_repr m) (isNumeral_repr n) (stop hr)
    (stop hr') same
  rw [Int.toString_eq_repr, Int.toString_eq_repr] at numerals
  exact ⟨Int.repr_injective (String.toList_injective numerals), rest⟩

end Text

/-- Whatever closes the text of `x` and that of a member of the class, the texts up to there are the
same only if `x` is that member. -/
def Legible {α : Type} (shown : α → String) (C : α → Prop) (x : α) : Prop :=
  ∀ y, C y → ∀ r r', closes r = true → closes r' = true →
    (shown x).toList ++ r = (shown y).toList ++ r' → x = y ∧ r = r'

def Opens {α : Type} (shown : α → String) (C : α → Prop) : Prop :=
  ∀ y, C y → closes (shown y).toList = false

section Sequences

variable {α : Type} {shown : α → String} {C : α → Prop} {xs ys : List α} {c : Char}
  {r r' : List Char}

def sequence (shown : α → String) (tail : List α → List Char) : List α → List Char
  | [] => []
  | x :: xs => (shown x).toList ++ tail xs

def commaed (shown : α → String) (xs : List α) : List Char :=
  xs.flatMap fun y => ',' :: ' ' :: (shown y).toList

def tupleTail (shown : α → String) (xs : List α) : List Char :=
  if xs.isEmpty then [','] else commaed shown xs

theorem toList_joined (shown : α → String) (xs : List α) :
    (Datum.joined (xs.map shown)).toList = sequence shown (commaed shown) xs := by
  induction xs with
  | nil => rfl
  | cons x xs ih =>
      cases xs with
      | nil => simp [Datum.joined, sequence, commaed]
      | cons y ys =>
          simp only [Datum.joined, List.map_cons] at ih ⊢
          rw [String.intercalate_cons_cons, String.toList_append, String.toList_append, ih]
          simp [sequence, commaed]

theorem toList_tupled (shown : α → String) (xs : List α) :
    (Datum.tupled (xs.map shown)).toList = sequence shown (tupleTail shown) xs := by
  match xs with
  | [] => rfl
  | [x] => simp [Datum.tupled, sequence, tupleTail]
  | x :: y :: ys => exact toList_joined shown (x :: y :: ys)

theorem closes_commaed (hc : c = ')' ∨ c = ']') (xs : List α) (r : List Char) :
    closes (commaed shown xs ++ c :: r) = true := by
  cases xs with
  | nil => rcases hc with rfl | rfl <;> rfl
  | cons x xs => rfl

theorem closes_tupleTail (xs : List α) (r : List Char) :
    closes (tupleTail shown xs ++ ')' :: r) = true := by
  cases xs <;> rfl

theorem commaed_append_inj (hc : c = ')' ∨ c = ']') (legible : ∀ x ∈ xs, Legible shown C x)
    (members : ∀ y ∈ ys, C y) (same : commaed shown xs ++ c :: r = commaed shown ys ++ c :: r') :
    xs = ys ∧ r = r' := by
  have comma : ',' ≠ c := by rcases hc with rfl | rfl <;> decide
  induction xs generalizing ys with
  | nil =>
      cases ys with
      | nil => exact ⟨rfl, (List.cons.inj same).2⟩
      | cons y ys => exact absurd (List.cons.inj same).1.symm comma
  | cons x xs ih =>
      cases ys with
      | nil => exact absurd (List.cons.inj same).1 comma
      | cons y ys =>
          rw [List.forall_mem_cons] at legible members
          simp only [commaed, List.flatMap_cons, List.cons_append, List.append_assoc,
            List.cons.injEq, true_and] at same
          -- The next comma or the bracket closes the first item, so it is told from the others.
          obtain ⟨rfl, after⟩ :=
            legible.1 y members.1 _ _ (closes_commaed hc xs r) (closes_commaed hc ys r') same
          obtain ⟨rfl, rest⟩ := ih legible.2 members.2 after
          exact ⟨rfl, rest⟩

theorem tupleTail_append_inj (legible : ∀ x ∈ xs, Legible shown C x) (members : ∀ y ∈ ys, C y)
    (same : tupleTail shown xs ++ ')' :: r = tupleTail shown ys ++ ')' :: r') :
    xs = ys ∧ r = r' := by
  cases xs with
  | nil =>
      cases ys with
      | nil => exact ⟨rfl, (List.cons.inj (List.cons.inj same).2).2⟩
      | cons y ys => exact absurd (List.cons.inj (List.cons.inj same).2).1 (by decide)
  | cons x xs =>
      cases ys with
      | nil => exact absurd (List.cons.inj (List.cons.inj same).2).1 (by decide)
      | cons y ys => exact commaed_append_inj (.inl rfl) legible members same

theorem sequence_append_inj {tail : List α → List Char} (opens : Opens shown C)
    (legible : ∀ x ∈ xs, Legible shown C x) (own : ∀ x ∈ xs, C x) (members : ∀ y ∈ ys, C y)
    (nil : ∀ s, closes (c :: s) = true) (ends : ∀ zs s, closes (tail zs ++ c :: s) = true)
    (told : ∀ {us vs : List α}, (∀ u ∈ us, Legible shown C u) → (∀ v ∈ vs, C v) →
      tail us ++ c :: r = tail vs ++ c :: r' → us = vs ∧ r = r')
    (same : sequence shown tail xs ++ c :: r = sequence shown tail ys ++ c :: r') :
    xs = ys ∧ r = r' := by
  have opened {z : α} {zs : List α} (hz : ∀ y ∈ z :: zs, C y) (s : List Char) :
      closes (sequence shown tail (z :: zs) ++ s) = false := by
    rw [sequence, List.append_assoc]
    exact closes_append (opens z (hz z List.mem_cons_self)) _
  cases xs with
  | nil =>
      cases ys with
      | nil => exact ⟨rfl, (List.cons.inj same).2⟩
      | cons y ys =>
          have closed : closes (c :: r) = false := (congrArg closes same).trans (opened members _)
          rw [nil] at closed
          cases closed
  | cons x xs =>
      cases ys with
      | nil =>
          have closed : closes (c :: r') = false :=
            (congrArg closes same.symm).trans (opened own _)
          rw [nil] at closed
          cases closed
      | cons y ys =>
          rw [List.forall_mem_cons] at legible members
          rw [sequence, sequence, List.append_assoc, List.append_assoc] at same
          obtain ⟨rfl, after⟩ := legible.1 y members.1 _ _ (ends xs r) (ends ys r') same
          obtain ⟨rfl, rest⟩ := told legible.2 members.2 after
          exact ⟨rfl, rest⟩

theorem joined_append_inj (opens : Opens shown C) (hc : c = ')' ∨ c = ']')
    (legible : ∀ x ∈ xs, Legible shown C x) (own : ∀ x ∈ xs, C x) (members : ∀ y ∈ ys, C y)
    (same : (Datum.joined (xs.map shown)).toList ++ c :: r =
      (Datum.joined (ys.map shown)).toList ++ c :: r') : xs = ys ∧ r = r' := by
  rw [toList_joined, toList_joined] at same
  have bracket : ∀ s, closes (c :: s) = true := by
    rcases hc with rfl | rfl <;> exact fun _ => rfl
  exact sequence_append_inj opens legible own members bracket (closes_commaed hc)
    (commaed_append_inj hc) same

theorem tupled_append_inj (opens : Opens shown C) (legible : ∀ x ∈ xs, Legible shown C x)
    (own : ∀ x ∈ xs, C x) (members : ∀ y ∈ ys, C y)
    (same : (Datum.tupled (xs.map shown)).toList ++ ')' :: r =
      (Datum.tupled (ys.map shown)).toList ++ ')' :: r') : xs = ys ∧ r = r' := by
  rw [toList_tupled, toList_tupled] at same
  exact sequence_append_inj opens legible own members (fun _ => rfl) closes_tupleTail
    tupleTail_append_inj same

end Sequences

inductive Front where
  | null
  | bool (b : Bool)
  | int
  | text
  | list
  | tuple
  | name
  | node (form : Form)

namespace Front

def ofWord (w : String) : Option Front :=
  if w = "None" then some .null
  else if w = "True" then some (.bool true)
  else if w = "False" then some (.bool false)
  else if w = "Name" then some .name
  else (Form.all.find? fun f => f.name == w).map .node

def ofSign (c : Char) : Option Front :=
  if c = '[' then some .list
  else if c = '(' then some .tuple
  else if c = '\'' ∨ c = '"' then some .text
  else if isNumeral c then some .int
  else none

theorem ofWord_name (f : Form) : ofWord f.name = some (.node f) := by
  cases f <;> rfl

def read : List Char → Option Front
  | [] => none
  | c :: cs =>
      if c.isAlpha then ofWord (String.ofList ((c :: cs).takeWhile Char.isAlpha)) else ofSign c

theorem read_of_closes {r : List Char} (h : closes r = true) : read r = none := by
  cases r with
  | nil => rfl
  | cons c cs =>
      have cases : c = ',' ∨ c = ')' ∨ c = ']' ∨ c = '\n' := by simpa [closes] using h
      rcases cases with rfl | rfl | rfl | rfl <;> rfl

theorem read_word {w : String} {r : List Char} (letters : w.toList.all Char.isAlpha = true)
    (some : w.toList.isEmpty = false) (stop : r.takeWhile Char.isAlpha = []) :
    read (w.toList ++ r) = ofWord w := by
  rw [List.all_eq_true] at letters
  cases chars : w.toList with
  | nil =>
      rw [chars] at some
      cases some
  | cons c cs =>
      rw [chars] at letters
      rw [List.cons_append, read, if_pos (letters c List.mem_cons_self), ← List.cons_append,
        List.takeWhile_append_of_pos letters, stop, List.append_nil, ← chars, String.ofList_toList]

theorem read_numeral {c : Char} (h : isNumeral c = true) (r : List Char) :
    read (c :: r) = some .int := by
  rw [isNumeral, Bool.or_eq_true, beq_iff_eq] at h
  rcases h with rfl | digit
  · rfl
  · have letter := isAlpha_eq_false_of_isDigit digit
    have sign {d : Char} (apart : d.isDigit = false) : c ≠ d := fun same => by
      rw [same, apart] at digit
      cases digit
    have numeral : isNumeral c = true := by rw [isNumeral, digit, Bool.or_true]
    simp [read, letter, ofSign, sign, numeral]

end Front

namespace Datum

def front? : Datum → Option Front
  | .null => some .null
  | .bool b => some (.bool b)
  | .int _ => some .int
  | .real _ => none
  | .text _ => some .text
  | .list _ => some .list
  | .tuple _ => some .tuple
  | .name _ _ => some .name
  | .node k _ => some (.node k.root)

theorem renderAll_eq (ds : List Datum) : render.renderAll ds = ds.map render := by
  induction ds with
  | nil => rfl
  | cons d ds ih => exact congrArg (d.render :: ·) ih

theorem render_list (xs : List Datum) :
    (list xs).render = "[" ++ joined (xs.map render) ++ "]" := by
  rw [← renderAll_eq]
  rfl

theorem render_tuple (xs : List Datum) :
    (tuple xs).render = "(" ++ tupled (xs.map render) ++ ")" := by
  rw [← renderAll_eq]
  rfl

theorem render_name (s u : Datum) :
    (name s u).render = "Name(symbol=" ++ s.render ++ ", uid=" ++ u.render ++ ")" :=
  rfl

theorem toList_render_text (s : String) : (text s).render.toList = quotedChars s.toList :=
  String.toList_ofList

def renderField (p : String × Datum) : String :=
  p.1 ++ "=" ++ p.2.render

theorem render_form (f : Form) (fs : List Datum) :
    (node (.builtin f) fs).render =
      f.name ++ "(" ++ joined ((f.fields.zip fs).map renderField) ++ ")" := by
  have parts : (f.fields.zip (render.renderAll fs)).map (fun p => p.1 ++ "=" ++ p.2) =
      (f.fields.zip fs).map renderField := by
    rw [renderAll_eq, List.zip_map_right, List.map_map]
    rfl
  rw [← parts]
  rfl

theorem read_render {d : Datum} {r : List Char} (made : d.MadeOf Kind.IsBuiltIn)
    (hr : closes r = true) : Front.read (d.render.toList ++ r) = d.front? := by
  have stop : r.takeWhile Char.isAlpha = [] := takeWhile_of_closes rfl hr
  cases made with
  | null => exact Front.read_word (w := "None") rfl rfl stop
  | bool b =>
      cases b with
      | false => exact Front.read_word rfl rfl stop
      | true => exact Front.read_word rfl rfl stop
  | int n =>
      obtain ⟨c, cs, chars⟩ := List.exists_cons_of_ne_nil (repr_ne_nil n)
      have numerals := isNumeral_repr n
      rw [chars] at numerals
      show Front.read ((toString n).toList ++ r) = _
      rw [chars]
      exact Front.read_numeral (numerals c List.mem_cons_self) _
  | text s =>
      rw [toList_render_text, quotedChars]
      rcases quoteFor_eq s.toList with quote | quote <;> rw [quote] <;> rfl
  | list items =>
      rw [render_list, String.toList_append, String.toList_append]
      rfl
  | tuple items =>
      rw [render_tuple, String.toList_append, String.toList_append]
      rfl
  | name symbol uid =>
      simp only [render_name, String.toList_append, List.append_assoc]
      exact Front.read_word (w := "Name") rfl rfl rfl
  | node own full fields =>
      obtain ⟨f, rfl⟩ := own
      rw [render_form, String.toList_append, String.toList_append, String.toList_append,
        List.append_assoc, List.append_assoc, List.append_assoc]
      refine (Front.read_word ?_ ?_ rfl).trans (Front.ofWord_name f)
      · cases f <;> rfl
      · cases f <;> rfl

theorem opens_render : Opens render (MadeOf Kind.IsBuiltIn) := by
  intro d made
  have front := read_render made (r := []) rfl
  rw [List.append_nil] at front
  by_contra closed
  rw [Front.read_of_closes (Bool.not_eq_false _ ▸ closed)] at front
  cases made <;> cases front

theorem front?_eq {d e : Datum} {r r' : List Char} (hd : d.MadeOf Kind.IsBuiltIn)
    (he : e.MadeOf Kind.IsBuiltIn) (hr : closes r = true) (hr' : closes r' = true)
    (same : d.render.toList ++ r = e.render.toList ++ r') : d.front? = e.front? := by
  rw [← read_render hd hr, ← read_render he hr', same]

theorem legible_list {xs : List Datum} (h : ∀ x ∈ xs, Legible render (MadeOf Kind.IsBuiltIn) x)
    (own : ∀ x ∈ xs, x.MadeOf Kind.IsBuiltIn) :
    Legible render (MadeOf Kind.IsBuiltIn) (.list xs) := by
  intro e he r r' hr hr' same
  have front := front?_eq (.list own) he hr hr' same
  cases he with
  | @list ys items =>
      rw [render_list, render_list] at same
      simp only [String.toList_append, List.append_assoc, List.append_cancel_left_eq] at same
      obtain ⟨rfl, rest⟩ := joined_append_inj opens_render (.inr rfl) h own items same
      exact ⟨rfl, rest⟩
  | _ => cases front

theorem legible_tuple {xs : List Datum} (h : ∀ x ∈ xs, Legible render (MadeOf Kind.IsBuiltIn) x)
    (own : ∀ x ∈ xs, x.MadeOf Kind.IsBuiltIn) :
    Legible render (MadeOf Kind.IsBuiltIn) (.tuple xs) := by
  intro e he r r' hr hr' same
  have front := front?_eq (.tuple own) he hr hr' same
  cases he with
  | @tuple ys items =>
      rw [render_tuple, render_tuple] at same
      simp only [String.toList_append, List.append_assoc, List.append_cancel_left_eq] at same
      obtain ⟨rfl, rest⟩ := tupled_append_inj opens_render h own items same
      exact ⟨rfl, rest⟩
  | _ => cases front

theorem legible_name {s u : Datum} (symbol : Legible render (MadeOf Kind.IsBuiltIn) s)
    (uid : Legible render (MadeOf Kind.IsBuiltIn) u) (hs : s.MadeOf Kind.IsBuiltIn)
    (hu : u.MadeOf Kind.IsBuiltIn) : Legible render (MadeOf Kind.IsBuiltIn) (.name s u) := by
  intro e he r r' hr hr' same
  have front := front?_eq (.name hs hu) he hr hr' same
  cases he with
  | @name t v ht hv =>
      simp only [render_name, String.toList_append, List.append_assoc,
        List.append_cancel_left_eq] at same
      obtain ⟨rfl, after⟩ := symbol t ht _ _ rfl rfl same
      obtain ⟨rfl, rest⟩ := uid v hv _ _ rfl rfl (List.append_cancel_left after)
      exact ⟨rfl, List.append_cancel_left rest⟩
  | _ => cases front

def Labelled (p : String × Datum) : Prop :=
  closes p.1.toList = false ∧ (∀ c ∈ p.1.toList, (c != '=') = true) ∧ p.2.MadeOf Kind.IsBuiltIn

theorem labelled_of_mem_zip {f : Form} {fs : List Datum} (h : ∀ v ∈ fs, v.MadeOf Kind.IsBuiltIn)
    {p : String × Datum} (mem : p ∈ f.fields.zip fs) : Labelled p := by
  obtain ⟨field, value⟩ := List.of_mem_zip mem
  have plain : (f.fields.all fun g => !closes g.toList && g.toList.all (· != '=')) = true := by
    cases f <;> rfl
  have here := List.all_eq_true.1 plain p.1 field
  rw [Bool.and_eq_true, Bool.not_eq_true', List.all_eq_true] at here
  exact ⟨here.1, here.2, h p.2 value⟩

theorem opens_renderField : Opens renderField Labelled := by
  intro p labelled
  rw [renderField, String.toList_append, String.toList_append, List.append_assoc]
  exact closes_append labelled.1 _

theorem legible_renderField {p : String × Datum} (own : Labelled p)
    (h : Legible render (MadeOf Kind.IsBuiltIn) p.2) : Legible renderField Labelled p := by
  intro q labelled r r' hr hr' same
  simp only [renderField, String.toList_append, List.append_assoc] at same
  obtain ⟨field, after⟩ := append_inj_of_forall own.2.1 labelled.2.1 rfl rfl same
  obtain ⟨value, rest⟩ := h q.2 labelled.2.2 r r' hr hr' (List.append_cancel_left after)
  exact ⟨Prod.ext (String.toList_injective field) value, rest⟩

theorem legible_node {f : Form} {fs : List Datum}
    (h : ∀ v ∈ fs, Legible render (MadeOf Kind.IsBuiltIn) v)
    (full : fs.length = f.fields.length) (own : ∀ v ∈ fs, v.MadeOf Kind.IsBuiltIn) :
    Legible render (MadeOf Kind.IsBuiltIn) (.node (.builtin f) fs) := by
  intro e he r r' hr hr' same
  have front := front?_eq (.node ⟨f, rfl⟩ full own) he hr hr' same
  cases he with
  | @node k gs builtIn full' own' =>
      obtain ⟨g, rfl⟩ := builtIn
      cases front
      rw [render_form, render_form] at same
      simp only [String.toList_append, List.append_assoc, List.append_cancel_left_eq] at same
      obtain ⟨pairs, rest⟩ := joined_append_inj opens_renderField (.inl rfl)
        (fun p mem => legible_renderField (labelled_of_mem_zip own mem)
          (h p.2 (List.of_mem_zip mem).2))
        (fun p => labelled_of_mem_zip own) (fun p => labelled_of_mem_zip own') same
      -- The field names are those of the kind on both sides, so the values alone may differ.
      have first : (f.fields.zip fs).map Prod.snd = fs := List.map_snd_zip (Nat.le_of_eq full)
      have second : (f.fields.zip gs).map Prod.snd = gs := List.map_snd_zip (Nat.le_of_eq full')
      rw [← first, ← second, pairs]
      exact ⟨rfl, rest⟩
  | _ => cases front

theorem legible {d : Datum} (made : d.MadeOf Kind.IsBuiltIn) :
    Legible render (MadeOf Kind.IsBuiltIn) d := by
  induction made with
  | null =>
      intro e he r r' hr hr' same
      have front := front?_eq .null he hr hr' same
      cases he with
      | null => exact ⟨rfl, List.append_cancel_left same⟩
      | _ => cases front
  | bool b =>
      intro e he r r' hr hr' same
      have front := front?_eq (.bool b) he hr hr' same
      cases he with
      | bool c =>
          cases front
          exact ⟨rfl, List.append_cancel_left same⟩
      | _ => cases front
  | int n =>
      intro e he r r' hr hr' same
      have front := front?_eq (.int n) he hr hr' same
      cases he with
      | int m =>
          obtain ⟨rfl, rest⟩ := repr_append_inj hr hr' same
          exact ⟨rfl, rest⟩
      | _ => cases front
  | text s =>
      intro e he r r' hr hr' same
      have front := front?_eq (.text s) he hr hr' same
      cases he with
      | text t =>
          rw [toList_render_text, toList_render_text] at same
          obtain ⟨chars, rest⟩ := quotedChars_append_inj same
          exact ⟨congrArg _ (String.toList_injective chars), rest⟩
      | _ => cases front
  | list items ih => exact legible_list ih items
  | tuple items ih => exact legible_tuple ih items
  | name hs hu symbol uid => exact legible_name symbol uid hs hu
  | node own full fields ih =>
      obtain ⟨f, rfl⟩ := own
      exact legible_node ih full fields

end Datum

end ScopeResolution
