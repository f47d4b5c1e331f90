import Mathlib.Algebra.GroupWithZero.Nat
import ScopeResolution.Text.Quoted

namespace ScopeResolution.Text

def hexValue (c : Char) : Nat :=
  if c.toNat < 58 then c.toNat - 48 else c.toNat - 87

theorem hexValue_hexDigit : ∀ n < 16, hexValue (hexDigit n) = n := by
  decide

def ofHex (cs : List Char) : Nat :=
  cs.foldl (fun n c => 16 * n + hexValue c) 0

theorem ofHex_hex (w n : Nat) : ofHex (hex w n) = n % 16 ^ w := by
  induction w generalizing n with
  | zero => simp [hex, ofHex, Nat.mod_one]
  | succ w ih =>
      have digit : hexValue (hexDigit (n % 16)) = n % 16 :=
        hexValue_hexDigit _ (Nat.mod_lt n (by decide))
      have upper := ih (n / 16)
      rw [ofHex] at upper
      rw [hex, ofHex, List.foldl_append, upper, List.foldl_cons, List.foldl_nil, digit,
        Nat.pow_succ', Nat.mod_mul, Nat.add_comm]

def readEscape : List Char → Option (Char × List Char)
  | [] => none
  | '\\' :: 'n' :: rest => some ('\n', rest)
  | '\\' :: 'r' :: rest => some ('\r', rest)
  | '\\' :: 't' :: rest => some ('\t', rest)
  | '\\' :: 'x' :: rest => some (byCode 2 rest)
  | '\\' :: 'u' :: rest => some (byCode 4 rest)
  | '\\' :: 'U' :: rest => some (byCode 8 rest)
  | '\\' :: c :: rest => some (c, rest)
  | c :: rest => some (c, rest)
where
  byCode (width : Nat) (cs : List Char) : Char × List Char :=
    (Char.ofNat (ofHex (cs.take width)), cs.drop width)

theorem byCode_hex {w : Nat} {c : Char} (h : c.toNat < 16 ^ w) (rest : List Char) :
    readEscape.byCode w (hex w c.toNat ++ rest) = (c, rest) := by
  rw [readEscape.byCode, List.take_left' (length_hex w _), List.drop_left' (length_hex w _),
    ofHex_hex, Nat.mod_eq_of_lt h, Char.ofNat_toNat]

theorem toNat_lt (c : Char) : c.toNat < 16 ^ 8 := by
  have valid := c.valid
  simp only [UInt32.isValidChar, Nat.isValidChar] at valid
  show c.val.toNat < _
  omega

theorem readEscape_escapeByCode (c : Char) (rest : List Char) :
    readEscape (escapeByCode c.toNat ++ rest) = some (c, rest) := by
  rw [escapeByCode]
  split
  · exact congrArg some (byCode_hex (w := 2) (by assumption) rest)
  · split
    · exact congrArg some (byCode_hex (w := 4) (by assumption) rest)
    · exact congrArg some (byCode_hex (w := 8) (toNat_lt c) rest)

theorem readEscape_plain {c : Char} (h : c ≠ '\\') (rest : List Char) :
    readEscape (c :: rest) = some (c, rest) := by
  unfold readEscape
  split <;> simp_all

section Escape

variable {quote : Char} (h : quote = '"' ∨ quote = '\'')
include h

theorem readEscape_escape (c : Char) (rest : List Char) :
    readEscape (escape quote c ++ rest) = some (c, rest) := by
  rw [escape]
  split
  · rename_i special
    rcases special with rfl | rfl
    · rfl
    · rcases h with rfl | rfl <;> rfl
  · rename_i plain
    split
    · rename_i same
      rw [same]
      rfl
    split
    · rename_i same
      rw [same]
      rfl
    split
    · rename_i same
      rw [same]
      rfl
    split
    · exact readEscape_plain (fun same => plain (.inl same)) rest
    · exact readEscape_escapeByCode c rest

theorem escape_eq_cons (c : Char) :
    ∃ first more, escape quote c = first :: more ∧ first ≠ quote := by
  have slash : '\\' ≠ quote := by rcases h with rfl | rfl <;> decide
  rw [escape]
  split
  · exact ⟨_, _, rfl, slash⟩
  · rename_i plain
    split
    · exact ⟨_, _, rfl, slash⟩
    split
    · exact ⟨_, _, rfl, slash⟩
    split
    · exact ⟨_, _, rfl, slash⟩
    split
    · exact ⟨_, _, rfl, fun same => plain (.inr same)⟩
    · rw [escapeByCode]
      split
      · exact ⟨_, _, rfl, slash⟩
      · split <;> exact ⟨_, _, rfl, slash⟩

theorem escapes_append_inj {cs ds r r' : List Char}
    (same : cs.flatMap (escape quote) ++ quote :: r = ds.flatMap (escape quote) ++ quote :: r') :
    cs = ds ∧ r = r' := by
  induction cs generalizing ds with
  | nil =>
      cases ds with
      | nil => exact ⟨rfl, (List.cons.inj same).2⟩
      | cons d ds =>
          obtain ⟨first, more, escaped, apart⟩ := escape_eq_cons h d
          rw [List.flatMap_cons, escaped] at same
          exact absurd (List.cons.inj same).1.symm apart
  | cons c cs ih =>
      cases ds with
      | nil =>
          obtain ⟨first, more, escaped, apart⟩ := escape_eq_cons h c
          rw [List.flatMap_cons, escaped] at same
          exact absurd (List.cons.inj same).1 apart
      | cons d ds =>
          -- Both begin with an escape, and reading it tells the character and leaves the rest.
          rw [List.flatMap_cons, List.flatMap_cons, List.append_assoc, List.append_assoc] at same
          have read := congrArg readEscape same
          rw [readEscape_escape h, readEscape_escape h, Option.some.injEq, Prod.mk.injEq] at read
          obtain ⟨rest, after⟩ := ih read.2
          exact ⟨by rw [read.1, rest], after⟩

end Escape

theorem quotedChars_append_inj {cs ds r r' : List Char}
    (same : quotedChars cs ++ r = quotedChars ds ++ r') : cs = ds ∧ r = r' := by
  simp only [quotedChars, List.cons_append, List.append_assoc] at same
  obtain ⟨quotes, rest⟩ := List.cons.inj same
  rw [← quotes] at rest
  exact escapes_append_inj (quoteFor_eq cs) rest

end ScopeResolution.Text
