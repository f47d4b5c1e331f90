namespace ScopeResolution

structure Decimal where
  text : String
  deriving DecidableEq, Repr

namespace Decimal

def isNumber (d : Decimal) : Bool :=
  d.text != "nan"

/-- A sign, the digits as one number, and the power of ten they are scaled by. -/
structure Scaled where
  negative : Bool
  digits : Nat
  exponent : Int

def natOfDigits (cs : List Char) : Nat :=
  cs.foldl (fun n c => 10 * n + (c.toNat - 48)) 0

def intOfText (cs : List Char) : Int :=
  match cs with
  | '-' :: rest => -(natOfDigits rest : Int)
  | '+' :: rest => natOfDigits rest
  | rest => natOfDigits rest

def scaled? (d : Decimal) : Option Scaled :=
  let (negative, body) := match d.text.toList with
    | '-' :: rest => (true, rest)
    | rest => (false, rest)
  let mantissa := body.takeWhile (· ≠ 'e')
  let exponent := intOfText ((body.dropWhile (· ≠ 'e')).drop 1)
  let whole := mantissa.takeWhile (· ≠ '.')
  let fraction := (mantissa.dropWhile (· ≠ '.')).drop 1
  if (whole ++ fraction).all Char.isDigit && !whole.isEmpty then
    some ⟨negative, natOfDigits (whole ++ fraction), exponent - fraction.length⟩
  else none

def roundToDouble (n : Nat) : Nat :=
  let unit := Nat.pow 2 (n.log2 - 52)
  let low := n / unit
  let rest := n % unit
  if 2 * rest < unit then low * unit
  else if unit < 2 * rest then (low + 1) * unit
  else if low % 2 = 0 then low * unit else (low + 1) * unit

def integer? (d : Decimal) : Option Int := do
  let s ← d.scaled?
  let magnitude ←
    if 0 ≤ s.exponent then some (roundToDouble (s.digits * Nat.pow 10 s.exponent.toNat))
    else
      let unit := Nat.pow 10 (-s.exponent).toNat
      if s.digits % unit = 0 then some (s.digits / unit) else none
  return if s.negative then -(magnitude : Int) else magnitude

theorem isNumber_of_integer? {d : Decimal} {n : Int} (h : d.integer? = some n) :
    d.isNumber = true := by
  cases number : d.isNumber with
  | true => rfl
  | false =>
      have nan : d = ⟨"nan"⟩ := by
        cases d
        simpa [isNumber] using number
      have none : (⟨"nan"⟩ : Decimal).integer? = none := by decide
      rw [nan, none] at h
      cases h

def signed (s : Scaled) : Int :=
  if s.negative then -(s.digits : Int) else s.digits

def Scaled.less (a b : Scaled) : Bool :=
  let e := min a.exponent b.exponent
  signed a * Int.pow 10 (a.exponent - e).toNat < signed b * Int.pow 10 (b.exponent - e).toNat

def ofInt (n : Int) : Scaled :=
  ⟨n < 0, n.natAbs, 0⟩

end Decimal

end ScopeResolution
