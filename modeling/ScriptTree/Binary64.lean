/-!
Non-negative numbers of the binary interchange format with 64 bits, rounded to nearest with ties
to even. A number is named by its bits; the exact value of a finite one is `significand` times a
power of two.
-/

namespace ScriptTree

/-- A non-negative binary number with a significand of 53 bits. -/
structure Binary64 where
  /-- The bits, read as a natural number: larger bits are larger values. -/
  bits : Nat
  deriving DecidableEq, Repr

/-- The quotient rounded to the nearest natural number, a half going to the even neighbour. -/
def roundDiv (num den : Nat) : Nat :=
  let quotient := num / den
  let twice := 2 * (num % den)
  if twice < den then quotient
  else if den < twice then quotient + 1
  else quotient + quotient % 2

namespace Binary64

/-- Zero. -/
def zero : Binary64 := ⟨0⟩

/-- What everything too large rounds to. -/
def infinity : Binary64 := ⟨0x7ff <<< 52⟩

/-- The power of two at or below the quotient, offset by 1074; quotients below the least normal
number count as that number. -/
def scale (num den : Nat) : Nat :=
  let estimate := num.log2 + 1074 - den.log2
  -- The quotient of the leading powers of two is off by at most one.
  let tooLarge := num <<< 1074 < den <<< estimate
  (if tooLarge then estimate - 1 else estimate) - 52

/-- The number nearest to `num / den`. -/
def ofRatio (num den : Nat) : Binary64 :=
  if num = 0 then zero
  else
    -- `num / den` is the significand times 2 ^ (unit - 1074).
    let unit := scale num den
    let significand := roundDiv (num <<< 1074) (den <<< unit)
    let bits := (unit <<< 52) + significand
    if infinity.bits ≤ bits then infinity else ⟨bits⟩

/-- The number nearest to `digits` times ten to the power `exponent`. Powers far outside the
range of the format are decided without being computed. -/
def ofDecimal (digits : Nat) (exponent : Int) : Binary64 :=
  let length : Int := (Nat.toDigits 10 digits).length
  if digits = 0 then zero
  else if length + exponent > 310 then infinity
  else if length + exponent < -330 then zero
  else if 0 ≤ exponent then ofRatio (digits * Nat.pow 10 exponent.toNat) 1
  else ofRatio digits (Nat.pow 10 (-exponent).toNat)

/-- The significand of a finite number. -/
def significand (x : Binary64) : Nat :=
  if x.bits < 1 <<< 52 then x.bits else (1 <<< 52) + x.bits % (1 <<< 52)

/-- The power of two of a finite number's last place, offset by 1074. -/
def unit (x : Binary64) : Nat :=
  (x.bits >>> 52) - 1

/-- The exact value times two to the power 1074. -/
def scaled (x : Binary64) : Nat :=
  x.significand <<< x.unit

/-- The product with a natural number, rounded. -/
def mulNat (x : Binary64) (n : Nat) : Binary64 :=
  ofRatio (x.scaled * n) (1 <<< 1074)

/-- The value in decimal with one digit after the point, a tie going to the even digit. -/
def toOneDecimal (x : Binary64) : String :=
  let tenths := roundDiv (x.scaled * 10) (1 <<< 1074)
  toString (tenths / 10) ++ "." ++ toString (tenths % 10)

/-- The bits as sixteen digits of base sixteen. -/
def toHex (x : Binary64) : String :=
  let digits := Nat.toDigits 16 x.bits
  String.ofList (List.replicate (16 - digits.length) '0' ++ digits)

end Binary64

end ScriptTree
