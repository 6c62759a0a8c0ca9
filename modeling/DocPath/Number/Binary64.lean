/-! Binary floating-point numbers of double precision, as exact integers and powers of two. -/

namespace DocPath

/-- The finite number `± mantissa · 2 ^ exponent`. The mantissa has at most 53 bits, and it has
53 of them unless the exponent is the least one; so each value is written in one way, apart
from the sign of zero. -/
structure Binary64 where
  negative : Bool
  mantissa : Nat
  exponent : Int
deriving DecidableEq

namespace Binary64

def minExponent : Int := -1074

def maxExponent : Int := 971

/-- Mantissas lie below this bound. -/
def mantissaLimit : Nat := 1 <<< 53

def zero (negative : Bool) : Binary64 := ⟨negative, 0, minExponent⟩

def neg (x : Binary64) : Binary64 := { x with negative := !x.negative }

/-- The quotient rounded to the nearest integer, a half to the even one. -/
def roundDiv (num den : Nat) : Nat :=
  let quotient := num / den
  let twice := 2 * (num % den)
  if twice < den || (twice == den && quotient % 2 == 0) then quotient else quotient + 1

/-- The greatest `e` with `2 ^ e ≤ num / den`, for a positive quotient. -/
def log2Ratio (num den : Nat) : Int :=
  let e : Int := (num.log2 : Int) - den.log2
  if num <<< (-e).toNat < den <<< e.toNat then e - 1 else e

/-- The number nearest to `num / den`, ties to the even mantissa; none if it is too large. -/
def ofRatio (negative : Bool) (num den : Nat) : Option Binary64 :=
  if num == 0 then some (zero negative)
  else
    let exponent := max minExponent (log2Ratio num den - 52)
    let mantissa := roundDiv (num <<< (-exponent).toNat) (den <<< exponent.toNat)
    let (mantissa, exponent) :=
      if mantissa == mantissaLimit then (mantissaLimit / 2, exponent + 1) else (mantissa, exponent)
    if maxExponent < exponent then none else some ⟨negative, mantissa, exponent⟩

def ofNat? (n : Nat) : Option Binary64 := ofRatio false n 1

/-- The rounded product. The sign is that of the first factor. -/
def mul? (x y : Binary64) : Option Binary64 :=
  let exponent := x.exponent + y.exponent
  ofRatio x.negative ((x.mantissa * y.mantissa) <<< exponent.toNat) (1 <<< (-exponent).toNat)

/-- The rounded quotient by a number that is not zero. The sign is that of the dividend. -/
def div? (x y : Binary64) : Option Binary64 :=
  let exponent := x.exponent - y.exponent
  ofRatio x.negative (x.mantissa <<< exponent.toNat) (y.mantissa <<< (-exponent).toNat)

/-- The number nearest to `digits · 10 ^ scale`. Scales far out of reach are settled first. -/
def ofDecimal (negative : Bool) (digits : Nat) (scale : Int) : Option Binary64 :=
  let places : Int := (Nat.toDigits 10 digits).length
  if digits == 0 || scale + places < -400 then some (zero negative)
  else if 400 < scale + places then none
  else ofRatio negative (digits * Nat.pow 10 scale.toNat) (Nat.pow 10 (-scale).toNat)

end Binary64

end DocPath
