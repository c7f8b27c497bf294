import PhpTypes.Decimal.Shortest

/-!
The double nearest to a rational number, with ties going to the even mantissa. Integers, quotients
of integers and decimals all become doubles through it, so each is rounded once.
-/

namespace PhpTypes.Decimal

/-- The greatest `l` with `2 ^ l ≤ num / den`, for positive `num` and `den`. -/
def ratioLog2 (num den : Nat) : Int :=
  let l := (num.log2 : Int) - den.log2
  if num * Nat.pow 2 (-l).toNat ≥ den * Nat.pow 2 l.toNat then l else l - 1

/-- The quotient rounded to the nearest integer, ties to even. -/
def roundDiv (num den : Nat) : Nat :=
  let q := num / den
  let twice := 2 * (num % den)
  if twice < den || (twice == den && q % 2 == 0) then q else q + 1

/-- The bits of the double `mantissa * 2 ^ exponent`, where the mantissa has at most 53 bits, and 53
unless the exponent is the least. -/
def packBits (mantissa : Nat) (exponent : Int) : Nat :=
  if mantissa < Nat.pow 2 52 then mantissa
  else if exponent > 971 then 2047 * Nat.pow 2 52
  else (exponent + 1075).toNat * Nat.pow 2 52 + (mantissa - Nat.pow 2 52)

def nearestBits (num den : Nat) : Nat :=
  if num == 0 then 0
  else
    let exponent := max (ratioLog2 num den - 52) (-1074)
    let mantissa := roundDiv (num * Nat.pow 2 (-exponent).toNat) (den * Nat.pow 2 exponent.toNat)
    if mantissa == Nat.pow 2 53 then packBits (Nat.pow 2 52) (exponent + 1)
    else packBits mantissa exponent

/-- The double nearest to `num / den`; infinite if every finite one is too small. -/
def nearest (num den : Nat) : Float := Float.ofBits (UInt64.ofNat (nearestBits num den))

def ofInt (n : Int) : Float :=
  if n < 0 then -(nearest n.natAbs 1) else nearest n.natAbs 1

/-- The quotient of two integers, rounded once. -/
def ofQuotient (a b : Int) : Float :=
  let q := nearest a.natAbs b.natAbs
  if (a < 0) != (b < 0) then -q else q

/-- The double nearest to `digits * 10 ^ exponent`. Exponents far outside the range of doubles are
not expanded. -/
def ofDecimal (digits : Nat) (exponent : Int) : Float :=
  let places := (Nat.toDigits 10 digits).length + exponent
  if digits == 0 || places < -400 then 0.0
  else if places > 400 then nearest (Nat.pow 10 400) 1
  else nearest (digits * Nat.pow 10 exponent.toNat) (Nat.pow 10 (-exponent).toNat)

/-- The whole part of a finite double. -/
def truncate? (x : Float) : Option Int :=
  match split x with
  | .finite negative b =>
    let magnitude := b.mantissa * Nat.pow 2 b.exponent.toNat / Nat.pow 2 (-b.exponent).toNat
    some (if negative then -(magnitude : Int) else magnitude)
  | _ => none

def isFinite (x : Float) : Bool := (truncate? x).isSome

end PhpTypes.Decimal
