/-!
The shortest decimal that reads back as a given double. A finite double is `m * 2 ^ q`; the reals
that round to it form an interval around it. On each decimal grid, coarse to fine, the two
neighbours of the value are tried, and the first grid that has one of them in the interval gives the
digits.
-/

namespace PhpTypes.Decimal

/-- A finite positive double as `mantissa * 2 ^ exponent`. -/
structure Binary where
  mantissa : Nat
  exponent : Int

/-- Digits `d₁d₂…` with the value `0.d₁d₂… * 10 ^ point`. -/
structure Digits where
  digits : List Nat
  point : Int

inductive Parts where
  | nan
  | infinite (negative : Bool)
  | finite (negative : Bool) (magnitude : Binary)

/-- The bits of a double: one of sign, eleven of exponent, and 52 of fraction. -/
def split (x : Float) : Parts :=
  let bits : Nat := x.toBits.toNat
  let negative := bits / Nat.pow 2 63 == 1
  let exponent : Nat := bits / Nat.pow 2 52 % Nat.pow 2 11
  let fraction : Nat := bits % Nat.pow 2 52
  if exponent == 2047 then if fraction == 0 then .infinite negative else .nan
  else if exponent == 0 then .finite negative ⟨fraction, -1074⟩
  else .finite negative ⟨fraction + Nat.pow 2 52, (exponent : Int) - 1075⟩

/-- Numerators over one denominator: the value and the ends of its interval. -/
structure Interval where
  low : Nat
  value : Nat
  high : Nat
  denominator : Nat
  closed : Bool

/-- Below a power of two the neighbours lie twice as close. -/
def Binary.interval (b : Binary) : Interval :=
  let scale := Nat.pow 2 (b.exponent - 2).toNat
  let low := if b.mantissa == Nat.pow 2 52 && b.exponent > -1074 then 4 * b.mantissa - 1
    else 4 * b.mantissa - 2
  { low := low * scale
    value := 4 * b.mantissa * scale
    high := (4 * b.mantissa + 2) * scale
    denominator := Nat.pow 2 (2 - b.exponent).toNat
    closed := b.mantissa % 2 == 0 }

/-- Whether `n * 10 ^ place` lies in the interval. -/
def Interval.admits (i : Interval) (place : Int) (n : Nat) : Bool :=
  let x := n * Nat.pow 10 place.toNat * i.denominator
  let scale := Nat.pow 10 (-place).toNat
  let low := i.low * scale
  let high := i.high * scale
  if i.closed then low ≤ x && x ≤ high else low < x && x < high

/-- The decimal place of the first digit: the least `k` with the value below `10 ^ k`. -/
def magnitudeUp (value denominator : Nat) : Nat → Int → Int
  | 0, k => k
  | fuel + 1, k =>
    if value < denominator * Nat.pow 10 k.toNat then k
    else magnitudeUp value denominator fuel (k + 1)

def magnitudeDown (value denominator : Nat) : Nat → Int → Int
  | 0, k => k
  | fuel + 1, k =>
    if value * Nat.pow 10 (1 - k).toNat ≥ denominator then k
    else magnitudeDown value denominator fuel (k - 1)

def Interval.magnitude (i : Interval) : Int :=
  if i.value < i.denominator then magnitudeDown i.value i.denominator 330 0
  else magnitudeUp i.value i.denominator 330 1

/-- The decimal with `count` digits nearest to the value, if one of its two neighbours on that grid
lies in the interval; of two that are equally near, the even one. -/
def Interval.withDigits (i : Interval) (magnitude : Int) (count : Nat) : Option Nat :=
  let place := magnitude - count
  let unit := Nat.pow 10 place.toNat * i.denominator
  let value := i.value * Nat.pow 10 (-place).toNat
  let below := value / unit
  let twice := 2 * (value % unit)
  match i.admits place below, i.admits place (below + 1) with
  | true, true =>
    some (if twice < unit || (twice == unit && below % 2 == 0) then below else below + 1)
  | true, false => some below
  | false, true => some (below + 1)
  | false, false => none

def decimalDigits (n : Nat) : List Nat := (Nat.toDigits 10 n).map fun c => c.toNat - '0'.toNat

def dropTrailingZeros (ds : List Nat) : List Nat := (ds.reverse.dropWhile (· == 0)).reverse

def Binary.shortest (b : Binary) : Digits :=
  let i := b.interval
  let k := i.magnitude
  let counts := (List.range 17).map (· + 1)
  match counts.findSome? fun n => (i.withDigits k n).map fun d => (n, d) with
  | some (n, d) =>
    let ds := decimalDigits d
    ⟨dropTrailingZeros ds, k + (ds.length - n : Int)⟩
  | none => ⟨[], 0⟩

/-- When digits are written with a plain point, and how an exponent looks otherwise. -/
structure Format where
  leastPlain : Int
  greatestPlain : Int
  exponentWidth : Nat

def digitText (ds : List Nat) : String := String.ofList (ds.map Nat.digitChar)

def zeros (n : Nat) : String := String.ofList (List.replicate n '0')

def Format.plain (d : Digits) : String :=
  if d.point ≤ 0 then "0." ++ zeros (-d.point).toNat ++ digitText d.digits
  else
    let whole := d.point.toNat
    let tail := d.digits.drop whole
    digitText (d.digits.take whole) ++ zeros (whole - d.digits.length) ++ "." ++
      (if tail.isEmpty then "0" else digitText tail)

def Format.scientific (f : Format) (d : Digits) : String :=
  let e := d.point - 1
  let es := toString e.natAbs
  let tail := d.digits.drop 1
  digitText (d.digits.take 1) ++ (if tail.isEmpty then "" else "." ++ digitText tail) ++
    (if e < 0 then "e-" else "e+") ++ zeros (f.exponentWidth - es.length) ++ es

def Format.render (f : Format) (x : Float) : String :=
  match split x with
  | .nan => "nan"
  | .infinite negative => if negative then "-inf" else "inf"
  | .finite negative b =>
    let magnitude :=
      if b.mantissa == 0 then "0.0"
      else
        let d := b.shortest
        let e := d.point - 1
        if f.leastPlain ≤ e && e ≤ f.greatestPlain then Format.plain d else f.scientific d
    if negative then "-" ++ magnitude else magnitude

end PhpTypes.Decimal
