import DocPath.Number.Binary64

/-! The shortest decimals that read back as a given binary number. -/

namespace DocPath.Shortest

/-- A decimal: its digits without trailing zeros, and the place of the point counted from the
first digit. The decimal is `0.d₁d₂…` times `10 ^ point`. -/
structure Digits where
  digits : List Char
  point : Int
deriving DecidableEq

/-- The reals that round to a number form an interval around it. Its ends, and the number
itself, are integers over the one denominator; the ends belong to it when `closed`. -/
structure Interval where
  low : Nat
  value : Nat
  high : Nat
  den : Nat
  closed : Bool

/-- The interval of `mantissa · 2 ^ exponent`. Below a power of two the neighbours are half as
far apart, unless the exponent cannot get less. -/
def interval (mantissa : Nat) (exponent : Int) : Interval :=
  let narrow := mantissa == Binary64.mantissaLimit / 2 && exponent != Binary64.minExponent
  let up := (exponent - 2).toNat
  { low := (4 * mantissa - if narrow then 1 else 2) <<< up
    value := (4 * mantissa) <<< up
    high := (4 * mantissa + 2) <<< up
    den := 1 <<< (2 - exponent).toNat
    closed := mantissa % 2 == 0 }

/-- Whether `n · 10 ^ scale` lies in an interval. -/
def Interval.holds (i : Interval) (n : Nat) (scale : Int) : Bool :=
  let x := n * Nat.pow 10 scale.toNat * i.den
  let unit := Nat.pow 10 (-scale).toNat
  let low := i.low * unit
  let high := i.high * unit
  if i.closed then low ≤ x && x ≤ high else low < x && x < high

/-- The multiple of `10 ^ scale` in the interval that is nearest to its value, if there is one.
It is one of the two next to the value; of a tie the even one is taken. -/
def Interval.nearest? (i : Interval) (scale : Int) : Option Nat :=
  let num := i.value * Nat.pow 10 (-scale).toNat
  let den := i.den * Nat.pow 10 scale.toNat
  let below := num / den
  let low := i.holds below scale
  let high := i.holds (below + 1) scale
  if low && high then
    some (Binary64.roundDiv num den)
  else if low then some below
  else if high then some (below + 1)
  else none

/-- The first scale, going down from the given one, whose grid has a point in the interval. -/
def Interval.search (i : Interval) : Nat → Int → Nat × Int
  | 0, scale => (0, scale)
  | fuel + 1, scale =>
      match i.nearest? scale with
      | some n => if n == 0 then i.search fuel (scale - 1) else (n, scale)
      | none => i.search fuel (scale - 1)

/-- The greatest `e` with `10 ^ e ≤ num / den`, given that `start` is not below it. -/
def log10Ratio (num den : Nat) : Nat → Int → Int
  | 0, e => e
  | fuel + 1, e =>
      if den * Nat.pow 10 e.toNat ≤ num * Nat.pow 10 (-e).toNat then e
      else log10Ratio num den fuel (e - 1)

/-- The fewest digits that read back as `mantissa · 2 ^ exponent`, and of those the nearest to
it. Seventeen digits always read back. -/
def digits (mantissa : Nat) (exponent : Int) : Digits :=
  if mantissa == 0 then ⟨['0'], 1⟩
  else
    let i := interval mantissa exponent
    let top := log10Ratio i.value i.den 700 310
    let (n, scale) := i.search 19 (top + 1)
    let ds := Nat.toDigits 10 n
    ⟨(ds.reverse.dropWhile (· == '0')).reverse, ds.length + scale⟩

end DocPath.Shortest
