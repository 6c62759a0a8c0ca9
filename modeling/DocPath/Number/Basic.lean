import DocPath.Number.Shortest

/-! Numbers of documents and their texts. -/

namespace DocPath

/-- Whole numbers that fit a machine word, with or without sign, stay exact. All others are
binary. -/
inductive Number where
  | whole (n : Int)
  | binary (x : Binary64)
deriving DecidableEq

/-- How a decimal is laid out. It is positional while its point lies within the given places,
and scientific outside them. -/
structure Layout where
  /-- The point lies more than this far before the first digit. -/
  leastPoint : Int
  /-- The point lies at most this far behind the first digit. -/
  greatestPoint : Int
  /-- The sign of a scientific exponent that is not negative. -/
  plus : List Char

namespace Layout

/-- Objects and arrays in braces and brackets show exponents with their sign. -/
def json : Layout := ⟨-5, 16, ['+']⟩

/-- Documents in block style show only negative signs. -/
def yaml : Layout := ⟨-5, 16, []⟩

/-- Positional decimals have a digit on each side of the point. -/
def positional (d : Shortest.Digits) : List Char :=
  if d.point ≤ 0 then '0' :: '.' :: (List.replicate (-d.point).toNat '0' ++ d.digits)
  else
    let whole := d.digits.take d.point.toNat
    let fraction := d.digits.drop d.point.toNat
    whole ++ List.replicate (d.point.toNat - d.digits.length) '0' ++
      '.' :: (if fraction.isEmpty then ['0'] else fraction)

/-- Scientific decimals have one digit before the point, and no point behind a lone digit. -/
def scientific (layout : Layout) (d : Shortest.Digits) : List Char :=
  let exponent := d.point - 1
  let sign := if exponent < 0 then ['-'] else layout.plus
  let lead := match d.digits with
    | [] => ['0']
    | [c] => [c]
    | c :: more => c :: '.' :: more
  lead ++ 'e' :: sign ++ Nat.toDigits 10 exponent.natAbs

def text (layout : Layout) (x : Binary64) : List Char :=
  let d := Shortest.digits x.mantissa x.exponent
  let body :=
    if layout.leastPoint < d.point && d.point ≤ layout.greatestPoint then positional d
    else layout.scientific d
  if x.negative then '-' :: body else body

end Layout

/-- A whole number in decimal. -/
def Number.wholeText (n : Int) : List Char :=
  if n < 0 then '-' :: Nat.toDigits 10 n.natAbs else Nat.toDigits 10 n.natAbs

def Number.text (layout : Layout) : Number → List Char
  | .whole n => wholeText n
  | .binary x => layout.text x

end DocPath
