import ComponentCompiler.Script.Token

/-!
# Numbers in scripts

A number in a script stands for the double that is nearest to it, and is printed in as few
characters as possible: from the shortest digits that read back as the same double, in positional,
scientific or hexadecimal notation.

## Main definitions

* `Double`, `Double.nearest?` — the double nearest to a ratio.
* `Double.shortest` — the shortest decimal that reads back as a double.
* `Decimal.text` — a number as it is printed.
-/

namespace ComponentCompiler.Script

/-- A double that is not negative: `mantissa * 2 ^ exponent`. -/
structure Double where
  /-- The significant bits, at most 53 of them. -/
  mantissa : Nat
  /-- The power of two by which they are scaled. -/
  exponent : Int
  deriving DecidableEq, Repr

/-- A power whose exponent counts only where it is positive. -/
def power (base : Nat) (e : Int) : Nat := base.pow e.toNat

/-! ### The nearest double -/

/-- A quotient rounded to nearest, and to even in the middle. -/
def roundDiv (n d : Nat) : Nat :=
  if 2 * (n % d) < d || (2 * (n % d) == d && n / d % 2 == 0) then n / d else n / d + 1

/-- The exponent of the double nearest to a ratio: 53 bits are significant, unless the number is
very small. -/
def bitExponent (n d : Nat) : Int :=
  let e : Int := (n.log2 : Int) - d.log2 - 53
  let q := n * power 2 (-e) / (d * power 2 e)
  max (if power 2 53 ≤ q then e + 1 else e) (-1074)

/-- The double nearest to the ratio `n / d`; `none` if it is infinite. -/
def Double.nearest? (n d : Nat) : Option Double :=
  if n == 0 then some ⟨0, 0⟩
  else
    let e := bitExponent n d
    let m := roundDiv (n * power 2 (-e)) (d * power 2 e)
    let (m, e) := if m == power 2 53 then (power 2 52, e + 1) else (m, e)
    if 971 < e then none else some ⟨m, e⟩

/-- The number of decimal digits of a number. -/
def digitCount (n : Nat) : Nat := (Nat.toDigits 10 n).length

/-- The double nearest to a decimal; `none` if it is infinite.  Numbers far out of range are told
from their size alone. -/
def Decimal.toDouble? (x : Decimal) : Option Double :=
  let size : Int := digitCount x.coefficient + x.exponent
  if x.coefficient == 0 || size < -400 then some ⟨0, 0⟩
  else if 400 < size then none
  else Double.nearest? (x.coefficient * power 10 x.exponent) (power 10 (-x.exponent))

/-! ### The shortest decimal -/

/-- The numbers that round to a double: from `low` to `high` quarters of its last bit, where the
double itself is `mid` of them. -/
structure Interval where
  /-- The lower end. -/
  low : Nat
  /-- The double. -/
  mid : Nat
  /-- The upper end. -/
  high : Nat
  /-- Whether the ends round to the double. -/
  ends : Bool

/-- The numbers that round to a double.  Below a power of two they are half as dense. -/
def Double.interval (x : Double) : Interval :=
  let below := if x.mantissa == power 2 52 && -1074 < x.exponent then 1 else 2
  { low := 4 * x.mantissa - below, mid := 4 * x.mantissa, high := 4 * x.mantissa + 2,
    ends := x.mantissa % 2 == 0 }

/-- The number of digits in front of the point of a ratio; it is not positive if the ratio is below
one. -/
def decimalSize (n d : Nat) : Int :=
  let guess : Int := (digitCount n : Int) - digitCount d
  if n * power 10 (-guess) < d * power 10 guess then guess else guess + 1

/-- The decimal with a given number of digits that reads back as a double, if there is one; of two,
the nearer one, and the even one in the middle. -/
def Double.withDigits? (x : Double) (digits : Nat) : Option Decimal :=
  let i := x.interval
  -- One unit of a candidate is `a`, and one quarter of the last bit is `b`.
  let size := decimalSize (i.mid * power 2 (x.exponent - 2)) (power 2 (2 - x.exponent))
  let step := size - digits
  let a := power 10 step * power 2 (2 - x.exponent)
  let b := power 10 (-step) * power 2 (x.exponent - 2)
  let fits (c : Nat) : Bool :=
    (i.low * b < c * a && c * a < i.high * b) ||
      (i.ends && (c * a == i.low * b || c * a == i.high * b))
  let c := i.mid * b / a
  let upper := (2 * c + 1) * a < 2 * i.mid * b || ((2 * c + 1) * a == 2 * i.mid * b && c % 2 == 1)
  -- Above nothing but nines there is a single digit.
  let next : Decimal := if c + 1 == power 10 digits then ⟨1, step + digits⟩ else ⟨c + 1, step⟩
  match fits c, fits (c + 1) with
  | true, true => some (if upper then next else ⟨c, step⟩)
  | true, false => some ⟨c, step⟩
  | false, true => some next
  | false, false => none

/-- The shortest decimal that reads back as a double other than zero; 17 digits always suffice. -/
def Double.shortest (x : Double) : Decimal :=
  ((List.range 17).findSome? fun i => x.withDigits? (i + 1)).getD ⟨0, 0⟩

/-! ### Notation -/

/-- A decimal in positional notation, or in scientific notation if it is very large or small. -/
def Decimal.plainText (x : Decimal) : List Char :=
  let ds := Nat.toDigits 10 x.coefficient
  let n : Int := ds.length + x.exponent
  if 0 ≤ x.exponent && n ≤ 21 then ds ++ List.replicate x.exponent.toNat '0'
  else if 0 < n && n ≤ 21 then ds.take n.toNat ++ '.' :: ds.drop n.toNat
  else if -6 < n && n ≤ 0 then '0' :: '.' :: List.replicate (-n).toNat '0' ++ ds
  else
    let sign := if 0 < n then [] else ['-']
    let fraction := if ds.length == 1 then [] else '.' :: ds.tail
    ds.take 1 ++ fraction ++ 'e' :: sign ++ Nat.toDigits 10 (n - 1).natAbs

/-- The shorter one of two texts; the first one if they are equally long. -/
def shorter (s t : List Char) : List Char := if t.length < s.length then t else s

/-- A text that ends with zeros, with an exponent in their place. -/
def foldZeros (s : List Char) : List Char :=
  let zeros := (s.reverse.takeWhile (· == '0')).length
  if zeros == 0 then s
  else shorter s (s.take (s.length - zeros) ++ 'e' :: Nat.toDigits 10 zeros)

/-- A text that starts with a point and zeros, with an exponent in their place. -/
def foldLeadingZeros (s : List Char) : List Char :=
  match s with
  | '.' :: '0' :: rest =>
      let digits := rest.dropWhile (· == '0')
      if digits.isEmpty then s
      else shorter s (digits ++ 'e' :: '-' :: Nat.toDigits 10 (s.length - 1))
  | _ => s

/-- The value of decimal digits behind a sign. -/
def intOf (cs : List Char) : Int :=
  let value (ds : List Char) : Nat := ds.foldl (fun n d => 10 * n + (d.toNat - '0'.toNat)) 0
  match cs with
  | '-' :: ds => -(value ds : Int)
  | ds => value ds

/-- An integer with its sign if it is negative. -/
def intText (n : Int) : List Char :=
  (if n < 0 then ['-'] else []) ++ Nat.toDigits 10 n.natAbs

/-- A text with a point and an exponent, without the point. -/
def dropPoint (s : List Char) : List Char :=
  let whole := s.takeWhile (· != '.')
  let behind := s.drop (whole.length + 1)
  let fraction := behind.takeWhile (· != 'e')
  let exponent := behind.drop (fraction.length + 1)
  if whole.length == s.length || fraction.length == behind.length then s
  else shorter s (whole ++ fraction ++ 'e' :: intText (intOf exponent - fraction.length))

/-- A double in as few characters as possible. -/
def Double.text (x : Double) : List Char :=
  if x.mantissa == 0 then ['0']
  else
    let decimal := x.shortest
    let plain := decimal.plainText
    let isInteger := 0 ≤ decimal.exponent
    if isInteger && plain.length ≤ 3 then plain
    else
      let best := if plain.take 2 == ['0', '.'] then plain.drop 1 else plain
      let hex := '0' :: 'x' ::
        Nat.toDigits 16 (x.mantissa * power 2 x.exponent / power 2 (-x.exponent))
      if isInteger && hex.length < best.length then hex
      else dropPoint (foldZeros (if isInteger then best else foldLeadingZeros best))

/-- A number as it is printed. -/
def Decimal.text (x : Decimal) : List Char :=
  match x.toDouble? with
  | some d => d.text
  | none => "Infinity".toList

end ComponentCompiler.Script
