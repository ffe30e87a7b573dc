/-!
# Numbers in JSON texts

A number is kept as its digits.  Readers that ask for its value get the nearest double, found from
the digits that fit in 64 bits and a power of ten; a number is out of range if that is infinite.

## Main definitions

* `Number`, `Number.ofChars?` — a number and its grammar.
* `Number.index?` — a number as a place in a list.
* `Number.inRange` — whether a number has a finite value.
-/

namespace ComponentCompiler

/-- A number in a JSON text. -/
structure Number where
  /-- Whether a minus stands in front. -/
  negative : Bool
  /-- The digits in front of the point. -/
  whole : List Char
  /-- The digits behind the point. -/
  fraction : List Char
  /-- The exponent, if one is written. -/
  exponent : Option Int
  deriving DecidableEq, Repr

namespace Number

/-- The value of decimal digits. -/
def natOf (ds : List Char) : Nat := ds.foldl (fun n d => 10 * n + (d.toNat - '0'.toNat)) 0

/-- An exponent behind its mark: a sign, which may be missing, and digits. -/
def exponentOf? (cs : List Char) : Option Int :=
  let digits (ds : List Char) : Option Nat :=
    if ds.isEmpty || !ds.all Char.isDigit then none else some (natOf ds)
  match cs with
  | '-' :: ds => (digits ds).map fun n => -(n : Int)
  | '+' :: ds => (digits ds).map Int.ofNat
  | ds => (digits ds).map Int.ofNat

/-- A number from its text.  The digits in front of the point start with a zero only if that is
the only one, and a point has digits behind it. -/
def ofChars? (cs : List Char) : Option Number :=
  let negative := cs.head? == some '-'
  let cs := if negative then cs.tail else cs
  let whole := cs.takeWhile Char.isDigit
  let cs := cs.dropWhile Char.isDigit
  let pointed := cs.head? == some '.'
  let fraction := if pointed then cs.tail.takeWhile Char.isDigit else []
  let cs := if pointed then cs.tail.dropWhile Char.isDigit else cs
  if whole.isEmpty || (whole.head? == some '0' && 1 < whole.length) then none
  else if pointed && fraction.isEmpty then none
  else
    match cs with
    | [] => some { negative, whole, fraction, exponent := none }
    | c :: cs =>
        if c == 'e' || c == 'E' then
          (exponentOf? cs).map fun e => { negative, whole, fraction, exponent := some e }
        else none

/-- The text of a number. -/
def toChars (n : Number) : List Char :=
  (if n.negative then ['-'] else []) ++ n.whole ++
    (if n.fraction.isEmpty then [] else '.' :: n.fraction) ++
    (match n.exponent with
      | none => []
      | some e => 'e' :: (toString e).toList)

/-- A number as a place in a list: it has no sign, point or exponent. -/
def index? (n : Number) : Option Nat :=
  if !n.negative && n.fraction.isEmpty && n.exponent.isNone then some (natOf n.whole) else none

/-- Take up digits as long as the number fits in 64 bits; gives the number and how many digits are
left. -/
def takeDigits (n : Nat) : List Char → Nat × Nat
  | [] => (n, 0)
  | d :: ds =>
      let n' := natOf [d] + 10 * n
      if n' < Nat.pow 2 64 then takeDigits n' ds else (n, ds.length + 1)

/-- A natural number with 53 significant bits, to nearest, and to even in the middle. -/
def round53 (n : Nat) : Nat :=
  let unit := Nat.pow 2 (n.log2 + 1 - 53)
  let q := n / unit
  let r := n % unit
  if 2 * r < unit || (2 * r == unit && q % 2 == 0) then q * unit else (q + 1) * unit

/-- Whether the value of a number is finite as a double. -/
def inRange (n : Number) : Bool :=
  let (s, left) := takeDigits 0 n.whole
  let (s, unused) := takeDigits s n.fraction
  let e : Int := left - (n.fraction.length - unused : Nat) + n.exponent.getD 0
  s == 0 || e < 0 ||
    (e ≤ 308 && round53 s * round53 (Nat.pow 10 e.toNat) < (Nat.pow 2 54 - 1) * Nat.pow 2 970)

end Number

end ComponentCompiler
