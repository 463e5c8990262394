/-!
# Shortest decimals

A finite double is `m · 2^q`. The reals that round to it form an interval around it, whose ends
belong to it when `m` is even. Of the decimals in the interval the shortest is the one with the
fewest digits, and of those the one nearest to the double. The search tries one digit, two
digits, and so on; on each grid only the two neighbours of the double can be nearest. All
comparisons are exact.

## Main definitions

* `Span`: a double with its interval
* `Span.reads s d k`: `d · 10^k` lies in the interval
* `Span.onGrid? s k`: the nearest multiple of `10^k` that reads back
* `Numeral`: a decimal in digits and an exponent
* `Span.shortest s`: the shortest decimal that reads back
* `Magnitude.ofBits`: a double's bits as zero, a span, infinity or no number
-/

namespace Lox.Decimal

/-- A positive double with the interval of the reals that round to it: numerators over one
denominator. -/
structure Span where
  /-- The double. -/
  value : Nat
  /-- The lower end of the interval. -/
  low : Nat
  /-- The upper end of the interval. -/
  high : Nat
  /-- The denominator of all three. -/
  unit : Nat
  /-- Whether the ends belong to the interval. -/
  closed : Bool

/-- The numeral `digits · 10^exponent`. -/
structure Numeral where
  /-- The digits as one number. -/
  digits : Nat
  /-- The exponent of the last digit. -/
  exponent : Int

namespace Span

/-- The span of `m · 2^q`; below a power of two the gap to the next double is half as wide. -/
def ofBinary (m : Nat) (q : Int) (narrowBelow : Bool) : Span :=
  let scale := Nat.pow 2 (q - 2).toNat
  { value := 4 * m * scale
    low := (4 * m - if narrowBelow then 1 else 2) * scale
    high := (4 * m + 2) * scale
    unit := Nat.pow 2 (2 - q).toNat
    closed := m % 2 = 0 }

/-- The numerator of `d · 10^k` over the unit, times `10^(-k)` if `k` is negative. -/
def raise (s : Span) (d : Nat) (k : Int) : Nat := d * s.unit * Nat.pow 10 k.toNat

/-- A numerator times `10^(-k)` if `k` is negative. -/
def lower (n : Nat) (k : Int) : Nat := n * Nat.pow 10 (-k).toNat

/-- Whether `d · 10^k` lies in the interval. -/
def reads (s : Span) (d : Nat) (k : Int) : Bool :=
  if s.closed then lower s.low k ≤ s.raise d k && s.raise d k ≤ lower s.high k
  else lower s.low k < s.raise d k && s.raise d k < lower s.high k

/-- The multiple of `10^k` next below the double. -/
def below (s : Span) (k : Int) : Nat := lower s.value k / s.raise 1 k

/-- Whether the multiple next above the double is nearer than the one next below; of two
equally near the even one counts as nearer. -/
def nearerAbove (s : Span) (k : Int) : Bool :=
  let d := s.below k
  let twice := 2 * lower s.value k
  let middle := s.raise (2 * d + 1) k
  middle < twice || (middle == twice && d % 2 == 1)

/-- The nearest multiple of `10^k` that reads back. -/
def onGrid? (s : Span) (k : Int) : Option Nat :=
  let d := s.below k
  -- any other multiple that reads back is farther away than one of these two
  match s.reads d k, s.reads (d + 1) k with
  | true, true => some (if s.nearerAbove k then d + 1 else d)
  | true, false => some d
  | false, true => some (d + 1)
  | false, false => none

/-- The least `j` up to a bound with `unit ≤ value · 10^j`, counted from `j`. -/
def raiseCount (s : Span) : Nat → Nat → Nat
  | 0, j => j
  | bound + 1, j => if s.unit ≤ s.value * Nat.pow 10 j then j else raiseCount s bound (j + 1)

/-- The exponent of the leading digit. -/
def leadingExponent (s : Span) : Int :=
  if s.unit ≤ s.value then ((Nat.toDigits 10 (s.value / s.unit)).length : Int) - 1
  else -(raiseCount s 400 1 : Int)

/-- The first grid with a hit, from the given number of digits on; after the bound the next
grid's lower neighbour stands in. -/
def search (s : Span) (leading : Int) : Nat → Nat → Numeral
  | 0, n => ⟨s.below (leading + 1 - n), leading + 1 - n⟩
  | bound + 1, n =>
    match s.onGrid? (leading + 1 - n) with
    | some d => ⟨d, leading + 1 - n⟩
    | none => search s leading bound (n + 1)

/-- The shortest decimal that reads back: seventeen digits always suffice. -/
def shortest (s : Span) : Numeral := search s s.leadingExponent 17 1

end Span

namespace Numeral

/-- The digits and the exponent without zeros at the end, given enough rounds. -/
def stripZeros : Nat → Numeral → Numeral
  | 0, d => d
  | rounds + 1, d =>
    if d.digits % 10 = 0 ∧ d.digits ≠ 0 then stripZeros rounds ⟨d.digits / 10, d.exponent + 1⟩
    else d

end Numeral

/-- What the bits of a double say beside its sign. -/
inductive Magnitude where
  /-- Zero. -/
  | zero
  /-- A positive number. -/
  | finite (span : Span)
  /-- Infinity. -/
  | infinite
  /-- No number. -/
  | notANumber

namespace Magnitude

/-- The magnitude of a double's bits: eleven bits of exponent above fifty-two of fraction. -/
def ofBits (bits : Nat) : Magnitude :=
  let exponent : Nat := bits / Nat.pow 2 52 % Nat.pow 2 11
  let fraction : Nat := bits % Nat.pow 2 52
  if exponent = 2047 then (if fraction = 0 then infinite else notANumber)
  else if exponent = 0 then
    (if fraction = 0 then zero else finite (Span.ofBinary fraction (-1074) false))
  else finite (Span.ofBinary (Nat.pow 2 52 + fraction) ((exponent : Int) - 1075)
    (fraction = 0 && exponent > 1))

end Magnitude

/-- Whether the sign bit of a double's bits is set. -/
def isNegative (bits : Nat) : Bool := bits / Nat.pow 2 63 % 2 = 1

end Lox.Decimal
