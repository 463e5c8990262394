import Lox.Decimal.Shortest

/-!
# Laying out numbers

A number is written with the fewest digits that identify it: positionally while the exponent of
its leading digit is at least `-4` and below `16`, otherwise with one digit before the point and
a signed exponent of at least two digits. Programs print a whole number without a fraction;
a literal keeps one.

## Main definitions

* `Layout`: the decisions that two forms of numbers may differ in
* `Layout.shown`, `Layout.literal`: the form that programs print, and that of literals
* `Layout.write`: a number written in a form
-/

namespace Lox.Decimal

/-- How numbers are laid out. -/
structure Layout where
  /-- The least exponent of the leading digit that is written positionally. -/
  positionalFrom : Int := -4
  /-- The least exponent of the leading digit above those written positionally. -/
  positionalBelow : Int := 16
  /-- What follows a whole number that is written positionally. -/
  wholeSuffix : String
  /-- The text of infinity. -/
  infinity : String := "inf"
  /-- The text of what is no number. -/
  notANumber : String := "nan"

namespace Layout

/-- Numbers as programs print them: a whole number has no fraction. -/
def shown : Layout where wholeSuffix := ""

/-- Numbers as literals are listed: a whole number has the fraction zero. -/
def literal : Layout where wholeSuffix := ".0"

/-- The digits of a number in base ten. -/
def digits (n : Nat) : String := String.ofList (Nat.toDigits 10 n)

/-- An exponent: its sign and at least two digits. -/
def exponentText (e : Int) : String :=
  let text := digits e.natAbs
  (if e < 0 then "-" else "+") ++ (if text.length < 2 then "0" ++ text else text)

/-- Digits with the point after the first `n` of them. -/
def pointed (ds : List Char) (n : Nat) : String :=
  String.ofList (ds.take n) ++ "." ++ String.ofList (ds.drop n)

/-- A positive numeral: zeros fill up to the point. -/
def numeral (l : Layout) (d : Numeral) : String :=
  let ds := Nat.toDigits 10 d.digits
  let leading := d.exponent + ds.length - 1
  if l.positionalFrom ≤ leading ∧ leading < l.positionalBelow then
    if 0 ≤ d.exponent then
      String.ofList (ds ++ List.replicate d.exponent.toNat '0') ++ l.wholeSuffix
    else if 0 ≤ leading then pointed ds (leading.toNat + 1)
    else "0." ++ String.ofList (List.replicate (-leading - 1).toNat '0' ++ ds)
  else
    (if ds.length = 1 then String.ofList ds else pointed ds 1) ++ "e" ++ exponentText leading

/-- The text of a magnitude. -/
def magnitude (l : Layout) : Magnitude → String
  | .zero => "0" ++ l.wholeSuffix
  | .finite s => l.numeral (s.shortest.stripZeros 20)
  | .infinite => l.infinity
  | .notANumber => l.notANumber

/-- The text of a double's bits: what is no number has no sign. -/
def writeBits (l : Layout) (bits : Nat) : String :=
  match Magnitude.ofBits bits with
  | .notANumber => l.notANumber
  | m => (if isNegative bits then "-" else "") ++ l.magnitude m

/-- The text of a number. -/
def write (l : Layout) (v : Float) : String := l.writeBits v.toBits.toNat

end Layout

end Lox.Decimal
