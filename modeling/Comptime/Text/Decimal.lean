/-! Shortest decimal text of floating-point numbers.

A finite double `m * 2 ^ q` stands for every real that rounds to it. Its text is the decimal with
the fewest digits in that interval, and among those the nearest, a tie going up. -/
namespace Comptime.Text

/-- The number `digits * 10 ^ exponent`. -/
structure Decimal where
  digits : Nat
  exponent : Int

/-- The positive double `mantissa * 2 ^ exponent`. A `narrow` one has a neighbour below at half the
distance of the one above. -/
structure Binary where
  mantissa : Nat
  exponent : Int
  narrow : Bool

namespace Binary

/-- A positive number and the ends of its rounding interval, as fractions over `den`. -/
structure Interval where
  low : Nat
  value : Nat
  high : Nat
  den : Nat
  closed : Bool

/-- The reals that round to `b`. The ends belong to it when the mantissa is even. -/
def interval (b : Binary) : Interval :=
  let up := Nat.pow 2 (b.exponent - 2).toNat
  let low := if b.narrow then 4 * b.mantissa - 1 else 4 * b.mantissa - 2
  { low := low * up
    value := 4 * b.mantissa * up
    high := (4 * b.mantissa + 2) * up
    den := Nat.pow 2 (2 - b.exponent).toNat
    closed := b.mantissa % 2 == 0 }

/-- Whether `n` steps of `step` lie in the interval scaled by `scale`. -/
def Interval.holds (i : Interval) (scale n step : Nat) : Bool :=
  if i.closed then i.low * scale ≤ n * step && n * step ≤ i.high * scale
  else i.low * scale < n * step && n * step < i.high * scale

/-- The point of the grid of multiples of `10 ^ p` that lies in the interval, if there is one; of
two such points the nearer, and the upper one of a tie. -/
def Interval.onGrid? (i : Interval) (p : Int) : Option Nat :=
  let scale := Nat.pow 10 (-p).toNat
  let step := i.den * Nat.pow 10 p.toNat
  let n := i.value * scale / step
  match i.holds scale n step, i.holds scale (n + 1) step with
  | true, true =>
    if 2 * (i.value * scale) < (2 * n + 1) * step then some n else some (n + 1)
  | true, false => some n
  | false, true => some (n + 1)
  | false, false => none

/-- The coarsest of the grids `10 ^ p`, `10 ^ (p - 1)`, … with a point in the interval. -/
def Interval.search (i : Interval) : Nat → Int → Decimal
  | 0, p => ⟨i.value * Nat.pow 10 (-p).toNat / (i.den * Nat.pow 10 p.toNat), p⟩
  | k + 1, p =>
    match i.onGrid? p with
    | some n => ⟨n, p⟩
    | none => i.search k (p - 1)

def digitCount (n : Nat) : Nat := (Nat.toDigits 10 n).length

/-- An exponent `p` with `10 ^ p` at least the value. -/
def Interval.magnitude (i : Interval) : Int :=
  if i.den ≤ i.value then digitCount (i.value / i.den) else 1 - digitCount (i.den / i.value)

/-- Seventeen digits tell any two doubles apart, so the search is over after eighteen grids. -/
def shortest (b : Binary) : Decimal :=
  b.interval.search 18 b.interval.magnitude

end Binary

/-- Digits with a point where it belongs, and never an exponent. -/
def Decimal.positional (d : Decimal) : String :=
  let ds := Nat.toDigits 10 d.digits
  if 0 ≤ d.exponent then
    String.ofList (ds ++ List.replicate d.exponent.toNat '0')
  else
    let places := (-d.exponent).toNat
    if places < ds.length then
      String.ofList (ds.take (ds.length - places) ++ '.' :: ds.drop (ds.length - places))
    else
      String.ofList ('0' :: '.' :: List.replicate (places - ds.length) '0' ++ ds)

/-- Text of a double. The sign of zero is kept; the word for infinity is the caller's. -/
def number (infinity : String) (x : Float) : String :=
  let bits : Nat := x.toBits.toNat
  let fraction := bits % 0x10000000000000
  let exponent := bits / 0x10000000000000 % 0x800
  let sign := if bits < 0x8000000000000000 then "" else "-"
  if exponent == 0x7ff then
    if fraction == 0 then sign ++ infinity else "NaN"
  else if exponent == 0 then
    if fraction == 0 then sign ++ "0"
    else sign ++ (Binary.shortest ⟨fraction, -1074, false⟩).positional
  else
    let narrow := fraction == 0 && exponent != 1
    let b : Binary := ⟨0x10000000000000 + fraction, Int.ofNat exponent - 1075, narrow⟩
    sign ++ b.shortest.positional

end Comptime.Text
