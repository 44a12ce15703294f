/-!
# Decimal texts of floating-point numbers

A binary floating-point number stands for all reals that round to it. Among the decimals with the
fewest digits in that interval the nearest is taken, and of two equally near ones the larger.
-/
namespace OptionSchema.Decimal

structure Scaled where
  coefficient : Nat
  exponent : Int
deriving DecidableEq, Repr

/-- The number `mantissa * 2 ^ exponent`; `narrow` when its lower neighbour is half as far away as
its upper one. -/
structure Binary where
  mantissa : Nat
  exponent : Int
  narrow : Bool
deriving DecidableEq, Repr

structure Interval where
  low : Nat
  value : Nat
  high : Nat
  denominator : Nat
  closed : Bool
deriving DecidableEq, Repr

namespace Binary

def ofBits (bits : UInt64) : Binary :=
  let fraction : Nat := bits.toNat % Nat.pow 2 52
  let exponent : Nat := bits.toNat / Nat.pow 2 52 % Nat.pow 2 11
  if exponent = 0 then ⟨fraction, -1074, false⟩
  else
    ⟨Nat.pow 2 52 + fraction, (exponent : Int) - 1075,
      decide (fraction = 0) && decide (1 < exponent)⟩

/-- The reals that round to the number. A half-way real rounds to an even mantissa, so the ends
belong to the interval just when the mantissa is even. -/
def interval (b : Binary) : Interval :=
  let gap := if b.narrow then 1 else 2
  let scale := Nat.pow 2 (b.exponent - 2).toNat
  ⟨(4 * b.mantissa - gap) * scale, 4 * b.mantissa * scale, (4 * b.mantissa + 2) * scale,
    Nat.pow 2 (2 - b.exponent).toNat, b.mantissa % 2 == 0⟩

end Binary

namespace Interval

def holds (i : Interval) (numerator denominator : Nat) : Bool :=
  let low := i.low * denominator
  let high := i.high * denominator
  let here := numerator * i.denominator
  if i.closed then decide (low ≤ here) && decide (here ≤ high)
  else decide (low < here) && decide (here < high)

/-- The `e` with `10 ^ (e - 1) ≤ value < 10 ^ e`, for a positive value. -/
def magnitude (i : Interval) : Int :=
  if i.denominator ≤ i.value then (Nat.toDigits 10 (i.value / i.denominator)).length
  else 1 - ((Nat.toDigits 10 ((i.denominator - 1) / i.value)).length : Int)

def nearest? (i : Interval) (count : Nat) : Option Scaled :=
  let exponent := i.magnitude - count
  let up := Nat.pow 10 exponent.toNat
  let down := Nat.pow 10 (-exponent).toNat
  let numerator := i.value * down
  let denominator := i.denominator * up
  let below := numerator / denominator
  let rest := numerator % denominator
  let above := below + 1
  let hasBelow := i.holds (below * up) down
  let hasAbove := i.holds (above * up) down
  if hasBelow && (!hasAbove || decide (2 * rest < denominator)) then some ⟨below, exponent⟩
  else if hasAbove then some ⟨above, exponent⟩
  else none

end Interval

/-- Seventeen digits always suffice for a double. -/
def maxDigits : Nat := 17

def shortest (b : Binary) : Scaled :=
  ((List.range maxDigits).findSome? fun n => b.interval.nearest? (n + 1)).getD ⟨0, 0⟩

/-! ## Layout -/

/-- How numbers are laid out. The scientific exponents from `least` to `most` are written
positionally. -/
structure Layout where
  least : Int
  most : Int
  infinity : String
  nan : String
deriving DecidableEq, Repr

def Layout.plain : Layout := ⟨-4, 15, "inf", "NaN"⟩

def significant (digits : List Char) : List Char :=
  match (digits.reverse.dropWhile (· == '0')).reverse with
  | [] => ['0']
  | trimmed => trimmed

def positional (digits : List Char) (point : Int) : String :=
  if point ≤ 0 then
    String.ofList (['0', '.'] ++ List.replicate (-point).toNat '0' ++ digits)
  else
    let whole := digits.take point.toNat ++ List.replicate (point.toNat - digits.length) '0'
    let part := digits.drop point.toNat
    String.ofList (whole ++ '.' :: (if part.isEmpty then ['0'] else part))

def scientific (digits : List Char) (exponent : Int) : String :=
  let part := digits.drop 1
  let point := if part.isEmpty then [] else '.' :: part
  String.ofList (digits.take 1 ++ point) ++ "e" ++ toString exponent

def Layout.decimal (layout : Layout) (d : Scaled) : String :=
  let all := Nat.toDigits 10 d.coefficient
  let exponent := d.exponent + all.length - 1
  let digits := significant all
  if layout.least ≤ exponent ∧ exponent ≤ layout.most then positional digits (exponent + 1)
  else scientific digits exponent

def Layout.double (layout : Layout) (bits : UInt64) : String :=
  let sign := if bits.toNat < Nat.pow 2 63 then "" else "-"
  let magnitude := bits.toNat % Nat.pow 2 63
  if 2047 * Nat.pow 2 52 < magnitude then layout.nan
  else if magnitude = 2047 * Nat.pow 2 52 then sign ++ layout.infinity
  else if magnitude = 0 then sign ++ "0.0"
  else sign ++ layout.decimal (shortest (.ofBits bits))

end OptionSchema.Decimal
