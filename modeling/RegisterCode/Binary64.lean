/-! Double-precision numbers by their bits, and their decimal text. A number with
a fraction is written with the fewest decimals that read back as the same number;
an integral one is written in full. No text has an exponent. -/
namespace RegisterCode

/-- A double. Two doubles are equal when their bits are, so zeros of either sign
and the many NaNs are all told apart. -/
structure Binary64 where
  bits : UInt64
deriving DecidableEq, Hashable

namespace Binary64

def isNegative (x : Binary64) : Bool :=
  x.bits.toNat / Nat.pow 2 63 == 1

def exponentBits (x : Binary64) : Nat :=
  x.bits.toNat / Nat.pow 2 52 % Nat.pow 2 11

def fractionBits (x : Binary64) : Nat :=
  x.bits.toNat % Nat.pow 2 52

def isFinite (x : Binary64) : Bool :=
  x.exponentBits != 2047

/-- A finite double is `significand * 2 ^ power / 2 ^ 1074`. The exponents 0 and 1
share a power; from 1 on the significand has its hidden bit. -/
def significand (x : Binary64) : Nat :=
  if x.exponentBits = 0 then x.fractionBits else Nat.pow 2 52 + x.fractionBits

def power (x : Binary64) : Nat :=
  x.exponentBits - 1

/-- The magnitude of a finite double in units of `2 ^ -1074`, the least step. -/
def magnitude (x : Binary64) : Nat :=
  x.significand * Nat.pow 2 x.power

def unit : Nat := Nat.pow 2 1074

def isIntegral (x : Binary64) : Bool :=
  x.magnitude % unit == 0

/-- Twice the magnitudes between which a real number reads as `x`. The gap below a
power of two is half the gap above it, unless the power is the least one. -/
def lowerEnd (x : Binary64) : Nat :=
  if x.fractionBits = 0 ∧ 1 < x.exponentBits then 2 * x.magnitude - Nat.pow 2 (x.power - 1)
  else 2 * x.magnitude - Nat.pow 2 x.power

def upperEnd (x : Binary64) : Nat :=
  2 * x.magnitude + Nat.pow 2 x.power

/-- Whether `digits / 10 ^ places` reads as `x`: it lies between the ends, which
themselves go to the even significand. -/
def readsBack (x : Binary64) (places digits : Nat) : Bool :=
  let twice := 2 * digits * unit
  let scale := Nat.pow 10 places
  if x.significand % 2 = 0 then x.lowerEnd * scale ≤ twice && twice ≤ x.upperEnd * scale
  else x.lowerEnd * scale < twice && twice < x.upperEnd * scale

/-- The decimal with this many places that reads back, the nearer of two and the
larger of two equally near. -/
def decimalAt (x : Binary64) (places : Nat) : Option Nat :=
  let scaled := x.magnitude * Nat.pow 10 places
  let below := scaled / unit
  match x.readsBack places below, x.readsBack places (below + 1) with
  | true, true => some (if 2 * (scaled % unit) < unit then below else below + 1)
  | true, false => some below
  | false, true => some (below + 1)
  | false, false => none

/-- Search from `places` on; a finite double is exact after 1074 places. -/
def shortestFrom (x : Binary64) : (fuel places : Nat) → Nat × Nat
  | 0, places => (places, x.magnitude * Nat.pow 10 places / unit)
  | fuel + 1, places =>
    match x.decimalAt places with
    | some digits => (places, digits)
    | none => x.shortestFrom fuel (places + 1)

def shortest (x : Binary64) : Nat × Nat :=
  x.shortestFrom 1074 1

def fractionText (places digits : Nat) : String :=
  let text := toString digits
  .ofList (.replicate (places - text.length) '0') ++ text

def text (x : Binary64) : String :=
  let sign := if x.isNegative then "-" else ""
  if !x.isFinite then
    if x.fractionBits = 0 then sign ++ "inf" else "NaN"
  else if x.isIntegral then sign ++ toString (x.magnitude / unit) ++ ".0"
  else
    let (places, digits) := x.shortest
    let scale := Nat.pow 10 places
    sign ++ toString (digits / scale) ++ "." ++ fractionText places (digits % scale)

end Binary64

end RegisterCode
