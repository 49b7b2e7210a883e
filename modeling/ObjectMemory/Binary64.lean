import ObjectMemory.Decimal.Layout
set_option autoImplicit false

/-!
# Double-precision numbers

A `Binary64` is the 64 bits of an IEEE 754 double: one bit of sign, eleven of exponent and 52 of
fraction.  Equality of numbers differs from equality of bits: a NaN is unequal to everything, and the
two zeros are equal.
-/

namespace ObjectMemory

/-- A double-precision number, by its bits. -/
structure Binary64 where
  bits : UInt64
  deriving DecidableEq, Repr, Inhabited

namespace Binary64

/-- The exponent field. -/
def exponentField (x : Binary64) : Nat := ((x.bits >>> 52) &&& 0x7FF).toNat

/-- The fraction field. -/
def fraction (x : Binary64) : Nat := (x.bits &&& 0xFFFFFFFFFFFFF).toNat

/-- The sign bit is set. -/
def isNegative (x : Binary64) : Bool := x.bits >>> 63 == 1

/-- Not a number. -/
def isNaN (x : Binary64) : Bool := x.exponentField == 0x7FF && x.fraction != 0

/-- One of the infinities. -/
def isInfinite (x : Binary64) : Bool := x.exponentField == 0x7FF && x.fraction == 0

/-- One of the two zeros. -/
def isZero (x : Binary64) : Bool := x.exponentField == 0 && x.fraction == 0

/-- Equality of numbers: no NaN is equal to anything, and the zeros are equal. -/
def numEq (x y : Binary64) : Bool :=
  !x.isNaN && !y.isNaN && (x.bits == y.bits || (x.isZero && y.isZero))

/-- The magnitude of a finite number, as `m * 2 ^ q`. -/
def magnitude (x : Binary64) : Decimal.Binary :=
  if x.exponentField == 0 then ⟨x.fraction, -1074, false⟩
  else ⟨0x10000000000000 + x.fraction, (x.exponentField : Int) - 1075,
    x.fraction == 0 && x.exponentField > 1⟩

/-- The magnitude of a finite number, if it is a whole number. -/
def whole? (x : Binary64) : Option Nat :=
  let v := x.magnitude
  if v.q ≥ 0 then some (v.m <<< v.q.toNat)
  else
    let unit := 1 <<< (-v.q).toNat
    if v.m % unit = 0 then some (v.m / unit) else none

/-- The fewest digits that read back to the magnitude of a finite number. -/
def shortest (x : Binary64) : Decimal.Scaled :=
  if x.isZero then ⟨0, 0⟩ else x.magnitude.shortest

/-- Whole numbers of magnitude below this bound are shown without sign of zero. -/
def wholeBound : Nat := 1000000000000000

/-- The text shown to a user.  No exponent is ever written; the zeros look alike. -/
def text (x : Binary64) : String :=
  if x.isNaN then "NaN"
  else
    let sign := if x.isNegative then "-" else ""
    if x.isInfinite then sign ++ "Infinity"
    else match x.whole? with
      | some n =>
        if n = 0 then "0"
        else if n < wholeBound then sign ++ toString n
        else sign ++ x.shortest.positional ""
      | none => sign ++ x.shortest.positional ""

/-- The diagnostic text.  Magnitudes from `10 ^ 16` on and below `10 ^ (-4)` take exponent form, and a
whole number in positional notation shows one place. -/
def describe (x : Binary64) : String :=
  if x.isNaN then "NaN"
  else
    let sign := if x.isNegative then "-" else ""
    if x.isInfinite then sign ++ "inf"
    else
      let d := x.shortest
      if x.isZero || (-4 ≤ d.leading && d.leading < 16) then sign ++ d.positional ".0"
      else sign ++ d.exponential

end Binary64

end ObjectMemory
