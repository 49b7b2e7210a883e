set_option autoImplicit false

/-!
# The fewest digits that read back

A finite binary value `m * 2 ^ q` stands for an interval of reals: those that lie nearer to it than
to its neighbours, the ends included exactly when `m` is even.  Among the decimals in that interval
this module selects one with the fewest digits and, of those, the nearest to the value; if two are
equally near, the larger.

All comparisons are exact, by cross-multiplied natural numbers.
-/

namespace ObjectMemory.Decimal

/-- A positive value `m * 2 ^ q`, and whether the gap to the value below is half the gap above. -/
structure Binary where
  m : Nat
  q : Int
  narrowBelow : Bool
  deriving DecidableEq, Repr, Inhabited

/-- The decimal `digits * 10 ^ exp`. -/
structure Scaled where
  digits : Nat
  exp : Int
  deriving DecidableEq, Repr, Inhabited

/-- Compares `a * 10 ^ i` with `n * 2 ^ j`. -/
def compareScaled (a : Nat) (i : Int) (n : Nat) (j : Int) : Ordering :=
  compare ((a * Nat.pow 10 i.toNat) <<< (-j).toNat) ((n * Nat.pow 10 (-i).toNat) <<< j.toNat)

namespace Binary

/-- The decimal lies among the reals that round to the value. -/
def readsBack (x : Binary) (d : Scaled) : Bool :=
  let lower := if x.narrowBelow then 4 * x.m - 1 else 4 * x.m - 2
  let upper := 4 * x.m + 2
  let closed := x.m % 2 == 0
  let atLower := compareScaled d.digits d.exp lower (x.q - 2)
  let atUpper := compareScaled d.digits d.exp upper (x.q - 2)
  (atLower == .gt || (closed && atLower == .eq)) && (atUpper == .lt || (closed && atUpper == .eq))

/-- The whole part of the value divided by `10 ^ e`. -/
def quotient (x : Binary) (e : Int) : Nat :=
  ((x.m * Nat.pow 10 (-e).toNat) <<< x.q.toNat) / (Nat.pow 10 e.toNat <<< (-x.q).toNat)

/-- The value is less than `10 ^ k`. -/
def below (x : Binary) (k : Int) : Bool := compareScaled 1 k x.m x.q == .gt

/-- The least power of ten above the value, searched upwards from `k`. -/
def scaleFrom (x : Binary) : Nat → Int → Int
  | 0, k => k
  | n + 1, k => if x.below k then k else x.scaleFrom n (k + 1)

/-- The least `k` with the value below `10 ^ k`.  The search starts under it: `0.3` is less than the
logarithm of two to base ten. -/
def scale (x : Binary) : Int :=
  let bits := (x.m.log2 : Int) + x.q
  let start := if bits ≥ 0 then bits * 3 / 10 - 1 else bits * 31 / 100 - 2
  x.scaleFrom 40 start

/-- A decimal on the grid `10 ^ e` that reads back: of the two grid points around the value the
nearer, and the larger if they are equally near. -/
def onGrid? (x : Binary) (e : Int) : Option Scaled :=
  let low := x.quotient e
  let down : Scaled := ⟨low, e⟩
  let up : Scaled := ⟨low + 1, e⟩
  match x.readsBack down, x.readsBack up with
  | true, true =>
    -- twice the value against the sum of the two
    if compareScaled (2 * low + 1) e (2 * x.m) x.q == .gt then some down else some up
  | true, false => some down
  | false, true => some up
  | false, false => none

/-- The exact value as a decimal. -/
def exact (x : Binary) : Scaled :=
  if x.q ≥ 0 then ⟨x.m <<< x.q.toNat, 0⟩ else ⟨x.m * Nat.pow 5 (-x.q).toNat, x.q⟩

end Binary

namespace Scaled

/-- Moves trailing zeros of the digits into the exponent, at most `n` of them. -/
def stripFrom (d : Scaled) : Nat → Scaled
  | 0 => d
  | n + 1 =>
    if d.digits ≠ 0 ∧ d.digits % 10 = 0 then stripFrom ⟨d.digits / 10, d.exp + 1⟩ n else d

/-- The same decimal without trailing zeros in its digits. -/
def strip (d : Scaled) : Scaled := d.stripFrom d.digits.log2

end Scaled

/-- The fewest digits that read back to the value.  Seventeen digits are enough for a significand of
53 bits. -/
def Binary.shortest (x : Binary) : Scaled :=
  let k := x.scale
  match (List.range 17).findSome? fun n => x.onGrid? (k - (n + 1 : Nat)) with
  | some d => d.strip
  | none => x.exact.strip

end ObjectMemory.Decimal
