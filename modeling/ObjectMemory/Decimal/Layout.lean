import ObjectMemory.Decimal.Shortest
set_option autoImplicit false

/-!
# Writing a decimal

A decimal `digits * 10 ^ exp` is laid out positionally, with the point after, inside or before the
digits, or in exponent form with one digit before the point.
-/

namespace ObjectMemory.Decimal.Scaled

/-- The digits as text. -/
def digitText (d : Scaled) : String := toString d.digits

/-- The exponent of the leading digit. -/
def leading (d : Scaled) : Int := d.exp + (d.digitText.length : Int) - 1

/-- A run of zeros. -/
def zeros (n : Nat) : String := String.ofList (List.replicate n '0')

/-- Positional notation.  A whole number is followed by `tail`. -/
def positional (d : Scaled) (tail : String) : String :=
  let ds := d.digitText
  if d.exp ≥ 0 then ds ++ zeros d.exp.toNat ++ tail
  else
    let places := (-d.exp).toNat
    if ds.length > places then
      let whole := ds.length - places
      String.ofList (ds.toList.take whole) ++ "." ++ String.ofList (ds.toList.drop whole)
    else "0." ++ zeros (places - ds.length) ++ ds

/-- Exponent form: one digit, the rest after a point, and the exponent of the leading digit. -/
def exponential (d : Scaled) : String :=
  let mantissa := match d.digitText.toList with
    | c :: [] => String.singleton c
    | c :: rest => String.singleton c ++ "." ++ String.ofList rest
    | [] => ""
  mantissa ++ "e" ++ toString d.leading

end ObjectMemory.Decimal.Scaled
