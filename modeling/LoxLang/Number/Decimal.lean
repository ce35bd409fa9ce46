import LoxLang.Number.Binary

/-!
# Decimals and the doubles nearest to them

* `Decimal`: a coefficient times a power of ten.
* `Decimal.nearest`: the double nearest to a decimal, ties to the even significand.
* `Magnitude.shortest`: the decimal with the fewest digits whose nearest double is the given one;
  of several the nearest to it.

All arithmetic is exact, on natural numbers.
-/

set_option autoImplicit false

namespace LoxLang.Number

/-- The number `coefficient * 10 ^ exponent`. -/
structure Decimal where
  coefficient : Nat
  exponent : Int
deriving DecidableEq, Repr

/-- The quotient rounded to the nearest whole number, a half to the even one. -/
def roundDiv (num den : Nat) : Nat :=
  let q := num / den
  let r := num % den
  if 2 * r < den then q else if den < 2 * r then q + 1 else q + q % 2

namespace Decimal

/-- Numerator of a decimal as a fraction. -/
def numerator (d : Decimal) : Nat := d.coefficient * Nat.pow 10 d.exponent.toNat

/-- Denominator of a decimal as a fraction. -/
def denominator (d : Decimal) : Nat := Nat.pow 10 (-d.exponent).toNat

/-- The magnitude nearest to `num / den` units. -/
def nearestUnits (num den : Nat) : Magnitude :=
  let scale := (num / den).log2 + 1 - 53
  ⟨roundDiv num (den * Nat.pow 2 scale), scale⟩

/-- The pattern of the double nearest to a decimal. An exponent far outside the range of doubles is
decided without computing its power of ten. -/
def nearest (d : Decimal) : Nat :=
  if d.coefficient = 0 then 0
  else if 400 < d.exponent then infinityBits
  else if d.exponent < -(400 + d.coefficient.log2 : Int) then 0
  else (nearestUnits (d.numerator * Nat.pow 2 1074) d.denominator).toBits

end Decimal

namespace Magnitude

/-! ## The decimals that read back

Distances are counted in quarters of the smallest unit, in which the borders half-way to the
neighbouring doubles are whole. -/

/-- The border to the next smaller double; below a power of two the gap is half as wide. -/
def lower (m : Magnitude) : Nat :=
  (4 * m.significand - if m.significand = Nat.pow 2 52 && 0 < m.scale then 1 else 2) *
    Nat.pow 2 m.scale

/-- The border to the next larger double. -/
def upper (m : Magnitude) : Nat := (4 * m.significand + 2) * Nat.pow 2 m.scale

/-- Whether the nearest double of a decimal is `m`; the borders belong to an even significand. -/
def readsBack (m : Magnitude) (d : Decimal) : Bool :=
  let x := d.numerator * Nat.pow 2 1076
  let lo := m.lower * d.denominator
  let hi := m.upper * d.denominator
  if m.significand % 2 = 0 then lo ≤ x && x ≤ hi else lo < x && x < hi

/-! ## The shortest of them -/

/-- The largest multiple of `10 ^ e` that is not above `m`. -/
def floorAt (m : Magnitude) (e : Int) : Decimal :=
  ⟨m.units * Nat.pow 10 (-e).toNat / (Nat.pow 2 1074 * Nat.pow 10 e.toNat), e⟩

/-- Whether `m` is nearer to the decimal `d` than to the one a unit of its last digit above; from
the middle the even one is nearer. -/
def nearerBelow (m : Magnitude) (d : Decimal) : Bool :=
  let twice := 2 * (m.units * d.denominator)
  let middle := (2 * d.coefficient + 1) * Nat.pow 10 d.exponent.toNat * Nat.pow 2 1074
  twice < middle || (twice = middle && d.coefficient % 2 = 0)

/-- The multiple of `10 ^ e` nearest to `m` among its two neighbours that read back. -/
def multiple? (m : Magnitude) (e : Int) : Option Decimal :=
  let below := m.floorAt e
  let above : Decimal := ⟨below.coefficient + 1, e⟩
  if m.readsBack below && (m.nearerBelow below || !m.readsBack above) then some below
  else if m.readsBack above then some above
  else none

/-- The number of digits before the decimal point, zero or less for a fraction below one tenth. -/
def pointPosition (m : Magnitude) : Int :=
  if m.floor = 0 then (Nat.toDigits 10 (m.units * Nat.pow 10 400 / Nat.pow 2 1074)).length - 400
  else (Nat.toDigits 10 m.floor).length

/-- All digits of `m`. -/
def exact (m : Magnitude) : Decimal := ⟨m.units * Nat.pow 5 1074, -1074⟩

/-- The decimal with the fewest digits that reads back as `m`: one to seventeen digits are tried. -/
def shortest (m : Magnitude) : Decimal :=
  let point := m.pointPosition
  ((List.range 17).findSome? fun (n : Nat) => m.multiple? (point - (n + 1))).getD m.exact

end Magnitude

end LoxLang.Number
