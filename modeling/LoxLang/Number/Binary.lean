/-!
# The parts of a double

A finite double is a whole number of the smallest unit `2 ^ (-1074)`: a significand below `2 ^ 53`
times a power of two.

* `Magnitude`: significand and scale of a finite double without its sign, with the two directions
  `Magnitude.ofBits` and `Magnitude.toBits`.
* `Shape`: the sign and kind of a double, with `Shape.ofFloat` and `Shape.toFloat`.

Powers are written `Nat.pow`, so that they are the same operation whatever other structure on `Nat`
is in scope.
-/

set_option autoImplicit false

namespace LoxLang.Number

/-- The number `significand * 2 ^ scale`, counted in units of `2 ^ (-1074)`. -/
structure Magnitude where
  significand : Nat
  scale : Nat
deriving DecidableEq, Repr

/-- The bits of positive infinity; the patterns below are the finite doubles in order. -/
def infinityBits : Nat := 2047 * Nat.pow 2 52

namespace Magnitude

/-- How many units of `2 ^ (-1074)` the magnitude holds. -/
def units (m : Magnitude) : Nat := m.significand * Nat.pow 2 m.scale

/-- The magnitude that a pattern below `infinityBits` stands for. -/
def ofBits (b : Nat) : Magnitude :=
  let scale := b / Nat.pow 2 52 - 1
  ⟨b - scale * Nat.pow 2 52, scale⟩

/-- The pattern of a magnitude; what is too large for a finite double becomes infinity. -/
def toBits (m : Magnitude) : Nat := min (m.scale * Nat.pow 2 52 + m.significand) infinityBits

/-- Whether the magnitude is a whole number. -/
def isIntegral (m : Magnitude) : Bool := m.units % Nat.pow 2 1074 == 0

/-- The magnitude without its fraction. -/
def floor (m : Magnitude) : Nat := m.units / Nat.pow 2 1074

end Magnitude

/-- The kinds of doubles. -/
inductive Shape where
  | nan
  | infinite (negative : Bool)
  | finite (negative : Bool) (size : Magnitude)
deriving DecidableEq, Repr

namespace Shape

/-- Takes a double apart. -/
def ofFloat (x : Float) : Shape :=
  let b := x.toBits.toNat
  let negative := decide (Nat.pow 2 63 ≤ b)
  let size := b % Nat.pow 2 63
  if size < infinityBits then .finite negative (.ofBits size)
  else if size = infinityBits then .infinite negative
  else .nan

/-- The double whose pattern without the sign is `size`. -/
def signed (negative : Bool) (size : Nat) : Float :=
  Float.ofBits (UInt64.ofNat (if negative then Nat.pow 2 63 + size else size))

/-- Puts a double together. -/
def toFloat : Shape → Float
  | .nan => Float.ofBits (UInt64.ofNat (infinityBits + Nat.pow 2 51))
  | .infinite negative => signed negative infinityBits
  | .finite negative size => signed negative size.toBits

end Shape

end LoxLang.Number
