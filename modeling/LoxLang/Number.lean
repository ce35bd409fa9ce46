import LoxLang.Number.Written

/-!
# Numbers of a running program

Numbers are doubles. A NaN is equal to itself but not to other NaNs, so each NaN carries the mark of
the computation that made it; the NaN of a division by zero is always the same one.

* `Number`: a double that is no NaN, or a NaN with its mark.
* `Number.ofFloat`: the number that a computation with a given mark has made.
* the arithmetic and the comparisons of numbers.
-/

set_option autoImplicit false

namespace LoxLang

/-- A number of a running program. -/
inductive Number where
  | real (x : Float) (notNaN : x.isNaN = false)
  | nan (mark : Nat)

namespace Number

/-- The mark of the NaN that every division by zero makes. -/
def divisionMark : Nat := 0

/-- The number `x` as made by the computation `mark`. -/
def ofFloat (mark : Nat) (x : Float) : Number :=
  if h : x.isNaN = false then .real x h else .nan mark

/-- The double behind a number. -/
def toFloat : Number → Float
  | .real x _ => x
  | .nan _ => Shape.nan.toFloat

/-- The text of a number. -/
def text (a : Number) : String := written a.toFloat

/-- The sum, made by the computation `mark`. -/
def add (mark : Nat) (a b : Number) : Number := ofFloat mark (a.toFloat + b.toFloat)

/-- The difference, made by the computation `mark`. -/
def sub (mark : Nat) (a b : Number) : Number := ofFloat mark (a.toFloat - b.toFloat)

/-- The product, made by the computation `mark`. -/
def mul (mark : Nat) (a b : Number) : Number := ofFloat mark (a.toFloat * b.toFloat)

/-- The quotient, made by the computation `mark`. A number divided by zero is infinite with the sign
of the quotient, and zero or NaN divided by zero is the common NaN of all divisions by zero. -/
def div (mark : Nat) (a b : Number) : Number :=
  ofFloat (if b.toFloat == 0 then divisionMark else mark) (a.toFloat / b.toFloat)

/-- The number with the opposite sign, made by the computation `mark`. -/
def neg (mark : Nat) (a : Number) : Number := ofFloat mark (-a.toFloat)

/-- Equality: doubles by their values, NaNs by their marks. -/
def equal : Number → Number → Bool
  | .real x _, .real y _ => x == y
  | .nan i, .nan j => i == j
  | _, _ => false

/-- Whether one number is less than another; a NaN is not comparable. -/
def less (a b : Number) : Bool := decide (a.toFloat < b.toFloat)

/-- Whether one number is less than or equal to another; a NaN is not comparable. -/
def lessEqual (a b : Number) : Bool := decide (a.toFloat ≤ b.toFloat)

end Number

end LoxLang
