import LoxLang.Number.Decimal
import LoxLang.Text.Blank
import LoxLang.Text.Digit

/-!
# How numbers are written and read

* `written`: the text of a double. A whole number below `10 ^ 16` has no point; any other number has
  the fewest digits that read back, with a point when its leading digit stands for `10 ^ (-4)` up to
  `10 ^ 15` and with an exponent of at least two digits outside.
* `read?`: the double that a numeral stands for, if it is one.
-/

set_option autoImplicit false

namespace LoxLang.Number

/-! ## Writing -/

/-- A decimal whose digits have a point between them. -/
def positional (digits : List Char) (point : Int) : List Char :=
  if point ≤ 0 then '0' :: '.' :: (List.replicate (-point).toNat '0' ++ digits)
  else digits.take point.toNat ++ '.' :: digits.drop point.toNat

/-- The sign and at least two digits of an exponent. -/
def exponentText (e : Int) : List Char :=
  let digits := Nat.toDigits 10 e.natAbs
  (if e < 0 then '-' else '+') :: (List.replicate (2 - digits.length) '0' ++ digits)

/-- A decimal with one digit before the point and the power of ten of that digit. -/
def scientific (digits : List Char) (e : Int) : List Char :=
  digits.take 1 ++ (if digits.length ≤ 1 then [] else '.' :: digits.drop 1) ++
    'e' :: exponentText e

/-- The digits of a coefficient without trailing zeros. -/
def significantDigits (n : Nat) : List Char :=
  ((Nat.toDigits 10 n).reverse.dropWhile (· == '0')).reverse

/-- The text of a decimal that is no whole number below `10 ^ 16`. -/
def Decimal.text (d : Decimal) : List Char :=
  let point := (Nat.toDigits 10 d.coefficient).length + d.exponent
  let digits := significantDigits d.coefficient
  if -4 < point && point ≤ 16 then positional digits point else scientific digits (point - 1)

/-- The text of a finite number without its sign. -/
def Magnitude.text (m : Magnitude) : List Char :=
  if m.isIntegral && m.floor < Nat.pow 10 16 then Nat.toDigits 10 m.floor else m.shortest.text

/-- The text of a number of the given shape. -/
def Shape.text : Shape → List Char
  | .nan => ['n', 'a', 'n']
  | .infinite negative => (if negative then ['-'] else []) ++ ['i', 'n', 'f']
  | .finite negative size => (if negative then ['-'] else []) ++ size.text

/-- The text of a double. -/
def written (x : Float) : String := String.ofList (Shape.ofFloat x).text

/-! ## Reading -/

/-- Splits a sign off a numeral. -/
def splitSign : List Char → Bool × List Char
  | '-' :: rest => (true, rest)
  | '+' :: rest => (false, rest)
  | cs => (false, cs)

/-- The power of ten after the mark `e`: a sign and at least one digit, and nothing else. -/
def readExponent? (cs : List Char) : Option Int :=
  let (negative, digits) := splitSign cs
  if digits.isEmpty || !digits.all Char.isDigit then none
  else if negative then some (-(Text.ofDigits digits : Int))
  else some (Text.ofDigits digits)

/-- Digits with a point among, before or after them, then perhaps an exponent. -/
def readDecimal? (cs : List Char) : Option Decimal :=
  let whole := cs.takeWhile Char.isDigit
  let (fraction, rest) :=
    match cs.dropWhile Char.isDigit with
    | '.' :: more => (more.takeWhile Char.isDigit, more.dropWhile Char.isDigit)
    | rest => ([], rest)
  if whole.isEmpty && fraction.isEmpty then none
  else
    let coefficient := Text.ofDigits (whole ++ fraction)
    match rest with
    | [] => some ⟨coefficient, -fraction.length⟩
    | c :: more =>
      if c = 'e' || c = 'E' then
        (readExponent? more).map fun e => ⟨coefficient, e - fraction.length⟩
      else none

/-- The double that a numeral without sign stands for. -/
def readUnsigned? (negative : Bool) (cs : List Char) : Option Float :=
  let word := String.ofList (cs.map Char.toLower)
  if word = "nan" then some Shape.nan.toFloat
  else if word = "inf" || word = "infinity" then some (Shape.infinite negative).toFloat
  else (readDecimal? cs).map fun d => Shape.signed negative d.nearest

/-- The double that a text stands for: blanks around it are ignored, the digits of all scripts are
alike, and underscores may stand between digits. -/
def read? (s : String) : Option Float := do
  let cs ← Text.joinGroups false ((Text.trim Text.isNumberBlank s.toList).map Text.toAsciiDigit)
  let (negative, digits) := splitSign cs
  readUnsigned? negative digits

end LoxLang.Number
