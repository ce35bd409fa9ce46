/-!
# Decimal digits

Every script of Unicode that writes numbers in base ten has a block of ten characters for the
values zero to nine, in order. Numerals of all of them are read alike.

* `digitBlocks`: the first character of each block.
* `digit?`: the value of a digit; `isDigit`: whether a character is one.
* `toAsciiDigit`: the digit `0`–`9` of the same value.
* `joinGroups`: a numeral without the underscores that group its digits.
-/

set_option autoImplicit false

namespace LoxLang.Text

/-- The zero of each block of decimal digits, in code point order. -/
def digitBlocks : List Nat :=
  [0x30, 0x660, 0x6F0, 0x7C0, 0x966, 0x9E6, 0xA66, 0xAE6, 0xB66, 0xBE6, 0xC66,
   0xCE6, 0xD66, 0xDE6, 0xE50, 0xED0, 0xF20, 0x1040, 0x1090, 0x17E0, 0x1810, 0x1946,
   0x19D0, 0x1A80, 0x1A90, 0x1B50, 0x1BB0, 0x1C40, 0x1C50, 0xA620, 0xA8D0, 0xA900, 0xA9D0,
   0xA9F0, 0xAA50, 0xABF0, 0xFF10, 0x104A0, 0x10D30, 0x11066, 0x110F0, 0x11136, 0x111D0, 0x112F0,
   0x11450, 0x114D0, 0x11650, 0x116C0, 0x11730, 0x118E0, 0x11950, 0x11C50, 0x11D50,
     0x11DA0, 0x16A60,
   0x16AC0, 0x16B50, 0x1D7CE, 0x1D7D8, 0x1D7E2, 0x1D7EC, 0x1D7F6, 0x1E140, 0x1E2F0,
     0x1E950, 0x1FBF0]

/-- The value of a decimal digit of any script. -/
def digit? (c : Char) : Option Nat :=
  (digitBlocks.find? fun first => first ≤ c.toNat && c.toNat < first + 10).map (c.toNat - ·)

/-- Whether a character is a decimal digit of some script. -/
def isDigit (c : Char) : Bool := (digit? c).isSome

/-- Replaces a digit of any script by the one of `0`–`9` with the same value. -/
def toAsciiDigit (c : Char) : Char :=
  match digit? c with
  | some d => d.digitChar
  | none => c

/-- Removes the underscores of a numeral. Each has to stand between two digits; `afterDigit` says
whether the character before was one. -/
def joinGroups (afterDigit : Bool) : List Char → Option (List Char)
  | [] => some []
  | '_' :: c :: rest => if afterDigit && c.isDigit then joinGroups afterDigit (c :: rest) else none
  | c :: rest => if c = '_' then none else (joinGroups c.isDigit rest).map (c :: ·)

/-- The number that a run of the digits `0`–`9` writes. -/
def ofDigits (cs : List Char) : Nat := Nat.ofDigitChars 10 cs 0

end LoxLang.Text
