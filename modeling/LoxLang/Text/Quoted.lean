import LoxLang.Text.Printable

/-!
# Quoted texts

Error messages quote the names of nodes. A text stands between apostrophes, or between quotation
marks when it holds an apostrophe and no quotation mark; the mark in use and the backslash are
escaped, and so is every character that is not printable.

* `hexDigits`: a number in lower-case hexadecimal, padded with zeros.
* `escape`: one character inside quotes.
* `quoted`: a whole text.
-/

set_option autoImplicit false

namespace LoxLang.Text

/-- The number `n` in lower-case hexadecimal with at least `width` digits. -/
def hexDigits (width n : Nat) : List Char :=
  let ds := Nat.toDigits 16 n
  List.replicate (width - ds.length) '0' ++ ds

/-- The mark that a text is quoted with. -/
def quoteMark (cs : List Char) : Char :=
  if cs.contains '\'' && !cs.contains '"' then '"' else '\''

/-- How a character is written between two marks `mark`. -/
def escape (mark c : Char) : List Char :=
  if c = mark || c = '\\' then ['\\', c]
  else if c = '\t' then ['\\', 't']
  else if c = '\n' then ['\\', 'n']
  else if c = '\r' then ['\\', 'r']
  else if isPrintable c then [c]
  else if c.toNat < 0x100 then '\\' :: 'x' :: hexDigits 2 c.toNat
  else if c.toNat < 0x10000 then '\\' :: 'u' :: hexDigits 4 c.toNat
  else '\\' :: 'U' :: hexDigits 8 c.toNat

/-- A text between quotes. -/
def quoted (s : String) : String :=
  let mark := quoteMark s.toList
  String.ofList (mark :: (s.toList.flatMap (escape mark) ++ [mark]))

end LoxLang.Text
