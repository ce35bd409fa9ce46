/-!
# Blank characters

The characters that separate words of a program and that are trimmed from the ends of settings.

* `isBlank`: the Unicode white space, the four information separators `U+001C`–`U+001F` included.
* `isNumberBlank`: the blanks that may surround a number; the information separators may not.
* `trim`: a text without the blanks at its two ends.
-/

set_option autoImplicit false

namespace LoxLang.Text

/-- White space between words: tabs, line and page breaks, the information separators and the
spaces of every script. -/
def isBlank (c : Char) : Bool :=
  let n := c.toNat
  (9 ≤ n && n ≤ 13) || (28 ≤ n && n ≤ 32) || n == 0x85 || n == 0xA0 || n == 0x1680 ||
    (0x2000 ≤ n && n ≤ 0x200A) || n == 0x2028 || n == 0x2029 || n == 0x202F || n == 0x205F ||
    n == 0x3000

/-- Blanks that may stand before or after a number. -/
def isNumberBlank (c : Char) : Bool :=
  isBlank c && !(28 ≤ c.toNat && c.toNat ≤ 31)

/-- A text without the characters of the class `p` at its two ends. -/
def trim (p : Char → Bool) (cs : List Char) : List Char :=
  ((cs.dropWhile p).reverse.dropWhile p).reverse

end LoxLang.Text
