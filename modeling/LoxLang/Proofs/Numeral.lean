import LoxLang.Proofs.Rounding
import LoxLang.Proofs.Words

/-!
# Numerals

The texts of numbers have one form: digits, perhaps a point and more digits, perhaps an exponent.

* `Numeral`: the parts of such a text, with `Numeral.text` and the decimal it writes,
  `Numeral.decimal`.

Results: `Numeral.readDecimal?_text` — a numeral is read as its decimal; `Numeral.read?_text` —
with a sign in front it is read as the double that the decimal is rounded to;
`Magnitude.exists_numeral` — the text of a finite double is a numeral, and its decimal lies
between the borders of the double; `read?_written` — every text of a double that is not NaN is
read as that double.
-/

set_option autoImplicit false

namespace LoxLang

/-! ## Digits -/

namespace Text

theorem ofDigits_toDigits (n : ℕ) : ofDigits (Nat.toDigits 10 n) = n :=
  Nat.ofDigitChars_ten_toDigits

theorem ofDigits_zeros_append (n : ℕ) (cs : List Char) :
    ofDigits (List.replicate n '0' ++ cs) = ofDigits cs := by
  simp [ofDigits, Nat.ofDigitChars_append, Nat.ofDigitChars_replicate_zero]

theorem ofDigits_append_zeros (cs : List Char) (n : ℕ) :
    ofDigits (cs ++ List.replicate n '0') = ofDigits cs * 10 ^ n := by
  simp [ofDigits, Nat.ofDigitChars_append, Nat.ofDigitChars_replicate_zero, Nat.mul_comm]

theorem isDigit_of_mem_toDigits {n : ℕ} {c : Char} (h : c ∈ Nat.toDigits 10 n) :
    c.isDigit = true :=
  Nat.isDigit_of_mem_toDigits (by norm_num) (by norm_num) h

theorem isDigit_of_mem_zeros {n : ℕ} {c : Char} (h : c ∈ List.replicate n '0') :
    c.isDigit = true := by
  rw [List.eq_of_mem_replicate h]
  decide

/-- The characters of the texts of numbers. -/
def numberCharacters : List Char :=
  ['0', '1', '2', '3', '4', '5', '6', '7', '8', '9', '.', 'e', '+', '-', 'i', 'n', 'f']

theorem mem_numberCharacters_of_isDigit {c : Char} (h : c.isDigit = true) :
    c ∈ numberCharacters := by
  obtain ⟨hge, hle⟩ : 48 ≤ c.toNat ∧ c.toNat ≤ 57 := by
    simp only [Char.isDigit, Bool.and_eq_true, decide_eq_true_eq, ge_iff_le,
      UInt32.le_iff_toNat_le] at h
    exact h
  have hmem : ∀ n < 58, 48 ≤ n → Char.ofNat n ∈ numberCharacters := by decide +kernel
  have := hmem c.toNat (by omega) hge
  rwa [Char.ofNat_toNat] at this

/-- None of them is blank, a digit of another script or an underscore. -/
theorem plain_of_mem_numberCharacters {c : Char} (h : c ∈ numberCharacters) :
    isNumberBlank c = false ∧ toAsciiDigit c = c ∧ c ≠ '_' := by
  fin_cases h <;> decide +kernel

/-- The words `nan` and `inf` begin with no digit. -/
theorem toLower_digit {c : Char} (h : c.isDigit = true) :
    c.toLower ≠ 'n' ∧ c.toLower ≠ 'i' := by
  have hmem := mem_numberCharacters_of_isDigit h
  fin_cases hmem <;> simp_all

end Text

namespace Number

open Text (ofDigits numberCharacters)
open Magnitude (ofBits)

/-! ## The form of a numeral -/

/-- Digits, perhaps a point and more digits, perhaps an exponent. -/
structure Numeral where
  whole : List Char
  fraction : Option (List Char)
  exponent : Option ℤ
  whole_ne_nil : whole ≠ []
  whole_digits : ∀ c ∈ whole, c.isDigit = true
  fraction_digits : ∀ c ∈ fraction.getD [], c.isDigit = true

namespace Numeral

/-- The text of a numeral. -/
def text (n : Numeral) : List Char :=
  n.whole ++ (n.fraction.elim [] ('.' :: ·) ++ n.exponent.elim [] ('e' :: exponentText ·))

/-- The decimal that a numeral writes. -/
def decimal (n : Numeral) : Decimal :=
  ⟨ofDigits (n.whole ++ n.fraction.getD []), n.exponent.getD 0 - (n.fraction.getD []).length⟩

end Numeral

/-! ## Reading a numeral -/

theorem exponentText_digits (e : ℤ) :
    ∃ digits, exponentText e = (if e < 0 then '-' else '+') :: digits ∧ digits ≠ [] ∧
      (∀ c ∈ digits, c.isDigit = true) ∧ ofDigits digits = e.natAbs := by
  refine ⟨_, rfl, ?_, ?_, ?_⟩
  · exact List.append_ne_nil_of_right_ne_nil _ Nat.toDigits_ne_nil
  · intro c hc
    rcases List.mem_append.1 hc with hc | hc
    · exact Text.isDigit_of_mem_zeros hc
    · exact Text.isDigit_of_mem_toDigits hc
  · rw [Text.ofDigits_zeros_append, Text.ofDigits_toDigits]

/-- The text of an exponent is read as it. -/
theorem readExponent?_exponentText (e : ℤ) : readExponent? (exponentText e) = some e := by
  obtain ⟨digits, htext, hne, hdigits, hvalue⟩ := exponentText_digits e
  have hall : digits.all Char.isDigit = true := List.all_eq_true.2 hdigits
  rw [htext]
  by_cases hneg : e < 0
  · simp only [if_pos hneg, readExponent?, splitSign, hall, hvalue]
    simp [hne, abs_of_neg hneg]
  · simp only [if_neg hneg, readExponent?, splitSign, hall, hvalue]
    simp [hne, abs_of_nonneg (not_lt.1 hneg)]

/-- Digits end where a character that is no digit stands. -/
theorem span_digits {digits rest : List Char} (hdigits : ∀ c ∈ digits, c.isDigit = true)
    (hrest : ∀ c ∈ rest.head?, c.isDigit = false) :
    (digits ++ rest).takeWhile Char.isDigit = digits ∧
      (digits ++ rest).dropWhile Char.isDigit = rest := by
  rw [List.takeWhile_append_of_pos hdigits, List.dropWhile_append_of_pos hdigits]
  cases rest with
  | nil => simp
  | cons c rest =>
    have hc : c.isDigit = false := hrest c rfl
    simp [hc]

namespace Numeral

variable (n : Numeral)

/-- The exponent of a numeral begins with no digit. -/
theorem not_digit_of_exponent (exponent : Option ℤ) :
    ∀ c ∈ (exponent.elim [] ('e' :: exponentText ·)).head?, c.isDigit = false := by
  cases exponent with
  | none => simp
  | some e =>
    intro c hc
    simp only [Option.elim_some, List.head?_cons, Option.mem_some_iff] at hc
    rw [← hc]
    decide

/-- **A numeral is read as its decimal.** -/
theorem readDecimal?_text : readDecimal? n.text = some n.decimal := by
  obtain ⟨whole, fraction, exponent, hne, hwhole, hfraction⟩ := n
  have hexponent := not_digit_of_exponent exponent
  have hempty : whole.isEmpty = false := by simp [hne]
  cases fraction with
  | none =>
    obtain ⟨htake, hdrop⟩ := span_digits hwhole hexponent
    simp only [text, decimal, Option.elim_none, List.nil_append, readDecimal?, htake, hdrop]
    cases exponent with
    | none => simp [hempty]
    | some e => simp [hempty, readExponent?_exponentText]
  | some fraction =>
    have hpoint : ∀ c ∈ ('.' :: (fraction ++ exponent.elim [] ('e' :: exponentText ·))).head?,
        c.isDigit = false := by
      intro c hc
      rw [List.head?_cons, Option.mem_some_iff] at hc
      rw [← hc]
      decide
    obtain ⟨htake, hdrop⟩ := span_digits hwhole hpoint
    have hdigits : ∀ c ∈ fraction, c.isDigit = true := hfraction
    obtain ⟨htake', hdrop'⟩ := span_digits hdigits hexponent
    simp only [text, decimal, Option.elim_some, List.cons_append, readDecimal?, htake, hdrop,
      htake', hdrop']
    cases exponent with
    | none => simp [hempty]
    | some e => simp [hempty, readExponent?_exponentText]

/-! ### With a sign -/

theorem exists_digit_cons : ∃ c cs, n.text = c :: cs ∧ c.isDigit = true := by
  obtain ⟨c, cs, hcons⟩ := List.exists_cons_of_ne_nil n.whole_ne_nil
  refine ⟨c, _, by rw [text, hcons, List.cons_append], n.whole_digits c ?_⟩
  rw [hcons]
  exact List.mem_cons_self

theorem exponentText_plain (e : ℤ) : ∀ c ∈ exponentText e, c ∈ numberCharacters := by
  obtain ⟨digits, htext, -, hdigits, -⟩ := exponentText_digits e
  rw [htext]
  intro c hc
  rcases List.mem_cons.1 hc with rfl | hc
  · split <;> decide
  · exact Text.mem_numberCharacters_of_isDigit (hdigits c hc)

theorem text_plain : ∀ c ∈ n.text, c ∈ numberCharacters := by
  obtain ⟨whole, fraction, exponent, hne, hwhole, hfraction⟩ := n
  intro c hc
  simp only [text, List.mem_append] at hc
  rcases hc with hc | hc | hc
  · exact Text.mem_numberCharacters_of_isDigit (hwhole c hc)
  · cases fraction with
    | none => cases hc
    | some fraction =>
      rcases List.mem_cons.1 hc with rfl | hc
      · decide
      · exact Text.mem_numberCharacters_of_isDigit (hfraction c hc)
  · cases exponent with
    | none => cases hc
    | some e =>
      rcases List.mem_cons.1 hc with rfl | hc
      · decide
      · exact exponentText_plain e c hc

end Numeral

/-- Nothing is trimmed, replaced or removed in a text of the characters of numbers. -/
theorem read?_plain {cs : List Char} (h : ∀ c ∈ cs, c ∈ numberCharacters) :
    read? (String.ofList cs) = readUnsigned? (splitSign cs).1 (splitSign cs).2 := by
  have htrim : Text.trim Text.isNumberBlank cs = cs :=
    Text.trim_eq fun c hc => (Text.plain_of_mem_numberCharacters (h c hc)).1
  have hmap : cs.map Text.toAsciiDigit = cs := by
    conv_rhs => rw [← List.map_id cs]
    exact List.map_congr_left fun c hc => (Text.plain_of_mem_numberCharacters (h c hc)).2.1
  have hjoin : Text.joinGroups false cs = some cs :=
    Text.joinGroups_eq false fun c hc => (Text.plain_of_mem_numberCharacters (h c hc)).2.2
  unfold read?
  rw [String.toList_ofList, htrim, hmap, hjoin]
  rfl

/-- A numeral is none of the words for NaN and infinity. -/
theorem readUnsigned?_digit (negative : Bool) {c : Char} {cs : List Char} (hc : c.isDigit = true) :
    readUnsigned? negative (c :: cs) = (readDecimal? (c :: cs)).map fun d =>
      Shape.signed negative d.nearest := by
  obtain ⟨hn, hi⟩ := Text.toLower_digit hc
  have hword : ∀ (letter : Char) (word : String), word.toList.head? = some letter →
      c.toLower ≠ letter → String.ofList ((c :: cs).map Char.toLower) ≠ word := by
    rintro letter word hhead hne rfl
    rw [String.toList_ofList, List.map_cons, List.head?_cons] at hhead
    exact hne (Option.some.inj hhead)
  unfold readUnsigned?
  simp only
  rw [if_neg (hword 'n' "nan" (by decide) hn)]
  rw [if_neg]
  simp only [Bool.or_eq_true, decide_eq_true_eq, not_or]
  exact ⟨hword 'i' "inf" (by decide) hi, hword 'i' "infinity" (by decide) hi⟩

/-- **With a sign in front a numeral is read as the double that its decimal is rounded to.** -/
theorem Numeral.read?_text (n : Numeral) (negative : Bool) :
    read? (String.ofList ((if negative then ['-'] else []) ++ n.text)) =
      some (Shape.signed negative n.decimal.nearest) := by
  obtain ⟨c, cs, htext, hc⟩ := n.exists_digit_cons
  have hunsigned :
      readUnsigned? negative n.text = some (Shape.signed negative n.decimal.nearest) := by
    have hread := n.readDecimal?_text
    rw [htext] at hread ⊢
    rw [readUnsigned?_digit negative hc, hread, Option.map_some]
  have hsplit : splitSign ((if negative then ['-'] else []) ++ n.text) = (negative, n.text) := by
    cases negative with
    | true => rfl
    | false =>
      refine splitSign_digit fun d hd => ?_
      rw [if_neg (by decide), List.nil_append, htext, List.head?_cons, Option.mem_some_iff] at hd
      rw [← hd]
      exact hc
  rw [read?_plain, hsplit]
  · exact hunsigned
  · intro c hc
    rcases List.mem_append.1 hc with hc | hc
    · cases negative
      · cases hc
      · rw [List.mem_singleton.1 hc]
        decide
    · exact n.text_plain c hc

/-! ## The texts of decimals -/

/-- The digits of a number are the significant ones and zeros. -/
theorem toDigits_eq_significantDigits (n : ℕ) :
    ∃ zeros, Nat.toDigits 10 n = significantDigits n ++ List.replicate zeros '0' := by
  refine ⟨((Nat.toDigits 10 n).reverse.takeWhile (· == '0')).length, ?_⟩
  have hzeros : (Nat.toDigits 10 n).reverse.takeWhile (· == '0') =
      List.replicate ((Nat.toDigits 10 n).reverse.takeWhile (· == '0')).length '0' :=
    List.eq_replicate_of_mem fun c hc => by simpa using List.mem_takeWhile_imp hc
  rw [significantDigits, ← List.reverse_inj, List.reverse_append, List.reverse_reverse,
    List.reverse_replicate, ← hzeros, List.takeWhile_append_dropWhile]

theorem isDigit_of_mem_significantDigits {n : ℕ} {c : Char} (h : c ∈ significantDigits n) :
    c.isDigit = true := by
  obtain ⟨zeros, hzeros⟩ := toDigits_eq_significantDigits n
  exact Text.isDigit_of_mem_toDigits (hzeros ▸ List.mem_append_left _ h)

theorem significantDigits_ne_nil {n : ℕ} (h : n ≠ 0) : significantDigits n ≠ [] := by
  obtain ⟨zeros, hzeros⟩ := toDigits_eq_significantDigits n
  intro hnil
  have hvalue := Text.ofDigits_toDigits n
  rw [hzeros, Text.ofDigits_append_zeros, hnil] at hvalue
  simp [Text.ofDigits] at hvalue
  omega

namespace Decimal

/-- The number of digits before the point. -/
def point (d : Decimal) : ℤ := (Nat.toDigits 10 d.coefficient).length + d.exponent

/-- A decimal without the zeros at its end. -/
def stripped (d : Decimal) : Decimal :=
  ⟨ofDigits (significantDigits d.coefficient),
    d.point - (significantDigits d.coefficient).length⟩

theorem stripped_value (d : Decimal) : d.stripped.value = d.value := by
  obtain ⟨zeros, hzeros⟩ := toDigits_eq_significantDigits d.coefficient
  have hlength := congrArg List.length hzeros
  have hcoefficient := Text.ofDigits_toDigits d.coefficient
  rw [List.length_append, List.length_replicate] at hlength
  rw [hzeros, Text.ofDigits_append_zeros] at hcoefficient
  have hexponent : d.stripped.exponent = zeros + d.exponent := by
    simp only [stripped, point]
    omega
  rw [value, value, hexponent, zpow_add₀ (by norm_num), zpow_natCast, ← mul_assoc]
  congr 1
  exact_mod_cast hcoefficient

theorem text_eq (d : Decimal) : d.text =
    if -4 < d.point && d.point ≤ 16 then positional (significantDigits d.coefficient) d.point
    else scientific (significantDigits d.coefficient) (d.point - 1) := rfl

section Digits

variable {digits : List Char} {point : ℤ}

/-- Digits with a point, zeros before them if the point stands before all, are a numeral. -/
theorem positional_numeral (hne : digits ≠ []) (hdigits : ∀ c ∈ digits, c.isDigit = true)
    (hpoint : point ≤ digits.length) : ∃ n : Numeral, n.text = positional digits point ∧
      n.decimal = ⟨ofDigits digits, point - digits.length⟩ := by
  unfold positional
  split
  · -- a fraction below one
    refine ⟨⟨['0'], some (List.replicate (-point).toNat '0' ++ digits), none, by simp, by simp,
      ?_⟩, ?_, ?_⟩
    · intro c hc
      rcases List.mem_append.1 hc with hc | hc
      · exact Text.isDigit_of_mem_zeros hc
      · exact hdigits c hc
    · simp [Numeral.text]
    · have hzeros : ofDigits ('0' :: (List.replicate (-point).toNat '0' ++ digits)) =
          ofDigits digits := by
        rw [← List.cons_append, ← List.replicate_succ, Text.ofDigits_zeros_append]
      simp only [Numeral.decimal, Option.getD_some, Option.getD_none, List.singleton_append, hzeros,
        List.length_append, List.length_replicate, Decimal.mk.injEq, true_and]
      omega
  · -- a point among the digits or after the last
    refine ⟨⟨digits.take point.toNat, some (digits.drop point.toNat), none, ?_, ?_, ?_⟩, ?_,
      ?_⟩
    · rw [ne_eq, List.take_eq_nil_iff, not_or]
      exact ⟨by omega, hne⟩
    · exact fun c hc => hdigits c (List.mem_of_mem_take hc)
    · exact fun c hc => hdigits c (List.mem_of_mem_drop hc)
    · simp [Numeral.text]
    · simp only [Numeral.decimal, Option.getD_some, Option.getD_none, List.take_append_drop,
        List.length_drop, Decimal.mk.injEq, true_and]
      omega

/-- Digits with a point after the first, if there are more, and an exponent are a numeral. -/
theorem scientific_numeral (hne : digits ≠ []) (hdigits : ∀ c ∈ digits, c.isDigit = true) :
    ∃ n : Numeral, n.text = scientific digits (point - 1) ∧
      n.decimal = ⟨ofDigits digits, point - digits.length⟩ := by
  have hpos : 0 < digits.length := List.length_pos_iff.2 hne
  have hwhole : digits.take 1 ≠ [] := by
    rw [ne_eq, List.take_eq_nil_iff, not_or]
    exact ⟨by omega, hne⟩
  have htake : ∀ c ∈ digits.take 1, c.isDigit = true :=
    fun c hc => hdigits c (List.mem_of_mem_take hc)
  unfold scientific
  split
  · rename_i hone
    refine ⟨⟨digits.take 1, none, some (point - 1), hwhole, htake, by simp⟩, ?_, ?_⟩
    · simp [Numeral.text]
    · simp only [Numeral.decimal, Option.getD_some, Option.getD_none, List.append_nil,
        List.length_nil, List.take_of_length_le hone, Decimal.mk.injEq, true_and]
      omega
  · refine ⟨⟨digits.take 1, some (digits.drop 1), some (point - 1), hwhole, htake, ?_⟩, ?_,
      ?_⟩
    · exact fun c hc => hdigits c (List.mem_of_mem_drop hc)
    · simp [Numeral.text]
    · simp only [Numeral.decimal, Option.getD_some, List.take_append_drop, List.length_drop,
        Decimal.mk.injEq, true_and]
      omega

end Digits

/-- The text of a decimal is a numeral that writes it, unless the point would stand beyond its
digits. -/
theorem exists_numeral {d : Decimal} (hne : d.coefficient ≠ 0)
    (hpoint : d.point ≤ 16 → d.point ≤ (significantDigits d.coefficient).length) :
    ∃ n : Numeral, n.text = d.text ∧ n.decimal = d.stripped := by
  have hnonempty := significantDigits_ne_nil hne
  have hdigits : ∀ c ∈ significantDigits d.coefficient, c.isDigit = true :=
    fun c hc => isDigit_of_mem_significantDigits hc
  rw [text_eq, stripped]
  split
  · rename_i hrange
    simp only [Bool.and_eq_true, decide_eq_true_eq] at hrange
    exact positional_numeral hnonempty hdigits (hpoint hrange.2)
  · exact scientific_numeral hnonempty hdigits

theorem value_lt (d : Decimal) : d.value < 10 ^ d.point := by
  have hlt : d.coefficient < 10 ^ (Nat.toDigits 10 d.coefficient).length :=
    (Nat.length_toDigits_le_iff (by norm_num) Nat.length_toDigits_pos).1 le_rfl
  rw [value, point, zpow_add₀ (by norm_num), zpow_natCast]
  apply mul_lt_mul_of_pos_right _ (by positivity)
  exact_mod_cast hlt

/-- A decimal whose point stands beyond its digits is a multiple of ten. -/
theorem value_eq_even {d : Decimal}
    (h : ((significantDigits d.coefficient).length : ℤ) < d.point) :
    ∃ k : ℕ, d.value = ((2 * k : ℕ) : ℚ) := by
  obtain ⟨j, hj⟩ :=
    Int.eq_ofNat_of_zero_le (show 0 ≤ d.stripped.exponent - 1 by simp only [stripped]; omega)
  refine ⟨d.stripped.coefficient * 10 ^ j * 5, ?_⟩
  rw [← stripped_value, value,
    show d.stripped.exponent = ((j + 1 : ℕ) : ℤ) by push_cast; omega, zpow_natCast]
  push_cast
  ring

end Decimal

namespace Magnitude

variable {m : Magnitude}

theorem value_eq_natCast {n : ℕ} : m.value = n ↔ m.units = n * 2 ^ 1074 := by
  have hunit : (2 : ℚ) ^ 1074 = ((2 ^ 1074 : ℕ) : ℚ) := by rw [Nat.cast_pow, Nat.cast_ofNat]
  rw [value, div_eq_iff (by positivity), hunit, ← Nat.cast_mul, Nat.cast_inj]

/-- The whole numbers among the magnitudes. -/
theorem isIntegral_of_value {n : ℕ} (h : m.value = n) : m.isIntegral = true ∧ m.floor = n := by
  have hunits := value_eq_natCast.1 h
  have hpos : 0 < 2 ^ 1074 := by positivity
  simp only [isIntegral, floor, natPow_eq, hunits, -Nat.reducePow]
  rw [Nat.mul_mod_left, Nat.mul_div_cancel _ hpos]
  exact ⟨rfl, rfl⟩

theorem value_of_isIntegral (h : m.isIntegral = true) : m.value = m.floor := by
  simp only [isIntegral, natPow_eq, beq_iff_eq, -Nat.reducePow] at h
  simp only [floor, natPow_eq, -Nat.reducePow]
  rw [value, Nat.cast_div (Nat.dvd_of_mod_eq_zero h) (by positivity), Nat.cast_pow, Nat.cast_ofNat]

/-- Even numbers below `2 ^ 54` are doubles. -/
theorem exists_pattern_of_even {k : ℕ} (hne : k ≠ 0) (hlt : k < 2 ^ 53) :
    ∃ b, (ofBits b).value = ((2 * k : ℕ) : ℚ) := by
  have hlog : k.log2 < 53 := (Nat.log2_lt hne).2 hlt
  have hle := Nat.log2_self_le hne
  have hlt' : k < 2 ^ (k.log2 + 1) := Nat.lt_log2_self
  -- the significand is `k` moved up to 53 binary digits
  have hcanonical : (⟨k * 2 ^ (52 - k.log2), 1023 + k.log2⟩ : Magnitude).Canonical := by
    constructor
    · calc k * 2 ^ (52 - k.log2) < 2 ^ (k.log2 + 1) * 2 ^ (52 - k.log2) := by gcongr
        _ = 2 ^ 53 := by rw [← pow_add]; congr 1; omega
    · intro _
      calc 2 ^ 52 = 2 ^ k.log2 * 2 ^ (52 - k.log2) := by rw [← pow_add]; congr 1; omega
        _ ≤ k * 2 ^ (52 - k.log2) := by gcongr
  refine ⟨(⟨k * 2 ^ (52 - k.log2), 1023 + k.log2⟩ : Magnitude).pattern, ?_⟩
  rw [hcanonical.ofBits_pattern, value_eq_natCast, units_eq]
  calc k * 2 ^ (52 - k.log2) * 2 ^ (1023 + k.log2) = k * 2 ^ (1074 + 1) := by
        rw [mul_assoc, ← pow_add]
        congr 2
        omega
    _ = 2 * k * 2 ^ 1074 := by rw [pow_succ, mul_comm (2 ^ 1074) 2, ← mul_assoc, mul_comm k 2]

/-- Whether the decimal is rounded to a whole number below `10 ^ 16`. -/
theorem Canonical.integral_of_even (h : m.Canonical) (hfinite : m.pattern < infinityBits) {k : ℕ}
    (hborders : Borders ((2 * k : ℕ) : ℚ) m.pattern) (hlt : 2 * k < 10 ^ 16) :
    m.isIntegral = true ∧ m.floor < 10 ^ 16 := by
  obtain ⟨b, hb⟩ : ∃ b, (ofBits b).value = ((2 * k : ℕ) : ℚ) := by
    rcases Nat.eq_zero_or_pos k with rfl | hpos
    · exact ⟨0, by simp⟩
    · exact exists_pattern_of_even hpos.ne' (by omega)
  -- the even number is a double, so it is rounded to itself
  have hrounds := Borders.self b
  rw [hb] at hrounds
  have hunique := hborders.roundsTo.unique hrounds.roundsTo
  rw [min_eq_left hfinite.le] at hunique
  have hpattern : m.pattern = b := by omega
  have hvalue : m.value = ((2 * k : ℕ) : ℚ) := by
    rw [← h.ofBits_pattern, hpattern, hb]
  obtain ⟨hintegral, hfloor⟩ := isIntegral_of_value hvalue
  exact ⟨hintegral, by omega⟩

/-- **The text of a finite double is a numeral, and its decimal lies between the borders of the
double.** -/
theorem Canonical.exists_numeral (h : m.Canonical) (hfinite : m.pattern < infinityBits) :
    ∃ n : Numeral, n.text = m.text ∧ Borders n.decimal.value m.pattern := by
  unfold text
  split
  · rename_i hwhole
    simp only [Bool.and_eq_true, decide_eq_true_eq] at hwhole
    refine ⟨⟨Nat.toDigits 10 m.floor, none, none, Nat.toDigits_ne_nil,
      fun c hc => Text.isDigit_of_mem_toDigits hc, by simp⟩, by simp [Numeral.text], ?_⟩
    have hvalue : (⟨Text.ofDigits (Nat.toDigits 10 m.floor), 0⟩ : Decimal).value = m.value := by
      rw [Decimal.value, Text.ofDigits_toDigits, value_of_isIntegral hwhole.1, zpow_zero, mul_one]
    have hself := Borders.self m.pattern
    rw [h.ofBits_pattern, ← hvalue] at hself
    simpa [Numeral.decimal] using hself
  · rename_i hwhole
    have hborders := shortest_borders h
    -- a multiple of ten up to `10 ^ 16` would have been written as a whole number
    have heven : ∀ k : ℕ, m.shortest.value = ((2 * k : ℕ) : ℚ) → ¬ 2 * k < 10 ^ 16 := by
      intro k hk hlt
      rw [hk] at hborders
      obtain ⟨hintegral, hfloor⟩ := h.integral_of_even hfinite hborders hlt
      exact hwhole (by simp only [hintegral, natPow_eq, decide_eq_true hfloor, Bool.and_self])
    have hne : m.shortest.coefficient ≠ 0 := by
      intro hzero
      exact heven 0 (by simp [Decimal.value, hzero]) (by norm_num)
    obtain ⟨n, htext, hdecimal⟩ := Decimal.exists_numeral hne fun hpoint => by
      by_contra hgt
      obtain ⟨k, hk⟩ := Decimal.value_eq_even (not_le.1 hgt)
      apply heven k hk
      have hlt : m.shortest.value < 10 ^ (16 : ℤ) :=
        m.shortest.value_lt.trans_le (zpow_le_zpow_right₀ (by norm_num) hpoint)
      rw [hk] at hlt
      exact_mod_cast hlt
    exact ⟨n, htext, by rwa [hdecimal, Decimal.stripped_value]⟩

end Magnitude

/-! ## The texts of doubles -/

theorem written_eq (x : Float) : written x = String.ofList (Shape.ofFloat x).text := rfl

theorem read?_infinite (negative : Bool) :
    read? (String.ofList (Shape.infinite negative).text) =
      some (Shape.signed negative infinityBits) := by
  have hplain : ∀ c ∈ ['-', 'i', 'n', 'f'], c ∈ numberCharacters := by
    intro c hc
    fin_cases hc <;> decide
  cases negative with
  | false =>
    have hplain' : ∀ c ∈ ['i', 'n', 'f'], c ∈ numberCharacters := fun c hc =>
      hplain c (List.mem_cons_of_mem _ hc)
    exact (read?_plain hplain').trans (by decide +kernel)
  | true => exact (read?_plain hplain).trans (by decide +kernel)

/-- The text of a finite double is a numeral with a sign, and rounding its decimal gives the
double. -/
theorem exists_numeral_of_finite (negative : Bool) {size : ℕ} (hsize : size < infinityBits) :
    ∃ n : Numeral, (Shape.finite negative (ofBits size)).text =
      (if negative then ['-'] else []) ++ n.text ∧ RoundsTo n.decimal.value size := by
  have hpattern := Magnitude.pattern_ofBits size
  obtain ⟨n, htext, hborders⟩ :=
    (Magnitude.canonical_ofBits size).exists_numeral (by rwa [hpattern])
  have hrounds := hborders.roundsTo
  rw [hpattern, min_eq_left hsize.le] at hrounds
  exact ⟨n, by rw [Shape.text, htext], hrounds⟩

/-- **Every text of a double that is not NaN is read as that double.** -/
theorem read?_written {x : Float} (h : x ≠ Float.nan) : read? (written x) = some x := by
  rw [written_eq]
  rcases Shape.ofFloat_cases x with
    ⟨hx, -⟩ | ⟨negative, hx, hshape⟩ | ⟨negative, size, hsize, hx, hshape⟩
  · exact absurd hx h
  · rw [hshape, hx, read?_infinite]
  · obtain ⟨n, htext, hrounds⟩ := exists_numeral_of_finite negative hsize
    -- the decimal is rounded to one double only
    have hnearest := n.decimal.nearest_roundsTo.unique hrounds
    rw [hshape, htext, n.read?_text, hnearest, ← hx]

theorem toString_int (n : ℤ) :
    toString n = String.ofList ((if n < 0 then ['-'] else []) ++ Nat.toDigits 10 n.natAbs) := by
  cases n with
  | ofNat k =>
    rw [if_neg (by simp)]
    exact Nat.toString_eq_ofList_toDigits
  | negSucc k =>
    rw [if_pos (Int.negSucc_lt_zero k), Int.natAbs_negSucc, String.ofList_append,
      ← Nat.toString_eq_ofList_toDigits]
    rfl

/-- A whole number that is not the negative zero is a finite double with its sign. -/
theorem ofFloat_of_integer {x : Float} {n : ℤ}
    (hvalue : (Shape.ofFloat x).value? = some (((n : ℚ) : WithTop ℚ) : WithBot (WithTop ℚ)))
    (hzero : x ≠ -0) :
    ∃ m : Magnitude, Shape.ofFloat x = .finite (decide (n < 0)) m ∧
      m.value = (n.natAbs : ℚ) := by
  rcases Shape.ofFloat_cases x with
    ⟨hx, -⟩ | ⟨negative, hx, hshape⟩ | ⟨negative, size, hsize, hx, hshape⟩
  · exact absurd hx (Shape.ne_nan_of_value? hvalue)
  · rw [hshape, Shape.value?] at hvalue
    cases negative <;> simp at hvalue
  · have hnonneg := (ofBits size).value_nonneg
    rw [hshape, Shape.value?, Option.some.injEq] at hvalue
    have hsigned : (if negative = true then -(ofBits size).value else (ofBits size).value) = n := by
      exact_mod_cast hvalue
    have habs : (ofBits size).value = (n.natAbs : ℚ) := by
      rw [Nat.cast_natAbs, Int.cast_abs, ← hsigned]
      split
      · rw [abs_neg, abs_of_nonneg hnonneg]
      · rw [abs_of_nonneg hnonneg]
    refine ⟨ofBits size, ?_, habs⟩
    cases negative with
    | false =>
      have hn : (0 : ℚ) ≤ n := by rw [← hsigned]; exact hnonneg
      rw [hshape, decide_eq_false (not_lt.2 (by exact_mod_cast hn))]
    | true =>
      have hle : (n : ℚ) ≤ 0 := by rw [← hsigned]; simpa using hnonneg
      have hne : n ≠ 0 := by
        rintro rfl
        apply hzero
        have hsize : size = 0 := Magnitude.value_ofBits_eq_zero (by simpa using habs)
        rw [hx, hsize, Shape.zeros.2]
      have hn : n ≤ 0 := by exact_mod_cast hle
      rw [hshape, decide_eq_true (lt_of_le_of_ne hn hne)]

/-- A whole number below `10 ^ 16` is written with all its digits and nothing else. -/
theorem written_of_integer {x : Float} {n : ℤ}
    (hvalue : (Shape.ofFloat x).value? = some (((n : ℚ) : WithTop ℚ) : WithBot (WithTop ℚ)))
    (hzero : x ≠ -0) (hlt : |n| < 10 ^ 16) : written x = toString n := by
  obtain ⟨m, hshape, habs⟩ := ofFloat_of_integer hvalue hzero
  obtain ⟨hintegral, hfloor⟩ := Magnitude.isIntegral_of_value habs
  have hsmall : m.floor < 10 ^ 16 := by
    rw [Int.abs_eq_natAbs] at hlt
    omega
  rw [written_eq, hshape, Shape.text, Magnitude.text, natPow_eq, hintegral, decide_eq_true hsmall,
    Bool.and_self, if_pos rfl, hfloor, toString_int]
  simp only [decide_eq_true_eq]

/-- **The text of a number determines the number.** Read back it gives the same double, the sign of
zero included: the text of a finite double is a numeral whose decimal is rounded to that double, to
nearest and from the middle to even. So different doubles have different texts. A whole number below
`10 ^ 16` that is not the negative zero is written as an integer. -/
theorem text_determines (x : Float) (notNaN : x.isNaN = false) :
    read? (Number.real x notNaN).text = some x ∧
    (∀ negative size, Shape.ofFloat x = .finite negative size → ∃ n : Numeral,
      (Number.real x notNaN).text = String.ofList ((if negative then ['-'] else []) ++ n.text) ∧
      RoundsTo n.decimal.value size.toBits) ∧
    (∀ (y : Float) (h : y.isNaN = false), (Number.real y h).text = (Number.real x notNaN).text →
      y = x) ∧
    ∀ n : ℤ, (Shape.ofFloat x).value? =
      some (((n : ℚ) : WithTop ℚ) : WithBot (WithTop ℚ)) → x ≠ -0 → |n| < 10 ^ 16 →
        (Number.real x notNaN).text = toString n := by
  have htext : ∀ (y : Float) (h : y.isNaN = false), (Number.real y h).text = written y :=
    fun _ _ => rfl
  simp only [htext]
  refine ⟨read?_written (Shape.isNaN_eq_false.1 notNaN), ?_, ?_, fun n hvalue hzero hlt =>
    written_of_integer hvalue hzero hlt⟩
  · intro negative size hshape
    rcases Shape.ofFloat_cases x with ⟨-, h⟩ | ⟨_, -, h⟩ | ⟨_, bits, hbits, -, h⟩ <;>
      rw [h] at hshape <;> cases hshape
    obtain ⟨n, hn, hrounds⟩ := exists_numeral_of_finite negative hbits
    exact ⟨n, by rw [written_eq, h, hn], by rwa [Magnitude.toBits_ofBits hbits.le]⟩
  · intro y h heq
    have hread := read?_written (Shape.isNaN_eq_false.1 h)
    rw [heq, read?_written (Shape.isNaN_eq_false.1 notNaN)] at hread
    exact (Option.some.inj hread).symm

theorem isNaN_three : (3 : Float).isNaN = false := by decide +kernel

theorem ofFloat_three : Shape.ofFloat 3 = .finite false ⟨3 * 2 ^ 51, 1023⟩ := by decide +kernel

theorem value?_three :
    (Shape.ofFloat 3).value? =
      some ((((3 : ℤ) : ℚ) : WithTop ℚ) : WithBot (WithTop ℚ)) := by
  have hvalue : (⟨3 * 2 ^ 51, 1023⟩ : Magnitude).value = ((3 : ℕ) : ℚ) := by
    rw [Magnitude.value_eq_natCast, Magnitude.units_eq, mul_assoc]
    simp only
    rw [← pow_add]
  rw [ofFloat_three, Shape.value?, if_neg (by decide), hvalue]
  rfl

/-- The double three is written `3`, and both texts and values lead back to it. -/
theorem text_determines_three : (3 : Float).isNaN = false ∧
    read? (Number.real 3 isNaN_three).text = some 3 ∧
    (∃ n : Numeral, (Number.real 3 isNaN_three).text = String.ofList n.text ∧
      RoundsTo n.decimal.value (⟨3 * 2 ^ 51, 1023⟩ : Magnitude).toBits) ∧
    (Number.real 3 isNaN_three).text = toString (3 : ℤ) := by
  obtain ⟨hread, hnumeral, -, hinteger⟩ := text_determines 3 isNaN_three
  exact ⟨isNaN_three, hread, hnumeral false _ ofFloat_three,
    hinteger 3 value?_three (by decide +kernel) (by norm_num)⟩

end Number

end LoxLang
