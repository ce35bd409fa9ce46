import LoxLang.Number
import Mathlib

/-!
# The values of doubles

A finite double without its sign is a whole number of units of `2 ^ (-1074)`, and the patterns below
`infinityBits` list these numbers in order: from one pattern to the next the value grows by the
power of two that its scale names.

* `Magnitude.pattern`: the place of a magnitude in that order.
* `Magnitude.Canonical`: the magnitudes that a pattern stands for, each in one way.
* `Magnitude.value`, `Shape.value?`: the rational or infinite number that a double stands for.

Results: `Magnitude.units_strictMono` — larger patterns have larger values;
`Shape.toFloat_ofFloat` — a double is put together from its parts again; `Shape.value?_isSome` —
every double but NaN has a value; `Shape.beq_iff_value` — two doubles are equal in the sense of
IEEE 754 exactly if they have a value and it is the same.
-/

set_option autoImplicit false

namespace LoxLang.Number

/-- The powers of the definitions in the form that the laws of powers are stated for. -/
theorem natPow_eq (b k : ℕ) : Nat.pow b k = b ^ k := rfl

theorem infinityBits_eq : infinityBits = 2047 * 2 ^ 52 := rfl

/-! ## Patterns and their values -/

namespace Magnitude

/-- The pattern of a magnitude as if there were one for every scale. -/
def pattern (m : Magnitude) : ℕ := m.scale * 2 ^ 52 + m.significand

/-- The magnitudes that patterns stand for: no significand has more than 53 binary digits, and only
those of scale zero have fewer. -/
structure Canonical (m : Magnitude) : Prop where
  significand_lt : m.significand < 2 ^ 53
  significand_ge : 0 < m.scale → 2 ^ 52 ≤ m.significand

/-- The number that a magnitude stands for. -/
def value (m : Magnitude) : ℚ := m.units / 2 ^ 1074

theorem units_eq (m : Magnitude) : m.units = m.significand * 2 ^ m.scale := rfl

theorem toBits_eq (m : Magnitude) : m.toBits = min m.pattern infinityBits := rfl

theorem ofBits_scale (b : ℕ) : (ofBits b).scale = b / 2 ^ 52 - 1 := rfl

theorem ofBits_significand (b : ℕ) : (ofBits b).significand = b - (b / 2 ^ 52 - 1) * 2 ^ 52 := rfl

@[simp] theorem pattern_ofBits (b : ℕ) : (ofBits b).pattern = b := by
  rw [pattern, ofBits_scale, ofBits_significand]
  omega

theorem canonical_ofBits (b : ℕ) : (ofBits b).Canonical := by
  constructor
  · rw [ofBits_significand]
    omega
  · intro hscale
    rw [ofBits_scale] at hscale
    rw [ofBits_significand]
    omega

theorem toBits_ofBits {b : ℕ} (h : b ≤ infinityBits) : (ofBits b).toBits = b := by
  rw [toBits_eq, pattern_ofBits]
  exact min_eq_left h

/-- A canonical magnitude is the one of its pattern. -/
theorem Canonical.ofBits_pattern {m : Magnitude} (h : m.Canonical) : ofBits m.pattern = m := by
  obtain ⟨significand, scale⟩ := m
  obtain ⟨hlt, hge⟩ := h
  simp only at hlt hge
  have hdiv : (scale * 2 ^ 52 + significand) / 2 ^ 52 - 1 = scale := by omega
  simp only [pattern, Magnitude.mk.injEq, ofBits, natPow_eq, hdiv, and_true]
  omega

/-- From a pattern to the next the value grows by one unit of the last place. -/
theorem units_ofBits_succ (b : ℕ) :
    (ofBits (b + 1)).units = (ofBits b).units + 2 ^ (ofBits b).scale := by
  rw [units_eq, units_eq, ofBits_significand, ofBits_significand, ofBits_scale, ofBits_scale]
  -- the scale grows only where the significand has run through all its values
  obtain hsame | ⟨hnext, hlast⟩ : (b + 1) / 2 ^ 52 - 1 = b / 2 ^ 52 - 1 ∨
      (b + 1) / 2 ^ 52 - 1 = b / 2 ^ 52 - 1 + 1 ∧ b - (b / 2 ^ 52 - 1) * 2 ^ 52 = 2 ^ 53 - 1 := by
    omega
  · rw [hsame, show b + 1 - (b / 2 ^ 52 - 1) * 2 ^ 52 = b - (b / 2 ^ 52 - 1) * 2 ^ 52 + 1 by omega]
    ring
  · rw [hnext, hlast, show b + 1 - (b / 2 ^ 52 - 1 + 1) * 2 ^ 52 = 2 ^ 52 by omega, pow_succ]
    ring

/-- **Larger patterns have larger values.** -/
theorem units_strictMono : StrictMono fun b => (ofBits b).units := by
  refine strictMono_nat_of_lt_succ fun b => ?_
  rw [units_ofBits_succ]
  have := Nat.two_pow_pos (ofBits b).scale
  omega

/-- A significand that has reached `2 ^ 53` counts as many units as the next scale gives it. -/
theorem units_ofBits_pattern {m : Magnitude} (hle : m.significand ≤ 2 ^ 53)
    (hge : 0 < m.scale → 2 ^ 52 ≤ m.significand) : (ofBits m.pattern).units = m.units := by
  by_cases hlt : m.significand < 2 ^ 53
  · rw [Canonical.ofBits_pattern ⟨hlt, hge⟩]
  · obtain ⟨significand, scale⟩ := m
    obtain rfl : significand = 2 ^ 53 := by
      simp only at hle hlt
      omega
    have hnext : (⟨2 ^ 53, scale⟩ : Magnitude).pattern =
        (⟨2 ^ 52, scale + 1⟩ : Magnitude).pattern := by
      simp only [pattern]
      omega
    rw [hnext, Canonical.ofBits_pattern ⟨by norm_num, fun _ => le_rfl⟩, units_eq, units_eq]
    ring

/-! ### Values -/

theorem value_nonneg (m : Magnitude) : 0 ≤ m.value := by
  unfold value
  positivity

theorem value_ofBits_inj {b c : ℕ} (h : (ofBits b).value = (ofBits c).value) : b = c := by
  have hunits : ((ofBits b).units : ℚ) = (ofBits c).units := by
    simpa [value, div_left_inj' (show (2 : ℚ) ^ 1074 ≠ 0 by positivity)] using h
  exact units_strictMono.injective (by exact_mod_cast hunits)

@[simp] theorem value_ofBits_zero : (ofBits 0).value = 0 := by
  simp [value, units_eq, ofBits_significand]

theorem value_ofBits_eq_zero {b : ℕ} (h : (ofBits b).value = 0) : b = 0 :=
  value_ofBits_inj (by rw [h, value_ofBits_zero])

end Magnitude

/-! ## Doubles and their parts -/

namespace Shape

/-- The pattern of a NaN lies above the one of infinity, whatever its sign. -/
theorem eq_nan_of_bits {x : Float} (h : infinityBits < x.toBits.toNat % 2 ^ 63) :
    x = Float.nan := by
  rw [infinityBits_eq] at h
  have hlt := x.toBits.toNat_lt
  rw [← Float.toBits_inj, ← UInt64.toBitVec_inj]
  apply x.toModel.valid.eq_packedNaN
  · -- all bits of the exponent are set
    rw [Float.Model.UnpackedFloat.unpackExponent_def, ← BitVec.toNat_inj,
      BitVec.extractLsb'_toNat, Nat.shiftRight_eq_div_pow]
    show x.toBits.toNat / 2 ^ 52 % 2 ^ 11 = 2047
    omega
  · rw [Float.Model.UnpackedFloat.unpackMantissa_def, ne_eq, ← BitVec.toNat_inj,
      BitVec.extractLsb'_toNat, Nat.shiftRight_eq_div_pow]
    show ¬ x.toBits.toNat / 2 ^ 0 % 2 ^ 52 = 0
    omega

theorem isNaN_eq_false {x : Float} : x.isNaN = false ↔ x ≠ Float.nan := by
  rw [Float.isNaN_eq_decide_eq_nan, decide_eq_false_iff_not]

theorem ofFloat_nan : ofFloat Float.nan = .nan := by decide +kernel

theorem toFloat_nan : toFloat .nan = Float.nan := by decide +kernel

/-- The sign and the pattern without it make up the pattern of a double. -/
theorem signed_toBits (x : Float) :
    signed (decide (2 ^ 63 ≤ x.toBits.toNat)) (x.toBits.toNat % 2 ^ 63) = x := by
  have hlt := x.toBits.toNat_lt
  have hbits :
      (if decide (2 ^ 63 ≤ x.toBits.toNat) = true then Nat.pow 2 63 + x.toBits.toNat % 2 ^ 63
        else x.toBits.toNat % 2 ^ 63) = x.toBits.toNat := by
    simp only [decide_eq_true_eq, natPow_eq]
    split <;> omega
  rw [signed, hbits, UInt64.ofNat_toNat, Float.ofBits_toBits]

/-- The parts of a double: NaN, or the sign and the pattern of what is left. -/
theorem ofFloat_cases (x : Float) :
    (x = Float.nan ∧ ofFloat x = .nan) ∨
    (∃ negative, x = signed negative infinityBits ∧ ofFloat x = .infinite negative) ∨
    ∃ negative size, size < infinityBits ∧ x = signed negative size ∧
      ofFloat x = .finite negative (.ofBits size) := by
  have hsigned := signed_toBits x
  have hshape : ofFloat x = if x.toBits.toNat % 2 ^ 63 < infinityBits then
        .finite (decide (2 ^ 63 ≤ x.toBits.toNat)) (.ofBits (x.toBits.toNat % 2 ^ 63))
      else if x.toBits.toNat % 2 ^ 63 = infinityBits
        then .infinite (decide (2 ^ 63 ≤ x.toBits.toNat))
      else .nan := rfl
  rcases lt_trichotomy (x.toBits.toNat % 2 ^ 63) infinityBits with hlt | heq | hgt
  · rw [if_pos hlt] at hshape
    exact .inr (.inr ⟨_, _, hlt, hsigned.symm, hshape⟩)
  · rw [if_neg (by omega), if_pos heq] at hshape
    rw [heq] at hsigned
    exact .inr (.inl ⟨_, hsigned.symm, hshape⟩)
  · rw [if_neg (by omega), if_neg (by omega)] at hshape
    exact .inl ⟨eq_nan_of_bits hgt, hshape⟩

/-- **A double is put together from its parts again.** -/
theorem toFloat_ofFloat (x : Float) : (ofFloat x).toFloat = x := by
  rcases ofFloat_cases x with
    ⟨rfl, h⟩ | ⟨negative, hx, h⟩ | ⟨negative, size, hsize, hx, h⟩
  · rw [h, toFloat_nan]
  · rw [h, hx, toFloat]
  · rw [h, hx, toFloat, Magnitude.toBits_ofBits hsize.le]

/-! ### Values -/

/-- The number that a double stands for: none if it is NaN, and the same for the two zeros. -/
def value? : Shape → Option (WithBot (WithTop ℚ))
  | .nan => none
  | .infinite negative => some (if negative then ⊥ else ⊤)
  | .finite negative size =>
    some ((if negative then -size.value else size.value : ℚ) : WithTop ℚ)

/-- The two zeros have the pattern zero without their sign. -/
theorem zeros : (0 : Float) = signed false 0 ∧ (-0 : Float) = signed true 0 := by decide +kernel

theorem value?_zeros : (ofFloat 0).value? = some ((0 : ℚ) : WithTop ℚ) ∧
    (ofFloat (-0)).value? = some ((0 : ℚ) : WithTop ℚ) := by
  rw [show ofFloat 0 = .finite false (.ofBits 0) by decide +kernel,
    show ofFloat (-0) = .finite true (.ofBits 0) by decide +kernel]
  simp [value?]

theorem value?_isSome {x : Float} (h : x ≠ Float.nan) : ∃ v, (ofFloat x).value? = some v := by
  rcases ofFloat_cases x with ⟨hx, -⟩ | ⟨negative, -, h⟩ | ⟨negative, size, -, -, h⟩
  · exact absurd hx h
  · exact ⟨_, by rw [h, value?]⟩
  · exact ⟨_, by rw [h, value?]⟩

theorem ne_nan_of_value? {x : Float} {v : WithBot (WithTop ℚ)} (h : (ofFloat x).value? = some v) :
    x ≠ Float.nan := by
  rintro rfl
  rw [ofFloat_nan] at h
  cases h

/-- The doubles with a given value. -/
theorem value?_cases {x : Float} {v : WithBot (WithTop ℚ)} (h : (ofFloat x).value? = some v) :
    (∃ negative, x = signed negative infinityBits ∧ v = if negative then ⊥ else ⊤) ∨
    ∃ negative size, size < infinityBits ∧ x = signed negative size ∧
      v =
        ((if negative then -(Magnitude.ofBits size).value
          else (Magnitude.ofBits size).value : ℚ) :
        WithTop ℚ) := by
  rcases ofFloat_cases x with
    ⟨hx, -⟩ | ⟨negative, hx, hshape⟩ | ⟨negative, size, hsize, hx, hshape⟩
  · exact absurd hx (ne_nan_of_value? h)
  · rw [hshape, value?, Option.some.injEq] at h
    exact .inl ⟨negative, hx, h.symm⟩
  · rw [hshape, value?, Option.some.injEq] at h
    exact .inr ⟨negative, size, hsize, hx, h.symm⟩

/-- Only the two zeros have a value in common. -/
theorem eq_or_zeros_of_value? {x y : Float} {v : WithBot (WithTop ℚ)}
    (hx : (ofFloat x).value? = some v) (hy : (ofFloat y).value? = some v) :
    x = y ∨ (x = 0 ∧ y = -0) ∨ (x = -0 ∧ y = 0) := by
  obtain ⟨zero, negZero⟩ := zeros
  rcases value?_cases hx with ⟨a, rfl, rfl⟩ | ⟨a, m, -, rfl, rfl⟩ <;>
    rcases value?_cases hy with ⟨b, rfl, h⟩ | ⟨b, n, -, rfl, h⟩
  · -- two infinities
    cases a <;> cases b <;> simp at h ⊢
  · cases a <;> simp at h
  · cases b <;> simp at h
  · -- two finite doubles; with different signs both are zero
    have hm := (Magnitude.ofBits m).value_nonneg
    have hn := (Magnitude.ofBits n).value_nonneg
    have hvalue : (if a = true then -(Magnitude.ofBits m).value else (Magnitude.ofBits m).value) =
        if b = true then -(Magnitude.ofBits n).value else (Magnitude.ofBits n).value := by
      exact_mod_cast h
    cases a <;> cases b <;> simp only [Bool.false_eq_true, if_true, if_false] at hvalue
    · exact .inl (by rw [Magnitude.value_ofBits_inj hvalue])
    · obtain rfl :=
        Magnitude.value_ofBits_eq_zero (show (Magnitude.ofBits m).value = 0 by linarith)
      obtain rfl := Magnitude.value_ofBits_eq_zero (show (Magnitude.ofBits n).value = 0 by linarith)
      exact .inr (.inl ⟨zero.symm, negZero.symm⟩)
    · obtain rfl :=
        Magnitude.value_ofBits_eq_zero (show (Magnitude.ofBits m).value = 0 by linarith)
      obtain rfl := Magnitude.value_ofBits_eq_zero (show (Magnitude.ofBits n).value = 0 by linarith)
      exact .inr (.inr ⟨negZero.symm, zero.symm⟩)
    · exact .inl (by rw [Magnitude.value_ofBits_inj (neg_injective hvalue)])

/-- **Two doubles are equal in the sense of IEEE 754 exactly if they have a value and it is the
same.** -/
theorem beq_iff_value {x y : Float} :
    (x == y) = true ↔ ∃ v, (ofFloat x).value? = some v ∧ (ofFloat y).value? = some v := by
  rw [Float.beq_iff_ne_nan_and_eq]
  constructor
  · rintro ⟨hx, hy, rfl | ⟨rfl, rfl⟩ | ⟨rfl, rfl⟩⟩
    · obtain ⟨v, hv⟩ := value?_isSome hx
      exact ⟨v, hv, hv⟩
    · exact ⟨_, value?_zeros.1, value?_zeros.2⟩
    · exact ⟨_, value?_zeros.2, value?_zeros.1⟩
  · rintro ⟨v, hx, hy⟩
    exact ⟨ne_nan_of_value? hx, ne_nan_of_value? hy, eq_or_zeros_of_value? hx hy⟩

end Shape

end LoxLang.Number
