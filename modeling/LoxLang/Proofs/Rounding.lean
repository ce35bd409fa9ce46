import LoxLang.Proofs.Double

/-!
# Rounding decimals to doubles

`RoundsTo q b` is the rule of IEEE 754 for a number that is not negative: the double is nearest to
the number, and of two nearest ones the even. Infinity takes part with the value `2 ^ 1024` that its
pattern would have.

* `Decimal.value`: the number that a decimal stands for.
* `Borders`: the number lies between the middles to the neighbours of a pattern. The patterns go on
  above infinity here, so the rule is the same for all; `Borders.roundsTo` cuts them off.

Results: `RoundsTo.unique` — there is one double to round to; `Decimal.nearest_roundsTo` — every
decimal is rounded by the rule; `Magnitude.shortest_borders` — the shortest decimal of a magnitude
lies between its borders.
-/

set_option autoImplicit false

namespace LoxLang.Number

open Magnitude (ofBits)

/-- Whether a number that is not negative is rounded to the pattern `b`: to the nearest, and from
the middle to the even one. -/
structure RoundsTo (q : ℚ) (b : ℕ) : Prop where
  le_infinity : b ≤ infinityBits
  nearest : ∀ c ≤ infinityBits, |q - (ofBits b).value| ≤ |q - (ofBits c).value|
  even_of_tie : ∀ c ≤ infinityBits, c ≠ b →
    |q - (ofBits c).value| = |q - (ofBits b).value| → b % 2 = 0

/-- Whether a number lies between the middles to the neighbours of the pattern `b`, the middles
included if the pattern is even. -/
structure Borders (q : ℚ) (b : ℕ) : Prop where
  below : ∀ a, a + 1 = b → (ofBits a).value + (ofBits b).value ≤ 2 * q
  above : 2 * q ≤ (ofBits b).value + (ofBits (b + 1)).value
  even_below : ∀ a, a + 1 = b → (ofBits a).value + (ofBits b).value = 2 * q → b % 2 = 0
  even_above : 2 * q = (ofBits b).value + (ofBits (b + 1)).value → b % 2 = 0

/-- The number that a decimal stands for. -/
def Decimal.value (d : Decimal) : ℚ := d.coefficient * 10 ^ d.exponent

namespace Magnitude

theorem value_strictMono : StrictMono fun b => (ofBits b).value := by
  intro b c hbc
  have hunits : ((ofBits b).units : ℚ) < (ofBits c).units := by
    exact_mod_cast units_strictMono hbc
  exact div_lt_div_of_pos_right hunits (by positivity)

theorem value_le_value {b c : ℕ} (h : b ≤ c) : (ofBits b).value ≤ (ofBits c).value :=
  value_strictMono.monotone h

theorem value_lt_value {b c : ℕ} (h : b < c) : (ofBits b).value < (ofBits c).value :=
  value_strictMono h

end Magnitude

open Magnitude (value_le_value value_lt_value)

/-! ## One double to round to -/

/-- Two doubles that a number may be rounded to are neighbours: one between them would be nearer. -/
theorem RoundsTo.succ_of_lt {q : ℚ} {b c : ℕ} (hb : RoundsTo q b) (hc : RoundsTo q c)
    (hlt : b < c) :
    c = b + 1 := by
  by_contra hne
  have hmid : b + 1 ≤ infinityBits := by
    have := hc.le_infinity
    omega
  have h1 := value_lt_value (Nat.lt_add_one b)
  have h2 := value_lt_value (show b + 1 < c by omega)
  have hnear := hb.nearest (b + 1) hmid
  have hnear' := hc.nearest (b + 1) hmid
  rcases abs_cases (q - (ofBits b).value) with h | h <;>
    rcases abs_cases (q - (ofBits c).value) with h' | h' <;>
    rcases abs_cases (q - (ofBits (b + 1)).value) with h'' | h'' <;> linarith

/-- **There is one double to round to.** -/
theorem RoundsTo.unique {q : ℚ} {b c : ℕ} (hb : RoundsTo q b) (hc : RoundsTo q c) : b = c := by
  by_contra hne
  have hdist : |q - (ofBits b).value| = |q - (ofBits c).value| :=
    le_antisymm (hb.nearest c hc.le_infinity) (hc.nearest b hb.le_infinity)
  have heven := hb.even_of_tie c hc.le_infinity (Ne.symm hne) hdist.symm
  have heven' := hc.even_of_tie b hb.le_infinity hne hdist
  rcases Nat.lt_or_gt_of_ne hne with hlt | hlt
  · have := hb.succ_of_lt hc hlt
    omega
  · have := hc.succ_of_lt hb hlt
    omega

/-! ## From the borders to the rule -/

namespace Borders

variable {q : ℚ} {b : ℕ}

/-- The number is not nearer to a pattern below, and in the middle of the two `b` is even. -/
theorem le_of_lt (h : Borders q b) {c : ℕ} (hc : c < b) :
    |q - (ofBits b).value| ≤ |q - (ofBits c).value| ∧
      (|q - (ofBits c).value| = |q - (ofBits b).value| → b % 2 = 0) := by
  obtain ⟨a, rfl⟩ : ∃ a, b = a + 1 := ⟨b - 1, by omega⟩
  have hca := value_le_value (show c ≤ a by omega)
  have hab := value_lt_value (Nat.lt_add_one a)
  have hbelow := h.below a rfl
  have hcq : (ofBits c).value < q := by linarith
  rw [abs_of_pos (show 0 < q - (ofBits c).value by linarith)]
  constructor
  · exact abs_le.2 ⟨by linarith, by linarith⟩
  · intro htie
    apply h.even_below a rfl
    rcases abs_cases (q - (ofBits (a + 1)).value) with hq | hq <;> linarith

/-- The number is not nearer to a pattern above, and in the middle of the two `b` is even. -/
theorem le_of_gt (h : Borders q b) {c : ℕ} (hc : b < c) :
    |q - (ofBits b).value| ≤ |q - (ofBits c).value| ∧
      (|q - (ofBits c).value| = |q - (ofBits b).value| → b % 2 = 0) := by
  have hbc := value_le_value (show b + 1 ≤ c by omega)
  have hb := value_lt_value (Nat.lt_add_one b)
  have habove := h.above
  rw [abs_of_neg (show q - (ofBits c).value < 0 by linarith)]
  constructor
  · exact abs_le.2 ⟨by linarith, by linarith⟩
  · intro htie
    apply h.even_above
    rcases abs_cases (q - (ofBits b).value) with hq | hq <;> linarith

end Borders

theorem roundsTo_infinity {q : ℚ} (h : (ofBits infinityBits).value ≤ q) :
    RoundsTo q infinityBits := by
  have hdist : ∀ c ≤ infinityBits, |q - (ofBits c).value| = q - (ofBits c).value := by
    intro c hc
    have := value_le_value hc
    exact abs_of_nonneg (by linarith)
  refine ⟨le_rfl, fun c hc => ?_, fun c hc hne htie => ?_⟩
  · rw [hdist c hc, hdist infinityBits le_rfl]
    linarith [value_le_value hc]
  · have := value_lt_value (show c < infinityBits by omega)
    rw [hdist c hc, hdist infinityBits le_rfl] at htie
    linarith

/-- **A number between the borders of a pattern is rounded to it**, or to infinity if the pattern
lies above. -/
theorem Borders.roundsTo {q : ℚ} {b : ℕ} (h : Borders q b) :
    RoundsTo q (min b infinityBits) := by
  rcases le_or_gt b infinityBits with hle | hgt
  · rw [min_eq_left hle]
    refine ⟨hle, fun c _ => ?_, fun c _ hne htie => ?_⟩
    · rcases lt_trichotomy c b with hc | rfl | hc
      · exact (h.le_of_lt hc).1
      · exact le_rfl
      · exact (h.le_of_gt hc).1
    · rcases Nat.lt_or_gt_of_ne hne with hc | hc
      · exact (h.le_of_lt hc).2 htie
      · exact (h.le_of_gt hc).2 htie
  · -- the number is at least half-way from infinity to a pattern above it
    rw [min_eq_right hgt.le]
    have hbelow := h.below (b - 1) (by omega)
    have h1 := value_le_value (show infinityBits ≤ b - 1 by omega)
    have h2 := value_le_value hgt.le
    exact roundsTo_infinity (by linarith)

theorem Borders.self (b : ℕ) : Borders (ofBits b).value b := by
  have hb := value_lt_value (Nat.lt_add_one b)
  refine ⟨fun a ha => ?_, by linarith, fun a ha htie => ?_, fun htie => ?_⟩
  · have := value_lt_value (show a < b by omega)
    linarith
  · have := value_lt_value (show a < b by omega)
    linarith
  · linarith

/-! ## Borders in quarters of a unit -/

namespace Magnitude

/-- A significand after rounding: it may have reached the first one of the next scale. -/
structure Rounded (m : Magnitude) : Prop where
  significand_le : m.significand ≤ 2 ^ 53
  significand_ge : 0 < m.scale → 2 ^ 52 ≤ m.significand

theorem Canonical.rounded {m : Magnitude} (h : m.Canonical) : m.Rounded :=
  ⟨h.significand_lt.le, h.significand_ge⟩

theorem pattern_mod_two (m : Magnitude) : m.pattern % 2 = m.significand % 2 := by
  rw [pattern]
  omega

/-- The scale of the pattern below: one less only at the first significand of a scale. -/
theorem Rounded.scale_below {m : Magnitude} (h : m.Rounded) {a : ℕ} (ha : a + 1 = m.pattern) :
    (ofBits a).scale = if m.significand = 2 ^ 52 ∧ 0 < m.scale then m.scale - 1 else m.scale := by
  have hle := h.significand_le
  have hge := h.significand_ge
  rw [pattern] at ha
  rw [ofBits_scale]
  split <;> omega

/-- The scale of the pattern of a magnitude is its own or, at the end of its significands, the
next. -/
theorem Rounded.scale_le {m : Magnitude} (h : m.Rounded) :
    m.scale ≤ (ofBits m.pattern).scale := by
  have hge := h.significand_ge
  rw [ofBits_scale, pattern]
  omega

theorem lower_eq_two_mul {m : Magnitude} (h : m.Rounded) {a : ℕ} (ha : a + 1 = m.pattern) :
    m.lower = 2 * ((ofBits a).units + m.units) := by
  have hunits : m.units = (ofBits a).units + 2 ^ (ofBits a).scale := by
    rw [← units_ofBits_succ, ha, units_ofBits_pattern h.significand_le h.significand_ge]
  have hpos : 1 ≤ m.significand := by
    by_contra hzero
    have := h.significand_ge
    rw [pattern] at ha
    omega
  have hlower : m.lower = (4 * m.significand -
      if m.significand = 2 ^ 52 ∧ 0 < m.scale then 1 else 2) * 2 ^ m.scale := by
    simp only [lower, natPow_eq, Bool.and_eq_true, decide_eq_true_eq]
  have hm := units_eq m
  rw [h.scale_below ha] at hunits
  rw [hlower]
  by_cases hfirst : m.significand = 2 ^ 52 ∧ 0 < m.scale
  · -- the gap below is half a unit of the last place
    obtain ⟨scale, hscale⟩ : ∃ scale, m.scale = scale + 1 := ⟨m.scale - 1, by omega⟩
    rw [if_pos hfirst] at hunits ⊢
    rw [hscale, Nat.add_sub_cancel] at hunits
    rw [hscale, hfirst.1, pow_succ] at hm
    rw [hscale, hfirst.1, pow_succ]
    omega
  · rw [if_neg hfirst] at hunits ⊢
    obtain ⟨k, hk⟩ : ∃ k, m.significand = k + 1 := ⟨m.significand - 1, by omega⟩
    rw [hk, Nat.add_mul] at hm
    rw [hk, show 4 * (k + 1) - 2 = 4 * k + 2 by omega, Nat.add_mul, Nat.mul_assoc]
    omega

theorem upper_le_two_mul {m : Magnitude} (h : m.Rounded) :
    m.upper ≤ 2 * (m.units + (ofBits (m.pattern + 1)).units) := by
  rw [units_ofBits_succ, units_ofBits_pattern h.significand_le h.significand_ge, units_eq,
    upper, natPow_eq]
  have hgap : 2 ^ m.scale ≤ 2 ^ (ofBits m.pattern).scale :=
    Nat.pow_le_pow_right (by norm_num) h.scale_le
  linarith

end Magnitude

/-- A number between the two borders of a rounded magnitude, counted in quarters of a unit, is
rounded to its pattern. -/
theorem Borders.of_quarters {m : Magnitude} (h : m.Rounded) {q : ℚ}
    (hlower : (m.lower : ℚ) ≤ 2 ^ 1076 * q) (hupper : 2 ^ 1076 * q ≤ m.upper)
    (heven : (m.lower : ℚ) = 2 ^ 1076 * q ∨ 2 ^ 1076 * q = m.upper → m.significand % 2 = 0) :
    Borders q m.pattern := by
  have hunits := Magnitude.units_ofBits_pattern h.significand_le h.significand_ge
  -- the sum of two values in quarters of a unit
  have hsum : ∀ b c : ℕ, 2 ^ 1075 * ((ofBits b).value + (ofBits c).value) =
      ((2 * ((ofBits b).units + (ofBits c).units) : ℕ) : ℚ) := by
    intro b c
    have hpow : (2 : ℚ) ^ 1075 = 2 * 2 ^ 1074 := pow_succ' 2 1074
    rw [Magnitude.value, Magnitude.value, hpow]
    push_cast
    field_simp
  have hpos : (0 : ℚ) < 2 ^ 1075 := by positivity
  have hquarters : 2 ^ 1076 * q = 2 ^ 1075 * (2 * q) := by rw [pow_succ, mul_assoc]
  have hbelow : ∀ a, a + 1 = m.pattern →
      2 ^ 1075 * ((ofBits a).value + (ofBits m.pattern).value) = m.lower := by
    intro a ha
    rw [hsum, hunits, Magnitude.lower_eq_two_mul h ha]
  have habove :
      (m.upper : ℚ) ≤
        2 ^ 1075 * ((ofBits m.pattern).value + (ofBits (m.pattern + 1)).value) := by
    rw [hsum, hunits]
    exact_mod_cast Magnitude.upper_le_two_mul h
  rw [hquarters] at hlower hupper heven
  rw [← Magnitude.pattern_mod_two] at heven
  refine ⟨fun a ha => ?_, ?_, fun a ha htie => ?_, fun htie => ?_⟩
  · rw [← hbelow a ha] at hlower
    exact le_of_mul_le_mul_left hlower hpos
  · exact le_of_mul_le_mul_left (hupper.trans habove) hpos
  · exact heven (.inl (by rw [← htie, hbelow a ha]))
  · rw [← htie] at habove
    exact heven (.inr (le_antisymm hupper habove))

/-- The same for a fraction that counts quarters of a unit. -/
theorem Borders.of_fraction {m : Magnitude} (h : m.Rounded) {q : ℚ} {num den : ℕ}
    (hden : 0 < den)
    (hq : 2 ^ 1076 * q = (num : ℚ) / den) (hlower : m.lower * den ≤ num)
    (hupper : num ≤ m.upper * den)
    (heven : m.lower * den = num ∨ num = m.upper * den → m.significand % 2 = 0) :
    Borders q m.pattern := by
  have hdenQ : (0 : ℚ) < den := by exact_mod_cast hden
  refine Borders.of_quarters h ?_ ?_ ?_ <;> rw [hq]
  · rw [le_div_iff₀ hdenQ]
    exact_mod_cast hlower
  · rw [div_le_iff₀ hdenQ]
    exact_mod_cast hupper
  · rw [eq_div_iff hdenQ.ne', div_eq_iff hdenQ.ne']
    exact_mod_cast heven

/-! ## Rounding a fraction of units -/

/-- The rounded quotient is nearest to the fraction, and in the middle it is even. -/
theorem roundDiv_spec (num : ℕ) {den : ℕ} (hden : 0 < den) :
    2 * num ≤ (2 * roundDiv num den + 1) * den ∧
      2 * roundDiv num den * den ≤ 2 * num + den ∧
        ((2 * roundDiv num den + 1) * den = 2 * num ∨
          2 * roundDiv num den * den = 2 * num + den →
        roundDiv num den % 2 = 0) := by
  have hnum : num = num / den * den + num % den := by
    rw [Nat.mul_comm]; exact (Nat.div_add_mod num den).symm
  have hlt := Nat.mod_lt num hden
  -- the rounded quotient is the quotient or the next number
  have hsplit : ∀ r : ℕ, (2 * r + 1) * den = 2 * (r * den) + den ∧
      2 * r * den = 2 * (r * den) := by
    intro r
    constructor <;> ring
  unfold roundDiv
  simp only
  generalize num / den = q at *
  generalize num % den = r at *
  have hnext : (q + 1) * den = q * den + den := by ring
  split
  · rw [(hsplit q).1, (hsplit q).2]
    omega
  · split
    · rw [(hsplit (q + 1)).1, (hsplit (q + 1)).2, hnext]
      omega
    · rcases Nat.mod_two_eq_zero_or_one q with heven | hodd
      · rw [show q + q % 2 = q by omega, (hsplit q).1, (hsplit q).2]
        omega
      · rw [hodd, (hsplit (q + 1)).1, (hsplit (q + 1)).2, hnext]
        omega

namespace Decimal

variable {num den : ℕ}

theorem nearestUnits_significand (num den : ℕ) : (nearestUnits num den).significand =
    roundDiv num (den * 2 ^ (nearestUnits num den).scale) := by
  simp only [nearestUnits, natPow_eq]

theorem nearestUnits_scale (num den : ℕ) :
    (nearestUnits num den).scale = (num / den).log2 + 1 - 53 := by
  simp only [nearestUnits]

/-- The fraction has at most 53 binary digits at the chosen scale, and exactly as many if the scale
is not zero. -/
theorem nearestUnits_bounds (num : ℕ) (hden : 0 < den) :
    num < 2 ^ 53 * (den * 2 ^ (nearestUnits num den).scale) ∧
      (0 < (nearestUnits num den).scale →
        2 ^ 52 * (den * 2 ^ (nearestUnits num den).scale) ≤ num) := by
  rw [nearestUnits_scale]
  set scale := (num / den).log2 + 1 - 53 with hscale
  constructor
  · have hlog : num / den < 2 ^ ((num / den).log2 + 1) := Nat.lt_log2_self
    have hpow : num / den < 2 ^ (53 + scale) :=
      hlog.trans_le (Nat.pow_le_pow_right (by norm_num) (by omega))
    rw [Nat.div_lt_iff_lt_mul hden, pow_add] at hpow
    linarith
  · intro hpos
    have hne : num / den ≠ 0 := by
      intro hzero
      rw [hzero] at hscale
      simp at hscale
      omega
    have hlog : 2 ^ (52 + scale) ≤ num / den := by
      have := Nat.log2_self_le hne
      rwa [show (num / den).log2 = 52 + scale by omega] at this
    rw [Nat.le_div_iff_mul_le hden, pow_add] at hlog
    linarith

theorem nearestUnits_rounded (hden : 0 < den) : (nearestUnits num den).Rounded := by
  obtain ⟨hlt, hge⟩ := nearestUnits_bounds num hden
  have hpos : 0 < den * 2 ^ (nearestUnits num den).scale := by positivity
  obtain ⟨hle, hle', -⟩ := roundDiv_spec num hpos
  rw [← nearestUnits_significand] at hle hle'
  set unit := den * 2 ^ (nearestUnits num den).scale
  constructor
  · by_contra hgt
    have : (2 ^ 53 + 1) * unit ≤ (nearestUnits num den).significand * unit :=
      Nat.mul_le_mul_right unit (by omega)
    linarith
  · intro hscale
    by_contra hgt
    have : ((nearestUnits num den).significand + 1) * unit ≤ 2 ^ 52 * unit :=
      Nat.mul_le_mul_right unit (by omega)
    have := hge hscale
    linarith

/-- A fraction of units is not below the lower border of the magnitude nearest to it. -/
theorem nearestUnits_lower (num : ℕ) (hden : 0 < den) :
    (nearestUnits num den).lower * den ≤ 4 * num ∧
      ((nearestUnits num den).lower * den = 4 * num →
        (nearestUnits num den).significand % 2 = 0) := by
  obtain ⟨-, hge⟩ := nearestUnits_bounds num hden
  obtain ⟨-, hbelow, heven⟩ :=
    roundDiv_spec num (show 0 < den * 2 ^ (nearestUnits num den).scale by positivity)
  rw [← nearestUnits_significand] at hbelow heven
  rw [Magnitude.lower]
  generalize nearestUnits num den = m at *
  simp only [natPow_eq, Bool.and_eq_true, decide_eq_true_eq]
  split
  · rename_i hfirst
    -- at the first significand of a scale the fraction is not below the magnitude
    rw [hfirst.1]
    refine ⟨?_, fun _ => rfl⟩
    have hscale := hge hfirst.2
    have : (4 * 2 ^ 52 - 1) * 2 ^ m.scale ≤ 4 * 2 ^ 52 * 2 ^ m.scale :=
      Nat.mul_le_mul_right _ (by omega)
    nlinarith
  · rcases Nat.eq_zero_or_pos m.significand with hzero | hpos
    · simp [hzero]
    · obtain ⟨k, hk⟩ : ∃ k, m.significand = k + 1 := ⟨m.significand - 1, by omega⟩
      rw [hk] at hbelow heven ⊢
      rw [show 4 * (k + 1) - 2 = 4 * k + 2 by omega]
      exact ⟨by linarith, fun heq => heven (.inr (by linarith))⟩

/-- A fraction of units is not above the upper border of the magnitude nearest to it. -/
theorem nearestUnits_upper (num : ℕ) (hden : 0 < den) :
    4 * num ≤ (nearestUnits num den).upper * den ∧
      (4 * num = (nearestUnits num den).upper * den →
        (nearestUnits num den).significand % 2 = 0) := by
  obtain ⟨habove, -, heven⟩ :=
    roundDiv_spec num (show 0 < den * 2 ^ (nearestUnits num den).scale by positivity)
  rw [← nearestUnits_significand] at habove heven
  rw [Magnitude.upper, natPow_eq]
  exact ⟨by linarith, fun heq => heven (.inl (by linarith))⟩

/-- A fraction of units is rounded to the pattern of the magnitude nearest to it. -/
theorem nearestUnits_borders (num : ℕ) (hden : 0 < den) :
    Borders (num / den / 2 ^ 1074 : ℚ) (nearestUnits num den).pattern := by
  obtain ⟨hlower, hlower_even⟩ := nearestUnits_lower num hden
  obtain ⟨hupper, hupper_even⟩ := nearestUnits_upper num hden
  have hquarters : (2 : ℚ) ^ 1076 * (num / den / 2 ^ 1074) = ((4 * num : ℕ) : ℚ) / den := by
    rw [show (2 : ℚ) ^ 1076 =
      4 * 2 ^ 1074 by rw [show (1076 : ℕ) = 2 + 1074 from rfl, pow_add]; norm_num]
    push_cast
    field_simp
  refine Borders.of_fraction (nearestUnits_rounded hden) hden hquarters hlower hupper ?_
  rintro (heq | heq)
  · exact hlower_even heq
  · exact hupper_even heq

/-! ## Every decimal is rounded by the rule -/

theorem denominator_pos (d : Decimal) : 0 < d.denominator := by
  rw [denominator, natPow_eq]
  positivity

theorem value_eq_div (d : Decimal) : d.value = d.numerator / d.denominator := by
  rw [value, numerator, denominator, natPow_eq, natPow_eq]
  push_cast
  rcases le_total 0 d.exponent with hpos | hneg
  · obtain ⟨n, hn⟩ := Int.eq_ofNat_of_zero_le hpos
    rw [hn, zpow_natCast]
    simp
  · obtain ⟨n, hn⟩ := Int.eq_ofNat_of_zero_le (show 0 ≤ -d.exponent by omega)
    rw [show d.exponent = -(n : ℤ) by omega, zpow_neg, zpow_natCast]
    simp [div_eq_mul_inv]

theorem value_infinity : (ofBits infinityBits).value = 2 ^ 1024 := by
  have hunits : (ofBits infinityBits).units = 2 ^ 52 * 2 ^ 2046 := by
    rw [Magnitude.units_eq, show ofBits infinityBits = ⟨2 ^ 52, 2046⟩ by decide +kernel]
  rw [Magnitude.value, hunits, div_eq_iff (by positivity), Nat.cast_mul, Nat.cast_pow, Nat.cast_pow,
    Nat.cast_ofNat, ← pow_add, ← pow_add]

/-- A decimal with an exponent above 400 is beyond the finite doubles. -/
theorem infinity_of_exponent {d : Decimal} (hne : d.coefficient ≠ 0) (h : 400 < d.exponent) :
    RoundsTo d.value infinityBits := by
  apply roundsTo_infinity
  have hcoefficient : (1 : ℚ) ≤ d.coefficient := by exact_mod_cast Nat.one_le_iff_ne_zero.2 hne
  have hnat : 2 ^ 1024 ≤ 10 ^ 400 := by decide +kernel
  calc (ofBits infinityBits).value = 2 ^ 1024 := value_infinity
    _ ≤ 10 ^ 400 := by exact_mod_cast hnat
    _ ≤ 10 ^ d.exponent := by
      rw [← zpow_natCast]
      exact zpow_le_zpow_right₀ (by norm_num) (by omega)
    _ ≤ d.coefficient * 10 ^ d.exponent := le_mul_of_one_le_left (by positivity) hcoefficient

/-- A decimal with so small an exponent that its digits do not reach the first 400 places is nearer
to zero than half a unit. -/
theorem zero_of_exponent {d : Decimal} (h : d.exponent < -(400 + d.coefficient.log2 : ℤ)) :
    Borders d.value 0 := by
  have hcoefficient : (d.coefficient : ℚ) ≤ 10 ^ ((d.coefficient.log2 : ℤ) + 1) := by
    have hlog : d.coefficient < 2 ^ (d.coefficient.log2 + 1) := Nat.lt_log2_self
    have hten : 2 ^ (d.coefficient.log2 + 1) ≤ 10 ^ (d.coefficient.log2 + 1) :=
      Nat.pow_le_pow_left (by norm_num) _
    rw [show (d.coefficient.log2 : ℤ) + 1 =
      ((d.coefficient.log2 + 1 : ℕ) : ℤ) by push_cast; rfl, zpow_natCast]
    exact_mod_cast (hlog.trans_le hten).le
  have hvalue : d.value ≤ 10 ^ (-400 : ℤ) :=
    calc (d.coefficient : ℚ) * 10 ^ d.exponent
        ≤ 10 ^ ((d.coefficient.log2 : ℤ) + 1) * 10 ^ (-401 - d.coefficient.log2 : ℤ) := by
          apply mul_le_mul hcoefficient _ (by positivity) (by positivity)
          exact zpow_le_zpow_right₀ (by norm_num) (by omega)
      _ = 10 ^ (-400 : ℤ) := by
          rw [← zpow_add₀ (by norm_num)]
          congr 1
          ring
  have hunit : (2 : ℚ) * 10 ^ (-400 : ℤ) ≤ (ofBits 1).value := by
    have hnat : 2 * 2 ^ 1074 ≤ 10 ^ 400 := by decide +kernel
    have hone : (ofBits 1).units = 1 := by decide
    rw [Magnitude.value, hone, zpow_neg, Nat.cast_one, ← div_eq_mul_inv,
      div_le_div_iff₀ (by positivity) (by positivity), one_mul]
    exact_mod_cast hnat
  refine ⟨fun a ha => by omega, ?_, fun a ha => by omega, fun _ => rfl⟩
  rw [Magnitude.value_ofBits_zero]
  linarith

/-- **Every decimal is rounded by the rule.** -/
theorem nearest_roundsTo (d : Decimal) : RoundsTo d.value d.nearest := by
  unfold nearest
  split
  · rename_i hzero
    have hvalue : d.value = (ofBits 0).value := by simp [value, hzero]
    rw [hvalue]
    exact (Borders.self 0).roundsTo
  · rename_i hne
    split
    · exact infinity_of_exponent hne ‹_›
    · split
      · exact (zero_of_exponent ‹_›).roundsTo
      · have hborders := nearestUnits_borders (d.numerator * 2 ^ 1074) d.denominator_pos
        simp only [natPow_eq, -Nat.reducePow]
        rw [Nat.cast_mul, Nat.cast_pow, Nat.cast_ofNat, mul_div_right_comm,
          mul_div_cancel_right₀ _ (by positivity), ← value_eq_div] at hborders
        rw [Magnitude.toBits_eq]
        exact hborders.roundsTo

end Decimal

/-! ## The decimals that read back -/

namespace Magnitude

variable {m : Magnitude}

/-- Between two borders, which belong to the range if `significand` is even. -/
theorem between_iff (lo x hi significand : ℕ) :
    (if significand % 2 = 0 then decide (lo ≤ x) && decide (x ≤ hi)
      else decide (lo < x) && decide (x < hi)) = true ↔
        lo ≤ x ∧ x ≤ hi ∧ (lo = x ∨ x = hi → significand % 2 = 0) := by
  split <;> simp only [Bool.and_eq_true, decide_eq_true_eq] <;> omega

theorem readsBack_iff (m : Magnitude) (d : Decimal) : m.readsBack d = true ↔
    m.lower * d.denominator ≤ d.numerator * 2 ^ 1076 ∧
      d.numerator * 2 ^ 1076 ≤ m.upper * d.denominator ∧
        (m.lower * d.denominator = d.numerator * 2 ^ 1076 ∨
          d.numerator * 2 ^ 1076 = m.upper * d.denominator → m.significand % 2 = 0) := by
  simp only [readsBack, natPow_eq, between_iff, -Nat.reducePow]

/-- A decimal that reads back lies between the borders of the magnitude. -/
theorem borders_of_readsBack (h : m.Rounded) {d : Decimal} (hd : m.readsBack d = true) :
    Borders d.value m.pattern := by
  have hquarters : 2 ^ 1076 * d.value = ((d.numerator * 2 ^ 1076 : ℕ) : ℚ) / d.denominator := by
    rw [Decimal.value_eq_div, Nat.cast_mul, Nat.cast_pow, Nat.cast_ofNat, mul_div_assoc', mul_comm]
  obtain ⟨hlower, hupper, heven⟩ := (readsBack_iff m d).1 hd
  exact Borders.of_fraction h d.denominator_pos hquarters hlower hupper heven

/-- All digits of a magnitude stand for it exactly. -/
theorem exact_value (m : Magnitude) : m.exact.value = m.value := by
  simp only [Decimal.value, exact, value, natPow_eq, -Nat.reducePow]
  rw [show (-1074 : ℤ) = -((1074 : ℕ) : ℤ) from rfl, zpow_neg,
    zpow_natCast, ← div_eq_mul_inv, div_eq_div_iff (by positivity) (by positivity)]
  rw [Nat.cast_mul, Nat.cast_pow, Nat.cast_ofNat, mul_assoc, ← mul_pow]
  norm_num

theorem readsBack_of_multiple? {e : ℤ} {d : Decimal} (h : m.multiple? e = some d) :
    m.readsBack d = true := by
  unfold multiple? at h
  simp only at h
  split at h
  · rename_i hbelow
    obtain rfl := Option.some.inj h
    simp only [Bool.and_eq_true] at hbelow
    exact hbelow.1
  · split at h
    · obtain rfl := Option.some.inj h
      assumption
    · cases h

/-- **The shortest decimal of a magnitude is rounded to it.** -/
theorem shortest_borders (h : m.Canonical) : Borders m.shortest.value m.pattern := by
  unfold shortest
  simp only
  cases hfound : (List.range 17).findSome? fun n : ℕ =>
    m.multiple? (m.pointPosition - (n + 1)) with
  | some d =>
    obtain ⟨n, -, hn⟩ := List.exists_of_findSome?_eq_some hfound
    rw [Option.getD_some]
    exact borders_of_readsBack h.rounded (readsBack_of_multiple? hn)
  | none =>
    rw [Option.getD_none, exact_value, ← h.ofBits_pattern, pattern_ofBits]
    exact Borders.self _

end Magnitude

end LoxLang.Number
