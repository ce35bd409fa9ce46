import LoxLang.Proofs.Double
import LoxLang.Value.Operator

/-!
# Equality of values

Two values are compared within their type: booleans and strings as such, numbers as the rationals
and infinities that they stand for, a NaN by the computation that made it, native functions by name
and number of arguments, declared functions by their marks.

* `ValueType`, `Value.type`: the six types.
* `Value.Same`: the rule that two values are equal exactly if they are the same nil, boolean,
  string, number in the sense of IEEE 754, or function.
* `Value.SameNaN`, `Value.AlikeNatives`: what counts as equal besides.
* `Number.Computed`: a number that a computation has made, and whether that was a division by zero.

Results: `Value.equal_refl`, `Value.equal_symm`, `Value.equal_trans`, `Value.type_eq_of_equal` —
equality is an equivalence that respects types; `Value.equal_iff` — it is the rule, and what
counts besides; `Number.Computed.equal_iff` — NaNs of different computations are equal if both
divided by zero.
-/

set_option autoImplicit false

namespace LoxLang

/-- The types of values. -/
inductive ValueType where
  | nil | boolean | number | string | native | function
deriving DecidableEq, Repr

/-- The type of a value. -/
def Value.type : Value → ValueType
  | .nil => .nil
  | .bool _ => .boolean
  | .number _ => .number
  | .string _ => .string
  | .native _ => .native
  | .function _ => .function

/-! ## Numbers -/

namespace Number

variable {a b c : Number}

/-- What a number stands for; a NaN stands for nothing. -/
def value? (a : Number) : Option (WithBot (WithTop ℚ)) := (Shape.ofFloat a.toFloat).value?

theorem value?_nan (mark : ℕ) : (Number.nan mark).value? = none := by
  rw [value?, toFloat, Shape.toFloat_nan, Shape.ofFloat_nan, Shape.value?]

theorem equal_refl (a : Number) : a.equal a = true := by
  cases a with
  | real x notNaN => exact Float.beq_self_iff.2 (Shape.isNaN_eq_false.1 notNaN)
  | nan mark => simp [equal]

theorem equal_symm (h : a.equal b = true) : b.equal a = true := by
  cases a <;> cases b <;> simp only [equal, Bool.false_eq_true] at h ⊢
  · exact BEq.symm h
  · exact BEq.symm h

theorem equal_trans (h : a.equal b = true) (k : b.equal c = true) : a.equal c = true := by
  cases a <;> cases b <;> simp only [equal, Bool.false_eq_true] at h <;> cases c <;>
    simp only [equal, Bool.false_eq_true] at k ⊢
  · exact BEq.trans h k
  · exact BEq.trans h k

/-- Numbers are equal if they stand for the same number, or are one NaN. -/
theorem equal_iff : a.equal b = true ↔
    (∃ v, a.value? = some v ∧ b.value? = some v) ∨
      ∃ mark, a = .nan mark ∧ b = .nan mark := by
  cases a with
  | nan i =>
    cases b with
    | nan j =>
      simp only [equal, value?_nan, beq_iff_eq, reduceCtorEq, false_and, exists_false, false_or,
        Number.nan.injEq]
      exact ⟨fun h => ⟨j, h, rfl⟩, fun ⟨_, hi, hj⟩ => hi.trans hj.symm⟩
    | real y hy => simp [equal, value?_nan]
  | real x hx =>
    cases b with
    | nan j => simp [equal, value?_nan]
    | real y hy => simpa [equal, value?, toFloat] using Shape.beq_iff_value

theorem value?_eq_none : a.value? = none ↔ ∃ mark, a = .nan mark := by
  cases a with
  | nan mark => simp [value?_nan]
  | real x notNaN =>
    obtain ⟨v, hv⟩ := Shape.value?_isSome (Shape.isNaN_eq_false.1 notNaN)
    simp [value?, toFloat, hv]

/-! ### Computed numbers -/

/-- Whether an operator divides by a number that is equal to zero. -/
def byZero (op : String) : Value → Bool
  | .number z => op == "/" && z.toFloat == 0
  | _ => false

/-- A number that the computation `mark` has made, by an operator or otherwise, and whether that was
a division by zero. -/
inductive Computed (mark : ℕ) : Bool → Number → Prop
  | binary {op : String} {left right : Value} {x : Number}
    (result : applyBinary mark op left right = .ok (.number x)) : Computed mark (byZero op right) x
  | unary {op : String} {operand : Value} {x : Number}
    (result : applyUnary mark op operand = .ok (.number x)) : Computed mark false x
  | given (x : Float) : Computed mark false (ofFloat mark x)

theorem ofFloat_eq_nan {mark other : ℕ} {x : Float} (h : ofFloat mark x = .nan other) :
    other = mark := by
  unfold ofFloat at h
  split at h
  · cases h
  · exact (Number.nan.inj h).symm

theorem applyBinary_ofFloat {mark : ℕ} {op : String} {left right : Value}
    (h : applyBinary mark op left right = .ok (.number a)) :
    ∃ x, a = ofFloat (if byZero op right then divisionMark else mark) x := by
  -- an operator on numbers first asks for two numbers
  have asked {op : String} {result : Number × Number → Value}
      (h : (numbers op left right >>= fun p => .ok (result p)) = .ok (.number a)) :
      ∃ x y, right = .number y ∧ result (x, y) = .number a := by
    cases left <;> cases right <;> first | cases h | exact ⟨_, _, rfl, Except.ok.inj h⟩
  unfold applyBinary at h
  split at h
  · split at h
    · cases h
      exact ⟨_, rfl⟩
    · cases h
    · cases h
  · obtain ⟨x, y, rfl, ⟨⟩⟩ := asked h
    exact ⟨_, rfl⟩
  · obtain ⟨x, y, rfl, ⟨⟩⟩ := asked h
    exact ⟨_, rfl⟩
  · obtain ⟨x, y, rfl, ⟨⟩⟩ := asked h
    exact ⟨_, rfl⟩
  · obtain ⟨x, y, -, ⟨⟩⟩ := asked h
  · obtain ⟨x, y, -, ⟨⟩⟩ := asked h
  · obtain ⟨x, y, -, ⟨⟩⟩ := asked h
  · obtain ⟨x, y, -, ⟨⟩⟩ := asked h
  · cases h
  · cases h
  · cases h

namespace Computed

variable {i j : ℕ} {p q : Bool}

/-- The NaN of a division by zero is the common one, and any other NaN belongs to its
computation. -/
theorem eq_ofFloat (h : Computed i p a) : ∃ x, a = ofFloat (if p then divisionMark else i) x := by
  cases h with
  | binary result => exact applyBinary_ofFloat result
  | @unary op operand _ result =>
    unfold applyUnary at result
    split at result
    · split at result
      · cases result
        exact ⟨_, rfl⟩
      · cases result
    · cases result
    · cases result
  | given x => exact ⟨x, rfl⟩

/-- **Numbers that different computations have made** are equal if they stand for the same number,
or are NaNs of two divisions by zero. -/
theorem equal_iff (ha : Computed i p a) (hb : Computed j q b) (different : i ≠ j)
    (hi : i ≠ divisionMark) (hj : j ≠ divisionMark) :
    a.equal b = true ↔ (∃ v, a.value? = some v ∧ b.value? = some v) ∨
      p = true ∧ q = true ∧ a.value? = none ∧ b.value? = none := by
  rw [Number.equal_iff]
  refine or_congr_right ?_
  obtain ⟨x, hx⟩ := ha.eq_ofFloat
  obtain ⟨y, hy⟩ := hb.eq_ofFloat
  constructor
  · rintro ⟨mark, rfl, rfl⟩
    -- the two computations are marked alike
    have marks := (ofFloat_eq_nan hx.symm).symm.trans (ofFloat_eq_nan hy.symm)
    cases p <;> cases q
    · exact absurd marks different
    · exact absurd marks hi
    · exact absurd marks.symm hj
    · exact ⟨rfl, rfl, value?_nan mark, value?_nan mark⟩
  · rintro ⟨rfl, rfl, ha, hb⟩
    obtain ⟨m, rfl⟩ := value?_eq_none.1 ha
    obtain ⟨n, rfl⟩ := value?_eq_none.1 hb
    exact ⟨divisionMark, congrArg _ (ofFloat_eq_nan hx.symm),
      congrArg _ (ofFloat_eq_nan hy.symm)⟩

end Computed

end Number

/-! ## Values -/

namespace Value

variable {a b c : Value}

theorem equal_refl (a : Value) : a.equal a = true := by
  cases a with
  | number x => exact x.equal_refl
  | _ => simp [equal]

theorem equal_symm (h : a.equal b = true) : b.equal a = true := by
  cases a <;> cases b <;> simp only [equal, Bool.false_eq_true] at h ⊢
  case number.number => exact Number.equal_symm h
  case native.native =>
    simp only [Bool.and_eq_true] at h ⊢
    exact ⟨BEq.symm h.1, BEq.symm h.2⟩
  all_goals exact BEq.symm h

theorem equal_trans (h : a.equal b = true) (k : b.equal c = true) : a.equal c = true := by
  cases a <;> cases b <;> simp only [equal, Bool.false_eq_true] at h <;> cases c <;>
    simp only [equal, Bool.false_eq_true] at k ⊢
  case number.number.number => exact Number.equal_trans h k
  all_goals simp_all

/-- Values of different types are not equal. -/
theorem type_eq_of_equal (h : a.equal b = true) : a.type = b.type := by
  cases a <;> cases b <;> simp only [equal, Bool.false_eq_true] at h <;> rfl

/-! ## The rule -/

/-- The rule: the same nil, boolean, string, number or function. -/
def Same : Value → Value → Prop
  | .nil, .nil => True
  | .bool a, .bool b => a = b
  | .number a, .number b => ∃ v, a.value? = some v ∧ b.value? = some v
  | .string s, .string t => s = t
  | .native f, .native g => f = g
  | .function f, .function g => f = g
  | _, _ => False

/-- The NaN of one computation, or of any two divisions by zero. -/
def SameNaN (a b : Value) : Prop :=
  ∃ mark, a = .number (.nan mark) ∧ b = .number (.nan mark)

/-- Two native functions that share their name and their number of arguments, whatever they do. -/
def AlikeNatives (a b : Value) : Prop :=
  ∃ f g, a = .native f ∧ b = .native g ∧ f.name = g.name ∧ f.arity = g.arity

/-- Where marks tell functions apart, equality is the rule, and what counts as equal besides. -/
theorem equal_iff
    (marked : ∀ f g, a = .function f → b = .function g → f.mark = g.mark → f = g) :
    a.equal b = true ↔ a.Same b ∨ a.SameNaN b ∨ a.AlikeNatives b := by
  cases a <;> cases b
  case number.number x y => simp [equal, Same, SameNaN, AlikeNatives, Number.equal_iff]
  case native.native f g =>
    simp only [equal, Same, SameNaN, AlikeNatives, Bool.and_eq_true, beq_iff_eq,
      reduceCtorEq, false_and, exists_false, Value.native.injEq, false_or]
    constructor
    · intro h
      exact .inr ⟨f, g, rfl, rfl, h⟩
    · rintro (rfl | ⟨_, _, rfl, rfl, h⟩)
      · exact ⟨rfl, rfl⟩
      · exact h
  case function.function f g =>
    have h := marked f g rfl rfl
    simp only [equal, Same, SameNaN, AlikeNatives, beq_iff_eq, reduceCtorEq, false_and,
      exists_false, or_false]
    exact ⟨h, congrArg Closure.mark⟩
  all_goals simp [equal, Same, SameNaN, AlikeNatives]

end Value

end LoxLang
