import LoxLang.Fault

/-!
# Operators

* `applyUnary`, `applyBinary`: the prefix and infix operators on values, each with the mark of the
  computation that the result belongs to.
* `Logical`: the two operators that decide by their left operand whether to look at the right one.
-/

set_option autoImplicit false

namespace LoxLang

/-- The two numbers that an operator asks for. -/
def numbers (op : String) (left right : Value) : Except Fault (Number × Number) :=
  match left, right with
  | .number a, .number b => .ok (a, b)
  | _, _ => .error (.typeMismatch op [left, right])

/-- A prefix operator on a value. -/
def applyUnary (mark : Nat) (op : String) (operand : Value) : Except Fault Value :=
  match op with
  | "-" =>
    match operand with
    | .number a => .ok (.number (a.neg mark))
    | _ => .error (.typeMismatch op [operand])
  | "!" => .ok (.bool (!operand.isTruthy))
  | _ => .error (.unknownUnary op)

/-- An infix operator on two values. -/
def applyBinary (mark : Nat) (op : String) (left right : Value) : Except Fault Value :=
  match op with
  | "+" =>
    match left, right with
    | .number a, .number b => .ok (.number (a.add mark b))
    | .string a, .string b => .ok (.string (a ++ b))
    | _, _ => .error (.typeMismatch op [left, right])
  | "-" => do
    let (a, b) ← numbers op left right
    return .number (a.sub mark b)
  | "*" => do
    let (a, b) ← numbers op left right
    return .number (a.mul mark b)
  | "/" => do
    let (a, b) ← numbers op left right
    return .number (a.div mark b)
  | ">" => do
    let (a, b) ← numbers op left right
    return .bool (b.less a)
  | ">=" => do
    let (a, b) ← numbers op left right
    return .bool (b.lessEqual a)
  | "<" => do
    let (a, b) ← numbers op left right
    return .bool (a.less b)
  | "<=" => do
    let (a, b) ← numbers op left right
    return .bool (a.lessEqual b)
  | "==" => .ok (.bool (left.equal right))
  | "!=" => .ok (.bool (!left.equal right))
  | _ => .error (.unknownBinary op)

/-- An operator that may leave its right operand alone. -/
inductive Logical where
  | disjunction | conjunction
deriving DecidableEq, Repr

namespace Logical

/-- The logical operator with a given spelling. -/
def ofText? : String → Option Logical
  | "or" => some .disjunction
  | "and" => some .conjunction
  | _ => none

/-- Whether the left operand is the result. -/
def decidedBy (op : Logical) (left : Value) : Bool :=
  match op with
  | .disjunction => left.isTruthy
  | .conjunction => !left.isTruthy

end Logical

end LoxLang
