import LoxLang.Node.Shown
import LoxLang.Value

/-!
# Errors of a run

* `Fault`: why a program was stopped; `Fault.message`: the words for it.
* `LimitError`: why the host does not accept a limit for its stack.
* `Failure`: every way in which a run can be cut short. A fault gets the location of the innermost
  node whose line is known.
-/

set_option autoImplicit false

namespace LoxLang

/-- Why a program was stopped. -/
inductive Fault where
  | undefinedVariable (name : String)
  | arityMismatch (expected : Int) (got : Nat)
  | notCallable (value : Value)
  | typeMismatch (op : String) (operands : List Value)
  /-- As many calls as allowed are active. -/
  | depthLimit (limit : Int)
  /-- The stack of the host is exhausted. -/
  | hostExhausted (depth : Nat)
  | nativeFailure
  | unknownStatement (node : Node)
  | unknownExpression (node : Node)
  | unhandledWord (kind : Kind) (text : String)
  | unknownUnary (op : String)
  | unknownBinary (op : String)
  | unknownLogical (op : String)
  | malformedFunction
  | unsupportedParameter (node : Node)

namespace Fault

/-- The operands that an operator asks for. -/
def wanted (op : String) (operands : List Value) : String :=
  if operands.length = 1 then "a number"
  else if op = "+" then "two numbers or two strings"
  else "numbers"

/-- The message of a fault. -/
def message : Fault → String
  | .undefinedVariable name => "Undefined variable '" ++ name ++ "'"
  | .arityMismatch expected got =>
    "Expected " ++ toString expected ++ " arguments but got " ++ toString got
  | .notCallable value => "Can only call functions; got " ++ value.shown
  | .typeMismatch op operands =>
    "Operands of '" ++ op ++ "' must be " ++ wanted op operands ++ "; got " ++
      ", ".intercalate (operands.map Value.shown)
  | .depthLimit limit => "Stack overflow: call depth exceeded " ++ toString limit
  | .hostExhausted depth => "Stack overflow: call depth exceeded " ++ toString depth
  | .nativeFailure => "native failure"
  | .unknownStatement node => "Unknown statement: " ++ node.described
  | .unknownExpression node => "Unknown expression: " ++ node.described
  | .unhandledWord kind text => "Unhandled token " ++ kind.name ++ ":" ++ text
  | .unknownUnary op => "Unknown unary operator " ++ op
  | .unknownBinary op => "Unknown operator " ++ op
  | .unknownLogical op => "Unknown logical operator " ++ op
  | .malformedFunction => "Malformed function declaration"
  | .unsupportedParameter node => "Unsupported parameter node: " ++ node.shown

end Fault

/-- A location at the end of a message. -/
def Location.suffix (l : Location) : String :=
  match l.column with
  | some column => " (line " ++ toString l.line ++ ", col " ++ toString column ++ ")"
  | none => " (line " ++ toString l.line ++ ")"

/-- Why the host does not accept a limit for its stack. -/
inductive LimitError where
  /-- The limit is not positive. -/
  | notPositive
  /-- The limit does not fit into the integers of the host. -/
  | tooWide
deriving DecidableEq, Repr

/-- How a run can be cut short. -/
inductive Failure where
  /-- The program was stopped, at a location if one is known. -/
  | fault (cause : Fault) (location : Option Location)
  /-- A node does not have the parts it needs, or a numeral cannot be read. -/
  | malformed
  /-- The only part of a node, or the first argument of a native, is missing. -/
  | missing
  /-- A node that has to be taken apart has no list of parts. -/
  | hollow
  /-- The host does not accept the limit that a program needs for the stack. -/
  | refused (reason : LimitError)
  /-- The stack of the host is exhausted. -/
  | exhausted

namespace Failure

/-- A fault whose location is not yet known. -/
def of (cause : Fault) : Failure := .fault cause none

/-- Gives a fault the place of a node, unless a location is known already. -/
def locate (place : Place) : Failure → Failure
  | .fault cause none => .fault cause place.location?
  | failure => failure

/-- The message of a failure that has one. -/
def message? : Failure → Option String
  | .fault cause location =>
    some (cause.message ++ (match location with | some l => l.suffix | none => ""))
  | _ => none

end Failure

end LoxLang
