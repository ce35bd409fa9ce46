import LoxLang.Node
import LoxLang.Number

/-!
# Values

* `Native`: a function of the host, described by what it does.
* `Closure`: a declared function. It keeps the frame it was declared in, and each run of a
  declaration makes a function with a mark of its own.
* `Value`: everything a variable can hold.
* `Value.isTruthy`, `Value.equal`, `Value.arity?`, `Value.shown`, `Value.display`.
-/

set_option autoImplicit false

namespace LoxLang

/-- A frame of the store. -/
abbrev FrameId := Nat

/-- What a native function does. -/
inductive NativeKind where
  /-- Reads the clock. -/
  | clock
  /-- Gives back its first argument. -/
  | echo
  /-- Gives back nothing. -/
  | nothing
  /-- Tells how many calls are active. -/
  | depth
  /-- Calls its first argument with the other arguments. -/
  | apply
  /-- Exhausts the stack of the host. -/
  | exhaust
  /-- Fails. -/
  | fail
deriving DecidableEq, Repr

/-- A function of the host. The host may give it any integer as arity; no number of arguments
matches a negative one. -/
structure Native where
  name : String
  arity : Int
  kind : NativeKind
deriving DecidableEq, Repr

/-- A declared function with the frame it was declared in. -/
structure Closure where
  name : String
  params : List String
  body : List Node
  frame : FrameId
  mark : Nat

/-- What variables hold and expressions give. -/
inductive Value where
  | nil
  | bool (b : Bool)
  | number (x : Number)
  | string (s : String)
  | native (f : Native)
  | function (f : Closure)

namespace Value

/-- Everything but `nil` and `false` counts as true. -/
def isTruthy : Value → Bool
  | .nil => false
  | .bool b => b
  | _ => true

/-- Equality of values: natives by name and arity, declared functions by their marks, and values of
different types never. -/
def equal : Value → Value → Bool
  | .nil, .nil => true
  | .bool a, .bool b => a == b
  | .number a, .number b => a.equal b
  | .string a, .string b => a == b
  | .native f, .native g => f.name == g.name && f.arity == g.arity
  | .function f, .function g => f.mark == g.mark
  | _, _ => false

/-- How many arguments a function takes; other values cannot be called. -/
def arity? : Value → Option Int
  | .native f => some f.arity
  | .function f => some f.params.length
  | _ => none

/-- The text of a value in error messages and frames. -/
def shown : Value → String
  | .nil => "nil"
  | .bool b => if b then "true" else "false"
  | .number x => x.text
  | .string s => "\"" ++ s ++ "\""
  | .native _ => "<native fn>"
  | .function f => "<fn " ++ f.name ++ ">"

/-- The text that `print` writes for a value. -/
def display : Value → String
  | .string s => s
  | v => v.shown

end Value

end LoxLang
