import LoxLang.Form
import LoxLang.Run.Action
import LoxLang.Value.Operator

/-!
# Running nodes

Statements end normally or by returning; expressions give a value; a call gives a value or none. The
functions here run one node, given how its parts are run, and are then tied together with fuel:
every step into a part of a node, into the body of a function or into the next round of a loop takes
one unit.

* `Outcome`: how a statement ends.
* `runAll`, `evaluateAll`, `repeatWhile`: lists of nodes and loops.
* `Statement.run`, `Expression.evaluate`, `invokeWith`, `callWith`: one node or call, given how the
  parts are run.
* `execute`, `evaluate`, `invoke`, `call`: the same with fuel.
-/

set_option autoImplicit false

namespace LoxLang

/-- How a statement ends: normally, or by returning a value or none. -/
inductive Outcome where
  | normal
  | returning (value : Option Value)

/-! ## Lists and loops -/

/-- Runs statements until one returns. -/
@[specialize] def runAll (run : Node → Action Outcome) : List Node → Action Outcome
  | [] => pure .normal
  | node :: rest => do
    match ← run node with
    | .normal => runAll run rest
    | .returning v => pure (.returning v)

/-- Evaluates expressions from left to right. -/
@[specialize] def evaluateAll (evaluate : Node → Action Value) : List Node → Action (List Value)
  | [] => pure []
  | node :: rest => do
    let v ← evaluate node
    let vs ← evaluateAll evaluate rest
    pure (v :: vs)

/-- Runs a statement as long as a test is true, until it returns. -/
@[specialize] def repeatWhile (test : Action Value) (body : Action Outcome) :
    Nat → Action Outcome
  | 0 => Action.starve
  | fuel + 1 => do
    let v ← test
    if v.isTruthy then
      match ← body with
      | .normal => repeatWhile test body fuel
      | .returning v => pure (.returning v)
    else pure .normal

/-! ## One node -/

/-- Runs a statement in a frame. -/
@[inline] def Statement.run (host : Host) (fuel : Nat)
    (execute : Node → FrameId → Action Outcome) (evaluate : Node → FrameId → Action Value)
    (f : FrameId) : Statement → Action Outcome
  | .expression value => do
    let _ ← evaluate value f
    pure .normal
  | .print value => do
    let v ← evaluate value f
    Action.print host v
    pure .normal
  | .declare name init => do
    match init with
    | some value =>
      let v ← evaluate value f
      Action.define f name v
    | none => Action.define f name .nil
    pure .normal
  | .block body => do
    let inner ← Action.enterFrame f
    runAll (fun node => execute node inner) body
  | .branch test yes no => do
    let v ← evaluate test f
    if v.isTruthy then execute yes f
    else
      match no with
      | some no => execute no f
      | none => pure .normal
  | .loop test body => repeatWhile (evaluate test f) (execute body f) fuel
  | .function name params body => do
    let mark ← Action.freshMark
    Action.define f name (.function ⟨name, params, body, f, mark⟩)
    Action.record (.declared name params.length)
    pure .normal
  | .result value =>
    match value with
    | some value => do
      let v ← evaluate value f
      pure (.returning (some v))
    | none => pure (.returning none)
  | .invalid failure => Action.fail failure

/-- Evaluates an expression in a frame. -/
@[inline] def Expression.evaluate (evaluate : Node → FrameId → Action Value)
    (call : Value → List Value → Action (Option Value)) (f : FrameId) :
    Expression → Action Value
  | .constant v => pure v
  | .number x => do
    let mark ← Action.freshMark
    pure (.number (.ofFloat mark x))
  | .reference name => Action.lookup f name
  | .assign name value => do
    let v ← evaluate value f
    Action.assign f name v
    pure v
  | .grouping inner => evaluate inner f
  | .unary op operand => do
    let v ← evaluate operand f
    let mark ← Action.freshMark
    Action.ofExcept (applyUnary mark op v)
  | .binary left op right => do
    let a ← evaluate left f
    let b ← evaluate right f
    let mark ← Action.freshMark
    Action.ofExcept (applyBinary mark op a b)
  | .logical left op right => do
    let a ← evaluate left f
    match Logical.ofText? op with
    | some op => if op.decidedBy a then pure a else evaluate right f
    | none => Action.raise (.unknownLogical op)
  | .call callee arguments => do
    let c ← evaluate callee f
    let args ← evaluateAll (fun node => evaluate node f) arguments
    let result ← call c args
    pure (result.getD .nil)
  | .invalid failure => Action.fail failure

/-! ## One call -/

/-- Runs a native function. -/
@[inline] def NativeKind.run (host : Host) (call : Value → List Value → Action (Option Value))
    (args : List Value) : NativeKind → Action (Option Value)
  | .clock => do
    let x ← Action.readClock host
    let mark ← Action.freshMark
    pure (some (.number (.ofFloat mark x)))
  | .echo => pure args.head?
  | .nothing => pure none
  | .depth => do
    let depth ← Action.activeCalls
    pure (some (.number (.ofFloat Number.divisionMark (Float.ofNat depth))))
  | .apply =>
    match args with
    | callee :: args => call callee args
    | [] => Action.fail .missing
  | .exhaust => Action.fail .exhausted
  | .fail => Action.raise .nativeFailure

/-- Runs a function whose arguments have been counted. The body of a declared function is run in a
new frame inside the one it was declared in. -/
@[inline] def invokeWith (host : Host) (execute : Node → FrameId → Action Outcome)
    (call : Value → List Value → Action (Option Value)) (callee : Value) (args : List Value) :
    Action (Option Value) :=
  match callee with
  | .native n => n.kind.run host call args
  | .function fn => do
    let inner ← Action.enterFrame fn.frame
    Action.defineAll inner (fn.params.zip args)
    match ← runAll (fun node => execute node inner) fn.body with
    | .normal => pure none
    | .returning v => pure v
  | callee => Action.raise (.notCallable callee)

/-- Calls a value: it has to be a function, take that many arguments, and fit under the limit. -/
@[inline] def callWith (host : Host) (invoke : Value → List Value → Action (Option Value))
    (callee : Value) (args : List Value) : Action (Option Value) :=
  match callee.arity? with
  | none => Action.raise (.notCallable callee)
  | some expected => do
    if args.length ≠ expected then Action.raise (.arityMismatch expected args.length)
    else
      let depth ← Action.activeCalls
      if host.maxDepth ≤ depth then
        Action.record (.limitHit host.maxDepth callee)
        Action.raise (.depthLimit host.maxDepth)
      else Action.nested (invoke callee args)

/-! ## With fuel -/

mutual

/-- Runs a node as a statement in a frame. -/
def execute (host : Host) (fuel : Nat) (node : Node) (f : FrameId) : Action Outcome :=
  match fuel with
  | 0 => Action.starve
  | fuel + 1 =>
    Action.locate node.place
      (node.statement.run host fuel (execute host fuel) (evaluate host fuel) f)

/-- Evaluates a node as an expression in a frame. -/
def evaluate (host : Host) (fuel : Nat) (node : Node) (f : FrameId) : Action Value :=
  match fuel with
  | 0 => Action.starve
  | fuel + 1 =>
    Action.locate node.place (node.expression.evaluate (evaluate host fuel) (call host fuel) f)

/-- Runs a function whose arguments have been counted. -/
def invoke (host : Host) (fuel : Nat) (callee : Value) (args : List Value) :
    Action (Option Value) :=
  match fuel with
  | 0 => Action.starve
  | fuel + 1 => invokeWith host (execute host fuel) (call host fuel) callee args

/-- Calls a value. -/
def call (host : Host) (fuel : Nat) (callee : Value) (args : List Value) :
    Action (Option Value) :=
  match fuel with
  | 0 => Action.starve
  | fuel + 1 => callWith host (invoke host fuel) callee args

end

end LoxLang
