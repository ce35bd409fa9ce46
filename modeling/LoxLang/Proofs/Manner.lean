import LoxLang.Proofs.Form
import LoxLang.Run.Congruence

/-!
# One evaluator, several manners of running

The evaluator can be asked more than how a run ends: how it would end if `return` left the function
by a non-local exit, or what was under way when an error was raised. Such a variant differs from the
evaluator in a few places only. They are the fields of a manner of running, and everything else is
written once for all manners.

* `Manner`: what a step, a node, a call and the end of a statement are.
* `Manner.execute`, `Manner.evaluate`, `Manner.invoke`, `Manner.call`, `Manner.interpret`: the
  evaluator in a given manner.
* `Manner.plain`: the manner of the evaluator itself.
* `Action.Step`: the actions that an evaluator is made of.
* `Manner.Simulates`: relations between the runs in two manners that are kept in the places where
  the manners differ.

Results: `Manner.plain_evaluators` — in the plain manner the evaluator is the one that programs
are run with; `Manner.Simulates.evaluators`, `Manner.Simulates.interpret` — from there related
runs of all nodes follow.
-/

set_option autoImplicit false

namespace LoxLang

/-! ## Failures as they are raised -/

/-- Whether a fault is an overflow of the stack. -/
def Fault.isOverflow : Fault → Bool
  | .depthLimit _ => true
  | .hostExhausted _ => true
  | _ => false

/-- A failure as it is raised inside a node: without a location, and no overflow, which only the
boundary of a call reports. -/
def Failure.Raw : Failure → Prop
  | .fault cause location => location = none ∧ cause.isOverflow = false
  | _ => True

/-- Notes down that as many calls as allowed are active, and stops. -/
def Action.refuse {α : Type} (limit : Int) (callee : Value) : Action α := do
  Action.record (.limitHit limit callee)
  Action.raise (.depthLimit limit)

/-- Whether a record tells of an overflow of the stack. -/
def Record.isOverflow : Record → Bool
  | .limitHit _ _ => true
  | .exhausted _ => true
  | _ => false

/-- The actions that an evaluator is made of. -/
inductive Action.Step : {α : Type} → Action α → Prop
  | pure {α : Type} (x : α) : Step (Pure.pure x : Action α)
  | starve {α : Type} : Step (Action.starve : Action α)
  | fail {α : Type} {e : Failure} (raw : e.Raw) : Step (Action.fail e : Action α)
  | refuse {α : Type} (limit : Int) (callee : Value) :
    Step (Action.refuse limit callee : Action α)
  | lookup (f : FrameId) (x : String) : Step (Action.lookup f x)
  | define (f : FrameId) (x : String) (v : Value) : Step (Action.define f x v)
  | defineAll (f : FrameId) (b : Bindings) : Step (Action.defineAll f b)
  | assign (f : FrameId) (x : String) (v : Value) : Step (Action.assign f x v)
  | enterFrame (f : FrameId) : Step (Action.enterFrame f)
  | freshMark : Step Action.freshMark
  | print (host : Host) (v : Value) : Step (Action.print host v)
  | record {r : Record} (quiet : r.isOverflow = false) : Step (Action.record r)
  | readClock (host : Host) : Step (Action.readClock host)
  | activeCalls : Step Action.activeCalls

namespace Action.Step

theorem onward {α : Type} {a : Action α} (h : a.Step) : a.Onward := by
  cases h with
  | pure x => exact .pure x
  | starve => exact .starve
  | fail _ => exact .fail _
  | refuse limit callee => exact .bind (.record _) fun _ => .raise _
  | lookup f x => exact .lookup f x
  | define f x v => exact .define f x v
  | defineAll f b => exact .defineAll f b
  | assign f x v => exact .assign f x v
  | enterFrame f => exact .enterFrame f
  | freshMark => exact .freshMark
  | print host v => exact .print host v
  | record _ => exact .record _
  | readClock host => exact .readClock host
  | activeCalls => exact .activeCalls

theorem raise {α : Type} {cause : Fault} (h : cause.isOverflow = false) :
    (Action.raise cause : Action α).Step := .fail ⟨rfl, h⟩

theorem ofExcept {α : Type} {r : Except Fault α}
    (h : ∀ cause, r = .error cause → cause.isOverflow = false) :
    (Action.ofExcept r).Step := by
  cases r with
  | ok x => exact .pure x
  | error cause => exact .raise (h cause rfl)

/-- Setting the limit of the host fails or notes something down. -/
theorem raiseLimit (host : Host) : (Action.raiseLimit host).Step := by
  unfold Action.raiseLimit
  split
  · rename_i refused
    rcases Host.refusal?_cases refused with rfl | ⟨reason, rfl⟩
    · exact .fail trivial
    · exact .fail trivial
  · exact .record rfl

end Action.Step

/-! ### What operators and nodes raise -/

theorem applyUnary_raw {mark : Nat} {op : String} {v : Value} {cause : Fault}
    (h : applyUnary mark op v = .error cause) : cause.isOverflow = false := by
  unfold applyUnary at h
  split at h
  · split at h <;> cases h
    rfl
  · cases h
  · cases h
    rfl

theorem numbers_raw {op : String} {a b : Value} {cause : Fault}
    (h : numbers op a b = .error cause) :
    cause.isOverflow = false := by
  unfold numbers at h
  split at h <;> cases h
  rfl

/-- An operator on two numbers raises what asking for the numbers raises. -/
theorem numbers_bind_raw {op : String} {a b : Value} {k : Number × Number → Value}
    {cause : Fault}
    (h : (numbers op a b >>= fun p => Pure.pure (k p)) = .error cause) :
    cause.isOverflow = false := by
  cases hn : numbers op a b with
  | ok p =>
    rw [hn] at h
    cases h
  | error cause' =>
    rw [hn] at h
    cases h
    exact numbers_raw hn

theorem applyBinary_raw {mark : Nat} {op : String} {a b : Value} {cause : Fault}
    (h : applyBinary mark op a b = .error cause) : cause.isOverflow = false := by
  unfold applyBinary at h
  split at h
  · split at h <;> cases h
    rfl
  · exact numbers_bind_raw h
  · exact numbers_bind_raw h
  · exact numbers_bind_raw h
  · exact numbers_bind_raw h
  · exact numbers_bind_raw h
  · exact numbers_bind_raw h
  · exact numbers_bind_raw h
  · cases h
  · cases h
  · cases h
    rfl

theorem Failure.OfForm.raw {e : Failure} (h : e.OfForm) : e.Raw := by
  cases h with
  | malformed | missing | hollow => trivial
  | _ => exact ⟨rfl, rfl⟩

/-- What a node that is no statement raises. -/
theorem Node.statement_raw {n : Node} {e : Failure} (h : n.statement = .invalid e) : e.Raw := by
  cases Node.statementForm h with
  | invalid ill => exact ill.raw

/-- What a node that is no expression raises. -/
theorem Node.expression_raw {n : Node} {e : Failure} (h : n.expression = .invalid e) : e.Raw := by
  cases Node.expressionForm h with
  | invalid ill => exact ill.raw

/-! ## Manners -/

/-- A manner of running nodes. Expressions and calls are of the type `m`, and statements end with an
`o`. -/
structure Manner (m : Type → Type) (o : Type) where
  /-- One of the actions that an evaluator is made of. -/
  act : {α : Type} → Action α → m α
  /-- What a node does, around what it consists of. -/
  node : {α : Type} → Node → m α → m α
  /-- A call that is counted. -/
  counted : {α : Type} → m α → m α
  /-- A statement that has ended normally. -/
  normal : m o
  /-- A statement that returns a value or none. -/
  returned : Option Value → m o
  /-- A statement and what comes after it. -/
  andThen : m o → m o → m o
  /-- The result of a function, given its body. -/
  body : m o → m (Option Value)

namespace Manner

section Evaluator

variable {m : Type → Type} {o : Type} [Monad m] (M : Manner m o)

/-- `runAll` in a manner. -/
def runAll (run : Node → m o) : List Node → m o
  | [] => M.normal
  | node :: rest => M.andThen (run node) (runAll run rest)

/-- `evaluateAll` in a manner. -/
def evaluateAll (evaluate : Node → m Value) : List Node → m (List Value)
  | [] => pure []
  | node :: rest => do
    let v ← evaluate node
    let vs ← evaluateAll evaluate rest
    pure (v :: vs)

/-- `repeatWhile` in a manner. -/
def repeatWhile (test : m Value) (body : m o) : Nat → m o
  | 0 => M.act Action.starve
  | fuel + 1 => do
    let v ← test
    if v.isTruthy then M.andThen body (repeatWhile test body fuel) else M.normal

/-- `Statement.run` in a manner. -/
def statement (host : Host) (fuel : Nat) (execute : Node → FrameId → m o)
    (evaluate : Node → FrameId → m Value) (f : FrameId) : Statement → m o
  | .expression value => do
    let _ ← evaluate value f
    M.normal
  | .print value => do
    let v ← evaluate value f
    M.act (Action.print host v)
    M.normal
  | .declare name none => do
    M.act (Action.define f name .nil)
    M.normal
  | .declare name (some value) => do
    let v ← evaluate value f
    M.act (Action.define f name v)
    M.normal
  | .block body => do
    let inner ← M.act (Action.enterFrame f)
    M.runAll (fun node => execute node inner) body
  | .branch test yes no => do
    let v ← evaluate test f
    if v.isTruthy then execute yes f
    else
      match no with
      | some no => execute no f
      | none => M.normal
  | .loop test body => M.repeatWhile (evaluate test f) (execute body f) fuel
  | .function name params body => do
    let mark ← M.act Action.freshMark
    M.act (Action.define f name (.function ⟨name, params, body, f, mark⟩))
    M.act (Action.record (.declared name params.length))
    M.normal
  | .result none => M.returned none
  | .result (some value) => do
    let v ← evaluate value f
    M.returned (some v)
  | .invalid failure => M.act (Action.fail failure)

/-- `Expression.evaluate` in a manner. -/
def expression (evaluate : Node → FrameId → m Value)
    (call : Value → List Value → m (Option Value)) (f : FrameId) : Expression → m Value
  | .constant v => pure v
  | .number x => do
    let mark ← M.act Action.freshMark
    pure (.number (.ofFloat mark x))
  | .reference name => M.act (Action.lookup f name)
  | .assign name value => do
    let v ← evaluate value f
    M.act (Action.assign f name v)
    pure v
  | .grouping inner => evaluate inner f
  | .unary op operand => do
    let v ← evaluate operand f
    let mark ← M.act Action.freshMark
    M.act (Action.ofExcept (applyUnary mark op v))
  | .binary left op right => do
    let a ← evaluate left f
    let b ← evaluate right f
    let mark ← M.act Action.freshMark
    M.act (Action.ofExcept (applyBinary mark op a b))
  | .logical left op right => do
    let a ← evaluate left f
    match Logical.ofText? op with
    | some op => if op.decidedBy a then pure a else evaluate right f
    | none => M.act (Action.raise (.unknownLogical op))
  | .call callee arguments => do
    let c ← evaluate callee f
    let args ← evaluateAll (fun node => evaluate node f) arguments
    let result ← call c args
    pure (result.getD .nil)
  | .invalid failure => M.act (Action.fail failure)

/-- `NativeKind.run` in a manner. -/
def native (host : Host) (call : Value → List Value → m (Option Value)) (args : List Value) :
    NativeKind → m (Option Value)
  | .clock => do
    let x ← M.act (Action.readClock host)
    let mark ← M.act Action.freshMark
    pure (some (.number (.ofFloat mark x)))
  | .echo => pure args.head?
  | .nothing => pure none
  | .depth => do
    let depth ← M.act Action.activeCalls
    pure (some (.number (.ofFloat Number.divisionMark (Float.ofNat depth))))
  | .apply =>
    match args with
    | callee :: args => call callee args
    | [] => M.act (Action.fail .missing)
  | .exhaust => M.act (Action.fail .exhausted)
  | .fail => M.act (Action.raise .nativeFailure)

/-- `invokeWith` in a manner. -/
def invokeWith (host : Host) (execute : Node → FrameId → m o)
    (call : Value → List Value → m (Option Value)) (callee : Value) (args : List Value) :
    m (Option Value) :=
  match callee with
  | .native n => M.native host call args n.kind
  | .function fn => do
    let inner ← M.act (Action.enterFrame fn.frame)
    M.act (Action.defineAll inner (fn.params.zip args))
    M.body (M.runAll (fun node => execute node inner) fn.body)
  | callee => M.act (Action.raise (.notCallable callee))

/-- `callWith` in a manner. -/
def callWith (host : Host) (invoke : Value → List Value → m (Option Value)) (callee : Value)
    (args : List Value) : m (Option Value) :=
  match callee.arity? with
  | none => M.act (Action.raise (.notCallable callee))
  | some expected =>
    if args.length ≠ expected then M.act (Action.raise (.arityMismatch expected args.length))
    else do
      let depth ← M.act Action.activeCalls
      if host.maxDepth ≤ depth then M.act (Action.refuse host.maxDepth callee)
      else M.counted (invoke callee args)

mutual

/-- `execute` in a manner. -/
def execute (host : Host) (fuel : Nat) (node : Node) (f : FrameId) : m o :=
  match fuel with
  | 0 => M.act Action.starve
  | fuel + 1 =>
    M.node node (M.statement host fuel (execute host fuel) (evaluate host fuel) f node.statement)

/-- `evaluate` in a manner. -/
def evaluate (host : Host) (fuel : Nat) (node : Node) (f : FrameId) : m Value :=
  match fuel with
  | 0 => M.act Action.starve
  | fuel + 1 => M.node node (M.expression (evaluate host fuel) (call host fuel) f node.expression)

/-- `invoke` in a manner. -/
def invoke (host : Host) (fuel : Nat) (callee : Value) (args : List Value) : m (Option Value) :=
  match fuel with
  | 0 => M.act Action.starve
  | fuel + 1 => M.invokeWith host (execute host fuel) (call host fuel) callee args

/-- `call` in a manner. -/
def call (host : Host) (fuel : Nat) (callee : Value) (args : List Value) : m (Option Value) :=
  match fuel with
  | 0 => M.act Action.starve
  | fuel + 1 => M.callWith host (invoke host fuel) callee args

end

/-- `interpret` in a manner, less what it does with an exhausted host. -/
def interpret (host : Host) (fuel : Nat) (program : List Node) : m o := do
  M.act (Action.record (.interpreting program.length))
  M.act (Action.raiseLimit host)
  M.runAll (fun node => M.execute host fuel node host.globals) program

end Evaluator

/-! ## The plain manner -/

/-- The manner of the evaluator: nodes give faults their place, and statements hand on how they
end. -/
def plain : Manner Action Outcome where
  act a := a
  node n a := a.locate n.place
  counted a := a.nested
  normal := pure .normal
  returned v := pure (.returning v)
  andThen a b := do
    match ← a with
    | .normal => b
    | .returning v => pure (.returning v)
  body a := do
    match ← a with
    | .normal => pure none
    | .returning v => pure v

theorem plain_runAll (run : Node → Action Outcome) (ns : List Node) :
    plain.runAll run ns = LoxLang.runAll run ns := by
  induction ns with
  | nil => rfl
  | cons n ns ih =>
    rw [runAll, ih]
    rfl

theorem plain_evaluateAll (eval : Node → Action Value) (ns : List Node) :
    evaluateAll eval ns = LoxLang.evaluateAll eval ns := by
  induction ns with
  | nil => rfl
  | cons n ns ih =>
    rw [evaluateAll, ih]
    rfl

theorem plain_repeatWhile (test : Action Value) (body : Action Outcome) (fuel : Nat) :
    plain.repeatWhile test body fuel = LoxLang.repeatWhile test body fuel := by
  induction fuel with
  | zero => rfl
  | succ fuel ih =>
    rw [repeatWhile, ih]
    rfl

theorem plain_statement (host : Host) (fuel : Nat) (run : Node → FrameId → Action Outcome)
    (eval : Node → FrameId → Action Value) (f : FrameId) (st : Statement) :
    plain.statement host fuel run eval f st = st.run host fuel run eval f := by
  cases st with
  | block body =>
    exact congrArg (Action.enterFrame f >>= ·) (funext fun inner => plain_runAll _ body)
  | loop test body => exact plain_repeatWhile _ _ fuel
  | declare name init => cases init <;> rfl
  | result value => cases value <;> rfl
  | _ => rfl

theorem plain_expression (eval : Node → FrameId → Action Value)
    (call : Value → List Value → Action (Option Value)) (f : FrameId) (e : Expression) :
    plain.expression eval call f e = e.evaluate eval call f := by
  cases e with
  | call callee arguments =>
    rw [expression, plain_evaluateAll]
    rfl
  | _ => rfl

theorem plain_invokeWith (host : Host) (run : Node → FrameId → Action Outcome)
    (call : Value → List Value → Action (Option Value)) (callee : Value) (args : List Value) :
    plain.invokeWith host run call callee args = LoxLang.invokeWith host run call callee args := by
  cases callee with
  | native n => cases h : n.kind <;> simp only [invokeWith, LoxLang.invokeWith, h] <;> rfl
  | function fn =>
    simp only [invokeWith, plain_runAll]
    rfl
  | _ => rfl

/-- **In the plain manner the evaluator is the one that programs are run with.** -/
theorem plain_evaluators (host : Host) (fuel : Nat) :
    plain.execute host fuel = LoxLang.execute host fuel ∧
    plain.evaluate host fuel = LoxLang.evaluate host fuel ∧
    plain.invoke host fuel = LoxLang.invoke host fuel ∧
    plain.call host fuel = LoxLang.call host fuel := by
  induction fuel with
  | zero => exact ⟨rfl, rfl, rfl, rfl⟩
  | succ fuel ih =>
    obtain ⟨hrun, heval, hinvoke, hcall⟩ := ih
    refine ⟨?_, ?_, ?_, ?_⟩
    · funext n f
      rw [execute, LoxLang.execute, hrun, heval, plain_statement]
      rfl
    · funext n f
      rw [evaluate, LoxLang.evaluate, heval, hcall, plain_expression]
      rfl
    · funext callee args
      rw [invoke, LoxLang.invoke, hrun, hcall, plain_invokeWith]
    · funext callee args
      rw [call, LoxLang.call, hinvoke]
      rfl

theorem plain_interpret (host : Host) (fuel : Nat) (program : List Node) :
    LoxLang.interpret host fuel program = (plain.interpret host fuel program).outermost := by
  rw [interpret, plain_runAll, (plain_evaluators host fuel).1]
  rfl

/-! ## Relations between manners -/

/-- Relations between runs in two manners: one for expressions and calls, one for statements. They
are kept where the manners differ. -/
structure Simulates {m m' : Type → Type} {o o' : Type} [Monad m] [Monad m'] (M : Manner m o)
    (M' : Manner m' o') (R : ∀ {α : Type}, m α → m' α → Prop)
    (S : m o → m' o' → Prop) : Prop where
  act : ∀ {α : Type} {a : Action α}, a.Step → R (M.act a) (M'.act a)
  pure : ∀ {α : Type} (x : α), R (pure x : m α) (pure x)
  bind : ∀ {α β : Type} {a : m α} {a' : m' α} {k : α → m β} {k' : α → m' β},
    R a a' → (∀ x, R (k x) (k' x)) → R (a >>= k) (a' >>= k')
  node : ∀ {α : Type} {a : m α} {a' : m' α} (n : Node), R a a' →
    R (M.node n a) (M'.node n a')
  counted : ∀ {α : Type} {a : m α} {a' : m' α}, R a a' → R (M.counted a) (M'.counted a')
  starve : S (M.act Action.starve) (M'.act Action.starve)
  fail : ∀ {e : Failure}, e.Raw → S (M.act (Action.fail e)) (M'.act (Action.fail e))
  first : ∀ {α : Type} {a : m α} {a' : m' α} {k : α → m o} {k' : α → m' o'}, R a a' →
    (∀ x, S (k x) (k' x)) → S (a >>= k) (a' >>= k')
  stmt : ∀ {a : m o} {a' : m' o'} (n : Node), S a a' → S (M.node n a) (M'.node n a')
  normal : S M.normal M'.normal
  returned : ∀ v, S (M.returned v) (M'.returned v)
  andThen : ∀ {a b : m o} {a' b' : m' o'}, S a a' → S b b' →
    S (M.andThen a b) (M'.andThen a' b')
  body : ∀ {a : m o} {a' : m' o'}, S a a' → R (M.body a) (M'.body a')

namespace Simulates

variable {m m' : Type → Type} {o o' : Type} [Monad m] [Monad m'] {M : Manner m o}
    {M' : Manner m' o'}
variable {R : ∀ {α : Type}, m α → m' α → Prop} {S : m o → m' o' → Prop}
    (c : Simulates M M' R S)
include c

/-! ### Lists and loops -/

theorem runAll {run : Node → m o} {run' : Node → m' o'} (h : ∀ n, S (run n) (run' n))
    (ns : List Node) :
    S (M.runAll run ns) (M'.runAll run' ns) := by
  induction ns with
  | nil => exact c.normal
  | cons n ns ih => exact c.andThen (h n) ih

theorem evaluateAll {eval : Node → m Value} {eval' : Node → m' Value}
    (h : ∀ n, R (eval n) (eval' n)) (ns : List Node) :
    R (Manner.evaluateAll eval ns) (Manner.evaluateAll eval' ns) := by
  induction ns with
  | nil => exact c.pure _
  | cons n ns ih => exact c.bind (h n) fun v => c.bind ih fun vs => c.pure _

theorem repeatWhile {test : m Value} {test' : m' Value} {body : m o} {body' : m' o'}
    (htest : R test test') (hbody : S body body') (fuel : Nat) :
    S (M.repeatWhile test body fuel) (M'.repeatWhile test' body' fuel) := by
  induction fuel with
  | zero => exact c.starve
  | succ fuel ih =>
    refine c.first htest fun v => ?_
    split
    · exact c.andThen hbody ih
    · exact c.normal

/-! ### One node or call -/

variable (host : Host) {run : Node → FrameId → m o} {run' : Node → FrameId → m' o'}
variable {eval : Node → FrameId → m Value} {eval' : Node → FrameId → m' Value}
variable {call : Value → List Value → m (Option Value)}
    {call' : Value → List Value → m' (Option Value)}

theorem statement (fuel : Nat) (hrun : ∀ n f, S (run n f) (run' n f))
    (heval : ∀ n f, R (eval n f) (eval' n f)) (f : FrameId) {st : Statement}
    (raw : ∀ e, st = .invalid e → e.Raw) :
    S (M.statement host fuel run eval f st) (M'.statement host fuel run' eval' f st) := by
  cases st with
  | expression value => exact c.first (heval value f) fun _ => c.normal
  | print value =>
    refine c.first (heval value f) fun v => ?_
    exact c.first (c.act (.print host v)) fun _ => c.normal
  | declare name init =>
    cases init with
    | none => exact c.first (c.act (.define f name .nil)) fun _ => c.normal
    | some value =>
      refine c.first (heval value f) fun v => ?_
      exact c.first (c.act (.define f name v)) fun _ => c.normal
  | block body =>
    refine c.first (c.act (.enterFrame f)) fun inner => ?_
    exact c.runAll (fun n => hrun n inner) body
  | branch test yes no =>
    refine c.first (heval test f) fun v => ?_
    split
    · exact hrun yes f
    · cases no with
      | none => exact c.normal
      | some no => exact hrun no f
  | loop test body => exact c.repeatWhile (heval test f) (hrun body f) fuel
  | function name params body =>
    refine c.first (c.act .freshMark) fun mark => ?_
    refine c.first (c.act (.define f name _)) fun _ => ?_
    exact c.first (c.act (.record rfl)) fun _ => c.normal
  | result value =>
    cases value with
    | none => exact c.returned none
    | some value => exact c.first (heval value f) fun v => c.returned (some v)
  | invalid failure => exact c.fail (raw failure rfl)

theorem expression (heval : ∀ n f, R (eval n f) (eval' n f))
    (hcall : ∀ callee args, R (call callee args) (call' callee args)) (f : FrameId)
    {e : Expression} (raw : ∀ failure, e = .invalid failure → failure.Raw) :
    R (M.expression eval call f e) (M'.expression eval' call' f e) := by
  cases e with
  | constant v => exact c.pure v
  | number x => exact c.bind (c.act .freshMark) fun mark => c.pure _
  | reference name => exact c.act (.lookup f name)
  | assign name value =>
    refine c.bind (heval value f) fun v => ?_
    exact c.bind (c.act (.assign f name v)) fun _ => c.pure v
  | grouping inner => exact heval inner f
  | unary op operand =>
    refine c.bind (heval operand f) fun v => ?_
    exact c.bind (c.act .freshMark) fun mark => c.act (.ofExcept fun _ => applyUnary_raw)
  | binary left op right =>
    refine c.bind (heval left f) fun a => c.bind (heval right f) fun b => ?_
    exact c.bind (c.act .freshMark) fun mark => c.act (.ofExcept fun _ => applyBinary_raw)
  | logical left op right =>
    refine c.bind (heval left f) fun a => ?_
    split
    · split
      · exact c.pure a
      · exact heval right f
    · exact c.act (.raise rfl)
  | call callee arguments =>
    refine c.bind (heval callee f) fun v => ?_
    refine c.bind (c.evaluateAll (fun n => heval n f) arguments) fun args => ?_
    exact c.bind (hcall v args) fun result => c.pure _
  | invalid failure => exact c.act (.fail (raw failure rfl))

theorem native (hcall : ∀ callee args, R (call callee args) (call' callee args))
    (args : List Value) (kind : NativeKind) :
    R (M.native host call args kind) (M'.native host call' args kind) := by
  cases kind with
  | clock =>
    refine c.bind (c.act (.readClock host)) fun x => ?_
    exact c.bind (c.act .freshMark) fun mark => c.pure _
  | echo => exact c.pure _
  | nothing => exact c.pure _
  | depth => exact c.bind (c.act .activeCalls) fun depth => c.pure _
  | apply =>
    cases args with
    | nil => exact c.act (.fail trivial)
    | cons callee args => exact hcall callee args
  | exhaust => exact c.act (.fail trivial)
  | fail => exact c.act (.raise rfl)

theorem invokeWith (hrun : ∀ n f, S (run n f) (run' n f))
    (hcall : ∀ callee args, R (call callee args) (call' callee args)) (callee : Value)
    (args : List Value) :
    R (M.invokeWith host run call callee args) (M'.invokeWith host run' call' callee args) := by
  cases callee with
  | native n => exact c.native host hcall args n.kind
  | function fn =>
    refine c.bind (c.act (.enterFrame fn.frame)) fun inner => ?_
    refine c.bind (c.act (.defineAll inner _)) fun _ => ?_
    exact c.body (c.runAll (fun n => hrun n inner) fn.body)
  | _ => exact c.act (.raise rfl)

theorem callWith {invoke : Value → List Value → m (Option Value)}
    {invoke' : Value → List Value → m' (Option Value)}
    (h : ∀ callee args, R (invoke callee args) (invoke' callee args)) (callee : Value)
    (args : List Value) :
    R (M.callWith host invoke callee args) (M'.callWith host invoke' callee args) := by
  unfold Manner.callWith
  split
  · exact c.act (.raise rfl)
  · split
    · exact c.act (.raise rfl)
    · refine c.bind (c.act .activeCalls) fun depth => ?_
      split
      · exact c.act (.refuse _ _)
      · exact c.counted (h callee args)

/-! ### With fuel -/

/-- **Related manners make related runs**, whatever the fuel. -/
theorem evaluators (fuel : Nat) :
    (∀ n f, S (M.execute host fuel n f) (M'.execute host fuel n f)) ∧
    (∀ n f, R (M.evaluate host fuel n f) (M'.evaluate host fuel n f)) ∧
    (∀ callee args, R (M.invoke host fuel callee args) (M'.invoke host fuel callee args)) ∧
    (∀ callee args, R (M.call host fuel callee args) (M'.call host fuel callee args)) := by
  induction fuel with
  | zero =>
    exact ⟨fun _ _ => c.starve, fun _ _ => c.act .starve, fun _ _ => c.act .starve,
      fun _ _ => c.act .starve⟩
  | succ fuel ih =>
    obtain ⟨hrun, heval, hinvoke, hcall⟩ := ih
    refine ⟨fun n f => c.stmt n ?_, fun n f => c.node n ?_, fun callee args => ?_,
      fun callee args => ?_⟩
    · exact c.statement host fuel hrun heval f fun _ => Node.statement_raw
    · exact c.expression heval hcall f fun _ => Node.expression_raw
    · exact c.invokeWith host hrun hcall callee args
    · exact c.callWith host hinvoke callee args

theorem interpret (fuel : Nat) (program : List Node) :
    S (M.interpret host fuel program) (M'.interpret host fuel program) := by
  refine c.first (c.act (.record rfl)) fun _ => c.first (c.act (.raiseLimit host)) fun _ => ?_
  exact c.runAll (fun n => (c.evaluators host fuel).1 n host.globals) program

end Simulates

end Manner

end LoxLang
