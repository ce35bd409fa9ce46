import LoxLang.Proofs.Lockstep.Run

/-!
# Operations and watched runs

A host asks for four things: to interpret a program, to execute or evaluate a node in a frame, and
to call a value. Between the beginning and the end of such an operation functions are entered; what
is the case at those moments is said by watching the run.

* `Evaluator`: how nodes are run and values are called; `evaluator` is the one with some fuel.
* `Operation`, `Operation.perform`: what a host can ask for, and the value that it gets back.
* `Watch`: the evaluator that raises an alarm when a function is entered and a condition does not
  hold.
* `Operation.Throughout`: a condition that holds whenever a function is entered.

Results: `Operation.perform_interpret` — the first operation is `interpret`;
`Operation.Throughout.entered` — a call that is not refused enters its function under the
condition; `Lockstep.OperationAlike.ends`, `Lockstep.Law.watched` — related operations are
performed alike, also if one of the two runs is watched.
-/

set_option autoImplicit false

namespace LoxLang

/-- How nodes are run and values are called. -/
structure Evaluator where
  execute : Node → FrameId → Action Outcome
  evaluate : Node → FrameId → Action Value
  call : Value → List Value → Action (Option Value)

/-- The evaluator with some fuel. -/
def evaluator (host : Host) (fuel : Nat) : Evaluator :=
  ⟨execute host fuel, evaluate host fuel, call host fuel⟩

/-- What a host can ask for. -/
inductive Operation where
  | interpret (program : List Node)
  | execute (node : Node) (f : FrameId)
  | evaluate (node : Node) (f : FrameId)
  | call (callee : Value) (args : List Value)

namespace Operation

/-- Performs an operation and gives back the value that it returns. -/
def perform (e : Evaluator) (host : Host) : Operation → Action (Option Value)
  | .interpret program => Action.outermost do
    Action.record (.interpreting program.length)
    Action.raiseLimit host
    let outcome ← runAll (fun node => e.execute node host.globals) program
    pure outcome.value?
  | .execute node f => do
    let outcome ← e.execute node f
    pure outcome.value?
  | .evaluate node f => do
    let v ← e.evaluate node f
    pure (some v)
  | .call callee args => e.call callee args

theorem perform_interpret (host : Host) (fuel : Nat) (program : List Node) :
    (Operation.interpret program).perform (evaluator host fuel) host =
      (do let outcome ← LoxLang.interpret host fuel program; pure outcome.value?) := by
  funext s
  simp only [perform, LoxLang.interpret, evaluator, Action.outermost, Action.record,
    Action.bind_apply, Action.pure_apply]
  generalize Action.raiseLimit host _ = limited
  cases limited with
  | done _ t =>
    simp only
    generalize runAll _ program t = ending
    cases ending with
    | done outcome t => rfl
    | failed e t => cases e <;> rfl
    | outOfFuel => rfl
  | failed e t => cases e <;> rfl
  | outOfFuel => rfl

/-- If the host accepts the limit for its stack, then that is noted down and the program is run. -/
theorem perform_accepted {host : Host} (h : host.refusal? = none) (e : Evaluator)
    (program : List Node) (s : State) :
    (Operation.interpret program).perform e host s =
      Action.outermost
        (do let outcome ← runAll (fun node => e.execute node host.globals) program
            pure outcome.value?)
        { s with log := (s.log.push (.interpreting program.length)).push
                   (.raisedLimit host.stack.limit host.stackLimit) } := by
  unfold perform Action.raiseLimit
  rw [h]
  rfl

end Operation

/-! ## Watching -/

open Classical in
/-- Stops with an alarm unless a condition holds. -/
noncomputable def Action.guarded {α : Type} (ok : State → Prop) (alarm : Failure)
    (act : Action α) :
    Action α := fun s => if ok s then act s else .failed alarm s

/-- A condition on functions that are entered, their arguments and the state, with an alarm. -/
structure Watch where
  ok : Value → List Value → State → Prop
  alarm : Failure

namespace Watch

mutual

/-- `execute` under a watch. -/
noncomputable def execute (watch : Watch) (host : Host) (fuel : Nat) (node : Node) (f : FrameId) :
    Action Outcome :=
  match fuel with
  | 0 => Action.starve
  | fuel + 1 =>
    Action.locate node.place
      (node.statement.run host fuel (watch.execute host fuel) (watch.evaluate host fuel) f)

/-- `evaluate` under a watch. -/
noncomputable def evaluate (watch : Watch) (host : Host) (fuel : Nat) (node : Node) (f : FrameId) :
    Action Value :=
  match fuel with
  | 0 => Action.starve
  | fuel + 1 =>
    Action.locate node.place
      (node.expression.evaluate (watch.evaluate host fuel) (watch.call host fuel) f)

/-- `invoke` under a watch, which is what it watches. -/
noncomputable def invoke (watch : Watch) (host : Host) (fuel : Nat) (callee : Value)
    (args : List Value) : Action (Option Value) :=
  match fuel with
  | 0 => Action.starve
  | fuel + 1 =>
    Action.guarded (watch.ok callee args) watch.alarm
      (invokeWith host (watch.execute host fuel) (watch.call host fuel) callee args)

/-- `call` under a watch. -/
noncomputable def call (watch : Watch) (host : Host) (fuel : Nat) (callee : Value)
    (args : List Value) : Action (Option Value) :=
  match fuel with
  | 0 => Action.starve
  | fuel + 1 => callWith host (watch.invoke host fuel) callee args

end

/-- The evaluator with some fuel under a watch. -/
noncomputable def evaluator (watch : Watch) (host : Host) (fuel : Nat) : Evaluator :=
  ⟨watch.execute host fuel, watch.evaluate host fuel, watch.call host fuel⟩

end Watch

/-- Whenever a function is entered during an operation, the condition holds of it, of the arguments
passed to it and of the state: the operation ends as if it were not watched, whatever the alarm. -/
def Operation.Throughout (op : Operation) (host : Host) (fuel : Nat) (s : State)
    (ok : Value → List Value → State → Prop) : Prop :=
  ∀ alarm, op.perform (Watch.evaluator ⟨ok, alarm⟩ host fuel) host s =
    op.perform (evaluator host fuel) host s

/-- A call that is not refused enters its function under the condition. -/
theorem Operation.Throughout.entered {host : Host} {fuel : Nat} {s : State} {callee : Value}
    {args : List Value} {ok : Value → List Value → State → Prop}
    (h : (Operation.call callee args).Throughout host (fuel + 2) s ok)
    (count : callee.arity? = some args.length) (room : s.depth < host.maxDepth) :
    ok callee args { s with depth := s.depth + 1 } := by
  by_contra hok
  -- two alarms that no part of a run changes would both be how the plain run ends
  have first := h .missing
  have second := h .malformed
  rw [← second] at first
  simp [Operation.perform, Watch.evaluator, Watch.call, Watch.invoke, callWith, count,
    Action.guarded, Action.activeCalls, Action.nested, Int.not_le.2 room, hok] at first

namespace Lockstep

variable {W : Type} [Preorder W] {L : Lockstep W} {w : W}

/-- Related operations: related programs, nodes that are run in related frames, and related values
that are called with related arguments. -/
inductive OperationAlike (L : Lockstep W) (w : W) : Operation → Operation → Prop
  | interpret {program program' : List Node}
    (h : List.Forall₂ (fun n n' => L.stmt w n L.host.globals n' L.host.globals)
      program program') :
    L.OperationAlike w (.interpret program) (.interpret program')
  | execute {n n' : Node} {f f' : FrameId} (h : L.stmt w n f n' f') :
    L.OperationAlike w (.execute n f) (.execute n' f')
  | evaluate {n n' : Node} {f f' : FrameId} (h : L.expr w n f n' f') :
    L.OperationAlike w (.evaluate n f) (.evaluate n' f')
  | call {c c' : Value} {args args' : List Value} (hc : L.ValueAlike w c c')
    (hargs : List.Forall₂ (L.ValueAlike w) args args') :
    L.OperationAlike w (.call c args) (.call c' args')

/-- Related operations are performed alike. -/
theorem OperationAlike.ends (law : L.Law) {e e' : Evaluator}
    (parts : L.Parts e.execute e'.execute e.evaluate e'.evaluate e.call e'.call)
    {op op' : Operation} (h : L.OperationAlike w op op') :
    L.Alike w (fun w₁ => Option.Rel (L.ValueAlike w₁)) (op.perform e L.host)
      (op'.perform e' L.host) := by
  cases h with
  | interpret h =>
    refine Alike.outermost law ?_
    rw [← h.length_eq]
    refine (record_alike fun hl => law.log_interpreting _ hl).bind fun later _ => ?_
    refine (raiseLimit_alike law).bind fun later' _ => ?_
    refine (runAll_alike law parts (stmts_mono law (later.trans later') h)).bind fun _ outcome => ?_
    exact .pure outcome.value
  | execute h => exact (parts.run h).bind fun _ outcome => .pure outcome.value
  | evaluate h => exact (parts.eval h).bind fun _ hv => .pure (.some hv)
  | call hc hargs => exact parts.call hc hargs

/-- A run that is watched and one that is not are alike, if the condition holds of related values in
related states. -/
theorem Law.watched (law : L.Law) (watch : Watch)
    (holds : ∀ {w c c' args args' s s'}, L.ValueAlike w c c' →
      List.Forall₂ (L.ValueAlike w) args args' → L.StateAlike w s s' → watch.ok c args s)
        (fuel : Nat) :
    L.Parts (watch.execute L.host fuel) (LoxLang.execute L.host fuel)
      (watch.evaluate L.host fuel) (LoxLang.evaluate L.host fuel)
      (watch.call L.host fuel) (LoxLang.call L.host fuel) ∧
    ∀ {w c c' args args'}, L.ValueAlike w c c' → List.Forall₂ (L.ValueAlike w) args args' →
      L.Alike w (fun w₁ => Option.Rel (L.ValueAlike w₁)) (watch.invoke L.host fuel c args)
        (invoke L.host fuel c' args') := by
  induction fuel with
  | zero =>
    exact ⟨⟨fun _ => .starve, fun _ => .starve, fun _ _ => .starve⟩, fun _ _ => .starve⟩
  | succ fuel ih =>
    obtain ⟨parts, hinvoke⟩ := ih
    refine ⟨⟨fun hn => ?_, fun hn => ?_, fun hc hargs => ?_⟩, fun hc hargs => ?_⟩
    · exact ((law.statement hn).ends law parts fuel).locate fun he => law.locate_stmt hn he
    · exact ((law.expression hn).ends law parts).locate fun he => law.locate_expr hn he
    · exact callWith_alike law hinvoke hc hargs
    · intro s s' hs
      have ends := invokeWith_alike law parts hc hargs s s' hs
      simp only [Watch.invoke, Action.guarded, if_pos (holds hc hargs hs)]
      exact ends

end Lockstep

end LoxLang
