import LoxLang.Proofs.Scope
import LoxLang.Proofs.Watch
import LoxLang.Run.Congruence

/-!
# The depth of calls

However an action ends, as many calls are active afterwards as before, and a function is entered
only while the number of active calls, its own call included, is within the limit.

* `evaluators_onward`: no action of the evaluator can undo what `State.Onward` says.
* `Counted`: what the depth is when a function is entered.
* `Watch.counted`: watching for it never raises an alarm, since a call checks the limit before it
  counts.

Results: `depth_balanced_and_bounded`.
-/

set_option autoImplicit false

namespace LoxLang

/-! ## Balance -/

/-- That the second of two actions is onward is kept by the evaluator. -/
theorem onward_congruence : Congruence fun {α : Type} (_ a : Action α) => a.Onward where
  self h := h
  bind h k := .bind h k
  locate place h := .locate place h
  nested h := .nested h

theorem evaluators_onward (host : Host) (fuel : Nat) :
    (∀ n f, (execute host fuel n f).Onward) ∧ (∀ n f, (evaluate host fuel n f).Onward) ∧
    (∀ callee args, (invoke host fuel callee args).Onward) ∧
    (∀ callee args, (call host fuel callee args).Onward) :=
  onward_congruence.evaluators (onward_congruence.sameHost host) fuel

theorem runAll_onward (host : Host) (fuel : Nat) (ns : List Node) (f : FrameId) :
    (runAll (fun n => execute host fuel n f) ns).Onward := by
  have each : ∀ n, (execute host fuel n f).Onward := fun n => (evaluators_onward host fuel).1 n f
  exact @Congruence.runAll _ onward_congruence (fun n => execute host fuel n f) _ each ns

theorem interpret_onward (host : Host) (fuel : Nat) (program : List Node) :
    (interpret host fuel program).Onward := by
  refine .outermost (.bind (.record _) fun _ => .bind (.raiseLimit host) fun _ => ?_)
  exact runAll_onward host fuel program host.globals

theorem Action.Onward.ends {α : Type} {act : Action α} (h : act.Onward) {s t : State}
    (ends : (act s).state? = some t) : s.Onward t := by
  have onward := h s
  cases hs : act s with
  | done x u =>
    rw [hs] at ends onward
    cases ends
    exact onward
  | failed e u =>
    rw [hs] at ends onward
    cases ends
    exact onward
  | outOfFuel =>
    rw [hs] at ends
    cases ends

/-! ## The bound -/

/-- When a function is entered, a call is active, and no more than allowed are. -/
def Counted (host : Host) (_ : Value) (_ : List Value) (s : State) : Prop :=
  1 ≤ s.depth ∧ (s.depth : Int) ≤ host.maxDepth

/-- Two ways to run functions that agree while the limit is kept make the same calls. -/
theorem callWith_counted {host : Host}
    {invoke invoke' : Value → List Value → Action (Option Value)}
    (h : ∀ callee args s, Counted host callee args s →
      invoke callee args s = invoke' callee args s)
    (callee : Value) (args : List Value) :
    callWith host invoke callee args = callWith host invoke' callee args := by
  rw [callWith_eq, callWith_eq]
  split
  · rfl
  · split
    · rfl
    · funext s
      simp only [Action.bind_apply, Action.activeCalls, Action.limited]
      by_cases full : host.maxDepth ≤ s.depth
      · rw [if_pos full, if_pos full]
      · have room : Counted host callee args { s with depth := s.depth + 1 } := by
          constructor <;> simp only <;> omega
        simp only [if_neg full, Action.nested, h callee args _ room]

/-- Watching for the depth raises no alarm: the evaluator under such a watch is the evaluator. -/
theorem Watch.counted (host : Host) (alarm : Failure) (fuel : Nat) :
    Watch.execute ⟨Counted host, alarm⟩ host fuel = LoxLang.execute host fuel ∧
    Watch.evaluate ⟨Counted host, alarm⟩ host fuel = LoxLang.evaluate host fuel ∧
    Watch.call ⟨Counted host, alarm⟩ host fuel = LoxLang.call host fuel ∧
    ∀ callee args s, Counted host callee args s →
      Watch.invoke ⟨Counted host, alarm⟩ host fuel callee args s =
        LoxLang.invoke host fuel callee args s := by
  induction fuel with
  | zero => exact ⟨rfl, rfl, rfl, fun _ _ _ _ => rfl⟩
  | succ fuel ih =>
    obtain ⟨hrun, heval, hcall, hinvoke⟩ := ih
    refine ⟨?_, ?_, ?_, fun callee args s room => ?_⟩
    · funext n f
      rw [Watch.execute, LoxLang.execute, hrun, heval]
    · funext n f
      rw [Watch.evaluate, LoxLang.evaluate, heval, hcall]
    · funext callee args
      rw [Watch.call, LoxLang.call]
      exact callWith_counted hinvoke callee args
    · rw [Watch.invoke, LoxLang.invoke, hrun, hcall, Action.guarded, if_pos room]

theorem Operation.counted (op : Operation) (host : Host) (fuel : Nat) (s : State) :
    op.Throughout host fuel s (Counted host) := by
  intro alarm
  obtain ⟨hrun, heval, hcall, -⟩ := Watch.counted host alarm fuel
  rw [Watch.evaluator, hrun, heval, hcall]
  rfl

/-- **The depth of calls is balanced and bounded.** However an action ends, normally or with any
failure, the depth of calls is the one before. Whenever a function is entered, native or declared,
called by the program or by another native, the depth is at least one and at most the limit; so a
limit of zero or less lets no function be entered. -/
theorem depth_balanced_and_bounded (host : Host) (fuel : Nat) (s t : State) :
    ((∀ n f, (execute host fuel n f s).state? = some t → t.depth = s.depth) ∧
      (∀ n f, (evaluate host fuel n f s).state? = some t → t.depth = s.depth) ∧
      (∀ ns f, (runAll (fun n => execute host fuel n f) ns s).state? = some t →
        t.depth = s.depth) ∧
      (∀ callee args, (call host fuel callee args s).state? = some t → t.depth = s.depth) ∧
      (∀ program, (interpret host fuel program s).state? = some t → t.depth = s.depth)) ∧
    (∀ op : Operation, op.Throughout host fuel s fun _ _ u =>
      1 ≤ u.depth ∧ (u.depth : Int) ≤ host.maxDepth) ∧
    (∀ alarm ns f, runAll (fun n => Watch.execute ⟨Counted host, alarm⟩ host fuel n f) ns s =
      runAll (fun n => execute host fuel n f) ns s) ∧
    (host.maxDepth ≤ 0 → ∀ op : Operation, op.Throughout host fuel s fun _ _ _ => False) := by
  obtain ⟨hrun, heval, -, hcall⟩ := evaluators_onward host fuel
  refine ⟨⟨fun n f h => ((hrun n f).ends h).depth, fun n f h => ((heval n f).ends h).depth,
    fun ns f h => ((runAll_onward host fuel ns f).ends h).depth,
    fun callee args h => ((hcall callee args).ends h).depth,
    fun program h => ((interpret_onward host fuel program).ends h).depth⟩,
    fun op => op.counted host fuel s, fun alarm ns f => ?_, fun none op => ?_⟩
  · rw [(Watch.counted host alarm fuel).1]
  · have never : (fun _ _ _ => False) = Counted host := by
      funext callee args u
      refine propext ⟨False.elim, fun h => ?_⟩
      have := h.1
      have := h.2
      omega
    rw [never]
    exact op.counted host fuel s

/-- The statement `x();`. -/
def callOf (x : String) : Node :=
  .tree .expressionStmt [.tree .call [.tree .reference [.word (.terminal .identifier) x .unknown]
    .unknown, .absent] .unknown] .unknown

/-- A function with the given body, and a call of it: `fun f() { ... } f();`. -/
def calledOnce (body : List Node) : List Node :=
  [.tree .functionDecl [.word (.terminal .identifier) "f" .unknown, .absent,
    .tree .block body .unknown] .unknown, callOf "f"]

/-- A function that calls itself, and a call of it: `fun f() { f(); } f();`. -/
def endlessRecursion : List Node := calledOnce [callOf "f"]

/-- Endless recursion under a limit of three calls ends with none of them active, and under a limit
of zero calls the function is never entered. -/
theorem depth_balanced_recursion :
    let host : Host := ⟨0, 3, ⟨1000, 10⟩, fun _ => false, fun _ => 0⟩
    let closed : Host := ⟨0, 0, ⟨1000, 10⟩, fun _ => false, fun _ => 0⟩
    (∃ t, (interpret host 20 endlessRecursion State.fresh).state? = some t ∧ t.depth = 0) ∧
      closed.maxDepth ≤ 0 ∧
      (Operation.interpret endlessRecursion).Throughout closed 20 State.fresh fun _ _ _ =>
        False := by
  intro host closed
  have ends : (interpret host 20 endlessRecursion State.fresh).state?.isSome = true := by
    decide +kernel
  obtain ⟨t, ends⟩ := Option.isSome_iff_exists.1 ends
  obtain ⟨balanced, -⟩ := depth_balanced_and_bounded host 20 State.fresh t
  obtain ⟨-, -, -, never⟩ := depth_balanced_and_bounded closed 20 State.fresh t
  have none : closed.maxDepth ≤ 0 := by decide
  exact ⟨⟨t, ends, balanced.2.2.2.2 endlessRecursion ends⟩, none, never none _⟩

end LoxLang
