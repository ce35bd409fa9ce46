import LoxLang.Proofs.Manner

/-!
# Returning as a non-local exit

Statements say how they end, and each construct looks at how its parts have ended. The reference is
an evaluator that does without: a `return` is a non-local exit which carries its value out of
everything that is under way, up to the call that it belongs to or to the end of the program.

* `Exiting`: actions that may be left by an exit.
* `Manner.exits`: the manner of the reference. Only the body of a function catches an exit.
* `Exiting.outcome`: what is reported of statements outside every call.
* `Exiting.interpret`: the reference for whole programs.

Results: `exits_simulate` — the two manners correspond, and no exit leaves an expression or a
call; `outcomes_implement_exits`.
-/

set_option autoImplicit false

namespace LoxLang

/-- Actions that may be left by an exit, which carries a value or none. -/
abbrev Exiting := ExceptT (Option Value) Action

/-- What is reported of statements that may have been left. -/
def Exiting.outcome (x : Exiting Unit) : Action Outcome := do
  match ← x.run with
  | .ok () => pure .normal
  | .error v => pure (.returning v)

/-- The manner of the reference: a `return` leaves, nothing looks at how statements end, and the
body of a function catches what leaves it. -/
def Manner.exits : Manner Exiting Unit where
  act a := ExceptT.lift a
  node n x := ExceptT.mk (x.run.locate n.place)
  counted x := ExceptT.mk x.run.nested
  normal := pure ()
  returned v := throw v
  andThen a b := do
    a
    b
  body x := ExceptT.lift do
    match ← x.run with
    | .ok () => pure none
    | .error v => pure v

/-- A program under the reference; an exit outside every call ends it. -/
def Exiting.interpret (host : Host) (fuel : Nat) (program : List Node) : Action Outcome :=
  (Manner.exits.interpret host fuel program).outcome.outermost

/-! ## Exits on their way

An action that leaves nothing is `ExceptT.lift` of an action of the evaluator. -/

namespace Exiting

variable {α β : Type}

theorem lift_apply (a : Action α) (s : State) :
    (ExceptT.lift a : Exiting α).run s =
      match a s with
      | .done x t => .done (.ok x) t
      | .failed e t => .failed e t
      | .outOfFuel => .outOfFuel := rfl

theorem bind_run (x : Exiting α) (k : α → Exiting β) (s : State) :
    (x >>= k).run s =
      match x.run s with
      | .done (.ok a) t => (k a).run t
      | .done (.error v) t => .done (.error v) t
      | .failed e t => .failed e t
      | .outOfFuel => .outOfFuel := by
  show (x.run >>= ExceptT.bindCont k) s = _
  rw [Action.bind_apply]
  cases x.run s with
  | done r t => cases r <;> rfl
  | failed e t => rfl
  | outOfFuel => rfl

theorem outcome_apply (x : Exiting Unit) (s : State) :
    x.outcome s =
      match x.run s with
      | .done (.ok ()) t => .done .normal t
      | .done (.error v) t => .done (.returning v) t
      | .failed e t => .failed e t
      | .outOfFuel => .outOfFuel := by
  unfold outcome
  rw [Action.bind_apply]
  cases x.run s with
  | done r t => cases r <;> rfl
  | failed e t => rfl
  | outOfFuel => rfl

end Exiting

open Exiting in
/-- **The manners of the evaluator and of the reference correspond.** Expressions and calls are left
by no exit, and statements report what the reference reports of them. -/
theorem exits_simulate :
    Manner.Simulates Manner.plain Manner.exits
      (fun {α : Type} (a : Action α) x => x = ExceptT.lift a) (fun a x => a = x.outcome) where
  act _ := rfl
  pure _ := rfl
  bind {α β a x k k'} hx hk := by
    subst hx
    funext s
    show (ExceptT.lift a >>= k' : Exiting β).run s = (ExceptT.lift (a >>= k) : Exiting β).run s
    rw [bind_run, lift_apply, lift_apply, Action.bind_apply]
    cases a s with
    | done y t => exact congrFun (hk y) t
    | failed e t => rfl
    | outOfFuel => rfl
  node {α a x} n hx := by
    subst hx
    funext s
    show ((ExceptT.lift a : Exiting α).run.locate n.place) s =
      (ExceptT.lift (a.locate n.place) : Exiting α).run s
    simp only [lift_apply, Action.locate]
    cases a s <;> rfl
  counted {α a x} hx := by
    subst hx
    funext s
    show (ExceptT.lift a : Exiting α).run.nested s = (ExceptT.lift a.nested : Exiting α).run s
    simp only [lift_apply, Action.nested]
    cases a { s with depth := s.depth + 1 } with
    | done y t => rfl
    | failed e t => cases e <;> rfl
    | outOfFuel => rfl
  starve := rfl
  fail _ := rfl
  first {α a x k k'} hx hk := by
    subst hx
    funext s
    rw [outcome_apply, bind_run, lift_apply, Action.bind_apply]
    cases a s with
    | done y t =>
      show k y t = _
      rw [hk y, outcome_apply]
    | failed e t => rfl
    | outOfFuel => rfl
  stmt {a x} n ha := by
    subst ha
    funext s
    show x.outcome.locate n.place s = outcome (ExceptT.mk (x.run.locate n.place)) s
    rw [outcome_apply (ExceptT.mk (x.run.locate n.place)), ExceptT.run_mk]
    simp only [Action.locate, outcome_apply]
    cases x.run s with
    | done r t => cases r <;> rfl
    | failed e t => rfl
    | outOfFuel => rfl
  normal := rfl
  returned _ := rfl
  andThen {a b x y} ha hb := by
    subst ha hb
    funext s
    show (x.outcome >>= fun outcome => _) s = (x >>= fun _ => y : Exiting Unit).outcome s
    rw [outcome_apply, bind_run, Action.bind_apply, outcome_apply]
    cases x.run s with
    | done r t =>
      cases r with
      | ok _ => exact outcome_apply y t
      | error v => rfl
    | failed e t => rfl
    | outOfFuel => rfl
  body {a x} ha := by
    subst ha
    refine congrArg (fun a : Action (Option Value) => (ExceptT.lift a : Exiting (Option Value))) ?_
    funext s
    show (x.run >>= fun r => _) s = (x.outcome >>= fun outcome => _) s
    rw [Action.bind_apply, Action.bind_apply, outcome_apply]
    cases x.run s with
    | done r t => cases r <;> rfl
    | failed e t => rfl
    | outOfFuel => rfl

/-- **Threaded outcomes implement the non-local exit.** For every list of statements, every program,
frame and state, the evaluator ends exactly as the reference does: with the same outcome or failure,
and in the same state, hence with the same output, frames and depth of calls. In the reference an
exit passes every node and skips what comes after it, until the body of a function turns it into the
result; and no expression and no call is ever left by one. -/
theorem outcomes_implement_exits (host : Host) (fuel : Nat) :
    (∀ ns f s, runAll (fun n => execute host fuel n f) ns s =
      (Manner.exits.runAll (fun n => Manner.exits.execute host fuel n f) ns).outcome s) ∧
    (∀ program s, interpret host fuel program s = Exiting.interpret host fuel program s) ∧
    (∀ n f, Manner.exits.evaluate host fuel n f = ExceptT.lift (evaluate host fuel n f)) ∧
    (∀ callee args, Manner.exits.call host fuel callee args = ExceptT.lift
      (call host fuel callee args)) ∧
    (∀ v rest, Manner.exits.andThen (Manner.exits.returned v) rest = Manner.exits.returned v) ∧
    (∀ n v, Manner.exits.node n (Manner.exits.returned v) = Manner.exits.returned v) ∧
    (∀ v, Manner.exits.body (Manner.exits.returned v) = pure v) := by
  obtain ⟨plainRun, plainEval, -, plainCall⟩ := Manner.plain_evaluators host fuel
  obtain ⟨hrun, heval, -, hcall⟩ := exits_simulate.evaluators host fuel
  rw [plainRun] at hrun
  rw [plainEval] at heval
  rw [plainCall] at hcall
  refine ⟨fun ns f s => ?_, fun program s => ?_, heval, hcall, fun v rest => rfl, fun n v => rfl,
    fun v => rfl⟩
  · rw [← Manner.plain_runAll]
    exact congrFun (exits_simulate.runAll (fun n => hrun n f) ns) s
  · rw [Manner.plain_interpret, exits_simulate.interpret host fuel program]
    rfl

end LoxLang
