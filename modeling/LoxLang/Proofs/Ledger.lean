import LoxLang.Proofs.Form
import LoxLang.Proofs.Termination
import LoxLang.Proofs.Watch

/-!
# The ledger of declared functions

Each execution of a declaration makes one function. A ledger lists the functions made so far, in
order, and a run appends to it: nothing else makes a function, and no entry is changed or made
twice.

* `Observer`: an evaluator that raises an alarm if a condition does not hold when a function is
  entered or returns, an infix operator is applied or a declaration is executed;
  `Operation.Observed`: conditions that hold at all these moments.
* `State.Made`: a state and its ledger. Marks go up along the ledger and stay below the next mark,
  every function that a frame binds is in it, and the declarations noted down in the log are its
  entries.
* `Action.Makes`: an action that extends the ledger, together with the same action under
  observation.

Results: `evaluators_make` — the evaluator makes functions only by declarations, by induction on
the fuel; `Operation.makes` — so do the operations of a host.
-/

set_option autoImplicit false

namespace LoxLang

variable {α β : Type}

/-! ## Observed runs -/

/-- A condition on the values that are passed, returned or operands of an infix operator, one on
functions that declarations are about to make, each with the state at that moment, and an alarm. -/
structure Observer where
  seen : List Value → State → Prop
  declared : Closure → State → Prop
  alarm : Failure

namespace Observer

/-- An action before which some values are seen. -/
noncomputable def sees (o : Observer) (vs : List Value) (act : Action α) : Action α :=
  Action.guarded (o.seen vs) o.alarm act

/-- Evaluates an expression under observation, which concerns the operands of an infix operator. -/
noncomputable def expression (o : Observer) (evaluate : Node → FrameId → Action Value)
    (call : Value → List Value → Action (Option Value)) (f : FrameId) :
    Expression → Action Value
  | .binary left op right => do
    let a ← evaluate left f
    let b ← evaluate right f
    o.sees [a, b] do
      let mark ← Action.freshMark
      Action.ofExcept (applyBinary mark op a b)
  | expression => expression.evaluate evaluate call f

/-- Runs a statement under observation, which concerns declarations. -/
noncomputable def statement (o : Observer) (host : Host) (fuel : Nat)
    (execute : Node → FrameId → Action Outcome) (evaluate : Node → FrameId → Action Value)
    (f : FrameId) :
    Statement → Action Outcome
  | .function name params body =>
    Action.guarded (fun s => o.declared ⟨name, params, body, f, s.nextMark⟩ s) o.alarm
      (Statement.run host fuel execute evaluate f (.function name params body))
  | statement => statement.run host fuel execute evaluate f

mutual

/-- `execute` under observation. -/
noncomputable def execute (o : Observer) (host : Host) (fuel : Nat) (node : Node) (f : FrameId) :
    Action Outcome :=
  match fuel with
  | 0 => Action.starve
  | fuel + 1 =>
    Action.locate node.place
      (o.statement host fuel (o.execute host fuel) (o.evaluate host fuel) f node.statement)

/-- `evaluate` under observation. -/
noncomputable def evaluate (o : Observer) (host : Host) (fuel : Nat) (node : Node) (f : FrameId) :
    Action Value :=
  match fuel with
  | 0 => Action.starve
  | fuel + 1 =>
    Action.locate node.place
      (o.expression (o.evaluate host fuel) (o.call host fuel) f node.expression)

/-- `invoke` under observation, which concerns the function that is entered, the arguments and the
result. -/
noncomputable def invoke (o : Observer) (host : Host) (fuel : Nat) (callee : Value)
    (args : List Value) : Action (Option Value) :=
  match fuel with
  | 0 => Action.starve
  | fuel + 1 =>
    o.sees (callee :: args) do
      let result ← invokeWith host (o.execute host fuel) (o.call host fuel) callee args
      o.sees result.toList (pure result)

/-- `call` under observation. -/
noncomputable def call (o : Observer) (host : Host) (fuel : Nat) (callee : Value)
    (args : List Value) : Action (Option Value) :=
  match fuel with
  | 0 => Action.starve
  | fuel + 1 => callWith host (o.invoke host fuel) callee args

end

/-- The evaluator with some fuel under observation. -/
noncomputable def evaluator (o : Observer) (host : Host) (fuel : Nat) : Evaluator :=
  ⟨o.execute host fuel, o.evaluate host fuel, o.call host fuel⟩

end Observer

/-- Whenever a function is entered or returns, an infix operator is applied or a declaration is
executed during an operation, the condition for it holds: the operation ends as if it were not
observed, whatever the alarm. -/
def Operation.Observed (op : Operation) (host : Host) (fuel : Nat) (s : State)
    (seen : List Value → State → Prop) (declared : Closure → State → Prop) : Prop :=
  ∀ alarm, op.perform (Observer.evaluator ⟨seen, declared, alarm⟩ host fuel) host s =
    op.perform (evaluator host fuel) host s

/-! ## Ledgers -/

/-- The name and the number of parameters of a declaration that is noted down. -/
def Record.declaration? : Record → Option (String × Nat)
  | .declared name arity => some (name, arity)
  | _ => none

/-- The declarations that have been noted down, in order. -/
def State.declarations (s : State) : List (String × Nat) :=
  s.log.toList.filterMap Record.declaration?

/-- What is noted down when a function is made. -/
def Closure.declaration (c : Closure) : String × Nat := (c.name, c.params.length)

/-- A function is in the ledger; other values need not be. -/
def Value.Among (made : List Closure) (v : Value) : Prop := ∀ c, v = .function c → c ∈ made

/-- The same for a value that a statement may return. -/
def Outcome.Among (made : List Closure) (outcome : Outcome) : Prop :=
  ∀ v ∈ outcome.value?, v.Among made

/-- The marks of a ledger go up. -/
def Ledger.Ordered (made : List Closure) : Prop := made.Pairwise fun c d => c.mark < d.mark

/-- A state and the ledger of the functions made so far. -/
structure State.Made (made : List Closure) (s : State) : Prop where
  ordered : Ledger.Ordered made
  issued : ∀ c ∈ made, c.mark < s.nextMark
  bound : s.store.Holds (Value.Among made)
  noted : s.declarations = made.map Closure.declaration

/-- Values are seen, and the functions among them are in the ledger of that moment, from which the
ledger `made` goes on. -/
def Ledger.Seen (made : List Closure) (vs : List Value) (s : State) : Prop :=
  ∃ now, now <+: made ∧ s.Made now ∧ ∀ v ∈ vs, v.Among now

/-- A declaration is executed, and the function it makes is the next in the ledger `made`. -/
def Ledger.Declared (made : List Closure) (c : Closure) (s : State) : Prop :=
  ∃ now, now ++ [c] <+: made ∧ s.Made now

/-- The observer that compares a run with a ledger. -/
def Observer.ledger (made : List Closure) (alarm : Failure) : Observer :=
  ⟨Ledger.Seen made, Ledger.Declared made, alarm⟩

section Ledger

variable {made later : List Closure} {s : State} {v : Value}

theorem Value.Among.mono (h : v.Among made) (grown : made <+: later) : v.Among later :=
  fun c hc => grown.subset (h c hc)

theorem Value.Among.of_data (h : ∀ c, v ≠ .function c) : v.Among made :=
  fun c hc => absurd hc (h c)

theorem Value.among_all_mono {vs : List Value} (h : ∀ v ∈ vs, v.Among made)
    (grown : made <+: later) :
    ∀ v ∈ vs, v.Among later := fun v hv => (h v hv).mono grown

namespace State.Made

/-- A value may be bound that is no new function. -/
theorem define (h : s.Made made) (f : FrameId) (x : String) (hv : v.Among made) :
    State.Made made { s with store := s.store.define f x v } :=
  ⟨h.ordered, h.issued, h.bound.define f x hv, h.noted⟩

theorem defineAll (h : s.Made made) (f : FrameId) {b : Bindings}
    (hb : ∀ p ∈ b, p.2.Among made) :
    State.Made made { s with store := s.store.defineAll f b } :=
  ⟨h.ordered, h.issued, h.bound.defineAll f hb, h.noted⟩

theorem child (h : s.Made made) (f : FrameId) :
    State.Made made { s with store := s.store.child f } :=
  ⟨h.ordered, h.issued, h.bound.child f, h.noted⟩

theorem withGlobals (h : s.Made made) (natives : List Native) :
    State.Made made { s with store := s.store.withGlobals natives } :=
  ⟨h.ordered, h.issued, h.bound.withGlobals fun _ _ => .of_data nofun, h.noted⟩

theorem freshMark (h : s.Made made) : State.Made made { s with nextMark := s.nextMark + 1 } :=
  ⟨h.ordered, fun c hc => Nat.lt_succ_of_lt (h.issued c hc), h.bound, h.noted⟩

/-- What is noted down besides declarations does not concern the ledger. -/
theorem record (h : s.Made made) {r : Record} (hr : r.declaration? = none) :
    State.Made made { s with log := s.log.push r } := by
  refine ⟨h.ordered, h.issued, h.bound, ?_⟩
  rw [← h.noted]
  simp [State.declarations, hr]

/-- The other parts of a state do not concern the ledger. -/
theorem of_eq (h : s.Made made) {t : State} (store : t.store = s.store)
    (marks : t.nextMark = s.nextMark) (log : t.log = s.log) : t.Made made := by
  refine ⟨h.ordered, ?_, ?_, ?_⟩
  · rw [marks]
    exact h.issued
  · rw [store]
    exact h.bound
  · rw [← h.noted, State.declarations, log]
    rfl

/-- **An execution of a declaration appends its function to the ledger.** -/
theorem declare (h : s.Made made) (name : String) (params : List String) (body : List Node)
    (f : FrameId) :
    State.Made (made ++ [⟨name, params, body, f, s.nextMark⟩])
      { s with
        store := s.store.define f name (.function ⟨name, params, body, f, s.nextMark⟩)
        nextMark := s.nextMark + 1
        log := s.log.push (.declared name params.length) } := by
  have grown : made <+: made ++ [⟨name, params, body, f, s.nextMark⟩] := List.prefix_append _ _
  refine ⟨?_, ?_, ?_, ?_⟩
  · rw [Ledger.Ordered, List.pairwise_append]
    refine ⟨h.ordered, List.pairwise_singleton _ _, fun c hc d hd => ?_⟩
    rw [List.mem_singleton.1 hd]
    exact h.issued c hc
  · intro c hc
    show c.mark < s.nextMark + 1
    rcases List.mem_append.1 hc with hc | hc
    · exact Nat.lt_succ_of_lt (h.issued c hc)
    · rw [List.mem_singleton.1 hc]
      exact Nat.lt_succ_self _
  · have kept : s.store.Holds (Value.Among (made ++ [⟨name, params, body, f, s.nextMark⟩])) :=
      fun g x v hv => (h.bound g x v hv).mono grown
    refine kept.define f name ?_
    rintro c ⟨⟩
    exact List.mem_append_right _ (List.mem_singleton.2 rfl)
  · have noted := h.noted
    unfold State.declarations at noted ⊢
    simp [noted, Record.declaration?, Closure.declaration]

end State.Made

end Ledger

/-! ## Actions -/

theorem Action.bind_pure (act : Action α) : (act >>= fun x => Pure.pure x) = act := by
  funext s
  rw [bind_apply]
  cases act s <;> rfl

/-- The state that is left has the ledger `made`, and the result is of a kind. Where no state is
left, the ledger is that of an earlier one. -/
inductive Ending.Makes (made : List Closure) (V : List Closure → α → Prop) : Ending α → Prop
  | done {x : α} {t : State} (ledger : t.Made made) (hx : V made x) : Makes made V (.done x t)
  | failed {e : Failure} {t : State} (ledger : t.Made made) : Makes made V (.failed e t)
  | outOfFuel (ordered : Ledger.Ordered made) : Makes made V .outOfFuel

theorem Ending.Makes.ordered {made : List Closure} {V : List Closure → α → Prop}
    {ending : Ending α} (h : ending.Makes made V) : Ledger.Ordered made := by
  cases h with
  | done ledger => exact ledger.ordered
  | failed ledger => exact ledger.ordered
  | outOfFuel ordered => exact ordered

/-- An action that, from any ledger that goes on from `made`, extends the ledger. If the observed
action is compared with a ledger that goes on from the last, it raises no alarm. -/
def Action.Makes (made : List Closure) (observed : Observer → Action α) (act : Action α)
    (V : List Closure → α → Prop) : Prop :=
  ∀ s now, made <+: now → s.Made now → ∃ later, now <+: later ∧ (act s).Makes later V ∧
    ∀ final alarm, later <+: final → observed (.ledger final alarm) s = act s

namespace Action.Makes

variable {made later : List Closure} {observed : Observer → Action α} {act : Action α}
variable {V : List Closure → α → Prop} {W : List Closure → β → Prop}

theorem mono (h : Action.Makes made observed act V) (grown : made <+: later) :
    Action.Makes later observed act V := fun s now hnow hs => h s now (grown.trans hnow) hs

/-- An action that leaves the ledger as it is and is not observed. -/
theorem of_kept (h : ∀ s now, made <+: now → s.Made now → (act s).Makes now V) :
    Action.Makes made (fun _ => act) act V :=
  fun s now hnow hs => ⟨now, List.prefix_refl _, h s now hnow hs, fun _ _ _ => rfl⟩

theorem pure {x : α} (hx : ∀ now, made <+: now → V now x) :
    Action.Makes made (fun _ => Pure.pure x) (Pure.pure x) V :=
  of_kept fun _ now hnow hs => .done hs (hx now hnow)

theorem fail {e : Failure} : Action.Makes made (fun _ => Action.fail e) (Action.fail e) V :=
  of_kept fun _ _ _ hs => .failed hs

theorem starve : Action.Makes made (fun _ => Action.starve) Action.starve V :=
  of_kept fun _ _ _ hs => .outOfFuel hs.ordered

/-- In a sequence the second action goes on from the ledger that the first has left. -/
theorem bind {k : α → Action β} {observedK : Observer → α → Action β}
    (h : Action.Makes made observed act V)
    (hk : ∀ now x, made <+: now → V now x →
      Action.Makes now (fun o => observedK o x) (k x) W) :
    Action.Makes made (fun o => observed o >>= observedK o) (act >>= k) W := by
  intro s now hnow hs
  obtain ⟨middle, hmiddle, ends, same⟩ := h s now hnow hs
  cases hact : act s with
  | done x t =>
    rw [hact] at ends
    cases ends with
    | done ledger hx =>
      obtain ⟨last, hlast, ends', same'⟩ :=
        hk middle x (hnow.trans hmiddle) hx t middle (List.prefix_refl _) ledger
      refine ⟨last, hmiddle.trans hlast, ?_, fun final alarm hfinal => ?_⟩
      · rw [Action.bind_apply, hact]
        exact ends'
      · simp only [Action.bind_apply, same final alarm (hlast.trans hfinal), hact]
        exact same' final alarm hfinal
  | failed e t =>
    rw [hact] at ends
    cases ends with
    | failed ledger =>
      refine ⟨middle, hmiddle, ?_, fun final alarm hfinal => ?_⟩
      · rw [Action.bind_apply, hact]
        exact .failed ledger
      · simp only [Action.bind_apply, same final alarm hfinal, hact]
  | outOfFuel =>
    rw [hact] at ends
    cases ends with
    | outOfFuel ordered =>
      refine ⟨middle, hmiddle, ?_, fun final alarm hfinal => ?_⟩
      · rw [Action.bind_apply, hact]
        exact .outOfFuel ordered
      · simp only [Action.bind_apply, same final alarm hfinal, hact]

theorem locate (place : Place) (h : Action.Makes made observed act V) :
    Action.Makes made (fun o => (observed o).locate place) (act.locate place) V := by
  intro s now hnow hs
  obtain ⟨last, hlast, ends, same⟩ := h s now hnow hs
  refine ⟨last, hlast, ?_, fun final alarm hfinal => ?_⟩
  · unfold Action.locate
    generalize act s = ending at ends ⊢
    cases ends with
    | done ledger hx => exact .done ledger hx
    | failed ledger => exact .failed ledger
    | outOfFuel ordered => exact .outOfFuel ordered
  · simp only [Action.locate, same final alarm hfinal]

theorem nested (h : Action.Makes made observed act V) :
    Action.Makes made (fun o => (observed o).nested) act.nested V := by
  intro s now hnow hs
  obtain ⟨last, hlast, ends, same⟩ :=
    h { s with depth := s.depth + 1 } now hnow (hs.of_eq rfl rfl rfl)
  refine ⟨last, hlast, ?_, fun final alarm hfinal => ?_⟩
  · unfold Action.nested
    generalize act { s with depth := s.depth + 1 } = ending at ends ⊢
    cases ends with
    | done ledger hx => exact .done (ledger.of_eq rfl rfl rfl) hx
    | @failed e t ledger =>
      cases e with
      | exhausted => exact .failed ((ledger.record (r := .exhausted t.depth) rfl).of_eq rfl rfl rfl)
      | _ => exact .failed (ledger.of_eq rfl rfl rfl)
    | outOfFuel ordered => exact .outOfFuel ordered
  · simp only [Action.nested, same final alarm hfinal]

theorem outermost (h : Action.Makes made observed act V) :
    Action.Makes made (fun o => (observed o).outermost) act.outermost V := by
  intro s now hnow hs
  obtain ⟨last, hlast, ends, same⟩ := h s now hnow hs
  refine ⟨last, hlast, ?_, fun final alarm hfinal => ?_⟩
  · unfold Action.outermost
    generalize act s = ending at ends ⊢
    cases ends with
    | done ledger hx => exact .done ledger hx
    | @failed e t ledger => cases e <;> exact .failed ledger
    | outOfFuel ordered => exact .outOfFuel ordered
  · simp only [Action.outermost, same final alarm hfinal]

/-- Values of the ledger may be seen. -/
theorem sees {vs : List Value} (hvs : ∀ v ∈ vs, v.Among made)
    (h : Action.Makes made observed act V) :
    Action.Makes made (fun o => o.sees vs (observed o)) act V := by
  intro s now hnow hs
  obtain ⟨last, hlast, ends, same⟩ := h s now hnow hs
  refine ⟨last, hlast, ends, fun final alarm hfinal => ?_⟩
  -- the ledger of this moment is a part of the final one
  have seen : Ledger.Seen final vs s :=
    ⟨now, hlast.trans hfinal, hs, Value.among_all_mono hvs hnow⟩
  exact (if_pos seen).trans (same final alarm hfinal)

/-! ### Primitive actions -/

theorem raise (cause : Fault) :
    Action.Makes made (fun _ => Action.raise cause) (Action.raise cause) V := fail

theorem ofExcept {r : Except Fault α} (h : ∀ x, r = .ok x → ∀ now, V now x) :
    Action.Makes made (fun _ => Action.ofExcept r) (Action.ofExcept r) V := by
  cases r with
  | ok x => exact pure fun now _ => h x rfl now
  | error cause => exact raise cause

theorem lookup (f : FrameId) (x : String) :
    Action.Makes made (fun _ => Action.lookup f x) (Action.lookup f x) Value.Among := by
  refine of_kept fun s now _ hs => ?_
  unfold Action.lookup
  cases hv : s.store.get? f x with
  | none => exact .failed hs
  | some v => exact .done hs (hs.bound.get? hv)

theorem assign (f : FrameId) (x : String) {v : Value} (hv : v.Among made) :
    Action.Makes made (fun _ => Action.assign f x v) (Action.assign f x v) fun _ _ => True := by
  refine of_kept fun s now hnow hs => ?_
  unfold Action.assign
  cases s.store.resolve f x with
  | none => exact .failed hs
  | some owner => exact .done (hs.define owner x (hv.mono hnow)) trivial

theorem define (f : FrameId) (x : String) {v : Value} (hv : v.Among made) :
    Action.Makes made (fun _ => Action.define f x v) (Action.define f x v) fun _ _ => True :=
  of_kept fun _ _ hnow hs => .done (hs.define f x (hv.mono hnow)) trivial

theorem defineAll (f : FrameId) {b : Bindings} (hb : ∀ p ∈ b, p.2.Among made) :
    Action.Makes made (fun _ => Action.defineAll f b) (Action.defineAll f b) fun _ _ => True :=
  of_kept fun _ _ hnow hs => .done (hs.defineAll f fun p hp => (hb p hp).mono hnow) trivial

theorem enterFrame (f : FrameId) :
    Action.Makes made (fun _ => Action.enterFrame f) (Action.enterFrame f) fun _ _ => True :=
  of_kept fun _ _ _ hs => .done (hs.child f) trivial

theorem freshMark :
    Action.Makes made (fun _ => Action.freshMark) Action.freshMark fun _ _ => True :=
  of_kept fun _ _ _ hs => .done hs.freshMark trivial

theorem record {r : Record} (hr : r.declaration? = none) :
    Action.Makes made (fun _ => Action.record r) (Action.record r) fun _ _ => True :=
  of_kept fun _ _ _ hs => .done (hs.record hr) trivial

theorem raiseLimit (host : Host) :
    Action.Makes made (fun _ => Action.raiseLimit host) (Action.raiseLimit host) fun _ _ =>
      True := by
  unfold Action.raiseLimit
  cases host.refusal? with
  | some failure => exact .fail
  | none => exact .record rfl

theorem readClock (host : Host) :
    Action.Makes made (fun _ => Action.readClock host) (Action.readClock host) fun _ _ => True :=
  of_kept fun _ _ _ hs => .done (hs.of_eq rfl rfl rfl) trivial

theorem activeCalls :
    Action.Makes made (fun _ => Action.activeCalls) Action.activeCalls fun _ _ => True :=
  of_kept fun _ _ _ hs => .done hs trivial

theorem print (host : Host) (v : Value) :
    Action.Makes made (fun _ => Action.print host v) (Action.print host v) fun _ _ => True := by
  refine of_kept fun s now _ hs => ?_
  unfold Action.print
  simp only
  split
  · exact .failed (hs.of_eq rfl rfl rfl)
  · exact .done (hs.of_eq rfl rfl rfl) trivial

/-! ### Lists and loops -/

theorem runAll {run : Node → Action Outcome} {observedRun : Observer → Node → Action Outcome}
    (h : ∀ n, Action.Makes made (fun o => observedRun o n) (run n) Outcome.Among)
    (ns : List Node) :
    Action.Makes made (fun o => LoxLang.runAll (observedRun o) ns)
      (LoxLang.runAll run ns) Outcome.Among := by
  induction ns generalizing made with
  | nil => exact pure fun _ _ => nofun
  | cons n ns ih =>
    refine (h n).bind fun now outcome hnow ho => ?_
    cases outcome with
    | normal => exact ih fun n => (h n).mono hnow
    | returning v => exact pure fun later grown u hu => (ho u hu).mono grown

theorem evaluateAll {eval : Node → Action Value}
    {observedEval : Observer → Node → Action Value}
    (h : ∀ n, Action.Makes made (fun o => observedEval o n) (eval n) Value.Among)
    (ns : List Node) :
    Action.Makes made (fun o => LoxLang.evaluateAll (observedEval o) ns)
      (LoxLang.evaluateAll eval ns) fun now vs => ∀ v ∈ vs, v.Among now := by
  induction ns generalizing made with
  | nil => exact pure fun _ _ => nofun
  | cons n ns ih =>
    refine (h n).bind fun now v hnow hv => ?_
    refine (ih fun n => (h n).mono hnow).bind fun now' vs hnow' hvs => ?_
    refine pure fun later grown => List.forall_mem_cons.2 ⟨?_, Value.among_all_mono hvs grown⟩
    exact hv.mono (hnow'.trans grown)

theorem repeatWhile {test : Action Value} {body : Action Outcome}
    {observedTest : Observer → Action Value}
    {observedBody : Observer → Action Outcome}
    (htest : Action.Makes made observedTest test Value.Among)
    (hbody : Action.Makes made observedBody body Outcome.Among) (fuel : Nat) :
    Action.Makes made (fun o => LoxLang.repeatWhile (observedTest o) (observedBody o) fuel)
      (LoxLang.repeatWhile test body fuel) Outcome.Among := by
  induction fuel generalizing made with
  | zero => exact starve
  | succ fuel ih =>
    refine htest.bind fun now v hnow _ => ?_
    split
    · refine (hbody.mono hnow).bind fun now' outcome hnow' ho => ?_
      cases outcome with
      | normal => exact ih (htest.mono (hnow.trans hnow')) (hbody.mono (hnow.trans hnow'))
      | returning v => exact pure fun later grown u hu => (ho u hu).mono grown
    · exact pure fun _ _ => nofun

end Action.Makes

/-! ## Nodes and calls -/

/-- An evaluator that extends ledgers, together with the same under observation. -/
structure Evaluator.Makes (observed : Observer → Evaluator) (e : Evaluator) : Prop where
  execute : ∀ made n f, Action.Makes made (fun o => (observed o).execute n f)
    (e.execute n f) Outcome.Among
  evaluate : ∀ made n f, Action.Makes made (fun o => (observed o).evaluate n f)
    (e.evaluate n f) Value.Among
  call : ∀ made callee args, callee.Among made → (∀ v ∈ args, v.Among made) →
    Action.Makes made (fun o => (observed o).call callee args) (e.call callee args)
      fun now r => ∀ v ∈ r, v.Among now

section Nodes

variable {made : List Closure} {observed : Observer → Evaluator} {e : Evaluator} {host : Host}

/-- The function that an execution of a declaration makes has its name, parameters and body, the
frame that it is executed in and a new mark. -/
theorem declaration_run (fuel : Nat) (f : FrameId) (name : String) (params : List String)
    (body : List Node) (s : State) :
    Statement.run host fuel e.execute e.evaluate f (.function name params body) s =
      .done .normal { s with
        store := s.store.define f name (.function ⟨name, params, body, f, s.nextMark⟩)
        nextMark := s.nextMark + 1
        log := s.log.push (.declared name params.length) } := rfl

/-- **An execution of a declaration makes the next function of the ledger.** -/
theorem declaration_makes (fuel : Nat) (f : FrameId) (name : String) (params : List String)
    (body : List Node) :
    Action.Makes made
      (fun o => o.statement host fuel (observed o).execute (observed o).evaluate f
        (.function name params body))
      (Statement.run host fuel e.execute e.evaluate f (.function name params body))
        Outcome.Among := by
  intro s now hnow hs
  refine ⟨now ++ [⟨name, params, body, f, s.nextMark⟩], List.prefix_append _ _, ?_, ?_⟩
  · rw [declaration_run]
    exact .done (hs.declare name params body f) nofun
  · intro final alarm hfinal
    have declared : Ledger.Declared final ⟨name, params, body, f, s.nextMark⟩ s :=
      ⟨now, hfinal, hs⟩
    exact if_pos declared

/-- A statement extends the ledger as its parts do. -/
theorem statement_makes (h : Evaluator.Makes observed e) (fuel : Nat) (f : FrameId)
    (st : Statement) :
    Action.Makes made
      (fun o => o.statement host fuel (observed o).execute (observed o).evaluate f st)
        (st.run host fuel e.execute e.evaluate f) Outcome.Among := by
  have normal {now : List Closure} :
      Action.Makes now (fun _ => Pure.pure Outcome.normal) (Pure.pure .normal) Outcome.Among :=
    .pure fun _ _ => nofun
  cases st with
  | expression value => exact (h.evaluate made value f).bind fun _ _ _ _ => normal
  | print value =>
    exact (h.evaluate made value f).bind fun _ v _ _ =>
      (Action.Makes.print host v).bind fun _ _ _ _ => normal
  | declare name init =>
    cases init with
    | none =>
      have nil : Value.nil.Among made := .of_data nofun
      exact (Action.Makes.define f name nil).bind fun _ _ _ _ => normal
    | some value =>
      refine (h.evaluate made value f).bind fun _ v _ hv => ?_
      exact (Action.Makes.define f name hv).bind fun _ _ _ _ => normal
  | block body =>
    refine (Action.Makes.enterFrame f).bind fun now inner _ _ => ?_
    exact .runAll (fun n => h.execute now n inner) body
  | branch test yes no =>
    refine (h.evaluate made test f).bind fun now v _ _ => ?_
    split
    · exact h.execute now yes f
    · cases no with
      | none => exact normal
      | some no => exact h.execute now no f
  | loop test body => exact .repeatWhile (h.evaluate made test f) (h.execute made body f) fuel
  | function name params body => exact declaration_makes fuel f name params body
  | result value =>
    cases value with
    | none => exact .pure fun _ _ => nofun
    | some value =>
      refine (h.evaluate made value f).bind fun now v _ hv => .pure fun later grown => ?_
      rintro u ⟨⟩
      exact hv.mono grown
  | invalid failure => exact .fail

/-- An expression extends the ledger as its parts do. -/
theorem expression_makes (h : Evaluator.Makes observed e) (f : FrameId) {n : Node} {ex : Expression}
    (form : ExpressionForm n ex) :
    Action.Makes made (fun o => o.expression (observed o).evaluate (observed o).call f ex)
      (ex.evaluate e.evaluate e.call f) Value.Among := by
  cases form with
  | constant data => exact .pure fun _ _ => .of_data data
  | number => exact Action.Makes.freshMark.bind fun _ _ _ _ => .pure fun _ _ => .of_data nofun
  | reference => exact .lookup f _
  | assign =>
    refine (h.evaluate made _ f).bind fun _ v _ hv => ?_
    exact (Action.Makes.assign f _ hv).bind fun _ _ hnow _ => .pure fun _ grown =>
      hv.mono (hnow.trans grown)
  | grouping => exact h.evaluate made _ f
  | unary =>
    refine (h.evaluate made _ f).bind fun _ v _ _ =>
      Action.Makes.freshMark.bind fun _ mark _ _ => ?_
    exact .ofExcept fun r hr _ => .of_data (applyUnary_data hr)
  | binary =>
    refine (h.evaluate made _ f).bind fun now a _ ha =>
      (h.evaluate now _ f).bind fun _ b hnow hb => ?_
    have operands := List.forall_mem_cons.2 ⟨ha.mono hnow, List.forall_mem_singleton.2 hb⟩
    refine .sees operands (Action.Makes.freshMark.bind fun _ mark _ _ => ?_)
    exact .ofExcept fun r hr _ => .of_data (applyBinary_data hr)
  | logical =>
    refine (h.evaluate made _ f).bind fun now a _ ha => ?_
    split
    · split
      · exact .pure fun _ grown => ha.mono grown
      · exact h.evaluate now _ f
    · exact .raise _
  | call =>
    refine (h.evaluate made _ f).bind fun now c _ hc => ?_
    refine (Action.Makes.evaluateAll (fun n => h.evaluate now n f) _).bind
      fun now' args hnow' hargs => ?_
    refine (h.call now' c args (hc.mono hnow') hargs).bind fun _ r _ hr => .pure fun _ grown => ?_
    cases r with
    | none => exact .of_data nofun
    | some v => exact (hr v rfl).mono grown
  | invalid => exact .fail

theorem native_makes (h : Evaluator.Makes observed e) (kind : NativeKind) {args : List Value}
    (hargs : ∀ v ∈ args, v.Among made) :
    Action.Makes made (fun o => kind.run host (observed o).call args) (kind.run host e.call args)
      fun now r => ∀ v ∈ r, v.Among now := by
  have number (x : Number) (now : List Closure) : ∀ v ∈ some (Value.number x), v.Among now := by
    rintro v ⟨⟩
    exact .of_data nofun
  cases kind with
  | clock =>
    refine (Action.Makes.readClock host).bind fun _ x _ _ => ?_
    exact Action.Makes.freshMark.bind fun _ mark _ _ => .pure fun now _ => number _ now
  | echo =>
    exact .pure fun _ grown v hv => (hargs v (List.mem_of_mem_head? hv)).mono grown
  | nothing => exact .pure fun _ _ => nofun
  | depth => exact Action.Makes.activeCalls.bind fun _ _ _ _ => .pure fun now _ => number _ now
  | apply =>
    cases args with
    | nil => exact .fail
    | cons callee args =>
      obtain ⟨hcallee, hargs⟩ := List.forall_mem_cons.1 hargs
      exact h.call made callee args hcallee hargs
  | exhaust => exact .fail
  | fail => exact .raise _

/-- A function that is entered extends the ledger as its body does. -/
theorem invokeWith_makes (h : Evaluator.Makes observed e) {callee : Value} {args : List Value}
    (hargs : ∀ v ∈ args, v.Among made) :
    Action.Makes made (fun o => invokeWith host (observed o).execute (observed o).call callee args)
      (invokeWith host e.execute e.call callee args) fun now r => ∀ v ∈ r, v.Among now := by
  cases callee with
  | native n => exact native_makes h n.kind hargs
  | function fn =>
    refine (Action.Makes.enterFrame fn.frame).bind fun now inner hnow _ => ?_
    have hbindings : ∀ p ∈ fn.params.zip args, p.2.Among now :=
      fun p hp => (hargs p.2 (List.of_mem_zip hp).2).mono hnow
    refine (Action.Makes.defineAll inner hbindings).bind fun now' _ _ _ => ?_
    refine (Action.Makes.runAll (fun n => h.execute now' n inner) fn.body).bind
      fun _ outcome _ ho => ?_
    cases outcome with
    | normal => exact .pure fun _ _ => nofun
    | returning v => exact .pure fun _ grown u hu => (ho u hu).mono grown
  | _ => exact .raise _

/-- A call extends the ledger as the function does that it enters. -/
theorem callWith_makes {invoke : Value → List Value → Action (Option Value)}
    {observedInvoke : Observer → Value → List Value → Action (Option Value)} {callee : Value}
    {args : List Value}
    (h : ∀ now, made <+: now →
      Action.Makes now (fun o => observedInvoke o callee args) (invoke callee args) fun now r =>
        ∀ v ∈ r, v.Among now) :
    Action.Makes made (fun o => callWith host (observedInvoke o) callee args)
      (callWith host invoke callee args) fun now r => ∀ v ∈ r, v.Among now := by
  simp only [callWith_eq]
  split
  · exact .raise _
  · split
    · exact .raise _
    · refine Action.Makes.activeCalls.bind fun now depth hnow _ => ?_
      unfold Action.limited
      split
      · exact (Action.Makes.record rfl).bind fun _ _ _ _ => .raise _
      · exact (h now hnow).nested

end Nodes

/-! ## Runs -/

/-- **The evaluator makes functions only by declarations**, and is not disturbed by an observer that
compares it with the ledger. -/
theorem evaluators_make (host : Host) (fuel : Nat) :
    Evaluator.Makes (fun o => o.evaluator host fuel) (evaluator host fuel) ∧
    ∀ made callee args, callee.Among made → (∀ v ∈ args, v.Among made) →
      Action.Makes made (fun o => o.invoke host fuel callee args) (invoke host fuel callee args)
        fun now r => ∀ v ∈ r, v.Among now := by
  induction fuel with
  | zero =>
    exact ⟨⟨fun _ _ _ => .starve, fun _ _ _ => .starve, fun _ _ _ _ _ => .starve⟩,
      fun _ _ _ _ _ => .starve⟩
  | succ fuel ih =>
    obtain ⟨parts, hinvoke⟩ := ih
    refine ⟨⟨fun made n f => ?_, fun made n f => ?_,
      fun made callee args hcallee hargs => ?_⟩, fun made callee args hcallee hargs => ?_⟩
    · exact (statement_makes parts fuel f n.statement).locate n.place
    · exact (expression_makes parts f (Node.expressionForm rfl)).locate n.place
    · exact callWith_makes fun now hnow =>
        hinvoke now callee args (hcallee.mono hnow) (Value.among_all_mono hargs hnow)
    · refine .sees (List.forall_mem_cons.2 ⟨hcallee, hargs⟩) ?_
      rw [← Action.bind_pure (LoxLang.invoke host (fuel + 1) callee args)]
      refine (invokeWith_makes parts hargs).bind fun now r _ hr => ?_
      exact .sees (fun v hv => hr v (Option.mem_toList.1 hv))
        (.pure fun _ grown v hv => (hr v hv).mono grown)

/-- The values that a host passes in an operation. -/
def Operation.given : Operation → List Value
  | .call callee args => callee :: args
  | _ => []

/-- **The operations of a host make functions only by declarations.** Whatever values are seen and
declarations executed during one, the ledger says so. -/
theorem Operation.makes (op : Operation) (host : Host) (fuel : Nat) {s : State}
    {made : List Closure} (known : ∀ v ∈ op.given, v.Among made) (hs : s.Made made) :
    ∃ later, made <+: later ∧
      (op.perform (evaluator host fuel) host s).Makes later
        (fun now r => ∀ v ∈ r, v.Among now) ∧
      ∀ final, later <+: final →
        op.Observed host fuel s (Ledger.Seen final) (Ledger.Declared final) := by
  have parts := (evaluators_make host fuel).1
  have outcome {now : List Closure} {o : Outcome} (ho : o.Among now) :
      Action.Makes now (fun _ => Pure.pure o.value?) (Pure.pure o.value?) fun now r =>
        ∀ v ∈ r, v.Among now :=
    .pure fun _ grown v hv => (ho v hv).mono grown
  have performs : Action.Makes made (fun o => op.perform (o.evaluator host fuel) host)
      (op.perform (evaluator host fuel) host) fun now r => ∀ v ∈ r, v.Among now := by
    cases op with
    | interpret program =>
      refine .outermost ((Action.Makes.record rfl).bind fun _ _ _ _ => ?_)
      refine (Action.Makes.raiseLimit host).bind fun now _ _ _ => ?_
      refine (Action.Makes.runAll (fun n => parts.execute now n host.globals) program).bind
        fun _ _ _ ho => ?_
      exact outcome ho
    | execute n f => exact (parts.execute made n f).bind fun _ _ _ ho => outcome ho
    | evaluate n f =>
      refine (parts.evaluate made n f).bind fun _ v _ hv => .pure fun _ grown => ?_
      rintro u ⟨⟩
      exact hv.mono grown
    | call callee args =>
      obtain ⟨hcallee, hargs⟩ := List.forall_mem_cons.1 known
      exact parts.call made callee args hcallee hargs
  obtain ⟨later, hlater, ends, same⟩ := performs s made (List.prefix_refl _) hs
  exact ⟨later, hlater, ends, fun final hfinal alarm => same final alarm hfinal⟩

end LoxLang
