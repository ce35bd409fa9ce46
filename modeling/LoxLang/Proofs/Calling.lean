import LoxLang.Proofs.Chain
import LoxLang.Proofs.Depth

/-!
# What a call does, and in which order

A call evaluates the callee and the arguments before anything about the callee is checked. Then it
is refused or it enters the function. A refused call leaves the state alone but for a note in the
log.

* `EvaluatesAll`, `Stops`: nodes that are evaluated from left to right until one fails.
* `Refuses`: a call fails whatever entering functions would do.
* `refusal?`: why a call is refused, in the order of the checks.
* `Closure.Opened`: the state in which the body of a function begins.
* `Ending.ofBody`: how a call ends whose body has ended.

Results: `evaluateAll_ends` — lists of nodes are evaluated in that order; `refuses_iff` — the
reasons for which calls are refused, and their order; `nested_invoke_function` — a call that
enters a declared function; `calls_in_order`.
-/

set_option autoImplicit false

namespace LoxLang

variable {s t u : State} {e : Failure}

/-! ## From left to right -/

/-- Each of the nodes gives a value, once and from left to right, and begins in the state that the
one before it has left. -/
inductive EvaluatesAll (eval : Node → Action Value) :
    List Node → State → List Value → State → Prop where
  | nil (s : State) : EvaluatesAll eval [] s [] s
  | cons {n : Node} {ns : List Node} {s t u : State} {v : Value} {vs : List Value}
      (head : eval n s = .done v t) (rest : EvaluatesAll eval ns t vs u) :
      EvaluatesAll eval (n :: ns) s (v :: vs) u

/-- One of the nodes fails, after those before it have given values. -/
def Stops (eval : Node → Action Value) (ns : List Node) (s : State) (e : Failure) (t : State) :
    Prop :=
  ∃ before n after vs u, ns = before ++ n :: after ∧ EvaluatesAll eval before s vs u ∧
    eval n u = .failed e t

section Order

variable {eval : Node → Action Value} {n : Node} {ns : List Node} {vs : List Value}

theorem Stops.head (h : eval n s = .failed e t) : Stops eval (n :: ns) s e t :=
  ⟨[], n, ns, [], s, rfl, .nil s, h⟩

theorem Stops.cons {v : Value} (head : eval n s = .done v t) (h : Stops eval ns t e u) :
    Stops eval (n :: ns) s e u := by
  obtain ⟨before, m, after, vs, w, rfl, values, fails⟩ := h
  exact ⟨n :: before, m, after, v :: vs, w, rfl, .cons head values, fails⟩

theorem evaluateAll_cons (s : State) :
    evaluateAll eval (n :: ns) s =
      match eval n s with
      | .done v t =>
        match evaluateAll eval ns t with
        | .done vs u => .done (v :: vs) u
        | .failed e u => .failed e u
        | .outOfFuel => .outOfFuel
      | .failed e t => .failed e t
      | .outOfFuel => .outOfFuel := by
  simp only [evaluateAll, Action.bind_apply, Action.pure_apply]
  cases eval n s with
  | done v t =>
    dsimp only
    cases evaluateAll eval ns t <;> rfl
  | failed e t => rfl
  | outOfFuel => rfl

/-- Nodes are evaluated from left to right, until one of them fails. -/
theorem evaluateAll_ends (eval : Node → Action Value) (ns : List Node) (s : State) :
    match evaluateAll eval ns s with
    | .done vs t => EvaluatesAll eval ns s vs t
    | .failed e t => Stops eval ns s e t
    | .outOfFuel => True := by
  induction ns generalizing s with
  | nil => exact .nil s
  | cons n ns ih =>
    rw [evaluateAll_cons]
    cases hn : eval n s with
    | done v t =>
      have rest := ih t
      dsimp only
      cases hns : evaluateAll eval ns t with
      | done vs u =>
        rw [hns] at rest
        exact .cons hn rest
      | failed e u =>
        rw [hns] at rest
        exact .cons hn rest
      | outOfFuel => trivial
    | failed e t => exact .head hn
    | outOfFuel => trivial

theorem EvaluatesAll.ends (h : EvaluatesAll eval ns s vs t) :
    evaluateAll eval ns s = .done vs t := by
  induction h with
  | nil s => rfl
  | cons head rest ih => simp only [evaluateAll_cons, head, ih]

theorem Stops.ends (h : Stops eval ns s e t) : evaluateAll eval ns s = .failed e t := by
  obtain ⟨before, n, after, vs, u, rfl, values, fails⟩ := h
  induction values with
  | nil s => simp only [List.nil_append, evaluateAll_cons, fails]
  | cons head rest ih => simp only [List.cons_append, evaluateAll_cons, head, ih fails]

end Order

/-! ## Refused calls -/

/-- The values that can be called. -/
inductive Value.IsFunction : Value → Prop where
  | native (n : Native) : IsFunction (.native n)
  | function (fn : Closure) : IsFunction (.function fn)

theorem Value.arity?_eq_none_iff {c : Value} : c.arity? = none ↔ ¬ c.IsFunction := by
  constructor
  · rintro h (_ | _) <;> cases h
  · intro h
    cases c with
    | native n => exact absurd (.native n) h
    | function fn => exact absurd (.function fn) h
    | nil | bool _ | number _ | string _ => rfl

/-- The call fails for the given reason whatever entering functions would do, and only the log is
different afterwards. -/
def Refuses (host : Host) (callee : Value) (args : List Value) (s : State) (cause : Fault) : Prop :=
  ∃ log, ∀ invoke, callWith host invoke callee args s =
    .failed (.of cause) { s with log := log }

/-- Why a call is refused, if it is. -/
def refusal? (host : Host) (callee : Value) (args : List Value) (depth : Nat) : Option Fault :=
  match callee.arity? with
  | none => some (.notCallable callee)
  | some arity =>
    if args.length ≠ arity then some (.arityMismatch arity args.length)
    else if host.maxDepth ≤ depth then some (.depthLimit host.maxDepth)
    else none

section Refusal

variable {host : Host} {callee : Value} {args : List Value} {cause : Fault}

/-- A call is refused, or it enters the function, one deeper. -/
theorem callWith_refusal (host : Host) (callee : Value) (args : List Value) (s : State) :
    ∃ log, ∀ invoke, callWith host invoke callee args s =
      match refusal? host callee args s.depth with
      | some cause => .failed (.of cause) { s with log := log }
      | none => (invoke callee args).nested s := by
  simp only [callWith_eq, refusal?]
  cases callee.arity? with
  | none => exact ⟨s.log, fun _ => rfl⟩
  | some arity =>
    by_cases mismatch : (args.length : Int) ≠ arity
    · simp only [if_pos mismatch]
      exact ⟨s.log, fun _ => rfl⟩
    · simp only [if_neg mismatch, Action.bind_apply, Action.activeCalls, Action.limited]
      by_cases full : host.maxDepth ≤ s.depth
      · simp only [if_pos full]
        exact ⟨s.log.push (.limitHit host.maxDepth callee), fun _ => rfl⟩
      · refine ⟨s.log, fun _ => ?_⟩
        simp only [if_neg full]

theorem Refuses.of_refusal (h : refusal? host callee args s.depth = some cause) :
    Refuses host callee args s cause := by
  obtain ⟨log, ends⟩ := callWith_refusal host callee args s
  exact ⟨log, fun invoke => by rw [ends, h]⟩

theorem callWith_of_not_refusal (h : refusal? host callee args s.depth = none)
    (invoke : Value → List Value → Action (Option Value)) :
    callWith host invoke callee args s = (invoke callee args).nested s := by
  obtain ⟨log, ends⟩ := callWith_refusal host callee args s
  rw [ends, h]

theorem refuses_iff :
    Refuses host callee args s cause ↔ refusal? host callee args s.depth = some cause := by
  refine ⟨?_, .of_refusal⟩
  rintro ⟨log, refused⟩
  cases h : refusal? host callee args s.depth with
  | none =>
    -- entering a function could run out of fuel
    have entered := refused fun _ _ => Action.starve
    rw [callWith_of_not_refusal h] at entered
    cases entered
  | some reason =>
    obtain ⟨log', refused'⟩ := Refuses.of_refusal h
    have same := (refused fun _ _ => Action.starve).symm.trans (refused' fun _ _ => Action.starve)
    cases same
    rfl

theorem refuses_notCallable_iff :
    Refuses host callee args s (.notCallable callee) ↔ ¬ callee.IsFunction := by
  rw [refuses_iff, ← Value.arity?_eq_none_iff]
  unfold refusal?
  cases callee.arity? with
  | none => simp
  | some arity =>
    simp only
    split_ifs <;> simp

theorem refuses_arityMismatch_iff {arity : Int} (h : callee.arity? = some arity) :
    Refuses host callee args s (.arityMismatch arity args.length) ↔ args.length ≠ arity := by
  rw [refuses_iff]
  unfold refusal?
  rw [h]
  simp only
  split_ifs <;> simp_all

theorem refuses_depthLimit_iff (h : callee.arity? = some args.length) :
    Refuses host callee args s (.depthLimit host.maxDepth) ↔ host.maxDepth ≤ s.depth := by
  rw [refuses_iff]
  unfold refusal?
  rw [h]
  simp

end Refusal

/-! ## Entered functions -/

/-- The state `u` is the state `s` after a call of the function has begun: there is one more frame,
inside the frame of the function, which binds exactly the parameters, each to the last argument that
is given for it, and one more call is active. -/
structure Closure.Opened (fn : Closure) (args : List Value) (s u : State) : Prop where
  rest : u = { s with store := u.store, depth := s.depth + 1 }
  size : u.store.size = s.store.size + 1
  others : ∀ f < s.store.size, u.store.frame? f = s.store.frame? f
  parent : u.store.parent? s.store.size = some fn.frame
  names : ∀ x, (u.store.vars s.store.size).binds x = true ↔ x ∈ fn.params
  value : ∀ x, (u.store.vars s.store.size).get? x = List.lookup x (fn.params.zip args).reverse

/-- The state in which the body of a function begins. -/
def State.opened (s : State) (fn : Closure) (args : List Value) : State :=
  { s with
    store := (s.store.child fn.frame).defineAll s.store.size (fn.params.zip args)
    depth := s.depth + 1 }

theorem Closure.Opened.opened (fn : Closure) (args : List Value) (s : State)
    (fits : args.length = fn.params.length) : fn.Opened args s (s.opened fn args) := by
  have new : s.store.size < (s.store.child fn.frame).size := by simp
  have value (x : String) : ((s.opened fn args).store.vars s.store.size).get? x =
      List.lookup x (fn.params.zip args).reverse := by
    simp only [State.opened, Store.get?_vars_defineAll new, Store.vars_child,
      Store.vars_eq_nil (Nat.le_refl _)]
    exact Option.or_none
  refine ⟨rfl, by simp [State.opened], fun f hf => ?_, ?_, fun x => ?_, value⟩
  · simp only [State.opened]
    rw [Store.frame?_defineAll_of_ne (Nat.ne_of_lt hf), Store.frame?_child,
      if_neg (Nat.ne_of_lt hf)]
  · simp [State.opened, Store.parent?_child]
  · have names : (fn.params.zip args).map Prod.fst = fn.params :=
      List.map_fst_zip (Nat.le_of_eq fits.symm)
    calc ((s.opened fn args).store.vars s.store.size).binds x = true
      _ ↔ Bindings.binds (fn.params.zip args).reverse x = true := by
        rw [Bindings.binds_eq_isSome, value, Bindings.binds_eq_isSome]
        rfl
      _ ↔ x ∈ (fn.params.zip args).map Prod.fst := by simp [Bindings.binds]
      _ ↔ x ∈ fn.params := by rw [names]

/-- How a call at a place ends, before which `depth` calls were active, when the body of the
function has ended. The value is the one that the body has returned, or nil. -/
def Ending.ofBody (place : Place) (depth : Nat) : Ending Outcome → Ending Value
  | .done outcome t => .done (outcome.value?.getD .nil) { t with depth := depth }
  | .failed .exhausted t =>
    .failed ((Failure.of (.hostExhausted (depth + 1))).locate place)
      { t with log := t.log.push (.exhausted (depth + 1)), depth := depth }
  | .failed e t => .failed (e.locate place) { t with depth := depth }
  | .outOfFuel => .outOfFuel

/-- The value of a call that has ended; a call that has given none is nil. -/
def Action.ofCall (place : Place) (act : Action (Option Value)) : Action Value :=
  (act >>= fun result => Pure.pure (result.getD .nil)).locate place

/-- A declared function that is entered runs its body in the new frame. -/
theorem nested_invoke_function (host : Host) (fuel : Nat) (fn : Closure) (args : List Value)
    (place : Place) (s : State) :
    Action.ofCall place (invoke host (fuel + 1) (.function fn) args).nested s =
      (runAll (fun n => execute host fuel n s.store.size) fn.body (s.opened fn args)).ofBody place
        s.depth := by
  have body : invoke host (fuel + 1) (.function fn) args { s with depth := s.depth + 1 } =
      (do let outcome ← runAll (fun n => execute host fuel n s.store.size) fn.body
          pure outcome.value?) (s.opened fn args) := by
    rw [invoke]
    exact invokeWith_function host (execute host fuel) (call host fuel) fn args _
  have balanced {t : State}
      (h : (runAll (fun n => execute host fuel n s.store.size) fn.body (s.opened fn args)).state? =
        some t) :
      t.depth = s.depth + 1 := ((runAll_onward host fuel fn.body s.store.size).ends h).depth
  simp only [Action.ofCall, Action.locate, Action.bind_apply, Action.nested, body]
  cases ends : runAll (fun n => execute host fuel n s.store.size) fn.body (s.opened fn args) with
  | done outcome t =>
    have depth := balanced (t := t) (by rw [ends]; rfl)
    simp [Ending.ofBody, depth]
  | failed e t =>
    have depth := balanced (t := t) (by rw [ends]; rfl)
    cases e <;> simp [Ending.ofBody, depth]
  | outOfFuel => rfl

/-! ## Calls -/

section Call

variable {host : Host} {fuel : Nat} {callee arguments : Node} {place : Place} {f : FrameId}

theorem evaluate_call (s : State) :
    evaluate host (fuel + 1) (.tree .call [callee, arguments] place) f s =
      match evaluateAll (fun n => evaluate host fuel n f) (callee :: arguments.parts) s with
      | .done (c :: vs) t => Action.ofCall place (call host fuel c vs) t
      | .done [] t => .done .nil t
      | .failed e t => .failed (e.locate place) t
      | .outOfFuel => .outOfFuel := by
  have unfolded : evaluate host (fuel + 1) (.tree .call [callee, arguments] place) f =
      ((Expression.call callee arguments.parts).evaluate (evaluate host fuel)
        (call host fuel) f).locate place := by
    rw [evaluate]
    rfl
  rw [unfolded, evaluateAll_cons]
  simp only [Expression.evaluate, Action.locate, Action.bind_apply]
  cases evaluate host fuel callee f s with
  | done c t =>
    dsimp only
    cases evaluateAll (fun n => evaluate host fuel n f) arguments.parts t <;> rfl
  | failed e t => rfl
  | outOfFuel => rfl

theorem evaluate_call_of_values {s t : State} {c : Value} {vs : List Value}
    (values : EvaluatesAll (fun n => evaluate host fuel n f) (callee :: arguments.parts) s
      (c :: vs) t) :
    evaluate host (fuel + 1) (.tree .call [callee, arguments] place) f s =
      Action.ofCall place (call host fuel c vs) t := by
  rw [evaluate_call, values.ends]

theorem evaluate_call_of_stops {s t : State} {e : Failure}
    (stops : Stops (fun n => evaluate host fuel n f) (callee :: arguments.parts) s e t) :
    evaluate host (fuel + 1) (.tree .call [callee, arguments] place) f s =
      .failed (e.locate place) t := by
  rw [evaluate_call, stops.ends]

theorem evaluate_call_cases (s : State) :
    evaluate host (fuel + 1) (.tree .call [callee, arguments] place) f s = .outOfFuel ∨
      (∃ e t, Stops (fun n => evaluate host fuel n f) (callee :: arguments.parts) s e t) ∨
      ∃ c vs t, EvaluatesAll (fun n => evaluate host fuel n f) (callee :: arguments.parts) s
        (c :: vs) t := by
  have ends := evaluateAll_ends (fun n => evaluate host fuel n f) (callee :: arguments.parts) s
  cases parts : evaluateAll (fun n => evaluate host fuel n f) (callee :: arguments.parts) s with
  | done vs t =>
    rw [parts] at ends
    cases ends with
    | cons head rest => exact .inr (.inr ⟨_, _, t, .cons head rest⟩)
  | failed e t =>
    rw [parts] at ends
    exact .inr (.inl ⟨e, t, ends⟩)
  | outOfFuel =>
    left
    rw [evaluate_call, parts]

end Call

/-- **What a call does, in this order.** The callee and the arguments are evaluated from left to
right, in the frame of the call, and if one of them fails, the call ends so. Otherwise the call is
refused if the callee is no function, or else if the number of arguments is not the arity, or else
if as many calls as allowed are active; a refused call ends in the state that the last argument has
left, except for the log. Otherwise a declared function runs its body in one new frame inside its
own, which binds exactly the parameters, each to the last argument for it, and the call ends with
the value that the body returns, or with nil. -/
theorem calls_in_order (host : Host) (fuel : Nat) (callee arguments : Node) (place : Place)
    (f : FrameId) (s : State) :
    let eval : Node → Action Value := fun n => evaluate host (fuel + 2) n f
    let ending := evaluate host (fuel + 3) (.tree .call [callee, arguments] place) f s
    (∀ e t, Stops eval (callee :: arguments.parts) s e t →
      ending = .failed (e.locate place) t) ∧
    (ending = .outOfFuel ∨ (∃ e t, Stops eval (callee :: arguments.parts) s e t) ∨
      ∃ c vs t, EvaluatesAll eval (callee :: arguments.parts) s (c :: vs) t) ∧
    ∀ c vs t, EvaluatesAll eval (callee :: arguments.parts) s (c :: vs) t →
      (∀ cause, Refuses host c vs t cause →
        ∃ log, ending = .failed ((Failure.of cause).locate place) { t with log := log }) ∧
      (Refuses host c vs t (.notCallable c) ↔ ¬ c.IsFunction) ∧
      (∀ arity, c.arity? = some arity →
        (Refuses host c vs t (.arityMismatch arity vs.length) ↔ vs.length ≠ arity)) ∧
      (c.arity? = some vs.length →
        (Refuses host c vs t (.depthLimit host.maxDepth) ↔ host.maxDepth ≤ t.depth)) ∧
      ∀ fn, c = .function fn → vs.length = fn.params.length → t.depth < host.maxDepth →
        ∃ u, fn.Opened vs t u ∧ ending =
          (runAll (fun n => execute host fuel n t.store.size) fn.body u).ofBody place t.depth := by
  intro eval ending
  refine ⟨fun e t stops => evaluate_call_of_stops stops, evaluate_call_cases s,
    fun c vs t values => ?_⟩
  have called : ending = Action.ofCall place (callWith host (invoke host (fuel + 1)) c vs) t :=
    evaluate_call_of_values values
  refine ⟨fun cause ⟨log, refused⟩ => ⟨log, ?_⟩, refuses_notCallable_iff, fun arity =>
    refuses_arityMismatch_iff, refuses_depthLimit_iff, ?_⟩
  · rw [called]
    simp only [Action.ofCall, Action.locate, Action.bind_apply, refused]
  · rintro fn rfl fits room
    have entered : refusal? host (.function fn) vs t.depth = none := by
      simp [refusal?, Value.arity?, fits, room]
    refine ⟨t.opened fn vs, .opened fn vs t fits, ?_⟩
    rw [called, ← nested_invoke_function]
    simp only [Action.ofCall, Action.locate, Action.bind_apply, callWith_of_not_refusal entered]

/-- The function `fun f(a, a) { return a; }`, called as `f(true, false)` and as `f(true)`: in the
first call `a` is the last argument, the second one is refused. -/
theorem calls_in_order_repeated :
    let host : Host := ⟨0, 1, ⟨1000, 10⟩, fun _ => false, fun _ => 0⟩
    let reference (x : String) : Node :=
      .tree .reference [.word (.terminal .identifier) x .unknown] .unknown
    let fn : Closure := ⟨"f", ["a", "a"], [.tree .returnStmt [reference "a"] .unknown], 0, 1⟩
    let s : State := { store := State.fresh.store.define 0 "f" (.function fn) }
    let called (arguments : List Node) : Ending Value :=
      evaluate host 6
        (.tree .call [reference "f", .tree .arguments arguments .unknown] .unknown) 0 s
    let yes : Node := .tree .trueLit [] .unknown
    let no : Node := .tree .falseLit [] .unknown
    (∃ u, fn.Opened [.bool true, .bool false] s u ∧
      (u.store.vars 1).get? "a" = some (.bool false) ∧
        called [yes, no] = (runAll (fun n => execute host 3 n 1) fn.body u).ofBody .unknown 0) ∧
    ∃ log, called [yes] = .failed (.of (.arityMismatch 2 1)) { s with log := log } := by
  intro host reference fn s called yes no
  let eval : Node → Action Value := fun n => evaluate host 5 n 0
  have callee : eval (reference "f") s = .done (.function fn) s := by
    have bound : s.store.get? 0 "f" = some (.function fn) :=
      Store.get?_define (by decide) (.self _ _ 0)
    show (Action.lookup 0 "f").locate .unknown s = _
    simp only [Action.locate, Action.lookup, bound]
  constructor
  · obtain ⟨-, -, enters⟩ :=
      calls_in_order host 3 (reference "f") (.tree .arguments [yes, no] .unknown) .unknown 0 s
    have values :
        EvaluatesAll eval [reference "f", yes, no] s [.function fn, .bool true, .bool false] s :=
      .cons callee (.cons rfl (.cons rfl (.nil s)))
    obtain ⟨-, -, -, -, entered⟩ := enters _ _ s values
    obtain ⟨u, opened, ends⟩ := entered fn rfl rfl (by decide)
    exact ⟨u, opened, opened.value "a", ends⟩
  · obtain ⟨-, -, refuses⟩ :=
      calls_in_order host 3 (reference "f") (.tree .arguments [yes] .unknown) .unknown 0 s
    have values : EvaluatesAll eval [reference "f", yes] s [.function fn, .bool true] s :=
      .cons callee (.cons rfl (.nil s))
    obtain ⟨refused, -, mismatch, -⟩ := refuses _ _ s values
    exact refused _ ((mismatch 2 rfl).2 (by decide))

end LoxLang
