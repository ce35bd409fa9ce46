import LoxLang.Run.Program

/-!
# Relations that the evaluator respects

Two evaluators that differ in few places only, such as the fuel, the limit on calls or the attempts
to print that fail, are compared by a relation between their actions. Everything between the places
where they differ is the same in both, so it is enough that the relation is kept by sequences, by
the place of a node and by calls.

* `State.Onward`, `Action.Onward`: what no action can undo. The depth of calls afterwards is the one
  before, and output is only added to.
* `Action.limited`: the check of the limit, apart from the rest of a call.
* `Congruence`: a relation between actions that holds between an onward action and itself and is
  kept by sequences, places and calls.
* `Hosts`: two hosts on which checks of the limit and attempts to print are related.

Results: from parts that are related follow related lists of nodes, loops, statements, expressions,
functions and calls; `Congruence.evaluators` — the evaluators on two such hosts are related,
whatever the fuel.
-/

set_option autoImplicit false

namespace LoxLang

variable {α β : Type}

/-! ## What no action can undo -/

/-- A state that an action has left which began in `s`. -/
structure State.Onward (s t : State) : Prop where
  depth : t.depth = s.depth
  printed : s.printed.toList <+: t.printed.toList

theorem State.Onward.trans {s t u : State} (h : s.Onward t) (k : t.Onward u) : s.Onward u :=
  ⟨k.depth.trans h.depth, h.printed.trans k.printed⟩

/-- The state that is left, if there is one, has come from `s`. -/
def Ending.Onward (s : State) : Ending α → Prop
  | .done _ t => s.Onward t
  | .failed _ t => s.Onward t
  | .outOfFuel => True

/-- However the action ends, calls are balanced and output is only added to. -/
def Action.Onward (act : Action α) : Prop := ∀ s, (act s).Onward s

namespace Action.Onward

theorem bind {act : Action α} {next : α → Action β} (h : act.Onward)
    (k : ∀ x, (next x).Onward) :
    (act >>= next).Onward := by
  intro s
  have first := h s
  rw [Action.bind_apply]
  cases hs : act s with
  | done x t =>
    rw [hs] at first
    have second := k x t
    show (next x t).Onward s
    cases ht : next x t with
    | done y u =>
      rw [ht] at second
      exact State.Onward.trans first second
    | failed e u =>
      rw [ht] at second
      exact State.Onward.trans first second
    | outOfFuel => trivial
  | failed e t =>
    rw [hs] at first
    exact first
  | outOfFuel => trivial

theorem locate {act : Action α} (place : Place) (h : act.Onward) : (act.locate place).Onward := by
  intro s
  have ends := h s
  unfold Action.locate
  cases hs : act s <;> rw [hs] at ends <;> exact ends

/-- A call goes one deeper and comes back. -/
theorem nested {act : Action α} (h : act.Onward) : act.nested.Onward := by
  intro s
  have ends := h { s with depth := s.depth + 1 }
  -- the action has left the depth as it was inside the call
  have up {t : State} (ht : { s with depth := s.depth + 1 }.Onward t) : t.depth - 1 = s.depth := by
    rw [ht.depth]
    exact Nat.add_sub_cancel s.depth 1
  unfold Action.nested
  cases hs : act { s with depth := s.depth + 1 } with
  | done x t =>
    rw [hs] at ends
    exact ⟨up ends, ends.printed⟩
  | failed e t =>
    rw [hs] at ends
    cases e <;> exact ⟨up ends, ends.printed⟩
  | outOfFuel => trivial

theorem outermost {act : Action α} (h : act.Onward) : act.outermost.Onward := by
  intro s
  have ends := h s
  unfold Action.outermost
  cases hs : act s with
  | failed e t =>
    rw [hs] at ends
    cases e <;> exact ends
  | done x t =>
    rw [hs] at ends
    exact ends
  | outOfFuel => trivial

/-! ### Primitive actions -/

theorem pure (x : α) : (Pure.pure x : Action α).Onward := fun _ => ⟨rfl, List.prefix_refl _⟩

theorem fail (e : Failure) : (Action.fail e : Action α).Onward :=
  fun _ => ⟨rfl, List.prefix_refl _⟩

theorem raise (cause : Fault) : (Action.raise cause : Action α).Onward := fail _

theorem ofExcept (r : Except Fault α) : (Action.ofExcept r).Onward := by
  cases r with
  | ok x => exact pure x
  | error cause => exact raise cause

theorem starve : (Action.starve : Action α).Onward := fun _ => trivial

theorem lookup (f : FrameId) (x : String) : (Action.lookup f x).Onward := by
  intro s
  unfold Action.lookup
  cases s.store.get? f x <;> exact ⟨rfl, List.prefix_refl _⟩

theorem assign (f : FrameId) (x : String) (v : Value) : (Action.assign f x v).Onward := by
  intro s
  unfold Action.assign
  cases s.store.resolve f x <;> exact ⟨rfl, List.prefix_refl _⟩

theorem define (f : FrameId) (x : String) (v : Value) : (Action.define f x v).Onward :=
  fun _ => ⟨rfl, List.prefix_refl _⟩

theorem defineAll (f : FrameId) (b : Bindings) : (Action.defineAll f b).Onward :=
  fun _ => ⟨rfl, List.prefix_refl _⟩

theorem enterFrame (f : FrameId) : (Action.enterFrame f).Onward :=
  fun _ => ⟨rfl, List.prefix_refl _⟩

theorem freshMark : Action.freshMark.Onward := fun _ => ⟨rfl, List.prefix_refl _⟩

theorem record (r : Record) : (Action.record r).Onward := fun _ => ⟨rfl, List.prefix_refl _⟩

theorem readClock (host : Host) : (Action.readClock host).Onward :=
  fun _ => ⟨rfl, List.prefix_refl _⟩

theorem activeCalls : Action.activeCalls.Onward := fun _ => ⟨rfl, List.prefix_refl _⟩

theorem raiseLimit (host : Host) : (Action.raiseLimit host).Onward := by
  unfold Action.raiseLimit
  split
  · exact fail _
  · exact record _

/-- The only action that adds to the output. -/
theorem print (host : Host) (v : Value) : (Action.print host v).Onward := by
  intro s
  unfold Action.print
  simp only
  split
  · exact ⟨rfl, List.prefix_refl _⟩
  · refine ⟨rfl, ?_⟩
    rw [Array.toList_push]
    exact List.prefix_append _ _

end Action.Onward

open LoxLang.Action (Onward)

/-! ## The limit -/

/-- An action, unless as many calls as allowed are active. -/
def Action.limited (limit : Int) (callee : Value) (depth : Nat) (act : Action α) : Action α :=
  if limit ≤ depth then do
    Action.record (.limitHit limit callee)
    Action.raise (.depthLimit limit)
  else act

theorem Action.Onward.limited {act : Action α} (limit : Int) (callee : Value) (depth : Nat)
    (h : act.Onward) : (act.limited limit callee depth).Onward := by
  unfold Action.limited
  split
  · exact .bind (.record _) fun _ => .raise _
  · exact h

theorem callWith_eq (host : Host) (invoke : Value → List Value → Action (Option Value))
    (callee : Value) (args : List Value) :
    callWith host invoke callee args =
      match callee.arity? with
      | none => Action.raise (.notCallable callee)
      | some expected =>
        if args.length ≠ expected then Action.raise (.arityMismatch expected args.length)
        else Action.activeCalls >>= fun depth =>
          (invoke callee args).nested.limited host.maxDepth callee depth := rfl

/-! ## Relations between actions -/

theorem Action.readClock_congr {host host' : Host} (clock : host.clock = host'.clock) :
    Action.readClock host = Action.readClock host' := by
  unfold Action.readClock
  rw [clock]

/-- A relation between actions that sequences, places and calls keep. -/
structure Congruence (R : ∀ {α : Type}, Action α → Action α → Prop) : Prop where
  self : ∀ {α : Type} {a : Action α}, a.Onward → R a a
  bind : ∀ {α β : Type} {a a' : Action α} {k k' : α → Action β}, R a a' →
    (∀ x, R (k x) (k' x)) → R (a >>= k) (a' >>= k')
  locate : ∀ {α : Type} {a a' : Action α} (place : Place), R a a' →
    R (a.locate place) (a'.locate place)
  nested : ∀ {α : Type} {a a' : Action α}, R a a' → R a.nested a'.nested

/-- Two hosts that a relation between actions cannot tell apart, whatever is printed and called. -/
structure Hosts (R : ∀ {α : Type}, Action α → Action α → Prop) (host host' : Host) :
    Prop where
  clock : host.clock = host'.clock
  print : ∀ v, R (Action.print host v) (Action.print host' v)
  limited : ∀ {a a' : Action (Option Value)} (callee : Value) (depth : Nat), R a a' →
    R (a.limited host.maxDepth callee depth) (a'.limited host'.maxDepth callee depth)

namespace Congruence

variable {R : ∀ {α : Type}, Action α → Action α → Prop} (c : Congruence R)
include c

/-- Every host is like itself. -/
theorem sameHost (host : Host) : Hosts R host host where
  clock := rfl
  print v := c.self (.print host v)
  limited callee depth h := by
    unfold Action.limited
    split
    · exact c.self (.bind (.record _) fun _ => .raise _)
    · exact h

theorem pure (x : α) : R (Pure.pure x) (Pure.pure x) := c.self (.pure x)

theorem raise (cause : Fault) : R (Action.raise cause : Action α) (Action.raise cause) :=
  c.self (.raise cause)

/-! ### Lists and loops -/

theorem runAll {run run' : Node → Action Outcome} (h : ∀ n, R (run n) (run' n))
    (ns : List Node) :
    R (LoxLang.runAll run ns) (LoxLang.runAll run' ns) := by
  induction ns with
  | nil => exact c.pure _
  | cons n ns ih =>
    refine c.bind (h n) fun outcome => ?_
    cases outcome with
    | normal => exact ih
    | returning v => exact c.pure _

theorem evaluateAll {eval eval' : Node → Action Value} (h : ∀ n, R (eval n) (eval' n))
    (ns : List Node) : R (LoxLang.evaluateAll eval ns) (LoxLang.evaluateAll eval' ns) := by
  induction ns with
  | nil => exact c.pure _
  | cons n ns ih => exact c.bind (h n) fun v => c.bind ih fun vs => c.pure _

/-- One round of a loop, and the rounds after it. -/
theorem round {test test' : Action Value} {body body' : Action Outcome} {fuel fuel' : Nat}
    (htest : R test test') (hbody : R body body')
    (rest : R (repeatWhile test body fuel) (repeatWhile test' body' fuel')) :
    R (repeatWhile test body (fuel + 1)) (repeatWhile test' body' (fuel' + 1)) := by
  refine c.bind htest fun v => ?_
  split
  · refine c.bind hbody fun outcome => ?_
    cases outcome with
    | normal => exact rest
    | returning v => exact c.pure _
  · exact c.pure _

theorem repeatWhile {test test' : Action Value} {body body' : Action Outcome} (htest : R test test')
    (hbody : R body body') (fuel : Nat) :
    R (LoxLang.repeatWhile test body fuel) (LoxLang.repeatWhile test' body' fuel) := by
  induction fuel with
  | zero => exact c.self .starve
  | succ fuel ih => exact c.round htest hbody ih

/-! ### One node or call -/

variable {host host' : Host} {run run' : Node → FrameId → Action Outcome}
variable {eval eval' : Node → FrameId → Action Value}
variable {call call' : Value → List Value → Action (Option Value)}

/-- Related parts make related statements; the two loops may have different fuel. -/
theorem statement (hosts : Hosts R host host') {fuel fuel' : Nat}
    (hrun : ∀ n f, R (run n f) (run' n f)) (heval : ∀ n f, R (eval n f) (eval' n f))
    (loop : ∀ test body f, R (LoxLang.repeatWhile (eval test f) (run body f) fuel)
      (LoxLang.repeatWhile (eval' test f) (run' body f) fuel')) (f : FrameId) (st : Statement) :
    R (st.run host fuel run eval f) (st.run host' fuel' run' eval' f) := by
  cases st with
  | expression value => exact c.bind (heval value f) fun _ => c.pure _
  | print value =>
    refine c.bind (heval value f) fun v => ?_
    exact c.bind (hosts.print v) fun _ => c.pure _
  | declare name init =>
    cases init with
    | none => exact c.bind (c.self (.define f name .nil)) fun _ => c.pure _
    | some value =>
      refine c.bind (heval value f) fun v => ?_
      exact c.bind (c.self (.define f name v)) fun _ => c.pure _
  | block body =>
    refine c.bind (c.self (.enterFrame f)) fun inner => ?_
    exact c.runAll (fun n => hrun n inner) body
  | branch test yes no =>
    refine c.bind (heval test f) fun v => ?_
    split
    · exact hrun yes f
    · cases no with
      | none => exact c.pure _
      | some no => exact hrun no f
  | loop test body => exact loop test body f
  | function name params body =>
    refine c.bind (c.self .freshMark) fun mark => ?_
    refine c.bind (c.self (.define f name _)) fun _ => ?_
    exact c.bind (c.self (.record _)) fun _ => c.pure _
  | result value =>
    cases value with
    | none => exact c.pure _
    | some value => exact c.bind (heval value f) fun v => c.pure _
  | invalid failure => exact c.self (.fail failure)

theorem expression (heval : ∀ n f, R (eval n f) (eval' n f))
    (hcall : ∀ callee args, R (call callee args) (call' callee args)) (f : FrameId)
    (e : Expression) :
    R (e.evaluate eval call f) (e.evaluate eval' call' f) := by
  cases e with
  | constant v => exact c.pure v
  | number x => exact c.bind (c.self .freshMark) fun mark => c.pure _
  | reference name => exact c.self (.lookup f name)
  | assign name value =>
    refine c.bind (heval value f) fun v => ?_
    exact c.bind (c.self (.assign f name v)) fun _ => c.pure v
  | grouping inner => exact heval inner f
  | unary op operand =>
    refine c.bind (heval operand f) fun v => ?_
    exact c.bind (c.self .freshMark) fun mark => c.self (.ofExcept _)
  | binary left op right =>
    refine c.bind (heval left f) fun a => c.bind (heval right f) fun b => ?_
    exact c.bind (c.self .freshMark) fun mark => c.self (.ofExcept _)
  | logical left op right =>
    refine c.bind (heval left f) fun a => ?_
    split
    · split
      · exact c.pure a
      · exact heval right f
    · exact c.raise _
  | call callee arguments =>
    refine c.bind (heval callee f) fun v => ?_
    refine c.bind (c.evaluateAll (fun n => heval n f) arguments) fun args => ?_
    exact c.bind (hcall v args) fun result => c.pure _
  | invalid failure => exact c.self (.fail failure)

theorem native (hosts : Hosts R host host')
    (hcall : ∀ callee args, R (call callee args) (call' callee args)) (args : List Value)
    (kind : NativeKind) : R (kind.run host call args) (kind.run host' call' args) := by
  cases kind with
  | clock =>
    unfold NativeKind.run
    rw [Action.readClock_congr hosts.clock]
    refine c.bind (c.self (.readClock host')) fun x => ?_
    exact c.bind (c.self .freshMark) fun mark => c.pure _
  | echo => exact c.pure _
  | nothing => exact c.pure _
  | depth => exact c.bind (c.self .activeCalls) fun depth => c.pure _
  | apply =>
    cases args with
    | nil => exact c.self (.fail _)
    | cons callee args => exact hcall callee args
  | exhaust => exact c.self (.fail _)
  | fail => exact c.raise _

theorem invokeWith (hosts : Hosts R host host') (hrun : ∀ n f, R (run n f) (run' n f))
    (hcall : ∀ callee args, R (call callee args) (call' callee args)) (callee : Value)
    (args : List Value) :
    R (LoxLang.invokeWith host run call callee args)
      (LoxLang.invokeWith host' run' call' callee args) := by
  cases callee with
  | native n => exact c.native hosts hcall args n.kind
  | function fn =>
    refine c.bind (c.self (.enterFrame fn.frame)) fun inner => ?_
    refine c.bind (c.self (.defineAll inner _)) fun _ => ?_
    refine c.bind (c.runAll (fun n => hrun n inner) fn.body) fun outcome => ?_
    cases outcome with
    | normal => exact c.pure _
    | returning v => exact c.pure _
  | _ => exact c.raise _

/-- Related functions make related calls. -/
theorem callWith (hosts : Hosts R host host')
    {invoke invoke' : Value → List Value → Action (Option Value)}
    (h : ∀ callee args, R (invoke callee args) (invoke' callee args)) (callee : Value)
    (args : List Value) :
    R (LoxLang.callWith host invoke callee args) (LoxLang.callWith host' invoke' callee args) := by
  rw [callWith_eq, callWith_eq]
  split
  · exact c.raise _
  · split
    · exact c.raise _
    · exact c.bind (c.self .activeCalls) fun depth =>
        hosts.limited callee depth (c.nested (h callee args))

/-! ### With fuel -/

/-- Evaluators on two such hosts are related, whatever the fuel. -/
theorem evaluators (hosts : Hosts R host host') (fuel : Nat) :
    (∀ n f, R (execute host fuel n f) (execute host' fuel n f)) ∧
    (∀ n f, R (evaluate host fuel n f) (evaluate host' fuel n f)) ∧
    (∀ callee args, R (invoke host fuel callee args) (invoke host' fuel callee args)) ∧
    (∀ callee args, R (LoxLang.call host fuel callee args)
      (LoxLang.call host' fuel callee args)) := by
  induction fuel with
  | zero =>
    exact ⟨fun _ _ => c.self .starve, fun _ _ => c.self .starve, fun _ _ => c.self .starve,
      fun _ _ => c.self .starve⟩
  | succ fuel ih =>
    obtain ⟨hrun, heval, hinvoke, hcall⟩ := ih
    refine ⟨fun n f => c.locate _ ?_, fun n f => c.locate _ ?_, fun callee args => ?_,
      fun callee args => ?_⟩
    · exact c.statement hosts hrun heval
        (fun test body f => c.repeatWhile (heval test f) (hrun body f) fuel) f n.statement
    · exact c.expression heval hcall f n.expression
    · exact c.invokeWith hosts hrun hcall callee args
    · exact c.callWith hosts hinvoke callee args

end Congruence

end LoxLang
