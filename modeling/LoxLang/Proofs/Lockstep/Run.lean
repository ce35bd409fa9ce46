import LoxLang.Proofs.Lockstep

/-!
# Related nodes are run alike

The evaluator keeps the relations of a `Lockstep` that satisfies its `Law`.

* `Lockstep.Parts`: two evaluators that run related nodes and call related values alike. From any
  two such evaluators for the parts follows the same for lists, loops, statements, expressions,
  functions and calls.
* `Lockstep.Law.parts`: the evaluator with some fuel is related to itself, by induction on the fuel.

Results: `Lockstep.Law.execute`, `Lockstep.Law.evaluate`, `Lockstep.Law.call` and
`Lockstep.Law.interpret` — related runs end alike, whatever the fuel.
-/

set_option autoImplicit false

namespace LoxLang

/-- The value that a statement returns. -/
def Outcome.value? : Outcome → Option Value
  | .normal => none
  | .returning v => v

/-- A declared function runs its body in a new frame, where its parameters are declared, and returns
what the body returns. -/
theorem invokeWith_function (host : Host) (run : Node → FrameId → Action Outcome)
    (call : Value → List Value → Action (Option Value)) (fn : Closure) (args : List Value)
    (s : State) :
    invokeWith host run call (.function fn) args s =
      (do let outcome ← runAll (fun n => run n s.store.size) fn.body; pure outcome.value?)
        { s with
          store := (s.store.child fn.frame).defineAll s.store.size (fn.params.zip args) } := by
  simp only [invokeWith, Action.bind_apply, Action.enterFrame, Action.defineAll]
  cases runAll (fun n => run n s.store.size) fn.body _ with
  | done outcome t => cases outcome <;> rfl
  | failed e t => rfl
  | outOfFuel => rfl

namespace Lockstep

variable {W : Type} [Preorder W] {L : Lockstep W} {w : W}

section Evaluators

/-! ## Lists and loops -/

/-- Two evaluators that run related nodes and call related values alike. -/
structure Parts (L : Lockstep W) (run run' : Node → FrameId → Action Outcome)
    (eval eval' : Node → FrameId → Action Value)
    (call call' : Value → List Value → Action (Option Value)) : Prop where
  run : ∀ {w n f n' f'}, L.stmt w n f n' f' → L.Alike w L.OutcomeAlike (run n f) (run' n' f')
  eval : ∀ {w n f n' f'}, L.expr w n f n' f' → L.Alike w L.ValueAlike (eval n f) (eval' n' f')
  call : ∀ {w c c' args args'}, L.ValueAlike w c c' →
    List.Forall₂ (L.ValueAlike w) args args' →
      L.Alike w (fun w₁ => Option.Rel (L.ValueAlike w₁)) (call c args) (call' c' args')

omit [Preorder W] in
theorem OutcomeAlike.value {o o' : Outcome} (h : L.OutcomeAlike w o o') :
    Option.Rel (L.ValueAlike w) o.value? o'.value? := by
  cases h with
  | normal => exact .none
  | returning hv => exact hv

variable {run run' : Node → FrameId → Action Outcome}
    {eval eval' : Node → FrameId → Action Value}
variable {call call' : Value → List Value → Action (Option Value)}

theorem runAll_alike (law : L.Law) (parts : L.Parts run run' eval eval' call call') {f f' : FrameId}
    {ns ns' : List Node} (h : List.Forall₂ (fun n n' => L.stmt w n f n' f') ns ns') :
    L.Alike w L.OutcomeAlike (runAll (fun n => run n f) ns) (runAll (fun n => run' n f') ns') := by
  induction ns generalizing w ns' with
  | nil =>
    cases h
    exact .pure .normal
  | cons n ns ih =>
    cases h with
    | cons hn hns =>
      refine (parts.run hn).bind fun later outcome => ?_
      cases outcome with
      | normal => exact ih (stmts_mono law later hns)
      | returning hv => exact .pure (.returning hv)

theorem evaluateAll_alike (law : L.Law) (parts : L.Parts run run' eval eval' call call')
    {f f' : FrameId} {ns ns' : List Node}
    (h : List.Forall₂ (fun n n' => L.expr w n f n' f') ns ns') :
    L.Alike w (fun w₁ => List.Forall₂ (L.ValueAlike w₁)) (evaluateAll (fun n => eval n f) ns)
      (evaluateAll (fun n => eval' n f') ns') := by
  induction ns generalizing w ns' with
  | nil =>
    cases h
    exact .pure .nil
  | cons n ns ih =>
    cases h with
    | cons hn hns =>
      refine (parts.eval hn).bind fun later hv => ?_
      refine (ih (exprs_mono law later hns)).bind fun later hvs => ?_
      exact .pure (.cons (hv.mono law later) hvs)

theorem repeatWhile_alike (law : L.Law) (parts : L.Parts run run' eval eval' call call')
    {f f' : FrameId} {t t' b b' : Node} (ht : L.expr w t f t' f') (hb : L.stmt w b f b' f')
    (fuel : Nat) :
    L.Alike w L.OutcomeAlike (repeatWhile (eval t f) (run b f) fuel)
      (repeatWhile (eval' t' f') (run' b' f') fuel) := by
  induction fuel generalizing w with
  | zero => exact .starve
  | succ fuel ih =>
    refine (parts.eval ht).bind fun {w₁ v v'} later hv => ?_
    rw [← hv.isTruthy]
    split
    · refine (parts.run (law.stmt_mono later hb)).bind fun later' outcome => ?_
      cases outcome with
      | normal =>
        have longer := later.trans later'
        exact ih (law.expr_mono longer ht) (law.stmt_mono longer hb)
      | returning hv => exact .pure (.returning hv)
    · exact .pure .normal

/-! ## One node or call -/

theorem StatementAlike.ends (law : L.Law) (parts : L.Parts run run' eval eval' call call')
    (fuel : Nat) {f f' : FrameId} {st st' : Statement} (h : L.StatementAlike w f f' st st') :
    L.Alike w L.OutcomeAlike (st.run L.host fuel run eval f)
      (st'.run L.host fuel run' eval' f') := by
  cases h with
  | expression value => exact (parts.eval value).bind fun _ _ => .pure .normal
  | print value =>
    refine (parts.eval value).bind fun _ hv => ?_
    exact (print_alike law hv).bind fun _ _ => .pure .normal
  | declare value define =>
    cases value with
    | none =>
      refine (define_alike fun hσ => define (le_refl w) .nil hσ).bind fun _ _ => .pure .normal
    | some value =>
      refine (parts.eval value).bind fun later hv => ?_
      exact (define_alike fun hσ => define later hv hσ).bind fun _ _ => .pure .normal
  | block enter => exact (enterFrame_alike enter).bind fun _ body => runAll_alike law parts body
  | branch test yes no =>
    refine (parts.eval test).bind fun {w₁ v v'} later hv => ?_
    rw [← hv.isTruthy]
    split
    · exact parts.run (law.stmt_mono later yes)
    · cases no with
      | none => exact .pure .normal
      | some no => exact parts.run (law.stmt_mono later no)
  | loop test body => exact repeatWhile_alike law parts test body fuel
  | function define log =>
    intro s s' hs
    obtain ⟨w₁, later, stores⟩ := define (m := s.nextMark) hs.store
    simp only [Statement.run, Action.freshMark, Action.define, Action.record, Action.bind_apply,
      Action.pure_apply, ← hs.nextMark]
    exact .done later
      ⟨stores, hs.output, log hs.log, rfl, hs.depth, hs.attempts, hs.readings⟩ .normal
  | result value =>
    cases value with
    | none => exact .pure (.returning .none)
    | some value => exact (parts.eval value).bind fun _ hv => .pure (.returning (.some hv))
  | invalid failure => exact .fail failure

theorem ExpressionAlike.ends (law : L.Law) (parts : L.Parts run run' eval eval' call call')
    {f f' : FrameId} {e e' : Expression} (h : L.ExpressionAlike w f f' e e') :
    L.Alike w L.ValueAlike (e.evaluate eval call f) (e'.evaluate eval' call' f') := by
  cases h with
  | constant value => exact .pure value
  | number x => exact freshMark_alike.bind fun _ hm => .pure (number_alike x hm)
  | reference lookup found => exact lookup_alike lookup found
  | assign value assign found =>
    refine (parts.eval value).bind fun later hv => ?_
    have found := found.imp_left fun found => found.mono later
    refine (assign_alike (fun hσ => assign later hv hσ) found).bind fun later' _ => ?_
    exact .pure (hv.mono law later')
  | grouping inner => exact parts.eval inner
  | unary operand known =>
    refine (parts.eval operand).bind fun _ hv => ?_
    refine freshMark_alike.bind fun later hm => ?_
    rw [← hm]
    exact ofExcept_alike (applyUnary_alike law _ known (hv.mono law later))
  | binary left right known =>
    refine (parts.eval left).bind fun later ha => ?_
    refine (parts.eval (law.expr_mono later right)).bind fun later' hb => ?_
    refine freshMark_alike.bind fun later'' hm => ?_
    rw [← hm]
    exact ofExcept_alike (applyBinary_alike law _ known
      (ha.mono law (later'.trans later'')) (hb.mono law later''))
  | logical left right known =>
    refine (parts.eval left).bind fun {w₁ a a'} later ha => ?_
    split
    · rename_i op _
      have decided : op.decidedBy a = op.decidedBy a' := by
        cases op <;> simp only [Logical.decidedBy, ha.isTruthy]
      rw [← decided]
      split
      · exact .pure ha
      · exact parts.eval (law.expr_mono later right)
    · rename_i hop
      rcases known with h | h
      · rw [hop] at h
        cases h
      · exact .raise h
  | call callee arguments =>
    refine (parts.eval callee).bind fun later hc => ?_
    refine (evaluateAll_alike law parts (exprs_mono law later arguments)).bind fun later' hargs =>
      ?_
    refine (parts.call (hc.mono law later') hargs).bind fun _ hr => ?_
    cases hr with
    | none => exact .pure .nil
    | some hv => exact .pure hv
  | invalid failure => exact .fail failure

theorem native_alike (law : L.Law) (parts : L.Parts run run' eval eval' call call') {n : Native}
    (hn : L.native n) {args args' : List Value}
    (hargs : List.Forall₂ (L.ValueAlike w) args args') :
    L.Alike w (fun w₁ => Option.Rel (L.ValueAlike w₁)) (n.kind.run L.host call args)
      (n.kind.run L.host call' args') := by
  obtain ⟨name, arity, kind⟩ := n
  cases kind with
  | clock =>
    refine readClock_alike.bind fun _ hx => freshMark_alike.bind fun _ hm => ?_
    rw [hx]
    exact .pure (.some (number_alike _ hm))
  | echo =>
    cases hargs with
    | nil => exact .pure .none
    | cons hv _ => exact .pure (.some hv)
  | nothing => exact .pure .none
  | depth =>
    refine activeCalls_alike.bind fun _ hd => ?_
    rw [hd]
    exact .pure (.some (.number _))
  | apply =>
    cases hargs with
    | nil => exact .fail (law.native_apply hn rfl)
    | cons hc hargs => exact parts.call hc hargs
  | exhaust => exact .fail law.exhausted
  | fail => exact .raise (law.native_fail hn rfl)

theorem invokeWith_alike (law : L.Law) (parts : L.Parts run run' eval eval' call call')
    {c c' : Value} {args args' : List Value} (hc : L.ValueAlike w c c')
    (hargs : List.Forall₂ (L.ValueAlike w) args args') :
    L.Alike w (fun w₁ => Option.Rel (L.ValueAlike w₁)) (invokeWith L.host run call c args)
      (invokeWith L.host run' call' c' args') := by
  cases hc with
  | native hn => exact native_alike law parts hn hargs
  | @function fn fn' hc =>
    intro s s' hs
    obtain ⟨w₁, later, stores, body⟩ := law.enter hc hargs hs.store
    have ends : L.Alike w₁ (fun w₂ => Option.Rel (L.ValueAlike w₂))
        (do let outcome ← runAll (fun n => run n s.store.size) fn.body; pure outcome.value?)
        (do let outcome ← runAll (fun n => run' n s'.store.size) fn'.body; pure outcome.value?) :=
      (runAll_alike law parts body).bind fun _ outcome => .pure outcome.value
    rw [invokeWith_function, invokeWith_function]
    exact (ends _ _ (hs.withStore stores)).weaken later id
  | nil => exact .raise (law.fault_notCallable (w := w) .nil)
  | bool b => exact .raise (law.fault_notCallable (w := w) (.bool b))
  | number x => exact .raise (law.fault_notCallable (w := w) (.number x))
  | string s => exact .raise (law.fault_notCallable (w := w) (.string s))

theorem callWith_alike (law : L.Law)
    {invoke invoke' : Value → List Value → Action (Option Value)}
    (hinvoke : ∀ {w c c' args args'}, L.ValueAlike w c c' →
      List.Forall₂ (L.ValueAlike w) args args' →
      L.Alike w (fun w₁ => Option.Rel (L.ValueAlike w₁)) (invoke c args) (invoke' c' args'))
    {c c' : Value} {args args' : List Value} (hc : L.ValueAlike w c c')
    (hargs : List.Forall₂ (L.ValueAlike w) args args') :
    L.Alike w (fun w₁ => Option.Rel (L.ValueAlike w₁)) (callWith L.host invoke c args)
      (callWith L.host invoke' c' args') := by
  have length := hargs.length_eq
  unfold callWith
  rw [← hc.arity law]
  split
  · exact .raise (law.fault_notCallable hc)
  · rw [← length]
    split
    · exact .raise (law.fault_arity _ _)
    · refine activeCalls_alike.bind fun later hd => ?_
      rw [← hd]
      split
      · refine (record_alike fun hl => law.log_limitHit _ (hc.mono law later) hl).bind fun _ _ =>
          ?_
        exact .raise (law.fault_limit _)
      · exact .nested law (hinvoke (hc.mono law later) (values_mono law later hargs))

end Evaluators

/-! ## With fuel -/

/-- The evaluator with some fuel runs related nodes and calls related values alike. -/
theorem Law.parts (law : L.Law) (fuel : Nat) :
    L.Parts (execute L.host fuel) (execute L.host fuel) (evaluate L.host fuel)
      (evaluate L.host fuel) (LoxLang.call L.host fuel) (LoxLang.call L.host fuel) ∧
    ∀ {w c c' args args'}, L.ValueAlike w c c' → List.Forall₂ (L.ValueAlike w) args args' →
      L.Alike w (fun w₁ => Option.Rel (L.ValueAlike w₁)) (invoke L.host fuel c args)
        (invoke L.host fuel c' args') := by
  induction fuel with
  | zero =>
    exact ⟨⟨fun _ => .starve, fun _ => .starve, fun _ _ => .starve⟩, fun _ _ => .starve⟩
  | succ fuel ih =>
    obtain ⟨parts, hinvoke⟩ := ih
    refine ⟨⟨fun hn => ?_, fun hn => ?_, fun hc hargs => ?_⟩, fun hc hargs => ?_⟩
    · exact ((law.statement hn).ends law parts fuel).locate fun he => law.locate_stmt hn he
    · exact ((law.expression hn).ends law parts).locate fun he => law.locate_expr hn he
    · exact callWith_alike law hinvoke hc hargs
    · exact invokeWith_alike law parts hc hargs

/-- **Related nodes are executed alike.** -/
theorem Law.execute (law : L.Law) (fuel : Nat) {n n' : Node} {f f' : FrameId}
    (h : L.stmt w n f n' f') :
    L.Alike w L.OutcomeAlike (LoxLang.execute L.host fuel n f)
      (LoxLang.execute L.host fuel n' f') :=
  (law.parts fuel).1.run h

/-- **Related nodes are evaluated alike.** -/
theorem Law.evaluate (law : L.Law) (fuel : Nat) {n n' : Node} {f f' : FrameId}
    (h : L.expr w n f n' f') :
    L.Alike w L.ValueAlike (LoxLang.evaluate L.host fuel n f)
      (LoxLang.evaluate L.host fuel n' f') :=
  (law.parts fuel).1.eval h

/-- **Related values are called alike.** -/
theorem Law.call (law : L.Law) (fuel : Nat) {c c' : Value} {args args' : List Value}
    (hc : L.ValueAlike w c c') (hargs : List.Forall₂ (L.ValueAlike w) args args') :
    L.Alike w (fun w₁ => Option.Rel (L.ValueAlike w₁)) (LoxLang.call L.host fuel c args)
      (LoxLang.call L.host fuel c' args') :=
  (law.parts fuel).1.call hc hargs

/-- **Related programs are run alike.** -/
theorem Law.interpret (law : L.Law) (fuel : Nat) {program program' : List Node}
    (h : List.Forall₂ (fun n n' => L.stmt w n L.host.globals n' L.host.globals)
      program program') :
    L.Alike w L.OutcomeAlike (LoxLang.interpret L.host fuel program)
      (LoxLang.interpret L.host fuel program') := by
  refine Alike.outermost law ?_
  rw [← h.length_eq]
  refine (record_alike fun hl => law.log_interpreting _ hl).bind fun later _ => ?_
  refine (raiseLimit_alike law).bind fun later' _ => ?_
  exact runAll_alike law (law.parts fuel).1 (stmts_mono law (later.trans later') h)

end Lockstep

end LoxLang
