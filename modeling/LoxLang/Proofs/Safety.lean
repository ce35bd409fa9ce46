import LoxLang.Proofs.Lockstep.Run
import LoxLang.Proofs.Reading
import LoxLang.Proofs.Store
import Mathlib

/-!
# Programs go wrong only in the documented ways

A source text that is accepted can end with an outcome or with one of a few faults: an undefined
variable, a wrong number of arguments, a call of something that is no function, operands of the
wrong type, or too many active calls. Almost everything else that can go wrong in a run comes from
nodes of other shapes, and neither reading a text nor running it makes such nodes. What is left is
the host: it refuses a limit for its stack that is out of range, and then nothing is run.

* `Fault.Documented`: the faults that programs are allowed to have.
* `Value.Shaped`, `Store.Shaped`: functions whose bodies have the shapes of programs; the only
  native is the clock.
* `State.Used`: the states after any runs of accepted texts on a new machine.
* `Ending.Documented`: an outcome, or a documented fault, in a store with such functions only.

Results: `accepted_ends_documented` — every run of an accepted text in such a state ends that way,
if it ends and the limit is in range. Shapes are an invariant of the store, because the bodies of
functions go through it.
-/

set_option autoImplicit false

namespace LoxLang

/-- The faults that programs are allowed to have. -/
def Fault.Documented : Fault → Prop
  | .undefinedVariable _ => True
  | .arityMismatch _ _ => True
  | .notCallable _ => True
  | .typeMismatch _ _ => True
  | .depthLimit _ => True
  | .hostExhausted _ => True
  | _ => False

/-- A documented fault, or exhaustion of the host that has not been reported yet. -/
def Failure.Expected : Failure → Prop
  | .fault cause _ => cause.Documented
  | .exhausted => True
  | _ => False

/-- Declared functions have bodies of the right shapes, and the only native is the clock. -/
def Value.Shaped : Value → Prop
  | .function c => ∀ n ∈ c.body, n.Is false .item
  | .native n => n.kind = .clock
  | _ => True

/-- All values that are bound are shaped. -/
def Store.Shaped (s : Store) : Prop := ∀ f x v, (s.vars f).get? x = some v → v.Shaped

/-! ## Shapes in the store -/

theorem Store.Shaped.define {s : Store} (h : s.Shaped) (f : FrameId) (x : String) {v : Value}
    (hv : v.Shaped) : (s.define f x v).Shaped := Store.Holds.define h f x hv

theorem Store.Shaped.child {s : Store} (h : s.Shaped) (f : FrameId) : (s.child f).Shaped :=
  Store.Holds.child h f

theorem Store.Shaped.get? {s : Store} (h : s.Shaped) {f : FrameId} {x : String} {v : Value}
    (hv : s.get? f x = some v) : v.Shaped := Store.Holds.get? h hv

/-! ## Runs of shaped nodes -/

/-- Two equal runs of shaped nodes, in a store of shaped values. -/
def shapedRuns (host : Host) : Lockstep Unit where
  host := host
  store _ σ σ' := σ = σ' ∧ σ.Shaped
  closure _ c c' := c = c' ∧ ∀ n ∈ c.body, n.Is false .item
  native n := n.kind = .clock
  failure e e' := e = e' ∧ e.Expected
  output := Eq
  log := Eq
  stmt _ n f n' f' := n = n' ∧ f = f' ∧ n.Is false .item
  expr _ n f n' f' := n = n' ∧ f = f' ∧ n.Is false .expression

variable {host : Host}

theorem shaped_value_iff {v v' : Value} :
    (shapedRuns host).ValueAlike () v v' ↔ v = v' ∧ v.Shaped := by
  constructor
  · intro h
    cases h with
    | native h => exact ⟨rfl, h⟩
    | function h => exact ⟨congrArg Value.function h.1, h.2⟩
    | _ => exact ⟨rfl, trivial⟩
  · rintro ⟨rfl, h⟩
    cases v with
    | nil => exact .nil
    | bool b => exact .bool b
    | number x => exact .number x
    | string s => exact .string s
    | native n => exact .native h
    | function c => exact .function ⟨rfl, h⟩

theorem shaped_values {vs vs' : List Value}
    (h : List.Forall₂ ((shapedRuns host).ValueAlike ()) vs vs') :
    vs = vs' ∧ ∀ v ∈ vs, v.Shaped := by
  induction h with
  | nil => exact ⟨rfl, by simp⟩
  | cons hv _ ih =>
    obtain ⟨rfl, head⟩ := shaped_value_iff.1 hv
    obtain ⟨rfl, rest⟩ := ih
    exact ⟨rfl, List.forall_mem_cons.2 ⟨head, rest⟩⟩

theorem shaped_log {l l' : Array Record} (record : Record) (h : (shapedRuns host).log l l') :
    (shapedRuns host).log (l.push record) (l'.push record) := by
  rw [show l = l' from h]
  rfl

theorem shaped_locate {e e' : Failure} (place : Place) (h : (shapedRuns host).failure e e') :
    (shapedRuns host).failure (e.locate place) (e'.locate place) := by
  obtain ⟨rfl, he⟩ := h
  refine ⟨rfl, ?_⟩
  cases e with
  | fault cause location => cases location <;> exact he
  | _ => exact he

theorem shaped_nodes {f : FrameId} {ns : List Node} (h : ∀ n ∈ ns, n.Is false .item) :
    List.Forall₂ (fun n n' => (shapedRuns host).stmt () n f n' f) ns ns :=
  List.forall₂_same.2 fun n hn => ⟨rfl, rfl, h n hn⟩

/-- A part that may be absent is run alike if it is there. -/
theorem shaped_optional {r : Role} {n : Node} (f : FrameId)
    (h : ∀ e, n.present? = some e → e.Is false r) :
    Option.Rel (fun e e' => e = e' ∧ f = f ∧ e.Is false r) n.present? n.present? := by
  cases hn : n.present? with
  | none => exact .none
  | some e => exact .some ⟨rfl, rfl, h e hn⟩

theorem shaped_define {f : FrameId} {x : String} {v v' : Value} {σ σ' : Store}
    (hv : (shapedRuns host).ValueAlike () v v') (hσ : (shapedRuns host).store () σ σ') :
    (shapedRuns host).store () (σ.define f x v) (σ'.define f x v') := by
  obtain ⟨rfl, shaped⟩ := shaped_value_iff.1 hv
  obtain ⟨rfl, hσ⟩ := hσ
  exact ⟨rfl, hσ.define f x shaped⟩

theorem parameterNames_ok {ns : List Node} (h : ∀ n ∈ ns, n.IsName) :
    ∃ names, parameterNames ns = .ok names := by
  induction ns with
  | nil => exact ⟨[], rfl⟩
  | cons n ns ih =>
    obtain ⟨hn, hns⟩ := List.forall_mem_cons.1 h
    obtain ⟨names, hnames⟩ := ih hns
    obtain ⟨text, place, rfl⟩ := hn
    refine ⟨text :: names, ?_⟩
    simp [parameterNames, Node.identifier?, hnames, Except.map]

/-- The statement that the declaration of a function is. -/
theorem functionDecl_statement {name params : Node} {names : List Node} (hname : name.IsName)
    (list : params.IsList .parameters names) (hnames : ∀ n ∈ names, n.IsName)
    (items : List Node) (p place : Place) : ∃ x params',
      Node.statement (.tree .functionDecl [name, params, .tree .block items p] place) =
        .function x params' items := by
  obtain ⟨text, at', rfl⟩ := hname
  have hparts : params.parts = names := by
    rcases list with ⟨rfl, rfl⟩ | ⟨place, rfl⟩ <;> rfl
  obtain ⟨params', hparams⟩ := parameterNames_ok hnames
  refine ⟨text, params', ?_⟩
  show functionStatement (.word (.terminal .identifier) text at') params (.tree .block items p) = _
  unfold functionStatement
  rw [hparts, hparams]
  rfl

/-- A shaped statement is one that is run. -/
theorem shaped_statement {n : Node} {f : FrameId} (h : n.Is false .item) :
    (shapedRuns host).StatementAlike () f f n.statement n.statement := by
  generalize hrole : Role.item = r at h
  cases h with
  | expressionStmt _ hvalue => exact .expression ⟨rfl, rfl, hvalue⟩
  | printStmt _ hvalue => exact .print ⟨rfl, rfl, hvalue⟩
  | returnStmt _ hvalue => exact .result (shaped_optional f hvalue)
  | block _ hitems =>
    refine .block fun {σ σ'} hσ => ?_
    obtain ⟨rfl, hσ⟩ := hσ
    exact ⟨(), le_refl _, ⟨rfl, hσ.child f⟩, shaped_nodes hitems⟩
  | ifStmt _ htest hyes hno =>
    refine .branch ⟨rfl, rfl, htest⟩ ⟨rfl, rfl, hyes.item_of_statement⟩ ?_
    exact shaped_optional f fun e he => (hno e he).item_of_statement
  | whileStmt _ htest hbody =>
    exact .loop ⟨rfl, rfl, htest⟩ ⟨rfl, rfl, hbody.item_of_statement⟩
  | forStmt _ allowed => cases allowed
  | variableDecl _ _ hvalue =>
    exact .declare (shaped_optional f hvalue) fun _ hv hσ =>
      ⟨(), le_refl _, shaped_define hv hσ⟩
  | @functionDecl name params names items p place hname list hnames hitems =>
    obtain ⟨x, params', form⟩ := functionDecl_statement hname list hnames items p place
    rw [form]
    refine .function (fun hσ => ⟨(), le_refl _, shaped_define ?_ hσ⟩) fun hl =>
      shaped_log _ hl
    exact .function ⟨rfl, hitems⟩
  | _ => cases hrole

/-- A shaped expression is one that is evaluated. -/
theorem shaped_expression {n : Node} {f : FrameId} (h : n.Is false .expression) :
    (shapedRuns host).ExpressionAlike () f f n.expression n.expression := by
  generalize hrole : Role.expression = r at h
  cases h with
  | @number text place readable =>
    obtain ⟨x, hx⟩ := Option.isSome_iff_exists.1 readable
    have form : (Node.word (.terminal .number) text place).expression = .number x := by
      simp [Node.expression, wordExpression, hx]
    rw [form]
    exact .number x
  | string => exact .constant (.string _)
  | literal h =>
    simp only [List.mem_cons, List.not_mem_nil, or_false] at h
    rcases h with rfl | rfl | rfl
    · exact .constant (.bool true)
    · exact .constant (.bool false)
    · exact .constant .nil
  | reference _ =>
    refine .reference (fun {σ σ'} hσ => ?_) (.inr ⟨rfl, trivial⟩)
    obtain ⟨rfl, hσ⟩ := hσ
    cases hv : σ.get? f _ with
    | none => exact .none
    | some v => exact .some (shaped_value_iff.2 ⟨rfl, hσ.get? hv⟩)
  | assign _ hvalue =>
    refine .assign ⟨rfl, rfl, hvalue⟩ (fun {w₁ v v' σ σ'} _ hv hσ => ?_)
      (.inr ⟨rfl, trivial⟩)
    rw [show σ' = σ from hσ.1.symm]
    cases hg : σ.resolve f _ with
    | none => exact .none
    | some g => exact .some ⟨(), le_refl _, shaped_define hv ⟨rfl, hσ.2⟩⟩
  | grouping hinner => exact .grouping ⟨rfl, rfl, hinner⟩
  | unary known hoperand => exact .unary ⟨rfl, rfl, hoperand⟩ (.inl known)
  | binary known hleft hright =>
    exact .binary ⟨rfl, rfl, hleft⟩ ⟨rfl, rfl, hright⟩ (.inl known)
  | logical known hleft hright =>
    exact .logical ⟨rfl, rfl, hleft⟩ ⟨rfl, rfl, hright⟩ (.inl known)
  | @call callee arguments items place hcallee list hitems =>
    have hparts : arguments.parts = items := by
      rcases list with ⟨rfl, rfl⟩ | ⟨place, rfl⟩ <;> rfl
    refine .call ⟨rfl, rfl, hcallee⟩ (List.forall₂_same.2 fun a ha => ⟨rfl, rfl, ?_⟩)
    rw [hparts] at ha
    exact hitems a ha
  | expressionStmt hne => exact absurd hrole.symm hne
  | printStmt hr | returnStmt hr | block hr | ifStmt hr | whileStmt hr | forStmt hr =>
    exact absurd hrole.symm hr.ne
  | variableDecl hr => rcases hr with rfl | rfl <;> cases hrole
  | functionDecl => cases hrole

/-- **Runs of shaped nodes keep the shapes.** -/
theorem shaped_law (range : host.InRange) : (shapedRuns host).Law where
  closure_mono _ h := h
  stmt_mono _ h := h
  expr_mono _ h := h
  closure_mark h := congrArg Closure.mark h.1
  closure_arity h := congrArg (·.params.length) h.1
  output_push hv ho := by
    rw [(shaped_value_iff.1 hv).1, show _ = _ from ho]
    rfl
  log_limitHit m hv hl := by
    rw [(shaped_value_iff.1 hv).1]
    exact shaped_log _ hl
  log_exhausted d hl := shaped_log _ hl
  log_interpreting n hl := shaped_log _ hl
  log_raisedLimit previous limit hl := shaped_log _ hl
  fault_arity _ _ := ⟨rfl, trivial⟩
  fault_notCallable hv :=
    ⟨congrArg (fun v => Failure.of (.notCallable v)) (shaped_value_iff.1 hv).1, trivial⟩
  fault_type op hvs :=
    ⟨congrArg (fun vs => Failure.of (.typeMismatch op vs)) (shaped_values hvs).1, trivial⟩
  fault_limit _ := ⟨rfl, trivial⟩
  fault_host _ := ⟨rfl, trivial⟩
  refused he := (range.not_refused _ he).elim
  exhausted := ⟨rfl, trivial⟩
  exhausted_iff he := by rw [he.1]
  native_apply hn hk := by
    rw [show _ = NativeKind.clock from hn] at hk
    cases hk
  native_fail hn hk := by
    rw [show _ = NativeKind.clock from hn] at hk
    cases hk
  locate_stmt hn he := by
    rw [hn.1]
    exact shaped_locate _ he
  locate_expr hn he := by
    rw [hn.1]
    exact shaped_locate _ he
  enter {_ c c' args args' σ σ'} hc hargs hσ := by
    obtain ⟨rfl, hbody⟩ := hc
    obtain ⟨rfl, shaped⟩ := shaped_values hargs
    obtain ⟨rfl, hσ⟩ := hσ
    refine ⟨(), le_refl _, ⟨rfl, ?_⟩, shaped_nodes hbody⟩
    exact Store.Holds.defineAll (hσ.child _) _ fun p hp => shaped p.2 (List.of_mem_zip hp).2
  statement h := by
    obtain ⟨rfl, rfl, hn⟩ := h
    exact shaped_statement hn
  expression h := by
    obtain ⟨rfl, rfl, hn⟩ := h
    exact shaped_expression hn

/-! ## Runs of accepted texts -/

/-- The states after any runs of texts, however they ended, on a new machine. -/
inductive State.Used : State → Prop
  | fresh : Used State.fresh
  | done {s t : State} {host : Host} {fuel : Nat} {source : String} {outcome : Outcome}
    (used : Used s) (h : run host fuel source s = .ok (.done outcome t)) : Used t
  | failed {s t : State} {host : Host} {fuel : Nat} {source : String} {e : Failure} (used : Used s)
    (h : run host fuel source s = .ok (.failed e t)) : Used t

/-- An outcome or a documented fault, and functions of the right shapes in the store; or no end
yet. -/
def Ending.Documented {α : Type} : Ending α → Prop
  | .done _ t => t.store.Shaped
  | .failed (.fault cause _) t => cause.Documented ∧ t.store.Shaped
  | .failed _ _ => False
  | .outOfFuel => True

theorem Ending.Documented.shaped {α : Type} {ending : Ending α} {t : State}
    (h : ending.Documented) (left : ending.state? = some t) : t.store.Shaped := by
  cases ending with
  | done result t' =>
    cases left
    exact h
  | failed e t' =>
    cases left
    cases e with
    | fault cause location => exact h.2
    | _ => exact h.elim
  | outOfFuel => cases left

theorem interpret_documented (range : host.InRange) (fuel : Nat) {program : List Node} {s : State}
    (hprogram : ∀ n ∈ program, n.Is false .item) (shaped : s.store.Shaped) :
    (interpret host fuel program s).Documented := by
  have start : (shapedRuns host).StateAlike () s s :=
    ⟨⟨rfl, shaped⟩, rfl, rfl, rfl, rfl, rfl, rfl⟩
  have ends := (shaped_law range).interpret fuel (shaped_nodes hprogram) s s start
  have reported : ∀ t, interpret host fuel program s ≠ .failed .exhausted t :=
    Action.outermost_ne_exhausted _ s
  revert ends reported
  show (shapedRuns host).Ends () _ (interpret host fuel program s)
    (interpret host fuel program s) → _
  generalize interpret host fuel program s = ending
  intro ends reported
  cases ends with
  | done _ states _ => exact states.store.2
  | @failed _ e _ t _ _ states failures =>
    obtain ⟨-, he⟩ := failures
    cases e with
    | fault cause location => exact ⟨he, states.store.2⟩
    | exhausted => exact (reported t rfl).elim
    | _ => exact he
  | outOfFuel => trivial

/-- A text that is accepted is interpreted in the same store. -/
theorem run_eq (host : Host) (fuel : Nat) {source : String} {program : Node} (s : State)
    (h : parse source = .ok program) :
    run host fuel source s = .ok (interpret host fuel program.parts
      { s with log := s.log.push (.running source.length) }) := by
  unfold run
  rw [h]
  rfl

/-- A run that the host refuses leaves the store alone, and any other run keeps the shapes. -/
theorem run_shaped {fuel : Nat} {source : String} {s t : State} {ending : Ending Outcome}
    (shaped : s.store.Shaped) (h : run host fuel source s = .ok ending)
    (left : ending.state? = some t) :
    t.store.Shaped := by
  cases hparse : parse source with
  | error e =>
    unfold run at h
    rw [hparse] at h
    cases h
  | ok program =>
    rw [run_eq host fuel s hparse] at h
    cases h
    by_cases range : host.InRange
    · refine Ending.Documented.shaped
        (interpret_documented range fuel (parse_shape hparse) ?_) left
      exact shaped
    · obtain ⟨reason, refused⟩ := Host.refusal?_of_not_inRange range
      rw [interpret_refused refused] at left
      cases left
      exact shaped

theorem fresh_shaped : State.fresh.store.Shaped := by
  refine Store.Holds.withGlobals .empty fun n hn => ?_
  obtain rfl := List.mem_singleton.1 hn
  rfl

theorem State.Used.shaped {s : State} (used : s.Used) : s.store.Shaped := by
  induction used with
  | fresh => exact fresh_shaped
  | done _ h ih => exact run_shaped ih h rfl
  | failed _ h ih => exact run_shaped ih h rfl

/-- **Accepted programs go wrong only in the documented ways, or the host refuses the limit.** For
every accepted text, on a new machine or one that has run accepted texts before, with any limit on
calls and however printing and the clock behave: the nodes that are run have the shapes that are
understood, and so have the bodies of all functions in the store. If the limit for the stack of the
host is in range, then the run ends, if it ends, with an outcome or with a documented fault, again
with functions of such shapes in the store. If it is not, then the run ends at once with the failure
of the host, and only the log has changed. -/
theorem accepted_ends_documented (host : Host) (fuel : Nat) (source : String) (program : Node)
    (s : State) (accepted : parse source = .ok program) (used : s.Used) :
    (∀ n ∈ program.parts, n.Is false .item) ∧ s.store.Shaped ∧
      (host.InRange → ∃ ending, run host fuel source s = .ok ending ∧ ending.Documented) ∧
      (¬ host.InRange → ∃ reason, host.refusal? = some (.refused reason) ∧
        run host fuel source s = .ok (.failed (.refused reason)
          { s with log := (s.log.push (.running source.length)).push
                     (.interpreting program.parts.length) })) := by
  refine ⟨parse_shape accepted, used.shaped, fun range => ?_, fun range => ?_⟩
  · refine ⟨_, run_eq host fuel s accepted, ?_⟩
    exact interpret_documented range fuel (parse_shape accepted) used.shaped
  · obtain ⟨reason, refused⟩ := Host.refusal?_of_not_inRange range
    refine ⟨reason, refused, ?_⟩
    rw [run_eq host fuel s accepted, interpret_refused refused]
    rfl

/-- A loop that reads an undefined variable, run on a new machine: under a limit of 200 calls it
ends in a documented way, and under a limit of -25 calls the host refuses. -/
theorem accepted_ends_documented_loop :
    ∃ program, parse "for (;;) print x;" = .ok program ∧ State.fresh.Used ∧
      let host : Host := ⟨0, 200, ⟨1000, 10⟩, fun _ => false, fun _ => 0⟩
      (∀ n ∈ program.parts, n.Is false .item) ∧ State.fresh.store.Shaped ∧
        (∃ ending, run host 10 "for (;;) print x;" State.fresh = .ok ending ∧
          ending.Documented) ∧
        ∃ reason t, run { host with maxDepth := -25 } 10 "for (;;) print x;" State.fresh =
          .ok (.failed (.refused reason) t) := by
  have accepted : (parse "for (;;) print x;").isOk = true := by cbv
  cases h : parse "for (;;) print x;" with
  | error e =>
    rw [h] at accepted
    cases accepted
  | ok program =>
    refine ⟨program, rfl, .fresh, ?_⟩
    intro host
    obtain ⟨shapes, shaped, documented, -⟩ :=
      accepted_ends_documented host 10 _ program _ h .fresh
    obtain ⟨reason, -, refused⟩ :=
      (accepted_ends_documented { host with maxDepth := -25 } 10 _ program _ h .fresh).2.2.2
        (by decide)
    exact ⟨shapes, shaped, documented (by decide), reason, _, refused⟩

/-- Whatever the stack of the host holds, the text `print 1;` ends in no documented way on a new
machine if 10¹⁸ calls may be active: the limit for the stack is too wide for the host. -/
theorem accepted_ends_undocumented :
    ∃ program, parse "print 1;" = .ok program ∧ State.fresh.Used ∧ ∀ fuel stack,
      let host : Host := ⟨0, 1000000000000000000, stack, fun _ => false, fun _ => 0⟩
      ∃ ending, run host fuel "print 1;" State.fresh = .ok ending ∧ ¬ ending.Documented ∧
        ∃ t, ending = .failed (.refused .tooWide) t := by
  have accepted : (parse "print 1;").isOk = true := by cbv
  cases h : parse "print 1;" with
  | error e =>
    rw [h] at accepted
    cases accepted
  | ok program =>
    refine ⟨program, rfl, .fresh, fun fuel stack => ?_⟩
    intro host
    have refused : host.refusal? = some (.refused .tooWide) := by
      have wide : Host.largestLimit < host.stackLimit := by
        simp only [host, Host.stackLimit, Host.largestLimit, Host.framesPerCall]
        omega
      rw [Host.refusal?, if_pos (.inr wide)]
    exact ⟨_, run_eq host fuel _ h, by rw [interpret_refused refused]; exact id, _,
      interpret_refused refused fuel _ _⟩

end LoxLang
