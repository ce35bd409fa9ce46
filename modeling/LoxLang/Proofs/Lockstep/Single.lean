import LoxLang.Proofs.Lockstep.Run

/-!
# Properties of single runs

A run beside itself. What holds of the store, of the functions and of the failures of one run is a
`Lockstep` in which related things are equal and have the property.

* `Lockstep.Single`: the properties; `Lockstep.Single.runs`: the run beside itself.
* `Lockstep.Single.Holds`: what the properties say of a value.
* `Lockstep.Single.Law`: what an instance has to prove.

Results: `Lockstep.Single.Law.law` — such a run satisfies the law of `Lockstep`;
`Lockstep.Single.Law.interpret` — how a program ends.
-/

set_option autoImplicit false

namespace LoxLang

/-- The faults of calls and operators. -/
inductive Fault.OfOperation : Fault → Prop
  | arityMismatch (expected : Int) (got : Nat) : OfOperation (.arityMismatch expected got)
  | notCallable (v : Value) : OfOperation (.notCallable v)
  | typeMismatch (op : String) (operands : List Value) : OfOperation (.typeMismatch op operands)
  | depthLimit (limit : Int) : OfOperation (.depthLimit limit)
  | hostExhausted (depth : Nat) : OfOperation (.hostExhausted depth)

namespace Lockstep

variable {W : Type} {w : W}

/-- What holds during a run. -/
structure Single (W : Type) where
  host : Host
  store : W → Store → Prop
  closure : W → Closure → Prop
  native : Native → Prop
  failure : Failure → Prop
  /-- The node is run as a statement in the frame. -/
  stmt : W → Node → FrameId → Prop
  /-- The same for expressions. -/
  expr : W → Node → FrameId → Prop

namespace Single

variable {P : Single W}

/-- The run beside itself. -/
def runs (P : Single W) : Lockstep W where
  host := P.host
  store w σ σ' := σ = σ' ∧ P.store w σ
  closure w c c' := c = c' ∧ P.closure w c
  native := P.native
  failure e e' := e = e' ∧ P.failure e
  output := Eq
  log := Eq
  stmt w n f n' f' := n = n' ∧ f = f' ∧ P.stmt w n f
  expr w n f n' f' := n = n' ∧ f = f' ∧ P.expr w n f

/-- What holds of the functions that are bound, passed and returned. -/
def Holds (P : Single W) (w : W) : Value → Prop
  | .native n => P.native n
  | .function c => P.closure w c
  | _ => True

theorem value_iff {v v' : Value} : P.runs.ValueAlike w v v' ↔ v = v' ∧ P.Holds w v := by
  constructor
  · intro h
    cases h with
    | native h => exact ⟨rfl, h⟩
    | function h => exact ⟨congrArg Value.function h.1, h.2⟩
    | _ => exact ⟨rfl, trivial⟩
  · rintro ⟨rfl, h⟩
    cases v with
    | nil => exact .nil
    | bool b => exact .bool b
    | number x => exact .number x
    | string s => exact .string s
    | native n => exact .native h
    | function c => exact .function ⟨rfl, h⟩

theorem values {vs vs' : List Value} (h : List.Forall₂ (P.runs.ValueAlike w) vs vs') :
    vs = vs' ∧ ∀ v ∈ vs, P.Holds w v := by
  induction h with
  | nil => exact ⟨rfl, nofun⟩
  | cons hv _ ih =>
    obtain ⟨rfl, head⟩ := value_iff.1 hv
    obtain ⟨rfl, rest⟩ := ih
    exact ⟨rfl, List.forall_mem_cons.2 ⟨head, rest⟩⟩

theorem log_push {l l' : Array Record} (r : Record) (h : P.runs.log l l') :
    P.runs.log (l.push r) (l'.push r) := by
  rw [show l = l' from h]
  rfl

theorem nodes {f : FrameId} {ns : List Node} (h : ∀ n ∈ ns, P.stmt w n f) :
    List.Forall₂ (fun n n' => P.runs.stmt w n f n' f) ns ns :=
  List.forall₂_same.2 fun n hn => ⟨rfl, rfl, h n hn⟩

/-- A part that may be absent. -/
theorem optional {f : FrameId} {Q : Node → FrameId → Prop} {n : Option Node}
    (h : ∀ e, n = some e → Q e f) :
    Option.Rel (fun e e' => e = e' ∧ f = f ∧ Q e f) n n := by
  cases n with
  | none => exact .none
  | some e => exact .some ⟨rfl, rfl, h e rfl⟩

variable [Preorder W]

/-- What an instance has to prove. -/
structure Law (P : Single W) : Prop where
  closure_mono : ∀ {w w₁ c}, w ≤ w₁ → P.closure w c → P.closure w₁ c
  stmt_mono : ∀ {w w₁ n f}, w ≤ w₁ → P.stmt w n f → P.stmt w₁ n f
  expr_mono : ∀ {w w₁ n f}, w ≤ w₁ → P.expr w n f → P.expr w₁ n f
  raised : ∀ {cause}, cause.OfOperation → P.failure (.of cause)
  refused : ∀ {reason}, P.host.refusal? = some (.refused reason) → P.failure (.refused reason)
  exhausted : P.failure .exhausted
  native_apply : ∀ {n}, P.native n → n.kind = .apply → P.failure .missing
  native_fail : ∀ {n}, P.native n → n.kind = .fail → P.failure (.of .nativeFailure)
  locate : ∀ {e} (place : Place), P.failure e → P.failure (e.locate place)
  enter : ∀ {w c args σ}, P.closure w c →
    (∀ v ∈ args, P.Holds w v) → P.store w σ →
      ∃ w₁, w ≤ w₁ ∧
        P.store w₁ ((σ.child c.frame).defineAll σ.size (c.params.zip args)) ∧
          ∀ n ∈ c.body, P.stmt w₁ n σ.size
  statement : ∀ {w n f}, P.stmt w n f → P.runs.StatementAlike w f f n.statement n.statement
  expression : ∀ {w n f}, P.expr w n f → P.runs.ExpressionAlike w f f n.expression n.expression

/-- **Runs keep the properties.** -/
theorem Law.law (h : P.Law) : P.runs.Law where
  closure_mono later hc := ⟨hc.1, h.closure_mono later hc.2⟩
  stmt_mono later hn := ⟨hn.1, hn.2.1, h.stmt_mono later hn.2.2⟩
  expr_mono later hn := ⟨hn.1, hn.2.1, h.expr_mono later hn.2.2⟩
  closure_mark hc := congrArg Closure.mark hc.1
  closure_arity hc := congrArg (·.params.length) hc.1
  output_push hv ho := congrArg₂ Array.push ho (value_iff.1 hv).1
  log_limitHit m hv hl := by
    obtain ⟨rfl, -⟩ := value_iff.1 hv
    exact log_push _ hl
  log_exhausted d hl := log_push _ hl
  log_interpreting n hl := log_push _ hl
  log_raisedLimit previous limit hl := log_push _ hl
  fault_arity m n := ⟨rfl, h.raised (.arityMismatch m n)⟩
  fault_notCallable hv :=
    ⟨congrArg (fun v => Failure.of (.notCallable v)) (value_iff.1 hv).1,
      h.raised (.notCallable _)⟩
  fault_type op hvs :=
    ⟨congrArg (fun vs => Failure.of (.typeMismatch op vs)) (values hvs).1,
      h.raised (.typeMismatch op _)⟩
  fault_limit m := ⟨rfl, h.raised (.depthLimit m)⟩
  fault_host d := ⟨rfl, h.raised (.hostExhausted d)⟩
  refused he := ⟨rfl, h.refused he⟩
  exhausted := ⟨rfl, h.exhausted⟩
  exhausted_iff he := by rw [he.1]
  native_apply hn hk := ⟨rfl, h.native_apply hn hk⟩
  native_fail hn hk := ⟨rfl, h.native_fail hn hk⟩
  locate_stmt hn he :=
    ⟨congrArg₂ (fun n e => Failure.locate (Node.place n) e) hn.1 he.1, h.locate _ he.2⟩
  locate_expr hn he :=
    ⟨congrArg₂ (fun n e => Failure.locate (Node.place n) e) hn.1 he.1, h.locate _ he.2⟩
  enter {_ c c' args args' σ σ'} hc hargs hσ := by
    obtain ⟨rfl, hc⟩ := hc
    obtain ⟨rfl, held⟩ := values hargs
    obtain ⟨rfl, hσ⟩ := hσ
    obtain ⟨w₁, later, stores, body⟩ := h.enter hc held hσ
    exact ⟨w₁, later, ⟨rfl, stores⟩, nodes body⟩
  statement hn := by
    obtain ⟨rfl, rfl, hn⟩ := hn
    exact h.statement hn
  expression hn := by
    obtain ⟨rfl, rfl, hn⟩ := hn
    exact h.expression hn

/-- A program whose statements have the property keeps it, and fails only as it may. -/
theorem Law.interpret (h : P.Law) (fuel : Nat) {program : List Node} {s : State}
    (store : P.store w s.store) (program_holds : ∀ n ∈ program, P.stmt w n P.host.globals) :
    P.runs.Ends w P.runs.OutcomeAlike (LoxLang.interpret P.host fuel program s)
      (LoxLang.interpret P.host fuel program s) :=
  h.law.interpret fuel (nodes program_holds) s s
    ⟨⟨rfl, store⟩, rfl, rfl, rfl, rfl, rfl, rfl⟩

end Single

end Lockstep

end LoxLang
