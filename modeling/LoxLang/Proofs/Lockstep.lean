import Mathlib.Data.List.Forall2
import Mathlib.Order.Basic
import LoxLang.Proofs.Store
import LoxLang.Run.Program

/-!
# Two runs side by side

Two runs of the evaluator that meet related nodes in related frames, and start in related states, go
through the same steps. What that takes is said here once, for any relation that the few operations
on the store keep; a property of single runs is the case in which both runs are the same one.

* `Lockstep`: the relations between the two runs. Those that hold of more and more during a run
  depend on a world, and worlds only become later.
* `Lockstep.Alike`: two actions that end alike from related states, with related results.
* `Lockstep.StatementAlike`, `Lockstep.ExpressionAlike`: what the parts of two related nodes, and
  the store operations that the nodes need, have to satisfy; `Lockstep.Found`: names that cannot be
  missed.
* `Lockstep.Law`: what an instance has to prove.

Results: operators, sequences of actions, calls and the primitive actions keep the relations.
-/

set_option autoImplicit false

namespace LoxLang

variable {W : Type} [Preorder W] {α α' β β' : Type}

/-- The prefix operators. -/
def IsUnary (op : String) : Prop := op = "-" ∨ op = "!"

/-- The infix operators on values. -/
def IsBinary (op : String) : Prop :=
  op ∈ ["+", "-", "*", "/", ">", ">=", "<", "<=", "==", "!="]

/-- The relations between two runs. -/
structure Lockstep (W : Type) where
  host : Host
  store : W → Store → Store → Prop
  closure : W → Closure → Closure → Prop
  native : Native → Prop
  failure : Failure → Failure → Prop
  output : Array Value → Array Value → Prop
  log : Array Record → Array Record → Prop
  /-- The first node is run as a statement in the first frame, the second one in the second. -/
  stmt : W → Node → FrameId → Node → FrameId → Prop
  /-- The same for expressions. -/
  expr : W → Node → FrameId → Node → FrameId → Prop

namespace Lockstep

/-- Related values: data are equal, natives are equal and allowed, declared functions are
related. -/
inductive ValueAlike (L : Lockstep W) (w : W) : Value → Value → Prop
  | nil : L.ValueAlike w .nil .nil
  | bool (b : Bool) : L.ValueAlike w (.bool b) (.bool b)
  | number (x : Number) : L.ValueAlike w (.number x) (.number x)
  | string (s : String) : L.ValueAlike w (.string s) (.string s)
  | native {n : Native} (h : L.native n) : L.ValueAlike w (.native n) (.native n)
  | function {c c' : Closure} (h : L.closure w c c') : L.ValueAlike w (.function c) (.function c')

/-- Related outcomes of statements. -/
inductive OutcomeAlike (L : Lockstep W) (w : W) : Outcome → Outcome → Prop
  | normal : L.OutcomeAlike w .normal .normal
  | returning {v v' : Option Value} (h : Option.Rel (L.ValueAlike w) v v') :
    L.OutcomeAlike w (.returning v) (.returning v')

/-- Related states. All that is not in the store, printed or noted down is the same. -/
structure StateAlike (L : Lockstep W) (w : W) (s s' : State) : Prop where
  store : L.store w s.store s'.store
  output : L.output s.printed s'.printed
  log : L.log s.log s'.log
  nextMark : s.nextMark = s'.nextMark
  depth : s.depth = s'.depth
  attempts : s.attempts = s'.attempts
  readings : s.readings = s'.readings

/-- Related endings: in a later world the states are related, and so are the results or failures. -/
inductive Ends (L : Lockstep W) (w : W) (V : W → α → α' → Prop) :
    Ending α → Ending α' → Prop
  | done {w₁ : W} {x : α} {x' : α'} {t t' : State} (later : w ≤ w₁)
    (states : L.StateAlike w₁ t t') (results : V w₁ x x') : L.Ends w V (.done x t) (.done x' t')
  | failed {w₁ : W} {e e' : Failure} {t t' : State} (later : w ≤ w₁)
    (states : L.StateAlike w₁ t t') (failures : L.failure e e') :
    L.Ends w V (.failed e t) (.failed e' t')
  | outOfFuel : L.Ends w V .outOfFuel .outOfFuel

/-- Two actions that end alike whenever they start in related states. -/
def Alike (L : Lockstep W) (w : W) (V : W → α → α' → Prop) (a : Action α)
    (a' : Action α') : Prop :=
  ∀ s s', L.StateAlike w s s' → L.Ends w V (a s) (a' s')

/-- The results of two actions that have none to speak of. -/
def Any : W → α → α' → Prop := fun _ _ _ => True

/-! ## What related nodes consist of -/

/-- Two statements that are run alike, in frames `f` and `f'`. -/
inductive StatementAlike (L : Lockstep W) (w : W) (f f' : FrameId) :
    Statement → Statement → Prop
  | expression {n n' : Node} (value : L.expr w n f n' f') :
    L.StatementAlike w f f' (.expression n) (.expression n')
  | print {n n' : Node} (value : L.expr w n f n' f') :
    L.StatementAlike w f f' (.print n) (.print n')
  | declare {x x' : String} {init init' : Option Node}
    (value : Option.Rel (fun n n' => L.expr w n f n' f') init init')
    (define : ∀ {w₁ v v' σ σ'}, w ≤ w₁ → L.ValueAlike w₁ v v' →
      L.store w₁ σ σ' →
        ∃ w₂, w₁ ≤ w₂ ∧ L.store w₂ (σ.define f x v) (σ'.define f' x' v')) :
    L.StatementAlike w f f' (.declare x init) (.declare x' init')
  | block {body body' : List Node}
    (enter : ∀ {σ σ'}, L.store w σ σ' →
      ∃ w₁, w ≤ w₁ ∧ L.store w₁ (σ.child f) (σ'.child f') ∧
        List.Forall₂ (fun n n' => L.stmt w₁ n σ.size n' σ'.size) body body') :
    L.StatementAlike w f f' (.block body) (.block body')
  | branch {t t' a a' : Node} {b b' : Option Node} (test : L.expr w t f t' f')
    (yes : L.stmt w a f a' f') (no : Option.Rel (fun n n' => L.stmt w n f n' f') b b') :
    L.StatementAlike w f f' (.branch t a b) (.branch t' a' b')
  | loop {t t' a a' : Node} (test : L.expr w t f t' f') (body : L.stmt w a f a' f') :
    L.StatementAlike w f f' (.loop t a) (.loop t' a')
  | function {x x' : String} {params params' : List String} {body body' : List Node}
    (define : ∀ {m σ σ'}, L.store w σ σ' → ∃ w₁, w ≤ w₁ ∧
      L.store w₁ (σ.define f x (.function ⟨x, params, body, f, m⟩))
        (σ'.define f' x' (.function ⟨x', params', body', f', m⟩)))
    (log : ∀ {l l'}, L.log l l' →
      L.log (l.push (.declared x params.length)) (l'.push (.declared x' params'.length))) :
    L.StatementAlike w f f' (.function x params body) (.function x' params' body')
  | result {r r' : Option Node} (value : Option.Rel (fun n n' => L.expr w n f n' f') r r') :
    L.StatementAlike w f f' (.result r) (.result r')
  | invalid {e e' : Failure} (failure : L.failure e e') :
    L.StatementAlike w f f' (.invalid e) (.invalid e')

/-- From the frame `f` the name is found in every store of the first run from now on. -/
def Found (L : Lockstep W) (w : W) (f : FrameId) (x : String) : Prop :=
  ∀ w₁ σ σ', w ≤ w₁ → L.store w₁ σ σ' → (σ.resolve f x).isSome

/-- Two expressions that are evaluated alike, in frames `f` and `f'`. A variable is found and an
operator is a known one, or the failure of one that is not is among the related failures. -/
inductive ExpressionAlike (L : Lockstep W) (w : W) (f f' : FrameId) :
    Expression → Expression → Prop
  | constant {v v' : Value} (value : L.ValueAlike w v v') :
    L.ExpressionAlike w f f' (.constant v) (.constant v')
  | number (x : Float) : L.ExpressionAlike w f f' (.number x) (.number x)
  | reference {x x' : String}
    (lookup : ∀ {σ σ'}, L.store w σ σ' →
      Option.Rel (L.ValueAlike w) (σ.get? f x) (σ'.get? f' x'))
    (found : L.Found w f x ∨
      L.failure (.of (.undefinedVariable x)) (.of (.undefinedVariable x'))) :
    L.ExpressionAlike w f f' (.reference x) (.reference x')
  | assign {x x' : String} {n n' : Node} (value : L.expr w n f n' f')
    (assign : ∀ {w₁ v v' σ σ'}, w ≤ w₁ → L.ValueAlike w₁ v v' →
      L.store w₁ σ σ' →
      Option.Rel (fun g g' => ∃ w₂, w₁ ≤ w₂ ∧
        L.store w₂ (σ.define g x v) (σ'.define g' x' v')) (σ.resolve f x) (σ'.resolve f' x'))
    (found : L.Found w f x ∨
      L.failure (.of (.undefinedVariable x)) (.of (.undefinedVariable x'))) :
    L.ExpressionAlike w f f' (.assign x n) (.assign x' n')
  | grouping {n n' : Node} (inner : L.expr w n f n' f') :
    L.ExpressionAlike w f f' (.grouping n) (.grouping n')
  | unary {op : String} {n n' : Node} (operand : L.expr w n f n' f')
    (known : IsUnary op ∨ L.failure (.of (.unknownUnary op)) (.of (.unknownUnary op))) :
    L.ExpressionAlike w f f' (.unary op n) (.unary op n')
  | binary {op : String} {a a' b b' : Node} (left : L.expr w a f a' f') (right : L.expr w b f b' f')
    (known : IsBinary op ∨ L.failure (.of (.unknownBinary op)) (.of (.unknownBinary op))) :
    L.ExpressionAlike w f f' (.binary a op b) (.binary a' op b')
  | logical {op : String} {a a' b b' : Node} (left : L.expr w a f a' f')
    (right : L.expr w b f b' f') (known : (Logical.ofText? op).isSome ∨
      L.failure (.of (.unknownLogical op)) (.of (.unknownLogical op))) :
    L.ExpressionAlike w f f' (.logical a op b) (.logical a' op b')
  | call {n n' : Node} {args args' : List Node} (callee : L.expr w n f n' f')
    (arguments : List.Forall₂ (fun a a' => L.expr w a f a' f') args args') :
    L.ExpressionAlike w f f' (.call n args) (.call n' args')
  | invalid {e e' : Failure} (failure : L.failure e e') :
    L.ExpressionAlike w f f' (.invalid e) (.invalid e')

/-- What an instance has to prove: the relations are kept by time, by the records and failures of
calls, and by what nodes and functions do to the store. -/
structure Law (L : Lockstep W) : Prop where
  closure_mono : ∀ {w w₁ c c'}, w ≤ w₁ → L.closure w c c' → L.closure w₁ c c'
  stmt_mono : ∀ {w w₁ n f n' f'}, w ≤ w₁ → L.stmt w n f n' f' → L.stmt w₁ n f n' f'
  expr_mono : ∀ {w w₁ n f n' f'}, w ≤ w₁ → L.expr w n f n' f' → L.expr w₁ n f n' f'
  closure_mark : ∀ {w c c'}, L.closure w c c' → c.mark = c'.mark
  closure_arity : ∀ {w c c'}, L.closure w c c' → c.params.length = c'.params.length
  output_push : ∀ {w v v' o o'}, L.ValueAlike w v v' → L.output o o' →
    L.output (o.push v) (o'.push v')
  log_limitHit : ∀ {w v v' l l'} (m : Int), L.ValueAlike w v v' → L.log l l' →
    L.log (l.push (.limitHit m v)) (l'.push (.limitHit m v'))
  log_exhausted : ∀ {l l'} (d : Nat), L.log l l' →
    L.log (l.push (.exhausted d)) (l'.push (.exhausted d))
  log_interpreting : ∀ {l l'} (n : Nat), L.log l l' →
    L.log (l.push (.interpreting n)) (l'.push (.interpreting n))
  log_raisedLimit : ∀ {l l'} (previous : Nat) (limit : Int), L.log l l' →
    L.log (l.push (.raisedLimit previous limit)) (l'.push (.raisedLimit previous limit))
  fault_arity : ∀ (m : Int) (n : Nat), L.failure (.of (.arityMismatch m n))
    (.of (.arityMismatch m n))
  fault_notCallable : ∀ {w v v'}, L.ValueAlike w v v' →
    L.failure (.of (.notCallable v)) (.of (.notCallable v'))
  fault_type : ∀ {w vs vs'} (op : String), List.Forall₂ (L.ValueAlike w) vs vs' →
    L.failure (.of (.typeMismatch op vs)) (.of (.typeMismatch op vs'))
  fault_limit : ∀ (m : Int), L.failure (.of (.depthLimit m)) (.of (.depthLimit m))
  fault_host : ∀ (d : Nat), L.failure (.of (.hostExhausted d)) (.of (.hostExhausted d))
  refused : ∀ {reason}, L.host.refusal? = some (.refused reason) →
    L.failure (.refused reason) (.refused reason)
  exhausted : L.failure .exhausted .exhausted
  exhausted_iff : ∀ {e e'}, L.failure e e' → (e = .exhausted ↔ e' = .exhausted)
  native_apply : ∀ {n}, L.native n → n.kind = .apply → L.failure .missing .missing
  native_fail : ∀ {n}, L.native n → n.kind = .fail →
    L.failure (.of .nativeFailure) (.of .nativeFailure)
  locate_stmt : ∀ {w n f n' f' e e'}, L.stmt w n f n' f' → L.failure e e' →
    L.failure (e.locate n.place) (e'.locate n'.place)
  locate_expr : ∀ {w n f n' f' e e'}, L.expr w n f n' f' → L.failure e e' →
    L.failure (e.locate n.place) (e'.locate n'.place)
  enter : ∀ {w c c' args args' σ σ'}, L.closure w c c' →
    List.Forall₂ (L.ValueAlike w) args args' → L.store w σ σ' → ∃ w₁, w ≤ w₁ ∧
      L.store w₁ ((σ.child c.frame).defineAll σ.size (c.params.zip args))
        ((σ'.child c'.frame).defineAll σ'.size (c'.params.zip args')) ∧
      List.Forall₂ (fun n n' => L.stmt w₁ n σ.size n' σ'.size) c.body c'.body
  statement : ∀ {w n f n' f'}, L.stmt w n f n' f' →
    L.StatementAlike w f f' n.statement n'.statement
  expression : ∀ {w n f n' f'}, L.expr w n f n' f' →
    L.ExpressionAlike w f f' n.expression n'.expression

variable {L : Lockstep W} {w w₁ : W}

/-! ## Values and outcomes -/

theorem ValueAlike.mono (law : L.Law) (h : w ≤ w₁) {v v' : Value} (hv : L.ValueAlike w v v') :
    L.ValueAlike w₁ v v' := by
  cases hv with
  | nil => exact .nil
  | bool b => exact .bool b
  | number x => exact .number x
  | string s => exact .string s
  | native hn => exact .native hn
  | function hc => exact .function (law.closure_mono h hc)

omit [Preorder W] in
theorem ValueAlike.isTruthy {v v' : Value} (hv : L.ValueAlike w v v') :
    v.isTruthy = v'.isTruthy := by
  cases hv <;> rfl

theorem ValueAlike.arity (law : L.Law) {v v' : Value} (hv : L.ValueAlike w v v') :
    v.arity? = v'.arity? := by
  cases hv with
  | function hc => simp only [Value.arity?, law.closure_arity hc]
  | _ => rfl

/-- Related values are equal to related values: functions have the marks of their counterparts. -/
theorem ValueAlike.equal (law : L.Law) {a a' b b' : Value} (ha : L.ValueAlike w a a')
    (hb : L.ValueAlike w b b') : a.equal b = a'.equal b' := by
  cases ha with
  | function ha =>
    cases hb with
    | function hb => simp only [Value.equal, law.closure_mark ha, law.closure_mark hb]
    | _ => rfl
  | _ => cases hb <;> rfl

theorem values_mono (law : L.Law) (h : w ≤ w₁) {vs vs' : List Value}
    (hvs : List.Forall₂ (L.ValueAlike w) vs vs') : List.Forall₂ (L.ValueAlike w₁) vs vs' :=
  hvs.imp fun _ _ hv => hv.mono law h

theorem stmts_mono (law : L.Law) (h : w ≤ w₁) {f f' : FrameId} {ns ns' : List Node}
    (hns : List.Forall₂ (fun n n' => L.stmt w n f n' f') ns ns') :
    List.Forall₂ (fun n n' => L.stmt w₁ n f n' f') ns ns' :=
  hns.imp fun _ _ hn => law.stmt_mono h hn

theorem exprs_mono (law : L.Law) (h : w ≤ w₁) {f f' : FrameId} {ns ns' : List Node}
    (hns : List.Forall₂ (fun n n' => L.expr w n f n' f') ns ns') :
    List.Forall₂ (fun n n' => L.expr w₁ n f n' f') ns ns' :=
  hns.imp fun _ _ hn => law.expr_mono h hn

/-- Related results of an operator. -/
inductive ResultAlike (L : Lockstep W) (w : W) : Except Fault Value → Except Fault Value → Prop
  | ok {v v' : Value} (h : L.ValueAlike w v v') : L.ResultAlike w (.ok v) (.ok v')
  | error {c c' : Fault} (h : L.failure (.of c) (.of c')) : L.ResultAlike w (.error c) (.error c')

theorem applyUnary_alike (law : L.Law) (m : Nat) {op : String} {v v' : Value}
    (known : IsUnary op ∨ L.failure (.of (.unknownUnary op)) (.of (.unknownUnary op)))
    (hv : L.ValueAlike w v v') : L.ResultAlike w (applyUnary m op v) (applyUnary m op v') := by
  have mismatch := law.fault_type op (.cons hv .nil)
  unfold applyUnary
  split
  · cases hv with
    | number x => exact .ok (.number _)
    | _ => exact .error mismatch
  · rw [hv.isTruthy]
    exact .ok (.bool _)
  · rename_i hminus hbang
    rcases known with (h | h) | h
    · exact absurd h hminus
    · exact absurd h hbang
    · exact .error h

/-- An operator on numbers gives the same result, or the same fault up to the operands. -/
theorem numbers_alike (law : L.Law) {op : String} {a a' b b' : Value} (ha : L.ValueAlike w a a')
    (hb : L.ValueAlike w b b') {r : Number × Number → Value}
    (hr : ∀ x, L.ValueAlike w (r x) (r x)) :
    L.ResultAlike w (numbers op a b >>= fun x => .ok (r x))
      (numbers op a' b' >>= fun x => .ok (r x)) := by
  have mismatch := law.fault_type op (.cons ha (.cons hb .nil))
  cases ha with
  | number x =>
    cases hb with
    | number y => exact .ok (hr (x, y))
    | _ => exact .error mismatch
  | _ => exact .error mismatch

theorem applyBinary_alike (law : L.Law) (m : Nat) {op : String} {a a' b b' : Value}
    (known : IsBinary op ∨ L.failure (.of (.unknownBinary op)) (.of (.unknownBinary op)))
    (ha : L.ValueAlike w a a') (hb : L.ValueAlike w b b') :
    L.ResultAlike w (applyBinary m op a b) (applyBinary m op a' b') := by
  unfold applyBinary
  split
  · -- a sum, or two strings put together
    have mismatch := law.fault_type "+" (.cons ha (.cons hb .nil))
    cases ha with
    | number x =>
      cases hb with
      | number y => exact .ok (.number _)
      | _ => exact .error mismatch
    | string x =>
      cases hb with
      | string y => exact .ok (.string _)
      | _ => exact .error mismatch
    | _ => exact .error mismatch
  · exact numbers_alike law ha hb fun _ => .number _
  · exact numbers_alike law ha hb fun _ => .number _
  · exact numbers_alike law ha hb fun _ => .number _
  · exact numbers_alike law ha hb fun _ => .bool _
  · exact numbers_alike law ha hb fun _ => .bool _
  · exact numbers_alike law ha hb fun _ => .bool _
  · exact numbers_alike law ha hb fun _ => .bool _
  · rw [ha.equal law hb]
    exact .ok (.bool _)
  · rw [ha.equal law hb]
    exact .ok (.bool _)
  · rcases known with h | h
    · simp_all [IsBinary]
    · exact .error h

/-! ## Actions -/

theorem Law.both_exhausted_or_none (law : L.Law) {e e' : Failure} (h : L.failure e e') :
    e = .exhausted ∧ e' = .exhausted ∨ e ≠ .exhausted ∧ e' ≠ .exhausted := by
  by_cases he : e = .exhausted
  · exact .inl ⟨he, (law.exhausted_iff h).1 he⟩
  · exact .inr ⟨he, fun he' => he ((law.exhausted_iff h).2 he')⟩

/-- Endings that are alike from a later world on, with results that are related more closely. -/
theorem Ends.weaken {V V' : W → α → α' → Prop} {e : Ending α} {e' : Ending α'}
    (later : w ≤ w₁)
    (hV : ∀ {w₂ x x'}, V w₂ x x' → V' w₂ x x') (h : L.Ends w₁ V e e') :
    L.Ends w V' e e' := by
  cases h with
  | done later' states results => exact .done (later.trans later') states (hV results)
  | failed later' states failures => exact .failed (later.trans later') states failures
  | outOfFuel => exact .outOfFuel

namespace Alike

variable {V : W → α → α' → Prop} {U : W → β → β' → Prop}

theorem pure {x : α} {x' : α'} (h : V w x x') : L.Alike w V (Pure.pure x) (Pure.pure x') :=
  fun _ _ hs => .done (le_refl w) hs h

theorem fail {e e' : Failure} (h : L.failure e e') :
    L.Alike w V (Action.fail e) (Action.fail e') :=
  fun _ _ hs => .failed (le_refl w) hs h

theorem raise {c c' : Fault} (h : L.failure (.of c) (.of c')) :
    L.Alike w V (Action.raise c) (Action.raise c') := fail h

theorem starve : L.Alike w V Action.starve Action.starve := fun _ _ _ => .outOfFuel

/-- One action after another: the second ones start in a later world. -/
theorem bind {a : Action α} {a' : Action α'} {k : α → Action β} {k' : α' → Action β'}
    (h : L.Alike w V a a')
    (hk : ∀ {w₁ x x'}, w ≤ w₁ → V w₁ x x' → L.Alike w₁ U (k x) (k' x')) :
    L.Alike w U (a >>= k) (a' >>= k') := by
  intro s s' hs
  have first := h s s' hs
  simp only [Action.bind_apply]
  generalize a s = e at first ⊢
  generalize a' s' = e' at first ⊢
  cases first with
  | done later states results => exact (hk later results _ _ states).weaken later id
  | failed later states failures => exact .failed later states failures
  | outOfFuel => exact .outOfFuel

/-- The place of a node is given to the failures of both runs. -/
theorem locate {a : Action α} {a' : Action α'} {p p' : Place} (h : L.Alike w V a a')
    (hp : ∀ {e e'}, L.failure e e' → L.failure (e.locate p) (e'.locate p')) :
    L.Alike w V (a.locate p) (a'.locate p') := by
  intro s s' hs
  have ends := h s s' hs
  unfold Action.locate
  generalize a s = e at ends ⊢
  generalize a' s' = e' at ends ⊢
  cases ends with
  | done later states results => exact .done later states results
  | failed later states failures => exact .failed later states (hp failures)
  | outOfFuel => exact .outOfFuel

/-- A call counts in both runs, and exhaustion of the host is a fault of both or of none. -/
theorem nested (law : L.Law) {a : Action α} {a' : Action α'} (h : L.Alike w V a a') :
    L.Alike w V a.nested a'.nested := by
  intro s s' hs
  have ends := h { s with depth := s.depth + 1 } { s' with depth := s'.depth + 1 }
    ⟨hs.store, hs.output, hs.log, hs.nextMark, congrArg (· + 1) hs.depth, hs.attempts,
      hs.readings⟩
  unfold Action.nested
  generalize a { s with depth := s.depth + 1 } = e at ends ⊢
  generalize a' { s' with depth := s'.depth + 1 } = e' at ends ⊢
  -- however it ends, the depth goes down by one in both states
  have up {w₂ : W} {t t' : State} (ht : L.StateAlike w₂ t t') :
      L.StateAlike w₂ { t with depth := t.depth - 1 } { t' with depth := t'.depth - 1 } :=
    ⟨ht.store, ht.output, ht.log, ht.nextMark, congrArg (· - 1) ht.depth, ht.attempts,
      ht.readings⟩
  cases ends with
  | done later states results => exact .done later (up states) results
  | failed later states failures =>
    rename_i c c' t t'
    rcases law.both_exhausted_or_none failures with ⟨rfl, rfl⟩ | ⟨hc, hc'⟩
    · simp only [states.depth]
      refine .failed later ?_ (law.fault_host t'.depth)
      exact ⟨states.store, states.output, law.log_exhausted t'.depth states.log,
        states.nextMark, rfl, states.attempts, states.readings⟩
    · cases c with
      | exhausted => exact absurd rfl hc
      | _ =>
        cases c' with
        | exhausted => exact absurd rfl hc'
        | _ => exact .failed later (up states) failures
  | outOfFuel => exact .outOfFuel

/-- Exhaustion of the host outside every call is a fault of both runs or of none. -/
theorem outermost (law : L.Law) {a : Action α} {a' : Action α'} (h : L.Alike w V a a') :
    L.Alike w V a.outermost a'.outermost := by
  intro s s' hs
  have ends := h s s' hs
  unfold Action.outermost
  generalize a s = e at ends ⊢
  generalize a' s' = e' at ends ⊢
  cases ends with
  | done later states results => exact .done later states results
  | failed later states failures =>
    rename_i c c' t t'
    rcases law.both_exhausted_or_none failures with ⟨rfl, rfl⟩ | ⟨hc, hc'⟩
    · simp only [states.depth]
      exact .failed later states (law.fault_host t'.depth)
    · cases c with
      | exhausted => exact absurd rfl hc
      | _ =>
        cases c' with
        | exhausted => exact absurd rfl hc'
        | _ => exact .failed later states failures
  | outOfFuel => exact .outOfFuel

end Alike

/-! ## Primitive actions -/

omit [Preorder W] in
theorem StateAlike.withStore {s s' : State} (h : L.StateAlike w s s') {σ σ' : Store}
    (stores : L.store w₁ σ σ') :
    L.StateAlike w₁ { s with store := σ } { s' with store := σ' } :=
  ⟨stores, h.output, h.log, h.nextMark, h.depth, h.attempts, h.readings⟩

theorem define_alike {f f' : FrameId} {x x' : String} {v v' : Value}
    (h : ∀ {σ σ'}, L.store w σ σ' →
      ∃ w₁, w ≤ w₁ ∧ L.store w₁ (σ.define f x v) (σ'.define f' x' v')) :
    L.Alike w Any (Action.define f x v) (Action.define f' x' v') := by
  intro s s' hs
  obtain ⟨w₁, later, stores⟩ := h hs.store
  exact .done later (hs.withStore stores) trivial

/-- A new frame: what is known about it is known from the later world on. -/
theorem enterFrame_alike {P : W → FrameId → FrameId → Prop} {f f' : FrameId}
    (h : ∀ {σ σ'}, L.store w σ σ' →
      ∃ w₁, w ≤ w₁ ∧ L.store w₁ (σ.child f) (σ'.child f') ∧
        P w₁ σ.size σ'.size) :
    L.Alike w P (Action.enterFrame f) (Action.enterFrame f') := by
  intro s s' hs
  obtain ⟨w₁, later, stores, frames⟩ := h hs.store
  exact .done later (hs.withStore stores) frames

theorem Found.mono {f : FrameId} {x : String} (h : L.Found w f x) (later : w ≤ w₁) :
    L.Found w₁ f x :=
  fun w₂ σ σ' later' hσ => h w₂ σ σ' (later.trans later') hσ

theorem lookup_alike {f f' : FrameId} {x x' : String}
    (h : ∀ {σ σ'}, L.store w σ σ' →
      Option.Rel (L.ValueAlike w) (σ.get? f x) (σ'.get? f' x'))
    (found : L.Found w f x ∨
      L.failure (.of (.undefinedVariable x)) (.of (.undefinedVariable x'))) :
    L.Alike w L.ValueAlike (Action.lookup f x) (Action.lookup f' x') := by
  intro s s' hs
  have values := h hs.store
  have bound : (s.store.get? f x).isSome ∨
      L.failure (.of (.undefinedVariable x)) (.of (.undefinedVariable x')) :=
    found.imp_left fun found => Store.isSome_get? (found w _ _ (le_refl w) hs.store)
  unfold Action.lookup
  generalize s.store.get? f x = r at values bound ⊢
  generalize s'.store.get? f' x' = r' at values ⊢
  cases values with
  | none => exact .failed (le_refl w) hs (bound.resolve_left nofun)
  | some hv => exact .done (le_refl w) hs hv

theorem assign_alike {f f' : FrameId} {x x' : String} {v v' : Value}
    (h : ∀ {σ σ'}, L.store w σ σ' →
      Option.Rel (fun g g' => ∃ w₁, w ≤ w₁ ∧
        L.store w₁ (σ.define g x v) (σ'.define g' x' v')) (σ.resolve f x) (σ'.resolve f' x'))
    (found : L.Found w f x ∨
      L.failure (.of (.undefinedVariable x)) (.of (.undefinedVariable x'))) :
    L.Alike w Any (Action.assign f x v) (Action.assign f' x' v') := by
  intro s s' hs
  have owners := h hs.store
  have bound := found.imp_left fun found => found w _ _ (le_refl w) hs.store
  unfold Action.assign
  generalize s.store.resolve f x = r at owners bound ⊢
  generalize s'.store.resolve f' x' = r' at owners ⊢
  cases owners with
  | none => exact .failed (le_refl w) hs (bound.resolve_left nofun)
  | some hg =>
    obtain ⟨w₁, later, stores⟩ := hg
    exact .done later (hs.withStore stores) trivial

theorem freshMark_alike : L.Alike w (fun _ => Eq) Action.freshMark Action.freshMark := by
  intro s s' hs
  exact .done (le_refl w) ⟨hs.store, hs.output, hs.log, congrArg (· + 1) hs.nextMark, hs.depth,
    hs.attempts, hs.readings⟩ hs.nextMark

theorem readClock_alike :
    L.Alike w (fun _ => Eq) (Action.readClock L.host) (Action.readClock L.host) := by
  intro s s' hs
  exact .done (le_refl w) ⟨hs.store, hs.output, hs.log, hs.nextMark, hs.depth, hs.attempts,
    congrArg (· + 1) hs.readings⟩ (congrArg L.host.clock hs.readings)

theorem activeCalls_alike : L.Alike w (fun _ => Eq) Action.activeCalls Action.activeCalls :=
  fun _ _ hs => .done (le_refl w) hs hs.depth

theorem record_alike {r r' : Record}
    (h : ∀ {l l'}, L.log l l' → L.log (l.push r) (l'.push r')) :
    L.Alike w Any (Action.record r) (Action.record r') := by
  intro s s' hs
  exact .done (le_refl w) ⟨hs.store, hs.output, h hs.log, hs.nextMark, hs.depth, hs.attempts,
    hs.readings⟩ trivial

theorem raiseLimit_alike (law : L.Law) :
    L.Alike w Any (Action.raiseLimit L.host) (Action.raiseLimit L.host) := by
  unfold Action.raiseLimit
  split
  · rename_i refused
    rcases Host.refusal?_cases refused with rfl | ⟨reason, rfl⟩
    · exact .fail law.exhausted
    · exact .fail (law.refused refused)
  · exact record_alike fun hl => law.log_raisedLimit _ _ hl

theorem print_alike (law : L.Law) {v v' : Value} (hv : L.ValueAlike w v v') :
    L.Alike w Any (Action.print L.host v) (Action.print L.host v') := by
  intro s s' hs
  unfold Action.print
  simp only [← hs.attempts]
  split
  · exact .failed (le_refl w) ⟨hs.store, hs.output, hs.log, hs.nextMark, hs.depth, rfl,
      hs.readings⟩ law.exhausted
  · exact .done (le_refl w) ⟨hs.store, law.output_push hv hs.output, hs.log, hs.nextMark,
      hs.depth, rfl, hs.readings⟩ trivial

theorem ofExcept_alike {r r' : Except Fault Value} (h : L.ResultAlike w r r') :
    L.Alike w L.ValueAlike (Action.ofExcept r) (Action.ofExcept r') := by
  cases h with
  | ok hv => exact .pure hv
  | error hc => exact .raise hc

omit [Preorder W] in
/-- A number that a computation makes: the computations have the same mark. -/
theorem number_alike (x : Float) {m m' : Nat} (h : m = m') :
    L.ValueAlike w (.number (.ofFloat m x)) (.number (.ofFloat m' x)) := by
  rw [h]
  exact .number _

end Lockstep

end LoxLang
