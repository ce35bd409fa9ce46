import LoxLang.Proofs.Lockstep.Run
import LoxLang.Proofs.Store

/-!
# One program in two stores

The common case of two runs side by side: the same nodes are run in the same frames, only the stores
differ, the run uses some frames only, and in some frames only some names are declared. What has to
be shown is then about the store alone.

* `Value.Within`: a declared function whose frame is among those that may be used, or any other
  value.
* `Node.Declares`: the names that a statement may declare in the frame in which it is run.
* `Lockstep.uniform`: the relations of two such runs.
* `Lockstep.Uniform`: what the operations on the store have to keep.

Results: `Lockstep.Uniform.law` — such a pair of runs satisfies the law of `Lockstep`.
-/

set_option autoImplicit false

namespace LoxLang

/-- A function is closed over one of the frames `P`; other values are not restricted. -/
def Value.Within (P : FrameId → Prop) (v : Value) : Prop := ∀ c, v = .function c → P c.frame

/-- The names that a statement may declare in the frame in which it is run. A block declares in a
frame of its own. -/
inductive Node.Declares : Node → String → Prop
  | declare {n : Node} {x : String} {init : Option Node} (h : n.statement = .declare x init) :
    n.Declares x
  | function {n : Node} {x : String} {params : List String} {body : List Node}
    (h : n.statement = .function x params body) : n.Declares x
  | yes {n test a : Node} {b : Option Node} {x : String} (h : n.statement = .branch test a b)
    (ha : a.Declares x) : n.Declares x
  | no {n test a b : Node} {x : String} (h : n.statement = .branch test a (some b))
    (hb : b.Declares x) : n.Declares x
  | body {n test a : Node} {x : String} (h : n.statement = .loop test a) (ha : a.Declares x) :
    n.Declares x

/-- The constants of a program are no functions. -/
theorem Node.constant_within {n : Node} {v : Value} (h : n.expression = .constant v)
    (P : FrameId → Prop) : v.Within P := by
  intro c hc
  subst hc
  unfold Node.expression at h
  split at h
  · unfold wordExpression at h
    split at h
    · split at h <;> cases h
    · cases h
    · cases h
  · unfold hollowExpression at h
    split at h <;> cases h
  · unfold treeExpression at h
    split at h <;> cases h

namespace Lockstep

variable {W : Type} [Preorder W]

/-- Two runs of the same nodes in the same frames, which are among the frames `frame`; what is
declared in a frame is among the names `names`. -/
def uniform (host : Host) (store : W → Store → Store → Prop) (frame : W → FrameId → Prop)
    (names : W → FrameId → String → Prop) (output : Array Value → Array Value → Prop) :
    Lockstep W where
  host := host
  store := store
  closure w c c' := c = c' ∧ frame w c.frame
  native _ := True
  failure := Eq
  output := output
  log := Eq
  stmt w n f n' f' := n = n' ∧ f = f' ∧ frame w f ∧ ∀ x, n.Declares x → names w f x
  expr w n f n' f' := n = n' ∧ f = f' ∧ frame w f

/-- What the operations on the store have to keep. -/
structure Uniform (store : W → Store → Store → Prop) (frame : W → FrameId → Prop)
    (names : W → FrameId → String → Prop) (output : Array Value → Array Value → Prop) :
    Prop where
  frame_mono : ∀ {w w₁ f}, w ≤ w₁ → frame w f → frame w₁ f
  names_mono : ∀ {w w₁ f x}, w ≤ w₁ → names w f x → names w₁ f x
  output_push : ∀ {o o' v}, output o o' → output (o.push v) (o'.push v)
  size_eq : ∀ {w σ σ'}, store w σ σ' → σ.size = σ'.size
  lookup : ∀ {w σ σ' f x}, frame w f → store w σ σ' → σ.get? f x = σ'.get? f x ∧
    ∀ v, σ.get? f x = some v → v.Within (frame w)
  resolve : ∀ {w σ σ' f x}, frame w f → store w σ σ' →
    σ.resolve f x = σ'.resolve f x ∧ ∀ g, σ.resolve f x = some g → frame w g
  /-- A name is bound that may be declared in the frame, or that is bound in it already. -/
  define : ∀ {w σ σ' f x v}, frame w f → names w f x ∨ (σ.vars f).binds x = true →
    v.Within (frame w) → store w σ σ' → store w (σ.define f x v) (σ'.define f x v)
  /-- In a new frame any name may be declared. -/
  child : ∀ {w σ σ' f}, frame w f → store w σ σ' →
    ∃ w₁, w ≤ w₁ ∧ store w₁ (σ.child f) (σ'.child f) ∧ frame w₁ σ.size ∧
      ∀ x, names w₁ σ.size x

variable {host : Host} {store : W → Store → Store → Prop} {frame : W → FrameId → Prop}
variable {names : W → FrameId → String → Prop}
    {output : Array Value → Array Value → Prop} {w : W}

omit [Preorder W] in
theorem uniform_value_iff {v v' : Value} :
    (uniform host store frame names output).ValueAlike w v v' ↔
      v = v' ∧ v.Within (frame w) := by
  constructor
  · intro h
    cases h with
    | function h =>
      refine ⟨congrArg Value.function h.1, fun c hc => ?_⟩
      cases hc
      exact h.2
    | _ => exact ⟨rfl, fun c hc => by cases hc⟩
  · rintro ⟨rfl, h⟩
    cases v with
    | nil => exact .nil
    | bool b => exact .bool b
    | number x => exact .number x
    | string s => exact .string s
    | native n => exact .native trivial
    | function c => exact .function ⟨rfl, h c rfl⟩

omit [Preorder W] in
theorem uniform_values {vs vs' : List Value}
    (h : List.Forall₂ ((uniform host store frame names output).ValueAlike w) vs vs') :
    vs = vs' ∧ ∀ v ∈ vs, v.Within (frame w) := by
  induction h with
  | nil => exact ⟨rfl, fun _ h => by cases h⟩
  | cons hv _ ih =>
    obtain ⟨rfl, head⟩ := uniform_value_iff.1 hv
    obtain ⟨rfl, rest⟩ := ih
    exact ⟨rfl, List.forall_mem_cons.2 ⟨head, rest⟩⟩

omit [Preorder W] in
theorem uniform_value_rel {v v' : Option Value} :
    Option.Rel ((uniform host store frame names output).ValueAlike w) v v' ↔
      v = v' ∧ ∀ u, v = some u → u.Within (frame w) := by
  constructor
  · intro h
    cases h with
    | none => exact ⟨rfl, fun u hu => by cases hu⟩
    | some h =>
      obtain ⟨rfl, hv⟩ := uniform_value_iff.1 h
      exact ⟨rfl, fun u hu => by cases hu; exact hv⟩
  · rintro ⟨rfl, h⟩
    cases v with
    | none => exact .none
    | some u => exact .some (uniform_value_iff.2 ⟨rfl, h u rfl⟩)

omit [Preorder W] in
theorem uniform_log {l l' : Array Record} (r : Record)
    (h : (uniform host store frame names output).log l l') :
    (uniform host store frame names output).log (l.push r) (l'.push r) := by
  rw [show l = l' from h]
  rfl

omit [Preorder W] in
/-- Nodes that are run in one frame. -/
theorem uniform_nodes {f : FrameId} (hf : frame w f) (hnames : ∀ x, names w f x)
    (ns : List Node) :
    List.Forall₂ (fun n n' => (uniform host store frame names output).stmt w n f n' f) ns ns :=
  List.forall₂_same.2 fun _ _ => ⟨rfl, rfl, hf, fun x _ => hnames x⟩

namespace Uniform

variable (keeps : Uniform store frame names output)
include keeps

/-- The frame of a call: the parameters are bound one after the other in the new frame. -/
theorem enter {c : Closure} {args : List Value} {σ σ' : Store} (hc : frame w c.frame)
    (hargs : ∀ v ∈ args, v.Within (frame w)) (hσ : store w σ σ') :
    ∃ w₁, w ≤ w₁ ∧ store w₁ ((σ.child c.frame).defineAll σ.size (c.params.zip args))
      ((σ'.child c.frame).defineAll σ'.size (c.params.zip args)) ∧ frame w₁ σ.size ∧
      ∀ x, names w₁ σ.size x := by
  obtain ⟨w₁, later, stores, hnew, hnames⟩ := keeps.child hc hσ
  refine ⟨w₁, later, ?_, hnew, hnames⟩
  rw [← keeps.size_eq hσ]
  have within : ∀ p ∈ c.params.zip args, p.2.Within (frame w₁) := by
    rintro ⟨x, v⟩ hp c' hc'
    exact keeps.frame_mono later (hargs v (List.of_mem_zip hp).2 c' hc')
  generalize c.params.zip args = b at within
  generalize σ.child c.frame = τ at stores
  generalize σ'.child c.frame = τ' at stores
  induction b generalizing τ τ' with
  | nil => exact stores
  | cons p b ih =>
    obtain ⟨head, rest⟩ := List.forall_mem_cons.1 within
    exact ih rest _ _ (keeps.define hnew (.inl (hnames _)) head stores)

theorem statement {f : FrameId} {n : Node} (hf : frame w f)
    (hnames : ∀ x, n.Declares x → names w f x) :
    (uniform host store frame names output).StatementAlike w f f n.statement n.statement := by
  have expr (m : Node) : (uniform host store frame names output).expr w m f m f :=
    ⟨rfl, rfl, hf⟩
  cases hn : n.statement with
  | expression value => exact .expression (expr value)
  | print value => exact .print (expr value)
  | declare x init =>
    refine .declare ?_ fun {w₁ v v' σ σ'} later hv hσ => ?_
    · cases init with
      | none => exact .none
      | some value => exact .some (expr value)
    · obtain ⟨rfl, within⟩ := uniform_value_iff.1 hv
      have hx := keeps.names_mono later (hnames x (.declare hn))
      exact ⟨w₁, le_refl w₁, keeps.define (keeps.frame_mono later hf) (.inl hx) within hσ⟩
  | block body =>
    refine .block fun {σ σ'} hσ => ?_
    obtain ⟨w₁, later, stores, hnew, hnames'⟩ := keeps.child hf hσ
    refine ⟨w₁, later, stores, ?_⟩
    rw [← keeps.size_eq hσ]
    exact uniform_nodes hnew hnames' body
  | branch test yes no =>
    refine .branch (expr test) ⟨rfl, rfl, hf, fun x hx => hnames x (.yes hn hx)⟩ ?_
    cases no with
    | none => exact .none
    | some no => exact .some ⟨rfl, rfl, hf, fun x hx => hnames x (.no hn hx)⟩
  | loop test body => exact .loop (expr test) ⟨rfl, rfl, hf, fun x hx => hnames x (.body hn hx)⟩
  | function x params body =>
    have hx := hnames x (.function hn)
    refine .function (fun hσ => ⟨w, le_refl w, keeps.define hf (.inl hx) ?_ hσ⟩) fun hl =>
      uniform_log _ hl
    intro c hc
    cases hc
    exact hf
  | result value =>
    refine .result ?_
    cases value with
    | none => exact .none
    | some value => exact .some (expr value)
  | invalid e => exact .invalid rfl

theorem expression {f : FrameId} (hf : frame w f) (n : Node) :
    (uniform host store frame names output).ExpressionAlike w f f n.expression n.expression := by
  have expr (n : Node) : (uniform host store frame names output).expr w n f n f :=
    ⟨rfl, rfl, hf⟩
  have constants : ∀ v, n.expression = .constant v → v.Within (frame w) :=
    fun v hv => Node.constant_within hv (frame w)
  generalize n.expression = e at constants
  cases e with
  | constant v => exact .constant (uniform_value_iff.2 ⟨rfl, constants v rfl⟩)
  | number x => exact .number x
  | reference x =>
    exact .reference (fun hσ => uniform_value_rel.2 (keeps.lookup hf hσ)) (.inr rfl)
  | assign x value =>
    refine .assign (expr value) (fun {w₁ v v' σ σ'} later hv hσ => ?_) (.inr rfl)
    obtain ⟨rfl, within⟩ := uniform_value_iff.1 hv
    obtain ⟨same, owners⟩ := keeps.resolve (x := x) (keeps.frame_mono later hf) hσ
    rw [← same]
    cases h : σ.resolve f x with
    | none => exact .none
    | some g =>
      have bound := Store.binds_of_resolve h
      exact .some ⟨w₁, le_refl w₁, keeps.define (owners g h) (.inr bound) within hσ⟩
  | grouping inner => exact .grouping (expr inner)
  | unary op operand => exact .unary (expr operand) (.inr rfl)
  | binary left op right => exact .binary (expr left) (expr right) (.inr rfl)
  | logical left op right => exact .logical (expr left) (expr right) (.inr rfl)
  | call callee args => exact .call (expr callee) (List.forall₂_same.2 fun n _ => expr n)
  | invalid e => exact .invalid rfl

/-- **Two runs of one program keep a relation that the operations on the store keep.** -/
theorem law : (uniform host store frame names output).Law where
  closure_mono later h := ⟨h.1, keeps.frame_mono later h.2⟩
  stmt_mono later h := ⟨h.1, h.2.1, keeps.frame_mono later h.2.2.1,
    fun x hx => keeps.names_mono later (h.2.2.2 x hx)⟩
  expr_mono later h := ⟨h.1, h.2.1, keeps.frame_mono later h.2.2⟩
  closure_mark h := congrArg Closure.mark h.1
  closure_arity h := congrArg (·.params.length) h.1
  output_push hv ho := by
    obtain ⟨rfl, -⟩ := uniform_value_iff.1 hv
    exact keeps.output_push ho
  log_limitHit m hv hl := by
    obtain ⟨rfl, -⟩ := uniform_value_iff.1 hv
    exact uniform_log _ hl
  log_exhausted d hl := uniform_log _ hl
  log_interpreting n hl := uniform_log _ hl
  log_raisedLimit previous limit hl := uniform_log _ hl
  fault_arity _ _ := rfl
  fault_notCallable hv := congrArg (fun v => Failure.of (.notCallable v)) (uniform_value_iff.1 hv).1
  fault_type op hvs := congrArg (fun vs => Failure.of (.typeMismatch op vs)) (uniform_values hvs).1
  fault_limit _ := rfl
  fault_host _ := rfl
  refused _ := rfl
  exhausted := rfl
  exhausted_iff he := by rw [show _ = _ from he]
  native_apply _ _ := rfl
  native_fail _ _ := rfl
  locate_stmt hn he := congrArg₂ (fun n e => Failure.locate (Node.place n) e) hn.1 he
  locate_expr hn he := congrArg₂ (fun n e => Failure.locate (Node.place n) e) hn.1 he
  enter hc hargs hσ := by
    obtain ⟨rfl, hc⟩ := hc
    obtain ⟨rfl, within⟩ := uniform_values hargs
    obtain ⟨w₁, later, stores, hnew, hnames⟩ := keeps.enter hc within hσ
    refine ⟨w₁, later, stores, ?_⟩
    rw [← keeps.size_eq hσ]
    exact uniform_nodes hnew hnames _
  statement h := by
    obtain ⟨rfl, rfl, hf, hnames⟩ := h
    exact keeps.statement hf hnames
  expression h := by
    obtain ⟨rfl, rfl, hf⟩ := h
    exact keeps.expression hf _

end Uniform

end Lockstep

end LoxLang
