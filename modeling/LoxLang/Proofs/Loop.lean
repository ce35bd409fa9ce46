import LoxLang.Proofs.Reading
import LoxLang.Proofs.Scope
import LoxLang.Run.Fuel

/-!
# Loops with a header mean what they say

A loop `for (init; test; step) body` is run as a block around a `while` loop, with the step at the
end of the block of each round. Here it is shown to mean the same as a loop that evaluates the step
in the frame of the header.

* `forRounds`, `forLoop`: the loop as it is meant.
* `Store.Transparent`: a frame that binds nothing, so that names are looked up in the frame around
  it.
* `Action.SameOn`: two actions that are equal in some states.
* `EndsAlike`: two actions that end alike, given enough fuel each.

Results: `evaluate_transparent` — an expression means the same in a transparent frame and in the
frame around it; `for_means_forLoop` — a loop with a header that a source text contains ends,
lowered, exactly as the loop that is meant. The frame of a round stays transparent because a
statement, unlike a declaration, declares nothing in it.
-/

set_option autoImplicit false

namespace LoxLang

/-! ## The loop as it is meant -/

/-- The test of a loop; an absent one is true. -/
def forTest (host : Host) (fuel : Nat) (test : Option Node) (f : FrameId) : Action Value :=
  match test with
  | some test => evaluate host fuel test f
  | none => pure (.bool true)

/-- The step of a loop, if there is one. -/
def forStep (host : Host) (fuel : Nat) (step : Option Node) (f : FrameId) : Action Unit :=
  match step with
  | some step => do
    let _ ← evaluate host fuel step f
    pure ()
  | none => pure ()

/-- One round of a loop whose header has the frame `f`: the body in a new frame and then the step,
unless the body has returned. -/
def forRound (f : FrameId) (body : FrameId → Action Outcome) (step : Action Unit) :
    Action Outcome := do
  let inner ← Action.enterFrame f
  match ← body inner with
  | .normal => do
    step
    pure .normal
  | .returning v => pure (.returning v)

/-- The rounds of a loop whose header has the frame `f`. The step is evaluated in the frame of the
header. -/
def forRounds (host : Host) (test step : Option Node) (body : Node) (f : FrameId) :
    Nat → Action Outcome
  | 0 => Action.starve
  | fuel + 1 => do
    let v ← forTest host fuel test f
    if v.isTruthy then
      match ← forRound f (execute host fuel body) (forStep host fuel step f) with
      | .normal => forRounds host test step body f fuel
      | .returning v => pure (.returning v)
    else pure .normal

/-- The first clause of a loop, if there is one. -/
def forInit (host : Host) (fuel : Nat) (init : Option Node) (f : FrameId) : Action Unit :=
  match init with
  | some init => do
    let _ ← execute host fuel init f
    pure ()
  | none => pure ()

/-- A loop with a header: a new frame for it, its first clause, and its rounds. -/
def forLoop (host : Host) (fuel : Nat) (init test step : Option Node) (body : Node) (f : FrameId) :
    Action Outcome := do
  let header ← Action.enterFrame f
  forInit host fuel init header
  forRounds host test step body header fuel

/-! ## Transparent frames -/

/-- The frame `e` binds nothing and is inside the frame `f`. -/
structure Store.Transparent (s : Store) (e f : FrameId) : Prop where
  parent : s.parent? e = some f
  earlier : f < e
  empty : ∀ x, (s.vars e).binds x = false

namespace Store.Transparent

variable {s t : Store} {e f : FrameId}

theorem resolve_eq (h : s.Transparent e f) (x : String) : s.resolve e x = s.resolve f x := by
  have outer : s.outer? e = some f := by
    rw [outer?_eq, h.parent]
    simp [Option.filter, h.earlier]
  rw [Store.resolve_eq, h.empty x, outer]
  rfl

theorem get?_eq (h : s.Transparent e f) (x : String) : s.get? e x = s.get? f x := by
  unfold get?
  rw [h.resolve_eq x]

/-- A frame stays transparent as long as nothing is declared in it. -/
theorem kept {D : FrameId → String → Prop} (h : s.Transparent e f) (later : s.Scoped D t)
    (none : ∀ x, ¬ D e x) : t.Transparent e f := by
  have he := lt_size_of_parent h.parent
  refine ⟨by rw [later.grown.parent he, h.parent], h.earlier, fun x => ?_⟩
  cases hb : (t.vars e).binds x with
  | false => rfl
  | true =>
    rcases later.names he hb with hb' | hD
    · rw [h.empty x] at hb'
      cases hb'
    · exact absurd hD (none x)

/-- A new frame is transparent. -/
theorem child {s : Store} {f : FrameId} (hf : f < s.size) : (s.child f).Transparent s.size f := by
  refine ⟨by rw [parent?_child, if_pos rfl], hf, fun x => ?_⟩
  rw [vars_child, vars_eq_nil (Nat.le_refl _)]
  rfl

end Store.Transparent

/-! ## Actions that are equal in some states -/

variable {α β : Type}

/-- Two actions that are equal in the states of `P`, and stay in `P`. -/
def Action.SameOn (P : State → Prop) (a b : Action α) : Prop :=
  ∀ s, P s → a s = b s ∧ ∀ x t, a s = .done x t → P t

namespace Action.SameOn

variable {P : State → Prop}

theorem refl {a : Action α} (h : ∀ s x t, P s → a s = .done x t → P t) : SameOn P a a :=
  fun s hs => ⟨rfl, fun x t => h s x t hs⟩

theorem pure (x : α) : SameOn P (Pure.pure x) (Pure.pure x) :=
  refl fun _ _ _ hs h => by cases h; exact hs

theorem bind {a b : Action α} {k l : α → Action β} (h : SameOn P a b)
    (hk : ∀ x, SameOn P (k x) (l x)) : SameOn P (a >>= k) (b >>= l) := by
  intro s hs
  obtain ⟨same, keeps⟩ := h s hs
  simp only [Action.bind_apply, ← same]
  cases ha : a s with
  | done x t => exact hk x t (keeps x t ha)
  | failed e t => exact ⟨rfl, fun _ _ h => by cases h⟩
  | outOfFuel => exact ⟨rfl, fun _ _ h => by cases h⟩

theorem locate {a b : Action α} (place : Place) (h : SameOn P a b) :
    SameOn P (a.locate place) (b.locate place) := by
  intro s hs
  obtain ⟨same, keeps⟩ := h s hs
  unfold Action.locate
  rw [← same]
  refine ⟨rfl, fun x t h => ?_⟩
  split at h
  · cases h
  · exact keeps x t h

theorem all_evaluate {a b : Node → Action Value} (h : ∀ n, SameOn P (a n) (b n))
    (ns : List Node) :
    SameOn P (evaluateAll a ns) (evaluateAll b ns) := by
  induction ns with
  | nil => exact pure []
  | cons n ns ih => exact (h n).bind fun v => ih.bind fun vs => pure _

end Action.SameOn

open LoxLang.Action (SameOn)

/-! ## Expressions in a transparent frame -/

section Transparent

variable {host : Host} {e f : FrameId}

/-- States in which the frame `e` is transparent. -/
def State.Transparent (e f : FrameId) (s : State) : Prop := s.store.Transparent e f

theorem lookup_transparent (x : String) :
    SameOn (State.Transparent e f) (Action.lookup e x) (Action.lookup f x) := by
  intro s hs
  unfold Action.lookup
  rw [Store.Transparent.get?_eq hs x]
  refine ⟨rfl, fun v t h => ?_⟩
  split at h
  · cases h
    exact hs
  · cases h

/-- Only names that are bound are assigned to, and none of them is in the transparent frame. -/
theorem assign_transparent (x : String) (v : Value) :
    SameOn (State.Transparent e f) (Action.assign e x v) (Action.assign f x v) := by
  intro s hs
  unfold Action.assign
  rw [Store.Transparent.resolve_eq hs x]
  refine ⟨rfl, fun _ t h => ?_⟩
  split at h
  · rename_i owner hg
    cases h
    have bound := Store.binds_of_resolve hg
    have later : s.store.Scoped (fun _ _ => False) (s.store.define owner x v) :=
      (Store.Scoped.refl _ _).define v (.inr bound)
    exact Store.Transparent.kept hs later fun _ h => h
  · cases h

theorem freshMark_transparent :
    SameOn (State.Transparent e f) Action.freshMark Action.freshMark := by
  refine .refl fun s x t hs h => ?_
  cases h
  exact hs

theorem ofExcept_transparent (r : Except Fault Value) :
    SameOn (State.Transparent e f) (Action.ofExcept r) (Action.ofExcept r) := by
  refine .refl fun s x t hs h => ?_
  cases r with
  | ok v =>
    cases h
    exact hs
  | error c => cases h

theorem call_transparent (fuel : Nat) (callee : Value) (args : List Value) :
    SameOn (State.Transparent e f) (call host fuel callee args) (call host fuel callee args) := by
  refine .refl fun s x t hs h => ?_
  have later := call_scoped (t := t) (by rw [h]; rfl)
  exact Store.Transparent.kept hs later fun _ h => h

/-- One expression, given that its parts mean the same. -/
theorem expression_transparent {eval : Node → FrameId → Action Value}
    {call : Value → List Value → Action (Option Value)}
    (heval : ∀ n, SameOn (State.Transparent e f) (eval n e) (eval n f))
    (hcall : ∀ c args, SameOn (State.Transparent e f) (call c args) (call c args))
    (x : Expression) :
    SameOn (State.Transparent e f) (x.evaluate eval call e) (x.evaluate eval call f) := by
  cases x with
  | constant v => exact .pure v
  | number x => exact freshMark_transparent.bind fun m => .pure _
  | reference x => exact lookup_transparent x
  | assign x value =>
    exact (heval value).bind fun v => (assign_transparent x v).bind fun _ => .pure v
  | grouping inner => exact heval inner
  | unary op operand =>
    exact (heval operand).bind fun v => freshMark_transparent.bind fun m => ofExcept_transparent _
  | binary left op right =>
    refine (heval left).bind fun a => (heval right).bind fun b => ?_
    exact freshMark_transparent.bind fun m => ofExcept_transparent _
  | logical left op right =>
    refine (heval left).bind fun a => ?_
    split
    · split
      · exact .pure a
      · exact heval right
    · exact .refl fun _ _ _ _ h => by cases h
  | call callee arguments =>
    refine (heval callee).bind fun c => ?_
    exact (SameOn.all_evaluate heval arguments).bind fun args =>
      (hcall c args).bind fun r => .pure _
  | invalid failure => exact .refl fun _ _ _ _ h => by cases h

/-- **An expression means the same in a transparent frame and in the frame around it.** -/
theorem evaluate_transparent (fuel : Nat) (n : Node) :
    SameOn (State.Transparent e f) (evaluate host fuel n e) (evaluate host fuel n f) := by
  induction fuel generalizing n with
  | zero => exact .refl fun _ _ _ _ h => by cases h
  | succ fuel ih => exact .locate _ (expression_transparent ih (call_transparent fuel) _)

end Transparent

/-! ## Rounds -/

theorem locate_unknown (act : Action α) : act.locate .unknown = act := by
  funext s
  unfold Action.locate
  cases act s with
  | failed e t =>
    cases e with
    | fault cause location => cases location <;> rfl
    | _ => rfl
  | _ => rfl

theorem SameOn.repeatWhile {P : State → Prop} {test test' : Action Value}
    {body body' : Action Outcome} (ht : SameOn P test test') (hb : SameOn P body body')
    (fuel : Nat) :
    SameOn P (repeatWhile test body fuel) (repeatWhile test' body' fuel) := by
  induction fuel with
  | zero => exact .refl fun _ _ _ _ h => by cases h
  | succ fuel ih =>
    refine ht.bind fun v => ?_
    split
    · refine hb.bind fun outcome => ?_
      cases outcome with
      | normal => exact ih
      | returning v => exact .pure _
    · exact .pure _

section Rounds

variable {host : Host} {test step body : Node} {f : FrameId}

/-- The states in which a frame exists. -/
def State.Has (f : FrameId) (s : State) : Prop := f < s.store.size

theorem State.Has.later {s t : State} {D : FrameId → String → Prop} (h : s.Has f)
    (later : s.store.Scoped D t.store) : t.Has f := Nat.lt_of_lt_of_le h later.grown.size

theorem execute_stepNode (fuel : Nat) (e : Node) (g : FrameId) :
    execute host (fuel + 1) (.tree .expressionStmt [e] .unknown) g =
      (do let _ ← evaluate host fuel e g; pure .normal) := by
  rw [execute]
  exact locate_unknown _

/-- After a body that declares nothing, the frame of its round is transparent. -/
theorem round_transparent (hbody : ∀ x, ¬ body.Declares x) {fuel : Nat} {s t : State}
    {outcome : Outcome} (hf : s.Has f)
    (h : execute host fuel body s.store.size { s with store := s.store.child f } =
      .done outcome t) :
    State.Transparent s.store.size f t := by
  have later := execute_scoped (t := t) (by rw [h]; rfl)
  exact (Store.Transparent.child hf).kept later fun x hx => hbody x hx.2

/-- A round of the lowered loop is a round of the loop that is meant. -/
theorem execute_roundNode (hbody : ∀ x, ¬ body.Declares x) (fuel : Nat) :
    SameOn (State.Has f) (execute host (fuel + 2) (roundNode step body) f)
      (forRound f (execute host (fuel + 1) body) (forStep host fuel step.present? f)) := by
  intro s hs
  have form : execute host (fuel + 2) (roundNode step body) f =
      (do let inner ← Action.enterFrame f
          runAll (fun node => execute host (fuel + 1) node inner) (body ::
            step.present?.toList.map fun e => Node.tree .expressionStmt [e] .unknown)) := by
    rw [execute]
    exact locate_unknown _
  refine ⟨?_, fun x t h => hs.later (execute_scoped (by rw [h]; rfl))⟩
  rw [form]
  simp only [forRound, Action.bind_apply, Action.enterFrame, runAll]
  cases hrun : execute host (fuel + 1) body s.store.size { s with store := s.store.child f } with
  | failed e t => rfl
  | outOfFuel => rfl
  | done outcome t =>
    cases outcome with
    | returning v => rfl
    | normal =>
      have transparent := round_transparent hbody hs hrun
      cases hstep : step.present? with
      | none => rfl
      | some e =>
        have same : evaluate host fuel e s.store.size t = evaluate host fuel e f t :=
          (evaluate_transparent fuel e t transparent).1
        simp only [Option.toList_some, List.map_cons, List.map_nil, runAll, forStep,
          execute_stepNode, Action.bind_apply, Action.pure_apply, same]
        cases evaluate host fuel e f t <;> rfl

/-- The rounds of the lowered loop are rounds of the loop that is meant. -/
theorem execute_whileNode (hbody : ∀ x, ¬ body.Declares x) (fuel : Nat) :
    SameOn (State.Has f)
      (execute host (fuel + 3) (.tree .whileStmt [testNode test, roundNode step body] .unknown) f)
      (repeatWhile (evaluate host (fuel + 2) (testNode test) f)
        (forRound f (execute host (fuel + 1) body) (forStep host fuel step.present? f))
          (fuel + 2)) := by
  have form :
      execute host (fuel + 3) (.tree .whileStmt [testNode test, roundNode step body] .unknown) f =
        repeatWhile (evaluate host (fuel + 2) (testNode test) f)
          (execute host (fuel + 2) (roundNode step body) f) (fuel + 2) := by
    rw [execute]
    exact locate_unknown _
  rw [form]
  refine SameOn.repeatWhile (.refl fun s x t hs h => ?_) (execute_roundNode hbody fuel) _
  exact hs.later (evaluate_scoped (by rw [h]; rfl))

/-! ## Fuel -/

open LoxLang.Action (Below)

theorem evaluate_true (host : Host) (fuel : Nat) (f : FrameId) :
    evaluate host (fuel + 1) (.tree .trueLit [] .unknown) f = pure (.bool true) := by
  rw [evaluate]
  exact locate_unknown _

theorem testNode_below {m n : Nat} (h : m ≤ n) :
    Below (evaluate host m (testNode test) f) (forTest host n test.present? f) := by
  unfold testNode forTest
  cases test.present? with
  | some e => exact evaluate_below host h e f
  | none =>
    cases m with
    | zero => exact .of_starve _
    | succ m =>
      rw [Option.getD_none, evaluate_true]
      exact .refl _

theorem testNode_above {m n : Nat} (h : m ≤ n) :
    Below (forTest host m test.present? f) (evaluate host (n + 1) (testNode test) f) := by
  unfold testNode forTest
  cases test.present? with
  | some e => exact evaluate_below host (Nat.le_succ_of_le h) e f
  | none =>
    rw [Option.getD_none, evaluate_true]
    exact .refl _

theorem forStep_below {step : Option Node} {m n : Nat} (h : m ≤ n) :
    Below (forStep host m step f) (forStep host n step f) := by
  cases step with
  | some e => exact .bind_left (evaluate_below host h e f) _
  | none => exact .refl _

theorem forInit_below {init : Option Node} {m n : Nat} (h : m ≤ n) :
    Below (forInit host m init f) (forInit host n init f) := by
  cases init with
  | some init => exact .bind_left (execute_below host h init f) _
  | none => exact .refl _

theorem forRound_below {step : Option Node} {a b m n : Nat} (hbody : a ≤ m) (hstep : b ≤ n) :
    Below (forRound f (execute host a body) (forStep host b step f))
      (forRound f (execute host m body) (forStep host n step f)) := by
  refine .bind_right _ fun inner => .bind (execute_below host hbody body inner) fun outcome => ?_
  cases outcome with
  | normal => exact .bind_left (forStep_below hstep) _
  | returning v => exact .refl _

/-- Rounds with a fixed amount of fuel for their parts are rounds of the loop that is meant, which
has less fuel in each round. -/
theorem repeatWhile_below {a b c k : Nat} (ha : a ≤ k) (hb : b ≤ k) (hc : c ≤ k) (m : Nat) :
    Below (repeatWhile (evaluate host a (testNode test) f)
        (forRound f (execute host b body) (forStep host c step.present? f)) m)
      (forRounds host test.present? step.present? body f (m + k)) := by
  induction m with
  | zero => exact .of_starve _
  | succ m ih =>
    rw [Nat.succ_add]
    refine .bind (testNode_below (by omega)) fun v => ?_
    split
    · refine .bind (forRound_below (by omega) (by omega)) fun outcome => ?_
      cases outcome with
      | normal => exact ih
      | returning v => exact .refl _
    · exact .refl _

theorem forRounds_below {a b c : Nat} (m n : Nat) (ha : m ≤ a) (hb : m ≤ b) (hc : m ≤ c)
    (hn : m ≤ n) :
    Below (forRounds host test.present? step.present? body f m)
      (repeatWhile (evaluate host (a + 1) (testNode test) f)
        (forRound f (execute host b body) (forStep host c step.present? f)) n) := by
  induction m generalizing n with
  | zero => exact .of_starve _
  | succ m ih =>
    obtain ⟨n, rfl⟩ := Nat.exists_eq_add_of_lt (show 0 < n by omega)
    rw [Nat.zero_add]
    refine .bind (testNode_above (by omega)) fun v => ?_
    split
    · refine .bind (forRound_below (by omega) (by omega)) fun outcome => ?_
      cases outcome with
      | normal => exact ih n (by omega) (by omega) (by omega) (by omega)
      | returning v => exact .refl _
    · exact .refl _

end Rounds

/-! ## Whole loops -/

/-- Two actions that are given fuel end alike: what one ends with for some amount of it, the other
ends with for some amount. They may use fuel differently. -/
def EndsAlike (a b : Nat → Action α) : Prop :=
  ∀ s ending, ending ≠ .outOfFuel →
    ((∃ fuel, a fuel s = ending) ↔ ∃ fuel, b fuel s = ending)

section Loops

variable {host : Host} {f : FrameId} {s : State}

theorem locate_done {act : Action α} {place : Place} {x : α} {t : State}
    (h : act.locate place s = .done x t) : act s = .done x t := by
  unfold Action.locate at h
  split at h
  · cases h
  · exact h

/-- The first clause of a loop never returns. -/
theorem clause_normal {sugar : Bool} {init : Node} (h : init.Is sugar .clause) {fuel : Nat}
    {outcome : Outcome} {t : State} (ends : execute host fuel init f s = .done outcome t) :
    outcome = .normal := by
  cases fuel with
  | zero => cases ends
  | succ fuel =>
    rw [execute] at ends
    replace ends := locate_done ends
    rcases h.clause_cases with ⟨value, place, rfl, _⟩ | ⟨name, value, place, rfl, _⟩
    · change Statement.run host fuel _ _ f (.expression value) s = _ at ends
      simp only [Statement.run, Action.bind_apply, Action.pure_apply] at ends
      cases hv : evaluate host fuel value f s <;> rw [hv] at ends <;> cases ends
      rfl
    · change Statement.run host fuel _ _ f (.declare name.plainText value.present?) s = _ at ends
      generalize value.present? = init at ends
      cases init with
      | none =>
        cases ends
        rfl
      | some e =>
        simp only [Statement.run, Action.bind_apply, Action.pure_apply, Action.define] at ends
        cases hv : evaluate host fuel e f s <;> rw [hv] at ends <;> cases ends
        rfl

/-- A statement declares nothing in the frame in which it is run. -/
theorem Node.Is.not_declares {sugar : Bool} {n : Node} (h : n.Is sugar .statement) (x : String) :
    ¬ n.Declares x := by
  generalize hrole : Role.statement = r at h
  induction h with
  | ifStmt _ _ _ _ _ ihy ihn =>
    rw [Node.declares_iff]
    rintro (ha | ⟨b, hb, hx⟩)
    · exact ihy rfl ha
    · exact ihn b hb rfl hx
  | whileStmt _ _ _ _ ihb =>
    rw [Node.declares_iff]
    exact ihb rfl
  | expressionStmt | printStmt | returnStmt | block | forStmt =>
    rw [Node.declares_iff]
    exact id
  | variableDecl hr => rcases hr with rfl | rfl <;> cases hrole
  | _ => cases hrole

theorem runAll_singleton (run : Node → Action Outcome) (n : Node) : runAll run [n] = run n := by
  funext s
  simp only [runAll, Action.bind_apply]
  cases run n s with
  | done outcome t => cases outcome <;> rfl
  | _ => rfl

/-- The lowered loop with its step moved to the frame of the header. -/
def loweredLoop (host : Host) (fuel : Nat) (init : Option Node) (test step body : Node)
    (f : FrameId) :
    Action Outcome := do
  let header ← Action.enterFrame f
  forInit host (fuel + 3) init header
  repeatWhile (evaluate host (fuel + 2) (testNode test) header)
    (forRound header (execute host (fuel + 1) body) (forStep host fuel step.present? header))
      (fuel + 2)

theorem execute_loop {items : List Node} {p : Place} {test step body : Node}
    (short : items.length ≤ 1) (hitems : ∀ n ∈ items, n.Is true .clause)
    (hbody : ∀ x, ¬ body.Declares x) (fuel : Nat) :
    execute host (fuel + 4) (Node.loop (.tree .forClause items p) test step body) f =
      loweredLoop host fuel items.head? test step body f := by
  have form : execute host (fuel + 4) (Node.loop (.tree .forClause items p) test step body) f =
      (do let header ← Action.enterFrame f
          runAll (fun node => execute host (fuel + 3) node header)
            (items ++ [.tree .whileStmt [testNode test, roundNode step body] .unknown])) := by
    rw [execute]
    exact locate_unknown _
  rw [form]
  funext s
  simp only [loweredLoop, Action.bind_apply, Action.enterFrame]
  have hs : State.Has s.store.size { s with store := s.store.child f } := by
    unfold State.Has
    rw [Store.size_child]
    exact Nat.lt_succ_self _
  generalize { s with store := s.store.child f } = u at hs
  generalize s.store.size = header at hs
  cases items with
  | nil =>
    rw [List.nil_append, runAll_singleton]
    exact (execute_whileNode hbody fuel u hs).1
  | cons init rest =>
    obtain rfl : rest = [] := List.eq_nil_of_length_eq_zero (by simpa using short)
    rw [List.cons_append, List.nil_append, runAll]
    simp only [List.head?_cons, forInit, Action.bind_apply]
    cases hinit : execute host (fuel + 3) init header u with
    | done outcome t =>
      obtain rfl := clause_normal (hitems init (List.mem_singleton.2 rfl)) hinit
      have ht : t.Has header := hs.later (execute_scoped (by rw [hinit]; rfl))
      rw [runAll_singleton]
      exact (execute_whileNode hbody fuel t ht).1
    | failed e t => rfl
    | outOfFuel => rfl

theorem loweredLoop_below (host : Host) (fuel : Nat) (f : FrameId) (init : Option Node)
    (test step body : Node) :
    Action.Below (loweredLoop host fuel init test step body f)
      (forLoop host ((fuel + 2) + (fuel + 2)) init test.present? step.present? body f) := by
  refine .bind_right _ fun header => .bind (forInit_below (by omega)) fun _ => ?_
  exact repeatWhile_below (by omega) (by omega) (by omega) (fuel + 2)

theorem forLoop_below (host : Host) (fuel : Nat) (f : FrameId) (init : Option Node)
    (test step body : Node) :
    Action.Below (forLoop host fuel init test.present? step.present? body f)
      (loweredLoop host fuel init test step body f) := by
  refine .bind_right _ fun header => .bind (forInit_below (by omega)) fun _ => ?_
  exact forRounds_below fuel (fuel + 2) (by omega) (by omega) (by omega) (by omega)

/-- A lowered loop ends as the loop that is meant. -/
theorem loop_endsAlike {items : List Node} {p : Place} {test step body : Node}
    (short : items.length ≤ 1) (hitems : ∀ n ∈ items, n.Is true .clause)
    (hbody : ∀ x, ¬ body.Declares x) (host : Host) (f : FrameId) :
    EndsAlike
      (fun fuel => execute host fuel (Node.loop (.tree .forClause items p) test step body) f)
        (fun fuel => forLoop host fuel items.head? test.present? step.present? body f) := by
  intro s ending ended
  constructor
  · rintro ⟨fuel, h⟩
    replace h : execute host fuel (Node.loop (.tree .forClause items p) test step body) f s =
      ending := h
    have more := execute_below host (Nat.le_add_right fuel 4)
      (Node.loop (.tree .forClause items p) test step body) f s
    rw [h, execute_loop short hitems hbody] at more
    have meant := loweredLoop_below host fuel f items.head? test step body s
    rw [← more.resolve_left ended] at meant
    exact ⟨_, (meant.resolve_left ended).symm⟩
  · rintro ⟨fuel, h⟩
    replace h : forLoop host fuel items.head? test.present? step.present? body f s = ending := h
    have lowered := forLoop_below host fuel f items.head? test step body s
    rw [h, ← execute_loop short hitems hbody] at lowered
    exact ⟨fuel + 4, (lowered.resolve_left ended).symm⟩

end Loops

/-- **Loops with a header mean what they say.** A loop with a header anywhere in the tree of a
source text has a first clause, a test, a step and a body. Run in any frame and any state, its
lowered form ends exactly as the loop that is meant, with the same outcome or failure in the same
state, and goes on forever if that does. Its body declares nothing, so in each round expressions
mean the same in the frame of the round as in the frame of the header. -/
theorem for_means_forLoop (source : String) (tree loop : Node) (parsed : parseRaw source = .ok tree)
    (inside : tree.Contains loop) (isLoop : loop.label? = some .forStmt) :
    ∃ init test step body place, loop = .tree .forStmt [init, test, step, body] place ∧
      init.parts.length ≤ 1 ∧
      (∀ host f, EndsAlike (fun fuel => execute host fuel loop.lower f)
        (fun fuel =>
          forLoop host fuel init.parts.head? test.present? step.present? body.lower f)) ∧
      (∀ x, ¬ body.lower.Declares x) ∧
      ∀ (host : Host) (fuel : Nat) (f : FrameId) (s t : State) (outcome : Outcome),
        f < s.store.size →
          execute host fuel body.lower s.store.size { s with store := s.store.child f } =
            .done outcome t →
        ∀ (fuel' : Nat) (e : Node), evaluate host fuel' e s.store.size t =
          evaluate host fuel' e f t := by
  obtain ⟨items, place, rfl, hitems⟩ := parseRaw_shape parsed
  obtain ⟨item, hitem, within⟩ := inside.inside isLoop rfl (by decide)
  have shape := (hitems item hitem).forStmt_inside within isLoop
  generalize hrole : Role.statement = r at shape
  cases shape with
  | @forStmt _ init test step body p place _ _ short hinit htest hstep hbody =>
    have declares : ∀ x, ¬ body.lower.Declares x := hbody.lower.not_declares
    have lowered : (Node.tree .forStmt [.tree .forClause init p, test, step, body] place).lower =
        Node.loop (.tree .forClause init p) test step body.lower := by
      rw [Node.lower_for, Node.lower_tree (by decide),
        Node.map_lower_eq fun n hn => (hinit n hn).lower_clause,
        Node.Is.lower_optional_expression htest, Node.Is.lower_optional_expression hstep]
    refine ⟨_, test, step, body, place, rfl, short, fun host f => ?_, declares, ?_⟩
    · rw [lowered]
      exact loop_endsAlike short hinit declares host f
    · intro host fuel f s t outcome hf h fuel' e
      exact (evaluate_transparent fuel' e t (round_transparent declares hf h)).1
  | literal => cases hrole
  | _ => cases isLoop

namespace SingleRound

/-- Columns of the first line. -/
def columns (start stop : Nat) : Place := .span ⟨1, start⟩ ⟨1, stop⟩

/-- The name `i` at a column. -/
def name (start : Nat) : Node := .word (.terminal .identifier) "i" (columns start (start + 1))

/-- The test of `for(var i=true;i;i=nil)print"a";`. -/
def test : Node := .tree .reference [name 16] (columns 16 17)

/-- Its first clause. -/
def init : Node := .tree .variableDecl [name 9, .tree .trueLit [] (columns 11 15)] (columns 5 16)

/-- Its step. -/
def step : Node := .tree .assign [name 18, .tree .nilLit [] (columns 20 23)] (columns 18 23)

/-- Its body. -/
def body : Node :=
  .tree .printStmt [.word (.terminal .string) "\"a\"" (columns 29 32)] (columns 24 33)

/-- The whole loop. -/
def loop : Node :=
  .tree .forStmt [.tree .forClause [init] (columns 5 16), test, step, body] (columns 1 33)

/-- What the loop has done: the texts it has printed, and the value of `i` in the frame of its
header. -/
def seen (t : State) : List String × Option String :=
  (t.printed.toList.map Value.display, (t.store.get? 1 "i").map Value.display)

end SingleRound

open SingleRound in
/-- The loop prints once. From the frame of its round, the step assigns to the variable in the frame
of its header. -/
theorem for_means_forLoop_single :
    parseRaw "for(var i=true;i;i=nil)print\"a\";" = .ok (.tree .program [loop] (columns 1 33)) ∧
      (∀ host f, EndsAlike (fun fuel => execute host fuel loop.lower f)
        (fun fuel => forLoop host fuel (some init) (some test) (some step) body.lower f)) ∧
      let host : Host := ⟨0, 0, ⟨1000, 10⟩, fun _ => false, fun _ => 0⟩
      (∃ fuel, (execute host fuel loop.lower 0 State.fresh).state?.map seen =
        some (["a"], some "nil")) ∧
      ∃ s t : State, seen s = ([], some "true") ∧
        execute host 2 body.lower s.store.size { s with store := s.store.child 1 } =
          .done .normal t ∧
        evaluate host 2 step s.store.size t = evaluate host 2 step 1 t := by
  have parsed : parseRaw "for(var i=true;i;i=nil)print\"a\";" =
      .ok (.tree .program [loop] (columns 1 33)) := by
    cbv
  have inside : (Node.tree .program [loop] (columns 1 33)).Contains loop :=
    .part (List.mem_singleton.2 rfl) (.here _)
  obtain ⟨_, _, _, _, _, form, _, ends, _, same⟩ := for_means_forLoop _ _ loop parsed inside rfl
  cases form
  refine ⟨parsed, ends, ?_⟩
  intro host
  constructor
  · have meant :
        (forLoop host 4 (some init) (some test) (some step) body.lower 0 State.fresh).state?.map
          seen =
        some (["a"], some "nil") := by decide +kernel
    have ended : forLoop host 4 (some init) (some test) (some step) body.lower 0 State.fresh ≠
        .outOfFuel := by
      intro out
      rw [out] at meant
      cases meant
    obtain ⟨fuel, lowered⟩ := (ends host 0 State.fresh _ ended).2 ⟨4, rfl⟩
    exact ⟨fuel, (congrArg (fun e => e.state?.map seen) lowered).trans meant⟩
  · let s : State := { store := (State.fresh.store.child 0).define 1 "i" (.bool true) }
    exact ⟨s, _, by decide +kernel, rfl, same host 2 1 s _ .normal (by decide) rfl 2 step⟩

end LoxLang
