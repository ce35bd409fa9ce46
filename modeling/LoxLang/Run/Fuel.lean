import LoxLang.Run.Congruence

/-!
# Fuel

Fuel only decides whether a run ends, never how.

* `Action.Below`: one action ends as another does, or runs out of fuel. The evaluator respects this
  order, and a loop may have one more round.
* `execute_below`, `evaluate_below`: more fuel keeps what has ended.
* `interpret_mono`: a program that has ended ends alike with any larger amount.
-/

set_option autoImplicit false

namespace LoxLang

variable {α β : Type}

/-- One action ends as another does, or runs out of fuel. -/
def Action.Below (a b : Action α) : Prop := ∀ s, a s = .outOfFuel ∨ a s = b s

namespace Action.Below

theorem refl (a : Action α) : Below a a := fun _ => .inr rfl

theorem of_starve (b : Action α) : Below Action.starve b := fun _ => .inl rfl

theorem trans {a b c : Action α} (h : Below a b) (k : Below b c) : Below a c := by
  intro s
  rcases h s with h | h
  · exact .inl h
  · rw [h]
    exact k s

theorem bind {a b : Action α} {f g : α → Action β} (h : Below a b)
    (k : ∀ x, Below (f x) (g x)) : Below (a >>= f) (b >>= g) := by
  intro s
  rcases h s with h | h
  · left
    simp [h]
  · simp only [Action.bind_apply, h]
    cases b s with
    | done x t => exact k x t
    | failed f t => exact .inr rfl
    | outOfFuel => exact .inl rfl

/-- Only what comes after the first action differs. -/
theorem bind_right (a : Action α) {f g : α → Action β} (k : ∀ x, Below (f x) (g x)) :
    Below (a >>= f) (a >>= g) := bind (refl a) k

/-- Only the first action differs. -/
theorem bind_left {a b : Action α} (h : Below a b) (f : α → Action β) :
    Below (a >>= f) (b >>= f) := bind h fun x => refl (f x)

theorem locate {a b : Action α} (place : Place) (h : Below a b) :
    Below (a.locate place) (b.locate place) := by
  intro s
  rcases h s with h | h <;> simp [Action.locate, h]

theorem nested {a b : Action α} (h : Below a b) : Below a.nested b.nested := by
  intro s
  rcases h { s with depth := s.depth + 1 } with h | h <;> simp [Action.nested, h]

theorem outermost {a b : Action α} (h : Below a b) : Below a.outermost b.outermost := by
  intro s
  rcases h s with h | h <;> simp [Action.outermost, h]

/-- The evaluator respects the order. -/
theorem congruence : Congruence @Below where
  self _ := refl _
  bind h k := bind h k
  locate place h := locate place h
  nested h := nested h

/-- A loop may have one more round. -/
theorem loop {t u : Action Value} {b c : Action Outcome} (ht : Below t u) (hb : Below b c)
    (fuel : Nat) : Below (repeatWhile t b fuel) (repeatWhile u c (fuel + 1)) := by
  induction fuel with
  | zero => exact of_starve _
  | succ fuel ih => exact congruence.round ht hb ih

end Action.Below

open LoxLang.Action (Below)

/-! ## With fuel -/

/-- One unit more keeps what has ended, for all four functions at once. -/
theorem level_below (host : Host) (fuel : Nat) :
    (∀ node f, Below (execute host fuel node f) (execute host (fuel + 1) node f)) ∧
    (∀ node f, Below (evaluate host fuel node f) (evaluate host (fuel + 1) node f)) ∧
    (∀ callee args, Below (invoke host fuel callee args) (invoke host (fuel + 1) callee args)) ∧
    (∀ callee args, Below (call host fuel callee args) (call host (fuel + 1) callee args)) := by
  induction fuel with
  | zero =>
    exact ⟨fun _ _ => .of_starve _, fun _ _ => .of_starve _, fun _ _ => .of_starve _,
      fun _ _ => .of_starve _⟩
  | succ fuel ih =>
    obtain ⟨hrun, heval, hinvoke, hcall⟩ := ih
    have c := Below.congruence
    have hosts := c.sameHost host
    refine ⟨fun node f => .locate _ ?_, fun node f => .locate _ ?_, fun callee args => ?_,
      fun callee args => ?_⟩
    · exact c.statement hosts hrun heval
        (fun test body f => .loop (heval test f) (hrun body f) fuel) f _
    · exact c.expression heval hcall f _
    · exact c.invokeWith hosts hrun hcall callee args
    · exact c.callWith hosts hinvoke callee args

theorem execute_below (host : Host) {m n : Nat} (h : m ≤ n) (node : Node) (f : FrameId) :
    Below (execute host m node f) (execute host n node f) := by
  induction h with
  | refl => exact .refl _
  | step _ ih => exact ih.trans ((level_below host _).1 node f)

theorem evaluate_below (host : Host) {m n : Nat} (h : m ≤ n) (node : Node) (f : FrameId) :
    Below (evaluate host m node f) (evaluate host n node f) := by
  induction h with
  | refl => exact .refl _
  | step _ ih => exact ih.trans ((level_below host _).2.1 node f)

/-- A program that has ended ends alike with any larger amount of fuel. -/
theorem interpret_mono (host : Host) {m n : Nat} (h : m ≤ n) (program : List Node) (s : State)
    (ended : interpret host m program s ≠ .outOfFuel) :
    interpret host n program s = interpret host m program s := by
  have below : Below (interpret host m program) (interpret host n program) :=
    .outermost (.bind_right _ fun _ => .bind_right _ fun _ =>
      Below.congruence.runAll (fun node => execute_below host h node _) program)
  exact ((below s).resolve_left ended).symm

end LoxLang
