import LoxLang.Proofs.Manner

/-!
# What is under way when an error is raised

A run that is traced keeps a list of the nodes that are being run and the calls that are active, the
innermost first. When an error is raised, the trace stops there and tells the error, the list and
the state of that moment; nothing is caught, and no location is attached. How the evaluator ends can
be read off from it.

* `Active`: a node or a call that is under way; `Active.calls`, `Active.outside`,
  `Active.location?`.
* `Traced`: actions of a traced run; `Manner.traced`: the manner of such runs.
* `Failure.Fresh`: a failure as it is raised.
* `Failure.outOf`: what becomes of a failure on its way out of what was under way.
* `Told`: an ending of the evaluator beside what the trace tells.
* `Traced.Result.fault?`: the fault that a run ends with, and what was under way when it was raised.

Results: `traced_simulates` — traces and runs correspond; `execute_told`, `evaluate_told`,
`call_told`, `program_told` — every run is the one that its trace tells of; `Told.fault`,
`interpret_fault` — the location of a fault is that of the innermost node under way whose line is
known.
-/

set_option autoImplicit false

namespace LoxLang

/-- What is under way: a node, or a call that is counted. -/
inductive Active where
  | node (n : Node)
  | call

namespace Active

/-- How many calls are under way. -/
def calls : List Active → Nat
  | [] => 0
  | .node _ :: rest => calls rest
  | .call :: rest => calls rest + 1

/-- What is under way outside the innermost call. -/
def outside : List Active → List Active
  | [] => []
  | .node _ :: rest => outside rest
  | .call :: rest => rest

/-- The location of the innermost node whose line is known. -/
def location? (active : List Active) : Option Location :=
  active.findSome? fun
    | .node n => n.place.location?
    | .call => none

@[simp] theorem calls_append (inner outer : List Active) :
    calls (inner ++ outer) = calls inner + calls outer := by
  induction inner with
  | nil => simp [calls]
  | cons a inner ih =>
    cases a with
    | node n => exact ih
    | call =>
      show calls (inner ++ outer) + 1 = calls inner + 1 + calls outer
      omega

theorem outside_append {inner : List Active} (h : calls inner ≠ 0) (outer : List Active) :
    outside (inner ++ outer) = outside inner ++ outer := by
  induction inner with
  | nil => exact absurd rfl h
  | cons a inner ih =>
    cases a with
    | node n => exact ih h
    | call => rfl

/-- Without calls nothing is outside of one. -/
theorem outside_append_of_calls {inner : List Active} (h : calls inner = 0) (outer : List Active) :
    outside (inner ++ outer) = outside outer := by
  induction inner with
  | nil => rfl
  | cons a inner ih =>
    cases a with
    | node n => exact ih h
    | call => cases h

theorem location?_append (inner outer : List Active) :
    location? (inner ++ outer) = (location? inner).or (location? outer) :=
  List.findSome?_append

theorem location?_eq_none_iff (active : List Active) :
    location? active = none ↔ ∀ n, .node n ∈ active → n.place.location? = none := by
  rw [location?, List.findSome?_eq_none_iff]
  constructor
  · intro h n hn
    exact h (.node n) hn
  · intro h a ha
    cases a with
    | node n => exact h n ha
    | call => rfl

end Active

open Active (calls outside location?)

/-! ## Traced runs -/

/-- How a traced action ends. -/
inductive Traced.Result (α : Type) where
  | done (result : α) (state : State)
  /-- An error was raised, with what was under way and the state at that moment. -/
  | raised (failure : Failure) (active : List Active) (state : State)
  | outOfFuel

/-- An action of a traced run, given what is under way. -/
def Traced (α : Type) : Type := List Active → State → Traced.Result α

namespace Traced

variable {α β : Type}

instance : Monad Traced where
  pure x := fun _ s => .done x s
  bind a k := fun active s =>
    match a active s with
    | .done x t => k x active t
    | .raised e at' t => .raised e at' t
    | .outOfFuel => .outOfFuel

theorem bind_apply (a : Traced α) (k : α → Traced β) (active : List Active) (s : State) :
    (a >>= k) active s =
      match a active s with
      | .done x t => k x active t
      | .raised e at' t => .raised e at' t
      | .outOfFuel => .outOfFuel := rfl

/-- An action whose failures are raised where it stands. -/
def ofAction (a : Action α) : Traced α := fun active s =>
  match a s with
  | .done x t => .done x t
  | .failed e t => .raised e active t
  | .outOfFuel => .outOfFuel

/-- An action as a call, one deeper than what is active. -/
def counted (a : Traced α) : Traced α := fun active s =>
  match a (.call :: active) { s with depth := s.depth + 1 } with
  | .done x t => .done x { t with depth := t.depth - 1 }
  | result => result

end Traced

/-- The manner of traced runs: statements hand on how they end, nodes and calls are put on the
list. -/
def Manner.traced : Manner Traced Outcome where
  act := Traced.ofAction
  node n a := fun active => a (.node n :: active)
  counted := Traced.counted
  normal := pure .normal
  returned v := pure (.returning v)
  andThen a b := do
    match ← a with
    | .normal => b
    | .returning v => pure (.returning v)
  body a := do
    match ← a with
    | .normal => pure none
    | .returning v => pure v

/-! ## From a trace to the ending of the run -/

/-- A failure as it is raised: it has no location, and exhaustion of the host has not been
reported. -/
def Failure.Fresh : Failure → Prop
  | .fault cause location => location = none ∧ ∀ depth, cause ≠ .hostExhausted depth
  | _ => True

/-- What becomes of a failure that was raised in a state with some nodes and calls under way. A
fault gets the location of the innermost node whose line is known. Exhaustion of the host is
reported by the innermost call, from where on it is a fault. Every call that is left is counted
off. -/
def Failure.outOf (active : List Active) (u : State) : Failure → Failure × State
  | .fault cause none =>
    (.fault cause (location? active), { u with depth := u.depth - calls active })
  | .exhausted =>
    if calls active = 0 then (.exhausted, u)
    else (.fault (.hostExhausted u.depth) (location? (outside active)),
      { u with log := u.log.push (.exhausted u.depth), depth := u.depth - calls active })
  | e => (e, { u with depth := u.depth - calls active })

/-- An ending beside what the trace tells, of an action that began in the state `s` with `outer`
under way. -/
inductive Told {α : Type} (s : State) (outer : List Active) :
    Ending α → Traced.Result α → Prop
  | done {x : α} {t : State} (depth : t.depth = s.depth) : Told s outer (.done x t) (.done x t)
  | raised {e e' : Failure} {inner : List Active} {u t : State} (fresh : e.Fresh)
    (depth : u.depth = s.depth + calls inner) (out : e.outOf inner u = (e', t)) :
    Told s outer (.failed e' t) (.raised e (inner ++ outer) u)
  | outOfFuel : Told s outer .outOfFuel .outOfFuel

/-- An action of the evaluator beside one of a traced run. -/
def Traces {α : Type} (a : Action α) (r : Traced α) : Prop :=
  ∀ outer s, Told s outer (a s) (r outer s)

section Out

variable {α : Type} {s u t : State} {e e' : Failure} {inner : List Active}

theorem location?_node (n : Node) : location? [.node n] = n.place.location? := by
  unfold Active.location?
  rw [List.findSome?_singleton]

theorem locate_fault (cause : Fault) (location : Option Location) (n : Node) :
    (Failure.fault cause location).locate n.place =
      .fault cause (location.or (location? [.node n])) := by
  rw [location?_node]
  cases location <;> rfl

/-- On its way out of a node a fault without a location gets the place of the node. -/
theorem outOf_node (fresh : e.Fresh) (n : Node) (h : e.outOf inner u = (e', t)) :
    e.outOf (inner ++ [.node n]) u = (e'.locate n.place, t) := by
  have counted : calls (inner ++ [.node n]) = calls inner := by simp [calls]
  cases e with
  | fault cause location =>
    obtain ⟨rfl, -⟩ := fresh
    cases h
    rw [locate_fault, ← Active.location?_append, Failure.outOf, counted]
  | exhausted =>
    unfold Failure.outOf at h ⊢
    rw [counted]
    by_cases none : calls inner = 0
    · rw [if_pos none] at h ⊢
      cases h
      rfl
    · rw [if_neg none] at h ⊢
      cases h
      rw [locate_fault, ← Active.location?_append, Active.outside_append none]
  | malformed | missing | hollow | refused =>
    cases h
    simp only [Failure.outOf, Failure.locate, counted]

/-- On its way out of a call exhaustion of the host becomes a fault. -/
theorem outOf_call {a : Action α} (fresh : e.Fresh)
    (ends : a { s with depth := s.depth + 1 } = .failed e' t) (h : e.outOf inner u = (e', t)) :
    ∃ e₁ t₁, a.nested s = .failed e₁ t₁ ∧
      e.outOf (inner ++ [.call]) u = (e₁, t₁) := by
  have counted : calls (inner ++ [.call]) = calls inner + 1 := by simp [calls]
  have located (active : List Active) : location? (active ++ [.call]) = location? active := by
    rw [Active.location?_append]
    exact Option.or_none
  unfold Action.nested
  rw [ends]
  cases e with
  | fault cause location =>
    obtain ⟨rfl, -⟩ := fresh
    cases h
    refine ⟨_, _, rfl, ?_⟩
    simp only [Failure.outOf, counted, located, Nat.sub_sub]
  | exhausted =>
    unfold Failure.outOf at h ⊢
    rw [counted, if_neg (Nat.succ_ne_zero _)]
    by_cases none : calls inner = 0
    · rw [if_pos none] at h
      cases h
      refine ⟨_, _, rfl, ?_⟩
      rw [none, Active.outside_append_of_calls none]
      rfl
    · rw [if_neg none] at h
      cases h
      refine ⟨_, _, rfl, ?_⟩
      simp only [Active.outside_append none, located, Nat.sub_sub]
  | malformed | missing | hollow | refused =>
    cases h
    refine ⟨_, _, rfl, ?_⟩
    simp only [Failure.outOf, counted, Nat.sub_sub]

/-- Exhaustion of the host stays what it is only outside every call. -/
theorem outOf_exhausted (h : e.outOf inner u = (.exhausted, t)) :
    e = .exhausted ∧ calls inner = 0 ∧ t = u := by
  unfold Failure.outOf at h
  split at h
  · cases h
  · split at h
    · rename_i none
      cases h
      exact ⟨rfl, none, rfl⟩
    · cases h
  · rename_i other
    cases h
    exact absurd rfl other

/-- A failure that is raised where nothing else is under way stays as it is. -/
theorem outOf_nil (fresh : e.Fresh) : e.outOf [] u = (e, u) := by
  cases e with
  | fault cause location =>
    obtain ⟨rfl, -⟩ := fresh
    rfl
  | _ => rfl

end Out

/-! ## Runs and traces -/

/-- What a step raises is fresh. -/
theorem Action.Step.fresh {α : Type} {a : Action α} (h : a.Step) {s t : State} {e : Failure}
    (failed : a s = .failed e t) : e.Fresh := by
  cases h with
  | @fail _ e raw =>
    cases failed
    cases e with
    | fault cause location =>
      refine ⟨raw.1, fun depth hcause => ?_⟩
      have := raw.2
      rw [hcause] at this
      cases this
    | _ => trivial
  | refuse limit callee =>
    cases failed
    exact ⟨rfl, fun _ h => by cases h⟩
  | lookup f x =>
    unfold Action.lookup at failed
    split at failed
    · cases failed
    · cases failed
      exact ⟨rfl, fun _ h => by cases h⟩
  | assign f x v =>
    unfold Action.assign at failed
    split at failed
    · cases failed
    · cases failed
      exact ⟨rfl, fun _ h => by cases h⟩
  | print host v =>
    unfold Action.print at failed
    simp only at failed
    split at failed
    · cases failed
      trivial
    · cases failed
  | _ => cases failed

namespace Traces

variable {α β : Type} {a : Action α} {r : Traced α}

theorem ofAction (h : a.Step) : Traces a (Traced.ofAction a) := by
  intro outer s
  have onward := h.onward s
  unfold Traced.ofAction
  cases hs : a s with
  | done x t =>
    rw [hs] at onward
    exact .done onward.depth
  | failed e t =>
    rw [hs] at onward
    have fresh := h.fresh hs
    exact @Told.raised α s outer e e [] t t fresh onward.depth (outOf_nil fresh)
  | outOfFuel => exact .outOfFuel

theorem pure (x : α) : Traces (Pure.pure x) (Pure.pure x) := fun _ _ => .done rfl

theorem bind {k : α → Action β} {l : α → Traced β} (h : Traces a r)
    (hk : ∀ x, Traces (k x) (l x)) :
    Traces (a >>= k) (r >>= l) := by
  intro outer s
  have first := h outer s
  rw [Action.bind_apply, Traced.bind_apply]
  generalize a s = ending at first ⊢
  generalize r outer s = result at first ⊢
  cases first with
  | @done x t depth =>
    have second := hk x outer t
    simp only
    generalize k x t = ending at second ⊢
    generalize l x outer t = result at second ⊢
    cases second with
    | done depth' => exact .done (depth'.trans depth)
    | raised fresh depth' out => exact .raised fresh (by rw [depth', depth]) out
    | outOfFuel => exact .outOfFuel
  | raised fresh depth out => exact .raised fresh depth out
  | outOfFuel => exact .outOfFuel

/-- The list of what is under way grows at its inner end, so a node that is left stands at its outer
end. -/
theorem node (n : Node) (h : Traces a r) :
    Traces (a.locate n.place) (fun active => r (.node n :: active)) := by
  intro outer s
  have inside := h (.node n :: outer) s
  unfold Action.locate
  generalize a s = ending at inside ⊢
  simp only
  generalize r (.node n :: outer) s = result at inside ⊢
  cases inside with
  | done depth => exact .done depth
  | @raised e e' inner u t fresh depth out =>
    have depth' : u.depth = s.depth + calls (inner ++ [.node n]) := by simp [calls, depth]
    rw [List.append_cons inner]
    exact .raised fresh depth' (outOf_node fresh n out)
  | outOfFuel => exact .outOfFuel

theorem counted (h : Traces a r) : Traces a.nested r.counted := by
  intro outer s
  have inside := h (.call :: outer) { s with depth := s.depth + 1 }
  unfold Traced.counted
  cases ends : a { s with depth := s.depth + 1 } with
  | done x t =>
    rw [ends] at inside
    generalize r (.call :: outer) _ = result at inside ⊢
    cases inside with
    | done depth =>
      simp only [Action.nested, ends]
      refine .done ?_
      show t.depth - 1 = s.depth
      rw [depth]
      exact Nat.add_sub_cancel s.depth 1
  | failed e' t =>
    rw [ends] at inside
    generalize r (.call :: outer) _ = result at inside ⊢
    cases inside with
    | @raised e _ inner u _ fresh depth out =>
      have depth' : u.depth = s.depth + calls (inner ++ [.call]) := by
        rw [depth, Active.calls_append]
        simp [calls]
        omega
      obtain ⟨e₁, t₁, nested, out'⟩ := outOf_call fresh ends out
      rw [nested, List.append_cons inner]
      exact .raised fresh depth' out'
  | outOfFuel =>
    rw [ends] at inside
    generalize r (.call :: outer) _ = result at inside ⊢
    cases inside with
    | outOfFuel =>
      simp only [Action.nested, ends]
      exact .outOfFuel

end Traces

/-- **Runs and traces correspond.** -/
theorem traced_simulates : Manner.Simulates Manner.plain Manner.traced @Traces Traces where
  act h := .ofAction h
  pure x := .pure x
  bind h k := .bind h k
  node n h := .node n h
  counted h := .counted h
  starve := .ofAction .starve
  fail raw := .ofAction (.fail raw)
  first h k := .bind h k
  stmt n h := .node n h
  normal := .pure _
  returned v := .pure _
  andThen h k := by
    refine .bind h fun outcome => ?_
    cases outcome with
    | normal => exact k
    | returning v => exact .pure _
  body h := by
    refine .bind h fun outcome => ?_
    cases outcome with
    | normal => exact .pure _
    | returning v => exact .pure _

/-- What a run comes to whose trace tells of an error. -/
theorem Told.of_raised {α : Type} {s u : State} {ending : Ending α} {e : Failure}
    {active : List Active} (h : Told s [] ending (.raised e active u)) :
    e.Fresh ∧ u.depth = s.depth + calls active ∧
      ending = .failed (e.outOf active u).1 (e.outOf active u).2 := by
  generalize hresult : Traced.Result.raised e active u = result at h
  cases h with
  | done | outOfFuel => cases hresult
  | raised fresh depth out =>
    rw [List.append_nil] at hresult
    cases hresult
    exact ⟨fresh, depth, by rw [out]⟩

/-- The fault that a run ends with, and what was under way when it was raised. Exhaustion of the
host becomes a fault at the boundary of the innermost call, so the fault is raised outside of that
call. -/
def Traced.Result.fault? {α : Type} : Traced.Result α → Option (Fault × List Active)
  | .raised (.fault cause _) active _ => some (cause, active)
  | .raised .exhausted active u => some (.hostExhausted u.depth, outside active)
  | _ => none

theorem Told.fault {α : Type} {s t : State} {result : Traced.Result α} {cause : Fault}
    {location : Option Location} (h : Told s [] (.failed (.fault cause location) t) result) :
    ∃ active, result.fault? = some (cause, active) ∧ location = location? active := by
  cases h with
  | @raised e _ inner u _ fresh _ out =>
    rw [List.append_nil]
    cases e with
    | fault cause' location' =>
      obtain ⟨rfl, -⟩ := fresh
      cases out
      exact ⟨inner, rfl, rfl⟩
    | exhausted =>
      simp only [Failure.outOf] at out
      split at out
      · cases out
      · cases out
        exact ⟨outside inner, rfl, rfl⟩
    | malformed | missing | hollow | refused => cases out

section Told

variable (host : Host) (fuel : Nat) (s : State)

theorem execute_told (n : Node) (f : FrameId) :
    Told s [] (execute host fuel n f s) (Manner.traced.execute host fuel n f [] s) := by
  rw [← (Manner.plain_evaluators host fuel).1]
  exact (traced_simulates.evaluators host fuel).1 n f [] s

theorem evaluate_told (n : Node) (f : FrameId) :
    Told s [] (evaluate host fuel n f s) (Manner.traced.evaluate host fuel n f [] s) := by
  rw [← (Manner.plain_evaluators host fuel).2.1]
  exact (traced_simulates.evaluators host fuel).2.1 n f [] s

theorem call_told (callee : Value) (args : List Value) :
    Told s [] (call host fuel callee args s) (Manner.traced.call host fuel callee args [] s) := by
  rw [← (Manner.plain_evaluators host fuel).2.2.2]
  exact (traced_simulates.evaluators host fuel).2.2.2 callee args [] s

/-- A program before exhaustion outside every call is reported. -/
theorem program_told (program : List Node) :
    Told s [] (Manner.plain.interpret host fuel program s)
      (Manner.traced.interpret host fuel program [] s) :=
  traced_simulates.interpret host fuel program [] s

/-- The same for a program, which reports exhaustion outside every call: nothing is under way
then. -/
theorem interpret_fault {program : List Node} {cause : Fault}
    {location : Option Location} {t : State}
    (ends : interpret host fuel program s = .failed (.fault cause location) t) :
    ∃ active, (Manner.traced.interpret host fuel program [] s).fault? = some (cause, active) ∧
      location = location? active := by
  have told := program_told host fuel s program
  rw [Manner.plain_interpret] at ends
  unfold Action.outermost at ends
  split at ends
  · rename_i t' failed
    rw [failed] at told
    cases ends
    generalize Manner.traced.interpret host fuel program [] s = result at told ⊢
    cases told with
    | @raised e _ inner u _ fresh _ out =>
      obtain ⟨rfl, none, rfl⟩ := outOf_exhausted out
      rw [List.append_nil]
      refine ⟨outside inner, rfl, ?_⟩
      rw [← List.append_nil inner, Active.outside_append_of_calls none]
      rfl
  · rw [ends] at told
    exact told.fault

end Told

end LoxLang
