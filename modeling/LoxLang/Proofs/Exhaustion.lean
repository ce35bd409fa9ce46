import LoxLang.Proofs.Depth
import LoxLang.Proofs.Safety
import LoxLang.Proofs.Trace

/-!
# Overflow of the stack

There are two ways to run out of stack: more calls than the limit allows, and exhaustion of the
host, which can happen anywhere. Both are reported as faults that tell a depth. Exhaustion inside a
call is reported by the innermost call, exhaustion outside every call by the program as a whole; a
fault that has been reported is not reported again further out.

* `State.Notes`: the records that a run has made.
* `Fault.Noted`: the record that belongs to a fault.
* `Ending.Logged`, `Action.Logged`: a record of an overflow is the last one, and belongs to the
  fault that the run ends with.

Results: `logged_simulates` — the evaluator keeps its records so; `exhaustion_reported`.
-/

set_option autoImplicit false

namespace LoxLang

open Active (calls outside location?)

/-! ## Records -/

/-- The records made between the states `s` and `t`: none of an overflow, and then `last`. -/
def State.Notes (s t : State) (last : List Record) : Prop :=
  ∃ quiet : List Record, (∀ r ∈ quiet, r.isOverflow = false) ∧
    t.log.toList = s.log.toList ++ quiet ++ last

/-- The record that belongs to a fault. -/
def Fault.Noted : Fault → Record → Prop
  | .depthLimit limit, .limitHit limit' _ => limit' = limit
  | .hostExhausted depth, .exhausted depth' => depth' = depth
  | _, _ => False

namespace State.Notes

theorem of_eq {s t : State} (h : t.log = s.log) : s.Notes t [] := by
  refine ⟨[], by simp, ?_⟩
  rw [h, List.append_nil, List.append_nil]

theorem trans {s t u : State} {last : List Record} (h : s.Notes t []) (k : t.Notes u last) :
    s.Notes u last := by
  obtain ⟨first, hfirst, ht⟩ := h
  obtain ⟨second, hsecond, hu⟩ := k
  refine ⟨first ++ second, fun r hr => ?_, ?_⟩
  · rcases List.mem_append.1 hr with hr | hr
    · exact hfirst r hr
    · exact hsecond r hr
  · rw [hu, ht]
    simp

/-- One more record, which may tell of an overflow. -/
theorem push {s t u : State} {r : Record} (h : s.Notes t []) (hu : u.log = t.log.push r) :
    s.Notes u [r] := by
  obtain ⟨quiet, hquiet, ht⟩ := h
  refine ⟨quiet, hquiet, ?_⟩
  rw [hu, Array.toList_push, ht, List.append_nil]

/-- A record that tells of none is one among others. -/
theorem quiet {s t : State} {r : Record} (h : s.Notes t [r]) (hr : r.isOverflow = false) :
    s.Notes t [] := by
  obtain ⟨quiet, hquiet, ht⟩ := h
  refine ⟨quiet ++ [r], fun r' hr' => ?_, by rw [ht]; simp⟩
  rcases List.mem_append.1 hr' with hr' | hr'
  · exact hquiet r' hr'
  · rw [List.mem_singleton.1 hr']
    exact hr

end State.Notes

/-- A failure that is no overflow. -/
def Failure.NoOverflow (e : Failure) : Prop :=
  ∀ cause location, e = .fault cause location → cause.isOverflow = false

/-- An overflow is noted down once, by the last record; other endings leave no record of one. -/
inductive Ending.Logged {α : Type} (s : State) : Ending α → Prop
  | done {x : α} {t : State} (quiet : s.Notes t []) : Logged s (.done x t)
  | failed {e : Failure} {t : State} (other : e.NoOverflow) (quiet : s.Notes t []) :
    Logged s (.failed e t)
  | overflow {cause : Fault} {location : Option Location} {r : Record} {t : State}
    (noted : cause.Noted r) (last : s.Notes t [r]) : Logged s (.failed (.fault cause location) t)
  | outOfFuel : Logged s .outOfFuel

/-- The records of an action are kept so. -/
def Action.Logged {α : Type} (a : Action α) : Prop := ∀ s, (a s).Logged s

namespace Action.Logged

variable {α β : Type} {a : Action α}

theorem bind {k : α → Action β} (h : a.Logged) (hk : ∀ x, (k x).Logged) :
    (a >>= k).Logged := by
  intro s
  have first := h s
  rw [Action.bind_apply]
  generalize a s = ending at first ⊢
  cases first with
  | @done x t quiet =>
    have second := hk x t
    simp only
    generalize k x t = ending at second ⊢
    cases second with
    | done quiet' => exact .done (quiet.trans quiet')
    | failed other quiet' => exact .failed other (quiet.trans quiet')
    | overflow noted last => exact .overflow noted (quiet.trans last)
    | outOfFuel => exact .outOfFuel
  | failed other quiet => exact .failed other quiet
  | overflow noted last => exact .overflow noted last
  | outOfFuel => exact .outOfFuel

theorem locate (place : Place) (h : a.Logged) : (a.locate place).Logged := by
  intro s
  have inside := h s
  unfold Action.locate
  generalize a s = ending at inside ⊢
  cases inside with
  | done quiet => exact .done quiet
  | @failed e t other quiet =>
    refine .failed (fun cause location he => ?_) quiet
    cases e with
    | fault cause' location' =>
      have same := other cause' location' rfl
      cases location' <;> cases he <;> exact same
    | _ => cases he
  | @overflow cause location r t noted last => cases location <;> exact .overflow noted last
  | outOfFuel => exact .outOfFuel

/-- A call reports exhaustion of the host, of which nothing has been noted down before. -/
theorem nested (h : a.Logged) : a.nested.Logged := by
  intro s
  have inside := h { s with depth := s.depth + 1 }
  unfold Action.nested
  generalize a { s with depth := s.depth + 1 } = ending at inside ⊢
  cases inside with
  | done quiet => exact .done quiet
  | @failed e t other quiet =>
    cases e with
    | exhausted =>
      have noted : (Fault.hostExhausted t.depth).Noted (.exhausted t.depth) := rfl
      exact .overflow noted (State.Notes.push quiet rfl)
    | _ => exact .failed other quiet
  | overflow noted last => exact .overflow noted last
  | outOfFuel => exact .outOfFuel

theorem of_step (h : a.Step) : a.Logged := by
  intro s
  cases h with
  | pure x => exact .done (.of_eq rfl)
  | starve => exact .outOfFuel
  | @fail _ e raw =>
    refine .failed (fun cause location he => ?_) (.of_eq rfl)
    rw [he] at raw
    exact raw.2
  | refuse limit callee =>
    have noted : (Fault.depthLimit limit).Noted (.limitHit limit callee) := rfl
    exact .overflow noted (State.Notes.push (.of_eq (rfl : s.log = s.log)) rfl)
  | lookup f x =>
    unfold Action.lookup
    split
    · exact .done (.of_eq rfl)
    · exact .failed (fun _ _ h => by cases h; rfl) (.of_eq rfl)
  | assign f x v =>
    unfold Action.assign
    split
    · exact .done (.of_eq rfl)
    · exact .failed (fun _ _ h => by cases h; rfl) (.of_eq rfl)
  | print host v =>
    unfold Action.print
    simp only
    split
    · exact .failed (fun _ _ h => by cases h) (.of_eq rfl)
    · exact .done (.of_eq rfl)
  | record quiet => exact .done ((State.Notes.push (.of_eq (rfl : s.log = s.log)) rfl).quiet quiet)
  | define | defineAll | enterFrame | freshMark | readClock
  | activeCalls => exact .done (.of_eq rfl)

end Action.Logged

/-- **The evaluator keeps its records so.** -/
theorem logged_simulates :
    Manner.Simulates Manner.plain Manner.plain (fun {α : Type} (_ a : Action α) => a.Logged)
      (fun _ a => a.Logged) where
  act h := .of_step h
  pure x := .of_step (.pure x)
  bind h k := .bind h k
  node n h := .locate n.place h
  counted h := .nested h
  starve := .of_step .starve
  fail raw := .of_step (.fail raw)
  first h k := .bind h k
  stmt n h := .locate n.place h
  normal := .of_step (.pure _)
  returned v := .of_step (.pure _)
  andThen h k := by
    refine .bind h fun outcome => ?_
    cases outcome with
    | normal => exact k
    | returning v => exact .of_step (.pure _)
  body h := by
    refine .bind h fun outcome => ?_
    cases outcome <;> exact .of_step (.pure _)

/-! ## Programs -/

/-- How a program ends, before and after exhaustion outside every call is reported. -/
theorem outermost_cases {α : Type} (a : Action α) (s : State) :
    (∃ t, a s = .failed .exhausted t ∧
      a.outermost s = .failed (.of (.hostExhausted t.depth)) t) ∨ a.outermost s = a s ∧
        ∀ t, a s ≠ .failed .exhausted t := by
  unfold Action.outermost
  cases a s with
  | done x t => exact .inr ⟨rfl, fun _ h => by cases h⟩
  | failed e t =>
    cases e with
    | exhausted => exact .inl ⟨t, rfl, rfl⟩
    | _ => exact .inr ⟨rfl, fun _ h => by cases h⟩
  | outOfFuel => exact .inr ⟨rfl, fun _ h => by cases h⟩

section Programs

variable {host : Host} {fuel : Nat} {program : List Node} {s : State}

/-- What becomes of exhaustion that is raised in a program. -/
theorem interpret_exhausted {active : List Active} {u : State} (start : s.depth = 0)
    (raised : Manner.traced.interpret host fuel program [] s = .raised .exhausted active u) :
    calls active = u.depth ∧
      (1 ≤ u.depth → interpret host fuel program s =
        .failed (.fault (.hostExhausted u.depth) (location? (outside active)))
          { u with log := u.log.push (.exhausted u.depth), depth := 0 }) ∧
      (u.depth = 0 →
        interpret host fuel program s = .failed (.fault (.hostExhausted 0) none) u) := by
  have told := program_told host fuel s program
  rw [raised] at told
  obtain ⟨-, depth, ends⟩ := told.of_raised
  have counted : calls active = u.depth := by omega
  refine ⟨counted, fun inside => ?_, fun outside => ?_⟩
  · have some_call : calls active ≠ 0 := by omega
    have off : u.depth - calls active = 0 := by omega
    simp only [Failure.outOf, if_neg some_call, off] at ends
    rw [Manner.plain_interpret, Action.outermost, ends]
  · have no_call : calls active = 0 := by omega
    simp only [Failure.outOf, if_pos no_call] at ends
    rw [Manner.plain_interpret, Action.outermost, ends]
    simp only [outside]
    rfl

/-- A fault that reports exhaustion of the host comes from exhaustion that was raised. -/
theorem raised_of_hostExhausted {depth : Nat} {location : Option Location} {t : State}
    (ends : interpret host fuel program s = .failed (.fault (.hostExhausted depth) location) t) :
    ∃ active u, Manner.traced.interpret host fuel program [] s = .raised .exhausted active u ∧
      u.depth = depth := by
  have told := program_told host fuel s program
  obtain ⟨active, fault, -⟩ := interpret_fault host fuel s ends
  generalize Manner.traced.interpret host fuel program [] s = result at told fault ⊢
  cases result with
  | done x u => cases fault
  | outOfFuel => cases fault
  | raised e active' u =>
    cases e with
    | fault cause location' =>
      obtain ⟨⟨-, fresh⟩, -⟩ := told.of_raised
      cases fault
      exact absurd rfl (fresh depth)
    | exhausted =>
      cases fault
      exact ⟨active', u, rfl, rfl⟩
    | malformed | missing | hollow | refused => cases fault

/-- The records of a program that has ended. -/
theorem interpret_logged {t : State} (start : s.depth = 0)
    (ends : (interpret host fuel program s).state? = some t) :
    ∃ last, s.Notes t last ∧
      (last = [] ∧
        (∀ cause location, interpret host fuel program s = .failed (.fault cause location) t →
          cause.isOverflow = true → cause = .hostExhausted 0) ∨
        ∃ r cause location, last = [r] ∧ cause.Noted r ∧
          interpret host fuel program s = .failed (.fault cause location) t) := by
  have logged := logged_simulates.interpret host fuel program s
  have balanced := ((interpret_onward host fuel program).ends ends).depth
  rw [Manner.plain_interpret] at ends ⊢
  rcases outermost_cases (Manner.plain.interpret host fuel program) s with
    ⟨t', failed, out⟩ | ⟨out, -⟩
  · -- exhaustion outside every call is not noted down
    rw [out] at ends ⊢
    rw [failed] at logged
    cases ends
    cases logged with
    | failed _ quiet =>
      refine ⟨[], quiet, .inl ⟨rfl, fun cause location h _ => ?_⟩⟩
      cases h
      rw [balanced, start]
  · rw [out] at ends ⊢
    cases hending : Manner.plain.interpret host fuel program s with
    | done x u =>
      rw [hending] at logged ends
      cases ends
      cases logged with
      | done quiet => exact ⟨[], quiet, .inl ⟨rfl, fun _ _ h => by cases h⟩⟩
    | failed e u =>
      rw [hending] at logged ends
      cases ends
      cases logged with
      | failed other quiet =>
        refine ⟨[], quiet, .inl ⟨rfl, fun cause location h overflow => ?_⟩⟩
        cases h
        rw [other cause location rfl] at overflow
        cases overflow
      | overflow noted last => exact ⟨_, last, .inr ⟨_, _, _, rfl, noted, rfl⟩⟩
    | outOfFuel =>
      rw [hending] at ends
      cases ends

end Programs

/-- **Overflow of the stack is always reported, at the right depth.** A program that is run while no
call is active never ends with exhaustion of the host itself. If the host is exhausted while calls
are active, the program ends with a fault that tells their number, at the location of the innermost
node with a known line among those under way outside the innermost call; if no call is active, with
a fault that tells depth zero and has no location. Conversely, only exhaustion makes such faults. A
run makes at most one record of an overflow, of either kind; it is then the last one, and tells the
depth of the fault that the run ends with. -/
theorem exhaustion_reported (host : Host) (fuel : Nat) (program : List Node) (s : State)
    (start : s.depth = 0) :
    (∀ t, interpret host fuel program s ≠ .failed .exhausted t) ∧
    (∀ active u, Manner.traced.interpret host fuel program [] s = .raised .exhausted active u →
      calls active = u.depth ∧
      (1 ≤ u.depth → interpret host fuel program s =
        .failed (.fault (.hostExhausted u.depth) (location? (outside active)))
          { u with log := u.log.push (.exhausted u.depth), depth := 0 }) ∧
      (u.depth = 0 →
        interpret host fuel program s = .failed (.fault (.hostExhausted 0) none) u)) ∧
    (∀ depth location t,
      interpret host fuel program s = .failed (.fault (.hostExhausted depth) location) t →
      ∃ active u, Manner.traced.interpret host fuel program [] s = .raised .exhausted active u ∧
        u.depth = depth) ∧
    (∀ t, (interpret host fuel program s).state? = some t →
      ∃ last, s.Notes t last ∧
        (last = [] ∧ (∀ cause location,
            interpret host fuel program s = .failed (.fault cause location) t →
            cause.isOverflow = true → cause = .hostExhausted 0) ∨
          ∃ r cause location, last = [r] ∧ cause.Noted r ∧
            interpret host fuel program s = .failed (.fault cause location) t)) := by
  refine ⟨Action.outermost_ne_exhausted _ s,
    fun active u raised => interpret_exhausted start raised,
      fun depth location t ends => raised_of_hostExhausted ends,
        fun t ends => interpret_logged start ends⟩

/-- The exhaustion of the host that a trace tells of. -/
def Traced.Result.exhaustion? {α : Type} : Traced.Result α → Option (List Active × State)
  | .raised .exhausted active u => some (active, u)
  | _ => none

/-- The statement `apply(boom);`, of which only the call has a known line. -/
def applied : Node :=
  let name (x : String) : Node :=
    .tree .reference [.word (.terminal .identifier) x .unknown] .unknown
  .tree .expressionStmt [.tree .call [name "apply", .tree .arguments [name "boom"] .unknown]
    (.onLine 7)] .unknown

/-- A native that exhausts the host is called by another native: two calls are active then, and the
fault points at the expression that made the first of them. -/
theorem exhaustion_reported_apply :
    let host : Host := ⟨0, 200, ⟨1000, 10⟩, fun _ => false, fun _ => 0⟩
    let s : State :=
      { store := Store.empty.withGlobals [⟨"apply", 1, .apply⟩, ⟨"boom", 0, .exhaust⟩] }
    s.depth = 0 ∧ ∃ active u,
      Manner.traced.interpret host 20 [applied] [] s = .raised .exhausted active u ∧
        u.depth = 2 ∧
      interpret host 20 [applied] s = .failed (.fault (.hostExhausted 2) (some ⟨7, none⟩))
        { u with log := u.log.push (.exhausted 2), depth := 0 } := by
  intro host s
  have shown : (Manner.traced.interpret host 20 [applied] [] s).exhaustion?.map
      (fun p => (p.2.depth, location? (outside p.1))) = some (2, some ⟨7, none⟩) := by
    decide +kernel
  have start : s.depth = 0 := rfl
  obtain ⟨-, reported, -⟩ := exhaustion_reported host 20 [applied] s start
  cases h : Manner.traced.interpret host 20 [applied] [] s with
  | raised e active u =>
    cases e with
    | exhausted =>
      rw [h] at shown
      simp only [Traced.Result.exhaustion?, Option.map_some, Option.some.injEq,
        Prod.mk.injEq] at shown
      obtain ⟨depth, location⟩ := shown
      have ends := (reported active u h).2.1 (by omega)
      rw [depth, location] at ends
      exact ⟨start, active, u, rfl, depth, ends⟩
    | _ =>
      rw [h] at shown
      cases shown
  | _ =>
    rw [h] at shown
    cases shown

end LoxLang
