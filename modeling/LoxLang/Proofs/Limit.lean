import LoxLang.Proofs.Depth
import LoxLang.Proofs.Log
import LoxLang.Run.Fuel

/-!
# The limit on calls

A run under a limit on calls and the same run under a higher limit go through the same steps until
the first of them is stopped by an overflow of the stack. No construct can see the limit or go on
after such a stop, and output that has been written stays. Only the beginning of the log is
different: the limit for the stack of the host follows from the limit on calls, and is noted down.

The stack of the host is larger under the higher limit, so it may give out in the first run at an
attempt to print at which it does not in the second.

* `Ending.hitsLimit`, `Ending.exhaustsHost`: the run was stopped by an overflow of one kind or the
  other.
* `Ending.Cut`, `Action.Cut`: two endings or actions that are the same, or of which the first was
  stopped by an overflow when it had written part of the output of the second.
* `State.begun`: the log when the statements of a program begin.
* `Host.Lower`: two hosts of which the second allows more calls.

Results: `cut_congruence` — the evaluator respects `Action.Cut`; `limit_only_cuts_short` — what
a run ends with under a limit that it does not overflow, it ends with under every higher limit;
`limit_is_noted` — the log tells the limits apart, and a limit may be too high for the host.
-/

set_option autoImplicit false

namespace LoxLang

variable {α β : Type}

/-- The run was stopped because as many calls as allowed were active. -/
def Ending.hitsLimit : Ending α → Bool
  | .failed (.fault (.depthLimit _) _) _ => true
  | _ => false

/-- The run was stopped because the stack of the host was exhausted. -/
def Ending.exhaustsHost : Ending α → Bool
  | .failed (.fault (.hostExhausted _) _) _ => true
  | _ => false

/-- The failures that cut a run short: the limit on calls was hit, or the stack of the host was
exhausted, if that may happen in the first of two runs alone. -/
def Failure.Cuts (alone : Prop) : Failure → Prop
  | .fault (.depthLimit _) _ => True
  | .fault (.hostExhausted _) _ => alone
  | .exhausted => alone
  | _ => False

theorem Failure.Cuts.locate {alone : Prop} {e : Failure} (h : e.Cuts alone) (place : Place) :
    (e.locate place).Cuts alone := by
  cases e with
  | fault cause location => cases location <;> cases cause <;> exact h
  | _ => exact h

/-- The first ending is the second one, or that of a run which was cut short on the way to it. -/
inductive Ending.Cut (alone : Prop) : Ending α → Ending α → Prop
  | same (e : Ending α) : Cut alone e e
  | short {failure : Failure} {t : State} {e : Ending α} (cuts : failure.Cuts alone)
    (output : ∀ u, e.state? = some u → t.printed.toList <+: u.printed.toList) :
    Cut alone (.failed failure t) e

/-- Two actions of which the first may be cut short. Output that the second has written stays. -/
structure Action.Cut (alone : Prop) (a b : Action α) : Prop where
  onward : b.Onward
  ends : ∀ s, (a s).Cut alone (b s)

/-- A call that has ended has written what was written inside it. -/
theorem Action.nested_state? {b : Action α} {s u : State} (h : (b.nested s).state? = some u) :
    ∃ t, (b { s with depth := s.depth + 1 }).state? = some t ∧ t.printed = u.printed := by
  unfold Action.nested at h
  cases hb : b { s with depth := s.depth + 1 } with
  | done x t =>
    rw [hb] at h
    cases h
    exact ⟨t, rfl, rfl⟩
  | failed e t =>
    rw [hb] at h
    cases e <;> cases h <;> exact ⟨t, rfl, rfl⟩
  | outOfFuel =>
    rw [hb] at h
    cases h

theorem Action.outermost_state? (b : Action α) (s : State) :
    (b.outermost s).state? = (b s).state? := by
  unfold Action.outermost
  cases b s with
  | failed e t => cases e <;> rfl
  | _ => rfl

namespace Action.Cut

variable {alone : Prop}

theorem refl {a : Action α} (h : a.Onward) : Cut alone a a := ⟨h, fun s => .same (a s)⟩

theorem bind {a b : Action α} {k l : α → Action β} (h : Cut alone a b)
    (hk : ∀ x, Cut alone (k x) (l x)) : Cut alone (a >>= k) (b >>= l) := by
  refine ⟨.bind h.onward fun x => (hk x).onward, fun s => ?_⟩
  have first := h.ends s
  simp only [Action.bind_apply]
  generalize a s = e at first ⊢
  generalize b s = e' at first ⊢
  cases first with
  | same =>
    cases e with
    | done x t => exact (hk x).ends t
    | failed f t => exact .same _
    | outOfFuel => exact .same _
  | short cuts output =>
    -- the second run goes on, and can only add to what it had written when the first was stopped
    refine .short cuts fun u hu => ?_
    cases e' with
    | done x t =>
      have further := (hk x).onward.ends hu
      exact (output t rfl).trans further.printed
    | failed f t => exact output u hu
    | outOfFuel => cases hu

theorem locate {a b : Action α} (place : Place) (h : Cut alone a b) :
    Cut alone (a.locate place) (b.locate place) := by
  refine ⟨.locate place h.onward, fun s => ?_⟩
  have first := h.ends s
  unfold Action.locate
  generalize a s = e at first ⊢
  generalize b s = e' at first ⊢
  cases first with
  | same => exact .same _
  | short cuts output =>
    refine .short (cuts.locate place) fun u hu => ?_
    cases e' <;> exact output u hu

theorem nested {a b : Action α} (h : Cut alone a b) : Cut alone a.nested b.nested := by
  refine ⟨.nested h.onward, fun s => ?_⟩
  have first := h.ends { s with depth := s.depth + 1 }
  generalize ha : a { s with depth := s.depth + 1 } = e at first
  generalize hb : b { s with depth := s.depth + 1 } = e' at first
  cases first with
  | same =>
    have both : a.nested s = b.nested s := by rw [Action.nested, Action.nested, ha, hb]
    rw [both]
    exact .same _
  | @short failure t _ cuts output =>
    have stopped : ∃ failure' t', a.nested s = .failed failure' t' ∧ failure'.Cuts alone ∧
        t'.printed = t.printed := by
      rw [Action.nested, ha]
      cases failure with
      | exhausted => exact ⟨_, _, rfl, cuts, rfl⟩
      | _ => exact ⟨_, _, rfl, cuts, rfl⟩
    obtain ⟨failure', t', stopped, cuts', printed⟩ := stopped
    rw [stopped]
    refine .short cuts' fun u hu => ?_
    obtain ⟨u', hu', written⟩ := nested_state? hu
    rw [printed, ← written]
    exact output u' (hb ▸ hu')

theorem outermost {a b : Action α} (h : Cut alone a b) : Cut alone a.outermost b.outermost := by
  refine ⟨.outermost h.onward, fun s => ?_⟩
  have first := h.ends s
  generalize ha : a s = e at first
  generalize hb : b s = e' at first
  cases first with
  | same =>
    have both : a.outermost s = b.outermost s := by rw [Action.outermost, Action.outermost, ha, hb]
    rw [both]
    exact .same _
  | @short failure t _ cuts output =>
    have stopped : ∃ failure', a.outermost s = .failed failure' t ∧ failure'.Cuts alone := by
      rw [Action.outermost, ha]
      cases failure with
      | exhausted => exact ⟨_, rfl, cuts⟩
      | _ => exact ⟨_, rfl, cuts⟩
    obtain ⟨failure', stopped, cuts'⟩ := stopped
    rw [stopped]
    refine .short cuts' fun u hu => ?_
    rw [outermost_state?] at hu
    exact output u (hb ▸ hu)

/-- Where the two runs part: the lower limit refuses a call that the higher one may let through. -/
theorem limited {a b : Action α} {m m' : Int} (higher : m ≤ m') (callee : Value) (depth : Nat)
    (h : Cut alone a b) : Cut alone (a.limited m callee depth) (b.limited m' callee depth) := by
  have onward : (b.limited m' callee depth).Onward := h.onward.limited m' callee depth
  refine ⟨onward, fun s => ?_⟩
  by_cases full : m ≤ depth
  · rw [Action.limited, if_pos full]
    exact .short trivial fun u hu => (onward.ends hu).printed
  · have room : ¬ m' ≤ depth := by omega
    rw [Action.limited, Action.limited, if_neg full, if_neg room]
    exact h.ends s

/-- The other place: the stack of the host may give out at an attempt to print in the first run
alone. -/
theorem print {host host' : Host}
    (fewer : ∀ n, host'.printFails n = true → host.printFails n = true)
    (same : alone ∨ host'.printFails = host.printFails) (v : Value) :
    Cut alone (Action.print host v) (Action.print host' v) := by
  refine ⟨.print host' v, fun s => ?_⟩
  by_cases fails : host.printFails s.attempts = host'.printFails s.attempts
  · simp only [Action.print, Nat.add_sub_cancel, fails]
    exact .same _
  · have first : host.printFails s.attempts = true ∧ host'.printFails s.attempts = false := by
      have fewer := fewer s.attempts
      revert fails fewer
      cases host.printFails s.attempts <;> cases host'.printFails s.attempts <;> simp
    have alone : alone := same.resolve_right fun same => fails (by rw [same])
    simp only [Action.print, Nat.add_sub_cancel, first.1, first.2]
    refine .short alone ?_
    rintro u ⟨⟩
    rw [Array.toList_push]
    exact List.prefix_append _ _

end Action.Cut

/-- The evaluator respects what a limit can do. -/
theorem cut_congruence (alone : Prop) :
    Congruence fun {α : Type} (a b : Action α) => a.Cut alone b where
  self h := .refl h
  bind h k := .bind h k
  locate place h := .locate place h
  nested h := .nested h

/-- A run that was cut short has written the first part of the output of the other. -/
theorem Ending.Cut.printed {alone : Prop} {e e' : Ending α} {t t' : State} (h : e.Cut alone e')
    (left : e.state? = some t) (left' : e'.state? = some t') :
    t.printed.toList <+: t'.printed.toList := by
  cases h with
  | same =>
    obtain rfl : t = t' := Option.some.inj (left.symm.trans left')
    exact List.prefix_refl _
  | short _ output =>
    cases left
    exact output t' left'

/-- A run that does not end in an overflow is not cut short. -/
theorem Ending.Cut.eq {alone : Prop} {e e' : Ending α} (h : e.Cut alone e')
    (unhit : e.hitsLimit = false) (left : e.exhaustsHost = false ∨ ¬ alone)
    (reported : ∀ t, e ≠ .failed .exhausted t) : e = e' := by
  cases h with
  | same => rfl
  | @short failure t _ cuts =>
    cases failure with
    | exhausted => exact absurd rfl (reported t)
    | fault cause location =>
      cases cause with
      | depthLimit limit => cases unhit
      | hostExhausted depth =>
        rcases left with left | left
        · cases left
        · exact absurd cuts left
      | _ => exact cuts.elim
    | _ => exact cuts.elim

theorem Ending.ne_outOfFuel {e : Ending α} {t : State} (h : e.state? = some t) :
    e ≠ .outOfFuel := by
  rintro rfl
  cases h

/-! ## Two hosts -/

/-- The log when the statements of a program begin. -/
def State.begun (s : State) (host : Host) (program : List Node) : Array Record :=
  (s.log.push (.interpreting program.length)).push (.raisedLimit host.stack.limit host.stackLimit)

/-- The second host is the first one with the same limit on calls or a higher one, and its stack
gives out at the same attempts to print or at fewer. Both accept the limit for the stack. -/
structure Host.Lower (host host' : Host) : Prop where
  globals : host.globals = host'.globals
  clock : host.clock = host'.clock
  stack : host.stack = host'.stack
  higher : host.maxDepth ≤ host'.maxDepth
  fewer : ∀ n, host'.printFails n = true → host.printFails n = true
  inRange : host.InRange
  inRange' : host'.InRange

section Limits

variable {host host' : Host}

/-- In a full stack nothing is run, and exhaustion of the host is what the run ends with. -/
theorem interpret_full (inRange : host.InRange) (refused : host.refusal? ≠ none) (fuel : Nat)
    (program : List Node) (s : State) :
    interpret host fuel program s =
      .failed (.of (.hostExhausted s.depth))
        { s with log := s.log.push (.interpreting program.length) } := by
  obtain ⟨failure, refused⟩ := Option.ne_none_iff_exists'.1 refused
  rw [interpret_refused refused]
  rcases Host.refusal?_cases refused with rfl | ⟨reason, rfl⟩
  · rfl
  · exact absurd refused (inRange.not_refused reason)

theorem interpret_relogged (accepted : host.refusal? = none) (fuel : Nat) (program : List Node)
    (s : State) (l : Array Record) :
    Ending.Relogged l (s.begun host program)
      (Action.outermost (runAll (fun n => execute host fuel n host.globals) program)
        { s with log := l })
      (interpret host fuel program s) := by
  rw [interpret_accepted accepted]
  exact (runAll_relogged host fuel program host.globals s l (s.begun host program)).outermost

/-- If a stack is not full under one limit, then it is not full under a higher one. -/
theorem Host.Lower.accepted (h : host.Lower host') (accepted : host.refusal? = none) :
    host'.refusal? = none := by
  rw [Host.refusal?_of_inRange h.inRange] at accepted
  rw [Host.refusal?_of_inRange h.inRange']
  have room : ¬ host.stackLimit ≤ host.stack.used := by
    intro full
    rw [if_pos full] at accepted
    cases accepted
  refine if_neg ?_
  have higher := h.higher
  unfold Host.stackLimit Host.framesPerCall at room ⊢
  rw [← h.stack]
  omega

/-- Statements under a limit and under a higher one, with the same fuel. -/
theorem Host.Lower.cut (h : host.Lower host') {alone : Prop}
    (same : alone ∨ host'.printFails = host.printFails) (fuel : Nat) (program : List Node) :
    Action.Cut alone (Action.outermost (runAll (fun n => execute host fuel n host.globals) program))
      (Action.outermost (runAll (fun n => execute host' fuel n host'.globals) program)) := by
  have hosts : Hosts (fun {α : Type} (a b : Action α) => a.Cut alone b) host host' :=
    ⟨h.clock, .print h.fewer same, fun callee depth h' => .limited h.higher callee depth h'⟩
  have parts := (cut_congruence alone).evaluators hosts fuel
  rw [h.globals]
  exact .outermost ((cut_congruence alone).runAll (fun n => parts.1 n host'.globals) program)

/-- A program that is not cut short under a limit ends in the same way under a higher one, with the
same fuel. -/
theorem Host.Lower.relogged (h : host.Lower host') (accepted : host.refusal? = none) {fuel : Nat}
    {program : List Node} {s : State} (unhit : (interpret host fuel program s).hitsLimit = false)
    (left : (interpret host fuel program s).exhaustsHost = false ∨
      host'.printFails = host.printFails) :
    Ending.Relogged (s.begun host program) (s.begun host' program) (interpret host fuel program s)
      (interpret host' fuel program s) := by
  have relogged := interpret_relogged (h.accepted accepted) fuel program s (s.begun host program)
  rw [interpret_accepted accepted] at unhit left ⊢
  have cut := (h.cut (em' (host'.printFails = host.printFails)) fuel program).ends
    { s with log := s.begun host program }
  have same := cut.eq unhit (left.imp id not_not.2) (Action.outermost_ne_exhausted _ _)
  rw [← same] at relogged
  exact relogged

/-- What a program writes under a limit is the first part of what it writes under a higher one, with
the same fuel. -/
theorem Host.Lower.printed (h : host.Lower host') {fuel : Nat} {program : List Node}
    {s t t' : State} (ends : (interpret host fuel program s).state? = some t)
    (ends' : (interpret host' fuel program s).state? = some t') :
    t.printed.toList <+: t'.printed.toList := by
  by_cases accepted : host.refusal? = none
  · have relogged := interpret_relogged (h.accepted accepted) fuel program s (s.begun host program)
    obtain ⟨u, left, written⟩ := relogged.state? ends'
    rw [interpret_accepted accepted] at ends
    rw [← written]
    exact ((h.cut (.inl trivial) fuel program).ends _).printed ends left
  · rw [interpret_full h.inRange accepted] at ends
    cases ends
    exact ((interpret_onward host' fuel program).ends ends').printed

end Limits

/-- **The limit on calls only cuts runs short.** On two hosts of which the second allows as many
calls or more, and whose stack gives out at the same attempts to print or at fewer, with limits for
the stack that the hosts accept: if a program ends on the first without an overflow of the stack,
whether with an outcome or with another failure, then it ends on the second in the same way: with
the same result or failure, in the same state, and so with the same output and frames, and with the
same records but for the limit of the stack at the beginning. The same is true if it ends because
the stack of the host was exhausted and that happens alike on both. If it ends on both, its output
on the first, cut short or not, is the first part of that on the second. -/
theorem limit_only_cuts_short (host : Host) (m' : Int) (fails' : Nat → Bool)
    (higher : host.maxDepth ≤ m') (fewer : ∀ n, fails' n = true → host.printFails n = true)
    (inRange : host.InRange)
    (inRange' : Host.InRange { host with maxDepth := m', printFails := fails' })
    (program : List Node) (s : State) :
    let host' : Host := { host with maxDepth := m', printFails := fails' }
    (∀ fuel fuel', fuel ≤ fuel' →
      interpret host fuel program s ≠ .outOfFuel →
      (interpret host fuel program s).hitsLimit = false →
      (interpret host fuel program s).exhaustsHost = false ∨
        host.refusal? = none ∧ fails' = host.printFails →
      Ending.Relogged (s.begun host program) (s.begun host' program) (interpret host fuel program s)
        (interpret host' fuel' program s)) ∧
    (∀ fuel fuel' t t',
      (interpret host fuel program s).state? = some t →
      (interpret host' fuel' program s).state? = some t' →
      t.printed.toList <+: t'.printed.toList) := by
  intro host'
  have lower : host.Lower host' := ⟨rfl, rfl, rfl, higher, fewer, inRange, inRange'⟩
  constructor
  · intro fuel fuel' more ended unhit left
    have accepted : host.refusal? = none := by
      rcases left with left | left
      · by_contra refused
        rw [interpret_full inRange refused] at left
        cases left
      · exact left.1
    have relogged := lower.relogged accepted unhit (left.imp_right And.right)
    rw [interpret_mono host' more program s fun out => ended (relogged.outOfFuel_iff.2 out)]
    exact relogged
  · intro fuel fuel' t t' ends ends'
    -- with as much fuel as both need, both end as before
    rw [← interpret_mono host (Nat.le_max_left fuel fuel') program s
      (Ending.ne_outOfFuel ends)] at ends
    rw [← interpret_mono host' (Nat.le_max_right fuel fuel') program s
      (Ending.ne_outOfFuel ends')] at ends'
    exact lower.printed ends ends'

/-- The statement `print "x";`. -/
def printing : Node :=
  .tree .printStmt [.word (.terminal .string) "\"x\"" .unknown] .unknown

/-- Under the limits two and three a single call ends alike; a recursion that prints is stopped
under both, after two lines and after three. -/
theorem limit_only_cuts_short_recursion :
    let host : Host := ⟨0, 2, ⟨1000, 10⟩, fun _ => false, fun _ => 0⟩
    let host' : Host := { host with maxDepth := 3 }
    let once := calledOnce [printing]
    let endless := calledOnce [printing, callOf "f"]
    (interpret host 20 once State.fresh).hitsLimit = false ∧
      Ending.Relogged (State.fresh.begun host once) (State.fresh.begun host' once)
        (interpret host 20 once State.fresh) (interpret host' 20 once State.fresh) ∧
      (interpret host 20 endless State.fresh).hitsLimit = true ∧
      ∃ t t', (interpret host 20 endless State.fresh).state? = some t ∧
        (interpret host' 20 endless State.fresh).state? = some t' ∧
        t.printed.size = 2 ∧ t'.printed.size = 3 ∧ t.printed.toList <+: t'.printed.toList := by
  intro host host' once endless
  have ended : (interpret host 20 once State.fresh).state?.isSome = true := by decide +kernel
  have unhit : (interpret host 20 once State.fresh).hitsLimit = false := by decide +kernel
  have left : (interpret host 20 once State.fresh).exhaustsHost = false := by decide +kernel
  have hit : (interpret host 20 endless State.fresh).hitsLimit = true := by decide +kernel
  have two : (interpret host 20 endless State.fresh).state?.map (·.printed.size) = some 2 := by
    decide +kernel
  have three : (interpret host' 20 endless State.fresh).state?.map (·.printed.size) = some 3 := by
    decide +kernel
  obtain ⟨u, ended⟩ := Option.isSome_iff_exists.1 ended
  obtain ⟨t, ends, two⟩ := Option.map_eq_some_iff.1 two
  obtain ⟨t', ends', three⟩ := Option.map_eq_some_iff.1 three
  have short (program : List Node) := limit_only_cuts_short host 3 host.printFails (by decide)
    (fun _ fails => fails) (by decide) (by decide) program State.fresh
  have same := (short once).1 20 20 (Nat.le_refl 20) (Ending.ne_outOfFuel ended) unhit (.inl left)
  have first := (short endless).2 20 20 t t' ends ends'
  exact ⟨unhit, same, hit, t, t', ends, ends', two, three, first⟩

/-- The program `print "x";` ends normally under the limits 5 and 6 but notes down different limits
for the stack, and under a limit of 10¹⁸ the host refuses it. -/
theorem limit_is_noted :
    let host : Host := ⟨0, 5, ⟨1000, 10⟩, fun _ => false, fun _ => 0⟩
    ∃ t t' u, interpret host 5 [printing] State.fresh = .done .normal t ∧
      interpret { host with maxDepth := 6 } 5 [printing] State.fresh = .done .normal t' ∧
      t.log = #[.interpreting 1, .raisedLimit 1000 1200] ∧
        t'.log = #[.interpreting 1, .raisedLimit 1000 1240] ∧
      interpret { host with maxDepth := 1000000000000000000 } 5 [printing] State.fresh =
        .failed (.refused .tooWide) u := by
  have accepted : Host.refusal? ⟨0, 5, ⟨1000, 10⟩, fun _ => false, fun _ => 0⟩ = none := by decide
  have accepted' : Host.refusal? ⟨0, 6, ⟨1000, 10⟩, fun _ => false, fun _ => 0⟩ = none := by decide
  have refused :
      Host.refusal? ⟨0, 1000000000000000000, ⟨1000, 10⟩, fun _ => false, fun _ => 0⟩ =
        some (.refused .tooWide) := by
    rw [Host.refusal?, if_pos (by decide)]
  exact ⟨_, _, _, interpret_accepted accepted 5 [printing] State.fresh,
    interpret_accepted accepted' 5 [printing] State.fresh, rfl, rfl,
    interpret_refused refused 5 _ _⟩

end LoxLang
