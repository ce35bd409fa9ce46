import LoxLang.Proofs.Relocation.Run

/-!
# What is noted down has no influence

Records are added at the end of the log and never read: from two states that differ in their logs
only, a program ends in the same way, in the same state, and notes down the same.

* `unmoved`: one and the same program, as the case of `Likeness` in which counterparts are equal.
* `Ending.Relogged`: two endings with the same records after what was noted down before.

Results: `runAll_relogged` — statements are run alike whatever the log holds.
-/

set_option autoImplicit false

namespace LoxLang

/-! ## One program beside itself -/

/-- One and the same program. -/
abbrev unmoved : Likeness := moved Eq Eq

theorem unmoved_lawful : unmoved.Lawful :=
  Node.moves_eq.lawful rfl (fun h => by rw [h]) fun h => by rw [h]

theorem eq_of_forall₂ {α : Type} {R : α → α → Prop} (hR : ∀ {x y}, R x y → y = x)
    {xs ys : List α} (h : List.Forall₂ R xs ys) : ys = xs := by
  induction h with
  | nil => rfl
  | cons hx _ ih => rw [hR hx, ih]

theorem unmoved_value {v v' : Value} (h : unmoved.Values v v') : v' = v := by
  cases h with
  | @function c c' h =>
    have params : c'.params = c.params := h.params.trans (List.map_id _)
    have body : c'.body = c.body := eq_of_forall₂ (fun h => h.symm) h.body
    cases c
    cases c'
    simp only [Value.function.injEq, Closure.mk.injEq]
    exact ⟨h.name, params, body, h.frame.symm, h.mark.symm⟩
  | _ => rfl

theorem unmoved_fault {c c' : Fault} (h : unmoved.Faults c c') : c' = c := by
  cases h with
  | notCallable h => rw [unmoved_value h]
  | typeMismatch op h => rw [eq_of_forall₂ unmoved_value h]
  | unknownStatement h => exact congrArg _ h.symm
  | unknownExpression h => exact congrArg _ h.symm
  | unsupportedParameter h => exact congrArg _ h.symm
  | _ => rfl

theorem unmoved_failure {e e' : Failure} (h : unmoved.Failures e e') : e' = e := by
  cases h with
  | fault causes locations => rw [unmoved_fault causes, show _ = _ from locations]
  | _ => rfl

theorem unmoved_frame {a a' : Frame} (h : unmoved.Frames a a') : a' = a := by
  obtain ⟨parent, vars⟩ := a
  obtain ⟨parent', vars'⟩ := a'
  obtain ⟨rfl, hvars⟩ := h
  obtain rfl : vars' = vars :=
    eq_of_forall₂ (fun h => Prod.ext h.name (unmoved_value h.value)) hvars
  rfl

theorem unmoved_store {s s' : Store} (h : unmoved.Stores s s') : s' = s := by
  obtain ⟨frames⟩ := s
  obtain ⟨frames'⟩ := s'
  congr 1
  refine Array.ext_getElem? fun f => ?_
  have same := h.frames f
  unfold Store.frame? at same
  generalize frames[f]? = a at same ⊢
  generalize frames'[f]? = a' at same ⊢
  cases same with
  | none => rfl
  | some ha => rw [unmoved_frame ha]

theorem unmoved_record {a a' : Record} (h : unmoved.Records a a') : a' = a := by
  cases h with
  | limitHit limit h => rw [unmoved_value h]
  | _ => rfl

/-! ## Two logs -/

/-- Two runs of one program of which one has begun with the log `l` and the other with the log
`l'`. -/
def loggedRuns (host : Host) (l l' : Array Record) : Lockstep Unit :=
  unmoved.runs host fun k k' => ∃ added, k = l ++ added ∧ k' = l' ++ added

variable {host : Host} {l l' : Array Record}

theorem loggedRuns_law : (loggedRuns host l l').Law := by
  refine unmoved_lawful.law fun {a a' k k'} same => ?_
  rintro ⟨added, rfl, rfl⟩
  rw [unmoved_record same]
  exact ⟨added.push a, Array.push_append, Array.push_append⟩

theorem logged_outcome {o o' : Outcome} (h : (loggedRuns host l l').OutcomeAlike () o o') :
    o' = o := by
  cases h with
  | normal => rfl
  | returning h =>
    cases h with
    | none => rfl
    | some hv => rw [unmoved_value (Likeness.value_iff.1 hv)]

theorem logged_state {s s' : State} (h : (loggedRuns host l l').StateAlike () s s') :
    ∃ added, s = { s with log := l ++ added } ∧ s' = { s with log := l' ++ added } := by
  obtain ⟨store, nextMark, depth, printed, attempts, readings, log⟩ := s
  obtain ⟨store', nextMark', depth', printed', attempts', readings', log'⟩ := s'
  obtain ⟨hstore, houtput, ⟨added, rfl, rfl⟩, rfl, rfl, rfl, rfl⟩ := h
  obtain rfl : store' = store := unmoved_store hstore
  obtain rfl : printed' = printed := Array.toList_inj.1 (eq_of_forall₂ unmoved_value houtput)
  exact ⟨added, rfl, rfl⟩

/-- Endings that are the same but for what had been noted down before: `l` in the first, `l'` in the
second. -/
inductive Ending.Relogged {α : Type} (l l' : Array Record) : Ending α → Ending α → Prop
  | done (x : α) (t : State) (added : Array Record) :
    Relogged l l' (.done x { t with log := l ++ added }) (.done x { t with log := l' ++ added })
  | failed (e : Failure) (t : State) (added : Array Record) :
    Relogged l l' (.failed e { t with log := l ++ added }) (.failed e { t with log := l' ++ added })
  | outOfFuel : Relogged l l' .outOfFuel .outOfFuel

theorem Ending.Relogged.state? {α : Type} {e e' : Ending α} {t' : State} (h : e.Relogged l l' e')
    (left : e'.state? = some t') : ∃ t, e.state? = some t ∧ t.printed = t'.printed := by
  cases h with
  | done x t added =>
    cases left
    exact ⟨_, rfl, rfl⟩
  | failed f t added =>
    cases left
    exact ⟨_, rfl, rfl⟩
  | outOfFuel => cases left

theorem Ending.Relogged.outOfFuel_iff {α : Type} {e e' : Ending α} (h : e.Relogged l l' e') :
    e = .outOfFuel ↔ e' = .outOfFuel := by
  cases h <;> simp

/-- **What is noted down has no influence.** -/
theorem runAll_relogged (host : Host) (fuel : Nat) (ns : List Node) (f : FrameId) (s : State)
    (l l' : Array Record) :
    (runAll (fun n => execute host fuel n f) ns { s with log := l }).Relogged l l'
      (runAll (fun n => execute host fuel n f) ns { s with log := l' }) := by
  have law : (loggedRuns host l l').Law := loggedRuns_law
  have nodes : List.Forall₂ (fun n n' => (loggedRuns host l l').stmt () n f n' f) ns ns :=
    List.forall₂_same.2 fun _ _ => ⟨rfl, rfl⟩
  have start : (loggedRuns host l l').StateAlike () { s with log := l } { s with log := l' } :=
    ⟨moved_store_refl (fun _ => rfl) _, moved_values_refl (fun _ => rfl) _,
      ⟨#[], Array.append_empty.symm, Array.append_empty.symm⟩, rfl, rfl, rfl, rfl⟩
  have ends : (loggedRuns host l l').Ends () (loggedRuns host l l').OutcomeAlike
      (runAll (fun n => execute host fuel n f) ns { s with log := l })
      (runAll (fun n => execute host fuel n f) ns { s with log := l' }) :=
    Lockstep.runAll_alike law (law.parts fuel).1 nodes _ _ start
  generalize runAll (fun n => execute host fuel n f) ns { s with log := l } = e at ends ⊢
  generalize runAll (fun n => execute host fuel n f) ns { s with log := l' } = e' at ends ⊢
  cases ends with
  | done _ states results =>
    obtain ⟨added, same, same'⟩ := logged_state states
    rw [same, same', logged_outcome results]
    exact .done _ _ added
  | failed _ states failures =>
    obtain ⟨added, same, same'⟩ := logged_state states
    rw [same, same', unmoved_failure failures]
    exact .failed _ _ added
  | outOfFuel => exact .outOfFuel

/-- Exhaustion of the host outside every call is reported alike. -/
theorem Ending.Relogged.outermost {α : Type} {a b : Action α} {s s' : State}
    (h : (a s).Relogged l l' (b s')) : (a.outermost s).Relogged l l' (b.outermost s') := by
  unfold Action.outermost
  generalize a s = e at h ⊢
  generalize b s' = e' at h ⊢
  cases h with
  | done x t added => exact .done x t added
  | failed e t added =>
    cases e with
    | exhausted => exact .failed _ t added
    | _ => exact .failed _ t added
  | outOfFuel => exact .outOfFuel

end LoxLang
