import LoxLang.Proofs.Equality
import LoxLang.Proofs.History
import LoxLang.Proofs.Ledger

/-!
# The identity of functions over a history

A host lets machines work one after the other and hands values from one to another. Over such a
history one ledger lists the functions that the executions of declarations have made, and functions
are equal exactly if they are the same entry.

* `Event`, `Moment`: what a host does, with the states before and after and the value it gets back.
* `History`: the moments up to a state, the last one first. A function that a host passes or binds
  has been bound or returned before.
* `Moment.Follows`: a ledger says what happens at a moment.
* `Ledger.Tells`: a ledger says what has happened in a history and what happens in the next
  operation, and obeys a law; `Ledger.Distinct`, `Ledger.Ruled`: laws of equality.

Results: `History.ledger` — every history has a ledger, by induction on the moments;
`history_identity` — equality is an equivalence on all values, and functions are equal if one
execution of one declaration made them; `history_rule` — where equality goes beyond the rule.
-/

set_option autoImplicit false

namespace LoxLang

/-! ## Histories -/

/-- What a host does: it performs an operation on a machine, binds a value, makes a number of its
own, makes globals for a new machine, or turns to another machine. -/
inductive Event where
  | performed (host : Host) (fuel : Nat) (op : Operation)
  | bound (f : FrameId) (x : String) (v : Value)
  | marked
  | globals (natives : List Native)
  | resumed (depth attempts : Nat) (printed : Array Value)

namespace Event

/-- The values that a host passes or binds. -/
def given : Event → List Value
  | .performed _ _ op => op.given
  | .bound _ _ v => [v]
  | _ => []

/-- The states that an event leads to, with the value that the host gets back. An operation ends
normally or with some failure. -/
inductive Leads : Event → State → State → Option Value → Prop
  | done {host : Host} {fuel : Nat} {op : Operation} {s t : State} {v : Option Value}
    (ends : op.perform (evaluator host fuel) host s = .done v t) :
    Leads (.performed host fuel op) s t v
  | failed {host : Host} {fuel : Nat} {op : Operation} {s t : State} {e : Failure}
    (ends : op.perform (evaluator host fuel) host s = .failed e t) :
    Leads (.performed host fuel op) s t none
  | bound (f : FrameId) (x : String) (v : Value) (s : State) :
    Leads (.bound f x v) s { s with store := s.store.define f x v } none
  | marked (s : State) : Leads .marked s { s with nextMark := s.nextMark + 1 } none
  | globals (natives : List Native) (s : State) :
    Leads (.globals natives) s { s with store := s.store.withGlobals natives } none
  | resumed (depth attempts : Nat) (printed : Array Value) (s : State) :
    Leads (.resumed depth attempts printed) s
      { s with depth := depth, attempts := attempts, printed := printed } none

end Event

/-- An event with the states before and after it and the value that the host gets back. -/
structure Moment where
  before : State
  event : Event
  after : State
  answer : Option Value

/-- The values that a host can have seen after a moment: those that frames bind and the one
returned. -/
def Moment.Shows (m : Moment) (v : Value) : Prop :=
  (∃ f x, (m.after.store.vars f).get? x = some v) ∨ m.answer = some v

/-- A function that a host passes or binds has been shown before. -/
def Event.Known (moments : List Moment) (event : Event) : Prop :=
  ∀ c, .function c ∈ event.given → ∃ m ∈ moments, m.Shows (.function c)

/-- The moments up to a state, the last one first, from a new machine with the given native
functions. -/
inductive History (natives : List Native) : State → List Moment → Prop
  | start : History natives (State.start natives) []
  | next {s t : State} {moments : List Moment} {event : Event} {answer : Option Value}
    (before : History natives s moments) (leads : event.Leads s t answer)
    (known : event.Known moments) :
    History natives t (⟨s, event, t, answer⟩ :: moments)

/-- A ledger says what happens at a moment: the functions that are shown after it have been made by
then, and during an operation functions that are seen or bound have been made by then and each
declaration that is executed makes the next. -/
structure Moment.Follows (made : List Closure) (m : Moment) : Prop where
  shown : ∃ now, now <+: made ∧ m.after.declarations = now.map Closure.declaration ∧
    ∀ c, m.Shows (.function c) → c ∈ now
  observed : ∀ {host fuel op}, m.event = .performed host fuel op →
    op.Observed host fuel m.before (Ledger.Seen made) (Ledger.Declared made)

/-! ## The ledger of a history -/

section Made

variable {made now : List Closure} {event : Event} {s t : State} {answer : Option Value}

theorem State.Made.start (natives : List Native) : (State.start natives).Made [] :=
  ⟨.nil, nofun, Store.Holds.empty.withGlobals fun _ _ => .of_data nofun, rfl⟩

/-- What is shown after a moment is in the ledger of that moment. -/
theorem Moment.Follows.of_made (grown : now <+: made) (ht : t.Made now)
    (hanswer : ∀ v ∈ answer, v.Among now)
    (observed : ∀ {host fuel op}, event = .performed host fuel op →
      op.Observed host fuel s (Ledger.Seen made) (Ledger.Declared made)) :
    Moment.Follows made ⟨s, event, t, answer⟩ := by
  refine ⟨⟨now, grown, ht.noted, ?_⟩, observed⟩
  rintro c (⟨f, x, hc⟩ | hc)
  · exact ht.bound f x _ hc c rfl
  · exact hanswer _ hc c rfl

/-- What a host passes or binds is in the ledger of what has happened before. -/
theorem Event.Known.among {moments : List Moment} (known : event.Known moments)
    (past : ∀ m ∈ moments, m.Follows made) : ∀ v ∈ event.given, v.Among made := by
  rintro v hv c rfl
  obtain ⟨m, hm, shows⟩ := known c hv
  obtain ⟨now, grown, -, members⟩ := (past m hm).shown
  exact grown.subset (members c shows)

/-- A moment from whose end the ledger `later` goes on. -/
def Moment.Extends (made : List Closure) (m : Moment) : Prop :=
  ∃ later, made <+: later ∧ m.after.Made later ∧ ∀ final, later <+: final →
    m.Follows final

/-- An operation, however it ends, extends the ledger. -/
theorem Moment.Extends.of_operation {host : Host} {fuel : Nat} {op : Operation} (hs : s.Made made)
    (known : ∀ v ∈ op.given, v.Among made)
    (left : ∀ later, (op.perform (evaluator host fuel) host s).Makes later
      (fun now r => ∀ v ∈ r, v.Among now) →
        t.Made later ∧ ∀ v ∈ answer, v.Among later) :
    Moment.Extends made ⟨s, .performed host fuel op, t, answer⟩ := by
  obtain ⟨later, grown, ends, observed⟩ := op.makes host fuel known hs
  obtain ⟨ht, hanswer⟩ := left later ends
  refine ⟨later, grown, ht, fun final hfinal => .of_made hfinal ht hanswer ?_⟩
  rintro _ _ _ ⟨⟩
  exact observed final hfinal

/-- Other events leave the ledger as it is. -/
theorem Moment.Extends.of_quiet (quiet : ∀ host fuel op, event ≠ .performed host fuel op)
    (ht : t.Made made) :
    Moment.Extends made ⟨s, event, t, none⟩ :=
  ⟨made, List.prefix_refl _, ht, fun _ hfinal =>
    .of_made hfinal ht nofun fun performed => absurd performed (quiet _ _ _)⟩

/-- An event extends the ledger. -/
theorem Event.Leads.extends (leads : event.Leads s t answer) (hs : s.Made made)
    (known : ∀ v ∈ event.given, v.Among made) :
    Moment.Extends made ⟨s, event, t, answer⟩ := by
  cases leads with
  | done ends =>
    refine .of_operation hs known fun later left => ?_
    rw [ends] at left
    cases left with
    | done ht hanswer => exact ⟨ht, hanswer⟩
  | failed ends =>
    refine .of_operation hs known fun later left => ?_
    rw [ends] at left
    cases left with
    | failed ht => exact ⟨ht, nofun⟩
  | bound f x v => exact .of_quiet nofun (hs.define f x (known v List.mem_cons_self))
  | marked => exact .of_quiet nofun hs.freshMark
  | globals natives => exact .of_quiet nofun (hs.withGlobals natives)
  | resumed => exact .of_quiet nofun (hs.of_eq rfl rfl rfl)

end Made

/-- **Every history has a ledger**, which any later ledger goes on from. -/
theorem History.ledger {natives : List Native} {s : State} {moments : List Moment}
    (h : History natives s moments) :
    ∃ made, s.Made made ∧ ∀ final, made <+: final → ∀ m ∈ moments, m.Follows final := by
  induction h with
  | start => exact ⟨[], .start natives, fun _ _ => List.forall_mem_nil _⟩
  | @next s t moments event answer _ leads known ih =>
    obtain ⟨made, hs, follows⟩ := ih
    have past := follows made (List.prefix_refl _)
    obtain ⟨later, grown, ht, last⟩ := leads.extends hs (known.among past)
    refine ⟨later, ht, fun final hfinal => ?_⟩
    exact List.forall_mem_cons.2 ⟨last final hfinal, follows final (grown.trans hfinal)⟩

/-! ## Equality over a history -/

/-- Functions of a ledger are equal exactly if they are the same entry: they have been made by one
execution of one declaration, and have its name, parameters and body and the frame it was executed
in. -/
def Ledger.Distinct (made : List Closure) : Prop :=
  ∀ i j (hi : i < made.length) (hj : j < made.length),
    (Value.function made[i]).equal (.function made[j]) = true ↔ i = j

/-- Values are equal by the rule, or are the NaN of one mark or alike native functions. -/
def Ledger.Ruled (made : List Closure) : Prop :=
  ∀ a b : Value, a.Among made → b.Among made →
    (a.equal b = true ↔ a.Same b ∨ a.SameNaN b ∨ a.AlikeNatives b)

section Ordered

variable {made : List Closure}

theorem Ledger.Ordered.distinct (h : Ledger.Ordered made) : Ledger.Distinct made := by
  have ordered := List.pairwise_iff_getElem.1 h
  intro i j hi hj
  rw [Value.equal, beq_iff_eq]
  constructor
  · intro hmarks
    rcases Nat.lt_trichotomy i j with hlt | heq | hgt
    · exact absurd hmarks (ordered i j hi hj hlt).ne
    · exact heq
    · exact absurd hmarks (ordered j i hj hi hgt).ne'
  · rintro rfl
    rfl

theorem Ledger.Ordered.ruled (h : Ledger.Ordered made) : Ledger.Ruled made := by
  intro a b ha hb
  refine Value.equal_iff ?_
  rintro f g rfl rfl hmark
  obtain ⟨i, hi, rfl⟩ := List.getElem_of_mem (ha f rfl)
  obtain ⟨j, hj, rfl⟩ := List.getElem_of_mem (hb g rfl)
  obtain rfl := (h.distinct i j hi hj).1 (beq_iff_eq.2 hmark)
  rfl

end Ordered

/-- A ledger that obeys a law tells what has happened up to a state, and whatever operation a host
performs next, whether it ends or not, a ledger that goes on from it and obeys the law tells what
happens then. -/
structure Ledger.Tells (law : List Closure → Prop) (made : List Closure) (s : State)
    (moments : List Moment) : Prop where
  lawful : law made
  noted : s.declarations = made.map Closure.declaration
  past : ∀ m ∈ moments, m.Follows made
  next : ∀ host fuel op, (Event.performed host fuel op).Known moments →
    ∃ later, made <+: later ∧ law later ∧
      op.Observed host fuel s (Ledger.Seen later) (Ledger.Declared later)

/-- A law that the order of marks implies is obeyed over a whole history. -/
theorem History.tells {natives : List Native} {s : State} {moments : List Moment}
    {law : List Closure → Prop} (h : History natives s moments)
    (lawful : ∀ made, Ledger.Ordered made → law made) :
    ∃ made, Ledger.Tells law made s moments := by
  obtain ⟨made, hs, follows⟩ := h.ledger
  have past := follows made (List.prefix_refl _)
  refine ⟨made, lawful made hs.ordered, hs.noted, past, fun host fuel op known => ?_⟩
  obtain ⟨later, grown, ends, observed⟩ := op.makes host fuel (known.among past) hs
  exact ⟨later, grown, lawful later ends.ordered, observed later (List.prefix_refl _)⟩

/-- A new machine that executes the declaration of `f` in two programs. -/
theorem declared_twice :
    ∃ s moments, History builtins s moments ∧ s.declarations = [("f", 0), ("f", 0)] := by
  let host : Host := ⟨0, 200, ⟨1000, 10⟩, fun _ => false, fun _ => 0⟩
  let op : Operation := .interpret [.tree .functionDecl
    [.word (.terminal .identifier) "f" .unknown, .absent, .tree .block [] .unknown] .unknown]
  let after (s : State) : State := { s with
    store := s.store.define 0 "f" (.function ⟨"f", [], [], 0, s.nextMark⟩)
    nextMark := s.nextMark + 1
    log := ((s.log.push (.interpreting 1)).push (.raisedLimit 1000 9000)).push (.declared "f" 0) }
  have accepted : host.refusal? = none := by decide
  have leads (s : State) : (Event.performed host 1 op).Leads s (after s) none :=
    .done (Operation.perform_accepted accepted _ _ s)
  exact ⟨_, _, .next (.next .start (leads _) nofun) (leads _) nofun, rfl⟩

/-- **Equality is an equivalence on the values of a history**, it respects types, and `!=` is its
negation; and functions are equal exactly if they have been made by one execution of one
declaration. -/
theorem history_identity {natives : List Native} {s : State} {moments : List Moment}
    (h : History natives s moments) :
    (Equivalence fun a b : Value => a.equal b = true) ∧
    (∀ a b : Value, a.type ≠ b.type → a.equal b = false) ∧
    (∀ mark a b, applyBinary mark "==" a b = .ok (.bool (a.equal b)) ∧
      applyBinary mark "!=" a b = .ok (.bool (!a.equal b))) ∧
    ∃ made, Ledger.Tells Ledger.Distinct made s moments := by
  refine ⟨⟨Value.equal_refl, Value.equal_symm, Value.equal_trans⟩,
    fun a b different => ?_, ?_, ?_⟩
  · exact Bool.eq_false_iff.2 fun equal => different (Value.type_eq_of_equal equal)
  · exact fun _ _ _ => ⟨rfl, rfl⟩
  · exact h.tells fun _ ordered => ordered.distinct

/-- The two executions of the declaration of `f` make different functions. -/
theorem history_identity_twice : ∃ s moments made, History builtins s moments ∧
    Ledger.Tells Ledger.Distinct made s moments ∧
      made.map Closure.declaration = [("f", 0), ("f", 0)] := by
  obtain ⟨s, moments, h, noted⟩ := declared_twice
  obtain ⟨-, -, -, made, tells⟩ := history_identity h
  exact ⟨s, moments, made, h, tells, tells.noted.symm.trans noted⟩

/-- **Equality over a history is the rule but for two things.** Native functions are equal if they
share their name and their number of arguments, and NaNs if they have the same mark: numbers that
different computations have made are equal by their values, or as NaNs of two divisions by zero. -/
theorem history_rule {natives : List Native} {s : State} {moments : List Moment}
    (h : History natives s moments) :
    (∃ made, Ledger.Tells Ledger.Ruled made s moments) ∧
    ∀ i j p q (a b : Number), a.Computed i p → b.Computed j q → i ≠ j →
      i ≠ Number.divisionMark → j ≠ Number.divisionMark →
      (a.equal b = true ↔ (∃ v, a.value? = some v ∧ b.value? = some v) ∨
        p = true ∧ q = true ∧ a.value? = none ∧ b.value? = none) :=
  ⟨h.tells fun _ ordered => ordered.ruled, fun _ _ _ _ _ _ ha hb => ha.equal_iff hb⟩

/-- The same machine, and two quotients of zero and zero. -/
theorem history_rule_twice : ∃ s moments made, History builtins s moments ∧
    Ledger.Tells Ledger.Ruled made s moments ∧
      made.map Closure.declaration = [("f", 0), ("f", 0)] ∧
    (Number.div 2 (.ofFloat 1 0) (.ofFloat 1 0)).equal
      (Number.div 3 (.ofFloat 1 0) (.ofFloat 1 0)) = true := by
  obtain ⟨s, moments, h, noted⟩ := declared_twice
  obtain ⟨⟨made, tells⟩, numbers⟩ := history_rule h
  refine ⟨s, moments, made, h, tells, tells.noted.symm.trans noted, ?_⟩
  have quotient (mark : ℕ) :
      applyBinary mark "/" (.number (.ofFloat 1 0)) (.number (.ofFloat 1 0)) =
        .ok (.number (Number.div mark (.ofFloat 1 0) (.ofFloat 1 0))) := rfl
  refine (numbers 2 3 _ _ _ _ (.binary (quotient 2)) (.binary (quotient 3)) (by decide) (by decide)
    (by decide)).2 (.inr ?_)
  decide +kernel

/-- Native functions that do different things are equal, and so are the quotients of `0 / 0` and
`0 / 0`, though neither are the same. -/
theorem equal_not_same :
    let f : Value := .native ⟨"f", 0, .nothing⟩
    let g : Value := .native ⟨"f", 0, .fail⟩
    let zero : Value := .number (.ofFloat 1 0)
    (f.equal g = true ∧ ¬f.Same g) ∧ ∃ a b, applyBinary 2 "/" zero zero = .ok a ∧
      applyBinary 3 "/" zero zero = .ok b ∧ a.equal b = true ∧ ¬a.Same b := by
  intro f g zero
  refine ⟨⟨by decide, ?_⟩, _, _, rfl, rfl, by decide +kernel, ?_⟩
  · rintro ⟨⟩
  · rintro ⟨v, hv, -⟩
    have quotient : (Number.div 2 (.ofFloat 1 0) (.ofFloat 1 0)).value? = none := by decide +kernel
    rw [quotient] at hv
    cases hv

end LoxLang
