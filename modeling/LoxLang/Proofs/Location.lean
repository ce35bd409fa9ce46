import LoxLang.Proofs.Exhaustion
import LoxLang.Proofs.Place
import LoxLang.Proofs.Safety
import LoxLang.Proofs.Termination

/-!
# Where errors are reported

A fault gets the location of the innermost node under way whose line is known. In a run of source
texts that node is one that raises faults itself, because no statement does, and a fault of a call
is one of the node that made it. This needs an invariant of the store: the bodies of functions are
parts of the texts that have been run.

* `Ending.PointsInward`: a fault at the innermost node whose line is known.
* `State.RunBy`: the states after runs of given texts.
* `Failure.Points`, `Failure.MayPoint`: a fault at a location of a kind, and one that may have no
  location yet.
* `Action.Keeps`: an action that keeps the functions of the store, and fails in such a way.

Results: `expression_keeps`, `statement_keeps` — one node; `evaluators_keep` — runs, by
induction on the fuel; `run_keeps` — runs of texts.
-/

set_option autoImplicit false

namespace LoxLang

open Active (location?)

variable {α β : Type}

/-- A fault is at the location of the innermost node under way whose line is known, and has no
location only if there is none. -/
def Ending.PointsInward (ending : Ending α) (result : Traced.Result α) : Prop :=
  ∀ cause location t, ending = .failed (.fault cause location) t →
    ∃ active, result.fault? = some (cause, active) ∧ location = location? active ∧
      (location = none ↔ ∀ n, .node n ∈ active → n.place.location? = none)

/-- The states after runs of some texts, the last one first, however they ended. In the beginning no
call is active, and no function has been declared. -/
inductive State.RunBy : List String → State → Prop
  | start {s : State} (depth : s.depth = 0) (store : s.store.Holds fun v =>
    ∀ c, v ≠ .function c) : RunBy [] s
  | after {s t : State} {host : Host} {fuel : Nat} {source : String} {sources : List String}
    {ending : Ending Outcome} (before : RunBy sources s) (h : run host fuel source s = .ok ending)
    (left : ending.state? = some t) : RunBy (source :: sources) t

/-! ## Actions -/

/-- A fault at a location of a kind. -/
def Failure.Points (L : Location → Prop) : Failure → Prop
  | .fault _ location => ∃ l, location = some l ∧ L l
  | _ => True

/-- A fault at a location of a kind, or without a location. -/
def Failure.MayPoint (L : Location → Prop) : Failure → Prop
  | .fault _ location => ∀ l, location = some l → L l
  | _ => True

theorem Failure.Points.may {L : Location → Prop} {e : Failure} (h : e.Points L) :
    e.MayPoint L := by
  cases e with
  | fault cause location =>
    obtain ⟨l, rfl, hl⟩ := h
    rintro l' ⟨⟩
    exact hl
  | _ => trivial

/-- A function whose body consists of statements that have their locations among those of a kind. -/
def Value.Marks (L : Location → Prop) (v : Value) : Prop :=
  ∀ c, v = .function c → ∀ n ∈ c.body, n.Is false .item ∧ n.Marks L

/-- The values that a statement may return. -/
def Outcome.Marks (L : Location → Prop) : Outcome → Prop
  | .normal => True
  | .returning v => ∀ x ∈ v, x.Marks L

/-- Functions of the right kind in the store, a result of one kind, or a failure of another. -/
inductive Ending.Keeps (L : Location → Prop) (E : Failure → Prop) (V : α → Prop) :
    Ending α → Prop
  | done {x : α} {t : State} (store : t.store.Holds (Value.Marks L)) (hx : V x) :
    Keeps L E V (.done x t)
  | failed {e : Failure} {t : State} (store : t.store.Holds (Value.Marks L)) (he : E e) :
    Keeps L E V (.failed e t)
  | outOfFuel : Keeps L E V .outOfFuel

/-- An action that keeps the functions of the store. -/
def Action.Keeps (L : Location → Prop) (E : Failure → Prop) (V : α → Prop) (a : Action α) :
    Prop :=
  ∀ s, s.store.Holds (Value.Marks L) → (a s).Keeps L E V

namespace Action.Keeps

variable {L : Location → Prop} {E : Failure → Prop} {V : α → Prop} {W : β → Prop}
    {a : Action α}

/-- A fault at a location is one that may have a location. -/
theorem may (h : a.Keeps L (Failure.Points L) V) : a.Keeps L (Failure.MayPoint L) V := by
  intro s hs
  have ends := h s hs
  generalize a s = ending at ends ⊢
  cases ends with
  | done store hx => exact .done store hx
  | failed store he => exact .failed store he.may
  | outOfFuel => exact .outOfFuel

theorem pure {x : α} (hx : V x) : (Pure.pure x : Action α).Keeps L E V := fun _ hs => .done hs hx

theorem fail {e : Failure} (he : E e) : (Action.fail e : Action α).Keeps L E V :=
  fun _ hs => .failed hs he

theorem starve : (Action.starve : Action α).Keeps L E V := fun _ _ => .outOfFuel

theorem bind {k : α → Action β} (h : a.Keeps L E V) (hk : ∀ x, V x → (k x).Keeps L E W) :
    (a >>= k).Keeps L E W := by
  intro s hs
  have first := h s hs
  rw [Action.bind_apply]
  generalize a s = ending at first ⊢
  cases first with
  | done store hx => exact hk _ hx _ store
  | failed store he => exact .failed store he
  | outOfFuel => exact .outOfFuel

/-- A fault that has a location keeps it. -/
theorem locate (place : Place) (h : a.Keeps L (Failure.Points L) V) :
    (a.locate place).Keeps L (Failure.Points L) V := by
  intro s hs
  have ends := h s hs
  unfold Action.locate
  generalize a s = ending at ends ⊢
  cases ends with
  | done store hx => exact .done store hx
  | @failed e t store he =>
    refine .failed store ?_
    cases e with
    | fault cause location =>
      obtain ⟨l, rfl, hl⟩ := he
      exact ⟨l, rfl, hl⟩
    | _ => trivial
  | outOfFuel => exact .outOfFuel

/-- A fault that has none yet gets that of the node. -/
theorem locate_at {place : Place} {l : Location} (hplace : place.location? = some l) (hl : L l)
    (h : a.Keeps L (Failure.MayPoint L) V) : (a.locate place).Keeps L (Failure.Points L) V := by
  intro s hs
  have ends := h s hs
  unfold Action.locate
  generalize a s = ending at ends ⊢
  cases ends with
  | done store hx => exact .done store hx
  | @failed e t store he =>
    refine .failed store ?_
    cases e with
    | fault cause location =>
      cases location with
      | none => exact ⟨l, hplace, hl⟩
      | some l' => exact ⟨l', rfl, he l' rfl⟩
    | _ => trivial
  | outOfFuel => exact .outOfFuel

theorem nested (h : a.Keeps L (Failure.MayPoint L) V) :
    a.nested.Keeps L (Failure.MayPoint L) V := by
  intro s hs
  have ends := h { s with depth := s.depth + 1 } hs
  unfold Action.nested
  generalize a { s with depth := s.depth + 1 } = ending at ends ⊢
  cases ends with
  | done store hx => exact .done store hx
  | @failed e t store he =>
    cases e with
    | exhausted => exact .failed store nofun
    | _ => exact .failed store he
  | outOfFuel => exact .outOfFuel

/-! ### Primitive actions -/

theorem raise (cause : Fault) : (Action.raise cause : Action α).Keeps L (Failure.MayPoint L) V :=
  fail nofun

theorem ofExcept {r : Except Fault α} (h : ∀ x, r = .ok x → V x) :
    (Action.ofExcept r).Keeps L (Failure.MayPoint L) V := by
  cases r with
  | ok x => exact pure (h x rfl)
  | error cause => exact raise cause

theorem lookup (f : FrameId) (x : String) :
    (Action.lookup f x).Keeps L (Failure.MayPoint L) (Value.Marks L) := by
  intro s hs
  unfold Action.lookup
  cases hv : s.store.get? f x with
  | none => exact .failed hs nofun
  | some v => exact .done hs (hs.get? hv)

theorem assign (f : FrameId) (x : String) {v : Value} (hv : v.Marks L) :
    (Action.assign f x v).Keeps L (Failure.MayPoint L) fun _ => True := by
  intro s hs
  unfold Action.assign
  cases s.store.resolve f x with
  | none => exact .failed hs nofun
  | some owner => exact .done (hs.define owner x hv) trivial

theorem define (f : FrameId) (x : String) {v : Value} (hv : v.Marks L) :
    (Action.define f x v).Keeps L E fun _ => True := fun _ hs => .done (hs.define f x hv) trivial

theorem defineAll (f : FrameId) {b : Bindings} (hb : ∀ p ∈ b, p.2.Marks L) :
    (Action.defineAll f b).Keeps L E fun _ => True := fun _ hs => .done (hs.defineAll f hb) trivial

theorem enterFrame (f : FrameId) : (Action.enterFrame f).Keeps L E fun _ => True :=
  fun _ hs => .done (hs.child f) trivial

theorem freshMark : Action.freshMark.Keeps L E fun _ => True := fun _ hs => .done hs trivial

theorem record (r : Record) : (Action.record r).Keeps L E fun _ => True :=
  fun _ hs => .done hs trivial

theorem raiseLimit (host : Host) :
    (Action.raiseLimit host).Keeps L (Failure.Points L) fun _ => True := by
  unfold Action.raiseLimit
  split
  · rename_i refused
    rcases Host.refusal?_cases refused with rfl | ⟨reason, rfl⟩
    · exact fun _ hs => .failed hs trivial
    · exact fun _ hs => .failed hs trivial
  · exact record _

theorem readClock (host : Host) : (Action.readClock host).Keeps L E fun _ => True :=
  fun _ hs => .done hs trivial

theorem activeCalls : Action.activeCalls.Keeps L E fun _ => True := fun _ hs => .done hs trivial

theorem print (host : Host) (v : Value) :
    (Action.print host v).Keeps L (Failure.Points L) fun _ => True := by
  intro s hs
  unfold Action.print
  simp only
  split
  · exact .failed hs trivial
  · exact .done hs trivial

/-! ### Lists and loops -/

theorem runAll {run : Node → Action Outcome} {ns : List Node}
    (h : ∀ n ∈ ns, (run n).Keeps L E (Outcome.Marks L)) :
    (LoxLang.runAll run ns).Keeps L E (Outcome.Marks L) := by
  induction ns with
  | nil => exact pure trivial
  | cons n ns ih =>
    obtain ⟨head, rest⟩ := List.forall_mem_cons.1 h
    refine head.bind fun outcome ho => ?_
    cases outcome with
    | normal => exact ih rest
    | returning v => exact pure ho

theorem evaluateAll {eval : Node → Action Value} {ns : List Node}
    (h : ∀ n ∈ ns, (eval n).Keeps L E (Value.Marks L)) :
    (LoxLang.evaluateAll eval ns).Keeps L E fun vs => ∀ v ∈ vs, v.Marks L := by
  induction ns with
  | nil => exact pure nofun
  | cons n ns ih =>
    obtain ⟨head, rest⟩ := List.forall_mem_cons.1 h
    refine head.bind fun v hv => (ih rest).bind fun vs hvs => ?_
    exact pure (List.forall_mem_cons.2 ⟨hv, hvs⟩)

theorem repeatWhile {test : Action Value} {body : Action Outcome}
    (htest : test.Keeps L E (Value.Marks L)) (hbody : body.Keeps L E (Outcome.Marks L))
    (fuel : Nat) :
    (LoxLang.repeatWhile test body fuel).Keeps L E (Outcome.Marks L) := by
  induction fuel with
  | zero => exact starve
  | succ fuel ih =>
    refine htest.bind fun v _ => ?_
    split
    · refine hbody.bind fun outcome ho => ?_
      cases outcome with
      | normal => exact ih
      | returning v => exact pure ho
    · exact pure trivial

end Action.Keeps

theorem Value.marks_of_data {L : Location → Prop} {v : Value} (data : ∀ c, v ≠ .function c) :
    v.Marks L :=
  fun c hc => absurd hc (data c)

/-! ## Nodes and calls -/

section Nodes

variable {L : Location → Prop} {host : Host}

/-- Statements that have the right shape and locations are run as they should. -/
def RunsKeep (L : Location → Prop) (run : Node → FrameId → Action Outcome) : Prop :=
  ∀ n f, n.Is false .item → n.Marks L → (run n f).Keeps L (Failure.Points L) (Outcome.Marks L)

/-- The same for expressions. -/
def EvaluationsKeep (L : Location → Prop) (eval : Node → FrameId → Action Value) : Prop :=
  ∀ n f, n.Is false .expression → n.Marks L →
    (eval n f).Keeps L (Failure.Points L) (Value.Marks L)

/-- The same for calls, whose faults may have no location yet. -/
def CallsKeep (L : Location → Prop) (call : Value → List Value → Action (Option Value)) :
    Prop :=
  ∀ callee args, callee.Marks L → (∀ v ∈ args, v.Marks L) →
    (call callee args).Keeps L (Failure.MayPoint L) fun r => ∀ v ∈ r, v.Marks L

variable {run : Node → FrameId → Action Outcome} {eval : Node → FrameId → Action Value}
variable {call : Value → List Value → Action (Option Value)}

/-- A statement raises no faults of its own. -/
theorem statement_keeps (hrun : RunsKeep L run) (heval : EvaluationsKeep L eval) {n : Node}
    (fuel : Nat) (f : FrameId) (h : n.Is false .item) (marks : n.Marks L) :
    (n.statement.run host fuel run eval f).Keeps L (Failure.Points L) (Outcome.Marks L) := by
  have part {m : Node} (hm : m ∈ n.parts) : m.Marks L := marks.part hm
  generalize hrole : Role.item = r at h
  cases h with
  | expressionStmt _ hvalue =>
    exact (heval _ f hvalue (part (.head _))).bind fun _ _ => .pure trivial
  | printStmt _ hvalue =>
    refine (heval _ f hvalue (part (.head _))).bind fun v _ => ?_
    exact (Action.Keeps.print host v).bind fun _ _ => .pure trivial
  | @returnStmt _ value place _ hvalue =>
    show (Statement.run host fuel run eval f (.result value.present?)).Keeps L _ _
    cases hv : value.present? with
    | none => exact .pure nofun
    | some e =>
      cases Node.present?_eq hv
      refine (heval _ f (hvalue _ hv) (part (.head _))).bind fun v hv => .pure ?_
      rintro x ⟨⟩
      exact hv
  | block _ hitems =>
    refine (Action.Keeps.enterFrame f).bind fun inner _ => ?_
    exact .runAll fun m hm => hrun m inner (hitems m hm) (part hm)
  | @ifStmt _ test yes no place _ htest hyes hno =>
    show (Statement.run host fuel run eval f (.branch test yes no.present?)).Keeps L _ _
    refine (heval test f htest (part (.head _))).bind fun v _ => ?_
    split
    · exact hrun yes f hyes.item_of_statement (part (.tail _ (.head _)))
    · cases hn : no.present? with
      | none => exact .pure trivial
      | some e =>
        cases Node.present?_eq hn
        exact hrun no f (hno no hn).item_of_statement (part (.tail _ (.tail _ (.head _))))
  | whileStmt _ htest hbody =>
    refine .repeatWhile (heval _ f htest (part (.head _))) ?_ fuel
    exact hrun _ f hbody.item_of_statement (part (.tail _ (.head _)))
  | forStmt _ allowed => cases allowed
  | @variableDecl _ name value place _ _ hvalue =>
    show (Statement.run host fuel run eval f (.declare name.plainText value.present?)).Keeps L _ _
    cases hv : value.present? with
    | none =>
      have nil : Value.nil.Marks L := Value.marks_of_data nofun
      exact (Action.Keeps.define f _ nil).bind fun _ _ => .pure trivial
    | some e =>
      cases Node.present?_eq hv
      refine (heval _ f (hvalue _ hv) (part (.tail _ (.head _)))).bind fun v hv => ?_
      exact (Action.Keeps.define f _ hv).bind fun _ _ => .pure trivial
  | @functionDecl name params names items p place hname list hnames hitems =>
    obtain ⟨x, params', form⟩ := functionDecl_statement hname list hnames items p place
    rw [form]
    have body : (Node.tree .block items p).Marks L := part (.tail _ (.tail _ (.head _)))
    refine Action.Keeps.freshMark.bind fun mark _ => ?_
    have fn : (Value.function ⟨x, params', items, f, mark⟩).Marks L := by
      rintro c ⟨⟩ m hm
      exact ⟨hitems m hm, body.part hm⟩
    refine (Action.Keeps.define f x fn).bind fun _ _ => ?_
    exact (Action.Keeps.record _).bind fun _ _ => .pure trivial
  | _ => cases hrole

/-- A logical operator that is known. -/
theorem evaluate_logical {op : String} {o : Logical} (h : Logical.ofText? op = some o) {f : FrameId}
    {left right : Node} :
    Expression.evaluate eval call f (.logical left op right) =
      eval left f >>= fun a => if o.decidedBy a then pure a else eval right f := by
  simp only [Expression.evaluate, h]

/-- An expression whose faults are all at a location: either it raises none of its own, or it has a
location. -/
theorem expression_keeps (heval : EvaluationsKeep L eval) (hcall : CallsKeep L call) {n : Node}
    (f : FrameId) (h : n.Is false .expression) (marks : n.Marks L) :
    (Action.locate n.place (n.expression.evaluate eval call f)).Keeps L (Failure.Points L)
      (Value.Marks L) := by
  have part {m : Node} (hm : m ∈ n.parts) : m.Marks L := marks.part hm
  -- operands give values; their faults have a location already
  have operand {m : Node} (hm : m ∈ n.parts) (h : m.Is false .expression) :
      (eval m f).Keeps L (Failure.MayPoint L) (Value.Marks L) :=
    (heval m f h (part hm)).may
  have raising (label : n.Raises)
      (h : (n.expression.evaluate eval call f).Keeps L (Failure.MayPoint L) (Value.Marks L)) :
      (Action.locate n.place (n.expression.evaluate eval call f)).Keeps L (Failure.Points L)
        (Value.Marks L) := by
    obtain ⟨l, hplace, hl⟩ := marks n (.here n) label
    exact .locate_at hplace hl h
  generalize hrole : Role.expression = r at h
  cases h with
  | @number text place readable =>
    obtain ⟨x, hx⟩ := Option.isSome_iff_exists.1 readable
    have form : (Node.word (.terminal .number) text place).expression = .number x := by
      simp [Node.expression, wordExpression, hx]
    rw [form]
    refine .locate _ (Action.Keeps.freshMark.bind fun _ _ => ?_)
    exact .pure (Value.marks_of_data fun _ h => by cases h)
  | string => exact .locate _ (.pure (Value.marks_of_data fun _ h => by cases h))
  | literal h =>
    simp only [List.mem_cons, List.not_mem_nil, or_false] at h
    rcases h with rfl | rfl | rfl <;>
      exact .locate _ (.pure (Value.marks_of_data fun _ h => by cases h))
  | reference => exact raising ⟨_, rfl, rfl⟩ (.lookup f _)
  | assign _ hvalue =>
    refine raising ⟨_, rfl, rfl⟩ ((operand (.tail _ (.head _)) hvalue).bind fun v hv => ?_)
    exact (Action.Keeps.assign f _ hv).bind fun _ _ => .pure hv
  | grouping hinner => exact .locate _ (heval _ f hinner (part (.head _)))
  | unary _ hoperand =>
    refine raising ⟨_, rfl, rfl⟩ ((operand (.tail _ (.head _)) hoperand).bind fun v _ => ?_)
    refine Action.Keeps.freshMark.bind fun mark _ => .ofExcept fun r hr => ?_
    exact Value.marks_of_data (applyUnary_data hr)
  | binary _ hleft hright =>
    refine raising ⟨_, rfl, rfl⟩ ((operand (.head _) hleft).bind fun a _ => ?_)
    refine (operand (.tail _ (.tail _ (.head _))) hright).bind fun b _ => ?_
    refine Action.Keeps.freshMark.bind fun mark _ => .ofExcept fun r hr => ?_
    exact Value.marks_of_data (applyBinary_data hr)
  | @logical left right kind op p place known hleft hright =>
    obtain ⟨o, ho⟩ := Option.isSome_iff_exists.1 known
    refine .locate _ ?_
    show (Expression.evaluate eval call f (.logical left op right)).Keeps L _ _
    rw [evaluate_logical ho]
    refine (heval left f hleft (part (.head _))).bind fun a ha => ?_
    split
    · exact .pure ha
    · exact heval right f hright (part (.tail _ (.tail _ (.head _))))
  | @call callee arguments items place hcallee list hitems =>
    have hparts : arguments.parts = items := by
      rcases list with ⟨rfl, rfl⟩ | ⟨place, rfl⟩ <;> rfl
    have hargs : arguments.Marks L := part (.tail _ (.head _))
    refine raising ⟨_, rfl, rfl⟩ ((operand (.head _) hcallee).bind fun c hc => ?_)
    have evaluated : (LoxLang.evaluateAll (fun n => eval n f) arguments.parts).Keeps L
        (Failure.MayPoint L) fun vs => ∀ v ∈ vs, v.Marks L := by
      refine .evaluateAll fun a ha => (heval a f (hitems a ?_) (hargs.part ha)).may
      rwa [← hparts]
    refine evaluated.bind fun args hargs => ?_
    refine (hcall c args hc hargs).bind fun r hr => .pure ?_
    cases r with
    | none => exact Value.marks_of_data fun _ h => by cases h
    | some v => exact hr v rfl
  | expressionStmt hne => exact absurd hrole.symm hne
  | printStmt hr | returnStmt hr | block hr | ifStmt hr | whileStmt hr | forStmt hr =>
    exact absurd hrole.symm hr.ne
  | variableDecl hr => rcases hr with rfl | rfl <;> cases hrole
  | functionDecl => cases hrole

theorem native_keeps (hcall : CallsKeep L call) (kind : NativeKind) {args : List Value}
    (hargs : ∀ v ∈ args, v.Marks L) :
    (kind.run host call args).Keeps L (Failure.MayPoint L) fun r => ∀ v ∈ r, v.Marks L := by
  have number (x : Number) : ∀ v ∈ some (Value.number x), v.Marks L := by
    rintro v ⟨⟩
    exact Value.marks_of_data nofun
  cases kind with
  | clock =>
    refine (Action.Keeps.readClock host).bind fun x _ => ?_
    exact Action.Keeps.freshMark.bind fun mark _ => .pure (number _)
  | echo => exact .pure fun v hv => hargs v (List.mem_of_mem_head? hv)
  | nothing => exact .pure nofun
  | depth => exact Action.Keeps.activeCalls.bind fun _ _ => .pure (number _)
  | apply =>
    cases args with
    | nil => exact .fail trivial
    | cons callee args =>
      obtain ⟨hcallee, hargs⟩ := List.forall_mem_cons.1 hargs
      exact hcall callee args hcallee hargs
  | exhaust => exact .fail trivial
  | fail => exact .raise _

theorem invokeWith_keeps (hrun : RunsKeep L run) (hcall : CallsKeep L call) :
    CallsKeep L (invokeWith host run call) := by
  intro callee args hcallee hargs
  cases callee with
  | native n => exact native_keeps hcall n.kind hargs
  | function fn =>
    refine (Action.Keeps.enterFrame fn.frame).bind fun inner _ => ?_
    refine (Action.Keeps.defineAll inner fun p hp => hargs p.2 (List.of_mem_zip hp).2).bind
      fun _ _ => ?_
    have body : (LoxLang.runAll (fun n => run n inner) fn.body).Keeps L (Failure.Points L)
        (Outcome.Marks L) :=
      .runAll fun m hm => hrun m inner (hcallee fn rfl m hm).1 (hcallee fn rfl m hm).2
    refine body.may.bind fun outcome ho => ?_
    cases outcome with
    | normal => exact .pure nofun
    | returning v => exact .pure ho
  | _ => exact .raise _

theorem callWith_keeps {invoke : Value → List Value → Action (Option Value)}
    (h : CallsKeep L invoke) :
    CallsKeep L (callWith host invoke) := by
  intro callee args hcallee hargs
  rw [callWith_eq]
  split
  · exact .raise _
  · split
    · exact .raise _
    · refine Action.Keeps.activeCalls.bind fun depth _ => ?_
      unfold Action.limited
      split
      · exact (Action.Keeps.record _).bind fun _ _ => .raise _
      · exact (h callee args hcallee hargs).nested

/-- **Runs keep the functions of the store, and their faults have locations.** -/
theorem evaluators_keep (L : Location → Prop) (host : Host) (fuel : Nat) :
    RunsKeep L (execute host fuel) ∧ EvaluationsKeep L (evaluate host fuel) ∧
      CallsKeep L (invoke host fuel) ∧ CallsKeep L (LoxLang.call host fuel) := by
  induction fuel with
  | zero =>
    exact ⟨fun _ _ _ _ => .starve, fun _ _ _ _ => .starve, fun _ _ _ _ => .starve,
      fun _ _ _ _ => .starve⟩
  | succ fuel ih =>
    obtain ⟨hrun, heval, hinvoke, hcall⟩ := ih
    refine ⟨fun n f h marks => ?_, fun n f h marks => ?_, fun callee args hcallee hargs => ?_,
      fun callee args hcallee hargs => ?_⟩
    · rw [execute]
      exact .locate _ (statement_keeps hrun heval fuel f h marks)
    · rw [evaluate]
      exact expression_keeps heval hcall f h marks
    · rw [invoke]
      exact invokeWith_keeps hrun hcall callee args hcallee hargs
    · rw [LoxLang.call]
      exact callWith_keeps hinvoke callee args hcallee hargs

end Nodes

/-! ## Runs of texts -/

theorem Value.Marks.mono {L M : Location → Prop} (h : ∀ l, L l → M l) {v : Value}
    (hv : v.Marks L) :
    v.Marks M := by
  intro c hc n hn
  obtain ⟨shape, marks⟩ := hv c hc n hn
  exact ⟨shape, marks.mono h⟩

/-- The store that is left, if the action ends. -/
theorem Ending.Keeps.store {L : Location → Prop} {E : Failure → Prop} {V : α → Prop}
    {ending : Ending α}
    (h : ending.Keeps L E V) {t : State} (left : ending.state? = some t) :
    t.store.Holds (Value.Marks L) := by
  cases h with
  | done store =>
    cases left
    exact store
  | failed store =>
    cases left
    exact store
  | outOfFuel => cases left

/-- Exhaustion that is reported outside every call is the only fault without a location. -/
theorem Action.Keeps.outermost {L : Location → Prop} {V : α → Prop} {a : Action α} {s : State}
    (h : a.Keeps L (Failure.Points L) V) (hs : s.store.Holds (Value.Marks L)) :
    (a.outermost s).Keeps L (fun _ => True) V ∧
      ∀ cause location t, a.outermost s = .failed (.fault cause location) t →
        cause = .hostExhausted t.depth ∨ ∃ l, location = some l ∧ L l := by
  have keeps := h s hs
  rcases outermost_cases a s with ⟨u, failed, out⟩ | ⟨out, -⟩
  · rw [failed] at keeps
    rw [out]
    refine ⟨.failed (keeps.store rfl) trivial, ?_⟩
    rintro cause location t ⟨⟩
    exact .inl rfl
  · rw [out]
    generalize a s = ending at keeps ⊢
    cases keeps with
    | done store hx => exact ⟨.done store hx, fun _ _ _ h => by cases h⟩
    | failed store points =>
      refine ⟨.failed store trivial, ?_⟩
      rintro cause location t ⟨⟩
      exact .inr points
    | outOfFuel => exact ⟨.outOfFuel, fun _ _ _ h => by cases h⟩

theorem interpret_keeps {L : Location → Prop} (host : Host) (fuel : Nat) {program : List Node}
    {s t : State}
    (hprogram : ∀ n ∈ program, n.Is false .item ∧ n.Marks L)
    (hs : s.store.Holds (Value.Marks L)) (left : (interpret host fuel program s).state? = some t) :
    t.depth = s.depth ∧ t.store.Holds (Value.Marks L) ∧
      ∀ cause location, interpret host fuel program s = .failed (.fault cause location) t →
        cause = .hostExhausted s.depth ∨ ∃ l, location = some l ∧ L l := by
  have balanced := ((interpret_onward host fuel program).ends left).depth
  have each : ∀ n ∈ program,
      (execute host fuel n host.globals).Keeps L (Failure.Points L) (Outcome.Marks L) := fun n hn =>
    (evaluators_keep L host fuel).1 n host.globals (hprogram n hn).1 (hprogram n hn).2
  obtain ⟨keeps, points⟩ :=
    ((Action.Keeps.record (.interpreting program.length)).bind fun _ _ =>
    (Action.Keeps.raiseLimit host).bind fun _ _ => .runAll each).outermost hs
  refine ⟨balanced, keeps.store left, fun cause location ends => ?_⟩
  rw [← balanced]
  exact points cause location t ends

/-- A text is run with its own marks and those of the texts before it. -/
theorem run_keeps {host : Host} {fuel : Nat} {source : String} {sources : List String} {s t : State}
    {ending : Ending Outcome} (hs : s.store.Holds (Value.Marks (Marked sources)))
    (h : run host fuel source s = .ok ending) (left : ending.state? = some t) :
    t.depth = s.depth ∧ t.store.Holds (Value.Marks (Marked (source :: sources))) ∧
      ∀ cause location, ending = .failed (.fault cause location) t →
        cause = .hostExhausted s.depth ∨
          ∃ l, location = some l ∧ Marked (source :: sources) l := by
  cases hparse : parse source with
  | error e =>
    unfold run at h
    rw [hparse] at h
    cases h
  | ok program =>
    rw [run_eq host fuel s hparse] at h
    cases h
    have marks : ∀ n ∈ program.parts, n.Marks (Marked (source :: sources)) :=
      parse_marks hparse List.mem_cons_self
    refine interpret_keeps host fuel (fun n hn => ⟨parse_shape hparse n hn, marks n hn⟩) ?_ left
    intro f x v hv
    exact (hs f x v hv).mono fun l => Marked.mono fun _ => List.mem_cons_of_mem source

theorem State.RunBy.keeps {sources : List String} {s : State} (h : s.RunBy sources) :
    s.depth = 0 ∧ s.store.Holds (Value.Marks (Marked sources)) := by
  induction h with
  | start depth store => exact ⟨depth, fun f x v hv => Value.marks_of_data (store f x v hv)⟩
  | after _ h left ih =>
    obtain ⟨balanced, store, -⟩ := run_keeps ih.2 h left
    exact ⟨balanced.trans ih.1, store⟩

/-! ## Locations -/

/-- What a trace tells about a fault is that it points inward. -/
theorem Told.pointsInward {s : State} {ending : Ending α} {result : Traced.Result α}
    (h : Told s [] ending result) : ending.PointsInward result := by
  rintro cause location t rfl
  obtain ⟨active, fault, rfl⟩ := h.fault
  exact ⟨active, fault, rfl, Active.location?_eq_none_iff active⟩

theorem interpret_pointsInward (host : Host) (fuel : Nat) (program : List Node) (s : State) :
    (interpret host fuel program s).PointsInward
      (Manner.traced.interpret host fuel program [] s) := by
  intro cause location t ends
  obtain ⟨active, fault, rfl⟩ := interpret_fault host fuel s ends
  exact ⟨active, fault, rfl, Active.location?_eq_none_iff active⟩

/-- **The innermost node whose line is known tells where an error is.** For all nodes, however they
were made, and for programs, statements, expressions and calls: the location of a fault is that of
the first node with a known line among those under way when it was raised, the innermost first, and
is absent only if none of them has one. So every fault in a run of source texts, unless the host was
exhausted while no call was active, has the line and the column of a variable, an assignment, an
operator or a call in one of them. -/
theorem innermost_line_reported (host : Host) (fuel : Nat) :
    (∀ program s, (interpret host fuel program s).PointsInward
      (Manner.traced.interpret host fuel program [] s)) ∧
    (∀ n f s, (execute host fuel n f s).PointsInward
      (Manner.traced.execute host fuel n f [] s)) ∧
    (∀ n f s, (evaluate host fuel n f s).PointsInward
      (Manner.traced.evaluate host fuel n f [] s)) ∧
    (∀ callee args s, (call host fuel callee args s).PointsInward
      (Manner.traced.call host fuel callee args [] s)) ∧
    ∀ sources s source cause location t, s.RunBy sources →
      run host fuel source s = .ok (.failed (.fault cause location) t) →
        cause ≠ .hostExhausted 0 →
      ∃ l, location = some l ∧ Marked (source :: sources) l := by
  refine ⟨interpret_pointsInward host fuel,
    fun n f s => (execute_told host fuel s n f).pointsInward, fun n f s =>
      (evaluate_told host fuel s n f).pointsInward,
    fun callee args s => (call_told host fuel s callee args).pointsInward, ?_⟩
  intro sources s source cause location t before ends other
  obtain ⟨depth, store⟩ := before.keeps
  obtain ⟨-, -, points⟩ := run_keeps store ends rfl
  rw [depth] at points
  exact (points cause location rfl).resolve_left other

/-- The fault that a run ends with. -/
def Ending.fault? : Ending α → Option (Fault × Option Location)
  | .failed (.fault cause location) _ => some (cause, location)
  | _ => none

theorem Ending.eq_of_fault? {ending : Ending α} {cause : Fault} {location : Option Location}
    (h : ending.fault? = some (cause, location)) :
    ∃ t, ending = .failed (.fault cause location) t := by
  unfold Ending.fault? at h
  split at h
  · cases h
    exact ⟨_, rfl⟩
  · cases h

/-- An undefined variable in a loop with a header, on a new machine. -/
theorem innermost_line_reported_loop :
    let host : Host := ⟨0, 200, ⟨1000, 10⟩, fun _ => false, fun _ => 0⟩
    State.fresh.RunBy [] ∧ ∃ cause location t,
      run host 10 "for(;;)x;" State.fresh = .ok (.failed (.fault cause location) t) ∧
        cause ≠ .hostExhausted 0 ∧ ∃ l, location = some l ∧ Marked ["for(;;)x;"] l := by
  intro host
  have fresh : State.fresh.RunBy [] :=
    .start rfl (Store.Holds.withGlobals .empty fun _ _ _ h => by cases h)
  have fails : ((run host 10 "for(;;)x;" State.fresh).toOption.bind Ending.fault?).map
      (fun fault => fault.1.isOverflow) = some false := by
    decide +kernel
  cases ends : run host 10 "for(;;)x;" State.fresh with
  | error e =>
    rw [ends] at fails
    cases fails
  | ok ending =>
    rw [ends] at fails
    obtain ⟨⟨cause, location⟩, fault, quiet⟩ := Option.map_eq_some_iff.1 fails
    obtain ⟨t, rfl⟩ := Ending.eq_of_fault? fault
    have other : cause ≠ .hostExhausted 0 := by
      rintro rfl
      cases quiet
    obtain ⟨-, -, -, -, reported⟩ := innermost_line_reported host 10
    have points := reported [] State.fresh _ cause location t fresh ends other
    exact ⟨fresh, cause, location, t, rfl, other, points⟩

end LoxLang
