import LoxLang.Proofs.Depth
import LoxLang.Proofs.Form
import LoxLang.Proofs.Lockstep.Run
import LoxLang.Proofs.Shape

/-!
# Programs without loops end

A program without `while` loops ends, however its functions call each other: calls go on in the
nodes of functions, which may be any functions of the store, but each call is one deeper than the
last, and the limit stops them. The fuel that is enough is found by induction on how many calls are
left and, between two calls, on the size of nodes.

* `Node.Loopless`, `Value.Loopless`: nodes without loops inside, and functions with such bodies.
* `State.Loopless`: a state with a given number of active calls in which all functions are of that
  kind.
* `Halts`: an action that is given fuel ends from every such state, leaves such a state, and gives
  results of which something holds.
* `NodeHalts`, `CallsHalt`: what the two inductions are about.

Results: `node_halts` — nodes end if calls do; `call_halts` — calls end;
`loopless_programs_end`.
-/

set_option autoImplicit false

namespace LoxLang

variable {α β : Type} {d : Nat}

/-! ## No loops -/

/-- Neither the node nor a node inside it is a loop. -/
def Node.Loopless (n : Node) : Prop := ∀ m, n.Contains m → m.label? ≠ some .whileStmt

theorem Node.Loopless.part {n m : Node} (h : n.Loopless) (hm : m ∈ n.parts) : m.Loopless :=
  fun k hk => h k (.part hm hk)

theorem Node.loopless_iff {n : Node} :
    n.Loopless ↔ n.label? ≠ some .whileStmt ∧ ∀ m ∈ n.parts, m.Loopless := by
  refine ⟨fun h => ⟨h n (.here n), fun m hm => h.part hm⟩, ?_⟩
  rintro ⟨here, inside⟩ m hm
  cases hm with
  | here => exact here
  | part hk hm => exact inside _ hk m hm

@[simp] theorem Node.loopless_tree {label : Label} {parts : List Node} {place : Place} :
    (Node.tree label parts place).Loopless ↔
      label ≠ .whileStmt ∧ ∀ m ∈ parts, m.Loopless := by
  rw [Node.loopless_iff]
  exact and_congr_left' (not_congr Option.some_inj)

@[simp] theorem Node.loopless_word {kind : Kind} {text : String} {place : Place} :
    (Node.word kind text place).Loopless := Node.loopless_iff.2 ⟨nofun, nofun⟩

@[simp] theorem Node.loopless_absent : Node.absent.Loopless :=
  Node.loopless_iff.2 ⟨nofun, nofun⟩

/-- The bodies of declared functions have no loops; other values are not restricted. -/
def Value.Loopless (v : Value) : Prop := ∀ c, v = .function c → ∀ n ∈ c.body, n.Loopless

theorem Value.loopless_of_data {v : Value} (data : ∀ c, v ≠ .function c) : v.Loopless :=
  fun c hc => absurd hc (data c)

/-- A value that may be missing. -/
def NoLoops (r : Option Value) : Prop := ∀ v, r = some v → v.Loopless

theorem NoLoops.none : NoLoops none := fun _ h => by cases h

theorem NoLoops.some {v : Value} (h : v.Loopless) : NoLoops (some v) := by
  intro u hu
  cases hu
  exact h

/-- As many calls are active as given, and no function of the store has loops. -/
structure State.Loopless (d : Nat) (s : State) : Prop where
  depth : s.depth = d
  store : s.store.Holds Value.Loopless

/-! ## Actions that end -/

/-- A result of which `V` holds, in a state without loops; or a failure. -/
def Ending.Good (d : Nat) (V : α → Prop) : Ending α → Prop
  | .done x t => V x ∧ t.Loopless d
  | .failed _ _ => True
  | .outOfFuel => False

/-- From every state without loops the action ends. From some amount of fuel on it ends always
alike. -/
def Halts (d : Nat) (V : α → Prop) (act : Nat → Action α) : Prop :=
  ∀ s, s.Loopless d →
    ∃ e, e.Good d V ∧ ∃ least, ∀ fuel, least ≤ fuel → act fuel s = e

namespace Halts

variable {V : α → Prop} {U : β → Prop}

/-- An action that needs no fuel. -/
theorem of_action {act : Action α} (h : ∀ s, s.Loopless d → (act s).Good d V) :
    Halts d V fun _ => act :=
  fun s hs => ⟨act s, h s hs, 0, fun _ _ => rfl⟩

theorem pure {x : α} (h : V x) : Halts d V fun _ => Pure.pure x :=
  of_action fun _ hs => ⟨h, hs⟩

theorem fail (e : Failure) : Halts d V fun _ => Action.fail e := of_action fun _ _ => trivial

theorem raise (cause : Fault) : Halts d V fun _ => Action.raise cause := fail _

/-- One action after another: the fuel that is enough for both is enough. -/
theorem bind {act : Nat → Action α} {next : Nat → α → Action β} (h : Halts d V act)
    (k : ∀ x, V x → Halts d U fun fuel => next fuel x) :
    Halts d U fun fuel => act fuel >>= next fuel := by
  intro s hs
  obtain ⟨e, good, least, ends⟩ := h s hs
  cases e with
  | done x t =>
    obtain ⟨e', good', least', ends'⟩ := k x good.1 t good.2
    refine ⟨e', good', max least least', fun fuel more => ?_⟩
    have first := ends fuel (by omega)
    have second := ends' fuel (by omega)
    simp only [Action.bind_apply, first, second]
  | failed f t =>
    refine ⟨.failed f t, trivial, least, fun fuel more => ?_⟩
    simp only [Action.bind_apply, ends fuel more]
  | outOfFuel => exact good.elim

/-- A step into a part takes one unit of fuel. -/
theorem later {act act' : Nat → Action α} (h : Halts d V act)
    (step : ∀ fuel, act' (fuel + 1) = act fuel) : Halts d V act' := by
  intro s hs
  obtain ⟨e, good, least, ends⟩ := h s hs
  refine ⟨e, good, least + 1, fun fuel more => ?_⟩
  obtain ⟨fuel, rfl⟩ : ∃ k, fuel = k + 1 := ⟨fuel - 1, by omega⟩
  rw [step]
  exact ends fuel (by omega)

theorem locate {act : Nat → Action α} (place : Place) (h : Halts d V act) :
    Halts d V fun fuel => (act fuel).locate place := by
  intro s hs
  obtain ⟨e, good, least, ends⟩ := h s hs
  cases e with
  | done x t =>
    refine ⟨.done x t, good, least, fun fuel more => ?_⟩
    simp only [Action.locate, ends fuel more]
  | failed f t =>
    refine ⟨.failed (f.locate place) t, trivial, least, fun fuel more => ?_⟩
    simp only [Action.locate, ends fuel more]
  | outOfFuel => exact good.elim

/-- A call ends if what is called ends one deeper. -/
theorem nested {act : Nat → Action α} (h : Halts (d + 1) V act) :
    Halts d V fun fuel => (act fuel).nested := by
  intro s hs
  have inside : { s with depth := s.depth + 1 }.Loopless (d + 1) :=
    ⟨congrArg (· + 1) hs.depth, hs.store⟩
  obtain ⟨e, good, least, ends⟩ := h _ inside
  have same : ∀ fuel, least ≤ fuel → (act fuel).nested s = Action.nested (fun _ => e) s := by
    intro fuel more
    simp only [Action.nested, ends fuel more]
  refine ⟨_, ?_, least, same⟩
  unfold Action.nested
  cases e with
  | done x t =>
    obtain ⟨hx, ht⟩ := good
    have depth : t.depth - 1 = d := by
      rw [ht.depth]
      omega
    exact ⟨hx, depth, ht.store⟩
  | failed f t => cases f <;> trivial
  | outOfFuel => exact good.elim

/-- A call that is refused ends as well. -/
theorem limited {act : Nat → Action α} {limit : Int} {callee : Value} {depth : Nat}
    (h : ¬limit ≤ depth → Halts d V act) :
    Halts d V fun fuel => (act fuel).limited limit callee depth := by
  unfold Action.limited
  split
  · exact of_action fun _ _ => trivial
  · exact h ‹_›

theorem outermost {act : Nat → Action α} (h : Halts d V act) :
    Halts d V fun fuel => (act fuel).outermost := by
  intro s hs
  obtain ⟨e, good, least, ends⟩ := h s hs
  have same : ∀ fuel, least ≤ fuel →
      (act fuel).outermost s = Action.outermost (fun _ => e) s := by
    intro fuel more
    simp only [Action.outermost, ends fuel more]
  refine ⟨_, ?_, least, same⟩
  unfold Action.outermost
  cases e with
  | done x t => exact good
  | failed f t => cases f <;> trivial
  | outOfFuel => exact good.elim

theorem runAll {run : Nat → Node → Action Outcome} {ns : List Node}
    (h : ∀ n ∈ ns, Halts d (fun o => NoLoops o.value?) fun fuel => run fuel n) :
    Halts d (fun o => NoLoops o.value?) fun fuel => LoxLang.runAll (run fuel) ns := by
  induction ns with
  | nil => exact pure .none
  | cons n ns ih =>
    obtain ⟨head, rest⟩ := List.forall_mem_cons.1 h
    refine head.bind fun outcome ho => ?_
    cases outcome with
    | normal => exact ih rest
    | returning v => exact pure ho

theorem evaluateAll {eval : Nat → Node → Action Value} {ns : List Node}
    (h : ∀ n ∈ ns, Halts d Value.Loopless fun fuel => eval fuel n) :
    Halts d (fun vs => ∀ v ∈ vs, v.Loopless) fun fuel =>
      LoxLang.evaluateAll (eval fuel) ns := by
  induction ns with
  | nil => exact pure fun _ h => by cases h
  | cons n ns ih =>
    obtain ⟨head, rest⟩ := List.forall_mem_cons.1 h
    refine head.bind fun v hv => (ih rest).bind fun vs hvs => ?_
    exact pure (List.forall_mem_cons.2 ⟨hv, hvs⟩)

/-! ### Primitive actions -/

theorem lookup (f : FrameId) (x : String) : Halts d Value.Loopless fun _ => Action.lookup f x := by
  refine of_action fun s hs => ?_
  unfold Action.lookup
  cases hv : s.store.get? f x with
  | none => trivial
  | some v => exact ⟨hs.store.get? hv, hs⟩

theorem define (f : FrameId) (x : String) {v : Value} (hv : v.Loopless) :
    Halts d (fun _ => True) fun _ => Action.define f x v :=
  of_action fun _ hs => ⟨trivial, hs.depth, hs.store.define f x hv⟩

theorem defineAll (f : FrameId) {b : Bindings} (hb : ∀ p ∈ b, p.2.Loopless) :
    Halts d (fun _ => True) fun _ => Action.defineAll f b :=
  of_action fun _ hs => ⟨trivial, hs.depth, hs.store.defineAll f hb⟩

theorem assign (f : FrameId) (x : String) {v : Value} (hv : v.Loopless) :
    Halts d (fun _ => True) fun _ => Action.assign f x v := by
  refine of_action fun s hs => ?_
  unfold Action.assign
  cases s.store.resolve f x with
  | none => trivial
  | some g => exact ⟨trivial, hs.depth, hs.store.define g x hv⟩

theorem enterFrame (f : FrameId) : Halts d (fun _ => True) fun _ => Action.enterFrame f :=
  of_action fun _ hs => ⟨trivial, hs.depth, hs.store.child f⟩

theorem freshMark : Halts d (fun _ => True) fun _ => Action.freshMark :=
  of_action fun _ hs => ⟨trivial, hs.depth, hs.store⟩

theorem record (r : Record) : Halts d (fun _ => True) fun _ => Action.record r :=
  of_action fun _ hs => ⟨trivial, hs.depth, hs.store⟩

theorem raiseLimit (host : Host) : Halts d (fun _ => True) fun _ => Action.raiseLimit host := by
  unfold Action.raiseLimit
  cases host.refusal? with
  | some failure => exact .fail failure
  | none => exact .record _

theorem readClock (host : Host) : Halts d (fun _ => True) fun _ => Action.readClock host :=
  of_action fun _ hs => ⟨trivial, hs.depth, hs.store⟩

theorem activeCalls : Halts d (· = d) fun _ => Action.activeCalls :=
  of_action fun _ hs => ⟨hs.depth, hs⟩

theorem print (host : Host) (v : Value) : Halts d (fun _ => True) fun _ => Action.print host v := by
  refine of_action fun s hs => ?_
  unfold Action.print
  simp only
  split
  · trivial
  · exact ⟨trivial, hs.depth, hs.store⟩

end Halts

/-! ## Operators -/

theorem applyUnary_data {m : Nat} {op : String} {v r : Value} (h : applyUnary m op v = .ok r)
    (c : Closure) : r ≠ .function c := by
  rintro rfl
  unfold applyUnary at h
  split at h
  · split at h <;> cases h
  · cases h
  · cases h

theorem applyBinary_data {m : Nat} {op : String} {a b r : Value} (h : applyBinary m op a b = .ok r)
    (c : Closure) : r ≠ .function c := by
  rintro rfl
  -- each operator on numbers first asks for two numbers
  have asked {op : String} {result : Number × Number → Value}
      (hr : ∀ p, result p ≠ .function c) (h : (numbers op a b >>= fun p => .ok (result p)) =
        .ok (.function c)) : False := by
    cases hp : numbers op a b with
    | error e =>
      rw [hp] at h
      cases h
    | ok p =>
      rw [hp] at h
      exact hr p (Except.ok.inj h)
  unfold applyBinary at h
  split at h
  · split at h <;> cases h
  · exact asked (fun _ h => by cases h) h
  · exact asked (fun _ h => by cases h) h
  · exact asked (fun _ h => by cases h) h
  · exact asked (fun _ h => by cases h) h
  · exact asked (fun _ h => by cases h) h
  · exact asked (fun _ h => by cases h) h
  · exact asked (fun _ h => by cases h) h
  · cases h
  · cases h
  · cases h

theorem Halts.ofExcept {r : Except Fault Value}
    (h : ∀ v, r = .ok v → ∀ c, v ≠ .function c) :
    Halts d Value.Loopless fun _ => Action.ofExcept r := by
  cases r with
  | ok v => exact .pure (Value.loopless_of_data (h v rfl))
  | error cause => exact .raise cause

/-! ## Nodes -/

/-- In every frame, as a statement and as an expression, the node ends. -/
structure NodeHalts (host : Host) (d : Nat) (n : Node) : Prop where
  run : ∀ f, Halts d (fun o => NoLoops o.value?) fun fuel => execute host fuel n f
  eval : ∀ f, Halts d Value.Loopless fun fuel => evaluate host fuel n f

/-- Calls end that are made while `d` calls are active. -/
def CallsHalt (host : Host) (d : Nat) : Prop :=
  ∀ callee args, callee.Loopless → (∀ v ∈ args, v.Loopless) →
    Halts d NoLoops fun fuel => call host fuel callee args

variable {host : Host}

/-- A statement ends if its parts do. -/
theorem statement_halts {n : Node} {st : Statement} (form : StatementForm n st) (hn : n.Loopless)
    (parts : ∀ m ∈ n.parts, NodeHalts host d m) (f : FrameId) :
    Halts d (fun o => NoLoops o.value?) fun fuel =>
      st.run host fuel (execute host fuel) (evaluate host fuel) f := by
  have part {m : Node} (hm : m ∈ n.parts) : NodeHalts host d m := parts m hm
  cases form with
  | expression => exact ((part (.head _)).eval f).bind fun _ _ => .pure .none
  | print =>
    refine ((part (.head _)).eval f).bind fun v _ => ?_
    exact (Halts.print host v).bind fun _ _ => .pure .none
  | @declare name value place =>
    cases hv : value.present? with
    | none =>
      have nil : Value.nil.Loopless := Value.loopless_of_data nofun
      exact (Halts.define f _ nil).bind fun _ _ => .pure .none
    | some e =>
      cases Node.present?_eq hv
      refine ((part (.tail _ (.head _))).eval f).bind fun v hv => ?_
      exact (Halts.define f _ hv).bind fun _ _ => .pure .none
  | block =>
    refine (Halts.enterFrame f).bind fun inner _ => ?_
    exact Halts.runAll fun m hm => (part hm).run inner
  | @branch test yes no place =>
    refine ((part (.head _)).eval f).bind fun v _ => ?_
    split
    · exact (part (.tail _ (.head _))).run f
    · cases hno : no.present? with
      | none => exact .pure .none
      | some e =>
        cases Node.present?_eq hno
        exact (part (.tail _ (.tail _ (.head _)))).run f
  | loop => exact absurd rfl (hn _ (.here _))
  | @function name params body place x names _ =>
    have hbody : body.Loopless := hn.part (.tail _ (.tail _ (.head _)))
    refine Halts.freshMark.bind fun mark _ => ?_
    have fn : (Value.function ⟨x, names, body.bodyParts, f, mark⟩).Loopless := by
      rintro c ⟨⟩
      exact Node.bodyParts_of_parts hbody fun m => hbody.part
    refine (Halts.define f x fn).bind fun _ _ => ?_
    exact (Halts.record _).bind fun _ _ => .pure .none
  | @result value rest place =>
    cases hv : value.present? with
    | none => exact .pure .none
    | some e =>
      cases Node.present?_eq hv
      exact ((part (.head _)).eval f).bind fun v hv => .pure (.some hv)
  | bareResult => exact .pure .none
  | invalid => exact .fail _

/-- An expression ends if the nodes inside it and the calls it makes do. -/
theorem expression_halts {n : Node} {e : Expression} (form : ExpressionForm n e)
    (calls : CallsHalt host d) (parts : ∀ m ∈ n.parts, NodeHalts host d m)
    (arguments : ∀ m ∈ n.parts, ∀ k ∈ m.parts, NodeHalts host d k) (f : FrameId) :
    Halts d Value.Loopless fun fuel => e.evaluate (evaluate host fuel) (call host fuel) f := by
  have part {m : Node} (hm : m ∈ n.parts) : NodeHalts host d m := parts m hm
  cases form with
  | constant data => exact .pure (Value.loopless_of_data data)
  | number => exact Halts.freshMark.bind fun _ _ => .pure (Value.loopless_of_data nofun)
  | reference => exact .lookup f _
  | assign =>
    refine ((part (.tail _ (.head _))).eval f).bind fun v hv => ?_
    exact (Halts.assign f _ hv).bind fun _ _ => .pure hv
  | grouping => exact (part (.head _)).eval f
  | unary =>
    refine ((part (.tail _ (.head _))).eval f).bind fun v _ => ?_
    exact Halts.freshMark.bind fun mark _ => .ofExcept fun r hr => applyUnary_data hr
  | binary =>
    refine ((part (.head _)).eval f).bind fun a _ => ?_
    refine ((part (.tail _ (.tail _ (.head _)))).eval f).bind fun b _ => ?_
    exact Halts.freshMark.bind fun mark _ => .ofExcept fun r hr => applyBinary_data hr
  | logical =>
    refine ((part (.head _)).eval f).bind fun a ha => ?_
    split
    · split
      · exact .pure ha
      · exact (part (.tail _ (.tail _ (.head _)))).eval f
    · exact .raise _
  | @call callee list place =>
    refine ((part (.head _)).eval f).bind fun v hv => ?_
    have evaluated := Halts.evaluateAll fun k hk =>
      (arguments list (.tail _ (.head _)) k hk).eval f
    refine evaluated.bind fun args hargs => ?_
    refine (calls v args hv hargs).bind fun r hr => .pure ?_
    cases r with
    | none => exact Value.loopless_of_data nofun
    | some v => exact hr v rfl
  | invalid => exact .fail _

/-- Nodes end if calls do: the nodes inside a node are smaller. -/
theorem node_halts (calls : CallsHalt host d) (n : Node) (hn : n.Loopless) :
    NodeHalts host d n := by
  have parts : ∀ m ∈ n.parts, NodeHalts host d m := fun m hm =>
    have := Node.sizeOf_part hm
    node_halts calls m (hn.part hm)
  have arguments : ∀ m ∈ n.parts, ∀ k ∈ m.parts, NodeHalts host d k := fun m hm k hk =>
    have := Node.sizeOf_part hm
    have := Node.sizeOf_part hk
    node_halts calls k ((hn.part hm).part hk)
  refine ⟨fun f => ?_, fun f => ?_⟩
  · refine ((statement_halts (n.statementForm rfl) hn parts f).locate n.place).later fun fuel => ?_
    rw [execute]
  · refine Halts.later (Halts.locate n.place ?_) fun fuel => by rw [evaluate]
    exact expression_halts (n.expressionForm rfl) calls parts arguments f
termination_by sizeOf n

/-! ## Calls -/

theorem native_halts (calls : CallsHalt host d) (kind : NativeKind) {args : List Value}
    (hargs : ∀ v ∈ args, v.Loopless) :
    Halts d NoLoops fun fuel => kind.run host (call host fuel) args := by
  cases kind with
  | clock =>
    refine (Halts.readClock host).bind fun x _ => ?_
    exact Halts.freshMark.bind fun mark _ => .pure (.some (Value.loopless_of_data nofun))
  | echo => exact .pure fun v hv => hargs v (List.mem_of_mem_head? hv)
  | nothing => exact .pure .none
  | depth => exact Halts.activeCalls.bind fun _ _ => .pure (.some (Value.loopless_of_data nofun))
  | apply =>
    cases args with
    | nil => exact .fail _
    | cons callee args =>
      obtain ⟨hcallee, hargs⟩ := List.forall_mem_cons.1 hargs
      exact calls callee args hcallee hargs
  | exhaust => exact .fail _
  | fail => exact .raise _

/-- A function ends if the calls that it makes do. -/
theorem invoke_halts (calls : CallsHalt host d) {callee : Value} {args : List Value}
    (hcallee : callee.Loopless) (hargs : ∀ v ∈ args, v.Loopless) :
    Halts d NoLoops fun fuel => invoke host fuel callee args := by
  have inside : Halts d NoLoops fun fuel =>
      invokeWith host (execute host fuel) (call host fuel) callee args := by
    cases callee with
    | native n => exact native_halts calls n.kind hargs
    | function fn =>
      refine (Halts.enterFrame fn.frame).bind fun inner _ => ?_
      refine (Halts.defineAll inner fun p hp => hargs p.2 (List.of_mem_zip hp).2).bind fun _ _ => ?_
      have body := Halts.runAll fun m hm => (node_halts calls m (hcallee fn rfl m hm)).run inner
      refine body.bind fun outcome ho => ?_
      cases outcome with
      | normal => exact .pure .none
      | returning v => exact .pure ho
    | _ => exact .raise _
  exact inside.later fun fuel => by rw [invoke]

/-- Calls end if the limit is reached or calls one deeper end. -/
theorem CallsHalt.outward (deeper : ¬host.maxDepth ≤ d → CallsHalt host (d + 1)) :
    CallsHalt host d := by
  intro callee args hcallee hargs
  have checked : Halts d NoLoops fun fuel => callWith host (invoke host fuel) callee args := by
    simp only [callWith_eq]
    split
    · exact .raise _
    · split
      · exact .raise _
      · refine Halts.activeCalls.bind fun depth same => ?_
        subst same
        exact .limited fun room => (invoke_halts (deeper room) hcallee hargs).nested
  exact checked.later fun fuel => by rw [call]

/-- Calls end: each is one deeper than the call around it, and only so many fit under the limit. -/
theorem call_halts (left : Nat) (room : host.maxDepth ≤ d + left) : CallsHalt host d := by
  induction left generalizing d with
  | zero =>
    have full : host.maxDepth ≤ d := by omega
    exact .outward fun free => absurd full free
  | succ left ih =>
    have fewer : host.maxDepth ≤ (d + 1 : Nat) + left := by omega
    exact .outward fun _ => ih fewer

/-! ## Programs -/

/-- **Programs without loops end.** A program of any nodes, well formed or not, in which no node is
a loop, ends with an outcome or a failure, whatever the limit on calls and whatever the state it
begins in, as long as the functions that are bound there have no loops either: from some amount of
fuel on, it always ends alike. -/
theorem loopless_programs_end (host : Host) (program : List Node) (s : State)
    (noLoops : ∀ n ∈ program, n.Loopless) (bound : s.store.Holds Value.Loopless) :
    ∃ ending, ending ≠ .outOfFuel ∧
      ∃ least, ∀ fuel, least ≤ fuel → interpret host fuel program s = ending := by
  have calls : CallsHalt host s.depth := call_halts (host.maxDepth - s.depth).toNat (by omega)
  have nodes := Halts.runAll fun n hn => (node_halts calls n (noLoops n hn)).run host.globals
  have program := ((Halts.record (.interpreting program.length)).bind fun _ _ =>
    (Halts.raiseLimit host).bind fun _ _ => nodes).outermost
  obtain ⟨ending, good, ends⟩ := program s ⟨rfl, bound⟩
  refine ⟨ending, ?_, ends⟩
  rintro rfl
  exact good

/-- Endless recursion ends on a new machine, which binds only the clock. -/
theorem loopless_programs_end_recursion :
    let host : Host := ⟨0, 200, ⟨1000, 10⟩, fun _ => false, fun _ => 0⟩
    (∀ n ∈ endlessRecursion, n.Loopless) ∧ State.fresh.store.Holds Value.Loopless ∧
      ∃ ending, ending ≠ .outOfFuel ∧ ∃ least, ∀ fuel, least ≤ fuel →
        interpret host fuel endlessRecursion State.fresh = ending := by
  intro host
  have noLoops : ∀ n ∈ endlessRecursion, n.Loopless := by
    simp [endlessRecursion, calledOnce, callOf]
  have bound : State.fresh.store.Holds Value.Loopless :=
    Store.Holds.withGlobals .empty fun _ _ => Value.loopless_of_data nofun
  exact ⟨noLoops, bound, loopless_programs_end host endlessRecursion State.fresh noLoops bound⟩

end LoxLang
