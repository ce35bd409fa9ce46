import LoxLang.Proofs.Lockstep.Likeness

/-!
# Names do not matter

A run with all names exchanged for others is the run with its original names, renamed. The names are
those of the program (declared names, parameters, variables, targets of assignments) and those of
the state (names bound in frames, and the names, parameters and bodies of declared functions).
Native functions, strings and words that are not read as names stay what they are.

* `Node.renameAs`, `Node.rename`: a tree with its names exchanged, part by part as the constructs
  read them (`Label.part`). Whatever stands in the place of a name is read through its text, so a
  part of another form becomes the bare text that the new name is.
* `Value.rename`, `Fault.rename`, `State.rename`, `Ending.rename` and so on: the same for what a run
  works on.
* `renamed`: a program and its renamed copy, as a `Likeness`.

Results: `run_rename` — programs, statements, expressions and calls. It holds of every tree and
every state, not only of those that come from a source text.
-/

set_option autoImplicit false

namespace LoxLang

variable (r : String → String)

/-! ## Exchanging names -/

mutual

/-- A part of a construct with its names exchanged. -/
def Node.renameAs : Part → Node → Node
  | .node, .tree label parts place => .tree label (Node.renameParts label.part parts) place
  | .names, .tree label parts place => .tree label (Node.renameParts (fun _ => .name) parts) place
  | .arguments, .tree label parts place =>
    .tree label (Node.renameParts (fun _ => .node) parts) place
  | .name, .word kind text place => .word kind (r text) place
  | .name, node => .bare (r node.plainText)
  | _, node => node

/-- Several parts with their names exchanged; the part number `i` is read as `how i`. -/
def Node.renameParts (how : Nat → Part) : List Node → List Node
  | [] => []
  | node :: rest => Node.renameAs (how 0) node :: Node.renameParts (fun i => how (i + 1)) rest

end

/-- A statement or an expression with its names exchanged. -/
def Node.rename : Node → Node := Node.renameAs r .node

/-- A declared function with its names exchanged. -/
def Closure.rename (c : Closure) : Closure :=
  { c with name := r c.name, params := c.params.map r, body := c.body.map (Node.rename r) }

def Value.rename : Value → Value
  | .function c => .function (c.rename r)
  | v => v

def Outcome.rename : Outcome → Outcome
  | .normal => .normal
  | .returning v => .returning (v.map (Value.rename r))

/-- A fault with the names and functions in it renamed. -/
def Fault.rename : Fault → Fault
  | .undefinedVariable x => .undefinedVariable (r x)
  | .notCallable v => .notCallable (v.rename r)
  | .typeMismatch op operands => .typeMismatch op (operands.map (Value.rename r))
  | .unknownStatement node => .unknownStatement (node.rename r)
  | .unknownExpression node => .unknownExpression (node.rename r)
  | .unsupportedParameter node => .unsupportedParameter (node.renameAs r .name)
  | cause => cause

/-- A failure keeps its kind and its location. -/
def Failure.rename : Failure → Failure
  | .fault cause location => .fault (cause.rename r) location
  | failure => failure

def Record.rename : Record → Record
  | .declared x arity => .declared (r x) arity
  | .limitHit limit callee => .limitHit limit (callee.rename r)
  | record => record

/-- A frame that binds the new names, in the order of the old ones. -/
def Frame.rename (frame : Frame) : Frame :=
  { frame with vars := frame.vars.map fun p => (r p.1, p.2.rename r) }

def Store.rename (s : Store) : Store := ⟨s.frames.map (Frame.rename r)⟩

def State.rename (s : State) : State :=
  { s with
    store := s.store.rename r
    printed := s.printed.map (Value.rename r)
    log := s.log.map (Record.rename r) }

/-- How a run ends, with its result, failure and state renamed. -/
def Ending.rename {α : Type} (result : α → α) : Ending α → Ending α
  | .done a s => .done (result a) (s.rename r)
  | .failed e s => .failed (e.rename r) (s.rename r)
  | .outOfFuel => .outOfFuel

/-- A program and its copy with other names. -/
def renamed : Likeness where
  name := r
  node n n' := n' = n.rename r
  named n n' := n' = n.renameAs r .name
  location := Eq

/-- The runs of both; what the copy notes down is renamed too. -/
def renamedRuns (host : Host) : Lockstep Unit :=
  (renamed r).runs host fun l l' => l' = l.map (Record.rename r)

variable {r}

/-! ## A tree and its copy -/

theorem renamed_names (n : Node) : (renamed r).Names n (n.renameAs r .name) := by
  cases n with
  | word kind text place =>
    refine ⟨rfl, by simp [Node.renameAs, Node.plainText, renamed], ?_⟩
    cases kind with
    | terminal t => cases t <;> simp [Node.renameAs, Node.identifier?, renamed]
    | other text => simp [Node.renameAs, Node.identifier?]
  | _ => exact ⟨rfl, by simp [Node.renameAs, Node.plainText, renamed], by
      simp [Node.renameAs, Node.identifier?]⟩

theorem renameParts_const (how : Part) (ns : List Node) :
    Node.renameParts r (fun _ => how) ns = ns.map (Node.renameAs r how) := by
  induction ns with
  | nil => simp [Node.renameParts]
  | cons n ns ih => simp [Node.renameParts, ih]

theorem renamed_part (p : Part) (n : Node) : (renamed r).PartAlike p n (n.renameAs r p) := by
  cases p with
  | node => rfl
  | name => exact renamed_names n
  | names =>
    show List.Forall₂ (renamed r).Names n.parts (n.renameAs r .names).parts
    cases n with
    | tree label parts place =>
      rw [Node.renameAs, renameParts_const]
      exact List.forall₂_map_right_iff.2 (List.forall₂_same.2 fun m _ => renamed_names m)
    | _ => simp [Node.renameAs, Node.parts]
  | operator =>
    show (n.renameAs r .operator).plainText = n.plainText
    simp [Node.renameAs]
  | arguments =>
    show List.Forall₂ (renamed r).node n.parts (n.renameAs r .arguments).parts
    cases n with
    | tree label parts place =>
      rw [Node.renameAs, renameParts_const]
      exact List.forall₂_map_right_iff.2 (List.forall₂_same.2 fun m _ => rfl)
    | _ => simp [Node.renameAs, Node.parts]

theorem renamed_parts (label : Label) (i : Nat) (ns : List Node) :
    (renamed r).PartsAlike label i ns (Node.renameParts r (fun j => label.part (i + j)) ns) := by
  induction ns generalizing i with
  | nil =>
    rw [Node.renameParts]
    exact .nil
  | cons n ns ih =>
    rw [Node.renameParts]
    refine .cons (renamed_part _ n) ?_
    simpa only [Nat.add_assoc, Nat.add_comm 1] using ih (i + 1)

/-- A node and its copy have the same label, and their parts correspond. -/
theorem renamed_looks (n : Node) : (renamed r).Looks n (n.rename r) := by
  unfold Node.rename
  cases n with
  | tree label parts place =>
    rw [Node.renameAs]
    refine .tree ?_
    simpa only [Nat.zero_add] using renamed_parts label 0 parts
  | word kind text place =>
    simp only [Node.renameAs]
    exact .word
  | bare text =>
    simp only [Node.renameAs]
    exact .bare
  | absent =>
    simp only [Node.renameAs]
    exact .absent
  | hollow label place =>
    simp only [Node.renameAs]
    exact .hollow

theorem renamed_place (n : Node) : (n.rename r).place = n.place := by
  unfold Node.rename
  cases n <;> simp [Node.renameAs, Node.place]

/-! ## What a run works on -/

/-- Lists whose members are related by a function. -/
theorem forall₂_iff_eq_map {α β : Type} {R : α → β → Prop} {f : α → β}
    (hR : ∀ x y, R x y ↔ y = f x) {xs : List α} {ys : List β} :
    List.Forall₂ R xs ys ↔ ys = xs.map f := by
  constructor
  · intro h
    induction h with
    | nil => rfl
    | cons hx _ ih => rw [(hR _ _).1 hx, ih, List.map_cons]
  · rintro rfl
    exact List.forall₂_map_right_iff.2 (List.forall₂_same.2 fun x _ => (hR x _).2 rfl)

theorem renamed_nodes {ns ns' : List Node} :
    List.Forall₂ (renamed r).node ns ns' ↔ ns' = ns.map (Node.rename r) :=
  forall₂_iff_eq_map fun _ _ => .rfl

theorem renamed_closures {c c' : Closure} : (renamed r).Closures c c' ↔ c' = c.rename r := by
  constructor
  · rintro ⟨hname, hparams, hbody, hframe, hmark⟩
    have body : c'.body = c.body.map (Node.rename r) := renamed_nodes.1 hbody
    obtain ⟨_, _, _, _, _⟩ := c'
    simp only at hname hparams hframe hmark body
    simp only [Closure.rename, hname, hparams, body, ← hframe, ← hmark]
    rfl
  · rintro rfl
    exact ⟨rfl, rfl, renamed_nodes.2 rfl, rfl, rfl⟩

theorem renamed_values {v v' : Value} : (renamed r).Values v v' ↔ v' = v.rename r := by
  constructor
  · intro h
    cases h with
    | function h => rw [renamed_closures.1 h, Value.rename]
    | _ => rfl
  · rintro rfl
    cases v with
    | nil => exact .nil
    | bool b => exact .bool b
    | number x => exact .number x
    | string s => exact .string s
    | native n => exact .native n
    | function c => exact .function (renamed_closures.2 rfl)

theorem renamed_lists {vs vs' : List Value} :
    List.Forall₂ (renamed r).Values vs vs' ↔ vs' = vs.map (Value.rename r) :=
  forall₂_iff_eq_map fun v _ => renamed_values (v := v)

theorem renamed_option {host : Host} {v v' : Option Value}
    (h : Option.Rel ((renamedRuns r host).ValueAlike ()) v v') : v' = v.map (Value.rename r) := by
  cases h with
  | none => rfl
  | some h => rw [renamed_values.1 (Likeness.value_iff.1 h), Option.map_some]

theorem renamed_faults {c c' : Fault} (h : (renamed r).Faults c c') : c' = c.rename r := by
  cases h with
  | notCallable h => rw [Fault.rename, renamed_values.1 h]
  | typeMismatch op h =>
    rw [Fault.rename, renamed_lists.1 h]
  | unknownStatement h => rw [Fault.rename, show _ = _ from h]
  | unknownExpression h => rw [Fault.rename, show _ = _ from h]
  | unsupportedParameter h => rw [Fault.rename, show _ = _ from h]
  | _ => rfl

theorem renamed_failures {e e' : Failure} (h : (renamed r).Failures e e') : e' = e.rename r := by
  cases h with
  | @fault c c' l l' causes locations =>
    rw [Failure.rename, renamed_faults causes, show l = l' from locations]
  | _ => rfl

theorem renamed_records {a a' : Record} (h : (renamed r).Records a a') : a' = a.rename r := by
  cases h with
  | limitHit limit h => rw [Record.rename, renamed_values.1 h]
  | _ => rfl

theorem renamed_frames {a a' : Frame} : (renamed r).Frames a a' ↔ a' = a.rename r := by
  have entries (p p' : String × Value) :
      (renamed r).Entries p p' ↔ p' = (r p.1, p.2.rename r) := by
    constructor
    · rintro ⟨hname, hvalue⟩
      exact Prod.ext hname (renamed_values.1 hvalue)
    · rintro rfl
      exact ⟨rfl, renamed_values.2 rfl⟩
  constructor
  · rintro ⟨hparent, hvars⟩
    have vars := (forall₂_iff_eq_map entries).1 hvars
    obtain ⟨_, _⟩ := a'
    simp only at hparent vars
    simp only [Frame.rename, vars, ← hparent]
  · rintro rfl
    exact ⟨rfl, (forall₂_iff_eq_map entries).2 rfl⟩

theorem frame?_rename (s : Store) (f : FrameId) :
    (s.rename r).frame? f = (s.frame? f).map (Frame.rename r) := by
  simp [Store.rename, Store.frame?]

theorem renamed_stores {s s' : Store} : (renamed r).Stores s s' ↔ s' = s.rename r := by
  constructor
  · intro h
    have frames (f : FrameId) : s'.frame? f = (s.rename r).frame? f := by
      rw [frame?_rename]
      have frame := h.frames f
      generalize s.frame? f = a at frame ⊢
      generalize s'.frame? f = a' at frame ⊢
      cases frame with
      | none => rfl
      | some ha => rw [renamed_frames.1 ha, Option.map_some]
    obtain ⟨_⟩ := s'
    exact congrArg Store.mk (Array.ext_getElem? frames)
  · rintro rfl
    refine ⟨by simp [Store.rename, Store.size], fun f => ?_⟩
    rw [frame?_rename]
    cases s.frame? f with
    | none => exact .none
    | some a => exact .some (renamed_frames.2 rfl)

theorem renamed_lawful (r : Equiv.Perm String) : (renamed r).Lawful where
  injective := r.injective
  looks {n n'} h := by
    rw [show n' = n.rename r from h]
    exact renamed_looks n
  location_none h := by rw [show _ = _ from h]
  unlocated := rfl
  place {n n'} h := by
    rw [show n' = n.rename r from h, renamed_place]
    rfl

theorem renamed_keeps : (renamed r).Keeps fun l l' => l' = l.map (Record.rename r) := by
  rintro a a' l _ ha rfl
  rw [renamed_records ha]
  exact (Array.map_push ..).symm

/-! ## The two runs -/

variable {host : Host}

theorem renamed_state {s s' : State} :
    (renamedRuns r host).StateAlike () s s' ↔ s' = s.rename r := by
  constructor
  · rintro ⟨hstore, houtput, hlog, hmark, hdepth, hattempts, hreadings⟩
    have printed : s'.printed = s.printed.map (Value.rename r) := by
      rw [← Array.toList_inj, Array.toList_map]
      exact renamed_lists.1 houtput
    have store : s'.store = s.store.rename r := renamed_stores.1 hstore
    have log : s'.log = s.log.map (Record.rename r) := hlog
    obtain ⟨_, _, _, _, _, _, _⟩ := s'
    simp only at store printed log hmark hdepth hattempts hreadings
    simp only [State.rename, store, printed,
      log, ← hmark, ← hdepth, ← hattempts, ← hreadings]
  · rintro rfl
    refine ⟨renamed_stores.2 rfl, ?_, rfl, rfl, rfl, rfl, rfl⟩
    show List.Forall₂ (renamed r).Values _ (s.printed.map (Value.rename r)).toList
    rw [Array.toList_map]
    exact renamed_lists.2 rfl

theorem renamed_outcome {o o' : Outcome} (h : (renamedRuns r host).OutcomeAlike () o o') :
    o' = o.rename r := by
  cases h with
  | normal => rfl
  | returning h => rw [Outcome.rename, renamed_option h]

/-- Two runs that end alike, as an equation. -/
theorem renamed_ends {α : Type} {V : Unit → α → α → Prop} {result : α → α}
    (hV : ∀ {x x'}, V () x x' → x' = result x) {e e' : Ending α}
    (h : (renamedRuns r host).Ends () V e e') : e' = e.rename r result := by
  cases h with
  | done _ states results => rw [Ending.rename, hV results, renamed_state.1 states]
  | failed _ states failures =>
    rw [Ending.rename, renamed_failures failures, renamed_state.1 states]
  | outOfFuel => rfl

/-- **Names do not matter.** Exchanging the names of a program, and those of the state it starts in,
by a bijection gives the run with its result, output, frames and failure renamed: however the run
ends, at the same location and after the same steps. The same is true of single statements,
expressions and calls. -/
theorem run_rename (r : Equiv.Perm String) (host : Host) (fuel : Nat) (s : State) :
    (∀ program : List Node,
      interpret host fuel (program.map (Node.rename r)) (s.rename r) =
        (interpret host fuel program s).rename r (Outcome.rename r)) ∧
    (∀ (node : Node) (f : FrameId),
      execute host fuel (node.rename r) f (s.rename r) =
        (execute host fuel node f s).rename r (Outcome.rename r)) ∧
    (∀ (node : Node) (f : FrameId),
      evaluate host fuel (node.rename r) f (s.rename r) =
        (evaluate host fuel node f s).rename r (Value.rename r)) ∧
    ∀ (callee : Value) (args : List Value),
      call host fuel (callee.rename r) (args.map (Value.rename r)) (s.rename r) =
        (call host fuel callee args s).rename r (Option.map (Value.rename r)) := by
  have law : (renamedRuns r host).Law := (renamed_lawful r).law renamed_keeps
  have start : (renamedRuns r host).StateAlike () s (s.rename r) := renamed_state.2 rfl
  refine ⟨fun program => ?_, fun node f => ?_, fun node f => ?_, fun callee args => ?_⟩
  · have nodes : List.Forall₂ (renamed r).node program (program.map (Node.rename r)) :=
      renamed_nodes.2 rfl
    exact renamed_ends renamed_outcome
      (law.interpret fuel (nodes.imp fun _ _ hn => ⟨hn, rfl⟩) _ _ start)
  · exact renamed_ends renamed_outcome (law.execute fuel ⟨rfl, rfl⟩ _ _ start)
  · exact renamed_ends (fun h => renamed_values.1 (Likeness.value_iff.1 h))
      (law.evaluate fuel ⟨rfl, rfl⟩ _ _ start)
  · have callees : (renamed r).Values callee (callee.rename r) := renamed_values.2 rfl
    have values : List.Forall₂ (renamed r).Values args (args.map (Value.rename r)) :=
      renamed_lists.2 rfl
    exact renamed_ends renamed_option
      (law.call fuel (Likeness.value_iff.2 callees) (Likeness.values_iff.2 values) _ _ start)

end LoxLang
