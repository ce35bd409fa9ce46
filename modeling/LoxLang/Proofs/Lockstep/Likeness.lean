import LoxLang.Proofs.Lockstep.Run
import LoxLang.Proofs.Store
import Mathlib

/-!
# Programs that are alike

The case of two runs side by side in which the programs differ and the frames correspond one to one:
a node of one program has a counterpart in the other, names have counterparts under an injective
map, and the failures of the two runs have corresponding locations. What has to be shown is then
about single nodes: that counterparts have the same label and the same number of parts, and that the
parts are counterparts again.

* `Part`, `Label.part`: how a construct reads each of its parts.
* `Likeness`: what counts as a counterpart of a name, a node and a location.
* `Likeness.Looks`: two trees with the same label whose parts are counterparts, or that have no list
  of parts, or two leaves with the same text.
* `Likeness.Values`, `Likeness.Faults`, `Likeness.Stores` and so on: counterparts among what a run
  works on.
* `Likeness.runs`: the two runs, as a `Lockstep`. How their logs are related is left open.

Results: `Likeness.Lawful.law` — if counterparts look alike, then they are run alike.
-/

set_option autoImplicit false

namespace LoxLang

/-- How a construct reads one of its parts. -/
inductive Part where
  /-- It is run or evaluated. -/
  | node
  /-- Its text is a name. -/
  | name
  /-- Its parts are names. -/
  | names
  /-- Its text is an operator. -/
  | operator
  /-- Its parts are evaluated. -/
  | arguments
deriving DecidableEq

/-- How a construct reads its part number `i`. -/
def Label.part : Label → (i : Nat) → Part
  | .variableDecl, 0 => .name
  | .functionDecl, 0 => .name
  | .functionDecl, 1 => .names
  | .reference, 0 => .name
  | .assign, 0 => .name
  | .unary, 0 => .operator
  | .binary, 1 => .operator
  | .logical, 1 => .operator
  | .call, 1 => .arguments
  | _, _ => .node

/-- What two runs of different programs have in common. -/
structure Likeness where
  name : String → String
  node : Node → Node → Prop
  /-- What stands in the place of a name. -/
  named : Node → Node → Prop
  location : Option Location → Option Location → Prop

namespace Likeness

variable (K : Likeness)

/-! ## Nodes -/

/-- Two nodes that are read as corresponding names. -/
structure Names (n n' : Node) : Prop where
  named : K.named n n'
  text : n'.plainText = K.name n.plainText
  identifier : n'.identifier? = n.identifier?.map K.name

/-- Two parts of corresponding constructs. -/
def PartAlike : Part → Node → Node → Prop
  | .node, n, n' => K.node n n'
  | .name, n, n' => K.Names n n'
  | .names, n, n' => List.Forall₂ K.Names n.parts n'.parts
  | .operator, n, n' => n'.plainText = n.plainText
  | .arguments, n, n' => List.Forall₂ K.node n.parts n'.parts

/-- The parts of two constructs, from number `i` on. -/
inductive PartsAlike (label : Label) : (i : Nat) → List Node → List Node → Prop
  | nil {i : Nat} : PartsAlike label i [] []
  | cons {i : Nat} {n n' : Node} {ns ns' : List Node} (part : K.PartAlike (label.part i) n n')
    (rest : PartsAlike label (i + 1) ns ns') : PartsAlike label i (n :: ns) (n' :: ns')

/-- Two nodes that look alike. -/
inductive Looks : Node → Node → Prop
  | tree {label : Label} {ns ns' : List Node} {place place' : Place}
    (parts : K.PartsAlike label 0 ns ns') :
    Looks (.tree label ns place) (.tree label ns' place')
  | hollow {label : Label} {place place' : Place} :
    Looks (.hollow label place) (.hollow label place')
  | word {kind : Kind} {text : String} {place place' : Place} :
    Looks (.word kind text place) (.word kind text place')
  | bare {text : String} : Looks (.bare text) (.bare text)
  | absent : Looks .absent .absent

/-! ## What a run works on -/

/-- Two declared functions whose bodies correspond, closed over the same frame. -/
structure Closures (c c' : Closure) : Prop where
  name : c'.name = K.name c.name
  params : c'.params = c.params.map K.name
  body : List.Forall₂ K.node c.body c'.body
  frame : c.frame = c'.frame
  mark : c.mark = c'.mark

/-- Two values that are equal up to declared functions. -/
inductive Values : Value → Value → Prop
  | nil : Values .nil .nil
  | bool (b : Bool) : Values (.bool b) (.bool b)
  | number (x : Number) : Values (.number x) (.number x)
  | string (s : String) : Values (.string s) (.string s)
  | native (n : Native) : Values (.native n) (.native n)
  | function {c c' : Closure} (h : K.Closures c c') : Values (.function c) (.function c')

/-- Two faults of the same kind. -/
inductive Faults : Fault → Fault → Prop
  | undefinedVariable (x : String) : Faults (.undefinedVariable x) (.undefinedVariable (K.name x))
  | arityMismatch (expected : Int) (got : Nat) :
    Faults (.arityMismatch expected got) (.arityMismatch expected got)
  | notCallable {v v' : Value} (h : K.Values v v') : Faults (.notCallable v) (.notCallable v')
  | typeMismatch (op : String) {vs vs' : List Value} (h : List.Forall₂ K.Values vs vs') :
    Faults (.typeMismatch op vs) (.typeMismatch op vs')
  | depthLimit (limit : Int) : Faults (.depthLimit limit) (.depthLimit limit)
  | hostExhausted (depth : Nat) : Faults (.hostExhausted depth) (.hostExhausted depth)
  | nativeFailure : Faults .nativeFailure .nativeFailure
  | unknownStatement {n n' : Node} (h : K.node n n') :
    Faults (.unknownStatement n) (.unknownStatement n')
  | unknownExpression {n n' : Node} (h : K.node n n') :
    Faults (.unknownExpression n) (.unknownExpression n')
  | unhandledWord (kind : Kind) (text : String) :
    Faults (.unhandledWord kind text) (.unhandledWord kind text)
  | unknownUnary (op : String) : Faults (.unknownUnary op) (.unknownUnary op)
  | unknownBinary (op : String) : Faults (.unknownBinary op) (.unknownBinary op)
  | unknownLogical (op : String) : Faults (.unknownLogical op) (.unknownLogical op)
  | malformedFunction : Faults .malformedFunction .malformedFunction
  | unsupportedParameter {n n' : Node} (h : K.named n n') :
    Faults (.unsupportedParameter n) (.unsupportedParameter n')

/-- Two failures of the same kind, at corresponding locations. -/
inductive Failures : Failure → Failure → Prop
  | fault {c c' : Fault} {l l' : Option Location} (causes : K.Faults c c')
    (locations : K.location l l') : Failures (.fault c l) (.fault c' l')
  | malformed : Failures .malformed .malformed
  | missing : Failures .missing .missing
  | hollow : Failures .hollow .hollow
  | refused (reason : LimitError) : Failures (.refused reason) (.refused reason)
  | exhausted : Failures .exhausted .exhausted

/-- What the two runs note down in the same step. -/
inductive Records : Record → Record → Prop
  | interpreting (count : Nat) : Records (.interpreting count) (.interpreting count)
  | raisedLimit (previous : Nat) (limit : Int) :
    Records (.raisedLimit previous limit) (.raisedLimit previous limit)
  | declared (x : String) (arity : Nat) : Records (.declared x arity) (.declared (K.name x) arity)
  | limitHit (limit : Int) {v v' : Value} (h : K.Values v v') :
    Records (.limitHit limit v) (.limitHit limit v')
  | exhausted (depth : Nat) : Records (.exhausted depth) (.exhausted depth)

/-- A name and its counterpart, bound to corresponding values. -/
structure Entries (p p' : String × Value) : Prop where
  name : p'.1 = K.name p.1
  value : K.Values p.2 p'.2

/-- Two frames that bind corresponding names in the same order. -/
structure Frames (a a' : Frame) : Prop where
  parent : a.parent = a'.parent
  vars : List.Forall₂ K.Entries a.vars a'.vars

/-- Two stores with corresponding frames. -/
structure Stores (s s' : Store) : Prop where
  size : s.size = s'.size
  frames : ∀ f, Option.Rel K.Frames (s.frame? f) (s'.frame? f)

/-- Two runs of corresponding nodes, each in the frame of the same number. -/
def runs (host : Host) (log : Array Record → Array Record → Prop) : Lockstep Unit where
  host := host
  store _ := K.Stores
  closure _ := K.Closures
  native _ := True
  failure := K.Failures
  output o o' := List.Forall₂ K.Values o.toList o'.toList
  log := log
  stmt _ n f n' f' := K.node n n' ∧ f = f'
  expr _ n f n' f' := K.node n n' ∧ f = f'

/-- What has to be shown of counterparts. -/
structure Lawful : Prop where
  injective : Function.Injective K.name
  looks : ∀ {n n'}, K.node n n' → K.Looks n n'
  /-- The location of a fault is known in both runs or in none. -/
  location_none : ∀ {l l'}, K.location l l' → (l = none ↔ l' = none)
  unlocated : K.location none none
  place : ∀ {n n'}, K.node n n' → K.location n.place.location? n'.place.location?

/-- The logs stay related when both runs note something down. -/
def Keeps (log : Array Record → Array Record → Prop) : Prop :=
  ∀ {a a' l l'}, K.Records a a' → log l l' → log (l.push a) (l'.push a')

variable {K} {host : Host} {log : Array Record → Array Record → Prop}

/-! ## Values -/

theorem value_iff {v v' : Value} : (K.runs host log).ValueAlike () v v' ↔ K.Values v v' := by
  constructor
  · intro h
    cases h with
    | nil => exact .nil
    | bool b => exact .bool b
    | number x => exact .number x
    | string s => exact .string s
    | native _ => exact .native _
    | function h => exact .function h
  · intro h
    cases h with
    | nil => exact .nil
    | bool b => exact .bool b
    | number x => exact .number x
    | string s => exact .string s
    | native n => exact .native trivial
    | function h => exact .function h

theorem values_iff {vs vs' : List Value} :
    List.Forall₂ ((K.runs host log).ValueAlike ()) vs vs' ↔ List.Forall₂ K.Values vs vs' :=
  ⟨fun h => h.imp fun _ _ => value_iff.1, fun h => h.imp fun _ _ => value_iff.2⟩

theorem Failures.of {c c' : Fault} (lawful : K.Lawful) (h : K.Faults c c') :
    K.Failures (.of c) (.of c') := .fault h lawful.unlocated

/-- A fault without a location gets corresponding ones in both runs. -/
theorem Failures.locate (lawful : K.Lawful) {e e' : Failure} {n n' : Node} (h : K.Failures e e')
    (hn : K.node n n') : K.Failures (e.locate n.place) (e'.locate n'.place) := by
  cases h with
  | @fault c c' l l' causes locations =>
    have both := lawful.location_none locations
    cases l with
    | none =>
      cases both.1 rfl
      exact .fault causes (lawful.place hn)
    | some l =>
      cases l' with
      | none => cases both.2 rfl
      | some l' => exact .fault causes locations
  | malformed => exact .malformed
  | missing => exact .missing
  | hollow => exact .hollow
  | refused reason => exact .refused reason
  | exhausted => exact .exhausted

/-! ## The store -/

section Stores

variable (lawful : K.Lawful)
include lawful

theorem entries_binds {b b' : Bindings} (h : List.Forall₂ K.Entries b b') (x : String) :
    b'.binds (K.name x) = b.binds x := by
  induction h with
  | nil => rfl
  | @cons p p' b b' hp _ ih =>
    have head : (p'.1 == K.name x) = (p.1 == x) := by
      rw [hp.name, Bool.eq_iff_iff, beq_iff_eq, beq_iff_eq, lawful.injective.eq_iff]
    simp only [Bindings.binds, List.any_cons, head] at ih ⊢
    rw [ih]

theorem entries_get {b b' : Bindings} (h : List.Forall₂ K.Entries b b') (x : String) :
    Option.Rel K.Values (b.get? x) (b'.get? (K.name x)) := by
  induction h with
  | nil => exact .none
  | @cons p p' b b' hp _ ih =>
    obtain ⟨y, v⟩ := p
    obtain ⟨y', v'⟩ := p'
    obtain ⟨rfl, hv⟩ := hp
    rw [Bindings.get?_cons, Bindings.get?_cons]
    by_cases hx : x = y
    · rw [if_pos hx, if_pos (congrArg K.name hx)]
      exact .some hv
    · rw [if_neg hx, if_neg fun e => hx (lawful.injective e)]
      exact ih

theorem entries_set {b b' : Bindings} (h : List.Forall₂ K.Entries b b') (x : String)
    {v v' : Value} (hv : K.Values v v') :
    List.Forall₂ K.Entries (b.set x v) (b'.set (K.name x) v') := by
  induction h with
  | nil => exact .cons ⟨rfl, hv⟩ .nil
  | @cons p p' b b' hp hb ih =>
    obtain ⟨y, u⟩ := p
    obtain ⟨y', u'⟩ := p'
    obtain ⟨rfl, hu⟩ := hp
    unfold Bindings.set
    by_cases hy : y = x
    · rw [if_pos hy, if_pos (congrArg K.name hy)]
      exact .cons ⟨rfl, hv⟩ hb
    · rw [if_neg hy, if_neg fun e => hy (lawful.injective e)]
      exact .cons ⟨rfl, hu⟩ ih

omit lawful in
theorem Stores.vars {s s' : Store} (h : K.Stores s s') (f : FrameId) :
    List.Forall₂ K.Entries (s.vars f) (s'.vars f) := by
  have frames := h.frames f
  unfold Store.vars
  generalize s.frame? f = a at frames ⊢
  generalize s'.frame? f = a' at frames ⊢
  cases frames with
  | none => exact .nil
  | some ha => exact ha.vars

omit lawful in
theorem Stores.outer {s s' : Store} (h : K.Stores s s') (f : FrameId) :
    s.outer? f = s'.outer? f := by
  have frames := h.frames f
  rw [Store.outer?_eq, Store.outer?_eq, Store.parent?, Store.parent?]
  generalize s.frame? f = a at frames ⊢
  generalize s'.frame? f = a' at frames ⊢
  cases frames with
  | none => rfl
  | some ha => simp only [Option.bind_some, ha.parent]

/-- A name and its counterpart are found in the same frame. -/
theorem Stores.resolve {s s' : Store} (h : K.Stores s s') (f : FrameId) (x : String) :
    s'.resolve f (K.name x) = s.resolve f x := by
  have binds (g : FrameId) := entries_binds lawful (h.vars g) x
  induction f using s.resolve_induct (x := x) with
  | bound f hb => rw [Store.resolve_eq, Store.resolve_eq, binds, if_pos hb, if_pos hb]
  | last f hb hp => rw [Store.resolve_eq, Store.resolve_eq, binds, hb, ← h.outer, hp]; rfl
  | outer f p hb hp ih =>
    rw [Store.resolve_eq, Store.resolve_eq, binds, hb, ← h.outer, hp]
    exact ih

theorem Stores.get {s s' : Store} (h : K.Stores s s') (f : FrameId) (x : String) :
    Option.Rel K.Values (s.get? f x) (s'.get? f (K.name x)) := by
  unfold Store.get?
  rw [h.resolve lawful]
  cases s.resolve f x with
  | none => exact .none
  | some g => exact entries_get lawful (h.vars g) x

theorem Stores.define {s s' : Store} (h : K.Stores s s') (f : FrameId) (x : String) {v v' : Value}
    (hv : K.Values v v') : K.Stores (s.define f x v) (s'.define f (K.name x) v') := by
  refine ⟨by simp [h.size], fun g => ?_⟩
  have frames := h.frames g
  rw [Store.frame?_define, Store.frame?_define]
  generalize s.frame? g = a at frames ⊢
  generalize s'.frame? g = a' at frames ⊢
  cases frames with
  | none => exact .none
  | some ha =>
    refine .some ?_
    by_cases hg : g = f
    · simp only [if_pos hg]
      exact ⟨ha.parent, entries_set lawful ha.vars x hv⟩
    · simp only [if_neg hg]
      exact ha

omit lawful in
theorem Stores.child {s s' : Store} (h : K.Stores s s') (f : FrameId) :
    K.Stores (s.child f) (s'.child f) := by
  refine ⟨by simp [h.size], fun g => ?_⟩
  rw [Store.frame?_child, Store.frame?_child, ← h.size]
  by_cases hg : g = s.size
  · rw [if_pos hg, if_pos hg]
    exact .some ⟨rfl, .nil⟩
  · rw [if_neg hg, if_neg hg]
    exact h.frames g

/-- Parameters are bound one after the other, also where two of them have the same name. -/
theorem Stores.defineAll {s s' : Store} (h : K.Stores s s') (f : FrameId) (params : List String)
    {args args' : List Value} (hargs : List.Forall₂ K.Values args args') :
    K.Stores (s.defineAll f (params.zip args))
      (s'.defineAll f ((params.map K.name).zip args')) := by
  induction params generalizing s s' args args' with
  | nil => exact h
  | cons x params ih =>
    cases hargs with
    | nil => exact h
    | cons hv hargs => exact ih (h.define lawful f x hv) hargs

end Stores

/-! ## What nodes mean -/

/-- The names of parameters, or the first part that is no name. -/
theorem parameterNames_alike {ns ns' : List Node} (h : List.Forall₂ K.Names ns ns') :
    (∃ xs, parameterNames ns = .ok xs ∧ parameterNames ns' = .ok (xs.map K.name)) ∨
      ∃ n n', parameterNames ns = .error (.unsupportedParameter n) ∧
        parameterNames ns' = .error (.unsupportedParameter n') ∧ K.named n n' := by
  induction h with
  | nil => exact .inl ⟨[], rfl, rfl⟩
  | @cons n n' ns ns' hn _ ih =>
    have identifier := hn.identifier
    unfold parameterNames
    cases hx : n.identifier? with
    | none =>
      rw [hx, Option.map_none] at identifier
      rw [identifier]
      exact .inr ⟨n, n', rfl, rfl, hn.named⟩
    | some x =>
      rw [hx, Option.map_some] at identifier
      rw [identifier]
      rcases ih with ⟨xs, left, right⟩ | ⟨m, m', left, right, hm⟩
      · exact .inl ⟨x :: xs, by simp [left, Except.map], by simp [right, Except.map]⟩
      · exact .inr ⟨m, m', by simp [left, Except.map], by simp [right, Except.map], hm⟩

theorem Looks.present {n n' : Node} (h : K.Looks n n') (hn : K.node n n') :
    Option.Rel K.node n.present? n'.present? := by
  cases h with
  | tree => exact .some hn
  | hollow => exact .some hn
  | word => exact .some hn
  | bare => exact .some hn
  | absent => exact .none

/-- The parts of a node all of whose parts are run. -/
theorem PartsAlike.nodes {label : Label} (hlabel : ∀ i, label.part i = .node) {i : Nat}
    {ns ns' : List Node} (h : K.PartsAlike label i ns ns') : List.Forall₂ K.node ns ns' := by
  induction h with
  | nil => exact .nil
  | @cons i n n' ns ns' part _ ih =>
    rw [hlabel] at part
    exact .cons part ih

theorem Looks.label {n n' : Node} (h : K.Looks n n') : n.label? = n'.label? := by
  cases h <;> rfl

/-- The bodies of two functions consist of counterparts. -/
theorem Looks.bodyParts {n n' : Node} (h : K.Looks n n') (block : n.label? = some .block)
    (hn : K.node n n') : List.Forall₂ K.node n.bodyParts n'.bodyParts := by
  cases h with
  | tree parts =>
    cases block
    exact parts.nodes fun _ => rfl
  | hollow => exact .cons hn .nil
  | word => cases block
  | bare => cases block
  | absent => cases block

section Forms

variable (lawful : K.Lawful) {f : FrameId}
include lawful

/-- An optional part is run in both runs or in none. -/
theorem optional_alike {n n' : Node} (h : K.node n n') :
    Option.Rel (fun m m' => K.node m m' ∧ f = f) n.present? n'.present? := by
  have present := (lawful.looks h).present h
  generalize n.present? = a at present ⊢
  generalize n'.present? = a' at present ⊢
  cases present with
  | none => exact .none
  | some h => exact .some ⟨h, rfl⟩

theorem declare_alike {x x' init init' : Node} (hx : K.Names x x') (h : K.node init init') :
    (K.runs host log).StatementAlike () f f (.declare x.plainText init.present?)
      (.declare x'.plainText init'.present?) := by
  rw [hx.text]
  refine .declare (optional_alike lawful h) fun _ hv hσ => ⟨(), le_refl _, ?_⟩
  exact hσ.define lawful f _ (value_iff.1 hv)

theorem reference_alike {x x' : Node} (hx : K.Names x x') :
    (K.runs host log).ExpressionAlike () f f (.reference x.plainText)
      (.reference x'.plainText) := by
  rw [hx.text]
  refine .reference (fun {σ σ'} hσ => ?_) (.inr (.of lawful (.undefinedVariable _)))
  have found := hσ.get lawful f x.plainText
  generalize σ.get? f _ = a at found ⊢
  generalize σ'.get? f _ = a' at found ⊢
  cases found with
  | none => exact .none
  | some hv => exact .some (value_iff.2 hv)

theorem assign_alike {x x' n n' : Node} (hx : K.Names x x') (h : K.node n n') :
    (K.runs host log).ExpressionAlike () f f (.assign x.plainText n) (.assign x'.plainText n') := by
  rw [hx.text]
  refine .assign ⟨h, rfl⟩ (fun {w v v' σ σ'} _ hv hσ => ?_)
    (.inr (.of lawful (.undefinedVariable _)))
  rw [hσ.resolve lawful]
  cases σ.resolve f x.plainText with
  | none => exact .none
  | some g => exact .some ⟨(), le_refl _, hσ.define lawful g _ (value_iff.1 hv)⟩

theorem function_alike (keeps : K.Keeps log) {x x' : Node} {ps ps' body body' : Node}
    (hx : K.Names x x') (hps : List.Forall₂ K.Names ps.parts ps'.parts)
    (hbody : K.node body body') :
    (K.runs host log).StatementAlike () f f (functionStatement x ps body)
      (functionStatement x' ps' body') := by
  have malformed : (K.runs host log).StatementAlike () f f (.invalid (.of .malformedFunction))
      (.invalid (.of .malformedFunction)) := .invalid (.of lawful .malformedFunction)
  unfold functionStatement
  rw [hx.identifier]
  cases x.identifier? with
  | none => exact malformed
  | some x =>
    have looks := lawful.looks hbody
    rw [← looks.label]
    by_cases block : body.label? = some .block
    · have statements := looks.bodyParts block hbody
      simp only [Option.map_some, block]
      rcases parameterNames_alike hps with ⟨xs, left, right⟩ | ⟨m, m', left, right, hm⟩
      · simp only [left, right]
        refine .function (fun {m σ σ'} hσ => ⟨(), le_refl _, ?_⟩) fun hl => ?_
        · exact hσ.define lawful f x (.function ⟨rfl, rfl, statements, rfl, rfl⟩)
        · rw [List.length_map]
          exact keeps (.declared x _) hl
      · simp only [left, right]
        exact .invalid (.of lawful (.unsupportedParameter hm))
    · simpa [block] using malformed

/-- Counterparts mean corresponding statements. -/
theorem statement_alike (keeps : K.Keeps log) {n n' : Node} (h : K.node n n') :
    (K.runs host log).StatementAlike () f f n.statement n'.statement := by
  have unknown : (K.runs host log).StatementAlike () f f (.invalid (.of (.unknownStatement n)))
      (.invalid (.of (.unknownStatement n'))) := .invalid (.of lawful (.unknownStatement h))
  have malformed :
      (K.runs host log).StatementAlike () f f (.invalid .malformed) (.invalid .malformed) :=
    .invalid .malformed
  have missing : (K.runs host log).StatementAlike () f f (.invalid .missing) (.invalid .missing) :=
    .invalid .missing
  cases lawful.looks h with
  | @tree label ns ns' _ _ parts =>
    cases label with
    | expressionStmt =>
      rcases parts with _ | ⟨value, _⟩
      · exact missing
      · exact .expression ⟨value, rfl⟩
    | printStmt =>
      rcases parts with _ | ⟨value, _⟩
      · exact missing
      · exact .print ⟨value, rfl⟩
    | variableDecl =>
      rcases parts with _ | ⟨x, _ | ⟨init, _ | _⟩⟩
      any_goals exact malformed
      exact declare_alike lawful x init
    | block =>
      have nodes := parts.nodes fun _ => rfl
      refine .block fun hσ => ⟨(), le_refl _, hσ.child f, ?_⟩
      exact nodes.imp fun _ _ hn => ⟨hn, hσ.size⟩
    | ifStmt =>
      rcases parts with _ | ⟨test, _ | ⟨yes, _ | ⟨no, _ | _⟩⟩⟩
      any_goals exact malformed
      exact .branch ⟨test, rfl⟩ ⟨yes, rfl⟩ (optional_alike lawful no)
    | whileStmt =>
      rcases parts with _ | ⟨test, _ | ⟨body, _ | _⟩⟩
      any_goals exact malformed
      exact .loop ⟨test, rfl⟩ ⟨body, rfl⟩
    | functionDecl =>
      rcases parts with _ | ⟨x, _ | ⟨params, _ | ⟨body, _ | _⟩⟩⟩
      any_goals exact malformed
      exact function_alike lawful keeps x params body
    | returnStmt =>
      rcases parts with _ | ⟨value, _⟩
      · exact .result .none
      · exact .result (optional_alike lawful value)
    | _ => exact unknown
  | @hollow label =>
    cases label with
    | expressionStmt | printStmt | variableDecl | block | ifStmt | whileStmt | functionDecl =>
      exact .invalid .hollow
    | returnStmt => exact .result .none
    | _ => exact unknown
  | word => exact unknown
  | bare => exact unknown
  | absent => exact unknown

/-- Counterparts mean corresponding expressions. -/
theorem expression_alike {n n' : Node} (h : K.node n n') :
    (K.runs host log).ExpressionAlike () f f n.expression n'.expression := by
  have unknown : (K.runs host log).ExpressionAlike () f f (.invalid (.of (.unknownExpression n)))
      (.invalid (.of (.unknownExpression n'))) := .invalid (.of lawful (.unknownExpression h))
  have malformed :
      (K.runs host log).ExpressionAlike () f f (.invalid .malformed) (.invalid .malformed) :=
    .invalid .malformed
  have missing : (K.runs host log).ExpressionAlike () f f (.invalid .missing) (.invalid .missing) :=
    .invalid .missing
  cases lawful.looks h with
  | @tree label ns ns' _ _ parts =>
    cases label with
    | trueLit => exact .constant (.bool true)
    | falseLit => exact .constant (.bool false)
    | nilLit => exact .constant .nil
    | reference =>
      rcases parts with _ | ⟨x, _⟩
      · exact missing
      · exact reference_alike lawful x
    | assign =>
      rcases parts with _ | ⟨x, _ | ⟨value, _ | _⟩⟩
      any_goals exact malformed
      exact assign_alike lawful x value
    | grouping =>
      rcases parts with _ | ⟨inner, _⟩
      · exact missing
      · exact .grouping ⟨inner, rfl⟩
    | unary =>
      rcases parts with _ | ⟨op, _ | ⟨operand, _ | _⟩⟩
      any_goals exact malformed
      have op : Node.plainText _ = Node.plainText _ := op
      show (K.runs host log).ExpressionAlike () f f (.unary _ _) (.unary _ _)
      rw [op]
      exact .unary ⟨operand, rfl⟩ (.inr (.of lawful (.unknownUnary _)))
    | binary =>
      rcases parts with _ | ⟨left, _ | ⟨op, _ | ⟨right, _ | _⟩⟩⟩
      any_goals exact malformed
      have op : Node.plainText _ = Node.plainText _ := op
      show (K.runs host log).ExpressionAlike () f f (.binary _ _ _) (.binary _ _ _)
      rw [op]
      exact .binary ⟨left, rfl⟩ ⟨right, rfl⟩ (.inr (.of lawful (.unknownBinary _)))
    | logical =>
      rcases parts with _ | ⟨left, _ | ⟨op, _ | ⟨right, _ | _⟩⟩⟩
      any_goals exact malformed
      have op : Node.plainText _ = Node.plainText _ := op
      show (K.runs host log).ExpressionAlike () f f (.logical _ _ _) (.logical _ _ _)
      rw [op]
      exact .logical ⟨left, rfl⟩ ⟨right, rfl⟩ (.inr (.of lawful (.unknownLogical _)))
    | call =>
      rcases parts with _ | ⟨callee, _ | ⟨args, _ | _⟩⟩
      any_goals exact malformed
      have args : List.Forall₂ K.node _ _ := args
      exact .call ⟨callee, rfl⟩ (args.imp fun _ _ ha => ⟨ha, rfl⟩)
    | _ => exact unknown
  | @hollow label =>
    cases label with
    | trueLit => exact .constant (.bool true)
    | falseLit => exact .constant (.bool false)
    | nilLit => exact .constant .nil
    | reference | assign | grouping | unary | binary | logical | call => exact .invalid .hollow
    | _ => exact unknown
  | @word kind text place place' =>
    show (K.runs host log).ExpressionAlike () f f (wordExpression kind text)
      (wordExpression kind text)
    unfold wordExpression
    split
    · split
      · exact .number _
      · exact malformed
    · exact .constant (.string _)
    · exact .invalid (.of lawful (.unhandledWord kind text))
  | bare => exact unknown
  | absent => exact unknown

end Forms

/-- **Counterparts are run alike**: if they look alike, the two runs satisfy the law of
`Lockstep`. -/
theorem Lawful.law (lawful : K.Lawful) (keeps : K.Keeps log) : (K.runs host log).Law where
  closure_mono _ h := h
  stmt_mono _ h := h
  expr_mono _ h := h
  closure_mark h := h.mark
  closure_arity h := by rw [h.params, List.length_map]
  output_push hv h := by
    simp only [runs, Array.toList_push] at h ⊢
    exact List.rel_append h (.cons (value_iff.1 hv) .nil)
  log_limitHit m hv hl := keeps (.limitHit m (value_iff.1 hv)) hl
  log_exhausted d hl := keeps (.exhausted d) hl
  log_interpreting n hl := keeps (.interpreting n) hl
  log_raisedLimit previous limit hl := keeps (.raisedLimit previous limit) hl
  fault_arity m n := .of lawful (.arityMismatch m n)
  fault_notCallable hv := .of lawful (.notCallable (value_iff.1 hv))
  fault_type op hvs := .of lawful (.typeMismatch op (values_iff.1 hvs))
  fault_limit m := .of lawful (.depthLimit m)
  fault_host d := .of lawful (.hostExhausted d)
  refused _ := .refused _
  exhausted := .exhausted
  exhausted_iff h := by
    cases h with
    | exhausted => exact ⟨fun _ => rfl, fun _ => rfl⟩
    | _ => exact ⟨(by cases ·), (by cases ·)⟩
  native_apply _ _ := .missing
  native_fail _ _ := .of lawful .nativeFailure
  locate_stmt hn he := Failures.locate lawful he hn.1
  locate_expr hn he := Failures.locate lawful he hn.1
  enter {_ c c' args args' σ σ'} hc hargs hσ := by
    have frames := (hσ.child c.frame).defineAll lawful σ.size c.params (values_iff.1 hargs)
    rw [← hc.frame, hc.params, ← hσ.size]
    exact ⟨(), le_refl _, frames, hc.body.imp fun _ _ hn => ⟨hn, rfl⟩⟩
  statement {_ n f n' f'} h := by
    obtain ⟨hn, rfl⟩ := h
    exact statement_alike lawful keeps hn
  expression {_ n f n' f'} h := by
    obtain ⟨hn, rfl⟩ := h
    exact expression_alike lawful hn

end Likeness

end LoxLang
