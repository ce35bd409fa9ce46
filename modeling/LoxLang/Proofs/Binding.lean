import LoxLang.Proofs.Chain
import LoxLang.Proofs.Form
import LoxLang.Proofs.Lockstep.Single
import Mathlib

/-!
# Names that are bound globally stay bound

If the globals bind every name that a program reads or assigns, no variable is ever undefined: each
frame that is made stands on a chain that ends in the globals, also the frames of calls through
functions that have outlived the block they were declared in, and no frame loses a name.

* `Node.usedNames`: the names that a tree reads or assigns, function bodies included.
* `Closure.Rooted`, `Value.Rooted`, `Store.Rooted`: functions and frames that stand, however deep,
  inside the globals.
* `Store.NoFunctions`: no function has been declared in the globals or in a later frame.
* `rootedRuns`: runs of nodes that read and assign bound names only.

Results: `Store.Rooted.resolve` — in a rooted store every such name is found from every frame;
`bound_names_found`.
-/

set_option autoImplicit false

namespace LoxLang

/-! ## The names of a program -/

namespace Node

mutual

/-- The names that a tree reads or assigns. -/
def usedNames : Node → List String
  | .tree .reference (name :: rest) _ => name.plainText :: usedNamesAll (name :: rest)
  | .tree .assign [name, value] _ => name.plainText :: usedNamesAll [name, value]
  | .tree _ parts _ => usedNamesAll parts
  | _ => []

/-- The names that several trees read or assign. -/
def usedNamesAll : List Node → List String
  | [] => []
  | node :: rest => node.usedNames ++ usedNamesAll rest

end

/-- All names that the tree reads or assigns are among the given ones. -/
def NamesIn (N : Set String) (n : Node) : Prop := ∀ x ∈ n.usedNames, x ∈ N

theorem usedNamesAll_eq (ns : List Node) : usedNamesAll ns = ns.flatMap usedNames := by
  induction ns with
  | nil => rfl
  | cons n ns ih => rw [usedNamesAll, ih, List.flatMap_cons]

variable {N : Set String} {n m : Node} {x : String}

theorem mem_usedNames_of_part (hm : m ∈ n.parts) (hx : x ∈ m.usedNames) :
    x ∈ n.usedNames := by
  have among (ns : List Node) (hm : m ∈ ns) : x ∈ usedNamesAll ns := by
    rw [usedNamesAll_eq]
    exact List.mem_flatMap.2 ⟨m, hm, hx⟩
  unfold usedNames
  split
  · exact List.mem_cons_of_mem _ (among _ hm)
  · exact List.mem_cons_of_mem _ (among _ hm)
  · exact among _ hm
  · rename_i other
    cases n with
    | tree label parts place => exact absurd rfl (other label parts place)
    | _ => cases hm

theorem NamesIn.part (h : n.NamesIn N) (hm : m ∈ n.parts) : m.NamesIn N :=
  fun x hx => h x (mem_usedNames_of_part hm hx)

end Node

/-! ## Frames inside the globals -/

/-- A function that was declared in one of the frames from the globals `G` on, of which there are
`size`, and that reads and assigns names of `N` only. -/
structure Closure.Rooted (G : FrameId) (N : Set String) (size : Nat) (c : Closure) : Prop where
  inside : G ≤ c.frame
  existing : c.frame < size
  body : ∀ n ∈ c.body, n.NamesIn N

/-- Declared functions are rooted; other values are not restricted. -/
def Value.Rooted (G : FrameId) (N : Set String) (size : Nat) : Value → Prop
  | .function c => c.Rooted G N size
  | _ => True

/-- The globals `G` bind the names `N`, and every later frame is inside an earlier one, from the
globals on. -/
structure Store.Rooted (G : FrameId) (N : Set String) (s : Store) : Prop where
  existing : G < s.size
  outermost : s.parent? G = none
  around : ∀ f, G < f → f < s.size → ∃ p, s.parent? f = some p ∧ G ≤ p ∧ p < f
  names : ∀ x ∈ N, (s.vars G).binds x = true
  values : ∀ f x v, G ≤ f → (s.vars f).get? x = some v → v.Rooted G N s.size

theorem Value.Rooted.of_data {G : FrameId} {N : Set String} {size : Nat} {v : Value}
    (data : ∀ c, v ≠ .function c) : v.Rooted G N size := by
  cases v with
  | function c => exact absurd rfl (data c)
  | _ => trivial

theorem Value.Rooted.mono {G : FrameId} {N : Set String} {size size' : Nat} {v : Value}
    (h : v.Rooted G N size) (more : size ≤ size') : v.Rooted G N size' := by
  cases v with
  | function c => exact ⟨h.inside, Nat.lt_of_lt_of_le h.existing more, h.body⟩
  | _ => trivial

namespace Store.Rooted

variable {G f g p : FrameId} {N : Set String} {s : Store} {x : String} {v : Value}
    (h : s.Rooted G N)
include h

/-- The chain of a frame ends in the globals. -/
theorem eq_globals (hf : G ≤ f) (hf' : f < s.size) (last : s.outer? f = none) : f = G := by
  by_contra other
  obtain ⟨p, hp, -, earlier⟩ := h.around f (Nat.lt_of_le_of_ne hf (Ne.symm other)) hf'
  rw [outer?_eq, hp] at last
  simp [Option.filter, earlier] at last

theorem outer (hf : G ≤ f) (hf' : f < s.size) (hp : s.outer? f = some p) :
    G ≤ p ∧ p < s.size := by
  have parent := outer?_parent? hp
  rcases Nat.eq_or_lt_of_le hf with rfl | later
  · rw [h.outermost] at parent
    cases parent
  · obtain ⟨q, hq, inside, earlier⟩ := h.around f later hf'
    cases hq.symm.trans parent
    exact ⟨inside, earlier.trans hf'⟩

/-- **Names of the globals are found from every frame.** -/
theorem resolve (hf : G ≤ f) (hf' : f < s.size) (hx : x ∈ N) : (s.resolve f x).isSome := by
  induction f using s.resolve_induct (x := x) with
  | bound f hb =>
    rw [resolve_eq, if_pos hb]
    rfl
  | last f hb hp =>
    rw [h.eq_globals hf hf' hp, h.names x hx] at hb
    cases hb
  | outer f p hb hp ih =>
    obtain ⟨inside, existing⟩ := h.outer hf hf' hp
    rw [resolve_eq, hb, hp]
    exact ih inside existing

/-- What is found stands inside the globals. -/
theorem owner (hf : G ≤ f) (hf' : f < s.size) (found : s.resolve f x = some g) : G ≤ g := by
  induction f using s.resolve_induct (x := x) with
  | bound f hb =>
    rw [resolve_eq, if_pos hb] at found
    cases found
    exact hf
  | last f hb hp =>
    rw [resolve_eq, hb, hp] at found
    cases found
  | outer f p hb hp ih =>
    obtain ⟨inside, existing⟩ := h.outer hf hf' hp
    rw [resolve_eq, hb, hp] at found
    exact ih inside existing found

theorem get? (hf : G ≤ f) (hf' : f < s.size) (hv : s.get? f x = some v) :
    v.Rooted G N s.size := by
  rw [get?_eq] at hv
  obtain ⟨g, found, hv⟩ := Option.bind_eq_some_iff.1 hv
  exact h.values g x v (h.owner hf hf' found) hv

theorem define (hv : v.Rooted G N s.size) (f : FrameId) (x : String) :
    (s.define f x v).Rooted G N := by
  refine ⟨by simpa using h.existing, by simpa using h.outermost,
    fun g => by simpa using h.around g, fun y hy =>
      binds_define s v (h.names y hy), fun g y u hg hu => ?_⟩
  rw [size_define]
  rcases get?_vars_define hu with rfl | hu
  · exact hv
  · exact h.values g y u hg hu

theorem child (hf : G ≤ f) (hf' : f < s.size) : (s.child f).Rooted G N := by
  refine ⟨?_, ?_, fun g hg hg' => ?_, fun y hy => by simpa using h.names y hy,
    fun g y u hg hu => ?_⟩
  · rw [size_child]
    exact Nat.lt_succ_of_lt h.existing
  · rw [parent?_child, if_neg (Nat.ne_of_lt h.existing), h.outermost]
  · rw [parent?_child]
    by_cases new : g = s.size
    · rw [if_pos new]
      exact ⟨f, rfl, hf, new ▸ hf'⟩
    · rw [if_neg new]
      rw [size_child] at hg'
      exact h.around g hg (Nat.lt_of_le_of_ne (Nat.le_of_lt_succ hg') new)
  · rw [vars_child] at hu
    rw [size_child]
    exact (h.values g y u hg hu).mono (Nat.le_succ _)

/-- Several definitions in a store that has grown from this one. -/
theorem defineAll {b : Bindings} (f : FrameId) (hb : ∀ p ∈ b, p.2.Rooted G N s.size) :
    (s.defineAll f b).Rooted G N := by
  refine (defineAll_induct (P := fun t => t.Rooted G N ∧ t.size = s.size) f b ⟨h, rfl⟩ ?_).1
  rintro t x v hv ⟨rooted, size⟩
  refine ⟨rooted.define ?_ f x, by rw [size_define, size]⟩
  rw [size]
  exact hb (x, v) hv

end Store.Rooted

/-- No declared function is bound from the frame `G` on. -/
def Store.NoFunctions (G : FrameId) (s : Store) : Prop :=
  ∀ f x v, G ≤ f → (s.vars f).get? x = some v → ∀ c, v ≠ .function c

theorem Store.NoFunctions.defineAll {G : FrameId} {s : Store} (h : s.NoFunctions G) (f : FrameId)
    {b : Bindings} (hb : ∀ p ∈ b, ∀ c, p.2 ≠ .function c) :
    (s.defineAll f b).NoFunctions G := by
  refine defineAll_induct f b h fun t y u hu ht g x v hg hv => ?_
  rcases get?_vars_define hv with rfl | hv
  · exact hb _ hu
  · exact ht g x v hg hv

/-- The globals of a new machine, to which values other than declared functions have been added. -/
theorem Store.Rooted.start {N : Set String} (s : Store) (natives : List Native) {added : Bindings}
    (data : ∀ p ∈ added, ∀ c, p.2 ≠ .function c)
    (names : ∀ x ∈ N, (((s.withGlobals natives).defineAll s.size added).vars s.size).binds x =
      true) :
    ((s.withGlobals natives).defineAll s.size added).Rooted s.size N := by
  have root : s.root.NoFunctions s.size := by
    intro f x v hf hv
    rw [vars_root, vars_eq_nil hf] at hv
    cases hv
  have builtin : (s.withGlobals natives).NoFunctions s.size := root.defineAll _ (by simp)
  have values := builtin.defineAll s.size data
  refine ⟨?_, ?_, fun f hf hf' => ?_, names, fun f x v hf hv => .of_data (values f x v hf hv)⟩
  · simp [withGlobals]
  · simp [withGlobals, parent?_eq_none (Nat.le_refl _)]
  · simp only [withGlobals, size_defineAll, size_root] at hf'
    exact absurd hf' (Nat.not_lt.2 hf)

/-! ## Runs -/

/-- Runs of nodes that read and assign names of `N` only, in frames inside the globals. No variable
is undefined. -/
def rootedRuns (host : Host) (N : Set String) : Lockstep.Single Nat where
  host := host
  store k σ := σ.size = k ∧ σ.Rooted host.globals N
  closure k c := c.Rooted host.globals N k
  native _ := True
  failure e := ∀ x location, e ≠ .fault (.undefinedVariable x) location
  stmt k n f := host.globals ≤ f ∧ f < k ∧ n.NamesIn N
  expr k n f := host.globals ≤ f ∧ f < k ∧ n.NamesIn N

section Runs

variable {host : Host} {N : Set String} {k : Nat} {f : FrameId} {n : Node}

theorem rooted_holds (v : Value) : (rootedRuns host N).Holds k v ↔ v.Rooted host.globals N k := by
  cases v <;> exact Iff.rfl

theorem ofForm_defined {e : Failure} (h : e.OfForm) (x : String) (location : Option Location) :
    e ≠ .fault (.undefinedVariable x) location := by
  cases h <;> nofun

theorem rooted_define {x : String} {v v' : Value} {σ σ' : Store}
    (hv : (rootedRuns host N).runs.ValueAlike k v v')
    (hσ : (rootedRuns host N).runs.store k σ σ') :
    ∃ k₁, k ≤ k₁ ∧
      (rootedRuns host N).runs.store k₁ (σ.define f x v) (σ'.define f x v') := by
  obtain ⟨rfl, held⟩ := Lockstep.Single.value_iff.1 hv
  obtain ⟨rfl, rfl, rooted⟩ := hσ
  exact ⟨σ.size, Nat.le_refl _, rfl, Store.size_define ..,
    rooted.define ((rooted_holds v).1 held) f x⟩

/-- A new frame inside one that is rooted. -/
theorem rooted_child {σ : Store} (hσ : (rootedRuns host N).store k σ) (hf : host.globals ≤ f)
    (hf' : f < k) :
    (rootedRuns host N).store (k + 1) (σ.child f) ∧ host.globals ≤ σ.size ∧
      σ.size < k + 1 := by
  obtain ⟨rfl, rooted⟩ := hσ
  exact ⟨⟨Store.size_child .., rooted.child hf hf'⟩, Nat.le_of_lt rooted.existing,
    Nat.lt_succ_self _⟩

theorem rooted_found {x : String} (hf : host.globals ≤ f) (hf' : f < k) (hx : x ∈ N) :
    (rootedRuns host N).runs.Found k f x := by
  rintro k₁ σ σ' later ⟨rfl, rfl, rooted⟩
  exact rooted.resolve hf (Nat.lt_of_lt_of_le hf' later) hx

theorem rooted_statement {st : Statement} (form : StatementForm n st)
    (h : (rootedRuns host N).stmt k n f) : (rootedRuns host N).runs.StatementAlike k f f st st := by
  obtain ⟨hf, hf', names⟩ := h
  have part {m : Node} (hm : m ∈ n.parts) : (rootedRuns host N).runs.expr k m f m f :=
    ⟨rfl, rfl, hf, hf', names.part hm⟩
  have optional {m : Node} (hm : m ∈ n.parts) : Option.Rel
      (fun m m' => (rootedRuns host N).runs.expr k m f m' f) m.present? m.present? :=
    Lockstep.Single.optional fun e he => Node.present?_eq he ▸ (part hm).2.2
  cases form with
  | expression => exact .expression (part (.head _))
  | print => exact .print (part (.head _))
  | declare => exact .declare (optional (.tail _ (.head _))) fun _ hv hσ => rooted_define hv hσ
  | block =>
    refine .block fun {σ σ'} hσ => ?_
    obtain ⟨rfl, hσ⟩ := hσ
    obtain ⟨store, inside, existing⟩ := rooted_child hσ hf hf'
    exact ⟨k + 1, Nat.le_succ k, ⟨rfl, store⟩,
      Lockstep.Single.nodes fun m hm => ⟨inside, existing, names.part hm⟩⟩
  | branch =>
    exact .branch (part (.head _)) (part (.tail _ (.head _)))
      (optional (.tail _ (.tail _ (.head _))))
  | loop => exact .loop (part (.head _)) (part (.tail _ (.head _)))
  | @function name params body place x ps _ =>
    have hbody : body.NamesIn N := names.part (.tail _ (.tail _ (.head _)))
    refine .function (fun {m σ σ'} hσ => rooted_define ?_ hσ) fun hl =>
      Lockstep.Single.log_push _ hl
    exact Lockstep.Single.value_iff.2 ⟨rfl, hf, hf',
      Node.bodyParts_of_parts hbody fun _ => hbody.part⟩
  | result => exact .result (optional (.head _))
  | bareResult => exact .result .none
  | invalid ill => exact .invalid ⟨rfl, ofForm_defined ill⟩

theorem rooted_expression {e : Expression} (form : ExpressionForm n e)
    (h : (rootedRuns host N).expr k n f) : (rootedRuns host N).runs.ExpressionAlike k f f e e := by
  obtain ⟨hf, hf', names⟩ := h
  have part {m : Node} (hm : m ∈ n.parts) : (rootedRuns host N).runs.expr k m f m f :=
    ⟨rfl, rfl, hf, hf', names.part hm⟩
  cases form with
  | constant data =>
    exact .constant (Lockstep.Single.value_iff.2 ⟨rfl, (rooted_holds _).2 (.of_data data)⟩)
  | number => exact .number _
  | @reference name rest place =>
    have found : name.plainText ∈ N := names _ (by simp [Node.usedNames])
    refine .reference (fun {σ σ'} hσ => ?_) (.inl (rooted_found hf hf' found))
    obtain ⟨rfl, rfl, rooted⟩ := hσ
    cases hv : σ.get? f name.plainText with
    | none => exact .none
    | some v =>
      exact .some
        (Lockstep.Single.value_iff.2 ⟨rfl, (rooted_holds v).2 (rooted.get? hf hf' hv)⟩)
  | @assign name value place =>
    have found : name.plainText ∈ N := names _ (by simp [Node.usedNames])
    refine .assign (part (.tail _ (.head _))) (fun {k₁ v v' σ σ'} _ hv hσ => ?_)
      (.inl (rooted_found hf hf' found))
    rw [← hσ.1]
    cases σ.resolve f name.plainText with
    | none => exact .none
    | some g => exact .some (rooted_define hv ⟨rfl, hσ.2⟩)
  | grouping => exact .grouping (part (.head _))
  | unary => exact .unary (part (.tail _ (.head _))) (.inr ⟨rfl, nofun⟩)
  | binary =>
    exact .binary (part (.head _)) (part (.tail _ (.tail _ (.head _)))) (.inr ⟨rfl, nofun⟩)
  | logical =>
    exact .logical (part (.head _)) (part (.tail _ (.tail _ (.head _)))) (.inr ⟨rfl, nofun⟩)
  | @call callee arguments place =>
    have list : arguments.NamesIn N := names.part (.tail _ (.head _))
    exact .call (part (.head _))
      (List.forall₂_same.2 fun a ha => ⟨rfl, rfl, hf, hf', list.part ha⟩)
  | invalid ill => exact .invalid ⟨rfl, ofForm_defined ill⟩

/-- Runs in which all names are bound globally keep the frames rooted. -/
theorem rooted_law (host : Host) (N : Set String) : (rootedRuns host N).Law where
  closure_mono later hc := ⟨hc.inside, Nat.lt_of_lt_of_le hc.existing later, hc.body⟩
  stmt_mono later hn := ⟨hn.1, Nat.lt_of_lt_of_le hn.2.1 later, hn.2.2⟩
  expr_mono later hn := ⟨hn.1, Nat.lt_of_lt_of_le hn.2.1 later, hn.2.2⟩
  raised h := by cases h <;> nofun
  refused _ := nofun
  exhausted := nofun
  native_apply _ _ := nofun
  native_fail _ _ := nofun
  locate {e} place he := by
    cases e with
    | fault cause location =>
      cases location with
      | none =>
        intro x l hx
        cases hx
        exact he x none rfl
      | some l => exact he
    | _ => exact he
  enter {k c args σ} hc hargs hσ := by
    obtain ⟨⟨size, rooted⟩, inside, existing⟩ := rooted_child hσ hc.inside hc.existing
    refine ⟨k + 1, Nat.le_succ k,
      ⟨by rw [Store.size_defineAll, size], rooted.defineAll _ fun p hp => ?_⟩,
        fun n hn => ⟨inside, existing, hc.body n hn⟩⟩
    have held := (rooted_holds p.2).1 (hargs p.2 (List.of_mem_zip hp).2)
    exact held.mono (by rw [size]; exact Nat.le_succ k)
  statement h := rooted_statement (Node.statementForm rfl) h
  expression h := rooted_expression (Node.expressionForm rfl) h

end Runs

/-- **Names that are bound globally stay bound.** On a new machine to which any values but declared
functions were added, beside whatever machines exist: if the globals bind every name that the
program reads or assigns, then no variable is ever undefined, whatever the program shadows,
redeclares, captures or calls. -/
theorem bound_names_found (host : Host) (fuel : Nat) (program : List Node) (before : Store)
    (natives : List Native) (added : Bindings) (s : State)
    (new : s.store = (before.withGlobals natives).defineAll before.size added)
    (globals : host.globals = before.size) (data : ∀ p ∈ added, ∀ c, p.2 ≠ .function c)
    (bound : ∀ n ∈ program, ∀ x ∈ n.usedNames, (s.store.vars host.globals).binds x = true)
    (x : String) (location : Option Location) (t : State) :
    interpret host fuel program s ≠ .failed (.fault (.undefinedVariable x) location) t := by
  let N : Set String := {x | (s.store.vars host.globals).binds x = true}
  have rooted : s.store.Rooted host.globals N := by
    rw [new, globals]
    refine .start before natives data fun y hy => ?_
    rwa [← new, ← globals]
  have ends := (rooted_law host N).interpret fuel ⟨rfl, rooted⟩ fun n hn =>
    ⟨Nat.le_refl _, rooted.existing, bound n hn⟩
  intro failed
  rw [show (rootedRuns host N).host = host from rfl, failed] at ends
  cases ends with
  | failed _ _ failures => exact failures.2 x location rfl

/-- The program `fun f(x) { return y; } y = f(y);` on a new machine to which `f` and `y` were added:
whatever the function reads is found, also after it was declared again. -/
theorem bound_names_found_function :
    let host : Host := ⟨0, 200, ⟨1000, 10⟩, fun _ => false, fun _ => 0⟩
    let word (x : String) : Node := .word (.terminal .identifier) x .unknown
    let reference (x : String) : Node := .tree .reference [word x] .unknown
    let declared : Node := .tree .functionDecl [word "f", .tree .parameters [word "x"] .unknown,
      .tree .block [.tree .returnStmt [reference "y"] .unknown] .unknown] .unknown
    let called : Node :=
      .tree .call [reference "f", .tree .arguments [reference "y"] .unknown] .unknown
    let program : List Node :=
      [declared, .tree .expressionStmt [.tree .assign [word "y", called] .unknown] .unknown]
    let added : Bindings := [("f", .nil), ("y", .bool true)]
    let s : State := { store := (Store.empty.withGlobals builtins).defineAll 0 added }
    (∀ n ∈ program, ∀ x ∈ n.usedNames, (s.store.vars 0).binds x = true) ∧
      ∀ t, interpret host 10 program s ≠ .failed (.fault (.undefinedVariable "y") none) t := by
  intro host word reference declared called program added s
  have data : ∀ p ∈ added, ∀ c, p.2 ≠ .function c := by simp [added]
  have bound : ∀ n ∈ program, ∀ x ∈ n.usedNames, (s.store.vars 0).binds x = true := by
    decide
  exact ⟨bound,
    bound_names_found host 10 program .empty builtins added s rfl rfl data bound "y" none⟩

end LoxLang
