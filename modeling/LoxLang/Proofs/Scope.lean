import LoxLang.Proofs.Form
import LoxLang.Proofs.Lockstep.Uniform
import Mathlib

/-!
# Where names are declared

A statement declares names in the frame in which it is run, and only the names that can be read off
it; whatever else it does happens in frames that it makes. Evaluating an expression declares nothing
in a frame that exists already, also if it calls functions.

* `Node.declares_iff`: the names that a statement declares, read off it.
* `Node.declaredNames`: the same as a list, by the labels of the tree.
* `Ending.state?`: the state that a run leaves, however it ended.
* `Store.Scoped`: a store that was another one before, with more names only where they are allowed.
* `Store.names`: the names that a frame binds.

Results: `execute_scoped`, `evaluate_scoped`, `call_scoped`, `interpret_scoped`;
`declarations_never_leak` — the same in terms of the sets of names that frames bind.
-/

set_option autoImplicit false

namespace LoxLang

/-- What a node declares, by the statement that it is. -/
theorem Node.declares_iff (n : Node) (x : String) :
    n.Declares x ↔
      match n.statement with
      | .declare y _ => x = y
      | .function y _ _ => x = y
      | .branch _ a b => a.Declares x ∨ ∃ n, b = some n ∧ n.Declares x
      | .loop _ a => a.Declares x
      | _ => False := by
  constructor
  · intro h
    cases h with
    | declare h => simp only [h]
    | function h => simp only [h]
    | yes h ha =>
      simp only [h]
      exact .inl ha
    | no h hb =>
      simp only [h]
      exact .inr ⟨_, rfl, hb⟩
    | body h ha =>
      simp only [h]
      exact ha
  · intro h
    split at h
    · rename_i hn
      subst h
      exact .declare hn
    · rename_i hn
      subst h
      exact .function hn
    · rename_i hn
      rcases h with ha | ⟨b, rfl, hb⟩
      · exact .yes hn ha
      · exact .no hn hb
    · rename_i hn
      exact .body hn h
    · exact h.elim

/-- The names that a tree declares in the frame in which it is run, read off its labels: a branch
declares what one of its two parts declares, and a block nothing. -/
def Node.declaredNames : Node → List String
  | .tree .variableDecl [name, _] _ => [name.plainText]
  | .tree .functionDecl [name, _, _] _ => [name.plainText]
  | .tree .ifStmt [_, yes, no] _ => yes.declaredNames ++ no.declaredNames
  | .tree .whileStmt [_, body] _ => body.declaredNames
  | _ => []

theorem Node.Declares.mem_declaredNames {n : Node} {x : String} (h : n.Declares x) :
    x ∈ n.declaredNames := by
  induction h with
  | @declare n x init h =>
    cases Node.statementForm h
    simp [Node.declaredNames]
  | @function n x params body h =>
    cases Node.statementForm h with
    | @function name _ _ _ _ _ named =>
      -- the name of a function is an identifier, so its text is the declared name
      cases name with
      | word kind text place =>
        unfold Node.identifier? at named
        split at named <;> simp_all [Node.declaredNames, Node.plainText]
      | _ => cases named
  | @yes n test a b x h _ ih =>
    cases Node.statementForm h
    rw [Node.declaredNames]
    exact List.mem_append_left _ ih
  | @no n test a b x h _ ih =>
    have form := Node.statementForm h
    generalize hb : some b = other at form
    cases form with
    | branch =>
      rw [Node.declaredNames, Node.present?_eq hb.symm]
      exact List.mem_append_right _ ih
  | @body n test a x h _ ih =>
    cases Node.statementForm h
    rw [Node.declaredNames]
    exact ih

/-- A store that was `s` before, in which the frames of `s` bind their names and perhaps names of
`D`. -/
structure Store.Scoped (s : Store) (D : FrameId → String → Prop) (t : Store) : Prop where
  grown : s.Extends t
  names : ∀ {f x}, f < s.size → (t.vars f).binds x = true →
    (s.vars f).binds x = true ∨ D f x

namespace Store.Scoped

variable {s t : Store} {D : FrameId → String → Prop}

theorem refl (s : Store) (D : FrameId → String → Prop) : s.Scoped D s :=
  ⟨.refl s, fun _ h => .inl h⟩

/-- A name is bound in a new frame, or it is allowed, or it was bound already. -/
theorem define (h : s.Scoped D t) {f : FrameId} {x : String} (v : Value)
    (hx : (s.size ≤ f ∨ D f x) ∨ (t.vars f).binds x = true) :
    s.Scoped D (t.define f x v) := by
  refine ⟨h.grown.define f x v, fun {g y} hg hy => ?_⟩
  rcases binds_vars_define hy with ⟨rfl, rfl⟩ | hy
  · rcases hx with (hx | hx) | hx
    · exact absurd hg (Nat.not_lt.2 hx)
    · exact .inr hx
    · exact h.names hg hx
  · exact h.names hg hy

theorem child (h : s.Scoped D t) (f : FrameId) : s.Scoped D (t.child f) := by
  refine ⟨h.grown.child f, fun hg hy => h.names hg ?_⟩
  rw [vars_child] at hy
  exact hy

end Store.Scoped

theorem scoped_uniform (s : Store) (D : FrameId → String → Prop) :
    Lockstep.Uniform (fun (_ : Unit) σ σ' => σ = σ' ∧ s.Scoped D σ) (fun _ _ => True)
      (fun _ f x => s.size ≤ f ∨ D f x) Eq where
  frame_mono _ h := h
  names_mono _ h := h
  output_push h := by rw [h]
  size_eq h := congrArg _ h.1
  lookup {_ _ _ f x} _ h := ⟨congrArg (·.get? f x) h.1, fun _ _ _ _ => trivial⟩
  resolve {_ _ _ f x} _ h := ⟨congrArg (·.resolve f x) h.1, fun _ _ => trivial⟩
  define {_ σ σ' f x v} _ hx _ h := by
    obtain ⟨rfl, kept⟩ := h
    exact ⟨rfl, kept.define v hx⟩
  child {_ σ σ' f} _ h := by
    obtain ⟨rfl, kept⟩ := h
    exact ⟨(), le_refl _, ⟨rfl, kept.child f⟩, trivial, fun _ => .inl kept.grown.size⟩

/-- Two equal runs from the state `s`, with names declared in its frames only as `D` allows. -/
abbrev scopedRuns (host : Host) (s : State) (D : FrameId → String → Prop) : Lockstep Unit :=
  .uniform host (fun _ σ σ' => σ = σ' ∧ s.store.Scoped D σ) (fun _ _ => True)
    (fun _ f x => s.store.size ≤ f ∨ D f x) Eq

variable {host : Host} {fuel : Nat} {n : Node} {f : FrameId} {s t : State}

theorem scopedRuns_start (host : Host) (s : State) (D : FrameId → String → Prop) :
    (scopedRuns host s D).StateAlike () s s :=
  ⟨⟨rfl, .refl _ D⟩, rfl, rfl, rfl, rfl, rfl, rfl⟩

theorem scopedRuns_ends {α α' : Type} {D : FrameId → String → Prop}
    {V : Unit → α → α' → Prop} {e : Ending α} {e' : Ending α'}
    (h : (scopedRuns host s D).Ends () V e e') (ht : e.state? = some t) :
    s.store.Scoped D t.store := by
  cases h with
  | done _ states _ =>
    cases ht
    exact states.store.2
  | failed _ states _ =>
    cases ht
    exact states.store.2
  | outOfFuel => cases ht

/-- **A statement declares names in its own frame only.** However it ends, the frames that existed
have kept their names and the frames around them, and at most the names that it declares are new in
the frame in which it was run. -/
theorem execute_scoped (h : (execute host fuel n f s).state? = some t) :
    s.store.Scoped (fun g x => g = f ∧ n.Declares x) t.store := by
  have law : (scopedRuns host s fun g x => g = f ∧ n.Declares x).Law :=
    (scoped_uniform s.store _).law
  refine scopedRuns_ends (law.execute fuel ⟨rfl, rfl, trivial, fun x hx => ?_⟩ s s ?_) h
  · exact .inr ⟨rfl, hx⟩
  · exact scopedRuns_start host s _

/-- **An expression declares nothing in the frames that exist.** -/
theorem evaluate_scoped (h : (evaluate host fuel n f s).state? = some t) :
    s.store.Scoped (fun _ _ => False) t.store := by
  have law : (scopedRuns host s fun _ _ => False).Law := (scoped_uniform s.store _).law
  exact scopedRuns_ends
    (law.evaluate fuel ⟨rfl, rfl, trivial⟩ s s (scopedRuns_start host s _)) h

/-- So does a call. -/
theorem call_scoped {callee : Value} {args : List Value}
    (h : (call host fuel callee args s).state? = some t) :
    s.store.Scoped (fun _ _ => False) t.store := by
  have law : (scopedRuns host s fun _ _ => False).Law := (scoped_uniform s.store _).law
  have alike : ∀ v, (scopedRuns host s fun _ _ => False).ValueAlike () v v :=
    fun v => Lockstep.uniform_value_iff.2 ⟨rfl, fun _ _ => trivial⟩
  have all : List.Forall₂ ((scopedRuns host s fun _ _ => False).ValueAlike ()) args args :=
    List.forall₂_same.2 fun v _ => alike v
  exact scopedRuns_ends (law.call fuel (alike callee) all s s (scopedRuns_start host s _)) h

/-- A program declares in the globals what its statements declare. -/
theorem interpret_scoped {program : List Node}
    (h : (interpret host fuel program s).state? = some t) :
    s.store.Scoped (fun g x => g = host.globals ∧ ∃ n ∈ program, n.Declares x) t.store := by
  let D : FrameId → String → Prop :=
    fun g x => g = host.globals ∧ ∃ n ∈ program, n.Declares x
  have law : (scopedRuns host s D).Law := (scoped_uniform s.store D).law
  have alike :
      List.Forall₂ (fun n n' => (scopedRuns host s D).stmt () n host.globals n' host.globals)
        program program :=
    List.forall₂_same.2 fun n hn => ⟨rfl, rfl, trivial, fun x hx => .inr ⟨rfl, n, hn, hx⟩⟩
  exact scopedRuns_ends (law.interpret fuel alike s s (scopedRuns_start host s D)) h

/-! ## Sets of names -/

/-- The names that a frame binds. -/
def Store.names (s : Store) (f : FrameId) : Set String := {x | (s.vars f).binds x = true}

namespace Store.Scoped

variable {σ τ : Store} {D : FrameId → String → Prop} {g : FrameId}

theorem names_subset (h : σ.Scoped D τ) (g : FrameId) : σ.names g ⊆ τ.names g :=
  fun _ hx => h.grown.binds hx

/-- A frame in which nothing may be declared binds the same names. -/
theorem names_eq (h : σ.Scoped D τ) (hg : g < σ.size) (none : ∀ x, ¬ D g x) :
    τ.names g = σ.names g := by
  refine Set.Subset.antisymm (fun x hx => ?_) (h.names_subset g)
  exact (h.names hg hx).resolve_right (none x)

theorem names_subset_union (h : σ.Scoped D τ) (hg : g < σ.size) :
    τ.names g ⊆ σ.names g ∪ {x | D g x} := fun _ hx => h.names hg hx

end Store.Scoped

/-- **Declarations never leak.** However a statement ends, every frame that existed binds exactly
the names that it bound, except for the frame in which the statement was run: it has kept its names,
and what is new in it the statement declares. Evaluating an expression and calling a function change
the names of no frame. So a program adds to the globals only what its statements declare outside
blocks and functions. -/
theorem declarations_never_leak (host : Host) (fuel : Nat) (s t : State) :
    (∀ n f, (execute host fuel n f s).state? = some t →
      (∀ g < s.store.size, g ≠ f → t.store.names g = s.store.names g) ∧
      (f < s.store.size → s.store.names f ⊆ t.store.names f ∧
        t.store.names f ⊆ s.store.names f ∪ {x | x ∈ n.declaredNames})) ∧
    (∀ n f, (evaluate host fuel n f s).state? = some t →
      ∀ g < s.store.size, t.store.names g = s.store.names g) ∧
    (∀ callee args, (call host fuel callee args s).state? = some t →
      ∀ g < s.store.size, t.store.names g = s.store.names g) ∧
    (∀ program, (interpret host fuel program s).state? = some t →
      (∀ g < s.store.size, g ≠ host.globals → t.store.names g = s.store.names g) ∧
      (host.globals < s.store.size → s.store.names host.globals ⊆ t.store.names host.globals ∧
        t.store.names host.globals ⊆
          s.store.names host.globals ∪ {x | ∃ n ∈ program, x ∈ n.declaredNames})) := by
  refine ⟨fun n f h => ?_, fun n f h g hg => ?_, fun callee args h g hg => ?_,
    fun program h => ?_⟩
  · have kept := execute_scoped h
    refine ⟨fun g hg other => kept.names_eq hg fun x hx => other hx.1, fun hf => ?_⟩
    refine ⟨kept.names_subset f, (kept.names_subset_union hf).trans ?_⟩
    exact Set.union_subset_union_right _ fun x hx => hx.2.mem_declaredNames
  · exact (evaluate_scoped h).names_eq hg fun _ hx => hx
  · exact (call_scoped h).names_eq hg fun _ hx => hx
  · have kept := interpret_scoped h
    refine ⟨fun g hg other => kept.names_eq hg fun x hx => other hx.1, fun hf => ?_⟩
    refine ⟨kept.names_subset _, (kept.names_subset_union hf).trans ?_⟩
    refine Set.union_subset_union_right _ fun x hx => ?_
    obtain ⟨-, n, hn, declares⟩ := hx
    exact ⟨n, hn, declares.mem_declaredNames⟩

/-- The declaration of a variable without a value. -/
def declarationOf (x : String) : Node :=
  .tree .variableDecl [.word (.terminal .identifier) x .unknown, .absent] .unknown

/-- A branch that declares `a`, and a block that declares `b`: the globals of a new machine come to
bind `a`, and nothing else. -/
theorem declarations_never_leak_branch :
    let host : Host := ⟨0, 200, ⟨1000, 10⟩, fun _ => false, fun _ => 0⟩
    let program : List Node :=
      [.tree .ifStmt [.tree .trueLit [] .unknown, declarationOf "a", .absent] .unknown,
        .tree .block [declarationOf "b"] .unknown]
    ∃ t, (interpret host 5 program State.fresh).state? = some t ∧ "a" ∈ t.store.names 0 ∧
      t.store.names 0 ⊆ State.fresh.store.names 0 ∪ {"a"} := by
  intro host program
  have ran :
      (interpret host 5 program State.fresh).state?.map (fun t => (t.store.vars 0).binds "a") =
        some true := by decide +kernel
  obtain ⟨t, ends, bound⟩ := Option.map_eq_some_iff.1 ran
  have exists_globals : host.globals < State.fresh.store.size := by decide
  have declared : {x | ∃ n ∈ program, x ∈ n.declaredNames} = {"a"} := by
    ext x
    simp [program, declarationOf, Node.declaredNames, Node.plainText]
  have limits :=
    (((declarations_never_leak host 5 State.fresh t).2.2.2 program ends).2 exists_globals).2
  rw [declared] at limits
  exact ⟨t, ends, bound, limits⟩

end LoxLang
