import LoxLang.Proofs.Lockstep.Uniform
import Mathlib

/-!
# What a run can see

A node that is run in a frame works on the frames that can be reached from it, and on the frames it
makes. It neither reads nor writes the bindings of any other frame.

* `Store.Reaches`: the frames that can be reached, along the frames around a frame and through the
  declared functions that are bound in frames reached already.
* `Store.AgreeOn`, `State.AgreeOn`: stores and states that differ at most in the bindings of frames
  outside a region.
* `Store.Closed`: a region from which nothing leads out.
* `Ending.Confined`: how two runs compare that start in states which agree on the reachable frames.

Results: `run_confined_to_reachable` — execution and evaluation end in the same way in both
states, with the same output and the same new frames, the reachable and the new frames agree again,
and in each run the frames that cannot be reached keep their bindings. The proof takes the reachable
and all later frames as one region, which is closed from the beginning and stays so although
closures are made, stored, passed and called.
-/

set_option autoImplicit false

namespace LoxLang

/-- The frames that can be reached from a frame. -/
inductive Store.Reaches (s : Store) (f : FrameId) : FrameId → Prop
  | here : s.Reaches f f
  | parent {g p : FrameId} (reached : s.Reaches f g) (link : s.parent? g = some p) : s.Reaches f p
  | closure {g : FrameId} {x : String} {c : Closure} (reached : s.Reaches f g)
    (bound : (s.vars g).get? x = some (.function c)) : s.Reaches f c.frame

/-- Two stores that differ at most in the bindings of frames outside `R`. -/
structure Store.AgreeOn (R : FrameId → Prop) (s t : Store) : Prop where
  size : s.size = t.size
  parent : ∀ g, s.parent? g = t.parent? g
  vars : ∀ g, R g → s.vars g = t.vars g

/-- Two states that differ at most in the bindings of frames outside `R`. -/
structure State.AgreeOn (R : FrameId → Prop) (s t : State) : Prop where
  store : s.store.AgreeOn R t.store
  rest : t = { s with store := t.store }

/-- Nothing leads out of the region `R`. -/
structure Store.Closed (s : Store) (R : FrameId → Prop) : Prop where
  outer : ∀ {g p}, R g → s.outer? g = some p → R p
  bound : ∀ {g x v}, R g → (s.vars g).get? x = some v → v.Within R

/-- The frames of a later state that a run from `s` in `f` may have used. -/
def State.Region (s : State) (f : FrameId) (g : FrameId) : Prop :=
  s.store.Reaches f g ∨ s.store.size ≤ g

/-- The states `s'` and `t'` after two runs in `f` from the states `s` and `t`. -/
structure State.Confined (f : FrameId) (s t s' t' : State) : Prop where
  /-- Again they differ at most in the bindings of old frames that cannot be reached. -/
  agree : s'.AgreeOn (s.Region f) t'
  /-- In each run such a frame keeps its bindings. -/
  frozen : ∀ g, g < s.store.size → ¬ s.store.Reaches f g →
    s'.store.vars g = s.store.vars g ∧ t'.store.vars g = t.store.vars g

/-- Two runs in `f` from the states `s` and `t` end in the same way. -/
def Ending.Confined {α : Type} (f : FrameId) (s t : State) : Ending α → Ending α → Prop
  | .done a s', .done b t' => a = b ∧ s.Confined f t s' t'
  | .failed e s', .failed e' t' => e = e' ∧ s.Confined f t s' t'
  | .outOfFuel, .outOfFuel => True
  | _, _ => False

/-! ## Regions -/

namespace Store

variable {R : FrameId → Prop} {s t : Store}

theorem AgreeOn.outer (h : s.AgreeOn R t) (g : FrameId) : s.outer? g = t.outer? g := by
  rw [outer?_eq, outer?_eq, h.parent g]

/-- From inside a closed region both stores find a name in the same frame of the region. -/
theorem AgreeOn.resolve (h : s.AgreeOn R t) (closed : s.Closed R) {f : FrameId} (hf : R f)
    (x : String) : s.resolve f x = t.resolve f x ∧ ∀ g, s.resolve f x = some g → R g := by
  induction f using s.resolve_induct (x := x) with
  | bound f hb =>
    have hb' := hb
    rw [h.vars f hf] at hb'
    rw [resolve_eq, resolve_eq, if_pos hb, if_pos hb']
    refine ⟨rfl, fun g hg => ?_⟩
    cases hg
    exact hf
  | last f hb hp =>
    have hb' := hb
    have hp' := hp
    rw [h.vars f hf] at hb'
    rw [h.outer f] at hp'
    rw [resolve_eq, resolve_eq, hb, hb', hp, hp']
    exact ⟨rfl, fun g hg => by cases hg⟩
  | outer f p hb hp ih =>
    have hb' := hb
    have hp' := hp
    rw [h.vars f hf] at hb'
    rw [h.outer f] at hp'
    rw [resolve_eq, resolve_eq, hb, hb', hp, hp']
    exact ih (closed.outer hf hp)

theorem AgreeOn.lookup (h : s.AgreeOn R t) (closed : s.Closed R) {f : FrameId} (hf : R f)
    (x : String) : s.get? f x = t.get? f x ∧ ∀ v, s.get? f x = some v → v.Within R := by
  obtain ⟨same, inside⟩ := h.resolve closed hf x
  unfold get?
  rw [← same]
  cases hg : s.resolve f x with
  | none => exact ⟨rfl, fun v hv => by cases hv⟩
  | some g =>
    have hR := inside g hg
    exact ⟨congrArg (Bindings.get? · x) (h.vars g hR), fun v hv => closed.bound hR hv⟩

theorem AgreeOn.define (h : s.AgreeOn R t) (f : FrameId) (x : String) (v : Value) :
    (s.define f x v).AgreeOn R (t.define f x v) := by
  refine ⟨by simp [h.size], fun g => by simp [h.parent g], fun g hg => ?_⟩
  by_cases hgf : g = f
  · subst hgf
    by_cases hs : g < s.size
    · have ht : g < t.size := h.size ▸ hs
      rw [vars_define_self hs, vars_define_self ht, h.vars g hg]
    · have hs' : s.size ≤ g := Nat.le_of_not_lt hs
      have ht' : t.size ≤ g := h.size ▸ hs'
      rw [vars_define_missing hs', vars_define_missing ht', h.vars g hg]
  · rw [vars_define_of_ne hgf, vars_define_of_ne hgf, h.vars g hg]

theorem AgreeOn.child (h : s.AgreeOn R t) (f : FrameId) : (s.child f).AgreeOn R (t.child f) := by
  refine ⟨by simp [h.size], fun g => ?_, fun g hg => by simp [h.vars g hg]⟩
  rw [parent?_child, parent?_child, h.size, h.parent g]

theorem Closed.define (h : s.Closed R) {f : FrameId} (x : String) {v : Value} (hv : v.Within R) :
    (s.define f x v).Closed R := by
  refine ⟨fun hg hp => h.outer hg (by simpa using hp), fun {g y u} hg hu => ?_⟩
  rcases get?_vars_define hu with rfl | hu
  · exact hv
  · exact h.bound hg hu

theorem Closed.child (h : s.Closed R) {f : FrameId} (hf : R f) : (s.child f).Closed R := by
  refine ⟨fun {g p} hg hp => ?_, fun hg hu => h.bound hg (by simpa using hu)⟩
  rw [outer?_child] at hp
  by_cases hgs : g = s.size
  · rw [if_pos hgs, Option.filter_eq_some_iff] at hp
    cases hp.1
    exact hf
  · rw [if_neg hgs] at hp
    exact h.outer hg hp

/-- The frames that can be reached, with all that do not exist yet, are a closed region. -/
theorem closed_reaches (s : Store) (f : FrameId) :
    s.Closed fun g => s.Reaches f g ∨ s.size ≤ g := by
  refine ⟨fun {g p} hg hp => ?_, fun {g x v} hg hv => ?_⟩
  · have link := outer?_parent? hp
    rcases hg with hg | hg
    · exact .inl (.parent hg link)
    · rw [parent?_eq_none hg] at link
      cases link
  · rcases hg with hg | hg
    · rintro c rfl
      exact .inl (.closure hg hv)
    · rw [vars_eq_nil hg] at hv
      cases hv

end Store

/-! ## Two runs -/

/-- Stores that agree on a closed region and have kept the bindings of the frames outside, which
were those of `s₀` and `t₀`. The region holds all frames from number `n` on. -/
structure Store.Inside (R : FrameId → Prop) (n : Nat) (s₀ t₀ s t : Store) : Prop where
  agree : s.AgreeOn R t
  closed : s.Closed R
  grown : n ≤ s.size
  left : ∀ g, ¬ R g → s.vars g = s₀.vars g
  right : ∀ g, ¬ R g → t.vars g = t₀.vars g

/-- A definition in a frame of the region leaves the bindings outside alone. -/
theorem Store.vars_define_outside {R : FrameId → Prop} {f g : FrameId} (hf : R f) (hg : ¬ R g)
    (s : Store) (x : String) (v : Value) : (s.define f x v).vars g = s.vars g := by
  have hne : g ≠ f := by
    rintro rfl
    exact hg hf
  exact vars_define_of_ne hne x v

/-- What the operations on the store keep: the frames of the region are the ones that are used. -/
theorem inside_uniform {R : FrameId → Prop} {n : Nat} (new : ∀ g, n ≤ g → R g)
    (s₀ t₀ : Store) :
    Lockstep.Uniform
    (fun _ : Unit => Store.Inside R n s₀ t₀) (fun _ => R) (fun _ _ _ => True) Eq where
  frame_mono _ h := h
  names_mono _ _ := trivial
  output_push h := by rw [h]
  size_eq h := h.agree.size
  lookup hf h := h.agree.lookup h.closed hf _
  resolve hf h := h.agree.resolve h.closed hf _
  define {_ s t f x v} hf _ hv h := by
    refine ⟨h.agree.define f x v, h.closed.define x hv, by simpa using h.grown, ?_, ?_⟩
    · intro g hg
      rw [Store.vars_define_outside hf hg, h.left g hg]
    · intro g hg
      rw [Store.vars_define_outside hf hg, h.right g hg]
  child {_ s t f} hf h := by
    have hnew : R s.size := new _ h.grown
    refine ⟨(), le_refl _, ⟨h.agree.child f, h.closed.child hf, ?_, ?_, ?_⟩, hnew,
      fun _ => trivial⟩
    · rw [Store.size_child]
      exact Nat.le_succ_of_le h.grown
    · intro g hg
      rw [Store.vars_child, h.left g hg]
    · intro g hg
      rw [Store.vars_child, h.right g hg]

variable {f : FrameId} {s t : State}

/-- Two runs in one region, started in `s` and `t`. -/
abbrev insideRuns (host : Host) (f : FrameId) (s t : State) : Lockstep Unit :=
  .uniform host (fun _ => Store.Inside (s.Region f) s.store.size s.store t.store)
    (fun _ => s.Region f) (fun _ _ _ => True) Eq

theorem insideRuns_start (host : Host) (h : s.AgreeOn (s.store.Reaches f) t) :
    (insideRuns host f s t).StateAlike () s t := by
  obtain ⟨τ, rfl⟩ : ∃ τ, t = { s with store := τ } := ⟨t.store, h.rest⟩
  have vars : ∀ g, s.Region f g → s.store.vars g = τ.vars g := by
    rintro g (hg | hg)
    · exact h.store.vars g hg
    · rw [Store.vars_eq_nil hg, Store.vars_eq_nil (h.store.size ▸ hg)]
  have stores : Store.Inside (s.Region f) s.store.size s.store τ s.store τ :=
    ⟨⟨h.store.size, h.store.parent, vars⟩, s.store.closed_reaches f, Nat.le_refl _,
      fun _ _ => rfl, fun _ _ => rfl⟩
  exact ⟨stores, rfl, rfl, rfl, rfl, rfl, rfl⟩

theorem insideRuns_confined {host : Host} {s' t' : State}
    (h : (insideRuns host f s t).StateAlike () s' t') : s.Confined f t s' t' := by
  have rest : t' = { s' with store := t'.store } := by
    obtain ⟨_, _, _, _, _, _, _⟩ := t'
    simp only [State.mk.injEq, true_and]
    exact ⟨h.nextMark.symm, h.depth.symm, h.output.symm, h.attempts.symm, h.readings.symm,
      h.log.symm⟩
  refine ⟨⟨h.store.agree, rest⟩, fun g hg unreached => ?_⟩
  have outside : ¬ s.Region f g := by
    rintro (h | h)
    · exact unreached h
    · exact Nat.not_lt.2 h hg
  exact ⟨h.store.left g outside, h.store.right g outside⟩

/-- The comparison of two runs as an equation of results and failures. -/
theorem insideRuns_ends {α : Type} {host : Host} {V : Unit → α → α → Prop}
    (hV : ∀ {x y}, V () x y → x = y) {e e' : Ending α}
    (h : (insideRuns host f s t).Ends () V e e') : e.Confined f s t e' := by
  cases h with
  | done _ states results => exact ⟨hV results, insideRuns_confined states⟩
  | failed _ states failures => exact ⟨failures, insideRuns_confined states⟩
  | outOfFuel => trivial

/-- **Heap confinement.** Two runs of a node in a frame, from states that differ at most in the
bindings of frames that cannot be reached from it, end in the same way, whatever the ending: the
same outcome, value or failure, the same output, the same new frames. Afterwards the states again
differ at most in the bindings of those frames, and each of these has kept its bindings in both
runs. -/
theorem run_confined_to_reachable (host : Host) (fuel : Nat) (node : Node) (f : FrameId)
    (s t : State) (h : s.AgreeOn (s.store.Reaches f) t) :
    (execute host fuel node f s).Confined f s t (execute host fuel node f t) ∧
      (evaluate host fuel node f s).Confined f s t (evaluate host fuel node f t) := by
  have law : (insideRuns host f s t).Law :=
    (inside_uniform (fun _ hg => .inr hg) s.store t.store).law
  have start := insideRuns_start host h
  have here : s.Region f f := .inl .here
  constructor
  · refine insideRuns_ends ?_ (law.execute fuel ⟨rfl, rfl, here, fun _ _ => trivial⟩ s t start)
    rintro x y (_ | hv)
    · rfl
    · rw [(Lockstep.uniform_value_rel.1 hv).1]
  · refine insideRuns_ends ?_ (law.evaluate fuel ⟨rfl, rfl, here⟩ s t start)
    intro x y hv
    exact (Lockstep.uniform_value_iff.1 hv).1

/-- A state with a frame beside the globals that binds one name. -/
def State.beside (v : Value) : State :=
  { State.fresh with store := State.fresh.store.root.define 1 "x" v }

/-- The globals do not lead to the frame beside them. -/
theorem reaches_beside {v : Value} {g : FrameId} (h : (State.beside v).store.Reaches 0 g) :
    g = 0 := by
  induction h with
  | here => rfl
  | parent _ link ih =>
    subst ih
    cases link
  | @closure g x c _ bound ih =>
    subst ih
    have only : (State.beside v).store.vars 0 = [("clock", .native ⟨"clock", 0, .clock⟩)] := rfl
    rw [only, Bindings.get?_cons] at bound
    by_cases hx : x = "clock"
    · rw [if_pos hx] at bound
      cases bound
    · rw [if_neg hx] at bound
      cases bound

theorem agreeOn_beside (v u : Value) :
    (State.beside v).AgreeOn ((State.beside v).store.Reaches 0) (State.beside u) := by
  refine ⟨⟨rfl, fun g => ?_, fun g hg => ?_⟩, rfl⟩
  · rw [State.beside, State.beside, Store.parent?_define, Store.parent?_define]
  · rw [reaches_beside hg]
    rfl

/-- The globals do not see which value is bound beside them: the name stays undefined. -/
theorem run_confined_beside :
    (State.beside (.bool true)).AgreeOn ((State.beside (.bool true)).store.Reaches 0)
        (State.beside (.bool false)) ∧
      let host : Host := ⟨0, 200, ⟨1000, 10⟩, fun _ => false, fun _ => 0⟩
      let node : Node := .tree .reference [.word (.terminal .identifier) "x" .unknown] .unknown
      (execute host 3 node 0 (State.beside (.bool true))).Confined 0 (State.beside (.bool true))
          (State.beside (.bool false)) (execute host 3 node 0 (State.beside (.bool false))) ∧
        (evaluate host 3 node 0 (State.beside (.bool true))).Confined 0 (State.beside (.bool true))
          (State.beside (.bool false)) (evaluate host 3 node 0 (State.beside (.bool false))) :=
  ⟨agreeOn_beside _ _, run_confined_to_reachable _ _ _ _ _ _ (agreeOn_beside _ _)⟩

end LoxLang
