import LoxLang.Proofs.Lockstep.Uniform
import LoxLang.Proofs.Watch
import Mathlib.Data.Nat.Basic
import Mathlib.Logic.Relation

/-!
# The store over a whole history

A host performs operations one after the other, on any trees and in any order, and each ends
normally or with some failure. What the store and the output have become then only grows.

* `Store.Sound`: each frame is inside an earlier one, and functions are closed over existing frames.
* `Operation.Possible`: frames and values that a host can have got from a state.
* `State.Step`, `State.Later`: the states after an operation, and after any number of them.
* `State.Kept`: what holds of a state and of any state after it.

Results: `history_kept` — all of it holds along every history that begins with the globals of a
new machine. One operation keeps it by the law of two equal runs, of which one is watched; histories
follow by induction on the number of operations.
-/

set_option autoImplicit false

namespace LoxLang

namespace Store

/-- Each frame is inside an earlier one, and functions are closed over existing frames. -/
structure Sound (s : Store) : Prop where
  parent : ∀ {f p}, s.parent? f = some p → p < f
  bound : ∀ {f x v}, (s.vars f).get? x = some v → v.Within (· < s.size)

variable {s t : Store}

/-! ## Soundness -/

theorem Sound.outer_eq (h : s.Sound) (f : FrameId) : s.outer? f = s.parent? f := by
  rw [outer?_eq]
  cases hp : s.parent? f with
  | none => rfl
  | some p => simp [Option.filter, h.parent hp]

/-- Every chain of frames ends: the numbers of the frames go down. -/
theorem Sound.wellFounded (h : s.Sound) : WellFounded fun p f => s.parent? f = some p :=
  Subrelation.wf (fun hp => h.parent hp) Nat.lt_wfRel.wf

theorem Sound.define (h : s.Sound) (f : FrameId) (x : String) {v : Value}
    (hv : v.Within (· < s.size)) : (s.define f x v).Sound := by
  refine ⟨fun hp => h.parent (by simpa using hp), fun {g y u} hu => ?_⟩
  rw [size_define]
  rcases get?_vars_define hu with rfl | hu
  · exact hv
  · exact h.bound hu

theorem Sound.child (h : s.Sound) {f : FrameId} (hf : f < s.size) : (s.child f).Sound := by
  refine ⟨fun {g p} hp => ?_, fun {g x v} hv c hc => ?_⟩
  · rw [parent?_child] at hp
    by_cases hg : g = s.size
    · rw [if_pos hg] at hp
      cases hp
      rw [hg]
      exact hf
    · rw [if_neg hg] at hp
      exact h.parent hp
  · rw [vars_child] at hv
    rw [size_child]
    exact Nat.lt_succ_of_lt (h.bound hv c hc)

theorem Sound.root (h : s.Sound) : s.root.Sound := by
  refine ⟨fun hp => h.parent (by simpa using hp), fun {g x v} hv c hc => ?_⟩
  rw [vars_root] at hv
  rw [size_root]
  exact Nat.lt_succ_of_lt (h.bound hv c hc)

theorem Sound.empty : Store.empty.Sound := by
  refine ⟨fun {f p} hp => ?_, fun {f x v} hv => ?_⟩
  · rw [parent?_eq_none (Nat.zero_le f)] at hp
    cases hp
  · rw [vars_eq_nil (Nat.zero_le f)] at hv
    cases hv

/-- A native function is closed over no frame. -/
theorem native_within {natives : List Native} {x : String} {v : Value} (P : FrameId → Prop)
    (h : (x, v) ∈ natives.map fun n => (n.name, Value.native n)) : v.Within P := by
  obtain ⟨n, _, hn⟩ := List.mem_map.1 h
  cases hn
  intro c hc
  cases hc

theorem Sound.withGlobals (h : s.Sound) (natives : List Native) :
    (s.withGlobals natives).Sound := by
  unfold Store.withGlobals
  exact defineAll_induct (P := Sound) _ _ h.root fun t x v hv ht =>
    ht.define _ _ (native_within _ hv)

end Store

/-! ## One operation -/

/-- The values of a call exist: functions are closed over frames of the store. -/
def Existing (callee : Value) (args : List Value) (s : State) : Prop :=
  ∀ v ∈ callee :: args, v.Within (· < s.store.size)

/-- A state that was `s` before: the store has grown, and output has been added. -/
structure State.Extends (s t : State) : Prop where
  store : s.store.Extends t.store
  printed : s.printed.toList <+: t.printed.toList

theorem State.Extends.refl (s : State) : s.Extends s := ⟨.refl _, List.prefix_refl _⟩

theorem State.Extends.trans {s t u : State} (h : s.Extends t) (k : t.Extends u) : s.Extends u :=
  ⟨h.store.trans k.store, h.printed.trans k.printed⟩

/-- What is the case when a function is entered during an operation that began in the state `s`. -/
structure State.Entered (s : State) (callee : Value) (args : List Value) (t : State) : Prop where
  existing : Existing callee args t
  sound : t.store.Sound
  grown : s.Extends t

/-- The frames exist that a host names in an operation, and those of the functions that it
passes. -/
def Operation.Possible (host : Host) (s : State) : Operation → Prop
  | .interpret _ => host.globals < s.store.size
  | .execute _ f => f < s.store.size
  | .evaluate _ f => f < s.store.size
  | .call callee args => Existing callee args s

/-- Two equal stores that are sound and extend the store `s₀`; `n` is the number of their
frames. -/
structure Store.Grown (s₀ : Store) (n : Nat) (s t : Store) : Prop where
  same : s = t
  count : s.size = n
  sound : s.Sound
  grown : s₀.Extends s

theorem grown_uniform (s₀ : Store) (o₀ : Array Value) :
    Lockstep.Uniform s₀.Grown (fun n f => f < n) (fun _ _ _ => True)
      (fun o o' => o = o' ∧ o₀.toList <+: o.toList) where
  frame_mono h hf := Nat.lt_of_lt_of_le hf h
  names_mono _ _ := trivial
  output_push {o o' v} h := by
    refine ⟨congrArg (·.push v) h.1, ?_⟩
    rw [Array.toList_push]
    exact h.2.trans (List.prefix_append _ _)
  size_eq h := congrArg _ h.same
  lookup {n σ σ' f x} hf h := by
    refine ⟨congrArg (·.get? f x) h.same, fun v hv => ?_⟩
    unfold Store.get? at hv
    split at hv
    · rw [← h.count]
      exact h.sound.bound hv
    · cases hv
  resolve {n σ σ' f x} hf h := by
    refine ⟨congrArg (·.resolve f x) h.same, fun g hg => ?_⟩
    rw [← h.count]
    exact Store.lt_size_of_binds (Store.binds_of_resolve hg)
  define {n σ σ' f x v} hf _ hv h := by
    obtain ⟨rfl, rfl, sound, grown⟩ := h
    exact ⟨rfl, Store.size_define .., sound.define f x hv, grown.define f x v⟩
  child {n σ σ' f} hf h := by
    obtain ⟨rfl, rfl, sound, grown⟩ := h
    refine ⟨σ.size + 1, Nat.le_succ _,
      ⟨rfl, Store.size_child .., sound.child hf, grown.child f⟩, ?_, fun _ => trivial⟩
    exact Nat.lt_succ_self _

/-- Two equal runs from a sound state. -/
abbrev grownRuns (host : Host) (s : State) : Lockstep Nat :=
  .uniform host s.store.Grown (fun n f => f < n) (fun _ _ _ => True)
    fun o o' => o = o' ∧ s.printed.toList <+: o.toList

theorem grownRuns_start (host : Host) {s : State} (sound : s.store.Sound) :
    (grownRuns host s).StateAlike s.store.size s s :=
  ⟨⟨rfl, rfl, sound, .refl _⟩, ⟨rfl, List.prefix_refl _⟩, rfl, rfl, rfl, rfl, rfl⟩

theorem grownRuns_eq {host : Host} {s t u : State} {n : Nat}
    (h : (grownRuns host s).StateAlike n t u) : t = u := by
  obtain ⟨_, _, _, _, _, _, _⟩ := t
  obtain ⟨_, _, _, _, _, _, _⟩ := u
  simp only [State.mk.injEq]
  exact ⟨h.store.same, h.nextMark, h.depth, h.output.1, h.attempts, h.readings, h.log⟩

theorem Operation.Possible.alike {host : Host} {s : State} {op : Operation}
    (possible : op.Possible host s) :
    (grownRuns host s).OperationAlike s.store.size op op := by
  cases op with
  | interpret program =>
    exact .interpret (List.forall₂_same.2 fun _ _ => ⟨rfl, rfl, possible, fun _ _ => trivial⟩)
  | execute node f => exact .execute ⟨rfl, rfl, possible, fun _ _ => trivial⟩
  | evaluate node f => exact .evaluate ⟨rfl, rfl, possible⟩
  | call callee args =>
    obtain ⟨hc, hargs⟩ := List.forall_mem_cons.1 possible
    refine .call (Lockstep.uniform_value_iff.2 ⟨rfl, hc⟩) (List.forall₂_same.2 fun v hv => ?_)
    exact Lockstep.uniform_value_iff.2 ⟨rfl, hargs v hv⟩

/-- An operation ends alike whether it is watched or not, in a store that extends the one before. -/
theorem Operation.Possible.ends {host : Host} {s : State} {op : Operation}
    (possible : op.Possible host s) (sound : s.store.Sound) (fuel : Nat) (alarm : Failure) :
    (grownRuns host s).Ends s.store.size
      (fun n => Option.Rel ((grownRuns host s).ValueAlike n))
      (op.perform (Watch.evaluator ⟨s.Entered, alarm⟩ host fuel) host s)
      (op.perform (evaluator host fuel) host s) := by
  have law : (grownRuns host s).Law := (grown_uniform s.store s.printed).law
  have parts := law.watched ⟨s.Entered, alarm⟩ (fun hc hargs hs => ?_) fuel
  · exact possible.alike.ends law parts.1 s s (grownRuns_start host sound)
  · refine ⟨fun v hv => ?_, hs.store.sound, hs.store.grown, hs.output.2⟩
    rw [hs.store.count]
    rcases List.mem_cons.1 hv with rfl | hv
    · exact (Lockstep.uniform_value_iff.1 hc).2
    · exact (Lockstep.uniform_values hargs).2 v hv

variable {host : Host} {fuel : Nat} {s t : State} {op : Operation}

theorem Operation.Possible.throughout (possible : op.Possible host s) (sound : s.store.Sound) :
    op.Throughout host fuel s s.Entered := by
  intro alarm
  have ends := possible.ends sound fuel alarm
  revert ends
  generalize op.perform (Watch.evaluator ⟨s.Entered, alarm⟩ host fuel) host s = e
  generalize op.perform (evaluator host fuel) host s = e'
  intro ends
  cases ends with
  | done _ states results =>
    rw [grownRuns_eq states, (Lockstep.uniform_value_rel.1 results).1]
  | failed _ states failures => rw [grownRuns_eq states, show _ = _ from failures]
  | outOfFuel => rfl

theorem Operation.Possible.done (possible : op.Possible host s) (sound : s.store.Sound)
    {v : Option Value} (h : op.perform (evaluator host fuel) host s = .done v t) :
    t.store.Sound ∧ s.Extends t ∧ ∀ u, v = some u → u.Within (· < t.store.size) := by
  have ends := possible.ends sound fuel .missing
  rw [possible.throughout sound .missing, h] at ends
  cases ends with
  | done _ states results =>
    have within := (Lockstep.uniform_value_rel.1 results).2
    rw [← states.store.count] at within
    exact ⟨states.store.sound, ⟨states.store.grown, states.output.2⟩, within⟩

theorem Operation.Possible.failed (possible : op.Possible host s) (sound : s.store.Sound)
    {e : Failure} (h : op.perform (evaluator host fuel) host s = .failed e t) :
    t.store.Sound ∧ s.Extends t := by
  have ends := possible.ends sound fuel .missing
  rw [possible.throughout sound .missing, h] at ends
  cases ends with
  | failed _ states _ => exact ⟨states.store.sound, states.store.grown, states.output.2⟩

/-! ## Histories -/

/-- What a host does to a state: an operation that ends somehow, with any limit and any fuel, or a
new frame with native functions in it, which may be none. -/
inductive State.Step : State → State → Prop
  | done {s t : State} {host : Host} {fuel : Nat} {op : Operation} {v : Option Value}
    (possible : op.Possible host s)
    (ends : op.perform (evaluator host fuel) host s = .done v t) : Step s t
  | failed {s t : State} {host : Host} {fuel : Nat} {op : Operation} {e : Failure}
    (possible : op.Possible host s)
    (ends : op.perform (evaluator host fuel) host s = .failed e t) : Step s t
  | globals (s : State) (natives : List Native) :
    Step s { s with store := s.store.withGlobals natives }

/-- The states after any number of steps. -/
def State.Later : State → State → Prop := Relation.ReflTransGen State.Step

/-- The state of a new machine with the given native functions. -/
def State.start (natives : List Native) : State := { store := Store.empty.withGlobals natives }

theorem State.Step.keeps (sound : s.store.Sound) (step : s.Step t) :
    t.store.Sound ∧ s.Extends t := by
  cases step with
  | done possible ends =>
    obtain ⟨sound', grown, _⟩ := possible.done sound ends
    exact ⟨sound', grown⟩
  | failed possible ends => exact possible.failed sound ends
  | globals natives =>
    exact ⟨sound.withGlobals natives, (Store.Extends.refl _).withGlobals natives,
      List.prefix_refl _⟩

theorem State.Later.keeps (sound : s.store.Sound) (later : s.Later t) :
    t.store.Sound ∧ s.Extends t := by
  unfold State.Later at later
  induction later with
  | refl => exact ⟨sound, .refl s⟩
  | tail _ step ih =>
    obtain ⟨sound', grown⟩ := ih
    obtain ⟨sound'', grown'⟩ := step.keeps sound'
    exact ⟨sound'', grown.trans grown'⟩

/-- What holds of a state and of any state after it. -/
structure State.Kept (s t : State) : Prop where
  /-- A frame is made after the one around it, so every chain ends, and no search is cut off. -/
  earlier : ∀ {f p}, s.store.parent? f = some p → p < f
  finite : WellFounded fun p f => s.store.parent? f = some p
  uncut : ∀ f, s.store.outer? f = s.store.parent? f
  /-- Functions that are bound, passed or returned are closed over existing frames; whenever a
  function is entered, the store is sound and has only grown. -/
  bound : ∀ {f x c}, (s.store.vars f).get? x = some (.function c) → c.frame < s.store.size
  passed : ∀ {host fuel} {op : Operation}, op.Possible host s →
    op.Throughout host fuel s s.Entered
  returned : ∀ {host fuel} {op : Operation} {c u}, op.Possible host s →
    op.perform (evaluator host fuel) host s = .done (some (.function c)) u →
    c.frame < u.store.size
  /-- The frame around a frame stays the same, and names stay bound. -/
  parent : ∀ {f}, f < s.store.size → t.store.parent? f = s.store.parent? f
  binds : ∀ {f x}, (s.store.vars f).binds x = true → (t.store.vars f).binds x = true
  /-- Output is only added to. -/
  output : s.printed.toList <+: t.printed.toList
  /-- A name is found again, in the same frame or on the way to it. -/
  resolve : ∀ {f g x}, s.store.resolve f x = some g →
    ∃ g', t.store.resolve f x = some g' ∧ s.store.OnChain f g' ∧ s.store.OnChain g' g
  lookup : ∀ {f x v}, Action.lookup f x s = .done v s → ∃ v', Action.lookup f x t = .done v' t

theorem lookup_done {f : FrameId} {x : String} {v : Value} (h : Action.lookup f x s = .done v s) :
    ∃ g, s.store.resolve f x = some g := by
  unfold Action.lookup Store.get? at h
  cases hr : s.store.resolve f x with
  | some g => exact ⟨g, rfl⟩
  | none =>
    rw [hr] at h
    cases h

theorem lookup_resolve {f g : FrameId} {x : String} (h : s.store.resolve f x = some g) :
    ∃ v, Action.lookup f x s = .done v s := by
  obtain ⟨value, isSome⟩ := Store.get?_of_resolve h
  obtain ⟨v, hv⟩ := Option.isSome_iff_exists.1 isSome
  refine ⟨v, ?_⟩
  rw [Action.lookup, value, hv]

/-- **The store over a whole history.** After any operations of a host on a new machine, whatever
their trees and however they ended, frames are inside earlier ones and functions are closed over
existing ones, also those that are passed and returned next; and whatever is done afterwards, frames
keep the frames around them and their names, output is only added to, and a name that was found is
found. -/
theorem history_kept (natives : List Native) (s t : State) (before : (State.start natives).Later s)
    (after : s.Later t) : s.Kept t := by
  obtain ⟨sound, _⟩ := before.keeps (Store.Sound.empty.withGlobals natives)
  obtain ⟨_, grown⟩ := after.keeps sound
  refine
    { earlier := sound.parent
      finite := sound.wellFounded
      uncut := sound.outer_eq
      bound := fun h => sound.bound h _ rfl
      passed := fun possible => possible.throughout sound
      returned := fun possible ends => (possible.done sound ends).2.2 _ rfl _ rfl
      parent := grown.store.parent
      binds := grown.store.binds
      output := grown.printed
      resolve := grown.store.resolve
      lookup := fun h => ?_ }
  obtain ⟨g, found⟩ := lookup_done h
  obtain ⟨g', found', _⟩ := grown.store.resolve found
  exact lookup_resolve found'

/-- A new machine on which `var x;` is run. -/
theorem history_kept_declared :
    let t : State := { State.start builtins with
      store := (State.start builtins).store.define 0 "x" .nil
      log := #[.interpreting 1, .raisedLimit 1000 9000] }
    (State.start builtins).Later t ∧ (State.start builtins).Kept t := by
  intro t
  let host : Host := ⟨0, 200, ⟨1000, 10⟩, fun _ => false, fun _ => 0⟩
  let op : Operation := .interpret
    [.tree .variableDecl [.word (.terminal .identifier) "x" .unknown, .absent] .unknown]
  have possible : op.Possible host (State.start builtins) :=
    show 0 < (State.start builtins).store.size by decide
  have accepted : host.refusal? = none := by decide
  have ends : op.perform (evaluator host 1) host (State.start builtins) = .done none t :=
    Operation.perform_accepted accepted _ _ _
  have later : (State.start builtins).Later t := .single (.done possible ends)
  exact ⟨later, history_kept builtins _ _ .refl later⟩

end LoxLang
