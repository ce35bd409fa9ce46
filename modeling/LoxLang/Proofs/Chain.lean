import LoxLang.Proofs.Store
import LoxLang.Run.Action
import Mathlib

/-!
# Reading and writing along the chain of frames

Frames share the frames around them, so what is written through one frame is read through others. A
search finds the nearest frame on its chain that binds the name; an assignment changes the binding
that the search finds, and a definition comes before all bindings that it shadows.

* `Store.chain`: a frame and the frames around it.
* `Store.Unshadowed`: a frame on a chain, with no frame before it that binds a name.
* `Store.Rebound`: a store in which one binding has got another value.
* `Store.Assigned`, `Store.Defined`, `Store.Entered`: what an assignment, a definition and a new
  frame make of a store.

Results: `Store.resolve_eq_find` — a search is a search along the chain;
`Store.resolve_define` — what is found after a definition; `frame_store_laws` — the laws of all
operations on frames.
-/

set_option autoImplicit false

namespace LoxLang

/-- A name that is bound keeps its place. -/
theorem Bindings.names_set {b : Bindings} {x : String} {v : Value} (h : b.binds x = true) :
    (b.set x v).map Prod.fst = b.map Prod.fst := by
  induction b with
  | nil => cases h
  | cons p b ih =>
    obtain ⟨n, u⟩ := p
    unfold Bindings.set
    by_cases hn : n = x
    · simp [hn]
    · rw [if_neg hn, List.map_cons, List.map_cons, ih]
      simpa [Bindings.binds, hn] using h

namespace Store

variable {s : Store} {f g h p : FrameId} {x y : String} {v : Value}

/-! ## Chains -/

/-- A frame and the frames around it, from the inside outwards. -/
def chain (s : Store) (f : FrameId) : List FrameId :=
  f :: match h : s.outer? f with
    | some p =>
      have := outer_lt h
      s.chain p
    | none => []
termination_by f

theorem chain_of_outer (hp : s.outer? f = some p) : s.chain f = f :: s.chain p := by
  rw [chain]
  split
  · rename_i q hq
    cases hq.symm.trans hp
    rfl
  · rename_i hnone
    rw [hp] at hnone
    cases hnone

theorem chain_of_last (hp : s.outer? f = none) : s.chain f = [f] := by
  rw [chain]
  split
  · rename_i q hq
    rw [hp] at hq
    cases hq
  · rfl

/-- Induction along a chain, from its end inwards. -/
theorem chain_induct (s : Store) {P : FrameId → Prop} (last : ∀ f, s.outer? f = none → P f)
    (outer : ∀ f p, s.outer? f = some p → P p → P f) (f : FrameId) : P f := by
  induction f using Nat.strongRecOn with
  | ind f ih =>
    cases hp : s.outer? f with
    | none => exact last f hp
    | some p => exact outer f p hp (ih p (outer_lt hp))

/-- If each frame is inside an earlier one, the chain follows the frames around. -/
theorem chain_eq (earlier : ∀ f p, s.parent? f = some p → p < f) (f : FrameId) :
    s.chain f = f :: (match s.parent? f with | some p => s.chain p | none => []) := by
  cases hp : s.parent? f with
  | none => exact chain_of_last (by rw [outer?_eq, hp]; rfl)
  | some p => exact chain_of_outer (by rw [outer?_eq, hp]; simp [Option.filter, earlier f p hp])

/-- **A search is a search along the chain**: it finds the nearest frame that binds the name. -/
theorem resolve_eq_find (s : Store) (f : FrameId) (x : String) :
    s.resolve f x = (s.chain f).find? fun g => (s.vars g).binds x := by
  induction f using s.chain_induct with
  | last f hp =>
    rw [resolve_eq, chain_of_last hp, List.find?_cons]
    cases (s.vars f).binds x <;> simp [hp]
  | outer f p hp ih =>
    rw [resolve_eq, chain_of_outer hp, List.find?_cons]
    cases (s.vars f).binds x <;> simp [hp, ih]

theorem resolve_eq_none_iff : s.resolve f x = none ↔
    ∀ g ∈ s.chain f, (s.vars g).binds x = false := by
  rw [resolve_eq_find, List.find?_eq_none]
  simp only [Bool.not_eq_true]

/-- The frame `f` is on the chain of the frame `g`, and no frame before it binds the name. -/
def Unshadowed (s : Store) (x : String) (g f : FrameId) : Prop :=
  ∃ near far, s.chain g = near ++ f :: far ∧ ∀ h ∈ near, (s.vars h).binds x = false

theorem Unshadowed.self (s : Store) (x : String) (f : FrameId) : s.Unshadowed x f f := by
  cases hp : s.outer? f with
  | none => exact ⟨[], [], chain_of_last hp, nofun⟩
  | some p => exact ⟨[], s.chain p, chain_of_outer hp, nofun⟩

/-- A step outwards: the frame `f` can be seen from another one through the frame around it. -/
theorem unshadowed_iff (hne : g ≠ f) : s.Unshadowed x g f ↔
    (s.vars g).binds x = false ∧ ∃ p, s.outer? g = some p ∧ s.Unshadowed x p f := by
  constructor
  · rintro ⟨near, far, split, unbound⟩
    cases near with
    | nil =>
      cases hp : s.outer? g <;> simp [chain_of_last, chain_of_outer, hp] at split <;>
        exact absurd split.1 hne
    | cons h near =>
      cases hp : s.outer? g with
      | none => simp [chain_of_last hp] at split
      | some p =>
        rw [chain_of_outer hp, List.cons_append, List.cons.injEq] at split
        obtain ⟨rfl, split⟩ := split
        obtain ⟨head, rest⟩ := List.forall_mem_cons.1 unbound
        exact ⟨head, p, rfl, near, far, split, rest⟩
  · rintro ⟨head, p, hp, near, far, split, unbound⟩
    refine ⟨g :: near, far, ?_, List.forall_mem_cons.2 ⟨head, unbound⟩⟩
    rw [chain_of_outer hp, split, List.cons_append]

/-- What a search finds binds the name and is not shadowed. -/
theorem resolve_eq_some_iff : s.resolve g x = some f ↔
    (s.vars f).binds x = true ∧ s.Unshadowed x g f := by
  rw [resolve_eq_find, List.find?_eq_some_iff_append]
  simp only [Bool.not_eq_true', Unshadowed]

/-! ## After a definition -/

theorem binds_vars_define_iff (hf : f < s.size) :
    ((s.define f x v).vars g).binds y = true ↔
      (g = f ∧ y = x) ∨ (s.vars g).binds y = true := by
  refine ⟨binds_vars_define, ?_⟩
  rintro (⟨rfl, rfl⟩ | hb)
  · rw [vars_define_self hf, Bindings.binds_set, beq_self_eq_true, Bool.true_or]
  · exact binds_define s v hb

theorem get?_vars_define_eq (hf : f < s.size) :
    ((s.define f x v).vars g).get? y = if g = f ∧ y = x then some v else (s.vars g).get? y := by
  by_cases hg : g = f
  · subst hg
    rw [vars_define_self hf, Bindings.get?_set]
    simp
  · rw [vars_define_of_ne hg, if_neg fun h => hg h.1]

/-- A definition changes nothing about another name or in another frame. -/
theorem binds_vars_define_of_ne (hne : ¬(g = f ∧ y = x)) :
    ((s.define f x v).vars g).binds y = (s.vars g).binds y := by
  rw [Bool.eq_iff_iff]
  exact ⟨fun hb => (binds_vars_define hb).resolve_left hne, binds_define s v⟩

/-- **A definition is found from where its frame can be seen**, before the bindings that it
shadows. -/
theorem resolve_define (hf : f < s.size) (seen : s.Unshadowed x g f) :
    (s.define f x v).resolve g x = some f := by
  induction g using s.chain_induct with
  | last g hp =>
    by_cases hg : g = f
    · rw [resolve_eq, hg, if_pos ((binds_vars_define_iff hf).2 (.inl ⟨rfl, rfl⟩))]
    · obtain ⟨-, p, hp', -⟩ := (unshadowed_iff hg).1 seen
      rw [hp] at hp'
      cases hp'
  | outer g p hp ih =>
    by_cases hg : g = f
    · rw [resolve_eq, hg, if_pos ((binds_vars_define_iff hf).2 (.inl ⟨rfl, rfl⟩))]
    · obtain ⟨unbound, q, hq, seen⟩ := (unshadowed_iff hg).1 seen
      cases hp.symm.trans hq
      rw [resolve_eq, binds_vars_define_of_ne fun h => hg h.1, unbound, outer?_define, hp]
      exact ih seen

/-- From elsewhere, and by other names, the same is found as before. -/
theorem resolve_define_of_not (unseen : ¬(y = x ∧ s.Unshadowed x g f)) :
    (s.define f x v).resolve g y = s.resolve g y := by
  induction g using s.chain_induct with
  | last g hp =>
    have other : ¬(g = f ∧ y = x) := by
      rintro ⟨rfl, rfl⟩
      exact unseen ⟨rfl, .self s y g⟩
    rw [resolve_eq, resolve_eq, binds_vars_define_of_ne other, outer?_define, hp]
    rfl
  | outer g p hp ih =>
    have other : ¬(g = f ∧ y = x) := by
      rintro ⟨rfl, rfl⟩
      exact unseen ⟨rfl, .self s y g⟩
    rw [resolve_eq, resolve_eq, binds_vars_define_of_ne other, outer?_define, hp]
    cases hb : (s.vars g).binds y with
    | true => rfl
    | false =>
      refine ih ?_
      rintro ⟨rfl, seen⟩
      exact unseen ⟨rfl, (unshadowed_iff fun h => other ⟨h, rfl⟩).2 ⟨hb, p, hp, seen⟩⟩

theorem get?_eq (s : Store) (f : FrameId) (x : String) :
    s.get? f x = (s.resolve f x).bind fun owner => (s.vars owner).get? x := by
  unfold get?
  cases s.resolve f x <;> rfl

theorem get?_define (hf : f < s.size) (seen : s.Unshadowed x g f) :
    (s.define f x v).get? g x = some v := by
  rw [get?_eq, resolve_define hf seen, Option.bind_some, get?_vars_define_eq hf,
    if_pos ⟨rfl, rfl⟩]

theorem get?_define_of_not (hf : f < s.size) (unseen : ¬(y = x ∧ s.Unshadowed x g f)) :
    (s.define f x v).get? g y = s.get? g y := by
  rw [get?_eq, get?_eq, resolve_define_of_not unseen]
  cases found : s.resolve g y with
  | none => rfl
  | some owner =>
    -- the binding that is found is not the one that was defined, which could be seen
    have other : ¬(owner = f ∧ y = x) := by
      rintro ⟨rfl, rfl⟩
      exact unseen ⟨rfl, (resolve_eq_some_iff.1 found).2⟩
    rw [Option.bind_some, Option.bind_some, get?_vars_define_eq hf, if_neg other]

/-! ## After several definitions -/

@[simp] theorem size_defineAll (s : Store) (f : FrameId) (b : Bindings) :
    (s.defineAll f b).size = s.size :=
  defineAll_induct (P := fun t => t.size = s.size) f b rfl fun t x v _ ht => by
    rw [size_define, ht]

@[simp] theorem parent?_defineAll (s : Store) (f g : FrameId) (b : Bindings) :
    (s.defineAll f b).parent? g = s.parent? g :=
  defineAll_induct (P := fun t => t.parent? g = s.parent? g) f b rfl fun t x v _ ht => by
    rw [parent?_define, ht]

theorem frame?_defineAll_of_ne (hne : g ≠ f) (b : Bindings) :
    (s.defineAll f b).frame? g = s.frame? g :=
  defineAll_induct (P := fun t => t.frame? g = s.frame? g) f b rfl fun t x v _ ht => by
    rw [frame?_define, ht]
    simp [hne]

/-- Of several definitions of a name the last one counts. -/
theorem get?_vars_defineAll (hf : f < s.size) (b : Bindings) :
    ((s.defineAll f b).vars f).get? x = (List.lookup x b.reverse).or ((s.vars f).get? x) := by
  induction b generalizing s with
  | nil => rfl
  | cons p b ih =>
    obtain ⟨n, u⟩ := p
    have later := ih (s := s.define f n u) (by rwa [size_define])
    rw [show s.defineAll f ((n, u) :: b) = (s.define f n u).defineAll f b from rfl, later,
      get?_vars_define_eq hf, List.reverse_cons, List.lookup_append, Option.or_assoc]
    by_cases hx : x = n
    · simp [hx]
    · simp [hx, List.lookup_cons, beq_eq_false_iff_ne.2 hx]

/-! ## After a new frame -/

theorem outer?_child_of_lt (hg : g < s.size) : (s.child f).outer? g = s.outer? g := by
  rw [outer?_child, if_neg (Nat.ne_of_lt hg)]

/-- From the frames that exist the same is found as before. -/
theorem resolve_child_of_lt (hg : g < s.size) : (s.child f).resolve g y = s.resolve g y := by
  induction g using s.chain_induct with
  | last g hp => rw [resolve_eq, resolve_eq, vars_child, outer?_child_of_lt hg, hp]; rfl
  | outer g p hp ih =>
    rw [resolve_eq, resolve_eq, vars_child, outer?_child_of_lt hg, hp, Option.bind_some,
      Option.bind_some, ih ((outer_lt hp).trans hg)]

/-- From a new frame the same is found as from the frame around it. -/
theorem resolve_child_new (hf : f < s.size) : (s.child f).resolve s.size y = s.resolve f y := by
  have outside : (s.child f).outer? s.size = some f := by simp [outer?_child, Option.filter, hf]
  rw [resolve_eq, vars_child, vars_eq_nil (Nat.le_refl _), outside]
  exact resolve_child_of_lt hf

/-! ## The operations -/

/-- The store `t` is the store `s` with the value `v` for one binding: the frames are the same ones,
with the same frames around them, and bind the same names in the same order. -/
structure Rebound (s : Store) (owner : FrameId) (x : String) (v : Value) (t : Store) : Prop where
  size : t.size = s.size
  parent : ∀ g, t.parent? g = s.parent? g
  names : ∀ g, (t.vars g).map Prod.fst = (s.vars g).map Prod.fst
  value : ∀ g y, (t.vars g).get? y = if g = owner ∧ y = x then some v else (s.vars g).get? y

/-- What the assignment of `v` to `x` from the frame `f` makes of a store. -/
structure Assigned (s : Store) (f : FrameId) (x : String) (v : Value) (t : Store) : Prop where
  /-- The binding that a search finds is the only one that changes. -/
  rebound : ∃ owner, s.resolve f x = some owner ∧ s.Rebound owner x v t
  resolve : ∀ g y, t.resolve g y = s.resolve g y
  /-- Those who find the same frame read the new value. -/
  get : ∀ g, s.resolve g x = s.resolve f x → t.get? g x = some v
  get_other : ∀ g y, ¬(y = x ∧ s.resolve g x = s.resolve f x) → t.get? g y = s.get? g y

/-- What the definition of `x` as `v` in the frame `f` makes of a store. -/
structure Defined (s : Store) (f : FrameId) (x : String) (v : Value) (t : Store) : Prop where
  seen : ∀ g, s.Unshadowed x g f → t.resolve g x = some f ∧ t.get? g x = some v
  unseen : ∀ g y, ¬(y = x ∧ s.Unshadowed x g f) → t.resolve g y = s.resolve g y ∧
    t.get? g y = s.get? g y

/-- What a new frame `n` inside the frame `f` makes of a store. -/
structure Entered (s : Store) (f n : FrameId) (t : Store) : Prop where
  new : n = s.size ∧ t.size = s.size + 1
  parent : t.parent? n = some f
  empty : t.vars n = []
  inside : ∀ y, t.resolve n y = s.resolve f y ∧ t.get? n y = s.get? f y
  others : ∀ g < s.size, ∀ y, t.resolve g y = s.resolve g y ∧ t.get? g y = s.get? g y

theorem Rebound.define (hf : f < s.size) (bound : (s.vars f).binds x = true) (v : Value) :
    s.Rebound f x v (s.define f x v) where
  size := size_define ..
  parent g := parent?_define ..
  value g y := get?_vars_define_eq hf
  names g := by
    by_cases hg : g = f
    · rw [hg, vars_define_self hf, Bindings.names_set bound]
    · rw [vars_define_of_ne hg]

theorem Assigned.define {owner : FrameId} (found : s.resolve f x = some owner) (v : Value) :
    s.Assigned f x v (s.define owner x v) := by
  obtain ⟨bound, -⟩ := resolve_eq_some_iff.1 found
  have exists_owner : owner < s.size := lt_size_of_binds bound
  have seen_iff (g : FrameId) : s.Unshadowed x g owner ↔ s.resolve g x = s.resolve f x := by
    rw [found, resolve_eq_some_iff]
    exact (and_iff_right bound).symm
  refine ⟨⟨owner, found, .define exists_owner bound v⟩, fun g y => ?_, fun g same => ?_,
    fun g y other => ?_⟩
  · by_cases seen : y = x ∧ s.Unshadowed x g owner
    · obtain ⟨rfl, seen⟩ := seen
      rw [resolve_define exists_owner seen, (seen_iff g).1 seen, found]
    · exact resolve_define_of_not seen
  · exact get?_define exists_owner ((seen_iff g).2 same)
  · exact get?_define_of_not exists_owner fun h => other ⟨h.1, (seen_iff g).1 h.2⟩

theorem Defined.define (hf : f < s.size) (x : String) (v : Value) :
    s.Defined f x v (s.define f x v) where
  seen _ seen := ⟨resolve_define hf seen, get?_define hf seen⟩
  unseen _ _ unseen := ⟨resolve_define_of_not unseen, get?_define_of_not hf unseen⟩

theorem Entered.child (hf : f < s.size) : s.Entered f s.size (s.child f) where
  new := ⟨rfl, size_child ..⟩
  parent := by rw [parent?_child, if_pos rfl]
  empty := by rw [vars_child, vars_eq_nil (Nat.le_refl _)]
  inside y := by
    refine ⟨resolve_child_new hf, ?_⟩
    simp only [get?_eq, resolve_child_new hf, vars_child]
  others g hg y := by
    refine ⟨resolve_child_of_lt hg, ?_⟩
    simp only [get?_eq, resolve_child_of_lt hg, vars_child]

end Store

/-- **The laws of frames.** In a store in which each frame is inside an earlier one, so that chains
have no cycles: an assignment fails exactly if no frame on the chain binds the name, and then
changes nothing. Otherwise it changes the one binding that a search finds, everyone finds the same
frames as before, and exactly those who find this binding read the new value. A definition is found
from where its frame can be seen and no nearer frame binds the name, and nothing else changes. A new
frame finds what the frame around it finds, and the other frames find what they found. Reading a
variable changes nothing. -/
theorem frame_store_laws (s : State) (earlier : ∀ f p, s.store.parent? f = some p → p < f)
    (f : FrameId) (hf : f < s.store.size) (x : String) (v : Value) :
    (∀ g, s.store.chain g = g ::
      (match s.store.parent? g with | some p => s.store.chain p | none => [])) ∧
    (Action.assign f x v s = .failed (.of (.undefinedVariable x)) s ↔
      ∀ g ∈ s.store.chain f, (s.store.vars g).binds x = false) ∧
    ((∃ g ∈ s.store.chain f, (s.store.vars g).binds x = true) →
      ∃ t, Action.assign f x v s = .done () { s with store := t } ∧
        s.store.Assigned f x v t) ∧
    (∃ t, Action.define f x v s = .done () { s with store := t } ∧ s.store.Defined f x v t) ∧
    (∃ n t, Action.enterFrame f s = .done n { s with store := t } ∧ s.store.Entered f n t) ∧
    ∀ g y, Action.lookup g y s =
      (s.store.get? g y).elim (.failed (.of (.undefinedVariable y)) s) fun u => .done u s := by
  refine ⟨Store.chain_eq earlier, ?_, fun bound => ?_, ⟨_, rfl, .define hf x v⟩,
    ⟨_, _, rfl, .child hf⟩, fun g y => ?_⟩
  · rw [← Store.resolve_eq_none_iff]
    unfold Action.assign
    cases s.store.resolve f x <;> simp
  · cases found : s.store.resolve f x with
    | none =>
      obtain ⟨g, hg, hb⟩ := bound
      rw [Store.resolve_eq_none_iff.1 found g hg] at hb
      cases hb
    | some owner =>
      refine ⟨s.store.define owner x v, ?_, .define found v⟩
      simp only [Action.assign, found]
  · unfold Action.lookup
    cases s.store.get? g y <;> rfl

/-- A frame that binds `x`, and an empty frame inside it: what the inner frame assigns, the outer
one reads. -/
theorem frame_store_laws_shared :
    let s : State := { store := (Store.empty.root.define 0 "x" .nil).child 0 }
    (∀ f p, s.store.parent? f = some p → p < f) ∧ 1 < s.store.size ∧
      ∃ t, Action.assign 1 "x" (.bool true) s = .done () { s with store := t } ∧
        t.get? 0 "x" = some (.bool true) := by
  intro s
  have earlier (f p : FrameId) (h : s.store.parent? f = some p) : p < f := by
    simp only [s, Store.parent?_child, Store.parent?_define, Store.parent?_root] at h
    split at h
    · rename_i new
      cases h
      rw [new]
      decide
    · rw [Store.parent?_eq_none (Nat.zero_le f)] at h
      cases h
  have inside : 1 < s.store.size := by decide
  obtain ⟨-, -, assigns, -⟩ := frame_store_laws s earlier 1 inside "x" (.bool true)
  have bound : ∃ g ∈ s.store.chain 1, (s.store.vars g).binds "x" = true := by
    refine ⟨0, ?_, by decide⟩
    rw [Store.chain_of_outer (p := 0) (by decide), Store.chain_of_last (by decide)]
    simp
  obtain ⟨t, assigned, laws⟩ := assigns bound
  exact ⟨earlier, inside, t, assigned, laws.get 0 (by decide +kernel)⟩

end LoxLang
