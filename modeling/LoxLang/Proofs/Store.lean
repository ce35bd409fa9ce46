import LoxLang.Store
import Mathlib.Logic.Relation

/-!
# Laws of the store

What reading a frame gives after each way of writing: the names bound in it, the frame around it and
the number of frames.

* `Bindings.get?_set`, `Bindings.binds_set`: the bindings of a frame after a name was bound.
* `Store.parent?`: the frame around a frame, as the store holds it.
* `Store.vars_define`, `Store.vars_child`, `Store.outer?_define`, `Store.outer?_child` and their
  likes: frames after a definition and after a new frame.
* `Store.Holds`: what is true of all values that frames bind.
* `Store.Extends`: the frames of a store are those of an earlier one with more names, and new ones.
* `Store.resolve_eq`: one step along the chain of frames.
* `Store.resolve_induct`: what holds of the frame that binds the name, and is passed on from each
  frame to the ones inside it, holds of the frame the search begins at.
-/

set_option autoImplicit false

namespace LoxLang

namespace Bindings

theorem get?_cons (n x : String) (u : Value) (b : Bindings) :
    get? ((n, u) :: b) x = if x = n then some u else b.get? x := by
  unfold get?
  by_cases h : x = n
  · simp [h]
  · rw [List.lookup_cons, beq_eq_false_iff_ne.2 h, if_neg h]

theorem get?_set (b : Bindings) (x y : String) (v : Value) :
    (set x v b).get? y = if y = x then some v else b.get? y := by
  induction b with
  | nil => exact get?_cons x y v []
  | cons p b ih =>
    obtain ⟨n, u⟩ := p
    unfold set
    by_cases hn : n = x
    · rw [if_pos hn, get?_cons, get?_cons, hn]
      by_cases h : y = x <;> simp [h]
    · rw [if_neg hn, get?_cons, get?_cons, ih]
      by_cases h : y = n
      · have hx : ¬ y = x := fun e => hn (h.symm.trans e)
        rw [if_pos h, if_pos h, if_neg hx]
      · rw [if_neg h, if_neg h]

theorem binds_eq_isSome (b : Bindings) (x : String) : b.binds x = (b.get? x).isSome := by
  induction b with
  | nil => rfl
  | cons p b ih =>
    obtain ⟨n, u⟩ := p
    rw [get?_cons, show binds ((n, u) :: b) x = (n == x || binds b x) from rfl, ih]
    by_cases h : x = n
    · simp [h]
    · rw [if_neg h, beq_eq_false_iff_ne.2 fun e => h e.symm, Bool.false_or]

theorem binds_set (b : Bindings) (x y : String) (v : Value) :
    (set x v b).binds y = (y == x || b.binds y) := by
  rw [binds_eq_isSome, binds_eq_isSome, get?_set]
  by_cases h : y = x <;> simp [h]

end Bindings

namespace Store

/-- The frame around a frame, as the store holds it. -/
def parent? (s : Store) (f : FrameId) : Option FrameId := (s.frame? f).bind Frame.parent

theorem outer?_eq (s : Store) (f : FrameId) : s.outer? f = (s.parent? f).filter (· < f) := by
  unfold outer? parent?
  cases h : s.frame? f with
  | none => rfl
  | some frame =>
    obtain ⟨p, vars⟩ := frame
    cases p with
    | none => rfl
    | some p => by_cases hp : p < f <;> simp [hp, Option.filter]

theorem outer?_parent? {s : Store} {f p : FrameId} (h : s.outer? f = some p) :
    s.parent? f = some p := by
  rw [outer?_eq, Option.filter_eq_some_iff] at h
  exact h.1

/-! ## After a definition -/

theorem frame?_define (s : Store) (f g : FrameId) (x : String) (v : Value) :
    (s.define f x v).frame? g =
      (s.frame? g).map fun frame => if g = f then ⟨frame.parent, frame.vars.set x v⟩
        else frame := by
  unfold define frame?
  simp only [Array.getElem?_modify]
  by_cases h : f = g
  · simp [h]
  · have h' : ¬ g = f := fun e => h e.symm
    simp [h, h']

@[simp] theorem size_define (s : Store) (f : FrameId) (x : String) (v : Value) :
    (s.define f x v).size = s.size := by
  simp [define, size]

@[simp] theorem parent?_define (s : Store) (f g : FrameId) (x : String) (v : Value) :
    (s.define f x v).parent? g = s.parent? g := by
  unfold parent?
  rw [frame?_define]
  cases s.frame? g with
  | none => rfl
  | some frame => by_cases h : g = f <;> simp [h]

@[simp] theorem outer?_define (s : Store) (f g : FrameId) (x : String) (v : Value) :
    (s.define f x v).outer? g = s.outer? g := by
  rw [outer?_eq, outer?_eq, parent?_define]

theorem vars_define_self {s : Store} {f : FrameId} (hf : f < s.size) (x : String) (v : Value) :
    (s.define f x v).vars f = (s.vars f).set x v := by
  have hframe : s.frame? f = some s.frames[f] := Array.getElem?_eq_getElem hf
  simp [vars, frame?_define, hframe]

theorem vars_define_of_ne {s : Store} {f g : FrameId} (h : g ≠ f) (x : String) (v : Value) :
    (s.define f x v).vars g = s.vars g := by
  unfold vars
  rw [frame?_define]
  cases s.frame? g <;> simp [h]

/-- Nothing is bound in a frame that does not exist. -/
theorem vars_define_missing {s : Store} {f : FrameId} (hf : s.size ≤ f) (x : String) (v : Value) :
    (s.define f x v).vars f = s.vars f := by
  have hframe : s.frame? f = none := Array.getElem?_eq_none hf
  simp [vars, frame?_define, hframe]

theorem parent?_eq_none {s : Store} {f : FrameId} (hf : s.size ≤ f) : s.parent? f = none := by
  have hframe : s.frame? f = none := Array.getElem?_eq_none hf
  simp [parent?, hframe]

theorem vars_eq_nil {s : Store} {f : FrameId} (hf : s.size ≤ f) : s.vars f = [] := by
  have hframe : s.frame? f = none := Array.getElem?_eq_none hf
  simp [vars, hframe]

/-- After a definition a name has the value that was defined, or the one it had. -/
theorem get?_vars_define {s : Store} {f g : FrameId} {x y : String} {v u : Value}
    (h : ((s.define f x v).vars g).get? y = some u) : u = v ∨ (s.vars g).get? y = some u := by
  by_cases hgf : g = f
  · subst hgf
    by_cases hg : g < s.size
    · rw [vars_define_self hg, Bindings.get?_set] at h
      by_cases hy : y = x
      · rw [if_pos hy] at h
        cases h
        exact .inl rfl
      · rw [if_neg hy] at h
        exact .inr h
    · rw [vars_define_missing (Nat.le_of_not_lt hg)] at h
      exact .inr h
  · rw [vars_define_of_ne hgf] at h
    exact .inr h

/-- After a definition a name is bound that was defined, or that was bound before. -/
theorem binds_vars_define {s : Store} {f g : FrameId} {x y : String} {v : Value}
    (h : ((s.define f x v).vars g).binds y = true) :
    (g = f ∧ y = x) ∨ (s.vars g).binds y = true := by
  by_cases hgf : g = f
  · subst hgf
    by_cases hg : g < s.size
    · rw [vars_define_self hg, Bindings.binds_set, Bool.or_eq_true, beq_iff_eq] at h
      rcases h with h | h
      · exact .inl ⟨rfl, h⟩
      · exact .inr h
    · rw [vars_define_missing (Nat.le_of_not_lt hg)] at h
      exact .inr h
  · rw [vars_define_of_ne hgf] at h
    exact .inr h

theorem lt_size_of_binds {s : Store} {f : FrameId} {x : String} (h : (s.vars f).binds x = true) :
    f < s.size := by
  by_cases hf : f < s.size
  · exact hf
  · rw [vars_eq_nil (Nat.le_of_not_lt hf)] at h
    cases h

theorem lt_size_of_parent {s : Store} {f p : FrameId} (h : s.parent? f = some p) : f < s.size := by
  by_cases hf : f < s.size
  · exact hf
  · rw [parent?_eq_none (Nat.le_of_not_lt hf)] at h
    cases h

/-! ## After a new frame -/

theorem frame?_child (s : Store) (f g : FrameId) :
    (s.child f).frame? g = if g = s.size then some ⟨some f, []⟩ else s.frame? g := by
  unfold child frame? size
  exact Array.getElem?_push

@[simp] theorem size_child (s : Store) (f : FrameId) : (s.child f).size = s.size + 1 := by
  simp [child, size]

theorem parent?_child (s : Store) (f g : FrameId) :
    (s.child f).parent? g = if g = s.size then some f else s.parent? g := by
  unfold parent?
  rw [frame?_child]
  by_cases h : g = s.size <;> simp [h]

theorem outer?_child (s : Store) (f g : FrameId) :
    (s.child f).outer? g = if g = s.size then (some f).filter (· < g) else s.outer? g := by
  rw [outer?_eq, outer?_eq, parent?_child]
  by_cases h : g = s.size <;> simp [h]

/-- A new frame binds nothing, and the others bind what they bound. -/
@[simp] theorem vars_child (s : Store) (f g : FrameId) : (s.child f).vars g = s.vars g := by
  by_cases h : g = s.size
  · rw [vars_eq_nil (Nat.le_of_eq h.symm)]
    simp [vars, frame?_child, h]
  · simp [vars, frame?_child, h]

@[simp] theorem size_root (s : Store) : s.root.size = s.size + 1 := by
  simp [root, size]

theorem frame?_root (s : Store) (g : FrameId) :
    s.root.frame? g = if g = s.size then some ⟨none, []⟩ else s.frame? g := by
  unfold root frame? size
  exact Array.getElem?_push

@[simp] theorem parent?_root (s : Store) (g : FrameId) : s.root.parent? g = s.parent? g := by
  by_cases h : g = s.size
  · rw [parent?_eq_none (Nat.le_of_eq h.symm)]
    simp [parent?, frame?_root, h]
  · simp [parent?, frame?_root, h]

@[simp] theorem vars_root (s : Store) (g : FrameId) : s.root.vars g = s.vars g := by
  by_cases h : g = s.size
  · rw [vars_eq_nil (Nat.le_of_eq h.symm)]
    simp [vars, frame?_root, h]
  · simp [vars, frame?_root, h]

/-! ## Several definitions -/

/-- What each of several definitions keeps, all of them keep. -/
theorem defineAll_induct {P : Store → Prop} {s : Store} (f : FrameId) (b : Bindings) (hs : P s)
    (step : ∀ t x v, (x, v) ∈ b → P t → P (t.define f x v)) : P (s.defineAll f b) := by
  induction b generalizing s with
  | nil => exact hs
  | cons p b ih =>
    obtain ⟨x, v⟩ := p
    refine ih (step s x v List.mem_cons_self hs) fun t y u hy ht => ?_
    exact step t y u (List.mem_cons_of_mem _ hy) ht

/-! ## All values of a store -/

/-- What holds of every value that a frame binds. -/
def Holds (P : Value → Prop) (s : Store) : Prop := ∀ f x v, (s.vars f).get? x = some v → P v

namespace Holds

variable {P : Value → Prop} {s : Store}

theorem define (h : s.Holds P) (f : FrameId) (x : String) {v : Value} (hv : P v) :
    (s.define f x v).Holds P := by
  intro g y u hu
  rcases get?_vars_define hu with rfl | hu
  · exact hv
  · exact h g y u hu

theorem child (h : s.Holds P) (f : FrameId) : (s.child f).Holds P := by
  intro g y u hu
  rw [vars_child] at hu
  exact h g y u hu

theorem defineAll (h : s.Holds P) (f : FrameId) {b : Bindings} (hb : ∀ p ∈ b, P p.2) :
    (s.defineAll f b).Holds P :=
  defineAll_induct f b h fun _ x v hv ht => ht.define f x (hb (x, v) hv)

theorem empty : Store.empty.Holds P := by
  intro f x v hv
  rw [vars_eq_nil (Nat.zero_le f)] at hv
  cases hv

theorem withGlobals (h : s.Holds P) {natives : List Native}
    (hn : ∀ n ∈ natives, P (.native n)) :
    (s.withGlobals natives).Holds P := by
  have root : s.root.Holds P := by
    intro f x v hv
    rw [vars_root] at hv
    exact h f x v hv
  refine root.defineAll _ fun p hp => ?_
  obtain ⟨n, native, rfl⟩ := List.mem_map.1 hp
  exact hn n native

theorem get? (h : s.Holds P) {f : FrameId} {x : String} {v : Value} (hv : s.get? f x = some v) :
    P v := by
  unfold Store.get? at hv
  split at hv
  · exact h _ _ _ hv
  · cases hv

end Holds

/-! ## The chain of frames -/

theorem resolve_eq (s : Store) (f : FrameId) (x : String) :
    s.resolve f x =
      if (s.vars f).binds x then some f else (s.outer? f).bind fun p => s.resolve p x := by
  rw [resolve]
  by_cases h : (s.vars f).binds x
  · simp [h]
  · rw [if_neg h, if_neg h]
    split
    · rename_i p hp
      exact (congrArg (fun o => o.bind fun p => s.resolve p x) hp).symm
    · rename_i hp
      exact (congrArg (fun o => o.bind fun p => s.resolve p x) hp).symm

/-- Induction along the chain: the frame binds the name, the chain ends, or the search goes on in
the frame around it. -/
theorem resolve_induct {x : String} (s : Store) {P : FrameId → Prop}
    (bound : ∀ f, (s.vars f).binds x = true → P f)
    (last : ∀ f, (s.vars f).binds x = false → s.outer? f = none → P f)
    (outer : ∀ f p, (s.vars f).binds x = false → s.outer? f = some p → P p → P f)
    (f : FrameId) :
    P f := by
  induction f using Nat.strongRecOn with
  | ind f ih =>
    cases hb : (s.vars f).binds x with
    | true => exact bound f hb
    | false =>
      cases hp : s.outer? f with
      | none => exact last f hb hp
      | some p => exact outer f p hb hp (ih p (outer_lt hp))

theorem binds_of_resolve {s : Store} {f g : FrameId} {x : String} (h : s.resolve f x = some g) :
    (s.vars g).binds x = true := by
  induction f using s.resolve_induct (x := x) with
  | bound f hb =>
    rw [resolve_eq, if_pos hb] at h
    cases h
    exact hb
  | last f hb hp =>
    rw [resolve_eq, hb, hp] at h
    cases h
  | outer f p hb hp ih =>
    rw [resolve_eq, hb, hp] at h
    exact ih h

/-- A name that is found has a value. -/
theorem get?_of_resolve {s : Store} {f g : FrameId} {x : String} (h : s.resolve f x = some g) :
    s.get? f x = (s.vars g).get? x ∧ ((s.vars g).get? x).isSome := by
  have hb := binds_of_resolve h
  rw [Bindings.binds_eq_isSome] at hb
  simp [get?, h, hb]

theorem isSome_get? {s : Store} {f : FrameId} {x : String} (h : (s.resolve f x).isSome) :
    (s.get? f x).isSome := by
  obtain ⟨g, found⟩ := Option.isSome_iff_exists.1 h
  obtain ⟨value, isSome⟩ := get?_of_resolve found
  rwa [value]

/-! ## Growth -/

/-- A store that was `s` before: frames have kept the frames around them and the names they bind. -/
structure Extends (s t : Store) : Prop where
  size : s.size ≤ t.size
  parent : ∀ {f}, f < s.size → t.parent? f = s.parent? f
  binds : ∀ {f x}, (s.vars f).binds x = true → (t.vars f).binds x = true

/-- The frames on the way from a frame outwards. -/
def OnChain (s : Store) : FrameId → FrameId → Prop :=
  Relation.ReflTransGen fun f p => s.parent? f = some p

variable {s t : Store}

theorem Extends.refl (s : Store) : s.Extends s := ⟨Nat.le_refl _, fun _ => rfl, fun h => h⟩

theorem Extends.trans {u : Store} (h : s.Extends t) (k : t.Extends u) : s.Extends u :=
  ⟨Nat.le_trans h.size k.size,
    fun hf => (k.parent (Nat.lt_of_lt_of_le hf h.size)).trans (h.parent hf),
      fun hb => k.binds (h.binds hb)⟩

theorem binds_define (s : Store) {f g : FrameId} {x y : String} (v : Value)
    (h : (s.vars g).binds y = true) : ((s.define f x v).vars g).binds y = true := by
  by_cases hg : g = f
  · subst hg
    rw [vars_define_self (lt_size_of_binds h), Bindings.binds_set, h, Bool.or_true]
  · rw [vars_define_of_ne hg, h]

theorem Extends.define (h : s.Extends t) (f : FrameId) (x : String) (v : Value) :
    s.Extends (t.define f x v) := by
  refine ⟨by simpa using h.size, fun hf => ?_, fun hb => binds_define t v (h.binds hb)⟩
  rw [parent?_define, h.parent hf]

theorem Extends.child (h : s.Extends t) (f : FrameId) : s.Extends (t.child f) := by
  refine ⟨?_, fun {g} hg => ?_, fun hb => by simpa using h.binds hb⟩
  · rw [size_child]
    exact Nat.le_succ_of_le h.size
  · rw [parent?_child, if_neg (Nat.ne_of_lt (Nat.lt_of_lt_of_le hg h.size)), h.parent hg]

theorem Extends.root (h : s.Extends t) : s.Extends t.root := by
  refine ⟨?_, fun hg => by rw [parent?_root, h.parent hg], fun hb => by simpa using h.binds hb⟩
  rw [size_root]
  exact Nat.le_succ_of_le h.size

theorem Extends.withGlobals (h : s.Extends t) (natives : List Native) :
    s.Extends (t.withGlobals natives) := by
  unfold Store.withGlobals
  exact defineAll_induct (P := s.Extends) _ _ h.root fun u x v _ hu => hu.define _ _ _

/-- A name that is found once is found again later, in the same frame or in one before it. -/
theorem Extends.resolve (h : s.Extends t) {f g : FrameId} {x : String}
    (found : s.resolve f x = some g) :
    ∃ g', t.resolve f x = some g' ∧ s.OnChain f g' ∧ s.OnChain g' g := by
  induction f using s.resolve_induct (x := x) with
  | bound f hb =>
    rw [resolve_eq, if_pos hb] at found
    cases found
    refine ⟨g, ?_, .refl, .refl⟩
    rw [resolve_eq, if_pos (h.binds hb)]
  | last f hb hp =>
    rw [resolve_eq, hb, hp] at found
    cases found
  | outer f p hb hp ih =>
    rw [resolve_eq, hb, hp] at found
    obtain ⟨g', found', near, far⟩ := ih found
    have link := outer?_parent? hp
    have hf := lt_size_of_parent link
    -- the frame may have come to bind the name itself; otherwise the search goes on as before
    cases hb' : (t.vars f).binds x with
    | true =>
      refine ⟨f, ?_, .refl, .head link (near.trans far)⟩
      rw [resolve_eq, if_pos hb']
    | false =>
      refine ⟨g', ?_, .head link near, far⟩
      rw [resolve_eq, hb', outer?_eq, h.parent hf, ← outer?_eq, hp]
      exact found'

end Store

end LoxLang
