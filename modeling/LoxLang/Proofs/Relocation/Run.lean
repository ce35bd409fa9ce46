import LoxLang.Proofs.Lockstep.Likeness
import LoxLang.Proofs.Relocation

/-!
# Runs do not look at positions

Programs that differ in positions only are run alike: the positions are in the trees, in the bodies
of the functions that frames hold and in the locations of faults, and nothing is ever decided by
them.

* `Node.Moves`: a relation between nodes that differ in positions only, and whose parts are related
  again.
* `moved`: two such programs, as a `Likeness`.

Results: `Node.Moves.lawful` — every such relation satisfies the law; `moved_display`,
`moved_output` — what is printed is the same text.
-/

set_option autoImplicit false

namespace LoxLang

/-! ## What does not depend on positions -/

namespace Node

variable {g : Position → Position} {n n' : Node}

@[simp] theorem identifier?_relocate (n : Node) : (n.relocate g).identifier? = n.identifier? := by
  cases n with
  | word kind text place =>
    rw [relocate]
    cases kind with
    | terminal t => cases t <;> rfl
    | other text => rfl
  | _ => simp [relocate, identifier?]

theorem shownAll_eq (ns : List Node) : shownAll ns = ns.map shown := by
  induction ns with
  | nil => simp [shownAll]
  | cons n ns ih => simp [shownAll, ih]

@[simp] theorem shown_relocate (n : Node) : (n.relocate g).shown = n.shown := by
  induction n using part_induction with
  | h n ih =>
    cases n with
    | tree label parts place =>
      have same : parts.map (shown ∘ relocate g) = parts.map shown :=
        List.map_congr_left fun m hm => ih m hm
      simp [shown, shownAll_eq, same]
    | _ => simp [relocate, shown]

@[simp] theorem plainText_relocate (n : Node) : (n.relocate g).plainText = n.plainText := by
  cases n with
  | tree label parts place => exact shown_relocate _
  | _ => simp [relocate, plainText, shown]

theorem relocate_relocate (f g : Position → Position) (n : Node) :
    (n.relocate g).relocate f = n.relocate (f ∘ g) := by
  induction n using part_induction with
  | h n ih =>
    have places (p : Place) : (p.relocate g).relocate f = p.relocate (f ∘ g) := by cases p <;> rfl
    cases n with
    | tree label parts place =>
      have same : parts.map (relocate f ∘ relocate g) = parts.map (relocate (f ∘ g)) :=
        List.map_congr_left fun m hm => ih m hm
      simp [places, same]
    | _ => simp [relocate, places]

/-- A function of nodes that does not depend on positions is the same for nodes that coincide. -/
theorem Coincides.same {α : Type} (h : n.Coincides n') (f : Node → α)
    (hf : ∀ (g : Position → Position) m, f (m.relocate g) = f m) : f n' = f n := by
  rw [← hf (fun _ => .first) n, ← hf (fun _ => .first) n',
    show n.relocate _ = n'.relocate _ from h]

theorem coincides_relocate (g : Position → Position) (n : Node) : n.Coincides (n.relocate g) := by
  rw [Coincides, relocate_relocate]
  rfl

theorem Coincides.parts (h : n.Coincides n') : List.Forall₂ Coincides n.parts n'.parts := by
  have same := congrArg Node.parts h
  rw [parts_relocate, parts_relocate, ← List.forall₂_eq_eq_eq, List.forall₂_map_left_iff,
    List.forall₂_map_right_iff] at same
  exact same

/-- The location of a node is known, or it is not, wherever the node stands. -/
theorem location?_relocate (n : Node) :
    (n.relocate g).place.location?.isSome = n.place.location?.isSome := by
  have places (p : Place) : (p.relocate g).location?.isSome = p.location?.isSome := by
    cases p <;> rfl
  cases n with
  | bare text => simp [relocate]
  | absent => simp [relocate]
  | _ => simp [relocate, place, places]

/-- A relation between nodes that differ in positions only, and whose parts are related again. -/
structure Moves (R : Node → Node → Prop) : Prop where
  coincides : ∀ {n n'}, R n n' → n.Coincides n'
  parts : ∀ {n n'}, R n n' → List.Forall₂ R n.parts n'.parts

theorem moves_coincides : Moves Coincides := ⟨id, Coincides.parts⟩

theorem moves_eq : Moves Eq := by
  refine ⟨fun h => congrArg _ h, ?_⟩
  rintro n _ rfl
  exact List.forall₂_same.2 fun _ _ => rfl

/-- Some nodes are moved and others are not. -/
theorem moves_relocate (g : Position → Position) :
    Moves fun n n' => n' = n ∨ n' = n.relocate g := by
  constructor
  · rintro n _ (rfl | rfl)
    · rfl
    · exact coincides_relocate g n
  · rintro n _ (rfl | rfl)
    · exact List.forall₂_same.2 fun _ _ => .inl rfl
    · rw [parts_relocate]
      exact List.forall₂_map_right_iff.2 (List.forall₂_same.2 fun _ _ => .inr rfl)

end Node

/-! ## Two runs -/

/-- Two programs that differ in positions only. -/
def moved (R : Node → Node → Prop) (location : Option Location → Option Location → Prop) :
    Likeness where
  name := id
  node := R
  named := R
  location := location

variable {R : Node → Node → Prop} {location : Option Location → Option Location → Prop}

theorem Node.Moves.names (moves : Node.Moves R) {n n' : Node} (h : R n n') :
    (moved R location).Names n n' where
  named := h
  text := (moves.coincides h).same plainText fun _ => plainText_relocate
  identifier := by
    rw [(moves.coincides h).same identifier? fun _ => identifier?_relocate]
    exact Option.map_id'.symm

theorem Node.Moves.part (moves : Node.Moves R) (p : Part) {n n' : Node} (h : R n n') :
    (moved R location).PartAlike p n n' := by
  cases p with
  | node => exact h
  | name => exact moves.names h
  | names => exact (moves.parts h).imp fun _ _ => moves.names
  | operator => exact (moves.coincides h).same plainText fun _ => plainText_relocate
  | arguments => exact moves.parts h

theorem Node.Moves.partsAlike (moves : Node.Moves R) (label : Label) (i : Nat) {ns ns' : List Node}
    (h : List.Forall₂ R ns ns') : (moved R location).PartsAlike label i ns ns' := by
  induction h generalizing i with
  | nil => exact .nil
  | cons hm _ ih => exact .cons (moves.part _ hm) (ih (i + 1))

theorem Node.Moves.looks (moves : Node.Moves R) {n n' : Node} (h : R n n') :
    (moved R location).Looks n n' := by
  have same := moves.coincides h
  have alike := moves.parts h
  cases n with
  | tree label ns place =>
    cases n' with
    | tree label' ns' place' =>
      simp only [Node.Coincides, Node.relocate_tree, Node.tree.injEq] at same
      obtain ⟨rfl, -⟩ := same
      exact .tree (moves.partsAlike label 0 alike)
    | _ => simp [Node.Coincides, Node.relocate] at same
  | hollow label place =>
    cases n' with
    | hollow label' place' =>
      simp only [Node.Coincides, Node.relocate, Node.hollow.injEq] at same
      obtain ⟨rfl, -⟩ := same
      exact .hollow
    | _ => simp [Node.Coincides, Node.relocate] at same
  | word kind text place =>
    cases n' with
    | word kind' text' place' =>
      simp only [Node.Coincides, Node.relocate, Node.word.injEq] at same
      obtain ⟨rfl, rfl, -⟩ := same
      exact .word
    | _ => simp [Node.Coincides, Node.relocate] at same
  | bare text =>
    cases n' with
    | bare text' =>
      simp only [Node.Coincides, Node.relocate, Node.bare.injEq] at same
      subst same
      exact .bare
    | _ => simp [Node.Coincides, Node.relocate] at same
  | absent =>
    cases n' with
    | absent => exact .absent
    | _ => simp [Node.Coincides, Node.relocate] at same

/-- **Programs that differ in positions only are run alike**, whatever is known about the
locations. -/
theorem Node.Moves.lawful (moves : Node.Moves R) (unlocated : location none none)
    (location_none : ∀ {l l'}, location l l' → (l = none ↔ l' = none))
    (place : ∀ {n n'}, R n n' → location n.place.location? n'.place.location?) :
    (moved R location).Lawful where
  injective := Function.injective_id
  looks := moves.looks
  location_none := location_none
  unlocated := unlocated
  place := place

section Refl

variable (refl : ∀ n, R n n)
include refl

/-- Every value differs from itself in positions at most. -/
theorem moved_value_refl (v : Value) : (moved R location).Values v v := by
  cases v with
  | nil => exact .nil
  | bool b => exact .bool b
  | number x => exact .number x
  | string s => exact .string s
  | native n => exact .native n
  | function c =>
    refine .function ⟨rfl, ?_, List.forall₂_same.2 fun n _ => refl n, rfl, rfl⟩
    exact (List.map_id _).symm

theorem moved_values_refl (vs : List Value) : List.Forall₂ (moved R location).Values vs vs :=
  List.forall₂_same.2 fun v _ => moved_value_refl refl v

theorem moved_store_refl (s : Store) : (moved R location).Stores s s := by
  refine ⟨rfl, fun f => ?_⟩
  cases s.frame? f with
  | none => exact .none
  | some frame =>
    exact .some ⟨rfl, List.forall₂_same.2 fun p _ => ⟨rfl, moved_value_refl refl p.2⟩⟩

end Refl

/-- Values that differ in positions only are printed alike. -/
theorem moved_display {v v' : Value} (h : (moved R location).Values v v') :
    v'.display = v.display := by
  cases h with
  | function h => simp [Value.display, Value.shown, h.name, moved]
  | _ => rfl

/-- **What is printed is the same text.** -/
theorem moved_output {vs vs' : List Value} (h : List.Forall₂ (moved R location).Values vs vs') :
    outputText vs' = outputText vs := by
  have texts : vs'.map (fun v => v.display ++ "\n") = vs.map (fun v => v.display ++ "\n") := by
    induction h with
    | nil => rfl
    | cons hv _ ih => rw [List.map_cons, List.map_cons, moved_display hv, ih]
  rw [outputText, outputText, texts]

end LoxLang
