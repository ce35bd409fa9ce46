import LoxLang.Proofs.Completeness

/-!
# Trees with other positions

The words of a text may stand elsewhere without changing what they mean. Then the nodes that are
made of them stand elsewhere too, and nothing else about them changes.

* `Token.unplaced`: a word apart from where it stands.
* `Token.relocate`, `Node.relocate`: the same word or tree with its positions moved.
* `Node.Coincides`: trees that differ in positions only.

Results: `Derives.relocate` — words that are moved are derived as the trees that are moved;
`Node.lower_relocate` — replacing loops with a header does not look at positions;
`Derives.coincides` — two programs with the same words, wherever these stand, have trees that
coincide.
-/

set_option autoImplicit false

namespace LoxLang

/-- A place in a text whose positions are moved. -/
def Place.relocate (g : Position → Position) : Place → Place
  | .span start stop => .span (g start) (g stop)
  | place => place

/-- A word apart from where it stands. -/
def Token.unplaced (t : Token) : Terminal × String := (t.kind, t.text)

/-- A word that is moved. -/
def Token.relocate (g : Position → Position) (t : Token) : Token :=
  { t with start := g t.start, stop := g t.stop }

namespace Node

mutual

/-- A tree that is moved. -/
def relocate (g : Position → Position) : Node → Node
  | .tree label parts place => .tree label (relocateAll g parts) (place.relocate g)
  | .word kind text place => .word kind text (place.relocate g)
  | .hollow label place => .hollow label (place.relocate g)
  | node => node

/-- Several trees that are moved. -/
def relocateAll (g : Position → Position) : List Node → List Node
  | [] => []
  | node :: rest => node.relocate g :: relocateAll g rest

end

/-- Trees that differ in positions only. -/
def Coincides (n m : Node) : Prop := n.relocate (fun _ => .first) = m.relocate (fun _ => .first)

variable {g : Position → Position}

theorem relocateAll_eq (ns : List Node) : relocateAll g ns = ns.map (relocate g) := by
  induction ns with
  | nil => simp [relocateAll]
  | cons n ns ih => simp [relocateAll, ih]

@[simp] theorem relocate_tree (label : Label) (parts : List Node) (place : Place) :
    (tree label parts place).relocate g =
      .tree label (parts.map (relocate g)) (place.relocate g) := by
  rw [relocate, relocateAll_eq]

@[simp] theorem present?_relocate (n : Node) :
    (n.relocate g).present? = n.present?.map (relocate g) := by
  cases n <;> simp [relocate, present?]

@[simp] theorem parts_relocate (n : Node) : (n.relocate g).parts = n.parts.map (relocate g) := by
  cases n <;> simp [relocate, parts, relocateAll_eq]

/-! ## Loops with a header -/

theorem loop_relocate (init test step body : Node) :
    (loop init test step body).relocate g =
      loop (init.relocate g) (test.relocate g) (step.relocate g) (body.relocate g) := by
  cases htest : test.present? <;> cases hstep : step.present? <;>
    simp [loop, htest, hstep, Place.relocate]

/-- **Replacing loops with a header does not look at positions.** -/
theorem lower_relocate (n : Node) : (n.relocate g).lower = n.lower.relocate g := by
  induction n using part_induction with
  | h n ih =>
    cases n with
    | tree label parts place =>
      by_cases hfor : label = .forStmt ∧ parts.length = 4
      · obtain ⟨rfl, hlength⟩ := hfor
        obtain ⟨init, test, step, body, rfl⟩ := List.length_eq_four.1 hlength
        simp only [relocate_tree, List.map_cons, List.map_nil, lower_for, loop_relocate]
        rw [ih init (by simp [parts]), ih test (by simp [parts]), ih step (by simp [parts]),
          ih body (by simp [parts])]
      · have other : label = .forStmt → parts.length ≠ 4 :=
          fun hlabel hlength => hfor ⟨hlabel, hlength⟩
        rw [relocate_tree, lower_other (by simpa using other), lower_other other, relocate_tree]
        congr 1
        rw [List.map_map, List.map_map]
        exact List.map_congr_left fun m hm => ih m hm
    | _ => simp [relocate, lower]

theorem Coincides.lower {n m : Node} (h : n.Coincides m) : n.lower.Coincides m.lower := by
  rw [Coincides, ← lower_relocate, ← lower_relocate, show n.relocate _ = m.relocate _ from h]

/-- What is a tree after it was moved was one before. -/
theorem tree_of_relocate {n : Node} {label : Label} {ms : List Node} {place : Place}
    (h : n.relocate g = .tree label ms place) :
    ∃ ns place', n = .tree label ns place' ∧ ns.map (relocate g) = ms := by
  cases n with
  | tree label' ns place' =>
    rw [relocate_tree] at h
    cases h
    exact ⟨ns, place', rfl, rfl⟩
  | _ =>
    simp only [relocate] at h
    cases h

theorem absent_of_relocate {n : Node} (h : n.relocate g = .absent) : n = .absent := by
  cases n with
  | absent => rfl
  | _ =>
    simp only [relocate] at h
    cases h

/-- Whether a following `else` would belong to a statement does not depend on positions. -/
theorem EndsOpen.of_relocate {n : Node} (h : (n.relocate g).EndsOpen) : n.EndsOpen := by
  generalize hm : n.relocate g = m at h
  induction h generalizing n with
  | withoutElse =>
    obtain ⟨ns, place, rfl, hns⟩ := tree_of_relocate hm
    simp only [List.map_eq_cons_iff, List.map_eq_nil_iff] at hns
    obtain ⟨test, -, rfl, -, yes, -, rfl, -, no, -, rfl, hno, rfl⟩ := hns
    rw [absent_of_relocate hno]
    exact .withoutElse
  | inElse _ ih =>
    obtain ⟨ns, place, rfl, hns⟩ := tree_of_relocate hm
    simp only [List.map_eq_cons_iff, List.map_eq_nil_iff] at hns
    obtain ⟨test, -, rfl, -, yes, -, rfl, -, no, -, rfl, hno, rfl⟩ := hns
    exact .inElse (ih hno)
  | inWhile _ ih =>
    obtain ⟨ns, place, rfl, hns⟩ := tree_of_relocate hm
    simp only [List.map_eq_cons_iff, List.map_eq_nil_iff] at hns
    obtain ⟨test, -, rfl, -, body, -, rfl, hbody, rfl⟩ := hns
    exact .inWhile (ih hbody)
  | inFor _ ih =>
    obtain ⟨ns, place, rfl, hns⟩ := tree_of_relocate hm
    simp only [List.map_eq_cons_iff, List.map_eq_nil_iff] at hns
    obtain ⟨init, -, rfl, -, test, -, rfl, -, step, -, rfl, -, body, -, rfl, hbody, rfl⟩ := hns
    exact .inFor (ih hbody)

end Node

namespace Source

variable {g : Position → Position}

@[simp] theorem relocate_node (t : Token) : t.node.relocate g = (t.relocate g).node := by
  simp [Token.node, Node.relocate, Token.relocate, Token.place, Place.relocate]

theorem extent_relocate (ts : List Token) :
    extent (ts.map (Token.relocate g)) = (extent ts).relocate g := by
  rw [extent, extent, List.head?_map, List.getLast?_map]
  cases ts.head? <;> cases ts.getLast? <;> rfl

@[simp] theorem relocate_phraseNode (label : Label) (ts : List Token) (parts : List Node) :
    (phraseNode label ts parts).relocate g =
      phraseNode label (ts.map (Token.relocate g)) (parts.map (Node.relocate g)) := by
  simp [phraseNode, extent_relocate]

/-- **Words that are moved are derived as the trees that are moved.** -/
theorem Derives.relocate {p : Phrase} {ts : List Token} {ns : List Node} (h : Derives p ts ns) :
    Derives p (ts.map (Token.relocate g)) (ns.map (Node.relocate g)) := by
  induction h with
  | program _ ih => simpa using .program ih
  | noItems => exact .noItems
  | oneMore _ _ words ihs ih =>
    subst words
    simpa using .oneMore ihs ih rfl
  | functionDecl hstart hname hleft _ hright _ words ihp ihb =>
    subst words
    simp only [List.map_cons, List.map_append, List.map_nil, relocate_phraseNode, relocate_node]
    refine .functionDecl ?_ ?_ ?_ ihp ?_ ihb rfl
    exacts [hstart, hname, hleft, hright]
  | ofVariableDecl _ ih => exact .ofVariableDecl ih
  | ofStatement _ ih => exact .ofStatement ih
  | parameters _ ih => simpa using .parameters ih
  | name ht =>
    simp only [List.map_cons, List.map_nil, relocate_node]
    exact .name ht
  | nextName _ hcomma ht words ih =>
    subst words
    simp only [List.map_cons, List.map_append, List.map_nil, relocate_node]
    refine .nextName ih ?_ ?_ rfl
    exacts [hcomma, ht]
  | variableDecl hstart hname _ hstop words ih =>
    subst words
    simp only [List.map_cons, List.map_append, List.map_nil, relocate_phraseNode, relocate_node]
    refine .variableDecl ?_ ?_ ih ?_ rfl
    exacts [hstart, hname, hstop]
  | initializer hequal _ words ih =>
    subst words
    simp only [List.map_cons, List.map_nil]
    refine .initializer ?_ ih rfl
    exact hequal
  | ofExpressionStmt _ ih => exact .ofExpressionStmt ih
  | expressionStmt _ hstop words ih =>
    subst words
    simp only [List.map_cons, List.map_append, List.map_nil, relocate_phraseNode]
    refine .expressionStmt ih ?_ rfl
    exact hstop
  | printStmt hstart _ hstop words ih =>
    subst words
    simp only [List.map_cons, List.map_append, List.map_nil, relocate_phraseNode]
    refine .printStmt ?_ ih ?_ rfl
    exacts [hstart, hstop]
  | returnStmt hstart _ hstop words ih =>
    subst words
    simp only [List.map_cons, List.map_append, List.map_nil, relocate_phraseNode]
    refine .returnStmt ?_ ih ?_ rfl
    exacts [hstart, hstop]
  | ifStmt hstart hleft _ hright _ _ nearest words iht ihy ihn =>
    subst words
    simp only [List.map_cons, List.map_append, List.map_nil, relocate_phraseNode]
    refine .ifStmt ?_ ?_ iht ?_ ihy ihn (fun hos hopen => ?_) rfl
    exacts [hstart, hleft, hright, nearest (fun h => hos (by rw [h]; rfl)) hopen.of_relocate]
  | elsePart hstart _ words ih =>
    subst words
    simp only [List.map_cons, List.map_nil]
    refine .elsePart ?_ ih rfl
    exact hstart
  | whileStmt hstart hleft _ hright _ words iht ihb =>
    subst words
    simp only [List.map_cons, List.map_append, List.map_nil, relocate_phraseNode]
    refine .whileStmt ?_ ?_ iht ?_ ihb rfl
    exacts [hstart, hleft, hright]
  | forStmt hstart hleft _ _ hstop _ hright _ words ihi iht ihs ihb =>
    subst words
    simp only [List.map_cons, List.map_append, List.map_nil, relocate_phraseNode]
    refine .forStmt ?_ ?_ ihi iht ?_ ihs ?_ ihb rfl
    exacts [hstart, hleft, hstop, hright]
  | variableClause _ ih => simpa using .variableClause ih
  | expressionClause _ ih => simpa using .expressionClause ih
  | emptyClause ht =>
    simp only [List.map_cons, List.map_nil, relocate_phraseNode]
    exact .emptyClause ht
  | ofBlock _ ih => exact .ofBlock ih
  | block hstart _ hstop words ih =>
    subst words
    simp only [List.map_cons, List.map_append, List.map_nil, relocate_phraseNode]
    refine .block ?_ ih ?_ rfl
    exacts [hstart, hstop]
  | assign hname hequal _ words ih =>
    subst words
    simp only [List.map_cons, List.map_nil, relocate_phraseNode, relocate_node]
    refine .assign ?_ ?_ ih rfl
    exacts [hname, hequal]
  | binary _ hop _ words ihl ihr =>
    subst words
    simp only [List.map_cons, List.map_append, List.map_nil, relocate_phraseNode, relocate_node]
    refine .binary ihl ?_ ihr rfl
    exact hop
  | nextLevel _ ih => exact .nextLevel ih
  | unary hop _ words ih =>
    subst words
    simp only [List.map_cons, List.map_nil, relocate_phraseNode, relocate_node]
    refine .unary ?_ ih rfl
    exact hop
  | call _ hleft _ hright words ihc iha =>
    subst words
    simp only [List.map_cons, List.map_append, List.map_nil, relocate_phraseNode]
    refine .call ihc ?_ iha ?_ rfl
    exacts [hleft, hright]
  | arguments _ ih => simpa using .arguments ih
  | argument _ ih => exact .argument ih
  | nextArgument _ hcomma _ words ihs ih =>
    subst words
    simp only [List.map_cons, List.map_append, List.map_nil]
    refine .nextArgument ihs ?_ ih rfl
    exact hcomma
  | constant ht =>
    simp only [List.map_cons, List.map_nil, relocate_node]
    exact .constant ht
  | trueLit ht =>
    simp only [List.map_cons, List.map_nil, relocate_phraseNode]
    exact .trueLit ht
  | falseLit ht =>
    simp only [List.map_cons, List.map_nil, relocate_phraseNode]
    exact .falseLit ht
  | nilLit ht =>
    simp only [List.map_cons, List.map_nil, relocate_phraseNode]
    exact .nilLit ht
  | reference ht =>
    simp only [List.map_cons, List.map_nil, relocate_phraseNode, relocate_node]
    exact .reference ht
  | grouping hleft _ hright words ih =>
    subst words
    simp only [List.map_cons, List.map_append, List.map_nil, relocate_phraseNode]
    refine .grouping ?_ ih ?_ rfl
    exacts [hleft, hright]
  | missing => simpa using .missing
  | present _ ih => exact .present ih

/-- **Programs with the same words coincide**, wherever the words stand. -/
theorem Derives.coincides {ts us : List Token} {tree other : Node} (h : Derives .program ts [tree])
    (h' : Derives .program us [other])
    (same : ts.map Token.unplaced = us.map Token.unplaced) : other.Coincides tree := by
  have words (ws : List Token) : ws.map (Token.relocate fun _ => .first) =
      (ws.map Token.unplaced).map fun w => ⟨w.1, w.2, .first, .first⟩ := by
    rw [List.map_map]
    rfl
  have first : Derives .program _ [_] := @Derives.relocate (fun _ => .first) _ _ _ h
  have second : Derives .program _ [_] := @Derives.relocate (fun _ => .first) _ _ _ h'
  rw [words] at first second
  rw [same] at first
  exact first.program_unique second

end Source

end LoxLang
