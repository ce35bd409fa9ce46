import LoxLang.Proofs.Relocation

/-!
# Reading does not look at positions

A reader that is given the same words elsewhere does the same elsewhere. It may also have read other
declarations before: they stay at the beginning of the program, and nothing that comes later looks
at them.

* `Pending.rebase`, `Expecting.relocate`, `Reader.rebase`: a reader with all its positions moved,
  and with other declarations before the ones it has read.

Results: `Reader.terminals_rebase` — the same words can stand next; `Reader.step?_rebase` — one
word has the same effect; `Reader.finish?_rebase` — the same trees stand at the end of the
program.
-/

set_option autoImplicit false

namespace LoxLang

variable {g : Position → Position} {before : List Node}

@[simp] theorem Place.relocate_through (p q : Place) :
    (p.through q).relocate g = (p.relocate g).through (q.relocate g) := by
  cases p <;> cases q <;> rfl

@[simp] theorem Node.place_relocate (n : Node) : (n.relocate g).place = n.place.relocate g := by
  cases n <;> simp [Node.relocate, Node.place, Place.relocate]

@[simp] theorem Node.relocate_absent : Node.absent.relocate g = .absent := by
  simp [Node.relocate]

@[simp] theorem Token.kind_relocate (t : Token) : (t.relocate g).kind = t.kind := rfl

@[simp] theorem Token.place_relocate (t : Token) : (t.relocate g).place = t.place.relocate g := rfl

namespace Source

/-! ## Readers elsewhere -/

/-- The beginning of a function, moved. -/
def Header.relocate (g : Position → Position) (h : Header) : Header :=
  ⟨h.first.relocate g, h.name.relocate g, h.parameters.relocate g⟩

/-- A construct that has begun, moved; a program has begun with the declarations `before`, which are
kept in reverse. -/
def Pending.rebase (g : Position → Position) (before : List Node) : Pending → Pending
  | .program items => .program (items.map (Node.relocate g) ++ before)
  | .block first header items =>
    .block (first.relocate g) (header.map (Header.relocate g)) (items.map (Node.relocate g))
  | .thenBranch first test => .thenBranch (first.relocate g) (test.relocate g)
  | .elseBranch first test yes => .elseBranch (first.relocate g) (test.relocate g) (yes.relocate g)
  | .whileBody first test => .whileBody (first.relocate g) (test.relocate g)
  | .forBody first init test step =>
    .forBody (first.relocate g) (init.relocate g) (test.relocate g) (step.relocate g)
  | .forInit first => .forInit (first.relocate g)
  | .expression => .expression
  | .print first => .print (first.relocate g)
  | .result first => .result (first.relocate g)
  | .initializer first name => .initializer (first.relocate g) (name.relocate g)
  | .ifTest first => .ifTest (first.relocate g)
  | .whileTest first => .whileTest (first.relocate g)
  | .forTest first init => .forTest (first.relocate g) (init.relocate g)
  | .forStep first init test => .forStep (first.relocate g) (init.relocate g) (test.relocate g)
  | .assign name => .assign (name.relocate g)
  | .binary left op => .binary (left.relocate g) (op.relocate g)
  | .unary op => .unary (op.relocate g)
  | .group first => .group (first.relocate g)
  | .arguments callee items => .arguments (callee.relocate g) (items.map (Node.relocate g))

/-- What is expected next, moved. -/
def Expecting.relocate (g : Position → Position) : Expecting → Expecting
  | .item => .item
  | .next ended isVariable => .next (ended.relocate g) isVariable
  | .statement => .statement
  | .clause => .clause
  | .operand => .operand
  | .operator left target => .operator (left.relocate g) (target.map (Token.relocate g))
  | .opening head first => .opening head (first.relocate g)
  | .variableName first => .variableName (first.relocate g)
  | .variableRest first name => .variableRest (first.relocate g) (name.relocate g)
  | .functionName first => .functionName (first.relocate g)
  | .parametersOpening first name => .parametersOpening (first.relocate g) (name.relocate g)
  | .firstParameter first name => .firstParameter (first.relocate g) (name.relocate g)
  | .nextParameter first name items =>
    .nextParameter (first.relocate g) (name.relocate g) (items.map (Token.relocate g))
  | .parameterRest first name items =>
    .parameterRest (first.relocate g) (name.relocate g) (items.map (Token.relocate g))
  | .body header => .body (header.relocate g)

/-- A reader with its positions moved, in a program that has begun with the declarations
`before`. -/
def Reader.rebase (g : Position → Position) (before : List Node) (r : Reader) : Reader :=
  ⟨r.expecting.relocate g, r.pending.map (Pending.rebase g before)⟩

/-! ## Nodes of finished constructs -/

@[simp] theorem relocate_treeTo (label : Label) (first : Place) (parts : List Node) (last : Node) :
    (treeTo label first parts last).relocate g =
      treeTo label (first.relocate g) (parts.map (Node.relocate g)) (last.relocate g) := by
  simp [treeTo]

theorem parts_listNode (label : Label) (items : List Node) :
    (listNode label items).parts = items := by
  obtain ⟨place, h⟩ := listNode_eq label items
  rw [h]
  rfl

@[simp] theorem relocate_listNode (label : Label) (items : List Node) :
    (listNode label items).relocate g = listNode label (items.map (Node.relocate g)) := by
  cases items with
  | nil => simp [listNode, Place.relocate]
  | cons n ns =>
    have last : (n :: ns).getLast? = some ((n :: ns).getLast (by simp)) :=
      List.getLast?_eq_getLast_of_ne_nil _
    have last' : ((n :: ns).map (Node.relocate g)).getLast? =
        some (((n :: ns).getLast (by simp)).relocate g) := by
      rw [List.getLast?_map, last, Option.map_some]
    simp only [List.map_cons] at last'
    simp [listNode, last, last']

@[simp] theorem relocate_binaryNode (left right : Node) (op : Token) :
    (binaryNode left op right).relocate g =
      binaryNode (left.relocate g) (op.relocate g) (right.relocate g) := by
  simp only [binaryNode, relocate_treeTo, List.map_cons, List.map_nil, relocate_node,
    Node.place_relocate]
  rfl

@[simp] theorem relocate_unaryNode (op : Token) (operand : Node) :
    (unaryNode op operand).relocate g = unaryNode (op.relocate g) (operand.relocate g) := by
  simp [unaryNode]

@[simp] theorem relocate_assignNode (name : Token) (value : Node) :
    (assignNode name value).relocate g = assignNode (name.relocate g) (value.relocate g) := by
  simp [assignNode]

@[simp] theorem relocate_callNode (callee : Node) (items : List Node) (close : Token) :
    (callNode callee items close).relocate g =
      callNode (callee.relocate g) (items.map (Node.relocate g)) (close.relocate g) := by
  cases items <;> simp [callNode, List.map_reverse]

@[simp] theorem relocate_ifNode (first : Place) (test yes no : Node) :
    (ifNode first test yes no).relocate g =
      ifNode (first.relocate g) (test.relocate g) (yes.relocate g) (no.relocate g) := by
  cases h : no.present? <;> simp [ifNode, h]

@[simp] theorem relocate_whileNode (first : Place) (test body : Node) :
    (whileNode first test body).relocate g =
      whileNode (first.relocate g) (test.relocate g) (body.relocate g) := by
  simp [whileNode]

@[simp] theorem relocate_forNode (first : Place) (init test step body : Node) :
    (forNode first init test step body).relocate g =
      forNode (first.relocate g) (init.relocate g) (test.relocate g) (step.relocate g)
        (body.relocate g) := by
  simp [forNode]

@[simp] theorem relocate_blockNode (first : Place) (header : Option Header) (items : List Node)
    (close : Token) : (blockNode first header items close).relocate g =
      blockNode (first.relocate g) (header.map (Header.relocate g)) (items.map (Node.relocate g))
        (close.relocate g) := by
  cases header <;> simp [blockNode, Header.relocate, List.map_reverse]

/-! ## Closing what has ended -/

theorem closeOperators_rebase (level : Nat) (left : Node) (pending : List Pending) :
    closeOperators level (left.relocate g) (pending.map (Pending.rebase g before)) =
      (closeOperators level left pending).map (Node.relocate g)
        (List.map (Pending.rebase g before)) := by
  fun_induction closeOperators level left pending with
  | case1 left op rest ih => simpa [closeOperators, Pending.rebase] using ih
  | case2 left l op rest h ih => simpa [closeOperators, Pending.rebase, h] using ih
  | case3 left l op rest h => simp [closeOperators, Pending.rebase, h]
  | case4 left name rest h ih => simpa [closeOperators, Pending.rebase, h] using ih
  | case5 left name rest h => simp [closeOperators, Pending.rebase, h]
  | case6 left stack hunary hbinary hassign =>
    cases stack with
    | nil => rfl
    | cons top rest =>
      cases top with
      | unary op => exact absurd rfl (hunary op rest)
      | binary l op => exact absurd rfl (hbinary l op rest)
      | assign name => exact absurd rfl (hassign name rest)
      | _ => rfl

theorem closeStatements_rebase (beforeElse : Bool) (ended : Node) (pending : List Pending) :
    closeStatements beforeElse (ended.relocate g) (pending.map (Pending.rebase g before)) =
      (closeStatements beforeElse ended pending).map (Node.relocate g)
        (List.map (Pending.rebase g before)) := by
  fun_induction closeStatements beforeElse ended pending with
  | case1 ended first test rest h => simp [closeStatements, Pending.rebase, h]
  | case2 ended first test rest h ih => simpa [closeStatements, Pending.rebase, h] using ih
  | case3 ended first test yes rest ih => simpa [closeStatements, Pending.rebase] using ih
  | case4 ended first test rest ih => simpa [closeStatements, Pending.rebase] using ih
  | case5 ended first init test step rest ih => simpa [closeStatements, Pending.rebase] using ih
  | case6 ended stack hthen helse hwhile hfor =>
    cases stack with
    | nil => rfl
    | cons top rest =>
      cases top with
      | thenBranch first test => exact absurd rfl (hthen first test rest)
      | elseBranch first test yes => exact absurd rfl (helse first test yes rest)
      | whileBody first test => exact absurd rfl (hwhile first test rest)
      | forBody first init test step => exact absurd rfl (hfor first init test step rest)
      | _ => rfl

/-! ## One word -/

namespace Reader

variable {t : Token}

theorem canAssign_rebase (pending : List Pending) :
    canAssign (pending.map (Pending.rebase g before)) = canAssign pending := by
  cases pending with
  | nil => rfl
  | cons top rest => cases top <;> rfl

theorem absentOperand?_rebase (pending : List Pending) :
    absentOperand? (t.relocate g) (pending.map (Pending.rebase g before)) =
      (absentOperand? t pending).map (Reader.rebase g before) := by
  unfold absentOperand?
  rw [Token.kind_relocate]
  cases pending with
  | nil => rfl
  | cons top rest =>
    cases top with
    | arguments callee items =>
      cases items with
      | nil => simp [Pending.rebase, apply_ite (Option.map _), rebase, Expecting.relocate]
      | cons n ns => rfl
    | _ => simp [Pending.rebase, apply_ite (Option.map _), rebase, Expecting.relocate]

theorem operand?_rebase (pending : List Pending) :
    operand? (t.relocate g) (pending.map (Pending.rebase g before)) =
      (operand? t pending).map (Reader.rebase g before) := by
  unfold operand?
  rw [Token.kind_relocate, canAssign_rebase, absentOperand?_rebase]
  split
  case h_6 => by_cases h : canAssign pending <;> simp [rebase, Expecting.relocate, h]
  all_goals simp [rebase, Expecting.relocate, Pending.rebase]

theorem endExpression?_rebase (e : Node) (pending : List Pending) :
    endExpression? (t.relocate g) (e.relocate g) (pending.map (Pending.rebase g before)) =
      (endExpression? t e pending).map (Reader.rebase g before) := by
  unfold endExpression?
  rw [Token.kind_relocate]
  cases pending with
  | nil => rfl
  | cons top rest =>
    cases top <;> simp [Pending.rebase, apply_ite (Option.map _), rebase, Expecting.relocate]

theorem operator?_rebase (left : Node) (target : Option Token) (pending : List Pending) :
    operator? (t.relocate g) (left.relocate g) (target.map (Token.relocate g))
        (pending.map (Pending.rebase g before)) =
      (operator? t left target pending).map (Reader.rebase g before) := by
  unfold operator?
  rw [Token.kind_relocate]
  split
  · simp [closeOperators_rebase, rebase, Expecting.relocate, Pending.rebase]
  · split
    · simp [rebase, Expecting.relocate, Pending.rebase]
    · split
      · simp [rebase, Expecting.relocate, Pending.rebase, Function.comp_def]
      · rw [closeOperators_rebase]
        exact endExpression?_rebase _ _

theorem statement?_rebase (pending : List Pending) :
    statement? (t.relocate g) (pending.map (Pending.rebase g before)) =
      (statement? t pending).map (Reader.rebase g before) := by
  unfold statement?
  rw [Token.kind_relocate]
  split
  case h_7 => exact operand?_rebase (.expression :: pending)
  all_goals simp [rebase, Expecting.relocate, Pending.rebase]

theorem item?_rebase (pending : List Pending) :
    item? (t.relocate g) (pending.map (Pending.rebase g before)) =
      (item? t pending).map (Reader.rebase g before) := by
  unfold item?
  rw [Token.kind_relocate, statement?_rebase]
  split
  case h_3 =>
    cases pending with
    | nil => rfl
    | cons top rest =>
      cases top with
      | block first header items => simp [rebase, Expecting.relocate, Pending.rebase]
      | _ => rfl
  all_goals simp [rebase, Expecting.relocate]

/-- The declaration or statement that has ended is attached to the same construct. -/
theorem next?_rebase (ended : Node) (pending : List Pending) :
    next? (t.relocate g) (ended.relocate g) (pending.map (Pending.rebase g before)) =
      (next? t ended pending).map (Reader.rebase g before) := by
  simp only [next?, Token.kind_relocate, closeStatements_rebase]
  generalize closeStatements (t.kind == .keyword .elseWord) ended pending = closed
  obtain ⟨ended, pending⟩ := closed
  cases pending with
  | nil => rfl
  | cons top rest =>
    cases top with
    | program items => exact item?_rebase (.program (ended :: items) :: rest)
    | block first header items => exact item?_rebase (.block first header (ended :: items) :: rest)
    | thenBranch first test => simp [rebase, Expecting.relocate, Pending.rebase]
    | forInit first =>
      have moved :=
        @operand?_rebase g before t (.forTest first (.tree .forClause [ended] ended.place) :: rest)
      simpa [Pending.rebase] using moved
    | _ => rfl

theorem clause?_rebase (pending : List Pending) :
    clause? (t.relocate g) (pending.map (Pending.rebase g before)) =
      (clause? t pending).map (Reader.rebase g before) := by
  cases pending with
  | nil => rfl
  | cons top rest =>
    cases top with
    | forInit first =>
      simp only [List.map_cons, Pending.rebase, clause?, Token.kind_relocate]
      split
      case h_3 => exact operand?_rebase (.expression :: .forInit first :: rest)
      all_goals simp [rebase, Expecting.relocate, Pending.rebase]
    | _ => rfl

theorem terminals_rebase (r : Reader) :
    (r.rebase g before).expecting.terminals = r.expecting.terminals := by
  obtain ⟨expecting, pending⟩ := r
  cases expecting with
  | next ended isVariable => cases isVariable <;> rfl
  | operator left target => cases target <;> rfl
  | _ => rfl

/-- **The same words can stand next.** -/
theorem admits_rebase (r : Reader) : (r.rebase g before).expecting.admits = r.expecting.admits := by
  funext k
  rw [Expecting.admits, Expecting.admits, terminals_rebase]

/-- **One word has the same effect elsewhere**, and after other declarations. -/
theorem step?_rebase (r : Reader) (t : Token) :
    (r.rebase g before).step? (t.relocate g) = (r.step? t).map (Reader.rebase g before) := by
  obtain ⟨expecting, pending⟩ := r
  unfold step?
  rw [Token.kind_relocate]
  cases expecting with
  | item => exact item?_rebase pending
  | next ended isVariable => exact next?_rebase ended pending
  | statement => exact statement?_rebase pending
  | clause => exact clause?_rebase pending
  | operand => exact operand?_rebase pending
  | operator left target => exact operator?_rebase left target pending
  | opening head first =>
    cases head <;> simp [rebase, Expecting.relocate, apply_ite (Option.map _), Pending.rebase]
  | _ =>
    simp [rebase, Expecting.relocate, apply_ite (Option.map _), Pending.rebase, Header.relocate,
      List.map_reverse, Function.comp_def]

/-- **At the end of the text** the program consists of the declarations before and of the ones that
have been read. -/
theorem finish?_rebase (r : Reader) :
    (r.rebase g before).finish? = r.finish?.map fun tree =>
      listNode .program (before.reverse ++ tree.parts.map (Node.relocate g)) := by
  obtain ⟨expecting, pending⟩ := r
  cases expecting with
  | item =>
    rcases pending with _ | ⟨top, _ | ⟨below, rest⟩⟩
    · rfl
    · cases top with
      | program items =>
        simp [finish?, rebase, Expecting.relocate, Pending.rebase, parts_listNode, List.map_reverse]
      | _ => rfl
    · cases top <;> rfl
  | next ended isVariable =>
    simp only [finish?, rebase, Expecting.relocate, closeStatements_rebase]
    generalize closeStatements false ended pending = closed
    obtain ⟨ended, _ | ⟨top, _ | ⟨below, rest⟩⟩⟩ := closed
    · rfl
    · cases top with
      | program items => simp [Pending.rebase, parts_listNode, List.map_reverse]
      | _ => rfl
    · cases top <;> rfl
  | _ => rfl

/-- The tree of a text is the list of its declarations. -/
theorem finish?_listNode {r : Reader} {tree : Node} (h : r.finish? = some tree) :
    listNode .program tree.parts = tree := by
  unfold finish? at h
  split at h
  · split at h
    · cases h
      rw [parts_listNode]
    · cases h
  · split at h
    · cases h
      rw [parts_listNode]
    · cases h
  · cases h

end Reader

end Source

end LoxLang
