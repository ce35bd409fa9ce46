import LoxLang.Proofs.Derivation

/-!
# The reader takes every program of the grammar

What the grammar derives is read: from a reader that waits for a phrase, the words of the phrase
lead to a reader that has its node. After an expression some operators may be open still, and after
a statement some statements; closing them gives the node of the phrase. Every word is one that can
stand at its place, so it is also cut from the text as such.

* `Reads`: a reader that takes words, each of them one that can stand next.
* `ReadsLevel`, `ReadsStatement`, `ReadsItem`, ...: what reading the words of a phrase leads to.
* `Readable`: the same for all phrases.

Results: one lemma for each production, and from them, by induction on derivations,
`Derives.readable`; `Derives.program_read` — the words of a program are read, and its tree is what
they give; `Derives.program_unique` — words have one tree as a program.
-/

set_option autoImplicit false

namespace LoxLang

namespace Source

open Expecting (expressionStart statementStart itemStart)

/-! ## Runs of words -/

/-- A reader that takes words, each of them one that can stand next. -/
inductive Reads : Reader → List Token → Reader → Prop
  | done {r : Reader} : Reads r [] r
  | word {r r' r'' : Reader} {t : Token} {ts : List Token}
    (admitted : r.expecting.admits t.kind = true) (step : r.step? t = some r')
    (more : Reads r' ts r'') : Reads r (t :: ts) r''

namespace Reads

variable {r r' r'' : Reader} {t : Token} {ts us : List Token}

theorem single (admitted : r.expecting.admits t.kind = true) (step : r.step? t = some r') :
    Reads r [t] r' :=
  .word admitted step .done

/-- One word and those after it. -/
theorem cons (r' : Reader) (admitted : r.expecting.admits t.kind = true)
    (step : r.step? t = some r') (more : Reads r' ts r'') : Reads r (t :: ts) r'' :=
  .word admitted step more

theorem append (h : Reads r ts r') (more : Reads r' us r'') : Reads r (ts ++ us) r'' := by
  induction h with
  | done => exact more
  | word admitted step _ ih => exact .word admitted step (ih more)

theorem split (h : Reads r (ts ++ us) r'') : ∃ r', Reads r ts r' ∧ Reads r' us r'' := by
  induction ts generalizing r with
  | nil => exact ⟨r, .done, h⟩
  | cons t ts ih =>
    cases h with
    | word admitted step more =>
      obtain ⟨r', first, second⟩ := ih more
      exact ⟨r', .word admitted step first, second⟩

theorem unique (h : Reads r ts r') (h' : Reads r ts r'') : r' = r'' := by
  induction h with
  | done =>
    cases h'
    rfl
  | word _ step _ ih =>
    cases h' with
    | word _ step' more' =>
      rw [step] at step'
      cases step'
      exact ih more'

/-- A reader that takes the first word as another one does takes all the words. -/
theorem start {r₀ : Reader} (h : Reads r₀ (t :: ts) r')
    (admitted : r.expecting.admits t.kind = true) (step : r.step? t = r₀.step? t) :
    Reads r (t :: ts) r' := by
  cases h with
  | word _ step₀ more => exact .word admitted (step.trans step₀) more

end Reads

/-! ## Expressions -/

/-- The level of the operand that a construct waits for. -/
def Pending.operandLevel : Pending → Nat
  | .binary _ op => op.kind.level?.getD 0 + 1
  | .unary _ => 7
  | _ => 0

/-- The level of the operand that the innermost construct waits for. -/
def operandLevel : List Pending → Nat
  | [] => 0
  | top :: _ => top.operandLevel

/-- An operator closes nothing that waits for an operand of its level or a lower one. -/
theorem closeOperators_stays {level : Nat} {n : Node} {S : List Pending}
    (h : operandLevel S ≤ level) (pos : 0 < level) (small : level ≤ 6) :
    closeOperators level n S = (n, S) := by
  unfold closeOperators
  split
  · simp [operandLevel, Pending.operandLevel] at h
    omega
  · simp only [operandLevel, Pending.operandLevel] at h
    rw [if_neg (by omega)]
  · rw [if_neg (by omega)]
  · rfl

theorem canAssign_of_operandLevel {S : List Pending} (h : operandLevel S = 0) :
    Reader.canAssign S = true := by
  unfold Reader.canAssign
  split <;> simp [operandLevel, Pending.operandLevel] at h ⊢

/-- A reader after an expression of a level: closing the operators that are open gives the
expression. No operator is open after a call or an operand. -/
def Closes (i : Nat) (S : List Pending) (n : Node) (r : Reader) : Prop :=
  ∃ left target P, r = ⟨.operator left target, P⟩ ∧
    (∀ j ≤ i, closeOperators j left P = closeOperators j n S) ∧
      (8 ≤ i → left = n ∧ P = S)

/-- The words are read as an expression of a level. -/
def ReadsLevel (i : Nat) (ts : List Token) (n : Node) : Prop :=
  ∀ S, operandLevel S ≤ i → ∃ r, Reads ⟨.operand, S⟩ ts r ∧ Closes i S n r

/-- The words are read as the arguments of a call. -/
def ReadsArguments (ts : List Token) (ns : List Node) : Prop :=
  ∀ callee S, ∃ e rest left target P, ns.reverse = e :: rest ∧
    Reads ⟨.operand, .arguments callee [] :: S⟩ ts ⟨.operator left target, P⟩ ∧
    closeOperators 0 left P = (e, .arguments callee rest :: S)

theorem admits_operator {left : Node} {target : Option Token} {k : Terminal}
    (h : k ∈ Expecting.afterOperand) : (Expecting.operator left target).admits k = true := by
  cases target <;> simp [Expecting.admits, Expecting.terminals, h]

section

variable {i : Nat} {ts us vs : List Token} {n m : Node} {S : List Pending}

theorem ReadsLevel.nextLevel (h : ReadsLevel (i + 1) ts n) : ReadsLevel i ts n := by
  intro S hS
  obtain ⟨r, reads, left, target, P, hr, closes, tight⟩ := h S (by omega)
  exact ⟨r, reads, left, target, P, hr, fun j hj => closes j (by omega),
    fun hi => tight (by omega)⟩

/-- The words of a complete expression and the word after it. -/
theorem ReadsLevel.ended {t : Token} {r : Reader} (h : ReadsLevel 0 ts n) (hS : operandLevel S = 0)
    (stays : closeOperators 0 n S = (n, S))
    (ht : t.kind ∈ [Terminal.symbol .rightParen, .symbol .comma, .symbol .semicolon])
    (hend : Reader.endExpression? t n S = some r) : Reads ⟨.operand, S⟩ (ts ++ [t]) r := by
  obtain ⟨-, reads, left, target, P, rfl, closes, -⟩ := h S (by omega)
  have closed := closes 0 (Nat.le_refl 0)
  rw [stays] at closed
  refine reads.append (.single (admits_operator ?_) ?_)
  · simp only [List.mem_cons, List.not_mem_nil, or_false] at ht
    rcases ht with ht | ht | ht <;> rw [ht] <;> decide
  · simp only [List.mem_cons, List.not_mem_nil, or_false] at ht
    rcases ht with ht | ht | ht <;>
      simpa [Reader.step?, Reader.operator?, ht, Terminal.level?, closed] using hend

theorem ReadsLevel.assign {name equal : Token} {value : Node} (hname : name.kind = .identifier)
    (hequal : equal.kind = .symbol .equal) (hvs : Derives (.level 0) vs [value])
    (h : ReadsLevel 0 vs value) :
    ReadsLevel 0 (name :: equal :: vs)
      (phraseNode .assign (name :: equal :: vs) [name.node, value]) := by
  intro S hS
  have can := canAssign_of_operandLevel (Nat.le_zero.1 hS)
  obtain ⟨r, reads, left, target, P, hr, closes, -⟩ := h (.assign name :: S) (Nat.le_refl 0)
  refine ⟨r, ?_, left, target, P, hr, fun j hj => ?_, fun hi => by omega⟩
  · refine .cons ⟨.operator (.tree .reference [name.node] name.place) (some name), S⟩
      (by rw [hname]; rfl) (by simp [Reader.step?, Reader.operand?, hname, can]) ?_
    refine .cons ⟨.operand, .assign name :: S⟩ (by rw [hequal]; rfl) ?_ reads
    simp [Reader.step?, Reader.operator?, hequal, Terminal.level?]
  · obtain rfl := Nat.le_zero.1 hj
    rw [closes 0 hj, ← assignNode_eq hvs]
    rfl

theorem level_of_operators {op : Terminal} (h : op ∈ operators i) : op.level? = some i := by
  unfold operators at h
  split at h <;> fin_cases h <;> rfl

theorem afterOperand_of_operators {op : Terminal} (h : op ∈ operators i) :
    op ∈ Expecting.afterOperand := by
  unfold operators at h
  split at h <;> fin_cases h <;> decide

theorem ReadsLevel.binary {op : Token} {left right : Node} (hleft : Derives (.level i) us [left])
    (hop : op.kind ∈ operators i) (hright : Derives (.level (i + 1)) vs [right])
    (first : ReadsLevel i us left) (second : ReadsLevel (i + 1) vs right) :
    ReadsLevel i (us ++ op :: vs)
      (phraseNode (operatorLabel i) (us ++ op :: vs) [left, op.node, right]) := by
  have hlevel := level_of_operators hop
  obtain ⟨-, small, -⟩ := operators_of_level hlevel
  have pos : 0 < i := by
    cases i with
    | zero => simp [operators] at hop
    | succ i => omega
  intro S hS
  obtain ⟨-, reads, l, target, P, rfl, closes, -⟩ := first S hS
  have closed := (closes i (Nat.le_refl i)).trans (closeOperators_stays hS pos small)
  have waits : operandLevel (.binary left op :: S) ≤ i + 1 := by
    simp [operandLevel, Pending.operandLevel, hlevel]
  obtain ⟨r, reads', l', target', P', hr, closes', -⟩ := second (.binary left op :: S) waits
  refine ⟨r, ?_, l', target', P', hr, fun j hj => ?_, fun hi => by omega⟩
  · refine reads.append (.cons ⟨.operand, .binary left op :: S⟩ 
      (admits_operator (afterOperand_of_operators hop)) ?_ reads')
    simp [Reader.step?, Reader.operator?, hlevel, closed]
  · rw [closes' j (by omega), ← binaryNode_eq hlevel hleft hright]
    simp [closeOperators, hlevel, hj]

theorem ReadsLevel.unary {op : Token} {operand : Node}
    (hop : op.kind ∈ [Terminal.symbol .bang, .symbol .minus])
    (hvs : Derives (.level 7) vs [operand]) (h : ReadsLevel 7 vs operand) :
    ReadsLevel 7 (op :: vs) (phraseNode .unary (op :: vs) [op.node, operand]) := by
  intro S hS
  obtain ⟨r, reads, left, target, P, hr, closes, -⟩ := h (.unary op :: S) (Nat.le_refl 7)
  refine ⟨r, ?_, left, target, P, hr, fun j hj => ?_, fun hi => by omega⟩
  · simp only [List.mem_cons, List.not_mem_nil, or_false] at hop
    rcases hop with hop | hop <;>
      exact .word (by rw [hop]; rfl) (by simp [Reader.step?, Reader.operand?, hop]) reads
  · rw [closes j hj, ← unaryNode_eq hvs]
    rfl

/-- A word that is an expression by itself. -/
theorem ReadsLevel.operand {t : Token} (ht : t.kind ∈ expressionStart)
    (h : ∀ S, ∃ target, Reader.operand? t S = some ⟨.operator n target, S⟩) :
    ReadsLevel 9 [t] n := by
  intro S _
  obtain ⟨target, hstep⟩ := h S
  refine ⟨_, .single ?_ hstep, n, target, S, rfl, fun _ _ => rfl, fun _ => ⟨rfl, rfl⟩⟩
  simp [Expecting.admits, Expecting.terminals, ht]

theorem ReadsLevel.grouping {left right : Token} {inner : Node}
    (hleft : left.kind = .symbol .leftParen) (hright : right.kind = .symbol .rightParen)
    (h : ReadsLevel 0 us inner) :
    ReadsLevel 9 (left :: (us ++ [right]))
      (phraseNode .grouping (left :: (us ++ [right])) [inner]) := by
  intro S _
  refine ⟨_, ?_, _, none, S, rfl, fun _ _ => rfl, fun _ => ⟨rfl, rfl⟩⟩
  refine .cons ⟨.operand, .group left.place :: S⟩ (by rw [hleft]; rfl)
    (by simp [Reader.step?, Reader.operand?, hleft]) ?_
  refine h.ended rfl rfl (by simp [hright]) ?_
  rw [Reader.endExpression?, if_pos hright, grouping_eq]

theorem ReadsArguments.single (h : ReadsLevel 0 ts n) : ReadsArguments ts [n] := by
  intro callee S
  obtain ⟨-, reads, left, target, P, rfl, closes, -⟩ :=
    h (.arguments callee [] :: S) (Nat.le_refl 0)
  exact ⟨n, [], left, target, P, rfl, reads, closes 0 (Nat.le_refl 0)⟩

theorem ReadsArguments.next {comma : Token} {ns : List Node} (hcomma : comma.kind = .symbol .comma)
    (first : ReadsArguments us ns) (second : ReadsLevel 0 vs n) :
    ReadsArguments (us ++ comma :: vs) (ns ++ [n]) := by
  intro callee S
  obtain ⟨e, rest, left, target, P, hns, reads, closed⟩ := first callee S
  obtain ⟨-, reads', left', target', P', rfl, closes', -⟩ :=
    second (.arguments callee (e :: rest) :: S) (Nat.le_refl 0)
  refine ⟨n, e :: rest, left', target', P', by simp [hns], ?_, closes' 0 (Nat.le_refl 0)⟩
  refine reads.append (.cons ⟨.operand, .arguments callee (e :: rest) :: S⟩
    (admits_operator (by rw [hcomma]; decide)) ?_ reads')
  simp [Reader.step?, Reader.operator?, hcomma, Terminal.level?, closed, Reader.endExpression?]

theorem ReadsLevel.call {left right : Token} {callee args : Node} {as : List Token}
    (hcallee : Derives (.level 8) us [callee]) (hleft : left.kind = .symbol .leftParen)
    (hright : right.kind = .symbol .rightParen) (first : ReadsLevel 8 us callee)
    (second : as = [] ∧ args = .absent ∨
      ∃ ns, Derives .expressions as ns ∧ args = phraseNode .arguments as ns ∧
        ReadsArguments as ns) :
    ReadsLevel 8 (us ++ left :: (as ++ [right]))
      (phraseNode .call (us ++ left :: (as ++ [right])) [callee, args]) := by
  intro S hS
  obtain ⟨-, reads, l, target, P, rfl, -, tight⟩ := first S hS
  obtain ⟨rfl, rfl⟩ := tight (Nat.le_refl 8)
  refine ⟨_, ?_, _, none, P, rfl, fun _ _ => rfl, fun _ => ⟨rfl, rfl⟩⟩
  refine reads.append (.cons ⟨.operand, .arguments l [] :: P⟩
    (admits_operator (by rw [hleft]; decide))
      (by simp [Reader.step?, Reader.operator?, hleft, Terminal.level?]) ?_)
  rcases second with ⟨rfl, rfl⟩ | ⟨ns, hns, rfl, second⟩
  · refine .single (by rw [hright]; rfl) ?_
    have node : callNode l [] right = _ := callNode_eq [] left [] hcallee
    simp [Reader.step?, Reader.operand?, Reader.absentOperand?, hright, node]
  · obtain ⟨e, rest, l', target', P', hrest, reads', closed⟩ := second l P
    have node : callNode l (e :: rest) right = _ := callNode_eq (e :: rest) left as hcallee
    rw [← hrest, List.reverse_reverse, hns.listNode_eq (by simp), hrest] at node
    refine reads'.append (.single (admits_operator (by rw [hright]; decide)) ?_)
    simp [Reader.step?, Reader.operator?, hright, Terminal.level?, closed,
      Reader.endExpression?, node]

end

/-! ## First words -/

/-- The terminals that the words of a phrase begin with. -/
def Phrase.starts : Phrase → List Terminal
  | .declaration => itemStart
  | .variableDecl => [.keyword .varWord]
  | .statement => statementStart
  | .expressionStmt => expressionStart
  | .clause => Expecting.clause.terminals
  | .block => [.symbol .leftBrace]
  | .level _ => expressionStart
  | _ => []

theorem Derives.starts {p : Phrase} {ts : List Token} {ns : List Node} (h : Derives p ts ns)
    (hp : p.isUnit = true) : ∃ t us, ts = t :: us ∧ t.kind ∈ p.starts := by
  induction h with
  | program | noItems | oneMore | parameters | name | nextName | initializer | elsePart | arguments
  | argument | nextArgument | missing | present => cases hp
  | ofVariableDecl _ ih =>
    obtain ⟨t, us, rfl, ht⟩ := ih rfl
    exact ⟨t, us, rfl, by simp [List.mem_singleton.1 ht, Phrase.starts, itemStart]⟩
  | ofStatement _ ih =>
    obtain ⟨t, us, rfl, ht⟩ := ih rfl
    exact ⟨t, us, rfl, List.mem_append_left _ ht⟩
  | ofExpressionStmt _ ih =>
    obtain ⟨t, us, rfl, ht⟩ := ih rfl
    exact ⟨t, us, rfl, List.mem_append_left _ ht⟩
  | ofBlock _ ih =>
    obtain ⟨t, us, rfl, ht⟩ := ih rfl
    exact ⟨t, us, rfl, by simp [List.mem_singleton.1 ht, Phrase.starts, statementStart]⟩
  | variableClause _ ih =>
    obtain ⟨t, us, rfl, ht⟩ := ih rfl
    exact ⟨t, us, rfl, by simp [List.mem_singleton.1 ht, Phrase.starts, Expecting.terminals]⟩
  | expressionClause _ ih =>
    obtain ⟨t, us, rfl, ht⟩ := ih rfl
    exact ⟨t, us, rfl, List.mem_cons_of_mem _ (List.mem_cons_of_mem _ ht)⟩
  | nextLevel _ ih => exact ih rfl
  | expressionStmt _ _ words ih | binary _ _ _ words ih | call _ _ _ _ words ih =>
    obtain ⟨t, us, rfl, ht⟩ := ih rfl
    exact ⟨t, _, words, ht⟩
  | functionDecl hstart _ _ _ _ _ words | printStmt hstart _ _ words | returnStmt hstart _ _ words
  | ifStmt hstart _ _ _ _ _ _ words | whileStmt hstart _ _ _ _ words
  | forStmt hstart _ _ _ _ _ _ _ words =>
    exact ⟨_, _, words, by rw [hstart]; decide⟩
  | variableDecl hstart _ _ _ words | block hstart _ _ words =>
    exact ⟨_, _, words, by rw [hstart]; decide⟩
  | assign hstart _ _ words | grouping hstart _ _ words =>
    exact ⟨_, _, words, by rw [hstart]; decide⟩
  | emptyClause ht | trueLit ht | falseLit ht | nilLit ht | reference ht =>
    exact ⟨_, _, rfl, by rw [ht]; decide⟩
  | constant ht =>
    simp only [List.mem_cons, List.not_mem_nil, or_false] at ht
    rcases ht with ht | ht <;> exact ⟨_, _, rfl, by rw [ht]; decide⟩
  | unary hop _ words =>
    simp only [List.mem_cons, List.not_mem_nil, or_false] at hop
    rcases hop with hop | hop <;> exact ⟨_, _, words, by rw [hop]; decide⟩

/-! ## Statements -/

/-- The words are read as a statement: closing the statements that end with the last word gives it.
Before an `else` this holds unless the statement itself would take the `else`. -/
def ReadsStatement (ts : List Token) (n : Node) : Prop :=
  ∀ S, ∃ ended P, Reads ⟨.statement, S⟩ ts ⟨.next ended false, P⟩ ∧
    ∀ beforeElse, (beforeElse = true → ¬ n.EndsOpen) →
      closeStatements beforeElse ended P = closeStatements beforeElse n S

/-- The words are read as an expression with a semicolon. -/
def ReadsExpressionStmt (ts : List Token) (n : Node) : Prop :=
  ∀ S, Reads ⟨.operand, .expression :: S⟩ ts ⟨.next n false, S⟩

/-- The words are read as a block, which may be the body of a function. -/
def ReadsBlock (ts : List Token) (n : Node) : Prop :=
  ∃ start us items stop, ts = start :: us ∧ start.kind = .symbol .leftBrace ∧
    n = blockNode start.place none items stop ∧ ∀ header S,
      Reads ⟨.item, .block start.place header [] :: S⟩ us
        ⟨.next (blockNode start.place header items stop) false, S⟩

/-- The words are read as a declaration of a variable, after the reserved word that it begins
with. -/
def ReadsVariable (ts : List Token) (n : Node) : Prop :=
  ∃ start us, ts = start :: us ∧ start.kind = .keyword .varWord ∧
    ∀ S, Reads ⟨.variableName start.place, S⟩ us ⟨.next n true, S⟩

/-- The words are read as an expression, or there are none. -/
def ReadsOptional (ts : List Token) (n : Node) : Prop :=
  ts = [] ∧ n = .absent ∨ Derives .expression ts [n] ∧ ReadsLevel 0 ts n

/-- The reader takes the beginning of an expression, or a semicolon in its place, as one that waits
for an operand does. -/
def TakesOperand (r : Reader) (S : List Pending) : Prop :=
  ∀ t : Token, t.kind ∈ Terminal.symbol .semicolon :: expressionStart →
    r.expecting.admits t.kind = true ∧ r.step? t = Reader.operand? t S

/-- The words are read as the first clause of a loop. -/
def ReadsClause (ts : List Token) (n : Node) : Prop :=
  ∀ first S, ∃ r, Reads ⟨.clause, .forInit first :: S⟩ ts r ∧
    TakesOperand r (.forTest first n :: S)

section

variable {ts us vs es bs : List Token} {n value test body : Node} {S : List Pending}
    {start stop left right : Token}

/-- An expression that may be absent, and the word after it. -/
theorem ReadsOptional.ended {t : Token} {r : Reader} (h : ReadsOptional ts n)
    (hS : operandLevel S = 0)
    (stays : closeOperators 0 n S = (n, S))
    (ht : t.kind ∈ [Terminal.symbol .rightParen, .symbol .semicolon])
    (absent : Reader.absentOperand? t S = Reader.endExpression? t .absent S)
    (hend : Reader.endExpression? t n S = some r) : Reads ⟨.operand, S⟩ (ts ++ [t]) r := by
  simp only [List.mem_cons, List.not_mem_nil, or_false] at ht
  rcases h with ⟨rfl, rfl⟩ | ⟨-, h⟩
  · rcases ht with ht | ht <;>
      exact .single (by rw [ht]; rfl) (by simp [Reader.step?, Reader.operand?, ht, absent, hend])
  · exact h.ended hS stays (by rcases ht with ht | ht <;> simp [ht]) hend

theorem ReadsExpressionStmt.intro (hvalue : Derives .expression vs [value])
    (h : ReadsLevel 0 vs value) (hstop : stop.kind = .symbol .semicolon) :
    ReadsExpressionStmt (vs ++ [stop]) (phraseNode .expressionStmt (vs ++ [stop]) [value]) := by
  intro S
  refine h.ended rfl rfl (by simp [hstop]) ?_
  rw [Reader.endExpression?, if_pos hstop, hvalue.place rfl,
    tree_eq (hvalue.ne_nil rfl) (List.prefix_append vs [stop]) (List.suffix_append vs [stop])]

theorem statement?_of_expressionStart {t : Token} (ht : t.kind ∈ expressionStart) :
    Reader.statement? t S = Reader.operand? t (.expression :: S) := by
  unfold Reader.statement?
  split <;> simp_all [expressionStart]

theorem ReadsStatement.expressionStmt (hts : Derives .expressionStmt ts [n])
    (h : ReadsExpressionStmt ts n) :
    ReadsStatement ts n := by
  intro S
  obtain ⟨t, us, rfl, ht⟩ := hts.starts rfl
  refine ⟨n, S, (h S).start ?_ (statement?_of_expressionStart ht), fun _ _ => rfl⟩
  simpa [Expecting.admits, Expecting.terminals, statementStart] using .inl ht

theorem ReadsStatement.printStmt (hstart : start.kind = .keyword .printWord)
    (h : ReadsLevel 0 vs value) (hstop : stop.kind = .symbol .semicolon) :
    ReadsStatement (start :: (vs ++ [stop]))
      (phraseNode .printStmt (start :: (vs ++ [stop])) [value]) := by
  intro S
  refine ⟨_, S, ?_, fun _ _ => rfl⟩
  refine .cons ⟨.operand, .print start.place :: S⟩ (by rw [hstart]; rfl)
    (by simp [Reader.step?, Reader.statement?, hstart]) ?_
  refine h.ended rfl rfl (by simp [hstop]) ?_
  rw [Reader.endExpression?, if_pos hstop, ← extent_singleton,
    tree_eq (by simp) (List.prefix_append [start] (vs ++ [stop])) ⟨start :: vs, rfl⟩]
  rfl

theorem ReadsStatement.returnStmt (hstart : start.kind = .keyword .returnWord)
    (h : ReadsOptional vs value) (hstop : stop.kind = .symbol .semicolon) :
    ReadsStatement (start :: (vs ++ [stop]))
      (phraseNode .returnStmt (start :: (vs ++ [stop])) [value]) := by
  intro S
  refine ⟨_, S, ?_, fun _ _ => rfl⟩
  refine .cons ⟨.operand, .result start.place :: S⟩ (by rw [hstart]; rfl)
    (by simp [Reader.step?, Reader.statement?, hstart]) ?_
  refine h.ended rfl rfl (by simp [hstop]) rfl ?_
  rw [Reader.endExpression?, if_pos hstop, ← extent_singleton,
    tree_eq (by simp) (List.prefix_append [start] (vs ++ [stop])) ⟨start :: vs, rfl⟩]
  rfl

theorem ReadsStatement.block (h : ReadsBlock ts n) : ReadsStatement ts n := by
  obtain ⟨start, us, items, stop, rfl, hstart, rfl, reads⟩ := h
  intro S
  refine ⟨_, S, ?_, fun _ _ => rfl⟩
  exact .cons ⟨.item, .block start.place none [] :: S⟩ (by rw [hstart]; rfl)
    (by simp [Reader.step?, Reader.statement?, hstart]) (reads none S)

/-- An `if` up to its first branch. -/
theorem reads_ifHead (hstart : start.kind = .keyword .ifWord)
    (hleft : left.kind = .symbol .leftParen) (h : ReadsLevel 0 es test)
    (hright : right.kind = .symbol .rightParen) (S : List Pending) :
    Reads ⟨.statement, S⟩ (start :: left :: (es ++ [right]))
      ⟨.statement, .thenBranch start.place test :: S⟩ := by
  refine .cons ⟨.opening .ifHead start.place, S⟩ (by rw [hstart]; rfl)
    (by simp [Reader.step?, Reader.statement?, hstart]) ?_
  refine .cons ⟨.operand, .ifTest start.place :: S⟩ (by rw [hleft]; rfl)
    (by simp [Reader.step?, hleft]) ?_
  exact h.ended rfl rfl (by simp [hright]) (by simp [Reader.endExpression?, hright])

theorem ReadsStatement.ifStmt {ys : List Token} {yes : Node}
    (hstart : start.kind = .keyword .ifWord) (hleft : left.kind = .symbol .leftParen)
    (htest : ReadsLevel 0 es test) (hright : right.kind = .symbol .rightParen)
    (hys : Derives .statement ys [yes]) (branch : ReadsStatement ys yes) :
    ReadsStatement (start :: left :: (es ++ right :: ys))
      (phraseNode .ifStmt (start :: left :: (es ++ right :: ys)) [test, yes, .absent]) := by
  have node : ifNode start.place test yes .absent =
      phraseNode .ifStmt (start :: left :: (es ++ right :: ys)) [test, yes, .absent] :=
    treeTo_eq (List.cons_ne_nil start []) ⟨_, rfl⟩ hys rfl
      ⟨start :: left :: (es ++ [right]), by simp⟩
  intro S
  obtain ⟨ended, P, reads, closes⟩ := branch (.thenBranch start.place test :: S)
  refine ⟨ended, P, ?_, fun beforeElse hopen => ?_⟩
  · rw [List.append_cons]
    exact (reads_ifHead hstart hleft htest hright S).append reads
  · cases beforeElse with
    | false => rw [closes false nofun, ← node, closeStatements, if_neg (by simp)]
    | true => exact absurd .withoutElse (hopen rfl)

theorem ReadsStatement.ifElseStmt {ys os : List Token} {yes no : Node} {other : Token}
    (hstart : start.kind = .keyword .ifWord) (hleft : left.kind = .symbol .leftParen)
    (htest : ReadsLevel 0 es test) (hright : right.kind = .symbol .rightParen)
    (branch : ReadsStatement ys yes) (closed : ¬ yes.EndsOpen)
    (hother : other.kind = .keyword .elseWord) (hos : Derives .statement os [no])
    (otherBranch : ReadsStatement os no) :
    ReadsStatement (start :: left :: (es ++ right :: (ys ++ other :: os)))
      (phraseNode .ifStmt (start :: left :: (es ++ right :: (ys ++ other :: os)))
        [test, yes, no]) := by
  have node : ifNode start.place test yes no =
      phraseNode .ifStmt (start :: left :: (es ++ right :: (ys ++ other :: os)))
        [test, yes, no] := by
    rw [ifNode, hos.present_eq rfl]
    exact treeTo_eq (List.cons_ne_nil start []) ⟨_, rfl⟩ hos rfl
      ⟨start :: left :: (es ++ right :: (ys ++ [other])), by simp⟩
  intro S
  obtain ⟨ended, P, reads, closes⟩ := branch (.thenBranch start.place test :: S)
  have waits := closes true fun _ => closed
  obtain ⟨ended', P', reads', closes'⟩ := otherBranch (.elseBranch start.place test yes :: S)
  refine ⟨ended', P', ?_, fun beforeElse hopen => ?_⟩
  · rw [List.append_cons]
    refine (reads_ifHead hstart hleft htest hright S).append (reads.append ?_)
    refine .cons ⟨.statement, .elseBranch start.place test yes :: S⟩
      (by rw [hother]; rfl) ?_ reads'
    simp [Reader.step?, Reader.next?, hother, waits, closeStatements]
  · rw [closes' beforeElse fun hb hno => hopen hb (.inElse hno), ← node]
    rfl

theorem ReadsStatement.whileStmt (hstart : start.kind = .keyword .whileWord)
    (hleft : left.kind = .symbol .leftParen) (htest : ReadsLevel 0 es test)
    (hright : right.kind = .symbol .rightParen) (hbs : Derives .statement bs [body])
    (branch : ReadsStatement bs body) :
    ReadsStatement (start :: left :: (es ++ right :: bs))
      (phraseNode .whileStmt (start :: left :: (es ++ right :: bs)) [test, body]) := by
  have node : whileNode start.place test body =
      phraseNode .whileStmt (start :: left :: (es ++ right :: bs)) [test, body] :=
    treeTo_eq (List.cons_ne_nil start []) ⟨_, rfl⟩ hbs rfl
      ⟨start :: left :: (es ++ [right]), by simp⟩
  intro S
  obtain ⟨ended, P, reads, closes⟩ := branch (.whileBody start.place test :: S)
  refine ⟨ended, P, ?_, fun beforeElse hopen => ?_⟩
  · refine .cons ⟨.opening .whileHead start.place, S⟩ (by rw [hstart]; rfl)
      (by simp [Reader.step?, Reader.statement?, hstart]) ?_
    refine .cons ⟨.operand, .whileTest start.place :: S⟩ (by rw [hleft]; rfl)
      (by simp [Reader.step?, hleft]) ?_
    rw [List.append_cons]
    exact (htest.ended rfl rfl (by simp [hright]) (by simp [Reader.endExpression?, hright])).append
      reads
  · rw [closes beforeElse fun hb hbody => hopen hb (.inWhile hbody), ← node]
    rfl

/-! ### Loops with a header -/

/-- After a first clause that ends with a semicolon the test begins. -/
theorem takesOperand_next (first : Place) (S : List Pending) (isVariable : Bool)
    (hn : n.place = extent ts) :
    TakesOperand ⟨.next n isVariable, .forInit first :: S⟩
      (.forTest first (phraseNode .forClause ts [n]) :: S) := by
  intro t ht
  constructor
  · rw [Expecting.admits, List.contains_iff_mem]
    have mem : t.kind ∈ Terminal.symbol .semicolon :: itemStart := by
      rcases List.mem_cons.1 ht with ht | ht
      · exact ht ▸ List.mem_cons_self
      · exact List.mem_cons_of_mem _ (List.mem_append_left _ (List.mem_append_left _ ht))
    cases isVariable with
    | true => exact List.mem_cons_of_mem _ mem
    | false => exact List.mem_cons_of_mem _ (List.mem_cons_of_mem _ mem)
  · show Reader.operand? t (.forTest first (.tree .forClause [n] n.place) :: S) = _
    rw [hn]
    rfl

theorem ReadsClause.variableDecl (hts : Derives .variableDecl ts [n]) (h : ReadsVariable ts n) :
    ReadsClause ts (phraseNode .forClause ts [n]) := by
  intro first S
  have takes := takesOperand_next first S true (hts.place rfl)
  obtain ⟨start, us, rfl, hstart, reads⟩ := h
  exact ⟨_, .cons ⟨.variableName start.place, .forInit first :: S⟩ (by rw [hstart]; rfl)
    (by simp [Reader.step?, Reader.clause?, hstart]) (reads (.forInit first :: S)), takes⟩

theorem clause?_of_expressionStart {t : Token} {first : Place} (ht : t.kind ∈ expressionStart) :
    Reader.clause? t (.forInit first :: S) =
      Reader.operand? t (.expression :: .forInit first :: S) := by
  simp only [Reader.clause?]
  split <;> simp_all [expressionStart]

theorem ReadsClause.expressionStmt (hts : Derives .expressionStmt ts [n])
    (h : ReadsExpressionStmt ts n) :
    ReadsClause ts (phraseNode .forClause ts [n]) := by
  intro first S
  have takes := takesOperand_next first S false (hts.place rfl)
  obtain ⟨t, us, rfl, ht⟩ := hts.starts rfl
  refine ⟨_, (h (.forInit first :: S)).start ?_ (clause?_of_expressionStart ht), takes⟩
  rw [Expecting.admits, List.contains_iff_mem]
  exact List.mem_cons_of_mem _ (List.mem_cons_of_mem _ ht)

theorem ReadsClause.empty {t : Token} (ht : t.kind = .symbol .semicolon) :
    ReadsClause [t] (phraseNode .forClause [t] []) := by
  intro first S
  refine ⟨⟨.operand, .forTest first (phraseNode .forClause [t] []) :: S⟩,
    .single (by rw [ht]; rfl) ?_, ?_⟩
  · simp [Reader.step?, Reader.clause?, ht, phraseNode]
  · intro u hu
    refine ⟨?_, rfl⟩
    rw [Expecting.admits, List.contains_iff_mem]
    rcases List.mem_cons.1 hu with hu | hu
    · exact hu ▸ List.mem_cons_self
    · exact List.mem_cons_of_mem _ (List.mem_cons_of_mem _ hu)

/-- The test of a loop, which may be absent, and the semicolon after it. -/
theorem reads_forTest {r : Reader} {first : Place} {init : Node}
    (takes : TakesOperand r (.forTest first init :: S)) (h : ReadsOptional es test)
    (hstop : stop.kind = .symbol .semicolon) :
    Reads r (es ++ [stop]) ⟨.operand, .forStep first init test :: S⟩ := by
  have reads : Reads ⟨.operand, .forTest first init :: S⟩ (es ++ [stop])
      ⟨.operand, .forStep first init test :: S⟩ :=
    h.ended rfl rfl (by simp [hstop]) rfl (by simp [Reader.endExpression?, hstop])
  rcases h with ⟨rfl, rfl⟩ | ⟨hes, -⟩
  · obtain ⟨admitted, step⟩ := takes stop (by simp [hstop])
    exact reads.start admitted step
  · obtain ⟨t, us, rfl, ht⟩ := hes.starts rfl
    obtain ⟨admitted, step⟩ := takes t (List.mem_cons_of_mem _ ht)
    exact reads.start admitted step

theorem ReadsStatement.forStmt {cs ss : List Token} {init step : Node}
    (hstart : start.kind = .keyword .forWord) (hleft : left.kind = .symbol .leftParen)
    (hinit : ReadsClause cs init) (htest : ReadsOptional es test)
    (hstop : stop.kind = .symbol .semicolon) (hstep : ReadsOptional ss step)
    (hright : right.kind = .symbol .rightParen) (hbs : Derives .statement bs [body])
    (branch : ReadsStatement bs body) :
    ReadsStatement (start :: left :: (cs ++ (es ++ stop :: (ss ++ right :: bs))))
      (phraseNode .forStmt (start :: left :: (cs ++ (es ++ stop :: (ss ++ right :: bs))))
        [init, test, step, body]) := by
  have node : forNode start.place init test step body = phraseNode .forStmt
      (start :: left :: (cs ++ (es ++ stop :: (ss ++ right :: bs)))) [init, test, step, body] :=
    treeTo_eq (List.cons_ne_nil start []) ⟨_, rfl⟩ hbs rfl
      ⟨start :: left :: (cs ++ (es ++ stop :: (ss ++ [right]))), by simp⟩
  intro S
  obtain ⟨r, reads, takes⟩ := hinit start.place S
  obtain ⟨ended, P, reads', closes⟩ := branch (.forBody start.place init test step :: S)
  refine ⟨ended, P, ?_, fun beforeElse hopen => ?_⟩
  · refine .cons ⟨.opening .forHead start.place, S⟩ (by rw [hstart]; rfl)
      (by simp [Reader.step?, Reader.statement?, hstart]) ?_
    refine .cons ⟨.clause, .forInit start.place :: S⟩ (by rw [hleft]; rfl)
      (by simp [Reader.step?, hleft]) ?_
    rw [List.append_cons es, List.append_cons ss]
    refine reads.append ((reads_forTest takes htest hstop).append (.append ?_ reads'))
    exact hstep.ended rfl rfl (by simp [hright]) rfl (by simp [Reader.endExpression?, hright])
  · rw [closes beforeElse fun hb hbody => hopen hb (.inFor hbody), ← node]
    rfl

end

/-! ## Declarations -/

/-- The words are read as the names of parameters. -/
def ReadsNames (ts : List Token) (ns : List Node) : Prop :=
  ∃ items : List Token, ns = items.reverse.map Token.node ∧ ∀ first name S,
    Reads ⟨.firstParameter first name, S⟩ ts ⟨.parameterRest first name items, S⟩

/-- The constructs that hold a list of declarations and statements. -/
def HoldsItems (list : List Node → Pending) : Prop :=
  list = .program ∨ ∃ first header, list = .block first header

/-- The reader goes on as one that waits for the next declaration or statement. -/
structure ActsAs (r : Reader) (S : List Pending) : Prop where
  word : ∀ t : Token, t.kind ∈ Expecting.item.terminals →
    r.expecting.admits t.kind = true ∧ r.step? t = Reader.item? t S
  finish : r.finish? = (Reader.mk .item S).finish?

/-- The words are read as a declaration or statement. -/
def ReadsItem (ts : List Token) (n : Node) : Prop :=
  ∀ list items S, HoldsItems list →
    ∃ r, Reads ⟨.item, list items :: S⟩ ts r ∧ ActsAs r (list (n :: items) :: S)

/-- The words are read as declarations and statements in a row. -/
def ReadsItems (ts : List Token) (ns : List Node) : Prop :=
  ∀ list items S r, HoldsItems list → ActsAs r (list items :: S) →
    ∃ r', Reads r ts r' ∧ ActsAs r' (list (ns.reverse ++ items) :: S)

section

variable {ts us vs bs ps : List Token} {n value body : Node} {S : List Pending}
  {start stop name left right : Token} {list : List Node → Pending} {items ns : List Node}

theorem actsAs_item : ActsAs ⟨.item, S⟩ S :=
  ⟨fun t ht => ⟨by simpa [Expecting.admits] using ht, rfl⟩, rfl⟩

/-- After the end of a declaration or statement the next one is awaited. -/
theorem actsAs_next {ended : Node} {P : List Pending} (isVariable : Bool) (hlist : HoldsItems list)
    (closed : closeStatements false ended P = (n, list items :: S)) :
    ActsAs ⟨.next ended isVariable, P⟩ (list (n :: items) :: S) := by
  constructor
  · intro t ht
    have other : (t.kind == .keyword .elseWord) = false := by
      refine beq_eq_false_iff_ne.2 fun helse => ?_
      rw [helse] at ht
      exact absurd ht (by decide)
    constructor
    · rw [Expecting.admits, List.contains_iff_mem]
      rcases List.mem_cons.1 ht with ht | ht
      · rw [ht]
        cases isVariable <;> simp [Expecting.terminals]
      · cases isVariable with
        | true => exact List.mem_cons_of_mem _ (List.mem_cons_of_mem _ ht)
        | false => exact List.mem_cons_of_mem _ (List.mem_cons_of_mem _ (List.mem_cons_of_mem _ ht))
    · simp only [Reader.step?, Reader.next?, other, closed]
      rcases hlist with rfl | ⟨first, header, rfl⟩ <;> rfl
  · simp only [Reader.finish?, closed]
    rcases hlist with rfl | ⟨first, header, rfl⟩
    · cases S <;> rfl
    · rfl

theorem closeStatements_holdsItems (hlist : HoldsItems list) (beforeElse : Bool) :
    closeStatements beforeElse n (list items :: S) = (n, list items :: S) := by
  rcases hlist with rfl | ⟨first, header, rfl⟩ <;> rfl

theorem ReadsNames.single {t : Token} (ht : t.kind = .identifier) : ReadsNames [t] [t.node] :=
  ⟨[t], rfl, fun _ _ _ => .single (by rw [ht]; rfl) (by simp [Reader.step?, ht])⟩

theorem ReadsNames.next {comma t : Token} (hcomma : comma.kind = .symbol .comma)
    (ht : t.kind = .identifier) (h : ReadsNames us ns) :
    ReadsNames (us ++ [comma, t]) (ns ++ [t.node]) := by
  obtain ⟨items, rfl, reads⟩ := h
  refine ⟨t :: items, by simp, fun first name S => (reads first name S).append ?_⟩
  refine .cons ⟨.nextParameter first name items, S⟩ (by rw [hcomma]; rfl)
    (by simp [Reader.step?, hcomma]) ?_
  exact .single (by rw [ht]; rfl) (by simp [Reader.step?, ht])

theorem ReadsVariable.intro (hstart : start.kind = .keyword .varWord)
    (hname : name.kind = .identifier) (h : vs = [] ∧ value = .absent ∨
      ∃ equal ws, vs = equal :: ws ∧ equal.kind = .symbol .equal ∧ ReadsLevel 0 ws value)
    (hstop : stop.kind = .symbol .semicolon) :
    ReadsVariable (start :: name :: (vs ++ [stop]))
      (phraseNode .variableDecl (start :: name :: (vs ++ [stop])) [name.node, value]) := by
  refine ⟨start, name :: (vs ++ [stop]), rfl, hstart, fun S => ?_⟩
  have node : Node.tree .variableDecl [name.node, value] (start.place.through stop.place) =
      phraseNode .variableDecl (start :: name :: (vs ++ [stop])) [name.node, value] :=
    tree_eq (List.cons_ne_nil start []) ⟨name :: (vs ++ [stop]), rfl⟩
      ⟨start :: name :: vs, rfl⟩
  refine .cons ⟨.variableRest start.place name, S⟩ (by rw [hname]; rfl)
    (by simp [Reader.step?, hname]) ?_
  rcases h with ⟨rfl, rfl⟩ | ⟨equal, ws, rfl, hequal, h⟩
  · exact .single (by rw [hstop]; rfl) (by simp [Reader.step?, hstop, node])
  · refine .cons ⟨.operand, .initializer start.place name :: S⟩ (by rw [hequal]; rfl)
      (by simp [Reader.step?, hequal]) ?_
    refine h.ended rfl rfl (by simp [hstop]) ?_
    rw [Reader.endExpression?, if_pos hstop, node]

theorem ReadsItem.variableDecl (h : ReadsVariable ts n) : ReadsItem ts n := by
  obtain ⟨start, us, rfl, hstart, reads⟩ := h
  intro list items S hlist
  refine ⟨_,
    .cons ⟨.variableName start.place, list items :: S⟩ (by rw [hstart]; rfl) ?_ (reads _),
      actsAs_next true hlist (closeStatements_holdsItems hlist false)⟩
  simp [Reader.step?, Reader.item?, hstart]

theorem item?_of_statementStart {t : Token} (ht : t.kind ∈ statementStart) :
    Reader.item? t S = Reader.statement? t S := by
  unfold Reader.item?
  split <;> simp_all [statementStart, expressionStart]

theorem ReadsItem.statement (hts : Derives .statement ts [n]) (h : ReadsStatement ts n) :
    ReadsItem ts n := by
  intro list items S hlist
  obtain ⟨ended, P, reads, closes⟩ := h (list items :: S)
  have closed := (closes false nofun).trans (closeStatements_holdsItems hlist false)
  obtain ⟨t, us, rfl, ht⟩ := hts.starts rfl
  refine ⟨_, reads.start ?_ (item?_of_statementStart ht), actsAs_next false hlist closed⟩
  rw [Expecting.admits, List.contains_iff_mem]
  exact List.mem_cons_of_mem _ (List.mem_append_left _ ht)

theorem ReadsItem.functionDecl {params : Node} (hstart : start.kind = .keyword .funWord)
    (hname : name.kind = .identifier) (hleft : left.kind = .symbol .leftParen)
    (parameters : ps = [] ∧ params = .absent ∨
      ∃ ns, Derives .names ps ns ∧ params = phraseNode .parameters ps ns ∧ ReadsNames ps ns)
    (hright : right.kind = .symbol .rightParen) (hbs : Derives .block bs [body])
    (block : ReadsBlock bs body) :
    ReadsItem (start :: name :: left :: (ps ++ right :: bs))
      (phraseNode .functionDecl (start :: name :: left :: (ps ++ right :: bs))
        [name.node, params, body]) := by
  have node : treeTo .functionDecl start.place [name.node, params, body] body =
      phraseNode .functionDecl (start :: name :: left :: (ps ++ right :: bs))
        [name.node, params, body] :=
    treeTo_eq (List.cons_ne_nil start []) ⟨_, rfl⟩ hbs rfl
      ⟨start :: name :: left :: (ps ++ [right]), by simp⟩
  obtain ⟨brace, us, inside, stop, rfl, hbrace, rfl, readsBlock⟩ := block
  intro list items S hlist
  -- up to the body
  have header : Reads ⟨.firstParameter start.place name, list items :: S⟩ (ps ++ [right])
      ⟨.body ⟨start.place, name, params⟩, list items :: S⟩ := by
    rcases parameters with ⟨rfl, rfl⟩ | ⟨ns, hns, rfl, names, rfl, readsNames⟩
    · exact .single (by rw [hright]; rfl) (by simp [Reader.step?, hright])
    · refine (readsNames start.place name _).append (.single (by rw [hright]; rfl) ?_)
      rw [← hns.listNode_eq (by simp)]
      simp [Reader.step?, hright]
  refine ⟨_, ?_, actsAs_next false hlist (closeStatements_holdsItems hlist false)⟩
  rw [← node, List.append_cons]
  refine .cons ⟨.functionName start.place, list items :: S⟩ (by rw [hstart]; rfl)
    (by simp [Reader.step?, Reader.item?, hstart]) ?_
  refine .cons ⟨.parametersOpening start.place name, list items :: S⟩ (by rw [hname]; rfl)
    (by simp [Reader.step?, hname]) ?_
  refine .cons ⟨.firstParameter start.place name, list items :: S⟩ (by rw [hleft]; rfl)
    (by simp [Reader.step?, hleft]) (header.append ?_)
  exact .cons ⟨.item,
    .block brace.place (some ⟨start.place, name, params⟩) [] :: list items :: S⟩
      (by rw [hbrace]; rfl) (by simp [Reader.step?, hbrace]) (readsBlock _ _)

theorem ReadsItems.none : ReadsItems [] [] := fun _ _ _ r _ acts => ⟨r, .done, acts⟩

theorem ReadsItems.snoc (hvs : Derives .declaration vs [n]) (first : ReadsItems us ns)
    (second : ReadsItem vs n) :
    ReadsItems (us ++ vs) (ns ++ [n]) := by
  intro list items S r hlist acts
  obtain ⟨r', reads, acts'⟩ := first list items S r hlist acts
  obtain ⟨r'', reads', acts''⟩ := second list (ns.reverse ++ items) S hlist
  obtain ⟨t, ws, rfl, ht⟩ := hvs.starts rfl
  obtain ⟨admitted, step⟩ := acts'.word t (List.mem_cons_of_mem _ ht)
  refine ⟨r'', reads.append (reads'.start admitted step), ?_⟩
  rw [List.reverse_append, List.reverse_singleton, List.singleton_append, List.cons_append]
  exact acts''

theorem ReadsBlock.intro (hstart : start.kind = .symbol .leftBrace) (h : ReadsItems us ns)
    (hstop : stop.kind = .symbol .rightBrace) :
    ReadsBlock (start :: (us ++ [stop])) (phraseNode .block (start :: (us ++ [stop])) ns) := by
  refine ⟨start, us ++ [stop], ns.reverse, stop, rfl, hstart, ?_, fun header S => ?_⟩
  · rw [blockNode_eq, List.reverse_reverse]
  · obtain ⟨r, reads, acts⟩ :=
      h (.block start.place header) [] S _ (.inr ⟨_, _, rfl⟩) actsAs_item
    obtain ⟨admitted, step⟩ := acts.word stop (by rw [hstop]; decide)
    refine reads.append (.single admitted (step.trans ?_))
    simp [Reader.item?, hstop]

end

/-! ## All phrases -/

/-- What reading the words of a phrase leads to. -/
def Readable (p : Phrase) (ts : List Token) (ns : List Node) : Prop :=
  match p, ns with
  | .program, [n] => ∃ r, Reads .init ts r ∧ r.finish? = some n
  | .items, ns => ReadsItems ts ns
  | .declaration, [n] => ReadsItem ts n
  | .variableDecl, [n] => ReadsVariable ts n
  | .initializer, [n] =>
    ∃ equal us, ts = equal :: us ∧ equal.kind = .symbol .equal ∧ ReadsLevel 0 us n
  | .parameters, [n] =>
    ∃ ns, Derives .names ts ns ∧ n = phraseNode .parameters ts ns ∧ ReadsNames ts ns
  | .names, ns => ReadsNames ts ns
  | .statement, [n] => ReadsStatement ts n
  | .expressionStmt, [n] => ReadsExpressionStmt ts n
  | .elsePart, [n] => ∃ start us, ts = start :: us ∧ start.kind = .keyword .elseWord ∧
      Derives .statement us [n] ∧ ReadsStatement us n
  | .clause, [n] => ReadsClause ts n
  | .block, [n] => ReadsBlock ts n
  | .level i, [n] => ReadsLevel i ts n
  | .arguments, [n] =>
    ∃ ns, Derives .expressions ts ns ∧ n = phraseNode .arguments ts ns ∧ ReadsArguments ts ns
  | .expressions, ns => ReadsArguments ts ns
  | .optional p, [n] => ts = [] ∧ n = .absent ∨ Derives p ts [n] ∧ Readable p ts [n]
  | _, _ => True

/-- **What the grammar derives is read.** -/
theorem Derives.readable {p : Phrase} {ts : List Token} {ns : List Node} (h : Derives p ts ns) :
    Readable p ts ns := by
  induction h with
  | program items ih =>
    obtain ⟨r, reads, acts⟩ := ih .program [] [] .init (.inl rfl) actsAs_item
    refine ⟨r, reads, ?_⟩
    rw [acts.finish, List.append_nil, ← items.listNode_eq (by simp)]
    simp [Reader.finish?]
  | noItems => exact ReadsItems.none
  | oneMore _ item words ihs ih => exact words ▸ ReadsItems.snoc item ihs ih
  | functionDecl hstart hname hleft _ hright block words ihp ihb =>
    subst words
    exact ReadsItem.functionDecl hstart hname hleft (ihp.imp_right And.right) hright block ihb
  | ofVariableDecl _ ih => exact ReadsItem.variableDecl ih
  | ofStatement h ih => exact ReadsItem.statement h ih
  | parameters names ih => exact ⟨_, names, rfl, ih⟩
  | name ht => exact ReadsNames.single ht
  | nextName _ hcomma ht words ih => exact words ▸ ReadsNames.next hcomma ht ih
  | variableDecl hstart hname _ hstop words ih =>
    subst words
    exact ReadsVariable.intro hstart hname (ih.imp_right And.right) hstop
  | initializer hequal _ words ih => exact ⟨_, _, words, hequal, ih⟩
  | ofExpressionStmt h ih => exact ReadsStatement.expressionStmt h ih
  | expressionStmt expr hstop words ih =>
    subst words
    exact ReadsExpressionStmt.intro expr ih hstop
  | printStmt hstart _ hstop words ih =>
    subst words
    exact ReadsStatement.printStmt hstart ih hstop
  | returnStmt hstart _ hstop words ih =>
    subst words
    exact ReadsStatement.returnStmt hstart ih hstop
  | ifStmt hstart hleft _ hright branch _ nearest words iht ihy ihn =>
    subst words
    rcases ihn with ⟨rfl, rfl⟩ | ⟨-, other, os, rfl, hother, otherBranch, ihn⟩
    · rw [List.append_nil]
      exact ReadsStatement.ifStmt hstart hleft iht hright branch ihy
    · exact ReadsStatement.ifElseStmt hstart hleft iht hright ihy
        (nearest (by simp)) hother otherBranch ihn
  | elsePart hstart branch words ih => exact ⟨_, _, words, hstart, branch, ih⟩
  | whileStmt hstart hleft _ hright branch words iht ihb =>
    subst words
    exact ReadsStatement.whileStmt hstart hleft iht hright branch ihb
  | forStmt hstart hleft _ _ hstop _ hright branch words ihi iht ihs ihb =>
    subst words
    exact ReadsStatement.forStmt hstart hleft ihi iht hstop ihs hright branch ihb
  | variableClause h ih => exact ReadsClause.variableDecl h ih
  | expressionClause h ih => exact ReadsClause.expressionStmt h ih
  | emptyClause ht => exact ReadsClause.empty ht
  | ofBlock _ ih => exact ReadsStatement.block ih
  | block hstart _ hstop words ih =>
    subst words
    exact ReadsBlock.intro hstart ih hstop
  | assign hname hequal expr words ih =>
    subst words
    exact ReadsLevel.assign hname hequal expr ih
  | binary first hop second words ihl ihr =>
    subst words
    exact ReadsLevel.binary first hop second ihl ihr
  | nextLevel _ ih => exact ReadsLevel.nextLevel ih
  | unary hop expr words ih =>
    subst words
    exact ReadsLevel.unary hop expr ih
  | call first hleft _ hright words ihc iha =>
    subst words
    exact ReadsLevel.call first hleft hright ihc (iha.imp_right And.right)
  | arguments items ih => exact ⟨_, items, rfl, ih⟩
  | argument _ ih => exact ReadsArguments.single ih
  | nextArgument _ hcomma _ words ihs ih => exact words ▸ ReadsArguments.next hcomma ihs ih
  | constant ht =>
    simp only [List.mem_cons, List.not_mem_nil, or_false] at ht
    rcases ht with ht | ht <;>
      exact ReadsLevel.operand (by rw [ht]; decide) fun S =>
        ⟨none, by simp [Reader.operand?, ht]⟩
  | trueLit ht | falseLit ht | nilLit ht =>
    exact ReadsLevel.operand (by rw [ht]; decide) fun S =>
      ⟨none, by simp [Reader.operand?, ht, phraseNode]⟩
  | reference ht =>
    exact ReadsLevel.operand (by rw [ht]; decide) fun S =>
      ⟨_, by simp [Reader.operand?, ht, phraseNode]; rfl⟩
  | grouping hleft _ hright words ih =>
    subst words
    exact ReadsLevel.grouping hleft hright ih
  | missing => exact .inl ⟨rfl, rfl⟩
  | present h ih => exact .inr ⟨h, ih⟩

/-- **The words of a program are read**, and its tree is what they give. -/
theorem Derives.program_read {ts : List Token} {tree : Node} (h : Derives .program ts [tree]) :
    ∃ r, Reads .init ts r ∧ r.finish? = some tree := h.readable

/-- **Words have one tree as a program**, since they are read in one way. -/
theorem Derives.program_unique {ts : List Token} {tree other : Node}
    (h : Derives .program ts [tree]) (h' : Derives .program ts [other]) : other = tree := by
  obtain ⟨r, reads, hfinish⟩ := h.program_read
  obtain ⟨r', reads', hfinish'⟩ := h'.program_read
  rw [reads.unique reads', hfinish'] at hfinish
  cases hfinish
  rfl

end Source

end LoxLang
