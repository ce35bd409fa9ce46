import LoxLang.Proofs.Grammar
import LoxLang.Proofs.Layout
import LoxLang.Proofs.Reading
import Mathlib

/-!
# The tree that is read is derived by the grammar

The pending constructs of a reader have taken words of their own, one after another, and each of
them waits for a phrase of the grammar. What has been read since then is derived by that phrase or
by one that can stand in its place. Every word keeps this, so at the end of a text the words that
were taken are derived as a program, and nothing else was read than blanks and comments.

* `Begun`: what one pending construct has taken and what it waits for.
* `Awaits`: the words that all pending constructs have taken, the outermost first.
* `Reader.Took`: the words that a reader has taken.

Results: `closeOperators_awaits`, `closeStatements_awaits` — closing what has ended applies
productions of the grammar; `Reader.step?_took` — every word is added to those taken;
`readFrom_derives` — the tree of a text is derived from the words that the text consists of, by
induction on the words.
-/

set_option autoImplicit false

namespace LoxLang

namespace Source

/-! ## Nodes of finished constructs -/

/-- A node that is made when its last word is read. -/
theorem tree_eq {label : Label} {parts : List Node} {us ts : List Token} {last : Token}
    (hu : us ≠ []) (begins : us <+: ts) (ends : [last] <:+ ts) :
    Node.tree label parts ((extent us).through last.place) = phraseNode label ts parts := by
  rw [← extent_singleton, extent_through hu (by simp) begins ends, phraseNode]

/-- A node that ends with its last part. -/
theorem treeTo_eq {label : Label} {parts : List Node} {p : Phrase} {us vs ts : List Token}
    {last : Node} (hu : us ≠ []) (begins : us <+: ts) (hlast : Derives p vs [last])
    (hp : p.isUnit = true) (ends : vs <:+ ts) :
    treeTo label (extent us) parts last = phraseNode label ts parts := by
  rw [treeTo, hlast.place hp, extent_through hu (hlast.ne_nil hp) begins ends, phraseNode]

/-- The operators of a level are those that bind as strongly as it says. -/
theorem operators_of_level {op : Terminal} {level : Nat} (h : op.level? = some level) :
    op ∈ operators level ∧ level ≤ 6 ∧
      (if op.isLogical then Label.logical else .binary) = operatorLabel level := by
  unfold Terminal.level? at h
  split at h <;> cases h <;> decide

/-! ## What one construct has taken -/

/-- Every node of one phrase can stand where another one is awaited. -/
def Phrase.Admits (o p : Phrase) : Prop := ∀ ts n, Derives p ts [n] → Derives o ts [n]

theorem Phrase.admits_refl (p : Phrase) : p.Admits p := fun _ _ h => h

theorem Phrase.Admits.expressionStmt {o : Phrase} (h : o.Admits .statement) :
    o.Admits .expressionStmt :=
  fun ts n hn => h ts n (.ofExpressionStmt hn)

theorem Phrase.Admits.block {o : Phrase} (h : o.Admits .statement) : o.Admits .block :=
  fun ts n hn => h ts n (.ofBlock hn)

/-- The reserved word that a construct begins with. -/
def Started (word : Keyword) (first : Place) (ts : List Token) : Prop :=
  ∃ start, start.kind = .keyword word ∧ first = extent [start] ∧ ts = [start]

/-- The same and a name. -/
def Named (word : Keyword) (first : Place) (name : Token) (ts : List Token) : Prop :=
  ∃ start, start.kind = .keyword word ∧ name.kind = .identifier ∧ first = extent [start] ∧
    ts = [start, name]

/-- The same and a parenthesis. -/
def Opened (word : Keyword) (first : Place) (ts : List Token) : Prop :=
  ∃ start left, start.kind = .keyword word ∧ left.kind = .symbol .leftParen ∧
    first = extent [start] ∧ ts = [start, left]

/-- An `if` or `while` up to its statement. -/
def Tested (word : Keyword) (first : Place) (test : Node) (ts : List Token) : Prop :=
  ∃ us es right, Opened word first us ∧ Derives .expression es [test] ∧
    right.kind = .symbol .rightParen ∧ ts = us ++ (es ++ [right])

/-- A `for` up to its test. -/
def Looped (first : Place) (init : Node) (ts : List Token) : Prop :=
  ∃ us cs, Opened .forWord first us ∧ Derives .clause cs [init] ∧ ts = us ++ cs

/-- A `for` up to its last clause. -/
def LoopTested (first : Place) (init test : Node) (ts : List Token) : Prop :=
  ∃ us es stop, Looped first init us ∧ Derives (.optional .expression) es [test] ∧
    stop.kind = .symbol .semicolon ∧ ts = us ++ (es ++ [stop])

/-- A `for` up to its statement. -/
def LoopStepped (first : Place) (init test step : Node) (ts : List Token) : Prop :=
  ∃ us ss right, LoopTested first init test us ∧ Derives (.optional .expression) ss [step] ∧
    right.kind = .symbol .rightParen ∧ ts = us ++ (ss ++ [right])

/-- A function up to its parameters. -/
def HeaderOpened (first : Place) (name : Token) (ts : List Token) : Prop :=
  ∃ us left, Named .funWord first name us ∧ left.kind = .symbol .leftParen ∧ ts = us ++ [left]

/-- A function up to the end of one of its parameters. -/
def HeaderNamed (first : Place) (name : Token) (items : List Token) (ts : List Token) : Prop :=
  ∃ us ps, HeaderOpened first name us ∧ Derives .names ps (items.reverse.map Token.node) ∧
    ts = us ++ ps

/-- A function up to its body. -/
def HeaderRead (header : Header) (ts : List Token) : Prop :=
  ∃ us ps right, HeaderOpened header.first header.name us ∧
    Derives (.optional .parameters) ps [header.parameters] ∧ right.kind = .symbol .rightParen ∧
    ts = us ++ (ps ++ [right])

/-- The arguments of a call that have been read, in reverse, with a comma after each. -/
def Argued : List Node → List Token → Prop
  | [], ts => ts = []
  | items, ts =>
    ∃ es comma, Derives .expressions es items.reverse ∧ comma.kind = .symbol .comma ∧
      ts = es ++ [comma]

/-- What a pending construct has taken. It stands where the phrase `o` is awaited, and waits for the
phrase `p`. -/
inductive Begun : Pending → Phrase → Phrase → List Token → Prop
  | block {o : Phrase} {items : List Node} {start : Token} {us : List Token}
    (fits : o.Admits .statement) (hstart : start.kind = .symbol .leftBrace)
    (read : Derives .items us items.reverse) :
    Begun (.block start.place none items) o .declaration (start :: us)
  | body {header : Header} {items : List Node} {start : Token} {us vs : List Token}
    (hheader : HeaderRead header us) (hstart : start.kind = .symbol .leftBrace)
    (read : Derives .items vs items.reverse) :
    Begun (.block start.place (some header) items) .declaration .declaration (us ++ start :: vs)
  | thenBranch {o : Phrase} {first : Place} {test : Node} {us : List Token}
    (fits : o.Admits .statement) (tested : Tested .ifWord first test us) :
    Begun (.thenBranch first test) o .statement us
  | elseBranch {o : Phrase} {first : Place} {test yes : Node} {us ys : List Token} {other : Token}
    (fits : o.Admits .statement) (tested : Tested .ifWord first test us)
    (hyes : Derives .statement ys [yes]) (closed : ¬ yes.EndsOpen)
    (hother : other.kind = .keyword .elseWord) :
    Begun (.elseBranch first test yes) o .statement (us ++ (ys ++ [other]))
  | whileBody {o : Phrase} {first : Place} {test : Node} {us : List Token}
    (fits : o.Admits .statement) (tested : Tested .whileWord first test us) :
    Begun (.whileBody first test) o .statement us
  | forBody {o : Phrase} {first : Place} {init test step : Node} {us : List Token}
    (fits : o.Admits .statement) (stepped : LoopStepped first init test step us) :
    Begun (.forBody first init test step) o .statement us
  | forInit {o p : Phrase} {first : Place} {us : List Token} (fits : o.Admits .statement)
    (opened : Opened .forWord first us) (hp : p = .variableDecl ∨ p = .expressionStmt) :
    Begun (.forInit first) o p us
  | expression {o : Phrase} (fits : o.Admits .expressionStmt) : Begun .expression o .expression []
  | print {o : Phrase} {first : Place} {us : List Token} (fits : o.Admits .statement)
    (started : Started .printWord first us) : Begun (.print first) o .expression us
  | result {o : Phrase} {first : Place} {us : List Token} (fits : o.Admits .statement)
    (started : Started .returnWord first us) : Begun (.result first) o .expression us
  | initializer {o : Phrase} {first : Place} {name equal : Token} {us : List Token}
    (fits : o.Admits .variableDecl) (named : Named .varWord first name us)
    (hequal : equal.kind = .symbol .equal) :
    Begun (.initializer first name) o .expression (us ++ [equal])
  | ifTest {o : Phrase} {first : Place} {us : List Token} (fits : o.Admits .statement)
    (opened : Opened .ifWord first us) : Begun (.ifTest first) o .expression us
  | whileTest {o : Phrase} {first : Place} {us : List Token} (fits : o.Admits .statement)
    (opened : Opened .whileWord first us) : Begun (.whileTest first) o .expression us
  | forTest {o : Phrase} {first : Place} {init : Node} {us : List Token}
    (fits : o.Admits .statement) (looped : Looped first init us) :
    Begun (.forTest first init) o .expression us
  | forStep {o : Phrase} {first : Place} {init test : Node} {us : List Token}
    (fits : o.Admits .statement) (tested : LoopTested first init test us) :
    Begun (.forStep first init test) o .expression us
  | assign {name equal : Token} (hname : name.kind = .identifier)
    (hequal : equal.kind = .symbol .equal) :
    Begun (.assign name) (.level 0) (.level 0) [name, equal]
  -- the right operand is one level up, so operators of one level group to the left
  | binary {i level : Nat} {left : Node} {op : Token} {us : List Token}
    (hlevel : op.kind.level? = some level) (low : i ≤ level)
    (hleft : Derives (.level level) us [left]) :
    Begun (.binary left op) (.level i) (.level (level + 1)) (us ++ [op])
  | unary {i : Nat} {op : Token} (low : i ≤ 7)
    (hop : op.kind ∈ [Terminal.symbol .bang, .symbol .minus]) :
    Begun (.unary op) (.level i) (.level 7) [op]
  | group {i : Nat} {left : Token} (low : i ≤ 7) (hleft : left.kind = .symbol .leftParen) :
    Begun (.group left.place) (.level i) .expression [left]
  | arguments {i : Nat} {callee : Node} {items : List Node} {left : Token} {us vs : List Token}
    (low : i ≤ 7) (hcallee : Derives (.level 8) us [callee])
    (hleft : left.kind = .symbol .leftParen)
    (argued : Argued items vs) :
    Begun (.arguments callee items) (.level i) .expression (us ++ left :: vs)

/-- The words that the pending constructs have taken, if the innermost of them waits for a
phrase. -/
inductive Awaits : Phrase → List Pending → List Token → Prop
  | program {items : List Node} {ts : List Token} (read : Derives .items ts items.reverse) :
    Awaits .declaration [.program items] ts
  | inside {top : Pending} {rest : List Pending} {o p : Phrase} {us vs : List Token}
    (outer : Awaits o rest us) (begun : Begun top o p vs) : Awaits p (top :: rest) (us ++ vs)

/-- The words taken by the pending constructs and after them. -/
def After (o : Phrase) (pending : List Pending) (since : List Token → Prop) (ts : List Token) :
    Prop :=
  ∃ us vs, Awaits o pending us ∧ since vs ∧ ts = us ++ vs

/-- The word that such a construct begins with. -/
def Headed.word : Headed → Keyword
  | .ifHead => .ifWord
  | .whileHead => .whileWord
  | .forHead => .forWord

/-- The words that a reader has taken. -/
def Reader.Took (r : Reader) (ts : List Token) : Prop :=
  match r.expecting with
  | .item => Awaits .declaration r.pending ts
  | .next ended _ => ¬ ended.EndsOpen ∧ ∃ o, After o r.pending (Derives o · [ended]) ts
  | .statement => Awaits .statement r.pending ts
  | .clause => ∀ p, p = .variableDecl ∨ p = .expressionStmt → Awaits p r.pending ts
  | .operand => ∃ i, Awaits (.level i) r.pending ts
  | .operator left target =>
    ∃ i, After (.level i) r.pending (fun vs => Derives (.level 8) vs [left] ∧
      ∀ name ∈ target, i = 0 ∧ name.kind = .identifier ∧ vs = [name]) ts
  | .opening head first => ∃ o : Phrase, o.Admits .statement ∧
      After o r.pending (Started head.word first) ts
  | .variableName first => ∃ o : Phrase, o.Admits .variableDecl ∧
      After o r.pending (Started .varWord first) ts
  | .variableRest first name => ∃ o : Phrase, o.Admits .variableDecl ∧
      After o r.pending (Named .varWord first name) ts
  | .functionName first => After .declaration r.pending (Started .funWord first) ts
  | .parametersOpening first name => After .declaration r.pending (Named .funWord first name) ts
  | .firstParameter first name => After .declaration r.pending (HeaderOpened first name) ts
  | .nextParameter first name items => After .declaration r.pending (fun vs => ∃ us comma,
      HeaderNamed first name items us ∧ comma.kind = .symbol .comma ∧ vs = us ++ [comma]) ts
  | .parameterRest first name items =>
    After .declaration r.pending (HeaderNamed first name items) ts
  | .body header => After .declaration r.pending (HeaderRead header) ts

/-! ## Closing what has ended -/

theorem unaryNode_eq {op : Token} {operand : Node} {vs : List Token}
    (hoperand : Derives (.level 7) vs [operand]) :
    unaryNode op operand = phraseNode .unary (op :: vs) [op.node, operand] :=
  treeTo_eq (List.cons_ne_nil op []) ⟨vs, rfl⟩ hoperand rfl (List.suffix_cons op vs)

theorem unaryNode_derives {op : Token} {operand : Node} {vs : List Token}
    (hop : op.kind ∈ [Terminal.symbol .bang, .symbol .minus])
    (hoperand : Derives (.level 7) vs [operand]) :
    Derives (.level 7) (op :: vs) [unaryNode op operand] := by
  rw [unaryNode_eq hoperand]
  exact .unary hop hoperand rfl

theorem binaryNode_eq {left right : Node} {op : Token} {level : Nat} {us vs : List Token}
    (hlevel : op.kind.level? = some level) (hleft : Derives (.level level) us [left])
    (hright : Derives (.level (level + 1)) vs [right]) :
    binaryNode left op right =
      phraseNode (operatorLabel level) (us ++ op :: vs) [left, op.node, right] := by
  rw [binaryNode, (operators_of_level hlevel).2.2, hleft.place rfl]
  refine treeTo_eq (hleft.ne_nil rfl) ⟨op :: vs, rfl⟩ hright rfl ⟨us ++ [op], ?_⟩
  rw [List.append_assoc, List.singleton_append]

theorem binaryNode_derives {left right : Node} {op : Token} {level : Nat} {us vs : List Token}
    (hlevel : op.kind.level? = some level) (hleft : Derives (.level level) us [left])
    (hright : Derives (.level (level + 1)) vs [right]) :
    Derives (.level level) (us ++ op :: vs) [binaryNode left op right] := by
  rw [binaryNode_eq hlevel hleft hright]
  exact .binary hleft (operators_of_level hlevel).1 hright rfl

theorem assignNode_eq {name equal : Token} {value : Node} {vs : List Token}
    (hvalue : Derives (.level 0) vs [value]) :
    assignNode name value = phraseNode .assign (name :: equal :: vs) [name.node, value] :=
  treeTo_eq (List.cons_ne_nil name []) ⟨equal :: vs, rfl⟩ hvalue rfl ⟨[name, equal], rfl⟩

theorem assignNode_derives {name equal : Token} {value : Node} {vs : List Token}
    (hname : name.kind = .identifier) (hequal : equal.kind = .symbol .equal)
    (hvalue : Derives (.level 0) vs [value]) :
    Derives (.level 0) (name :: equal :: vs) [assignNode name value] := by
  rw [assignNode_eq hvalue]
  exact .assign hname hequal hvalue rfl

/-- Every expression that is awaited may be an operator with its operands. -/
theorem Awaits.level_le {i : Nat} {pending : List Pending} {ts : List Token}
    (h : Awaits (.level i) pending ts) : i ≤ 7 := by
  cases h with
  | inside outer begun =>
    cases begun with
    | binary hlevel =>
      have := (operators_of_level hlevel).2.1
      omega
    | forInit _ _ hp => rcases hp with hp | hp <;> cases hp
    | _ => omega

/-- **Closing operators applies the productions of their levels.** What remains open awaits an
expression of the given level at most. -/
theorem closeOperators_awaits {level i k : Nat} {left : Node} {pending : List Pending}
    {us vs : List Token} (awaits : Awaits (.level i) pending us)
    (hleft : Derives (.level k) vs [left]) (hi : i ≤ k) (hlevel : level ≤ k)
    (small : level ≤ 6) :
    ∃ j ≤ level, After (.level j) (closeOperators level left pending).2
      (Derives (.level level) · [(closeOperators level left pending).1]) (us ++ vs) := by
  induction pending generalizing i k left us vs with
  | nil => cases awaits
  | cons top rest ih =>
    have stays := awaits
    cases awaits with
    | inside outer begun =>
      cases begun with
      | unary low hop =>
        have closed := unaryNode_derives hop (hleft.level_le hi)
        rw [List.append_assoc]
        exact ih outer closed low (by omega)
      | binary hop low hl =>
        unfold closeOperators
        rw [hop, Option.getD_some]
        split
        · rename_i strong
          have closed := binaryNode_derives hop hl (hleft.level_le hi)
          rw [List.append_assoc, List.append_assoc, List.singleton_append]
          exact ih outer closed low strong
        · rename_i weak
          exact ⟨_, by omega, _, vs, stays, hleft.level_le hlevel, rfl⟩
      | assign hname hequal =>
        unfold closeOperators
        split
        · rename_i zero
          have closed := assignNode_derives hname hequal (hleft.level_le hi)
          rw [List.append_assoc]
          exact ih outer closed (Nat.le_refl 0) (by omega)
        · exact ⟨_, Nat.zero_le _, _, vs, stays, hleft.level_le hlevel, rfl⟩
      | forInit _ _ hp => rcases hp with hp | hp <;> cases hp
      | _ => exact ⟨_, Nat.zero_le _, _, vs, stays, hleft.level_le hlevel, rfl⟩

section

variable {first : Place} {init test step yes no body : Node} {us ys vs : List Token}

theorem ifNode_derives (tested : Tested .ifWord first test us)
    (hyes : Derives .statement ys [yes]) :
    Derives .statement (us ++ ys) [ifNode first test yes .absent] := by
  obtain ⟨-, es, right, ⟨start, left, hstart, hleft, rfl, rfl⟩, htest, hright, rfl⟩ :=
    tested
  have node : ifNode (extent [start]) test yes .absent =
      phraseNode .ifStmt ([start, left] ++ (es ++ [right]) ++ ys) [test, yes, .absent] :=
    treeTo_eq (by simp) ⟨left :: (es ++ [right]) ++ ys, rfl⟩ hyes rfl (List.suffix_append _ _)
  rw [node]
  exact .ifStmt hstart hleft htest hright hyes .missing (by simp) (by simp)

theorem ifElseNode_derives {other : Token} (tested : Tested .ifWord first test us)
    (hyes : Derives .statement ys [yes]) (closed : ¬ yes.EndsOpen)
    (hother : other.kind = .keyword .elseWord) (hno : Derives .statement vs [no]) :
    Derives .statement (us ++ (ys ++ [other]) ++ vs) [ifNode first test yes no] := by
  obtain ⟨-, es, right, ⟨start, left, hstart, hleft, rfl, rfl⟩, htest, hright, rfl⟩ :=
    tested
  have node : ifNode (extent [start]) test yes no =
      phraseNode .ifStmt ([start, left] ++ (es ++ [right]) ++ (ys ++ [other]) ++ vs)
        [test, yes, no] := by
    rw [ifNode, hno.present_eq rfl]
    exact treeTo_eq (by simp) ⟨left :: (es ++ [right]) ++ (ys ++ [other]) ++ vs, rfl⟩ hno rfl
      (List.suffix_append _ _)
  rw [node]
  exact .ifStmt hstart hleft htest hright hyes (.present (.elsePart hother hno rfl))
    (fun _ => closed) (by simp)

theorem whileNode_derives (tested : Tested .whileWord first test us)
    (hbody : Derives .statement vs [body]) :
    Derives .statement (us ++ vs) [whileNode first test body] := by
  obtain ⟨-, es, right, ⟨start, left, hstart, hleft, rfl, rfl⟩, htest, hright, rfl⟩ :=
    tested
  have node : whileNode (extent [start]) test body =
      phraseNode .whileStmt ([start, left] ++ (es ++ [right]) ++ vs) [test, body] :=
    treeTo_eq (by simp) ⟨left :: (es ++ [right]) ++ vs, rfl⟩ hbody rfl (List.suffix_append _ _)
  rw [node]
  exact .whileStmt hstart hleft htest hright hbody (by simp)

theorem forNode_derives (stepped : LoopStepped first init test step us)
    (hbody : Derives .statement vs [body]) :
    Derives .statement (us ++ vs) [forNode first init test step body] := by
  obtain ⟨-, ss, right,
    ⟨-, es, stop, ⟨-, cs, ⟨start, left, hstart, hleft, rfl, rfl⟩, hinit, rfl⟩, htest,
      hstop, rfl⟩, hstep, hright, rfl⟩ := stepped
  have node : forNode (extent [start]) init test step body =
      phraseNode .forStmt ([start, left] ++ cs ++ (es ++ [stop]) ++ (ss ++ [right]) ++ vs)
        [init, test, step, body] :=
    treeTo_eq (by simp) ⟨left :: cs ++ (es ++ [stop]) ++ (ss ++ [right]) ++ vs, rfl⟩ hbody rfl
      (List.suffix_append _ _)
  rw [node]
  exact .forStmt hstart hleft hinit htest hstop hstep hright hbody (by simp)

end

/-- Before an `else` what is closed cannot take it. -/
theorem ifNode_endsOpen {first : Place} {test yes no : Node} (hno : no.present? = some no)
    (h : (ifNode first test yes no).EndsOpen) : no.EndsOpen := by
  cases h with
  | withoutElse => cases hno
  | inElse h => exact h

/-- **Closing statements applies their productions.** Before an `else` no `if` without one is
closed. -/
theorem closeStatements_awaits (beforeElse : Bool) {o : Phrase} {ended : Node}
    {pending : List Pending} {us vs : List Token} (awaits : Awaits o pending us)
    (hended : Derives o vs [ended]) (closed : beforeElse = true → ¬ ended.EndsOpen) :
    (beforeElse = true → ¬ (closeStatements beforeElse ended pending).1.EndsOpen) ∧
      ∃ q, After q (closeStatements beforeElse ended pending).2
        (Derives q · [(closeStatements beforeElse ended pending).1]) (us ++ vs) := by
  induction pending generalizing o ended us vs with
  | nil => cases awaits
  | cons top rest ih =>
    have stays := awaits
    cases awaits with
    | program => exact ⟨closed, _, _, vs, stays, hended, rfl⟩
    | inside outer begun =>
      cases begun with
      | thenBranch fits tested =>
        unfold closeStatements
        split
        · exact ⟨closed, _, _, vs, stays, hended, rfl⟩
        · rename_i last
          rw [List.append_assoc]
          exact ih outer (fits _ _ (ifNode_derives tested hended)) fun h => absurd h last
      | elseBranch fits tested hyes hclosed hother =>
        rw [List.append_assoc]
        refine ih outer (fits _ _ (ifElseNode_derives tested hyes hclosed hother hended))
          fun h open' => ?_
        exact closed h (ifNode_endsOpen (hended.present_eq rfl) open')
      | whileBody fits tested =>
        rw [List.append_assoc]
        refine ih outer (fits _ _ (whileNode_derives tested hended)) fun h open' => ?_
        cases open' with
        | inWhile h' => exact closed h h'
      | forBody fits stepped =>
        rw [List.append_assoc]
        refine ih outer (fits _ _ (forNode_derives stepped hended)) fun h open' => ?_
        cases open' with
        | inFor h' => exact closed h h'
      | _ => exact ⟨closed, _, _, vs, stays, hended, rfl⟩

/-- An `if` stays open only before an `else`. -/
theorem closeStatements_thenBranch (beforeElse : Bool) {ended test : Node} {first : Place}
    {pending rest : List Pending}
    (h : (closeStatements beforeElse ended pending).2 = .thenBranch first test :: rest) :
    beforeElse = true := by
  induction pending generalizing ended with
  | nil => cases h
  | cons top others ih =>
    unfold closeStatements at h
    split at h
    · rename_i heq
      cases heq
      split at h
      · assumption
      · exact ih h
    · rename_i heq
      cases heq
      exact ih h
    · rename_i heq
      cases heq
      exact ih h
    · rename_i heq
      cases heq
      exact ih h
    · rename_i other _ _ _
      exact absurd h (other _ _ _)

/-! ## Constructs that end with a word -/

section

variable {first : Place} {value : Node} {t : Token} {us vs : List Token}

theorem grouping_eq {left : Token} : Node.tree .grouping [value] (left.place.through t.place) =
    phraseNode .grouping (left :: (vs ++ [t])) [value] :=
  tree_eq (List.cons_ne_nil left []) ⟨vs ++ [t], rfl⟩ ⟨left :: vs, rfl⟩

theorem grouping_derives {left : Token} (hleft : left.kind = .symbol .leftParen)
    (hvalue : Derives .expression vs [value]) (ht : t.kind = .symbol .rightParen) :
    Derives (.level 9) (left :: (vs ++ [t]))
      [.tree .grouping [value] (left.place.through t.place)] := by
  rw [grouping_eq]
  exact .grouping hleft hvalue ht rfl

theorem expressionStmt_derives (hvalue : Derives .expression vs [value])
    (ht : t.kind = .symbol .semicolon) :
    Derives .expressionStmt (vs ++ [t])
      [.tree .expressionStmt [value] (value.place.through t.place)] := by
  rw [hvalue.place rfl,
    tree_eq (hvalue.ne_nil rfl) (List.prefix_append vs [t]) (List.suffix_append vs [t])]
  exact .expressionStmt hvalue ht rfl

theorem printStmt_derives (started : Started .printWord first us)
    (hvalue : Derives .expression vs [value]) (ht : t.kind = .symbol .semicolon) :
    Derives .statement (us ++ (vs ++ [t])) [.tree .printStmt [value] (first.through t.place)] := by
  obtain ⟨start, hstart, rfl, rfl⟩ := started
  rw [tree_eq (by simp) (List.prefix_append [start] (vs ++ [t])) ⟨start :: vs, rfl⟩]
  exact .printStmt hstart hvalue ht rfl

theorem returnStmt_derives (started : Started .returnWord first us)
    (hvalue : Derives (.optional .expression) vs [value]) (ht : t.kind = .symbol .semicolon) :
    Derives .statement (us ++ (vs ++ [t])) [.tree .returnStmt [value] (first.through t.place)] := by
  obtain ⟨start, hstart, rfl, rfl⟩ := started
  rw [tree_eq (by simp) (List.prefix_append [start] (vs ++ [t])) ⟨start :: vs, rfl⟩]
  exact .returnStmt hstart hvalue ht rfl

theorem variableDecl_derives {name : Token} (named : Named .varWord first name us)
    (hvalue : Derives (.optional .initializer) vs [value]) (ht : t.kind = .symbol .semicolon) :
    Derives .variableDecl (us ++ (vs ++ [t]))
      [.tree .variableDecl [name.node, value] (first.through t.place)] := by
  obtain ⟨start, hstart, hname, rfl, rfl⟩ := named
  rw [tree_eq (by simp) ⟨name :: (vs ++ [t]), rfl⟩ ⟨start :: name :: vs, rfl⟩]
  exact .variableDecl hstart hname hvalue ht rfl

theorem clause_derives {p : Phrase} (hp : p = .variableDecl ∨ p = .expressionStmt)
    (hvalue : Derives p vs [value]) :
    Derives .clause vs [.tree .forClause [value] value.place] := by
  rcases hp with rfl | rfl
  · rw [hvalue.place rfl]
    exact .variableClause hvalue
  · rw [hvalue.place rfl]
    exact .expressionClause hvalue

/-- The arguments with one more. -/
theorem Argued.expressions {items : List Node} (argued : Argued items us)
    (hvalue : Derives .expression vs [value]) :
    Derives .expressions (us ++ vs) (value :: items).reverse := by
  rw [List.reverse_cons]
  cases items with
  | nil =>
    cases argued
    exact .argument hvalue
  | cons n ns =>
    obtain ⟨es, comma, hes, hcomma, rfl⟩ := argued
    refine .nextArgument hes hcomma hvalue ?_
    rw [List.append_assoc, List.singleton_append]

theorem callNode_eq {callee : Node} (items : List Node) (left : Token) (vs : List Token)
    (hcallee : Derives (.level 8) us [callee]) :
    callNode callee items t = phraseNode .call (us ++ left :: (vs ++ [t]))
      [callee, if items.isEmpty then .absent else listNode .arguments items.reverse] := by
  rw [callNode, hcallee.place rfl]
  refine tree_eq (hcallee.ne_nil rfl) (List.prefix_append _ _) ⟨us ++ left :: vs, ?_⟩
  rw [List.append_assoc, List.cons_append]

theorem callNode_derives {callee : Node} {items : List Node} {left : Token}
    (hcallee : Derives (.level 8) us [callee]) (hleft : left.kind = .symbol .leftParen)
    (hitems : items = [] ∧ vs = [] ∨ items ≠ [] ∧ Derives .expressions vs items.reverse)
    (ht : t.kind = .symbol .rightParen) :
    Derives (.level 8) (us ++ left :: (vs ++ [t])) [callNode callee items t] := by
  rw [callNode_eq items left vs hcallee]
  rcases hitems with ⟨rfl, rfl⟩ | ⟨hne, hitems⟩
  · exact .call hcallee hleft .missing ht rfl
  · rw [if_neg (by simpa using hne), hitems.listNode_eq (by simp)]
    exact .call hcallee hleft (.present (.arguments hitems)) ht rfl

theorem blockNode_eq {start : Token} {items : List Node} :
    blockNode start.place none items t = phraseNode .block (start :: (us ++ [t])) items.reverse :=
  tree_eq (List.cons_ne_nil start []) ⟨us ++ [t], rfl⟩ ⟨start :: us, rfl⟩

theorem block_derives {start : Token} {items : List Node} (hstart : start.kind = .symbol .leftBrace)
    (hitems : Derives .items us items.reverse) (ht : t.kind = .symbol .rightBrace) :
    Derives .block (start :: (us ++ [t])) [blockNode start.place none items t] := by
  rw [blockNode_eq]
  exact .block hstart hitems ht rfl

theorem functionNode_derives {header : Header} {start : Token} {items : List Node}
    (hheader : HeaderRead header us) (hstart : start.kind = .symbol .leftBrace)
    (hitems : Derives .items vs items.reverse) (ht : t.kind = .symbol .rightBrace) :
    Derives .declaration (us ++ start :: (vs ++ [t]))
      [blockNode start.place (some header) items t] := by
  obtain ⟨-, ps, right, ⟨-, left, ⟨word, hword, hname, hfirst, rfl⟩, hleft, rfl⟩, hps,
    hright, rfl⟩ := hheader
  have block := block_derives hstart hitems ht
  have node : blockNode start.place (some header) items t =
      phraseNode .functionDecl
        ([word, header.name] ++ [left] ++ (ps ++ [right]) ++ start :: (vs ++ [t]))
          [header.name.node, header.parameters, blockNode start.place none items t] := by
    show treeTo .functionDecl header.first _ (blockNode start.place none items t) = _
    rw [hfirst]
    exact treeTo_eq (by simp) ⟨[header.name] ++ [left] ++ (ps ++ [right]) ++ start :: (vs ++ [t]),
      rfl⟩ block rfl (List.suffix_append _ _)
  rw [node]
  exact .functionDecl hword hname hleft hps hright block (by simp)

end

/-! ## One word -/

namespace Reader

variable {t : Token} {pending : List Pending} {r' : Reader} {ts us vs : List Token}

/-- What is awaited where a name can be assigned to is any expression. -/
theorem level_of_canAssign {i : Nat} (awaits : Awaits (.level i) pending ts)
    (h : canAssign pending = true) :
    i = 0 := by
  cases awaits with
  | inside outer begun =>
    cases begun with
    | binary | unary => cases h
    | forInit _ _ hp => rcases hp with hp | hp <;> cases hp
    | _ => rfl

theorem absentOperand?_took {i : Nat} (awaits : Awaits (.level i) pending ts)
    (h : absentOperand? t pending = some r') : r'.Took (ts ++ [t]) := by
  unfold absentOperand? at h
  split at h
  · split at h
    · rename_i ht
      cases h
      cases awaits with
      | inside outer begun =>
        cases begun with
        | result fits started =>
          refine ⟨nofun, _, _, _, outer, fits _ _ (returnStmt_derives started .missing ht), ?_⟩
          simp
    · cases h
  · split at h
    · rename_i ht
      cases h
      cases awaits with
      | inside outer begun =>
        cases begun with
        | arguments low hcallee hleft argued =>
          cases argued
          refine ⟨_, _, _, outer,
            ⟨callNode_derives hcallee hleft (.inl ⟨rfl, rfl⟩) ht, nofun⟩, ?_⟩
          simp
    · cases h
  · split at h
    · rename_i ht
      cases h
      cases awaits with
      | inside outer begun =>
        cases begun with
        | forTest fits looped =>
          rw [List.append_assoc]
          exact ⟨0, .inside outer (.forStep fits ⟨_, [], t, looped, .missing, ht, rfl⟩)⟩
    · cases h
  · split at h
    · rename_i ht
      cases h
      cases awaits with
      | inside outer begun =>
        cases begun with
        | forStep fits tested =>
          rw [List.append_assoc]
          exact .inside outer (.forBody fits ⟨_, [], t, tested, .missing, ht, rfl⟩)
    · cases h
  · cases h

theorem operand?_took {i : Nat} (awaits : Awaits (.level i) pending ts)
    (h : operand? t pending = some r') : r'.Took (ts ++ [t]) := by
  -- an operand of the highest level stands wherever an expression is awaited
  have operand {n : Node} (hn : Derives (.level 9) [t] [n]) :
      Took ⟨.operator n none, pending⟩ (ts ++ [t]) :=
    ⟨i, ts, [t], awaits, ⟨hn.nextLevel, nofun⟩, rfl⟩
  unfold operand? at h
  split at h
  · rename_i ht
    cases h
    exact operand (.constant (by simp [ht]))
  · rename_i ht
    cases h
    exact operand (.constant (by simp [ht]))
  · rename_i ht
    cases h
    exact operand (.trueLit ht)
  · rename_i ht
    cases h
    exact operand (.falseLit ht)
  · rename_i ht
    cases h
    exact operand (.nilLit ht)
  · rename_i ht
    cases h
    refine ⟨i, ts, [t], awaits, ⟨(Derives.reference ht).nextLevel, fun name hname => ?_⟩,
      rfl⟩
    split at hname
    · rename_i can
      cases hname
      exact ⟨level_of_canAssign awaits can, ht, rfl⟩
    · cases hname
  · rename_i ht
    cases h
    exact ⟨0, .inside awaits (.group awaits.level_le ht)⟩
  · rename_i ht
    cases h
    exact ⟨7, .inside awaits (.unary awaits.level_le (by simp [ht]))⟩
  · rename_i ht
    cases h
    exact ⟨7, .inside awaits (.unary awaits.level_le (by simp [ht]))⟩
  · exact absentOperand?_took awaits h

theorem endExpression?_took {e : Node} (awaits : Awaits .expression pending us)
    (he : Derives .expression vs [e]) (h : endExpression? t e pending = some r') :
    r'.Took (us ++ vs ++ [t]) := by
  rw [List.append_assoc]
  unfold endExpression? at h
  split at h
  · split at h
    · rename_i ht
      cases h
      cases awaits with
      | inside outer begun =>
        cases begun with
        | group low hleft =>
          rw [List.append_assoc]
          exact ⟨_, _, _, outer, ⟨(grouping_derives hleft he ht).nextLevel, nofun⟩, rfl⟩
    · cases h
  · cases awaits with
    | inside outer begun =>
      cases begun with
      | arguments low hcallee hleft argued =>
        have read := argued.expressions he
        split at h
        · rename_i ht
          cases h
          refine ⟨0, ?_⟩
          have begun : Begun (.arguments _ (e :: _)) _ _ _ :=
            .arguments low hcallee hleft ⟨_, t, read, ht, rfl⟩
          simpa using Awaits.inside outer begun
        · split at h
          · rename_i ht
            cases h
            refine ⟨_, _, _, outer,
              ⟨callNode_derives hcallee hleft (.inr ⟨by simp, read⟩) ht, nofun⟩, ?_⟩
            simp
          · cases h
  · split at h
    · rename_i ht
      cases h
      cases awaits with
      | inside outer begun =>
        cases begun with
        | expression fits =>
          rw [List.append_nil]
          exact ⟨nofun, _, _, _, outer, fits _ _ (expressionStmt_derives he ht), rfl⟩
    · cases h
  · split at h
    · rename_i ht
      cases h
      cases awaits with
      | inside outer begun =>
        cases begun with
        | print fits started =>
          rw [List.append_assoc]
          exact ⟨nofun, _, _, _, outer, fits _ _ (printStmt_derives started he ht), rfl⟩
    · cases h
  · split at h
    · rename_i ht
      cases h
      cases awaits with
      | inside outer begun =>
        cases begun with
        | result fits started =>
          rw [List.append_assoc]
          exact ⟨nofun, _, _, _, outer, fits _ _ (returnStmt_derives started (.present he) ht),
            rfl⟩
    · cases h
  · split at h
    · rename_i ht
      cases h
      cases awaits with
      | inside outer begun =>
        cases begun with
        | initializer fits named hequal =>
          have value := Derives.present (.initializer hequal he rfl)
          refine ⟨nofun, _, _, _, outer, fits _ _ (variableDecl_derives named value ht), ?_⟩
          simp
    · cases h
  · split at h
    · rename_i ht
      cases h
      cases awaits with
      | inside outer begun =>
        cases begun with
        | ifTest fits opened =>
          rw [List.append_assoc]
          exact .inside outer (.thenBranch fits ⟨_, _, t, opened, he, ht, rfl⟩)
    · cases h
  · split at h
    · rename_i ht
      cases h
      cases awaits with
      | inside outer begun =>
        cases begun with
        | whileTest fits opened =>
          rw [List.append_assoc]
          exact .inside outer (.whileBody fits ⟨_, _, t, opened, he, ht, rfl⟩)
    · cases h
  · split at h
    · rename_i ht
      cases h
      cases awaits with
      | inside outer begun =>
        cases begun with
        | forTest fits looped =>
          rw [List.append_assoc]
          exact ⟨0, .inside outer (.forStep fits ⟨_, _, t, looped, .present he, ht, rfl⟩)⟩
    · cases h
  · split at h
    · rename_i ht
      cases h
      cases awaits with
      | inside outer begun =>
        cases begun with
        | forStep fits tested =>
          rw [List.append_assoc]
          exact .inside outer (.forBody fits ⟨_, _, t, tested, .present he, ht, rfl⟩)
    · cases h
  · cases h

theorem operator?_took {left : Node} {target : Option Token}
    (took : Took ⟨.operator left target, pending⟩ ts)
    (h : operator? t left target pending = some r') : r'.Took (ts ++ [t]) := by
  obtain ⟨i, us, vs, awaits, ⟨hleft, htarget⟩, rfl⟩ := took
  have hi := awaits.level_le
  unfold operator? at h
  split at h
  · rename_i level hlevel
    have small := (operators_of_level hlevel).2.1
    obtain ⟨j, low, us', vs', awaits', hleft', hwords⟩ :=
      closeOperators_awaits awaits hleft (by omega) (by omega) small
    cases h
    rw [hwords, List.append_assoc]
    exact ⟨level + 1, .inside awaits' (.binary hlevel low hleft')⟩
  · split at h
    · rename_i ht
      cases h
      rw [List.append_assoc]
      exact ⟨0, .inside awaits (.arguments hi hleft ht rfl)⟩
    · split at h
      · rename_i ht
        obtain ⟨name, hname, rfl⟩ := Option.map_eq_some_iff.1 h
        obtain ⟨rfl, hkind, rfl⟩ := htarget name hname
        rw [List.append_assoc]
        exact ⟨0, .inside awaits (.assign hkind ht)⟩
      · obtain ⟨j, low, us', vs', awaits', hleft', hwords⟩ :=
          closeOperators_awaits awaits hleft (by omega) (Nat.zero_le 8) (Nat.zero_le 6)
        obtain rfl := Nat.le_zero.1 low
        rw [hwords]
        exact endExpression?_took awaits' hleft' h

theorem statement?_took {o : Phrase} (awaits : Awaits o pending ts) (fits : o.Admits .statement)
    (h : statement? t pending = some r') : r'.Took (ts ++ [t]) := by
  unfold statement? at h
  split at h
  · rename_i ht
    cases h
    exact ⟨0, .inside awaits (.print fits ⟨t, ht, rfl, rfl⟩)⟩
  · rename_i ht
    cases h
    exact ⟨0, .inside awaits (.result fits ⟨t, ht, rfl, rfl⟩)⟩
  · rename_i ht
    cases h
    exact ⟨o, fits, ts, [t], awaits, ⟨t, ht, rfl, rfl⟩, rfl⟩
  · rename_i ht
    cases h
    exact ⟨o, fits, ts, [t], awaits, ⟨t, ht, rfl, rfl⟩, rfl⟩
  · rename_i ht
    cases h
    exact ⟨o, fits, ts, [t], awaits, ⟨t, ht, rfl, rfl⟩, rfl⟩
  · rename_i ht
    cases h
    exact .inside awaits (.block fits ht .noItems)
  · have inside := Awaits.inside awaits (.expression fits.expressionStmt)
    rw [List.append_nil] at inside
    exact operand?_took inside h

theorem item?_took (awaits : Awaits .declaration pending ts) (h : item? t pending = some r') :
    r'.Took (ts ++ [t]) := by
  unfold item? at h
  split at h
  · rename_i ht
    cases h
    exact ⟨ts, [t], awaits, ⟨t, ht, rfl, rfl⟩, rfl⟩
  · rename_i ht
    cases h
    exact ⟨.declaration, fun _ _ => .ofVariableDecl, ts, [t], awaits,
      ⟨t, ht, rfl, rfl⟩, rfl⟩
  · rename_i ht
    split at h
    · cases h
      cases awaits with
      | inside outer begun =>
        rw [List.append_assoc]
        cases begun with
        | block fits hstart read =>
          exact ⟨nofun, _, _, _, outer, fits.block _ _ (block_derives hstart read ht), rfl⟩
        | body hheader hstart read =>
          refine ⟨nofun, _, _, _, outer, functionNode_derives hheader hstart read ht, ?_⟩
          simp
    · cases h
  · exact statement?_took awaits (fun _ _ => .ofStatement) h

theorem next?_took {ended : Node} {o : Phrase} (awaits : Awaits o pending us)
    (hended : Derives o vs [ended])
    (closed : ¬ ended.EndsOpen) (h : next? t ended pending = some r') :
    r'.Took (us ++ vs ++ [t]) := by
  have before := fun first test rest =>
    @closeStatements_thenBranch (t.kind == .keyword .elseWord) ended test first pending rest
  obtain ⟨closed', q, us', vs', awaits', hended', hwords⟩ :=
    closeStatements_awaits (t.kind == .keyword .elseWord) awaits hended fun _ => closed
  rw [hwords]
  unfold next? at h
  simp only at h
  generalize closeStatements _ ended pending = result at h awaits' hended' closed' before
  split at h
  · cases awaits' with
    | program read => exact item?_took (.program (by simpa using read.oneMore hended' rfl)) h
    | inside outer begun => cases begun
  · cases awaits' with
    | inside outer begun =>
      cases begun with
      | block fits hstart read =>
        have read' := read.oneMore hended' rfl
        rw [← List.reverse_cons] at read'
        simpa using item?_took (.inside outer (.block fits hstart read')) h
      | body hheader hstart read =>
        have read' := read.oneMore hended' rfl
        rw [← List.reverse_cons] at read'
        simpa using item?_took (.inside outer (.body hheader hstart read')) h
  · -- only an `else` leaves an `if` open
    cases h
    have ht := before _ _ _ rfl
    cases awaits' with
    | inside outer begun =>
      cases begun with
      | thenBranch fits tested =>
        rw [List.append_assoc, List.append_assoc]
        exact .inside outer (.elseBranch fits tested hended' (closed' ht) (beq_iff_eq.1 ht))
  · cases awaits' with
    | inside outer begun =>
      cases begun with
      | forInit fits opened hp =>
        have looped : Looped _ _ (_ ++ _) := ⟨_, _, opened, clause_derives hp hended', rfl⟩
        simpa using operand?_took (.inside outer (.forTest fits looped)) h
  · cases h

theorem clause?_took
    (awaits : ∀ p, p = .variableDecl ∨ p = .expressionStmt → Awaits p pending ts)
    (h : clause? t pending = some r') : r'.Took (ts ++ [t]) := by
  unfold clause? at h
  split at h
  · split at h
    · rename_i ht
      cases h
      exact ⟨.variableDecl, Phrase.admits_refl _, ts, [t], awaits _ (.inl rfl),
        ⟨t, ht, rfl, rfl⟩, rfl⟩
    · rename_i ht
      cases h
      cases awaits _ (.inl rfl) with
      | inside outer begun =>
        cases begun with
        | forInit fits opened hp =>
          rw [List.append_assoc]
          exact ⟨0, .inside outer (.forTest fits ⟨_, [t], opened, .emptyClause ht, rfl⟩)⟩
    · have inside := Awaits.inside (awaits _ (.inr rfl)) (.expression (Phrase.admits_refl _))
      rw [List.append_nil] at inside
      exact operand?_took inside h
  · cases h

/-- **Every word is added to those that were taken.** -/
theorem step?_took {r : Reader} (took : r.Took ts) (h : r.step? t = some r') :
    r'.Took (ts ++ [t]) := by
  obtain ⟨expecting, pending⟩ := r
  unfold step? at h
  cases expecting with
  | item => exact item?_took took h
  | next ended isVariable =>
    obtain ⟨closed, o, us, vs, awaits, hended, rfl⟩ := took
    exact next?_took awaits hended closed h
  | statement => exact statement?_took took (Phrase.admits_refl _) h
  | clause => exact clause?_took took h
  | operand =>
    obtain ⟨i, awaits⟩ := took
    exact operand?_took awaits h
  | operator left target => exact operator?_took took h
  | opening head first =>
    obtain ⟨o, fits, us, vs, awaits, ⟨start, hstart, hfirst, rfl⟩, rfl⟩ := took
    simp only at h
    split at h
    · rename_i ht
      rw [List.append_assoc]
      cases head <;> cases h
      · exact ⟨0, .inside awaits (.ifTest fits ⟨start, t, hstart, ht, hfirst, rfl⟩)⟩
      · exact ⟨0, .inside awaits (.whileTest fits ⟨start, t, hstart, ht, hfirst, rfl⟩)⟩
      · exact fun p hp => .inside awaits (.forInit fits ⟨start, t, hstart, ht, hfirst, rfl⟩ hp)
    · cases h
  | variableName first =>
    obtain ⟨o, fits, us, vs, awaits, ⟨start, hstart, hfirst, rfl⟩, rfl⟩ := took
    simp only at h
    split at h
    · rename_i ht
      cases h
      rw [List.append_assoc]
      exact ⟨o, fits, us, _, awaits, ⟨start, hstart, ht, hfirst, rfl⟩, rfl⟩
    · cases h
  | variableRest first name =>
    obtain ⟨o, fits, us, vs, awaits, named, rfl⟩ := took
    simp only at h
    rw [List.append_assoc]
    split at h
    · rename_i ht
      cases h
      exact ⟨0, .inside awaits (.initializer fits named ht)⟩
    · split at h
      · rename_i ht
        cases h
        exact ⟨nofun, o, us, _, awaits, fits _ _ (variableDecl_derives named .missing ht), rfl⟩
      · cases h
  | functionName first =>
    obtain ⟨us, vs, awaits, ⟨start, hstart, hfirst, rfl⟩, rfl⟩ := took
    simp only at h
    split at h
    · rename_i ht
      cases h
      rw [List.append_assoc]
      exact ⟨us, _, awaits, ⟨start, hstart, ht, hfirst, rfl⟩, rfl⟩
    · cases h
  | parametersOpening first name =>
    obtain ⟨us, vs, awaits, named, rfl⟩ := took
    simp only at h
    split at h
    · rename_i ht
      cases h
      rw [List.append_assoc]
      exact ⟨us, _, awaits, ⟨vs, t, named, ht, rfl⟩, rfl⟩
    · cases h
  | firstParameter first name =>
    obtain ⟨us, vs, awaits, opened, rfl⟩ := took
    simp only at h
    rw [List.append_assoc]
    split at h
    · rename_i ht
      cases h
      exact ⟨us, _, awaits, ⟨vs, [t], opened, .name ht, rfl⟩, rfl⟩
    · split at h
      · rename_i ht
        cases h
        exact ⟨us, _, awaits, ⟨vs, [], t, opened, .missing, ht, rfl⟩, rfl⟩
      · cases h
  | nextParameter first name items =>
    obtain ⟨us, -, awaits, ⟨-, comma, ⟨ws, ps, opened, names, rfl⟩, hcomma, rfl⟩,
      rfl⟩ := took
    simp only at h
    split at h
    · rename_i ht
      cases h
      refine ⟨us, _, awaits, ⟨ws, ps ++ [comma, t], opened, ?_, rfl⟩, ?_⟩
      · simpa using names.nextName hcomma ht rfl
      · simp
    · cases h
  | parameterRest first name items =>
    obtain ⟨us, vs, awaits, named, rfl⟩ := took
    simp only at h
    rw [List.append_assoc]
    split at h
    · rename_i ht
      cases h
      exact ⟨us, _, awaits, ⟨vs, t, named, ht, rfl⟩, rfl⟩
    · split at h
      · rename_i ht
        cases h
        obtain ⟨ws, ps, opened, names, rfl⟩ := named
        refine ⟨us, _, awaits, ⟨ws, ps, t, opened, ?_, ht, rfl⟩, ?_⟩
        · rw [names.listNode_eq (by simp)]
          exact .present (.parameters names)
        · simp
      · cases h
  | body header =>
    obtain ⟨us, vs, awaits, hheader, rfl⟩ := took
    simp only at h
    split at h
    · rename_i ht
      cases h
      rw [List.append_assoc]
      exact .inside awaits (.body hheader ht .noItems)
    · cases h

theorem init_took : Reader.init.Took [] := Awaits.program .noItems

/-- The tree at the end of a text is derived from the words that were taken. -/
theorem finish?_took {r : Reader} {tree : Node} (took : r.Took ts) (h : r.finish? = some tree) :
    Derives .program ts [tree] := by
  have program {items : List Node} {ts : List Token} (read : Derives .items ts items) :
      Derives .program ts [listNode .program items] := by
    rw [read.listNode_eq (by simp)]
    exact .program read
  obtain ⟨expecting, pending⟩ := r
  unfold finish? at h
  cases expecting with
  | item =>
    simp only at h
    split at h
    · cases h
      cases took with
      | program read => exact program read
      | inside outer begun => cases begun
    · cases h
  | next ended isVariable =>
    obtain ⟨-, o, us, vs, awaits, hended, rfl⟩ := took
    obtain ⟨-, q, us', vs', awaits', hended', hwords⟩ :=
      closeStatements_awaits false awaits hended nofun
    simp only at h
    generalize closeStatements false ended pending = result at h awaits' hended'
    split at h
    · cases h
      cases awaits' with
      | program read =>
        rw [hwords, List.reverse_cons]
        exact program (read.oneMore hended' rfl)
      | inside outer begun => cases begun
    · cases h
  | _ => cases h

end Reader

/-! ## A whole text -/

/-- The rest of a text is made of the words that are taken from it, and all words are derived as a
program. -/
theorem readFrom_derives {r : Reader} {last p : Position} {cs : List Char} {tree : Node}
    {ts : List Token} (took : r.Took ts) (h : readFrom r last p cs = .ok tree) :
    Derives .program (ts ++ tokensFrom r p cs) [tree] ∧ Laid p cs (tokensFrom r p cs) := by
  -- each word makes what remains shorter
  induction hlength : cs.length using Nat.strongRecOn generalizing r last p cs ts with
  | ind length ih =>
    rcases readFrom_ok h with
      ⟨q, hskip, hfinish⟩ | ⟨q, c, rest, kind, text, r', hskip, hlex, hstep, hrest⟩
    · rw [tokensFrom_finish hskip, List.append_nil]
      exact ⟨Reader.finish?_took took hfinish, laid_finish hskip⟩
    · have shorter := length_drop_lexeme_lt hlex
      have skipped := length_skip_le false p cs
      rw [hskip] at skipped
      obtain ⟨derived, laid⟩ := ih _ (hlength ▸ Nat.lt_of_lt_of_le shorter skipped)
        (Reader.step?_took took hstep) hrest rfl
      rw [tokensFrom_word hskip hlex hstep]
      rw [List.append_assoc, List.singleton_append] at derived
      exact ⟨derived, laid_word hskip hlex laid⟩

end Source

open Source

/-- **The tree of a text is derived by the grammar.** The words of the derivation, with those that
the tree leaves out, are all the words that were read, in their order, and the text consists of them
with nothing but blanks and comments between them. The levels of `Derives` say how operators nest,
and no `else` is given to an `if` while a nearer one is open. -/
theorem text_derives_tree (source : String) (tree : Node) (h : parseRaw source = .ok tree) :
    Derives .program (tokensRead source) [tree] ∧ Laid .first source.toList (tokensRead source) :=
  readFrom_derives Reader.init_took h

/-- An assignment, operators of one level and a comment. -/
theorem text_derives_tree_assign :
    ∃ tree, parseRaw "a=1-2-3; //" = .ok tree ∧
      Derives .program (tokensRead "a=1-2-3; //") [tree] ∧
        Laid .first "a=1-2-3; //".toList (tokensRead "a=1-2-3; //") := by
  have accepted : (parseRaw "a=1-2-3; //").isOk = true := by cbv
  cases h : parseRaw "a=1-2-3; //" with
  | error e =>
    rw [h] at accepted
    cases accepted
  | ok tree => exact ⟨tree, rfl, text_derives_tree _ tree h⟩

end LoxLang
