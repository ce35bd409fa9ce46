import LoxLang.Source.Token

/-!
# Reading a program word by word

A reader holds the constructs that have begun and not yet ended, the innermost first, and what it
expects next. Each word moves it one step; a word that no program can have there stops it.

* `Pending`: a construct that waits for its next part.
* `Expecting`: what may come next, with the parts that are not yet attached to the pending
  constructs.
* `Expecting.admits`: the terminals that can stand there. They are known before the word is read,
  so a word is cut from the text with this class in mind.
* `Reader.step?`: the effect of one word; `Reader.finish?`: the tree at the end of the text.

Operators: a pending operator is closed by one that binds no stronger, so operators of one level
group to the left; prefix operators and assignments wait for the end of their operand, so they group
to the right. A statement that ends is attached only when the next word is known, because that word
may be the `else` of an enclosing `if`.
-/

set_option autoImplicit false

namespace LoxLang

namespace Source

/-- The beginning of a function whose body is being read. -/
structure Header where
  first : Place
  name : Token
  parameters : Node
deriving Repr

/-- A construct that has begun. `first` is the place of its first word, and lists of parts that have
been read are kept in reverse. -/
inductive Pending where
  /-- The whole program. -/
  | program (items : List Node)
  /-- A block, which may be the body of a function. -/
  | block (first : Place) (header : Option Header) (items : List Node)
  /-- An `if`, `while` or `for` whose last statement is being read. -/
  | thenBranch (first : Place) (test : Node)
  | elseBranch (first : Place) (test yes : Node)
  | whileBody (first : Place) (test : Node)
  | forBody (first : Place) (init test step : Node)
  /-- The first clause of a `for`. -/
  | forInit (first : Place)
  /-- A statement or clause whose expression is being read. -/
  | expression
  | print (first : Place)
  | result (first : Place)
  | initializer (first : Place) (name : Token)
  | ifTest (first : Place)
  | whileTest (first : Place)
  | forTest (first : Place) (init : Node)
  | forStep (first : Place) (init test : Node)
  /-- An expression whose next operand is being read. -/
  | assign (name : Token)
  | binary (left : Node) (op : Token)
  | unary (op : Token)
  | group (first : Place)
  | arguments (callee : Node) (items : List Node)
deriving Repr

/-- The constructs that begin with a word and an opening parenthesis. -/
inductive Headed where
  | ifHead | whileHead | forHead
deriving DecidableEq, Repr

/-- What is expected next. -/
inductive Expecting where
  /-- A declaration, a statement, or the end of the list of them. -/
  | item
  /-- Whatever can follow a declaration or statement that has just ended. -/
  | next (ended : Node) (isVariable : Bool)
  /-- A statement. -/
  | statement
  /-- The first clause of a `for`. -/
  | clause
  /-- An operand, or the end of an expression that may be absent. -/
  | operand
  /-- An operator or the end of the expression; `target` is the operand if it can be assigned to. -/
  | operator (left : Node) (target : Option Token)
  /-- The parenthesis after `if`, `while` or `for`. -/
  | opening (head : Headed) (first : Place)
  /-- The parts of a variable declaration. -/
  | variableName (first : Place)
  | variableRest (first : Place) (name : Token)
  /-- The parts of a function header. -/
  | functionName (first : Place)
  | parametersOpening (first : Place) (name : Token)
  | firstParameter (first : Place) (name : Token)
  | nextParameter (first : Place) (name : Token) (items : List Token)
  | parameterRest (first : Place) (name : Token) (items : List Token)
  | body (header : Header)
deriving Repr

namespace Expecting

/-- The terminals that begin an expression. -/
def expressionStart : List Terminal :=
  [.identifier, .number, .string, .keyword .trueWord, .keyword .falseWord, .keyword .nilWord,
   .symbol .leftParen, .symbol .minus, .symbol .bang]

/-- The terminals that begin a statement. -/
def statementStart : List Terminal :=
  expressionStart ++ [.keyword .printWord, .keyword .returnWord, .keyword .ifWord,
    .keyword .whileWord, .keyword .forWord, .symbol .leftBrace]

/-- The terminals that begin a declaration or statement. -/
def itemStart : List Terminal := statementStart ++ [.keyword .funWord, .keyword .varWord]

/-- The terminals that can follow an operand. -/
def afterOperand : List Terminal :=
  [.keyword .orWord, .keyword .andWord, .symbol .equalEqual, .symbol .bangEqual, .symbol .greater,
   .symbol .greaterEqual, .symbol .less, .symbol .lessEqual, .symbol .plus, .symbol .minus,
   .symbol .star, .symbol .slash, .symbol .leftParen, .symbol .rightParen, .symbol .comma,
   .symbol .semicolon]

/-- The terminals that can come next. They depend on the last words only, not on the pending
constructs: after the end of a statement they allow for every construct it may stand in. -/
def terminals : Expecting → List Terminal
  | .item => .symbol .rightBrace :: itemStart
  | .next _ true => .symbol .rightBrace :: .symbol .semicolon :: itemStart
  | .next _ false => .keyword .elseWord :: .symbol .rightBrace :: .symbol .semicolon :: itemStart
  | .statement => statementStart
  | .clause => .keyword .varWord :: .symbol .semicolon :: expressionStart
  | .operand => .symbol .semicolon :: .symbol .rightParen :: expressionStart
  | .operator _ none => afterOperand
  | .operator _ (some _) => .symbol .equal :: afterOperand
  | .opening _ _ => [.symbol .leftParen]
  | .variableName _ => [.identifier]
  | .variableRest _ _ => [.symbol .equal, .symbol .semicolon]
  | .functionName _ => [.identifier]
  | .parametersOpening _ _ => [.symbol .leftParen]
  | .firstParameter _ _ => [.identifier, .symbol .rightParen]
  | .nextParameter _ _ _ => [.identifier]
  | .parameterRest _ _ _ => [.symbol .comma, .symbol .rightParen]
  | .body _ => [.symbol .leftBrace]

/-- Whether a terminal can come next. -/
def admits (e : Expecting) (t : Terminal) : Bool := e.terminals.contains t

end Expecting

/-! ## Nodes of finished constructs -/

/-- A tree whose last part is `last`. -/
def treeTo (label : Label) (first : Place) (parts : List Node) (last : Node) : Node :=
  .tree label parts (first.through last.place)

/-- A list of nodes as one tree, from the first of them to the last. -/
def listNode (label : Label) (items : List Node) : Node :=
  match items, items.getLast? with
  | first :: _, some last => .tree label items (first.place.through last.place)
  | _, _ => .tree label [] .unknown

/-- An infix operator with its operands. -/
def binaryNode (left : Node) (op : Token) (right : Node) : Node :=
  treeTo (if op.kind.isLogical then .logical else .binary) left.place [left, op.node, right] right

/-- A prefix operator with its operand. -/
def unaryNode (op : Token) (operand : Node) : Node :=
  treeTo .unary op.place [op.node, operand] operand

/-- An assignment. -/
def assignNode (name : Token) (value : Node) : Node :=
  treeTo .assign name.place [name.node, value] value

/-- A call whose arguments, in reverse, are `items`; `close` is its closing parenthesis. -/
def callNode (callee : Node) (items : List Node) (close : Token) : Node :=
  let arguments := if items.isEmpty then Node.absent else listNode .arguments items.reverse
  .tree .call [callee, arguments] (callee.place.through close.place)

/-- A conditional statement; `no` is absent if it has no `else`. -/
def ifNode (first : Place) (test yes no : Node) : Node :=
  treeTo .ifStmt first [test, yes, no] (no.present?.getD yes)

/-- A loop. -/
def whileNode (first : Place) (test body : Node) : Node :=
  treeTo .whileStmt first [test, body] body

/-- A loop with a header. -/
def forNode (first : Place) (init test step body : Node) : Node :=
  treeTo .forStmt first [init, test, step, body] body

/-- A block whose items, in reverse, are `items`, or the function it is the body of. -/
def blockNode (first : Place) (header : Option Header) (items : List Node) (close : Token) : Node :=
  let block := Node.tree .block items.reverse (first.through close.place)
  match header with
  | none => block
  | some h => treeTo .functionDecl h.first [h.name.node, h.parameters, block] block

/-! ## Closing what has ended -/

/-- Closes the operators that bind at least as strongly as `level`; at level zero also
assignments. -/
def closeOperators (level : Nat) (left : Node) : List Pending → Node × List Pending
  | .unary op :: rest => closeOperators level (unaryNode op left) rest
  | .binary l op :: rest =>
    if level ≤ op.kind.level?.getD 0 then closeOperators level (binaryNode l op left) rest
    else (left, .binary l op :: rest)
  | .assign name :: rest =>
    if level = 0 then closeOperators level (assignNode name left) rest
    else (left, .assign name :: rest)
  | stack => (left, stack)

/-- Closes the statements that end with the statement `ended`. Before an `else` the nearest `if`
that has none stays open. -/
def closeStatements (beforeElse : Bool) (ended : Node) : List Pending → Node × List Pending
  | .thenBranch first test :: rest =>
    if beforeElse then (ended, .thenBranch first test :: rest)
    else closeStatements beforeElse (ifNode first test ended .absent) rest
  | .elseBranch first test yes :: rest =>
    closeStatements beforeElse (ifNode first test yes ended) rest
  | .whileBody first test :: rest => closeStatements beforeElse (whileNode first test ended) rest
  | .forBody first init test step :: rest =>
    closeStatements beforeElse (forNode first init test step ended) rest
  | stack => (ended, stack)

/-! ## One word -/

/-- The constructs that have begun, the innermost first, and what is expected next. -/
structure Reader where
  expecting : Expecting
  pending : List Pending
deriving Repr

namespace Reader

/-- Before the first word. -/
def init : Reader := ⟨.item, [.program []]⟩

/-- Whether a name that stands next can be assigned to: not as an operand of an operator. -/
def canAssign : List Pending → Bool
  | .binary _ _ :: _ => false
  | .unary _ :: _ => false
  | _ => true

/-- The end of an expression that may be absent. -/
def absentOperand? (t : Token) : List Pending → Option Reader
  | .result first :: rest =>
    if t.kind = .symbol .semicolon then
      some ⟨.next (.tree .returnStmt [.absent] (first.through t.place)) false, rest⟩
    else none
  | .arguments callee [] :: rest =>
    if t.kind = .symbol .rightParen then some ⟨.operator (callNode callee [] t) none, rest⟩
    else none
  | .forTest first init :: rest =>
    if t.kind = .symbol .semicolon then some ⟨.operand, .forStep first init .absent :: rest⟩
    else none
  | .forStep first init test :: rest =>
    if t.kind = .symbol .rightParen
      then some ⟨.statement, .forBody first init test .absent :: rest⟩
    else none
  | _ => none

/-- A word where an operand is expected. -/
def operand? (t : Token) (pending : List Pending) : Option Reader :=
  match t.kind with
  | .number => some ⟨.operator t.node none, pending⟩
  | .string => some ⟨.operator t.node none, pending⟩
  | .keyword .trueWord => some ⟨.operator (.tree .trueLit [] t.place) none, pending⟩
  | .keyword .falseWord => some ⟨.operator (.tree .falseLit [] t.place) none, pending⟩
  | .keyword .nilWord => some ⟨.operator (.tree .nilLit [] t.place) none, pending⟩
  | .identifier =>
    some ⟨.operator (.tree .reference [t.node] t.place)
      (if canAssign pending then some t else none), pending⟩
  | .symbol .leftParen => some ⟨.operand, .group t.place :: pending⟩
  | .symbol .minus => some ⟨.operand, .unary t :: pending⟩
  | .symbol .bang => some ⟨.operand, .unary t :: pending⟩
  | _ => absentOperand? t pending

/-- A word after a complete expression, whose operators have been closed. -/
def endExpression? (t : Token) (e : Node) : List Pending → Option Reader
  | .group first :: rest =>
    if t.kind = .symbol .rightParen then
      some ⟨.operator (.tree .grouping [e] (first.through t.place)) none, rest⟩
    else none
  | .arguments callee items :: rest =>
    if t.kind = .symbol .comma then some ⟨.operand, .arguments callee (e :: items) :: rest⟩
    else if t.kind = .symbol .rightParen then
      some ⟨.operator (callNode callee (e :: items) t) none, rest⟩
    else none
  | .expression :: rest =>
    if t.kind = .symbol .semicolon then
      some ⟨.next (.tree .expressionStmt [e] (e.place.through t.place)) false, rest⟩
    else none
  | .print first :: rest =>
    if t.kind = .symbol .semicolon then
      some ⟨.next (.tree .printStmt [e] (first.through t.place)) false, rest⟩
    else none
  | .result first :: rest =>
    if t.kind = .symbol .semicolon then
      some ⟨.next (.tree .returnStmt [e] (first.through t.place)) false, rest⟩
    else none
  | .initializer first name :: rest =>
    if t.kind = .symbol .semicolon then
      some ⟨.next (.tree .variableDecl [name.node, e] (first.through t.place)) true, rest⟩
    else none
  | .ifTest first :: rest =>
    if t.kind = .symbol .rightParen then some ⟨.statement, .thenBranch first e :: rest⟩
      else none
  | .whileTest first :: rest =>
    if t.kind = .symbol .rightParen then some ⟨.statement, .whileBody first e :: rest⟩ else none
  | .forTest first init :: rest =>
    if t.kind = .symbol .semicolon then some ⟨.operand, .forStep first init e :: rest⟩ else none
  | .forStep first init test :: rest =>
    if t.kind = .symbol .rightParen then some ⟨.statement, .forBody first init test e :: rest⟩
    else none
  | _ => none

/-- A word after an operand. -/
def operator? (t : Token) (left : Node) (target : Option Token) (pending : List Pending) :
    Option Reader :=
  match t.kind.level? with
  | some level =>
    let (left, pending) := closeOperators level left pending
    some ⟨.operand, .binary left t :: pending⟩
  | none =>
    if t.kind = .symbol .leftParen then some ⟨.operand, .arguments left [] :: pending⟩
    else if t.kind = .symbol .equal then
      target.map fun name => ⟨.operand, .assign name :: pending⟩
    else
      let (e, pending) := closeOperators 0 left pending
      endExpression? t e pending

/-- A word where a statement is expected. -/
def statement? (t : Token) (pending : List Pending) : Option Reader :=
  match t.kind with
  | .keyword .printWord => some ⟨.operand, .print t.place :: pending⟩
  | .keyword .returnWord => some ⟨.operand, .result t.place :: pending⟩
  | .keyword .ifWord => some ⟨.opening .ifHead t.place, pending⟩
  | .keyword .whileWord => some ⟨.opening .whileHead t.place, pending⟩
  | .keyword .forWord => some ⟨.opening .forHead t.place, pending⟩
  | .symbol .leftBrace => some ⟨.item, .block t.place none [] :: pending⟩
  | _ => operand? t (.expression :: pending)

/-- A word where a declaration, a statement or the end of a block is expected. -/
def item? (t : Token) (pending : List Pending) : Option Reader :=
  match t.kind with
  | .keyword .funWord => some ⟨.functionName t.place, pending⟩
  | .keyword .varWord => some ⟨.variableName t.place, pending⟩
  | .symbol .rightBrace =>
    match pending with
    | .block first header items :: rest =>
      some ⟨.next (blockNode first header items t) false, rest⟩
    | _ => none
  | _ => statement? t pending

/-- A word after the end of a statement, which is attached to the construct it stands in. -/
def next? (t : Token) (ended : Node) (pending : List Pending) : Option Reader :=
  let beforeElse := t.kind == .keyword .elseWord
  match closeStatements beforeElse ended pending with
  | (ended, .program items :: rest) => item? t (.program (ended :: items) :: rest)
  | (ended, .block first header items :: rest) =>
    item? t (.block first header (ended :: items) :: rest)
  | (ended, .thenBranch first test :: rest) =>
    some ⟨.statement, .elseBranch first test ended :: rest⟩
  | (ended, .forInit first :: rest) =>
    operand? t (.forTest first (.tree .forClause [ended] ended.place) :: rest)
  | _ => none

/-- A word at the beginning of the first clause of a `for`. -/
def clause? (t : Token) : List Pending → Option Reader
  | .forInit first :: rest =>
    match t.kind with
    | .keyword .varWord => some ⟨.variableName t.place, .forInit first :: rest⟩
    | .symbol .semicolon =>
      some ⟨.operand, .forTest first (.tree .forClause [] t.place) :: rest⟩
    | _ => operand? t (.expression :: .forInit first :: rest)
  | _ => none

/-- The effect of one word, unless no program can have it here. -/
def step? (r : Reader) (t : Token) : Option Reader :=
  match r.expecting with
  | .item => item? t r.pending
  | .next ended _ => next? t ended r.pending
  | .statement => statement? t r.pending
  | .clause => clause? t r.pending
  | .operand => operand? t r.pending
  | .operator left target => operator? t left target r.pending
  | .opening head first =>
    if t.kind = .symbol .leftParen then
      match head with
      | .ifHead => some ⟨.operand, .ifTest first :: r.pending⟩
      | .whileHead => some ⟨.operand, .whileTest first :: r.pending⟩
      | .forHead => some ⟨.clause, .forInit first :: r.pending⟩
    else none
  | .variableName first =>
    if t.kind = .identifier then some ⟨.variableRest first t, r.pending⟩ else none
  | .variableRest first name =>
    if t.kind = .symbol .equal then some ⟨.operand, .initializer first name :: r.pending⟩
    else if t.kind = .symbol .semicolon then
      some ⟨.next (.tree .variableDecl [name.node, .absent] (first.through t.place)) true,
        r.pending⟩
    else none
  | .functionName first =>
    if t.kind = .identifier then some ⟨.parametersOpening first t, r.pending⟩ else none
  | .parametersOpening first name =>
    if t.kind = .symbol .leftParen then some ⟨.firstParameter first name, r.pending⟩ else none
  | .firstParameter first name =>
    if t.kind = .identifier then some ⟨.parameterRest first name [t], r.pending⟩
    else if t.kind = .symbol .rightParen then some ⟨.body ⟨first, name, .absent⟩, r.pending⟩
    else none
  | .nextParameter first name items =>
    if t.kind = .identifier then some ⟨.parameterRest first name (t :: items), r.pending⟩
      else none
  | .parameterRest first name items =>
    if t.kind = .symbol .comma then some ⟨.nextParameter first name items, r.pending⟩
    else if t.kind = .symbol .rightParen then
      some ⟨.body ⟨first, name, listNode .parameters (items.reverse.map Token.node)⟩,
        r.pending⟩
    else none
  | .body header =>
    if t.kind = .symbol .leftBrace
      then some ⟨.item, .block t.place (some header) [] :: r.pending⟩
    else none

/-- The tree of the whole text, unless something has begun and not ended. -/
def finish? (r : Reader) : Option Node :=
  match r.expecting with
  | .item =>
    match r.pending with
    | [.program items] => some (listNode .program items.reverse)
    | _ => none
  | .next ended _ =>
    match closeStatements false ended r.pending with
    | (ended, [.program items]) => some (listNode .program (ended :: items).reverse)
    | _ => none
  | _ => none

end Reader

end Source

end LoxLang
