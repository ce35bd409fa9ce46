import LoxLang.Fault

/-!
# What nodes mean

A node means something as a statement or as an expression when its label is that of a construct and
its parts are those that the construct needs. Everything else has a failure as its meaning. A tree
without a list of parts is not the same as a tree without parts: it fails where it is taken apart.

* `Statement`, `Node.statement`: the statement that a node is.
* `Expression`, `Node.expression`: the expression that a node is.

Only the node itself is looked at; its parts are looked at when they are run.
-/

set_option autoImplicit false

namespace LoxLang

/-- The statements. -/
inductive Statement where
  | expression (value : Node)
  | print (value : Node)
  | declare (name : String) (init : Option Node)
  | block (body : List Node)
  | branch (test yes : Node) (no : Option Node)
  | loop (test body : Node)
  | function (name : String) (params : List String) (body : List Node)
  | result (value : Option Node)
  | invalid (failure : Failure)

/-- The expressions. -/
inductive Expression where
  | constant (value : Value)
  | number (x : Float)
  | reference (name : String)
  | assign (name : String) (value : Node)
  | grouping (inner : Node)
  | unary (op : String) (operand : Node)
  | binary (left : Node) (op : String) (right : Node)
  | logical (left : Node) (op : String) (right : Node)
  | call (callee : Node) (arguments : List Node)
  | invalid (failure : Failure)

/-- The names of a list of parameters, each of which is an identifier. -/
def parameterNames : List Node → Except Fault (List String)
  | [] => .ok []
  | node :: rest =>
    match node.identifier? with
    | none => .error (.unsupportedParameter node)
    | some name => (parameterNames rest).map (name :: ·)

/-- The statements in the body of a function. A block without a list of parts stands for itself
there: it fails when the function is called. -/
def Node.bodyParts (node : Node) : List Node :=
  match node with
  | .hollow .. => [node]
  | node => node.parts

/-- A declared function: an identifier, parameters that may be absent, and a block. -/
def functionStatement (name params body : Node) : Statement :=
  match name.identifier?, body.label? with
  | some name, some .block =>
    match parameterNames params.parts with
    | .ok params => .function name params body.bodyParts
    | .error cause => .invalid (.of cause)
  | _, _ => .invalid (.of .malformedFunction)

/-- The statement that a tree is. -/
def treeStatement (node : Node) : Statement :=
  match node.label?, node.parts with
  | some .expressionStmt, value :: _ => .expression value
  | some .expressionStmt, _ => .invalid .missing
  | some .printStmt, value :: _ => .print value
  | some .printStmt, _ => .invalid .missing
  | some .variableDecl, [name, init] => .declare name.plainText init.present?
  | some .variableDecl, _ => .invalid .malformed
  | some .block, body => .block body
  | some .ifStmt, [test, yes, no] => .branch test yes no.present?
  | some .ifStmt, _ => .invalid .malformed
  | some .whileStmt, [test, body] => .loop test body
  | some .whileStmt, _ => .invalid .malformed
  | some .functionDecl, [name, params, body] => functionStatement name params body
  | some .functionDecl, _ => .invalid .malformed
  | some .returnStmt, value :: _ => .result value.present?
  | some .returnStmt, _ => .result none
  | _, _ => .invalid (.of (.unknownStatement node))

/-- The statement that a tree without a list of parts is. Only a result can do without one. -/
def hollowStatement (node : Node) : Statement :=
  match node.label? with
  | some .expressionStmt | some .printStmt | some .variableDecl | some .block | some .ifStmt
  | some .whileStmt | some .functionDecl => .invalid .hollow
  | some .returnStmt => .result none
  | _ => .invalid (.of (.unknownStatement node))

/-- The statement that a node is. -/
def Node.statement (node : Node) : Statement :=
  match node with
  | .hollow .. => hollowStatement node
  | node => treeStatement node

/-- The text of a string without its quotation marks. -/
def unquoted (text : String) : String :=
  match text.toList with
  | '"' :: rest =>
    if rest.getLast? == some '"' then String.ofList rest.dropLast else text
  | _ => text

/-- The expression that a word is: a number or a string. -/
def wordExpression (kind : Kind) (text : String) : Expression :=
  match kind with
  | .terminal .number =>
    match Number.read? text with
    | some x => .number x
    | none => .invalid .malformed
  | .terminal .string => .constant (.string (unquoted text))
  | _ => .invalid (.of (.unhandledWord kind text))

/-- The expression that a tree is. -/
def treeExpression (node : Node) : Expression :=
  match node.label?, node.parts with
  | some .trueLit, _ => .constant (.bool true)
  | some .falseLit, _ => .constant (.bool false)
  | some .nilLit, _ => .constant .nil
  | some .reference, name :: _ => .reference name.plainText
  | some .reference, _ => .invalid .missing
  | some .assign, [name, value] => .assign name.plainText value
  | some .assign, _ => .invalid .malformed
  | some .grouping, inner :: _ => .grouping inner
  | some .grouping, _ => .invalid .missing
  | some .unary, [op, operand] => .unary op.plainText operand
  | some .unary, _ => .invalid .malformed
  | some .binary, [left, op, right] => .binary left op.plainText right
  | some .binary, _ => .invalid .malformed
  | some .logical, [left, op, right] => .logical left op.plainText right
  | some .logical, _ => .invalid .malformed
  | some .call, [callee, arguments] => .call callee arguments.parts
  | some .call, _ => .invalid .malformed
  | _, _ => .invalid (.of (.unknownExpression node))

/-- The expression that a tree without a list of parts is. Only literals can do without one. -/
def hollowExpression (node : Node) : Expression :=
  match node.label? with
  | some .trueLit => .constant (.bool true)
  | some .falseLit => .constant (.bool false)
  | some .nilLit => .constant .nil
  | some .reference | some .assign | some .grouping | some .unary | some .binary | some .logical
  | some .call => .invalid .hollow
  | _ => .invalid (.of (.unknownExpression node))

/-- The expression that a node is. -/
def Node.expression (node : Node) : Expression :=
  match node with
  | .word kind text _ => wordExpression kind text
  | .hollow .. => hollowExpression node
  | node => treeExpression node

end LoxLang
