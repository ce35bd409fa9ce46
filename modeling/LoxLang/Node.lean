import LoxLang.Source.Position
import LoxLang.Source.Terminal

/-!
# Program trees

A program is a tree of labelled nodes with words at its leaves. Trees come from source text or are
built by hand, so a node may have any label and any number of parts; `LoxLang.Form` says which
shapes mean something.

* `Label`: the constructs of the language, and any other text.
* `Kind`: the kind of a word, and any other text.
* `Node`: a tree, a word, a bare text in place of a node, an optional part that is absent, or a tree
  that was never given a list of parts.
-/

set_option autoImplicit false

namespace LoxLang

/-- What a tree is labelled with. -/
inductive Label where
  | program | functionDecl | parameters | variableDecl | expressionStmt | printStmt | returnStmt
  | ifStmt | whileStmt | forStmt | forClause | block
  | assign | logical | binary | unary | call | arguments | trueLit | falseLit | nilLit
  | reference | grouping
  | other (text : String)
deriving DecidableEq, Repr

namespace Label

/-- The labels that stand for a construct. -/
def constructs : List Label :=
  [.program, .functionDecl, .parameters, .variableDecl, .expressionStmt, .printStmt, .returnStmt,
   .ifStmt, .whileStmt, .forStmt, .forClause, .block, .assign, .logical, .binary, .unary, .call,
   .arguments, .trueLit, .falseLit, .nilLit, .reference, .grouping]

/-- The text of a label. -/
def text : Label → String
  | .program => "program"
  | .functionDecl => "fundecl"
  | .parameters => "params"
  | .variableDecl => "vardecl"
  | .expressionStmt => "exprstmt"
  | .printStmt => "printstmt"
  | .returnStmt => "returnstmt"
  | .ifStmt => "ifstmt"
  | .whileStmt => "whilestmt"
  | .forStmt => "forstmt"
  | .forClause => "forinit"
  | .block => "block"
  | .assign => "assign"
  | .logical => "logical"
  | .binary => "binary"
  | .unary => "unary"
  | .call => "call"
  | .arguments => "args"
  | .trueLit => "true"
  | .falseLit => "false"
  | .nilLit => "nil"
  | .reference => "variable"
  | .grouping => "grouping"
  | .other text => text

/-- The label with a given text. -/
def ofText (s : String) : Label := (constructs.find? (·.text == s)).getD (.other s)

end Label

/-- The kind of a word. -/
inductive Kind where
  | terminal (t : Terminal)
  | other (text : String)
deriving DecidableEq, Repr

namespace Kind

/-- The name of a kind. -/
def name : Kind → String
  | .terminal t => t.name
  | .other text => text

/-- The kind with a given name. -/
def ofName (s : String) : Kind :=
  match Terminal.ofName? s with
  | some t => .terminal t
  | none => .other s

end Kind

/-- A program or a part of one. -/
inductive Node where
  | tree (label : Label) (parts : List Node) (place : Place)
  | word (kind : Kind) (text : String) (place : Place)
  | bare (text : String)
  | absent
  | hollow (label : Label) (place : Place)
deriving Repr

instance : Inhabited Node := ⟨.absent⟩

namespace Node

/-- The label of a tree. -/
def label? : Node → Option Label
  | .tree label _ _ => some label
  | .hollow label _ => some label
  | _ => none

/-- The parts of a tree; other nodes have none. -/
def parts : Node → List Node
  | .tree _ parts _ => parts
  | _ => []

/-- Where a node stands. -/
def place : Node → Place
  | .tree _ _ place => place
  | .word _ _ place => place
  | .hollow _ place => place
  | _ => .unknown

/-- The node itself, unless it marks an optional part that is absent. -/
def present? : Node → Option Node
  | .absent => none
  | node => some node

/-- The kind of a word. -/
def kind? : Node → Option Kind
  | .word kind _ _ => some kind
  | _ => none

/-- The text of an identifier. -/
def identifier? : Node → Option String
  | .word (.terminal .identifier) text _ => some text
  | _ => none

end Node

end LoxLang
