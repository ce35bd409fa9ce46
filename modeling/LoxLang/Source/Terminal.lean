/-!
# Terminals

The words of the language: thirteen keywords, eighteen symbols, and three classes of words that are
described by a pattern.

* `Keyword.text`, `Symbol.text`: how a fixed word is spelled.
* `Terminal.name`: the name of a terminal in trees and error reports, with its inverse
  `Terminal.ofName?`.
* `Terminal.level?`: how strongly a binary operator binds.
-/

set_option autoImplicit false

namespace LoxLang

/-- The reserved words. -/
inductive Keyword where
  | andWord | orWord | funWord | varWord | printWord | returnWord | ifWord | elseWord | whileWord
  | forWord | trueWord | falseWord | nilWord
deriving DecidableEq, Repr

namespace Keyword

/-- All reserved words. -/
def all : List Keyword :=
  [.andWord, .orWord, .funWord, .varWord, .printWord, .returnWord, .ifWord, .elseWord, .whileWord,
   .forWord, .trueWord, .falseWord, .nilWord]

/-- The spelling of a reserved word. -/
def text : Keyword → String
  | .andWord => "and"
  | .orWord => "or"
  | .funWord => "fun"
  | .varWord => "var"
  | .printWord => "print"
  | .returnWord => "return"
  | .ifWord => "if"
  | .elseWord => "else"
  | .whileWord => "while"
  | .forWord => "for"
  | .trueWord => "true"
  | .falseWord => "false"
  | .nilWord => "nil"

/-- The name of a reserved word as a terminal. -/
def name : Keyword → String
  | .andWord => "AND"
  | .orWord => "OR"
  | .funWord => "FUN"
  | .varWord => "VAR"
  | .printWord => "PRINT"
  | .returnWord => "RETURN"
  | .ifWord => "IF"
  | .elseWord => "ELSE"
  | .whileWord => "WHILE"
  | .forWord => "FOR"
  | .trueWord => "TRUE"
  | .falseWord => "FALSE"
  | .nilWord => "NIL"

/-- The reserved word with a given spelling. -/
def ofText? (s : String) : Option Keyword := all.find? (·.text == s)

end Keyword

/-- Operators and punctuation. -/
inductive Symbol where
  | equalEqual | bangEqual | greaterEqual | lessEqual
  | equal | bang | greater | less | plus | minus | star | slash
  | leftParen | rightParen | leftBrace | rightBrace | comma | semicolon
deriving DecidableEq, Repr

namespace Symbol

/-- All symbols, the longer ones first: where a longer and a shorter one match, the longer is
read. -/
def all : List Symbol :=
  [.equalEqual, .bangEqual, .greaterEqual, .lessEqual, .equal, .bang, .greater, .less, .plus,
   .minus, .star, .slash, .leftParen, .rightParen, .leftBrace, .rightBrace, .comma, .semicolon]

/-- The spelling of a symbol. -/
def text : Symbol → String
  | .equalEqual => "=="
  | .bangEqual => "!="
  | .greaterEqual => ">="
  | .lessEqual => "<="
  | .equal => "="
  | .bang => "!"
  | .greater => ">"
  | .less => "<"
  | .plus => "+"
  | .minus => "-"
  | .star => "*"
  | .slash => "/"
  | .leftParen => "("
  | .rightParen => ")"
  | .leftBrace => "\x7b"
  | .rightBrace => "\x7d"
  | .comma => ","
  | .semicolon => ";"

/-- The name of a symbol as a terminal. -/
def name : Symbol → String
  | .equalEqual => "EQ"
  | .bangEqual => "NE"
  | .greaterEqual => "GE"
  | .lessEqual => "LE"
  | .equal => "EQUAL"
  | .bang => "BANG"
  | .greater => "GT"
  | .less => "LT"
  | .plus => "PLUS"
  | .minus => "MINUS"
  | .star => "STAR"
  | .slash => "SLASH"
  | .leftParen => "LPAR"
  | .rightParen => "RPAR"
  | .leftBrace => "LBRACE"
  | .rightBrace => "RBRACE"
  | .comma => "COMMA"
  | .semicolon => "SEMICOLON"

end Symbol

/-- The kinds of words a source text consists of. -/
inductive Terminal where
  | keyword (word : Keyword)
  | symbol (mark : Symbol)
  | identifier
  | number
  | string
deriving DecidableEq, Repr

namespace Terminal

/-- All terminals. -/
def all : List Terminal :=
  Keyword.all.map .keyword ++ Symbol.all.map .symbol ++ [.identifier, .number, .string]

/-- The name of a terminal. -/
def name : Terminal → String
  | .keyword word => word.name
  | .symbol mark => mark.name
  | .identifier => "IDENT"
  | .number => "NUMBER"
  | .string => "STRING"

/-- The terminal with a given name. -/
def ofName? (s : String) : Option Terminal := all.find? (·.name == s)

/-- How strongly a terminal binds as a binary operator, from `or` (1) to the products (6). -/
def level? : Terminal → Option Nat
  | .keyword .orWord => some 1
  | .keyword .andWord => some 2
  | .symbol .equalEqual => some 3
  | .symbol .bangEqual => some 3
  | .symbol .greater => some 4
  | .symbol .greaterEqual => some 4
  | .symbol .less => some 4
  | .symbol .lessEqual => some 4
  | .symbol .plus => some 5
  | .symbol .minus => some 5
  | .symbol .star => some 6
  | .symbol .slash => some 6
  | _ => none

/-- Whether the terminal is the operator `or` or `and`, which may leave its right operand alone. -/
def isLogical : Terminal → Bool
  | .keyword .orWord => true
  | .keyword .andWord => true
  | _ => false

end Terminal

end LoxLang
