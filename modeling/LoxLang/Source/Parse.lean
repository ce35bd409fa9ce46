import LoxLang.Node.Lower
import LoxLang.Source.Reader

/-!
# From text to trees

* `ParseError`: where and at what reading stopped.
* `parseRaw`: the tree of a source text as it is written.
* `parse`: the same with its loops in the form that is run.
-/

set_option autoImplicit false

namespace LoxLang

/-- Why a text is no program. -/
inductive ParseError where
  /-- A word that no program has at its place. -/
  | unexpectedToken (token : Token)
  /-- The text ends too early; the position is the one of its last word. -/
  | unexpectedEnd (position : Position)
  /-- A character that begins no word. -/
  | unexpectedCharacter (position : Position) (character : Char)
deriving DecidableEq, Repr

namespace Source

/-- The token at a position. -/
def tokenAt (p : Position) (kind : Terminal) (text : List Char) : Token :=
  ⟨kind, String.ofList text, p, p.advanceBy text⟩

/-- The error at a character where none of the expected terminals stands: the word there, if it is
one at all. -/
def errorAt (p : Position) (c : Char) (cs : List Char) : ParseError :=
  match lexeme? (fun _ => true) cs with
  | some (kind, text) => .unexpectedToken (tokenAt p kind text)
  | none => .unexpectedCharacter p c

/-- Reads the rest of a text. The position of the last word read is `last`. -/
def readFrom (r : Reader) (last p : Position) (cs : List Char) : Except ParseError Node :=
  match hskip : skip false p cs with
  | (_, []) =>
    match r.finish? with
    | some node => .ok node
    | none => .error (.unexpectedEnd last)
  | (q, c :: rest) =>
    match hlex : lexeme? r.expecting.admits (c :: rest) with
    | none => .error (errorAt q c (c :: rest))
    | some (kind, text) =>
      let token := tokenAt q kind text
      match r.step? token with
      | none => .error (.unexpectedToken token)
      | some r =>
        have : ((c :: rest).drop text.length).length < cs.length :=
          Nat.lt_of_lt_of_le (length_drop_lexeme_lt hlex)
            (by simpa [hskip] using length_skip_le false p cs)
        readFrom r q token.stop ((c :: rest).drop text.length)
termination_by cs.length
decreasing_by assumption

end Source

/-- The tree of a source text as it is written. -/
def parseRaw (source : String) : Except ParseError Node :=
  Source.readFrom .init .first .first source.toList

/-- The tree of a source text in the form that is run. -/
def parse (source : String) : Except ParseError Node := (parseRaw source).map Node.lower

end LoxLang
