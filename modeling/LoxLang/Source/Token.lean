import LoxLang.Node
import LoxLang.Text.Blank
import LoxLang.Text.Digit

/-!
# Words of a source text

The words are read one at a time, and only against the terminals that can stand at their place: a
reserved word that cannot stand there is an identifier, and of two operators with a common beginning
the longer one that can stand there is read.

* `Token`: a word of the text with its kind and its place.
* `skip`: what remains after blanks and comments.
* `lexeme?`: the word at the beginning of a text, among the terminals of a given class.
* `length_drop_lexeme_lt`: reading a word makes the text shorter.
-/

set_option autoImplicit false

namespace LoxLang

/-- A word of a source text. -/
structure Token where
  kind : Terminal
  text : String
  start : Position
  stop : Position
deriving DecidableEq, Repr

namespace Token

/-- Where a token stands. -/
def place (t : Token) : Place := .span t.start t.stop

/-- A token as a leaf of a tree. -/
def node (t : Token) : Node := .word (.terminal t.kind) t.text t.place

end Token

namespace Source

/-! ## What is not read -/

/-- The text after blanks and comments, and its position. A comment runs from two slashes to the end
of the line; `inComment` says whether one has begun. -/
def skip (inComment : Bool) (p : Position) : List Char → Position × List Char
  | [] => (p, [])
  | c :: rest =>
    if inComment then skip (c != '\n') (p.advance c) rest
    else if Text.isBlank c then skip false (p.advance c) rest
    else if c = '/' && rest.head? == some '/' then skip true (p.advance c) rest
    else (p, c :: rest)

/-! ## What is read -/

/-- Whether a character may begin a name. -/
def isNameStart (c : Char) : Bool := c.isAlpha || c == '_'

/-- Whether a character may stand in a name. -/
def isNameChar (c : Char) : Bool := c.isAlphanum || c == '_'

/-- A name or reserved word. Where names can stand, the longest one is taken; elsewhere a reserved
word is read even if more letters follow it. -/
def word? (admits : Terminal → Bool) (cs : List Char) : Option (Terminal × List Char) :=
  if admits .identifier then
    let name := cs.takeWhile isNameChar
    match Keyword.ofText? (String.ofList name) with
    | some k => some (if admits (.keyword k) then .keyword k else .identifier, name)
    | none => some (.identifier, name)
  else
    (Keyword.all.find? fun k => admits (.keyword k) && k.text.toList.isPrefixOf cs).map
      fun k => (.keyword k, k.text.toList)

/-- Digits, and a point and more digits if both follow. -/
def number? (admits : Terminal → Bool) (cs : List Char) : Option (Terminal × List Char) :=
  if admits .number then
    let whole := cs.takeWhile Text.isDigit
    match cs.dropWhile Text.isDigit with
    | '.' :: rest =>
      let fraction := rest.takeWhile Text.isDigit
      some (.number, if fraction.isEmpty then whole else whole ++ '.' :: fraction)
    | _ => some (.number, whole)
  else none

/-- A text between quotation marks, which may run over several lines. -/
def string? (admits : Terminal → Bool) (cs : List Char) : Option (Terminal × List Char) :=
  let inside := (cs.drop 1).takeWhile (· != '"')
  if admits .string && ((cs.drop 1).drop inside.length).head? == some '"' then
    some (.string, '"' :: (inside ++ ['"']))
  else none

/-- The longest symbol. -/
def symbol? (admits : Terminal → Bool) (cs : List Char) : Option (Terminal × List Char) :=
  (Symbol.all.find? fun m => admits (.symbol m) && m.text.toList.isPrefixOf cs).map
    fun m => (.symbol m, m.text.toList)

/-- The word at the beginning of a text, read against the terminals that `admits` allows. -/
def lexeme? (admits : Terminal → Bool) : List Char → Option (Terminal × List Char)
  | [] => none
  | c :: rest =>
    if isNameStart c then word? admits (c :: rest)
    else if Text.isDigit c then number? admits (c :: rest)
    else if c = '"' then string? admits (c :: rest)
    else symbol? admits (c :: rest)

/-! ## Reading makes the text shorter -/

theorem length_skip_le (inComment : Bool) (p : Position) (cs : List Char) :
    (skip inComment p cs).2.length ≤ cs.length := by
  induction cs generalizing inComment p with
  | nil => simp [skip]
  | cons c rest ih =>
    simp only [skip]
    split
    · exact Nat.le_succ_of_le (ih _ _)
    · split
      · exact Nat.le_succ_of_le (ih _ _)
      · split
        · exact Nat.le_succ_of_le (ih _ _)
        · simp

theorem isNameChar_of_start {c : Char} (h : isNameStart c = true) : isNameChar c = true := by
  simp only [isNameStart, isNameChar, Bool.or_eq_true, Char.isAlphanum] at h ⊢
  exact h.elim (fun h => .inl (.inl h)) .inr

/-- No word is empty. -/
theorem lexeme_ne_nil {admits : Terminal → Bool} {cs : List Char} {kind : Terminal}
    {text : List Char} (h : lexeme? admits cs = some (kind, text)) : text ≠ [] := by
  cases cs with
  | nil => simp [lexeme?] at h
  | cons c rest =>
    simp only [lexeme?] at h
    split at h
    · -- a name or a reserved word
      rename_i hc
      have hname := isNameChar_of_start hc
      simp only [word?] at h
      split at h
      · split at h <;> simp only [Option.some.injEq, Prod.mk.injEq] at h <;>
          simp [← h.2, hname]
      · obtain ⟨k, _, hk⟩ := Option.map_eq_some_iff.1 h
        simp only [Prod.mk.injEq] at hk
        rw [← hk.2]
        cases k <;> decide
    · split at h
      · -- a number
        rename_i hc
        simp only [number?] at h
        split at h
        · split at h
          · simp only [Option.some.injEq, Prod.mk.injEq] at h
            rw [← h.2]
            split <;> simp [hc]
          · simp only [Option.some.injEq, Prod.mk.injEq] at h
            simp [← h.2, hc]
        · simp at h
      · split at h
        · -- a string
          simp only [string?] at h
          split at h
          · simp only [Option.some.injEq, Prod.mk.injEq] at h
            simp [← h.2]
          · simp at h
        · -- a symbol
          obtain ⟨m, _, hm⟩ := Option.map_eq_some_iff.1 h
          simp only [Prod.mk.injEq] at hm
          rw [← hm.2]
          cases m <;> decide

/-- Reading a word makes the text shorter. -/
theorem length_drop_lexeme_lt {admits : Terminal → Bool} {cs : List Char} {kind : Terminal}
    {text : List Char} (h : lexeme? admits cs = some (kind, text)) :
    (cs.drop text.length).length < cs.length := by
  have hcs : cs ≠ [] := by
    rintro rfl
    simp [lexeme?] at h
  have htext := List.length_pos_iff.2 (lexeme_ne_nil h)
  have := List.length_pos_iff.2 hcs
  simp only [List.length_drop]
  omega

end Source

end LoxLang
