/-!
# Places in a source text

* `Position`: a line and a column, both counted from one; `Position.advance` moves over one
  character.
* `Place`: what is known about where a node stands.
* `Location`: the line, and perhaps the column, that an error reports.
-/

set_option autoImplicit false

namespace LoxLang

/-- A place between two characters of a text. -/
structure Position where
  line : Nat
  column : Nat
deriving DecidableEq, Repr

namespace Position

/-- Where a text begins. -/
def first : Position := ⟨1, 1⟩

/-- The position after a character; only a line feed begins a new line. -/
def advance (p : Position) (c : Char) : Position :=
  if c = '\n' then ⟨p.line + 1, 1⟩ else ⟨p.line, p.column + 1⟩

/-- The position after a run of characters. -/
def advanceBy (p : Position) (cs : List Char) : Position := cs.foldl advance p

end Position

/-- The line and perhaps the column that an error points at. They are those of a node, and a node
made by hand may name any integers. -/
structure Location where
  line : Int
  column : Option Int
deriving DecidableEq, Repr

/-- What is known about the place of a node: nothing, its line, where it begins, or the part of a
text that it was read from. -/
inductive Place where
  | unknown
  | onLine (line : Int)
  | startsAt (line column : Int)
  | span (start stop : Position)
deriving DecidableEq, Repr

namespace Place

/-- The location of a place, if its line is known. -/
def location? : Place → Option Location
  | .unknown => none
  | .onLine line => some ⟨line, none⟩
  | .startsAt line column => some ⟨line, some column⟩
  | .span start _ => some ⟨start.line, some start.column⟩

/-- The place from the beginning of one span to the end of another. -/
def through : Place → Place → Place
  | .span start _, .span _ stop => .span start stop
  | _, _ => .unknown

end Place

end LoxLang
