import LoxLang.Text.Blank
import LoxLang.Text.Digit

/-!
# Settings

Two settings come from the environment: how many calls may be active, and a grammar file to use in
place of the bundled grammar.

* `readInteger?`: the integer that a numeral of at most 4300 digits stands for.
* `positiveSetting`: a setting that has to be a positive integer.
* `normalizePath`: a path without empty and `.` parts.
* `maxCallDepth`, `grammarFile?`: the two settings.
-/

set_option autoImplicit false

namespace LoxLang.Settings

/-- Names with their texts. -/
abbrev Environment := List (String × String)

/-- How many digits a numeral may have. -/
def digitLimit : Nat := 4300

/-- The integer that a numeral without blanks stands for: a sign, and digits of any script that may
be grouped by underscores. -/
def readInteger? (cs : List Char) : Option Int := do
  let (negative, rest) :=
    match cs with
    | '-' :: rest => (true, rest)
    | '+' :: rest => (false, rest)
    | _ => (false, cs)
  let digits ← Text.joinGroups false (rest.map Text.toAsciiDigit)
  if digits.isEmpty || !digits.all Char.isDigit || digitLimit < digits.length then none
  else
    let n : Int := Text.ofDigits digits
    return if negative then -n else n

/-- A setting that has to be a positive integer; otherwise it is the default. -/
def positiveSetting (env : Environment) (name : String) (default : Int) : Int :=
  match env.lookup name with
  | none => default
  | some raw =>
    match readInteger? (Text.trim Text.isBlank raw.toList) with
    | some n => if 0 < n then n else default
    | none => default

/-- How many calls may be active if nothing else is said. -/
def defaultCallDepth : Int := 200

/-- How many calls may be active. -/
def maxCallDepth (env : Environment) : Int :=
  positiveSetting env "LOX_MAX_CALL_DEPTH" defaultCallDepth

/-- A path without empty and `.` parts. Exactly two slashes at its beginning are kept, any other
number of them is one. -/
def normalizePath (path : String) : String :=
  let slashes := (path.toList.takeWhile (· == '/')).length
  let root := if slashes = 0 then "" else if slashes = 2 then "//" else "/"
  let parts := ((path.splitOn "/").filter fun part => part != "" && part != ".")
  let text := root ++ "/".intercalate parts
  if text = "" then "." else text

/-- The grammar file that the environment names; blanks at its ends do not count. -/
def environmentGrammar? (env : Environment) : Option String :=
  match env.lookup "LOX_GRAMMAR_PATH" with
  | some raw =>
    let path := String.ofList (Text.trim Text.isBlank raw.toList)
    if path = "" then none else some (normalizePath path)
  | none => none

/-- The grammar file to use, if not the bundled grammar. An override that is not empty comes before
the environment, and blanks at its ends count. -/
def grammarFile? (override : Option String) (env : Environment) : Option String :=
  match override with
  | some path => if path = "" then environmentGrammar? env else some (normalizePath path)
  | none => environmentGrammar? env

end LoxLang.Settings
