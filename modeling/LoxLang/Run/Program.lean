import LoxLang.Run.Eval
import LoxLang.Source.Parse

/-!
# Running programs

* `builtins`, `State.fresh`: where a program starts.
* `interpret`: runs the statements of a program in the globals frame.
* `run`: parses a source text and runs it; a text that is no program leaves the state alone.
* `outputText`: what printed values look like on paper.
-/

set_option autoImplicit false

namespace LoxLang

/-- The native functions that every program starts with. -/
def builtins : List Native := [⟨"clock", 0, .clock⟩]

/-- The state before the first program: frame zero holds the globals. -/
def State.fresh : State := { store := Store.empty.withGlobals builtins }

/-- Turns exhaustion of the host outside every call into a fault without a location. -/
def Action.outermost {α : Type} (act : Action α) : Action α := fun s =>
  match act s with
  | .failed .exhausted s => .failed (.of (.hostExhausted s.depth)) s
  | ending => ending

/-- Exhaustion of the host has been reported when a program ends. -/
theorem Action.outermost_ne_exhausted {α : Type} (act : Action α) (s t : State) :
    act.outermost s ≠ .failed .exhausted t := by
  unfold Action.outermost
  intro h
  split at h
  · cases h
  · rename_i hne
    exact hne t h

/-- Runs statements in the globals frame, on a stack of the host that is large enough for the calls
that may be active. A `return` outside every function ends the program. -/
def interpret (host : Host) (fuel : Nat) (program : List Node) : Action Outcome :=
  Action.outermost do
    Action.record (.interpreting program.length)
    Action.raiseLimit host
    runAll (fun node => execute host fuel node host.globals) program

/-- If the host refuses the limit for its stack, then nothing of a program is run. -/
theorem interpret_refused {host : Host} {failure : Failure} (h : host.refusal? = some failure)
    (fuel : Nat) (program : List Node) (s : State) :
    interpret host fuel program s =
      Action.outermost
        (Action.fail failure) { s with log := s.log.push (.interpreting program.length) } := by
  unfold interpret Action.raiseLimit
  rw [h]
  rfl

/-- If the host accepts the limit, then that is noted down and the statements are run. -/
theorem interpret_accepted {host : Host} (h : host.refusal? = none) (fuel : Nat)
    (program : List Node) (s : State) :
    interpret host fuel program s =
      Action.outermost (runAll (fun node => execute host fuel node host.globals) program)
        { s with log := (s.log.push (.interpreting program.length)).push
                   (.raisedLimit host.stack.limit host.stackLimit) } := by
  unfold interpret Action.raiseLimit
  rw [h]
  rfl

/-- Runs a source text. -/
def run (host : Host) (fuel : Nat) (source : String) (s : State) :
    Except ParseError (Ending Outcome) := do
  let program ← parse source
  return (do
    Action.record (.running source.length)
    interpret host fuel program.parts : Action Outcome) s

/-- Printed values, each on a line of its own. -/
def outputText (printed : List Value) : String :=
  String.join (printed.map fun v => v.display ++ "\n")

end LoxLang
