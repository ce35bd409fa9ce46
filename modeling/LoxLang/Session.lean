import LoxLang.Run.Program
import LoxLang.Settings

/-!
# Sessions

A session holds machines that run programs side by side. Each machine has its own globals, limit,
output and depth of calls; all share one store, so a function can be handed from one machine to
another and keeps the frame it was declared in.

* `Machine`: what belongs to one machine.
* `Session`: the machines, what they share, and the native functions that a new machine starts with.
* `Session.perform`: an action on one of the machines.
* `Given`, `Session.take`: values that come from outside.
-/

set_option autoImplicit false

namespace LoxLang

/-- What belongs to one machine. -/
structure Machine where
  globals : FrameId
  maxDepth : Int
  printFails : Nat → Bool
  depth : Nat := 0
  printed : Array Value := #[]
  attempts : Nat := 0

/-- Machines and what they share. -/
structure Session where
  clock : Nat → Float
  /-- The stack of the host when a program begins. -/
  stack : HostStack
  /-- The native functions of new machines, in the order of their first registration. -/
  natives : List Native
  machines : Array Machine
  store : Store
  nextMark : Nat
  readings : Nat
  log : Array Record

/-- How an action on a machine ended. -/
inductive Answer (α : Type) where
  | result (value : α)
  | failure (failure : Failure)
  | outOfFuel

/-- A value that comes from outside: a function from outside has an empty body. -/
inductive Given where
  | nil
  | bool (b : Bool)
  | number (x : Float)
  | string (s : String)
  | native (f : Native)
  | function (name : String) (params : List String)

namespace Session

/-- A session without machines. -/
def start (clock : Nat → Float) (stack : HostStack) : Session where
  clock := clock
  stack := stack
  natives := builtins
  machines := #[]
  store := .empty
  nextMark := Number.divisionMark + 1
  readings := 0
  log := #[]

/-- Makes a native function known to the machines made later; it takes the place of one with the
same name. -/
def register (s : Session) (native : Native) : Session :=
  if s.natives.any (·.name == native.name) then
    { s with natives := s.natives.map fun n => if n.name = native.name then native else n }
  else { s with natives := s.natives ++ [native] }

/-- Adds a machine whose globals are the native functions. -/
def addMachine (s : Session) (maxDepth : Int) (printFails : Nat → Bool) : Session :=
  { s with
    store := s.store.withGlobals s.natives
    machines := s.machines.push
      { globals := s.store.size, maxDepth := maxDepth, printFails := printFails } }

/-- The host of a machine. -/
def host (s : Session) (m : Machine) : Host :=
  ⟨m.globals, m.maxDepth, s.stack, m.printFails, s.clock⟩

/-- The state in which a machine starts to work. -/
def stateOf (s : Session) (m : Machine) : State where
  store := s.store
  nextMark := s.nextMark
  depth := m.depth
  printed := m.printed
  attempts := m.attempts
  readings := s.readings
  log := s.log

/-- The session after machine number `i`, which was `m`, has worked. -/
def update (s : Session) (i : Nat) (m : Machine) (t : State) : Session :=
  { s with
    store := t.store
    nextMark := t.nextMark
    readings := t.readings
    log := t.log
    machines :=
      s.machines.setIfInBounds i
        { m with depth := t.depth, printed := t.printed, attempts := t.attempts } }

/-- What became of an action that machine number `i`, which was `m`, has performed. -/
def settle {α : Type} (s : Session) (i : Nat) (m : Machine) : Ending α → Answer α × Session
  | .done a t => (.result a, s.update i m t)
  | .failed f t => (.failure f, s.update i m t)
  | .outOfFuel => (.outOfFuel, s)

/-- Performs an action on machine number `i`. -/
def perform {α : Type} (s : Session) (i : Nat) (act : Host → Action α) :
    Option (Answer α × Session) :=
  s.machines[i]?.map fun m => s.settle i m (act (s.host m) (s.stateOf m))

/-- Runs a source text on machine number `i`; a text that is no program changes nothing. -/
def run (s : Session) (i fuel : Nat) (source : String) :
    Option (Except ParseError (Answer Outcome × Session)) :=
  s.machines[i]?.map fun m =>
    (LoxLang.run (s.host m) fuel source (s.stateOf m)).map (s.settle i m)

/-- Sets how many calls may be active on machine number `i`. -/
def setMaxDepth (s : Session) (i : Nat) (maxDepth : Int) : Session :=
  { s with machines := s.machines.modify i ({ · with maxDepth := maxDepth }) }

/-- Makes a value that comes from outside. Each function and each NaN is a new one, and a function
is closed over a new, empty frame. -/
def take (s : Session) : Given → Value × Session
  | .nil => (.nil, s)
  | .bool b => (.bool b, s)
  | .number x => (.number (.ofFloat s.nextMark x), { s with nextMark := s.nextMark + 1 })
  | .string text => (.string text, s)
  | .native f => (.native f, s)
  | .function name params =>
    (.function ⟨name, params, [], s.store.size, s.nextMark⟩,
      { s with store := s.store.root, nextMark := s.nextMark + 1 })

/-- Makes several values that come from outside. -/
def takeAll (s : Session) : List Given → List Value × Session
  | [] => ([], s)
  | g :: rest =>
    let (v, s) := s.take g
    let (vs, s) := s.takeAll rest
    (v :: vs, s)

end Session

end LoxLang
