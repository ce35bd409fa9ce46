import LoxLang.Fault
import LoxLang.Store

/-!
# Actions of a run

A run works on a state: the frames, what has been printed and logged, and how many calls are active.
An action ends with a result, with a failure, or because its fuel ran out; the first two leave a
state.

* `Host`: what stays the same during a run, and the limit that a program needs for the stack of the
  host.
* `State`: what changes.
* `Ending`, `Action`: actions and how they end, with `pure` and `bind`.
* the primitive actions, from `lookup` to `nested`.
-/

set_option autoImplicit false

namespace LoxLang

/-- The stack of the host when a program begins. -/
structure HostStack where
  /-- How many frames it may hold. -/
  limit : Nat
  /-- How many frames it holds. -/
  used : Nat

/-- What stays the same during a run. The frames of the host are not counted: where its stack gives
out during a run is said by `printFails` and by the native function that exhausts it. -/
structure Host where
  /-- The frame of the global names. -/
  globals : FrameId
  /-- How many calls may be active. -/
  maxDepth : Int
  /-- The stack of the host when a program begins. -/
  stack : HostStack
  /-- Whether the stack of the host is exhausted at the `n`-th attempt to print, counted from
  zero. -/
  printFails : Nat → Bool
  /-- The `n`-th reading of the clock, counted from zero. -/
  clock : Nat → Float

namespace Host

/-- How many frames of the host are set aside for each call that may be active. -/
def framesPerCall : Int := 40

/-- The limit of the stack of the host under which a program runs. -/
def stackLimit (host : Host) : Int := host.stack.limit + host.maxDepth * framesPerCall

/-- The largest limit that the host knows. Its integers have 32 bits. -/
def largestLimit : Int := 2147483647

/-- How setting the limit for a program fails, if it does: the limit has to be an integer of the
host, positive, and above what the stack holds already. -/
def refusal? (host : Host) : Option Failure :=
  if host.stackLimit < -largestLimit - 1 ∨ largestLimit < host.stackLimit
    then some (.refused .tooWide)
  else if host.stackLimit < 1 then some (.refused .notPositive)
  else if host.stackLimit ≤ host.stack.used then some .exhausted
  else none

/-- The limit for a program is one that the host accepts, if the stack is not yet that full. -/
def InRange (host : Host) : Prop := 1 ≤ host.stackLimit ∧ host.stackLimit ≤ largestLimit

instance (host : Host) : Decidable host.InRange :=
  inferInstanceAs (Decidable (1 ≤ host.stackLimit ∧ host.stackLimit ≤ largestLimit))

/-- A limit in range is refused only because the stack is too full already. -/
theorem refusal?_of_inRange {host : Host} (h : host.InRange) :
    host.refusal? = if host.stackLimit ≤ host.stack.used then some .exhausted else none := by
  unfold InRange largestLimit at h
  unfold refusal? largestLimit
  rw [if_neg (by omega), if_neg (by omega)]

theorem InRange.not_refused {host : Host} (h : host.InRange) (reason : LimitError) :
    host.refusal? ≠ some (.refused reason) := by
  rw [refusal?_of_inRange h]
  split <;> nofun

/-- A limit out of range is refused whatever the stack holds. -/
theorem refusal?_of_not_inRange {host : Host} (h : ¬ host.InRange) :
    ∃ reason, host.refusal? = some (.refused reason) := by
  unfold InRange largestLimit at h
  unfold refusal? largestLimit
  split
  · exact ⟨_, rfl⟩
  · rw [if_pos (by omega)]
    exact ⟨_, rfl⟩

/-- The ways in which setting the limit fails. -/
theorem refusal?_cases {host : Host} {e : Failure} (h : host.refusal? = some e) :
    e = .exhausted ∨ ∃ reason, e = .refused reason := by
  by_cases range : host.InRange
  · rw [refusal?_of_inRange range] at h
    split at h
    · exact .inl (Option.some.inj h).symm
    · cases h
  · obtain ⟨reason, refused⟩ := refusal?_of_not_inRange range
    exact .inr ⟨reason, Option.some.inj (h.symm.trans refused)⟩

end Host

/-- What a run notes down about itself. -/
inductive Record where
  /-- A source text of the given length is run. -/
  | running (length : Nat)
  /-- A program of the given number of statements is run. -/
  | interpreting (count : Nat)
  /-- The limit of the stack of the host was raised for a program. -/
  | raisedLimit (previous : Nat) (limit : Int)
  /-- A function was declared. -/
  | declared (name : String) (arity : Nat)
  /-- A call was refused because as many calls as allowed are active. -/
  | limitHit (limit : Int) (callee : Value)
  /-- The stack of the host was exhausted inside a call. -/
  | exhausted (depth : Nat)

/-- The text of a record. -/
def Record.message : Record → String
  | .running length => "running " ++ toString length ++ " chars of source"
  | .interpreting count => "interpreting " ++ toString count ++ " top-level statements"
  | .raisedLimit previous limit =>
    "host recursion limit " ++ toString previous ++ " -> " ++ toString limit
  | .declared name arity => "declared fn " ++ name ++ "/" ++ toString arity
  | .limitHit limit callee =>
    "call depth limit " ++ toString limit ++ " hit calling " ++ callee.shown
  | .exhausted depth => "host stack exhausted at call depth " ++ toString depth

/-- What changes during a run. -/
structure State where
  store : Store
  /-- The next mark for a function or a NaN; the mark of divisions by zero is never given out. -/
  nextMark : Nat := Number.divisionMark + 1
  /-- How many calls are active. -/
  depth : Nat := 0
  /-- The values that have been printed. -/
  printed : Array Value := #[]
  /-- How often printing was attempted. -/
  attempts : Nat := 0
  /-- How often the clock was read. -/
  readings : Nat := 0
  /-- What has been noted down. -/
  log : Array Record := #[]

/-- How an action ends. -/
inductive Ending (α : Type) where
  | done (result : α) (state : State)
  | failed (failure : Failure) (state : State)
  | outOfFuel

/-- The state that a run leaves, unless its fuel ran out. -/
def Ending.state? {α : Type} : Ending α → Option State
  | .done _ t => some t
  | .failed _ t => some t
  | .outOfFuel => none

/-- A step of a run. -/
abbrev Action (α : Type) := State → Ending α

namespace Action

variable {α β : Type}

/-- Gives a result and changes nothing. -/
@[always_inline, inline] def pure (a : α) : Action α := fun s => .done a s

/-- One action after another. -/
@[always_inline, inline] def bind (act : Action α) (next : α → Action β) : Action β :=
  fun s =>
  match act s with
  | .done a s => next a s
  | .failed f s => .failed f s
  | .outOfFuel => .outOfFuel

@[always_inline]
instance : Monad Action where
  pure := Action.pure
  bind := Action.bind

@[simp] theorem pure_apply (a : α) (s : State) : (Pure.pure a : Action α) s = .done a s := rfl

@[simp] theorem bind_apply (act : Action α) (next : α → Action β) (s : State) :
    (act >>= next) s =
      match act s with
      | .done a s => next a s
      | .failed f s => .failed f s
      | .outOfFuel => .outOfFuel := rfl

/-- Stops with a failure. -/
def fail (failure : Failure) : Action α := fun s => .failed failure s

/-- Stops with a fault whose location is not yet known. -/
def raise (cause : Fault) : Action α := fail (.of cause)

/-- The result of a pure computation. -/
def ofExcept : Except Fault α → Action α
  | .ok a => pure a
  | .error cause => raise cause

/-- Stops for want of fuel. -/
def starve : Action α := fun _ => .outOfFuel

/-- Gives the faults of an action the place of the node that it runs. -/
@[inline] def locate (place : Place) (act : Action α) : Action α := fun s =>
  match act s with
  | .failed f s => .failed (f.locate place) s
  | ending => ending

/-! ## Variables -/

/-- The value of a variable. -/
def lookup (f : FrameId) (name : String) : Action Value := fun s =>
  match s.store.get? f name with
  | some v => .done v s
  | none => .failed (.of (.undefinedVariable name)) s

/-- Declares a variable in a frame. -/
def define (f : FrameId) (name : String) (v : Value) : Action Unit := fun s =>
  .done () { s with store := s.store.define f name v }

/-- Declares several variables in a frame, one after the other. -/
def defineAll (f : FrameId) (bindings : Bindings) : Action Unit := fun s =>
  .done () { s with store := s.store.defineAll f bindings }

/-- Changes a variable. -/
def assign (f : FrameId) (name : String) (v : Value) : Action Unit := fun s =>
  match s.store.resolve f name with
  | some owner => .done () { s with store := s.store.define owner name v }
  | none => .failed (.of (.undefinedVariable name)) s

theorem assign_eq (f : FrameId) (name : String) (v : Value) (s : State) :
    assign f name v s =
      match s.store.assign? f name v with
      | some store => .done () { s with store := store }
      | none => .failed (.of (.undefinedVariable name)) s := by
  unfold assign Store.assign?
  cases s.store.resolve f name with
  | none => rfl
  | some owner => rfl

/-- Makes a frame inside another. -/
def enterFrame (f : FrameId) : Action FrameId := fun s =>
  .done s.store.size { s with store := s.store.child f }

/-- A mark that no other function or NaN has. -/
def freshMark : Action Nat := fun s =>
  .done s.nextMark { s with nextMark := s.nextMark + 1 }

/-! ## The world outside -/

/-- Prints a value, unless that exhausts the stack of the host. -/
def print (host : Host) (v : Value) : Action Unit := fun s =>
  let s := { s with attempts := s.attempts + 1 }
  if host.printFails (s.attempts - 1) then .failed .exhausted s
  else .done () { s with printed := s.printed.push v }

/-- Notes something down. -/
def record (r : Record) : Action Unit := fun s => .done () { s with log := s.log.push r }

/-- Sets the limit of the stack of the host for a program. The limit before is back when the program
has ended, so that the next one finds the same stack. -/
def raiseLimit (host : Host) : Action Unit :=
  match host.refusal? with
  | some failure => fail failure
  | none => record (.raisedLimit host.stack.limit host.stackLimit)

/-- Reads the clock. -/
def readClock (host : Host) : Action Float := fun s =>
  .done (host.clock s.readings) { s with readings := s.readings + 1 }

/-! ## Calls -/

/-- How many calls are active. -/
def activeCalls : Action Nat := fun s => .done s.depth s

/-- Runs an action as a call, one deeper than what is active. However the action ends, the depth is
then the one before. Inside a call, exhaustion of the host is a fault of the call. -/
@[inline] def nested (act : Action α) : Action α := fun s =>
  match act { s with depth := s.depth + 1 } with
  | .done a s => .done a { s with depth := s.depth - 1 }
  | .failed .exhausted s =>
    .failed (.of (.hostExhausted s.depth))
      { s with log := s.log.push (.exhausted s.depth), depth := s.depth - 1 }
  | .failed f s => .failed f { s with depth := s.depth - 1 }
  | .outOfFuel => .outOfFuel

end Action

end LoxLang
