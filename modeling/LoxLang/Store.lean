import LoxLang.Value

/-!
# Frames

A frame holds the names declared in one block, call or program, in the order of their first
declaration, and refers to the frame around it. Frames live in a store and are referred to by their
number, so closures and blocks that refer to one frame see each other's assignments. A frame is made
after the one around it.

* `Bindings`: names with values; `Bindings.set` keeps the place of a name that is bound already.
* `Store`: all frames; `Store.child` adds one.
* `Store.resolve`: the nearest frame that binds a name; `Store.get?`, `Store.assign?`,
  `Store.define`: reading and writing variables.
* `Store.withGlobals`: a store with the globals of one more program.
* `Store.shown`: a frame and the frames around it, written out.
-/

set_option autoImplicit false

namespace LoxLang

/-- Names with their values, in the order in which they were first bound. -/
abbrev Bindings := List (String × Value)

namespace Bindings

/-- The value of a name. -/
def get? (b : Bindings) (name : String) : Option Value := List.lookup name b

/-- Binds a name; a name that is bound already keeps its place. -/
def set (name : String) (v : Value) : Bindings → Bindings
  | [] => [(name, v)]
  | (n, w) :: rest => if n = name then (name, v) :: rest else (n, w) :: set name v rest

/-- Whether a name is bound. -/
def binds (b : Bindings) (name : String) : Bool := b.any (·.1 == name)

end Bindings

/-- The names declared in one scope, and the scope around it. -/
structure Frame where
  parent : Option FrameId
  vars : Bindings

/-- All frames, in the order in which they were made. -/
structure Store where
  frames : Array Frame

namespace Store

/-- No frames. -/
def empty : Store := ⟨#[]⟩

/-- The frame with a given number. -/
def frame? (s : Store) (f : FrameId) : Option Frame := s.frames[f]?

/-- The names bound directly in a frame. -/
def vars (s : Store) (f : FrameId) : Bindings :=
  match s.frame? f with
  | some frame => frame.vars
  | none => []

/-- How many frames there are, which is the number of the next one. -/
def size (s : Store) : Nat := s.frames.size

/-- Adds a frame without one around it. -/
def root (s : Store) : Store := ⟨s.frames.push ⟨none, []⟩⟩

/-- Adds a frame inside the frame `f`. -/
def child (s : Store) (f : FrameId) : Store := ⟨s.frames.push ⟨some f, []⟩⟩

/-- The frame around a frame, which was made before it. -/
def outer? (s : Store) (f : FrameId) : Option FrameId :=
  match s.frame? f with
  | some ⟨some p, _⟩ => if p < f then some p else none
  | _ => none

theorem outer_lt {s : Store} {f p : FrameId} (h : s.outer? f = some p) : p < f := by
  unfold outer? at h
  split at h
  · split at h
    · rename_i hlt
      exact Option.some.inj h ▸ hlt
    · cases h
  · cases h

/-- The nearest frame that binds a name. -/
def resolve (s : Store) (f : FrameId) (name : String) : Option FrameId :=
  if (s.vars f).binds name then some f
  else
    match h : s.outer? f with
    | some p =>
      have := outer_lt h
      s.resolve p name
    | none => none
termination_by f

/-- The value of a name. -/
def get? (s : Store) (f : FrameId) (name : String) : Option Value :=
  match s.resolve f name with
  | some owner => (s.vars owner).get? name
  | none => none

/-- Binds a name in a frame. -/
def define (s : Store) (f : FrameId) (name : String) (v : Value) : Store :=
  ⟨s.frames.modify f fun frame => ⟨frame.parent, frame.vars.set name v⟩⟩

/-- Changes the value of a name in the nearest frame that binds it. -/
def assign? (s : Store) (f : FrameId) (name : String) (v : Value) : Option Store :=
  match s.resolve f name with
  | some owner => some (s.define owner name v)
  | none => none

/-- Binds several names in a frame, one after the other. -/
def defineAll (s : Store) (f : FrameId) (bindings : Bindings) : Store :=
  bindings.foldl (fun s (name, v) => s.define f name v) s

/-- Adds a frame without one around it that binds the given native functions by their names. -/
def withGlobals (s : Store) (natives : List Native) : Store :=
  s.root.defineAll s.size (natives.map fun n => (n.name, .native n))

/-! ## Frames written out -/

/-- The names of a frame with their values. -/
def shownVars (b : Bindings) : String :=
  "\x7b" ++ ", ".intercalate (b.map fun (name, v) => name ++ ": " ++ v.shown) ++ "\x7d"

/-- A frame and the frames around it. -/
def shownChain (s : Store) (f : FrameId) : List String :=
  shownVars (s.vars f) ::
    match h : s.outer? f with
    | some p =>
      have := outer_lt h
      s.shownChain p
    | none => []
termination_by f

/-- A frame written out with all frames around it. -/
def shown (s : Store) (f : FrameId) : String :=
  "<Frame " ++ " -> ".intercalate (s.shownChain f) ++ ">"

end Store

end LoxLang
