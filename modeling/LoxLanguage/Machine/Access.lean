import LoxLanguage.Machine.Basic

/-! Frames as they are read and written through tokens. A name that is bound nowhere is an error at its token; a distance
that leads out of the chain of frames is a fault of its own. -/

namespace LoxLanguage

/-- An operation on the frames of a store: it answers or fails, and leaves a store behind in both cases. -/
abbrev Access := EStateM Fault Store

namespace Access

/-- The value of a name, looked up from `f` outward. -/
def get (f : FrameId) (name : Token) : Access Value := fun s =>
  match s.lookup? f name.lexeme with
  | some v => .ok v s
  | none => .error (.undefinedVariable name) s

/-- Writes to the innermost frame from `f` outward that already binds a name. -/
def assign (f : FrameId) (name : Token) (v : Value) : Access Unit := fun s =>
  match s.assign? f name.lexeme v with
  | some s' => .ok () s'
  | none => .error (.undefinedVariable name) s

/-- The value of a name in the frame at a distance from `f`. -/
def getAt (distance : Nat) (f : FrameId) (name : Token) : Access Value := fun s =>
  match s.valueAt distance f name.lexeme with
  | .ok v => .ok v s
  | .error .undefined => .error (.undefinedVariable name) s
  | .error (.strayed missing) => .error (.strayed missing) s

/-- Binds a name in the frame at a distance from `f`. -/
def assignAt (distance : Nat) (f : FrameId) (name : Token) (v : Value) : Access Unit := fun s =>
  match s.assignAt? distance f name.lexeme v with
  | some s' => .ok () s'
  | none => .error (.strayed (s.missing distance f)) s

/-- What an operation answers. -/
def answer {α : Type} (p : Access α) (s : Store) : Except Fault α :=
  match p s with
  | .ok a _ => .ok a
  | .error fault _ => .error fault

/-- The store that an operation leaves behind. -/
def leaves {α : Type} (p : Access α) (s : Store) : Store :=
  match p s with
  | .ok _ s' => s'
  | .error _ s' => s'

end Access

end LoxLanguage
