import LoxLanguage.Bindings
import LoxLanguage.Store.Value
import LoxLanguage.Tree.Basic

/-! The store: frames, function values, classes and instances, each at an address. Addresses are handed
out in ascending order and nothing is ever freed, so a frame that a function has captured stays as long as
the store does, and what is written through one holder is seen by all. -/

namespace LoxLanguage

/-- A scope at run time: its names, and the frame around it. The parent is fixed when the frame is made. -/
structure Frame where
  bindings : Bindings Value
  parent : Option FrameId
  deriving Inhabited

/-- A function with the frame it was declared in. -/
structure Closure where
  declaration : Function
  scope : FrameId
  isInitializer : Bool

/-- A class: its name and its methods, not yet bound to an instance. -/
structure Class where
  name : String
  methods : Bindings Closure
  deriving Inhabited

/-- An instance: its class and its fields. -/
structure Instance where
  classId : ClassId
  fields : Bindings Value
  deriving Inhabited

/-- Everything that has been made so far. -/
structure Store where
  frames : Array Frame
  closures : Array Closure
  classes : Array Class
  instances : Array Instance

/-- What is asked for where there is no frame: the frame around it on the way outward, or its names at the end. -/
inductive Store.Missing where
  | parent
  | names
  deriving DecidableEq

/-- Why a name has no value at a distance: the frame there does not bind it, or there is no frame there. -/
inductive Store.AccessError where
  | undefined
  | strayed (missing : Missing)
  deriving DecidableEq

namespace Store

/-- The address of the frame of global names. -/
def globals : FrameId := 0

/-- The store in which a program starts: one frame, in which `clock` is bound. -/
def initial : Store :=
  { frames := #[{ bindings := [("clock", .clock)], parent := none }]
    closures := #[]
    classes := #[]
    instances := #[] }

/-- The store without any frame. -/
def empty : Store := ⟨#[], #[], #[], #[]⟩

/-! ### Frames -/

/-- The frame at an address. -/
def frame (s : Store) (f : FrameId) : Frame :=
  s.frames.getD f default

/-- Makes a frame inside another one. Its address is the number of frames made before. -/
def newFrame (s : Store) (parent : Option FrameId) (bindings : Bindings Value) : Store :=
  { s with frames := s.frames.push ⟨bindings, parent⟩ }

/-- The address that the next frame gets. -/
def nextFrame (s : Store) : FrameId :=
  s.frames.size

/-- Binds a name in a frame. -/
def define (s : Store) (f : FrameId) (name : String) (v : Value) : Store :=
  { s with frames := s.frames.modify f fun frame => { frame with bindings := frame.bindings.put name v } }

/-- What a name is bound to in one frame. -/
def localValue? (s : Store) (f : FrameId) (name : String) : Option Value :=
  (s.frame f).bindings.get? name

/-- The innermost of at most `fuel` frames, from `f` outward, that binds a name. -/
def holderWithin (s : Store) (fuel : Nat) (f : FrameId) (name : String) : Option FrameId :=
  match fuel with
  | 0 => none
  | fuel + 1 =>
    if (s.frame f).bindings.has name then some f
    else
      match (s.frame f).parent with
      | some p => s.holderWithin fuel p name
      | none => none

/-- The innermost frame from `f` outward that binds a name. A parent is made before its children, so its
    address is smaller, and the chain has at most `f + 1` frames. -/
def holder? (s : Store) (f : FrameId) (name : String) : Option FrameId :=
  s.holderWithin (f + 1) f name

/-- The value of a name, looked up from `f` outward. -/
def lookup? (s : Store) (f : FrameId) (name : String) : Option Value :=
  (s.holder? f name).bind fun h => s.localValue? h name

/-- Writes to the innermost frame that already binds a name. -/
def assign? (s : Store) (f : FrameId) (name : String) (v : Value) : Option Store :=
  (s.holder? f name).map fun h => s.define h name v

/-- Goes up the chain of parents. Going on from a place where there is no frame is an error; stopping just
    behind the last frame is not. -/
def ascend (s : Store) : Nat → Option FrameId → Option (Option FrameId)
  | 0, place => some place
  | _ + 1, none => none
  | n + 1, some f => s.ascend n (s.frame f).parent

/-- The place that lies `distance` frames outward from `f`. -/
def ancestor? (s : Store) (distance : Nat) (f : FrameId) : Option (Option FrameId) :=
  s.ascend distance (some f)

/-- The frame that lies `distance` frames outward from `f`, if there is one. -/
def frameAt? (s : Store) (distance : Nat) (f : FrameId) : Option FrameId :=
  (s.ancestor? distance f).join

/-- What is missed at a distance from `f` if there is no frame. -/
def missing (s : Store) (distance : Nat) (f : FrameId) : Missing :=
  if (s.ancestor? distance f).isSome then .names else .parent

/-- The value of a name in the frame at a distance. No other frame is searched. -/
def valueAt (s : Store) (distance : Nat) (f : FrameId) (name : String) : Except AccessError Value :=
  match s.frameAt? distance f with
  | some g =>
    match s.localValue? g name with
    | some v => .ok v
    | none => .error .undefined
  | none => .error (.strayed (s.missing distance f))

/-- Binds a name in the frame at a distance, whether or not it is bound there. -/
def assignAt? (s : Store) (distance : Nat) (f : FrameId) (name : String) (v : Value) : Option Store :=
  (s.frameAt? distance f).map fun g => s.define g name v

/-! ### Functions, classes, instances -/

/-- Makes a function value. Its address is the number of those made before. -/
def newClosure (s : Store) (c : Closure) : Store :=
  { s with closures := s.closures.push c }

/-- Makes a class. Its address is the number of classes made before. -/
def newClass (s : Store) (c : Class) : Store :=
  { s with classes := s.classes.push c }

/-- The class at an address. -/
def classAt (s : Store) (c : ClassId) : Class :=
  s.classes.getD c default

/-- Makes an instance without fields. Its address is the number of instances made before. -/
def newInstance (s : Store) (c : ClassId) : Store :=
  { s with instances := s.instances.push ⟨c, []⟩ }

/-- The instance at an address. -/
def instanceAt (s : Store) (i : InstanceId) : Instance :=
  s.instances.getD i default

/-- The class of an instance. -/
def classOf (s : Store) (i : InstanceId) : Class :=
  s.classAt (s.instanceAt i).classId

/-- Sets a field of an instance. -/
def setField (s : Store) (i : InstanceId) (name : String) (v : Value) : Store :=
  { s with instances := s.instances.modify i fun o => { o with fields := o.fields.put name v } }

/-! ### Text -/

/-- The name of a function value. -/
def closureName (s : Store) (f : ClosureId) : String :=
  match s.closures[f]? with
  | some c => c.declaration.name.lexeme
  | none => ""

/-- The text that `print` shows for a value. -/
def display (s : Store) : Value → String
  | .nil => Literal.nil.display
  | .bool b => (Literal.bool b).display
  | .number x => (Literal.number x).display
  | .text t => t
  | .clock => "<native fn>"
  | .closure f => "<fn " ++ s.closureName f ++ ">"
  | .classValue c => (s.classAt c).name
  | .instanceValue i => "<" ++ (s.classOf i).name ++ " instance>"

end Store

end LoxLanguage
