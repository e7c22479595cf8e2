import LoxLanguage.Literal

/-! Values at run time. Functions, classes and instances are addresses in the store: two of them are the
same value when they have the same address. -/

namespace LoxLanguage

/-- The address of a frame. -/
abbrev FrameId := Nat

/-- The address of a function value. -/
abbrev ClosureId := Nat

/-- The address of a class. -/
abbrev ClassId := Nat

/-- The address of an instance. -/
abbrev InstanceId := Nat

/-- A value. `clock` is the one function that is built in. -/
inductive Value where
  | nil
  | bool (b : Bool)
  | number (x : Number)
  | text (s : String)
  | clock
  | closure (f : ClosureId)
  | classValue (c : ClassId)
  | instanceValue (i : InstanceId)
  deriving DecidableEq

namespace Value

/-- The value that a literal writes down. -/
def ofLiteral : Literal → Value
  | .nil => .nil
  | .bool b => .bool b
  | .number x => .number x
  | .text s => .text s

/-- Only nil and false count as false. -/
def isTruthy : Value → Bool
  | .nil => false
  | .bool b => b
  | _ => true

/-- Values of different kinds are never equal. Numbers, texts and truth values are compared by what they are,
    functions, classes and instances by where they are. -/
def isEqual : Value → Value → Bool
  | .nil, .nil => true
  | .bool a, .bool b => a == b
  | .number x, .number y => Number.same x y
  | .text a, .text b => a == b
  | .clock, .clock => true
  | .closure f, .closure g => f == g
  | .classValue c, .classValue d => c == d
  | .instanceValue i, .instanceValue j => i == j
  | _, _ => false

end Value

end LoxLanguage
