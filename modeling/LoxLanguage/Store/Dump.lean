import LoxLanguage.Store.Basic
import LoxLanguage.Text.Quoted

/-! A frame written out for inspection: its names in the order of their first binding. -/

namespace LoxLanguage.Store

/-- A value in a dump. -/
def dumpValue (s : Store) : Value → String
  | .nil => Literal.nil.inspect
  | .bool b => (Literal.bool b).inspect
  | .number x => (Literal.number x).inspect
  | .text t => Text.quoted t
  | v => s.display v

/-- The bindings of a frame, between braces. -/
def dumpBindings (s : Store) (bindings : Bindings Value) : String :=
  "\x7b" ++ ", ".intercalate (bindings.map fun b => Text.quoted b.1 ++ ": " ++ s.dumpValue b.2) ++ "\x7d"

/-- A frame, and whether there is one around it. -/
def dumpFrame (s : Store) (f : FrameId) : String :=
  let frame := s.frame f
  "Environment(" ++ s.dumpBindings frame.bindings ++ ", enclosing=" ++
    (if frame.parent.isSome then "..." else "None") ++ ")"

end LoxLanguage.Store
