import LoxLanguage.Tree.Basic

/-! Which forms of tree a set of named handlers leaves out. A handler is named for the form it handles and
the family of that form. -/

namespace LoxLanguage

/-- The two families of trees. -/
inductive Family where
  | expressions
  | statements
  deriving DecidableEq

namespace Family

/-- The forms of a family, in the order of their declaration. -/
def forms : Family → List String
  | .expressions =>
    ["literal", "unary", "binary", "logical", "grouping", "variable", "assign", "call", "get", "set", "this"]
  | .statements =>
    ["expression", "print", "var", "block", "if", "while", "function", "return", "class"]

/-- The last part of a handler's name. -/
def suffix : Family → String
  | .expressions => "expr"
  | .statements => "stmt"

/-- The names of the handlers of a family. -/
def handlers (family : Family) : List String :=
  family.forms.map fun form => "visit_" ++ form ++ "_" ++ family.suffix

end Family

/-- The handlers of some families that are not among the given ones. -/
def missingHandlers (families : List Family) (given : List String) : List String :=
  (families.flatMap Family.handlers).filter fun name => !given.contains name

/-- The complaint about missing handlers, if any are. -/
def coverageProblem? (owner : String) (families : List Family) (given : List String) : Option String :=
  match missingHandlers families given with
  | [] => none
  | missing => some (owner ++ " does not handle: " ++ ", ".intercalate missing)

end LoxLanguage
