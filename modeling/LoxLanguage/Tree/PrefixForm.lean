import LoxLanguage.Tree.Basic

/-! Expressions written in prefix form, fully parenthesised: `-123 * (45.67)` becomes
`(* (- 123) (group 45.67))`. -/

namespace LoxLanguage.Expr

/-- A literal in prefix form: a text keeps its quotes. -/
def literalForm : Literal → String
  | .text s => "\"" ++ s ++ "\""
  | value => value.display

mutual

/-- The prefix form of an expression. -/
def prefixForm : Expr → String
  | .literal value => literalForm value
  | .unary operator operand => "(" ++ operator.lexeme ++ " " ++ operand.prefixForm ++ ")"
  | .binary left operator right =>
    "(" ++ operator.lexeme ++ " " ++ left.prefixForm ++ " " ++ right.prefixForm ++ ")"
  | .logical left operator right =>
    "(" ++ operator.lexeme ++ " " ++ left.prefixForm ++ " " ++ right.prefixForm ++ ")"
  | .grouping inner => "(group " ++ inner.prefixForm ++ ")"
  | .use _ name => name.lexeme
  | .assign _ name value => "(= " ++ name.lexeme ++ " " ++ value.prefixForm ++ ")"
  | .call callee _ arguments => "(call " ++ callee.prefixForm ++ prefixForms arguments ++ ")"
  | .get object name => "(." ++ name.lexeme ++ " " ++ object.prefixForm ++ ")"
  | .set object name value =>
    "(=" ++ name.lexeme ++ " " ++ object.prefixForm ++ " " ++ value.prefixForm ++ ")"
  | .this _ _ => "this"

/-- The prefix forms of arguments, each behind a blank. -/
def prefixForms : List Expr → String
  | [] => ""
  | e :: rest => " " ++ e.prefixForm ++ prefixForms rest

end

end LoxLanguage.Expr
