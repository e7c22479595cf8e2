import LoxLanguage.Token.Basic

/-! Static problems: what scanning, parsing and resolving complain about, and where. -/

namespace LoxLanguage

/-- What a body of statements with parameters is: a function, or a method of a class. -/
inductive Routine where
  | function
  | method
  deriving DecidableEq

/-- The noun for a routine. -/
def Routine.noun : Routine → String
  | .function => "function"
  | .method => "method"

/-- The causes of a static problem. -/
inductive Complaint where
  | unexpectedCharacter
  | unterminatedString
  | expectClassName
  | expectClassOpen
  | expectClassClose
  | expectRoutineName (routine : Routine)
  | expectParametersOpen (routine : Routine)
  | expectParameterName
  | expectParametersClose
  | expectBodyOpen (routine : Routine)
  | expectVariableName
  | expectVariableEnd
  | expectForOpen
  | expectForConditionEnd
  | expectForClose
  | expectIfOpen
  | expectIfClose
  | expectPrintEnd
  | expectReturnEnd
  | expectWhileOpen
  | expectWhileClose
  | expectBlockClose
  | expectExpressionEnd
  | expectPropertyName
  | expectArgumentsClose
  | expectGroupingClose
  | expectExpression
  | tooManyParameters
  | tooManyArguments
  | invalidAssignmentTarget
  | alreadyDeclared
  | readInOwnInitializer
  | returnAtTopLevel
  | returnValueFromInitializer
  | thisOutsideClass
  deriving DecidableEq

/-- A call or a routine has at most this many arguments or parameters. -/
def maxArguments : Nat := 255

/-- The wording of each cause. -/
def Complaint.message : Complaint → String
  | .unexpectedCharacter => "Unexpected character."
  | .unterminatedString => "Unterminated string."
  | .expectClassName => "Expect class name."
  | .expectClassOpen => "Expect '\x7b' before class body."
  | .expectClassClose => "Expect '\x7d' after class body."
  | .expectRoutineName routine => "Expect " ++ routine.noun ++ " name."
  | .expectParametersOpen routine => "Expect '(' after " ++ routine.noun ++ " name."
  | .expectParameterName => "Expect parameter name."
  | .expectParametersClose => "Expect ')' after parameters."
  | .expectBodyOpen routine => "Expect '\x7b' before " ++ routine.noun ++ " body."
  | .expectVariableName => "Expect variable name."
  | .expectVariableEnd => "Expect ';' after variable declaration."
  | .expectForOpen => "Expect '(' after 'for'."
  | .expectForConditionEnd => "Expect ';' after loop condition."
  | .expectForClose => "Expect ')' after for clauses."
  | .expectIfOpen => "Expect '(' after 'if'."
  | .expectIfClose => "Expect ')' after if condition."
  | .expectPrintEnd => "Expect ';' after value."
  | .expectReturnEnd => "Expect ';' after return value."
  | .expectWhileOpen => "Expect '(' after 'while'."
  | .expectWhileClose => "Expect ')' after condition."
  | .expectBlockClose => "Expect '\x7d' after block."
  | .expectExpressionEnd => "Expect ';' after expression."
  | .expectPropertyName => "Expect property name after '.'."
  | .expectArgumentsClose => "Expect ')' after arguments."
  | .expectGroupingClose => "Expect ')' after expression."
  | .expectExpression => "Expect expression."
  | .tooManyParameters => "Can't have more than " ++ toString maxArguments ++ " parameters."
  | .tooManyArguments => "Can't have more than " ++ toString maxArguments ++ " arguments."
  | .invalidAssignmentTarget => "Invalid assignment target."
  | .alreadyDeclared => "Already a variable with this name in this scope."
  | .readInOwnInitializer => "Can't read local variable in its own initializer."
  | .returnAtTopLevel => "Can't return from top-level code."
  | .returnValueFromInitializer => "Can't return a value from an initializer."
  | .thisOutsideClass => "Can't use 'this' outside of a class."

/-- A complaint with its place: a line, or a token. -/
inductive Problem where
  | onLine (line : Int) (complaint : Complaint)
  | atToken (token : Token) (complaint : Complaint)
  deriving DecidableEq

end LoxLanguage
