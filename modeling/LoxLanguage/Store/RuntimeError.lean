import LoxLanguage.Token.Basic

/-! Errors that end a run: the cause and the token at which it arose. -/

namespace LoxLanguage

/-- The causes of a runtime error. -/
inductive RuntimeError.Cause where
  | undefinedVariable (name : String)
  | undefinedProperty (name : String)
  | operandsNotNumbersOrTexts
  | operandsNotNumbers
  | operandNotNumber
  | unknownBinaryOperator (lexeme : String)
  | unknownUnaryOperator (lexeme : String)
  | notCallable
  | wrongArity (expected given : Nat)
  | noProperties
  | noFields
  | stackOverflow
  deriving DecidableEq

/-- The wording of each cause. -/
def RuntimeError.Cause.message : RuntimeError.Cause → String
  | .undefinedVariable name => "Undefined variable '" ++ name ++ "'."
  | .undefinedProperty name => "Undefined property '" ++ name ++ "'."
  | .operandsNotNumbersOrTexts => "Operands must be two numbers or two strings."
  | .operandsNotNumbers => "Operands must be numbers."
  | .operandNotNumber => "Operand must be a number."
  | .unknownBinaryOperator lexeme => "Unknown binary operator '" ++ lexeme ++ "'."
  | .unknownUnaryOperator lexeme => "Unknown unary operator '" ++ lexeme ++ "'."
  | .notCallable => "Can only call functions and classes."
  | .wrongArity expected given =>
    "Expected " ++ toString expected ++ " arguments but got " ++ toString given ++ "."
  | .noProperties => "Only instances have properties."
  | .noFields => "Only instances have fields."
  | .stackOverflow => "Stack overflow."

/-- Whether a cause can only come from a tree that no program text has. -/
def RuntimeError.Cause.isInternal : RuntimeError.Cause → Bool
  | .unknownBinaryOperator _ | .unknownUnaryOperator _ => true
  | _ => false

/-- A runtime error at a token. -/
structure RuntimeError where
  cause : RuntimeError.Cause
  token : Token
  deriving DecidableEq

end LoxLanguage
