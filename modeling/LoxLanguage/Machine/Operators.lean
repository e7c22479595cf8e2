import LoxLanguage.Store.RuntimeError
import LoxLanguage.Store.Value

/-! What the operators do with values. -/

namespace LoxLanguage.Operators

open Token (Kind)

/-- The operators on two numbers. Division by zero gives an infinity or not-a-number. -/
def arithmetic? (kind : Kind) (x y : Number) : Option Value :=
  match kind with
  | .minus => some (.number (x - y))
  | .star => some (.number (x * y))
  | .slash => some (.number (x / y))
  | .greater => some (.bool (x > y))
  | .greaterEqual => some (.bool (x ≥ y))
  | .less => some (.bool (x < y))
  | .lessEqual => some (.bool (x ≤ y))
  | _ => none

/-- Adds two numbers or joins two texts. -/
def plus? : Value → Value → Option Value
  | .number x, .number y => some (.number (x + y))
  | .text s, .text t => some (.text (s ++ t))
  | _, _ => none

/-- An operator between two values. Operands are checked before the operator itself. -/
def binary (operator : Token) (left right : Value) : Except RuntimeError Value :=
  match operator.kind with
  | .bangEqual => .ok (.bool (!left.isEqual right))
  | .equalEqual => .ok (.bool (left.isEqual right))
  | .plus =>
    match plus? left right with
    | some v => .ok v
    | none => .error ⟨.operandsNotNumbersOrTexts, operator⟩
  | kind =>
    match left, right with
    | .number x, .number y =>
      match arithmetic? kind x y with
      | some v => .ok v
      | none => .error ⟨.unknownBinaryOperator operator.lexeme, operator⟩
    | _, _ => .error ⟨.operandsNotNumbers, operator⟩

/-- An operator in front of a value. -/
def unary (operator : Token) (operand : Value) : Except RuntimeError Value :=
  match operator.kind with
  | .bang => .ok (.bool (!operand.isTruthy))
  | .minus =>
    match operand with
    | .number x => .ok (.number (-x))
    | _ => .error ⟨.operandNotNumber, operator⟩
  | _ => .error ⟨.unknownUnaryOperator operator.lexeme, operator⟩

/-- Whether the left operand of `or`, or else of `and`, already decides. -/
def decides (operator : Token) (left : Value) : Bool :=
  if operator.kind = .orWord then left.isTruthy else !left.isTruthy

end LoxLanguage.Operators
