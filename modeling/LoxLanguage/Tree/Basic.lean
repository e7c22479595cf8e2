import LoxLanguage.Token.Basic

/-! Trees of expressions and statements. Each use of a variable carries a label, its site, so that the
distance found for one use is kept apart from that of any other use of the same name. -/

namespace LoxLanguage

/-- The label of one use of a variable. -/
abbrev Site := Nat

/-- Expressions. Operators and names are kept as tokens, for their lines. -/
inductive Expr where
  | literal (value : Literal)
  | unary (operator : Token) (operand : Expr)
  | binary (left : Expr) (operator : Token) (right : Expr)
  | logical (left : Expr) (operator : Token) (right : Expr)
  | grouping (inner : Expr)
  | use (site : Site) (name : Token)
  | assign (site : Site) (name : Token) (value : Expr)
  | call (callee : Expr) (paren : Token) (arguments : List Expr)
  | get (object : Expr) (name : Token)
  | set (object : Expr) (name : Token) (value : Expr)
  | this (site : Site) (keyword : Token)

mutual

/-- Statements. -/
inductive Stmt where
  | expression (e : Expr)
  | print (e : Expr)
  | declareVariable (name : Token) (initializer : Option Expr)
  | block (body : List Stmt)
  | branch (condition : Expr) (whenTrue : Stmt) (whenFalse : Option Stmt)
  | loop (condition : Expr) (body : Stmt)
  | declareFunction (declaration : Function)
  | returnValue (keyword : Token) (value : Option Expr)
  | declareClass (name : Token) (methods : List Function)

/-- A function or a method: a name, parameters and a body. -/
inductive Function where
  | mk (name : Token) (parameters : List Token) (body : List Stmt)

end

namespace Function

/-- The name of a function. -/
def name : Function → Token
  | .mk name _ _ => name

/-- The parameters of a function. -/
def parameters : Function → List Token
  | .mk _ parameters _ => parameters

/-- The body of a function. -/
def body : Function → List Stmt
  | .mk _ _ body => body

/-- The name of the method that a class runs on each new instance. -/
def initializerName : String := "init"

/-- A method with this name is an initializer. -/
def isInitializer (f : Function) : Bool :=
  f.name.lexeme == initializerName

end Function

end LoxLanguage
