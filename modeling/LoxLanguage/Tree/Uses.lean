import LoxLanguage.Tree.Basic

/-! The uses of variables in a tree, in the order in which the tree is written down: a node before its
parts, the parts from left to right. -/

namespace LoxLanguage

/-- How a use touches its variable. -/
inductive Use.Role where
  | reads
  | assigns
  | this
  deriving DecidableEq

/-- A use of a variable: what it does, its site and its name. -/
structure Use where
  role : Use.Role
  site : Site
  name : Token
  deriving DecidableEq

mutual

/-- The uses in an expression. -/
def Expr.uses : Expr → List Use
  | .literal _ => []
  | .unary _ operand => operand.uses
  | .binary left _ right => left.uses ++ right.uses
  | .logical left _ right => left.uses ++ right.uses
  | .grouping inner => inner.uses
  | .use site name => [⟨.reads, site, name⟩]
  | .assign site name value => ⟨.assigns, site, name⟩ :: value.uses
  | .call callee _ arguments => callee.uses ++ Expr.usesOfAll arguments
  | .get object _ => object.uses
  | .set object _ value => object.uses ++ value.uses
  | .this site keyword => [⟨.this, site, keyword⟩]

/-- The uses in a row of expressions. -/
def Expr.usesOfAll : List Expr → List Use
  | [] => []
  | e :: rest => e.uses ++ Expr.usesOfAll rest

end

/-- The uses in an expression that may be missing. -/
def Expr.usesOfOption : Option Expr → List Use
  | none => []
  | some e => e.uses

mutual

/-- The uses in a statement. -/
def Stmt.uses : Stmt → List Use
  | .expression e => e.uses
  | .print e => e.uses
  | .declareVariable _ initializer => Expr.usesOfOption initializer
  | .block body => Stmt.usesOfAll body
  | .branch condition whenTrue whenFalse =>
    condition.uses ++ whenTrue.uses ++ Stmt.usesOfOption whenFalse
  | .loop condition body => condition.uses ++ body.uses
  | .declareFunction declaration => declaration.uses
  | .returnValue _ value => Expr.usesOfOption value
  | .declareClass _ methods => Function.usesOfAll methods

/-- The uses in a row of statements. -/
def Stmt.usesOfAll : List Stmt → List Use
  | [] => []
  | s :: rest => s.uses ++ Stmt.usesOfAll rest

/-- The uses in a statement that may be missing. -/
def Stmt.usesOfOption : Option Stmt → List Use
  | none => []
  | some s => s.uses

/-- The uses in the body of a function. -/
def Function.uses : Function → List Use
  | .mk _ _ body => Stmt.usesOfAll body

/-- The uses in the bodies of methods. -/
def Function.usesOfAll : List Function → List Use
  | [] => []
  | f :: rest => f.uses ++ Function.usesOfAll rest

end

end LoxLanguage
