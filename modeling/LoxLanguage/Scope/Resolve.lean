import LoxLanguage.Bindings
import LoxLanguage.Problem
import LoxLanguage.Tree.Basic

/-! Static scopes. Before a program runs, each use of a variable is bound to a declaration: its distance
is the number of scopes between the use and the scope that declares the name. A use that no local scope
declares gets no distance and means a global name. Programs that break a rule of scoping are reported;
resolution always goes on to the end. -/

namespace LoxLanguage

/-- A local scope: the names it declares, and whether the initializer of each is finished. -/
abbrev Scope := Bindings Bool

/-- The routine whose body is being resolved. -/
inductive Enclosing where
  | topLevel
  | function
  | method
  | initializer
  deriving DecidableEq

/-- The scopes around the current place, the innermost first, with the distances and problems found. -/
structure Resolution where
  scopes : List Scope
  enclosing : Enclosing
  inClass : Bool
  distances : Array (Site × Nat)
  problems : Array Problem

namespace Resolution

/-- Outside of all local scopes, routines and classes. -/
def start : Resolution := ⟨[], .topLevel, false, #[], #[]⟩

/-- Reports a problem at a token. -/
def complain (r : Resolution) (token : Token) (complaint : Complaint) : Resolution :=
  { r with problems := r.problems.push (.atToken token complaint) }

/-- Opens a scope with the given names. -/
def enter (r : Resolution) (scope : Scope) : Resolution :=
  { r with scopes := scope :: r.scopes }

/-- Closes the innermost scope. -/
def leave (r : Resolution) : Resolution :=
  { r with scopes := r.scopes.tail }

/-- Declares a name in the innermost scope, its initializer still to come. Global names may be declared
    again; a local name may not. -/
def declare (r : Resolution) (name : Token) : Resolution :=
  match r.scopes with
  | [] => r
  | scope :: outer =>
    let r := if scope.has name.lexeme then r.complain name .alreadyDeclared else r
    { r with scopes := scope.put name.lexeme false :: outer }

/-- Marks the initializer of a name as finished. -/
def define (r : Resolution) (name : Token) : Resolution :=
  match r.scopes with
  | [] => r
  | scope :: outer => { r with scopes := scope.put name.lexeme true :: outer }

/-- How many scopes lie inside the innermost one that declares a name. -/
def distance? (r : Resolution) (name : String) : Option Nat :=
  r.scopes.findIdx? (·.has name)

/-- Notes the distance of a use, if a local scope declares its name. -/
def bind (r : Resolution) (site : Site) (name : String) : Resolution :=
  match r.distance? name with
  | some d => { r with distances := r.distances.push (site, d) }
  | none => r

/-- A name may not be read in its own initializer. -/
def checkRead (r : Resolution) (name : Token) : Resolution :=
  match r.scopes with
  | scope :: _ =>
    if scope.get? name.lexeme = some false then r.complain name .readInOwnInitializer else r
  | [] => r

/-- Declares the parameters of a routine. -/
def parameters (r : Resolution) (names : List Token) : Resolution :=
  names.foldl (fun r name => (r.declare name).define name) r

/-- Checks where a `return` stands and whether it may give a value. -/
def checkReturn (r : Resolution) (keyword : Token) (hasValue : Bool) : Resolution :=
  let r := if r.enclosing = .topLevel then r.complain keyword .returnAtTopLevel else r
  if hasValue && r.enclosing = .initializer then r.complain keyword .returnValueFromInitializer else r

end Resolution

mutual

/-- Resolves an expression. The value of an assignment comes before its target. -/
def Expr.resolve : Expr → Resolution → Resolution
  | .literal _, r => r
  | .unary _ operand, r => operand.resolve r
  | .binary left _ right, r => right.resolve (left.resolve r)
  | .logical left _ right, r => right.resolve (left.resolve r)
  | .grouping inner, r => inner.resolve r
  | .use site name, r => (r.checkRead name).bind site name.lexeme
  | .assign site name value, r => (value.resolve r).bind site name.lexeme
  | .call callee _ arguments, r => Expr.resolveAll arguments (callee.resolve r)
  | .get object _, r => object.resolve r
  | .set object _ value, r => object.resolve (value.resolve r)
  | .this site keyword, r =>
    if r.inClass then r.bind site keyword.lexeme else r.complain keyword .thisOutsideClass

/-- Resolves expressions from left to right. -/
def Expr.resolveAll : List Expr → Resolution → Resolution
  | [], r => r
  | e :: rest, r => Expr.resolveAll rest (e.resolve r)

end

/-- Resolves an expression that may be missing. -/
def Expr.resolveOption : Option Expr → Resolution → Resolution
  | none, r => r
  | some e, r => e.resolve r

mutual

/-- Resolves a statement. A function or a class is known in its own body. -/
def Stmt.resolve : Stmt → Resolution → Resolution
  | .expression e, r => e.resolve r
  | .print e, r => e.resolve r
  | .declareVariable name initializer, r =>
    (Expr.resolveOption initializer (r.declare name)).define name
  | .block body, r => (Stmt.resolveAll body (r.enter [])).leave
  | .branch condition whenTrue whenFalse, r =>
    Stmt.resolveOption whenFalse (whenTrue.resolve (condition.resolve r))
  | .loop condition body, r => body.resolve (condition.resolve r)
  | .declareFunction declaration, r =>
    declaration.resolve .function ((r.declare declaration.name).define declaration.name)
  | .returnValue keyword value, r =>
    Expr.resolveOption value (r.checkReturn keyword value.isSome)
  | .declareClass name methods, r =>
    let inside := { (r.declare name).define name with inClass := true }
    let r' := (Function.resolveAll methods (inside.enter [("this", true)])).leave
    { r' with inClass := r.inClass }

/-- Resolves statements in order. -/
def Stmt.resolveAll : List Stmt → Resolution → Resolution
  | [], r => r
  | s :: rest, r => Stmt.resolveAll rest (s.resolve r)

/-- Resolves a statement that may be missing. -/
def Stmt.resolveOption : Option Stmt → Resolution → Resolution
  | none, r => r
  | some s, r => s.resolve r

/-- Resolves a routine: one scope holds its parameters and the top level of its body. -/
def Function.resolve : Function → Enclosing → Resolution → Resolution
  | .mk _ parameters body, enclosing, r =>
    let inside := ({ r with enclosing }.enter []).parameters parameters
    let r' := (Stmt.resolveAll body inside).leave
    { r' with enclosing := r.enclosing }

/-- Resolves the methods of a class. -/
def Function.resolveAll : List Function → Resolution → Resolution
  | [], r => r
  | f :: rest, r =>
    Function.resolveAll rest (f.resolve (if f.isInitializer then .initializer else .method) r)

end

/-- Resolves a whole program. -/
def resolve (program : List Stmt) : Resolution :=
  Stmt.resolveAll program Resolution.start

end LoxLanguage
