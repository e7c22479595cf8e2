import LoxLanguage.Problem
import LoxLanguage.Tree.Basic

/-! Parsing by recursive descent. A parser reads tokens from the front of those that are left and either
returns a tree or breaks off. A broken declaration is reported once and then skipped up to the next place
where a statement is likely to begin, so the rest of the program is still read.

Every parser that calls itself takes a bound on the depth of the calls. A call that reads no token goes at
most a fixed number of levels down before one that does, so a bound in proportion to the number of
tokens is never reached. -/

namespace LoxLanguage

open Token (Kind)

namespace Parser

/-- Why a parser gives no tree: a complaint was made, a token outside of the row was asked for, or the bound
    on its depth was reached. -/
inductive Stop where
  | broken
  | outside
  | exhausted
  deriving DecidableEq

/-- A place in a row of tokens, which an end mark closes: the tokens read, the last one first, and those
    that are left. With them go the next free site and the problems so far. -/
structure State where
  before : List Token
  rest : List Token
  nextSite : Site
  problems : Array Problem

end Parser

/-- Reads trees from tokens. -/
abbrev Parser := EStateM Parser.Stop Parser.State

namespace Parser

/-! ### Reading tokens -/

/-- The next token, which stays. -/
def peek : Parser Token := fun s =>
  match s.rest with
  | t :: _ => .ok t s
  | [] => .error .outside s

/-- The token read last. -/
def previous : Parser Token := fun s =>
  match s.before with
  | t :: _ => .ok t s
  | [] => .error .outside s

/-- Whether the next token is the end mark. -/
def atEnd : Parser Bool := do
  return (← peek).kind == .eof

/-- Whether the next token is of a kind. The end mark is of no kind that is asked for. -/
def check (kind : Kind) : Parser Bool := do
  if ← atEnd then return false else return (← peek).kind == kind

/-- The place behind the next token. -/
def State.next (s : State) : State :=
  match s.rest with
  | t :: rest => { s with before := t :: s.before, rest }
  | [] => s

/-- Moves behind the next token, unless it is the end mark. -/
def move : Parser Unit := do
  if ← atEnd then return () else modify State.next

/-- Takes the next token, unless it is the end mark, and gives the token read last. -/
def advance : Parser Token := do
  move
  previous

/-- Takes the next token if a test holds of its kind. -/
def acceptIf (test : Kind → Bool) : Parser (Option Token) := do
  if ← atEnd then return none
  else if test (← peek).kind then return some (← advance)
  else return none

/-- Takes the next token if it is of a kind. -/
def accept (kind : Kind) : Parser (Option Token) :=
  acceptIf (· == kind)

/-- Reports a problem at a token and goes on. -/
def complain (token : Token) (complaint : Complaint) : Parser Unit :=
  modify fun s => { s with problems := s.problems.push (.atToken token complaint) }

/-- Reports a problem at the next token, and goes on, if there are as many parts as there may be. -/
def complainIfFull (count : Nat) (complaint : Complaint) : Parser Unit := do
  if maxArguments ≤ count then complain (← peek) complaint else return ()

/-- Reports a problem at the next token and breaks off. -/
def fail {α : Type} (complaint : Complaint) : Parser α := do
  complain (← peek) complaint
  throw .broken

/-- Takes a token of a kind, or complains. -/
def expect (kind : Kind) (complaint : Complaint) : Parser Token := do
  match ← accept kind with
  | some t => return t
  | none => fail complaint

/-- A site that no use has yet. -/
def freshSite : Parser Site :=
  modifyGet fun s => (s.nextSite, { s with nextSite := s.nextSite + 1 })

/-! ### Recovery -/

/-- Kinds of token that begin a statement. -/
def isBoundary : Kind → Bool
  | .classWord | .funWord | .varWord | .forWord | .ifWord | .whileWord | .printWord | .returnWord => true
  | _ => false

/-- Moves on up to the end mark, a token that begins a statement or the place behind a semicolon. -/
def skipFrom : List Token → List Token → Except Stop (List Token × List Token)
  | _, [] => .error .outside
  | before, t :: rest =>
    if t.kind = .eof then .ok (before, t :: rest)
    else
      match before with
      | [] => .error .outside
      | last :: earlier =>
        if last.kind = .semicolon || isBoundary t.kind then .ok (last :: earlier, t :: rest)
        else skipFrom (t :: last :: earlier) rest

/-- Moves on to the likely start of a statement that is not the next token. -/
def skip : Parser Unit := fun s =>
  match skipFrom s.before s.rest with
  | .ok (before, rest) => .ok () { s with before, rest }
  | .error stop => .error stop s

/-- Moves behind the token at which a parser has broken off, unless it begins a statement. -/
def skipOffending : Parser Unit := do
  if isBoundary (← peek).kind then return () else discard advance

/-- Moves on to the likely start of a statement. A token that begins one is kept. -/
def synchronize : Parser Unit := do
  skipOffending
  skip

/-- Runs a parser; when it breaks off, recovers and gives nothing. -/
def recovering {α : Type} (p : Parser α) : Parser (Option α) := fun s =>
  match p s with
  | .ok a s => .ok (some a) s
  | .error .broken s =>
    match synchronize s with
    | .ok _ s => .ok none s
    | .error stop s => .error stop s
  | .error stop s => .error stop s

/-! ### Expressions -/

/-- The levels of operators with two operands, from the loosest to the tightest. -/
inductive Level where
  | disjunction
  | conjunction
  | equality
  | comparison
  | sum
  | product
  deriving DecidableEq

/-- All levels, the loosest first. -/
def levels : List Level :=
  [.disjunction, .conjunction, .equality, .comparison, .sum, .product]

/-- The operators of a level. -/
def Level.has : Level → Kind → Bool
  | .disjunction, .orWord => true
  | .conjunction, .andWord => true
  | .equality, .bangEqual | .equality, .equalEqual => true
  | .comparison, .greater | .comparison, .greaterEqual | .comparison, .less | .comparison, .lessEqual => true
  | .sum, .minus | .sum, .plus => true
  | .product, .slash | .product, .star => true
  | _, _ => false

/-- Joins two operands. -/
def Level.join (level : Level) (left : Expr) (operator : Token) (right : Expr) : Expr :=
  match level with
  | .disjunction | .conjunction => .logical left operator right
  | _ => .binary left operator right

/-- Operators in front of their operand. -/
def isUnary : Kind → Bool
  | .bang | .minus => true
  | _ => false

/-- Turns an expression in front of an equals sign into the assignment to it, if it can be assigned to. -/
def assignment? (target value : Expr) : Option Expr :=
  match target with
  | .use site name => some (.assign site name value)
  | .get object name => some (.set object name value)
  | _ => none

mutual

/-- An expression: an assignment, which groups to the right, or operators. -/
def expression : Nat → Parser Expr
  | 0 => throw .exhausted
  | fuel + 1 => do
    let target ← operation fuel levels
    match ← accept .equal with
    | none => return target
    | some equals =>
      let value ← expression fuel
      match assignment? target value with
      | some e => return e
      | none =>
        complain equals .invalidAssignmentTarget
        return target

/-- Operators of the given levels. -/
def operation : Nat → List Level → Parser Expr
  | 0, _ => throw .exhausted
  | fuel + 1, [] => unary fuel
  | fuel + 1, level :: tighter => do
    let left ← operation fuel tighter
    chain fuel level tighter left

/-- The operators of one level behind a first operand, which group to the left. -/
def chain : Nat → Level → List Level → Expr → Parser Expr
  | 0, _, _, _ => throw .exhausted
  | fuel + 1, level, tighter, left => do
    match ← acceptIf level.has with
    | none => return left
    | some operator =>
      let right ← operation fuel tighter
      chain fuel level tighter (level.join left operator right)

/-- Operators in front of their operand. -/
def unary : Nat → Parser Expr
  | 0 => throw .exhausted
  | fuel + 1 => do
    match ← acceptIf isUnary with
    | some operator => return .unary operator (← unary fuel)
    | none =>
      let e ← primary fuel
      suffixes fuel e

/-- Calls and properties behind an expression. -/
def suffixes : Nat → Expr → Parser Expr
  | 0, _ => throw .exhausted
  | fuel + 1, e => do
    match ← accept .leftParen with
    | some _ =>
      let given ← argumentsIfAny fuel
      let paren ← expect .rightParen .expectArgumentsClose
      suffixes fuel (.call e paren given.toList)
    | none =>
      match ← accept .dot with
      | some _ =>
        let name ← expect .identifier .expectPropertyName
        suffixes fuel (.get e name)
      | none => return e

/-- The arguments of a call, if there are any. -/
def argumentsIfAny : Nat → Parser (Array Expr)
  | 0 => throw .exhausted
  | fuel + 1 => do
    if ← check .rightParen then return #[] else arguments fuel #[]

/-- Arguments between commas. One too many is reported and read all the same. -/
def arguments : Nat → Array Expr → Parser (Array Expr)
  | 0, _ => throw .exhausted
  | fuel + 1, given => do
    complainIfFull given.size .tooManyArguments
    let e ← expression fuel
    match ← accept .comma with
    | some _ => arguments fuel (given.push e)
    | none => return given.push e

/-- Literals, names, `this` and groupings. -/
def primary : Nat → Parser Expr
  | 0 => throw .exhausted
  | fuel + 1 => do
    let t ← peek
    match t.kind with
    | .falseWord => let _ ← accept .falseWord; return .literal (.bool false)
    | .trueWord => let _ ← accept .trueWord; return .literal (.bool true)
    | .nilWord => let _ ← accept .nilWord; return .literal .nil
    | .number => let _ ← accept .number; return .literal t.literal
    | .string => let _ ← accept .string; return .literal t.literal
    | .thisWord => let _ ← accept .thisWord; return .this (← freshSite) t
    | .identifier => let _ ← accept .identifier; return .use (← freshSite) t
    | .leftParen =>
      let _ ← accept .leftParen
      let inner ← expression fuel
      let _ ← expect .rightParen .expectGroupingClose
      return .grouping inner
    | _ => fail .expectExpression

end

/-! ### Statements -/

/-- Parameters between commas. One too many is reported and read all the same. -/
def parameters : Nat → Array Token → Parser (Array Token)
  | 0, _ => throw .exhausted
  | fuel + 1, given => do
    complainIfFull given.size .tooManyParameters
    let name ← expect .identifier .expectParameterName
    match ← accept .comma with
    | some _ => parameters fuel (given.push name)
    | none => return given.push name

/-- The parameters of a routine, if there are any. -/
def parametersIfAny (fuel : Nat) : Parser (Array Token) := do
  if ← check .rightParen then return #[] else parameters fuel #[]

/-- The value behind an equals sign, if there is one. -/
def initializerIfAny (fuel : Nat) : Parser (Option Expr) := do
  match ← accept .equal with
  | some _ => some <$> expression fuel
  | none => return none

/-- A variable declaration behind its `var`. -/
def variableDeclaration (fuel : Nat) : Parser Stmt := do
  let name ← expect .identifier .expectVariableName
  let initializer ← initializerIfAny fuel
  let _ ← expect .semicolon .expectVariableEnd
  return .declareVariable name initializer

/-- An expression with its semicolon. -/
def expressionStatement (fuel : Nat) : Parser Stmt := do
  let e ← expression fuel
  let _ ← expect .semicolon .expectExpressionEnd
  return .expression e

/-- An expression, unless the next token is of a kind that ends its place. -/
def expressionUnless (kind : Kind) (fuel : Nat) : Parser (Option Expr) := do
  if ← check kind then return none else some <$> expression fuel

/-- A `print` behind its keyword. -/
def printStatement (fuel : Nat) : Parser Stmt := do
  let e ← expression fuel
  let _ ← expect .semicolon .expectPrintEnd
  return .print e

/-- A `return` behind its keyword. -/
def returnStatement (fuel : Nat) (keyword : Token) : Parser Stmt := do
  let value ← expressionUnless .semicolon fuel
  let _ ← expect .semicolon .expectReturnEnd
  return .returnValue keyword value

/-- The first clause of a `for`, with its semicolon. -/
def forInitializer (fuel : Nat) : Parser (Option Stmt) := do
  match ← accept .semicolon with
  | some _ => return none
  | none =>
    match ← accept .varWord with
    | some _ => some <$> variableDeclaration fuel
    | none => some <$> expressionStatement fuel

/-- A `for` is the loop that it abbreviates: the initializer first, the increment behind the body. -/
def desugarFor (initializer : Option Stmt) (condition increment : Option Expr) (body : Stmt) : Stmt :=
  let body := match increment with
    | some e => .block [body, .expression e]
    | none => body
  let loop := .loop (condition.getD (.literal (.bool true))) body
  match initializer with
  | some s => .block [s, loop]
  | none => loop

mutual

/-- A declaration or a statement. -/
def declaration : Nat → Parser Stmt
  | 0 => throw .exhausted
  | fuel + 1 => do
    match (← peek).kind with
    | .classWord =>
      let _ ← accept .classWord
      classDeclaration fuel
    | .funWord =>
      let _ ← accept .funWord
      return .declareFunction (← routine fuel .function)
    | .varWord =>
      let _ ← accept .varWord
      variableDeclaration fuel
    | _ => statement fuel

/-- A class behind its `class`. -/
def classDeclaration : Nat → Parser Stmt
  | 0 => throw .exhausted
  | fuel + 1 => do
    let name ← expect .identifier .expectClassName
    let _ ← expect .leftBrace .expectClassOpen
    let found ← methods fuel #[]
    let _ ← expect .rightBrace .expectClassClose
    return .declareClass name found.toList

/-- Methods up to a closing brace or the end. -/
def methods : Nat → Array Function → Parser (Array Function)
  | 0, _ => throw .exhausted
  | fuel + 1, found => do
    if (← check .rightBrace) || (← atEnd) then return found
    else
      let f ← routine fuel .method
      methods fuel (found.push f)

/-- A function or a method from its name on. -/
def routine : Nat → Routine → Parser Function
  | 0, _ => throw .exhausted
  | fuel + 1, kind => do
    let name ← expect .identifier (.expectRoutineName kind)
    let _ ← expect .leftParen (.expectParametersOpen kind)
    let given ← parametersIfAny fuel
    let _ ← expect .rightParen .expectParametersClose
    let _ ← expect .leftBrace (.expectBodyOpen kind)
    let body ← block fuel
    return .mk name given.toList body

/-- Statements behind an opening brace, and the closing one. -/
def block : Nat → Parser (List Stmt)
  | 0 => throw .exhausted
  | fuel + 1 => do
    let found ← items fuel #[]
    let _ ← expect .rightBrace .expectBlockClose
    return found.toList

/-- Declarations up to a closing brace or the end, without the broken ones. -/
def items : Nat → Array Stmt → Parser (Array Stmt)
  | 0, _ => throw .exhausted
  | fuel + 1, found => do
    if (← check .rightBrace) || (← atEnd) then return found
    else
      match ← recovering (declaration fuel) with
      | some s => items fuel (found.push s)
      | none => items fuel found

/-- A statement that declares nothing. -/
def statement : Nat → Parser Stmt
  | 0 => throw .exhausted
  | fuel + 1 => do
    let t ← peek
    match t.kind with
    | .forWord =>
      let _ ← accept .forWord
      forStatement fuel
    | .ifWord =>
      let _ ← accept .ifWord
      ifStatement fuel
    | .printWord =>
      let _ ← accept .printWord
      printStatement fuel
    | .returnWord =>
      let _ ← accept .returnWord
      returnStatement fuel t
    | .whileWord =>
      let _ ← accept .whileWord
      whileStatement fuel
    | .leftBrace =>
      let _ ← accept .leftBrace
      return .block (← block fuel)
    | _ => expressionStatement fuel

/-- A `for` behind its keyword. -/
def forStatement : Nat → Parser Stmt
  | 0 => throw .exhausted
  | fuel + 1 => do
    let _ ← expect .leftParen .expectForOpen
    let initializer ← forInitializer fuel
    let condition ← expressionUnless .semicolon fuel
    let _ ← expect .semicolon .expectForConditionEnd
    let increment ← expressionUnless .rightParen fuel
    let _ ← expect .rightParen .expectForClose
    let body ← statement fuel
    return desugarFor initializer condition increment body

/-- An `if` behind its keyword. An `else` belongs to the nearest one. -/
def ifStatement : Nat → Parser Stmt
  | 0 => throw .exhausted
  | fuel + 1 => do
    let _ ← expect .leftParen .expectIfOpen
    let condition ← expression fuel
    let _ ← expect .rightParen .expectIfClose
    let whenTrue ← statement fuel
    match ← accept .elseWord with
    | some _ =>
      let whenFalse ← statement fuel
      return .branch condition whenTrue (some whenFalse)
    | none => return .branch condition whenTrue none

/-- A `while` behind its keyword. -/
def whileStatement : Nat → Parser Stmt
  | 0 => throw .exhausted
  | fuel + 1 => do
    let _ ← expect .leftParen .expectWhileOpen
    let condition ← expression fuel
    let _ ← expect .rightParen .expectWhileClose
    let body ← statement fuel
    return .loop condition body

end

/-- Declarations up to the end, without the broken ones. -/
def program : Nat → Array Stmt → Parser (Array Stmt)
  | 0, _ => throw .exhausted
  | fuel + 1, found => do
    if ← atEnd then return found
    else
      match ← recovering (declaration fuel) with
      | some s => program fuel (found.push s)
      | none => program fuel found

/-- A bound on the depth of calls that is enough for a number of tokens. -/
def fuelFor (tokens : Nat) : Nat :=
  24 * (tokens + 1)

end Parser

/-- What parsing gives: the statements that could be read, the next free site and the problems. -/
structure Parsed where
  statements : List Stmt
  nextSite : Site
  problems : List Problem

/-- Reads the statements of a program from its tokens, up to the end mark. Labels are given to uses from
    `firstSite` on. -/
def parse (firstSite : Site) (tokens : List Token) : Parsed :=
  match Parser.program (Parser.fuelFor tokens.length) #[] ⟨[], tokens, firstSite, #[]⟩ with
  | .ok found s => ⟨found.toList, s.nextSite, s.problems.toList⟩
  | .error _ s => ⟨[], s.nextSite, s.problems.toList⟩

end LoxLanguage
