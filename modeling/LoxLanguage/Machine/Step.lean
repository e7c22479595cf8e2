import LoxLanguage.Machine.Basic
import LoxLanguage.Machine.Operators

/-! The steps of the machine, one rule for each form of expression and statement and one for each kind of
work that waits. A `return` hands its value down through the statements around it to the call that it
ends, and an error goes down through everything; both put back the frame that was current before each block
and call on their way. -/

namespace LoxLanguage

namespace Closure

/-- How many arguments a function takes. -/
def arity (c : Closure) : Nat :=
  c.declaration.parameters.length

/-- Binds arguments to parameters; of two parameters with one name the later one counts. -/
def bindParameters (c : Closure) (arguments : List Value) : Bindings Value :=
  (c.declaration.parameters.zip arguments).foldl (fun b p => b.put p.1.lexeme p.2) []

end Closure

namespace Machine

/-- The machine that fails at a token above the given work. -/
def fail (cause : RuntimeError.Cause) (token : Token) (below : ExprStack FrameId) (s : State) : Machine :=
  ⟨.failExpr (.runtime ⟨cause, token⟩) below, s⟩

/-- Starts the body of a function in a new frame inside `scope`, unless too many calls are open. -/
def enterBody (setting : Setting) (closure : Closure) (scope : FrameId) (arguments : List Value)
    (yield : Yield FrameId) (paren : Token) (below : ExprStack FrameId) (s : State) : Machine :=
  if s.depth < setting.callLimit then
    let caller := s.current
    let s := { s with depth := s.depth + 1 }
    ⟨.ended .normal (.sequence closure.declaration.body (.finish caller yield below)),
      s.enter scope (closure.bindParameters arguments)⟩
  else fail .stackOverflow paren below s

/-- Calls a function value. -/
def callClosure (setting : Setting) (closure : Closure) (arguments : List Value) (paren : Token)
    (below : ExprStack FrameId) (s : State) : Machine :=
  if arguments.length = closure.arity then
    let yield := if closure.isInitializer then .receiver closure.scope else .returned
    enterBody setting closure closure.scope arguments yield paren below s
  else fail (.wrongArity closure.arity arguments.length) paren below s

/-- Calls a class: makes an instance and runs the initializer on it, if there is one. -/
def callClass (setting : Setting) (c : ClassId) (arguments : List Value) (paren : Token)
    (below : ExprStack FrameId) (s : State) : Machine :=
  let made := s.store.instances.size
  match (s.store.classAt c).methods.get? Function.initializerName with
  | none =>
    if arguments.length = 0 then
      ⟨.give (.instanceValue made) below, { s with store := s.store.newInstance c }⟩
    else fail (.wrongArity 0 arguments.length) paren below s
  | some initializer =>
    if arguments.length = initializer.arity then
      let scope := s.store.nextFrame
      let store := (s.store.newInstance c).newFrame (some initializer.scope) [("this", .instanceValue made)]
      enterBody setting initializer scope arguments (.created made) paren below { s with store }
    else fail (.wrongArity initializer.arity arguments.length) paren below s

/-- Calls a value. -/
def call (setting : Setting) (callee : Value) (arguments : List Value) (paren : Token)
    (below : ExprStack FrameId) (s : State) : Machine :=
  match callee with
  | .clock =>
    if arguments.length = 0 then
      ⟨.give (.number (setting.clock s.ticks)) below, { s with ticks := s.ticks + 1 }⟩
    else fail (.wrongArity 0 arguments.length) paren below s
  | .closure f =>
    match s.store.closures[f]? with
    | some closure => callClosure setting closure arguments paren below s
    | none => fail .notCallable paren below s
  | .classValue c => callClass setting c arguments paren below s
  | _ => fail .notCallable paren below s

/-- A property of an instance: a field, or else a method bound to the instance in a frame of its own. -/
def property (i : InstanceId) (name : Token) (below : ExprStack FrameId) (s : State) : Machine :=
  match (s.store.instanceAt i).fields.get? name.lexeme with
  | some v => ⟨.give v below, s⟩
  | none =>
    match (s.store.classOf i).methods.get? name.lexeme with
    | some method =>
      let scope := s.store.nextFrame
      let address := s.store.closures.size
      let store := (s.store.newFrame (some method.scope) [("this", .instanceValue i)]).newClosure
        { method with scope }
      ⟨.give (.closure address) below, { s with store }⟩
    | none => fail (.undefinedProperty name.lexeme) name below s

/-- Begins an expression. -/
def eval (setting : Setting) (below : ExprStack FrameId) (s : State) : Expr → Machine
  | .literal value => ⟨.give (.ofLiteral value) below, s⟩
  | .unary operator operand => ⟨.eval operand (.unary operator below), s⟩
  | .binary left operator right => ⟨.eval left (.binaryLeft operator right below), s⟩
  | .logical left operator right => ⟨.eval left (.logical operator right below), s⟩
  | .grouping inner => ⟨.eval inner below, s⟩
  | .use site name =>
    match s.read setting site name with
    | .ok v => ⟨.give v below, s⟩
    | .error fault => ⟨.failExpr fault below, s⟩
  | .assign site name value => ⟨.eval value (.assign site name below), s⟩
  | .call callee paren arguments => ⟨.eval callee (.callee paren arguments below), s⟩
  | .get object name => ⟨.eval object (.get name below), s⟩
  | .set object name value => ⟨.eval object (.setTarget name value below), s⟩
  | .this site keyword =>
    match s.read setting site keyword with
    | .ok v => ⟨.give v below, s⟩
    | .error fault => ⟨.failExpr fault below, s⟩

/-- Hands a value, or the error in its place, to the work below. -/
def giveResult (result : Except RuntimeError Value) (below : ExprStack FrameId) (s : State) : Machine :=
  match result with
  | .ok v => ⟨.give v below, s⟩
  | .error error => ⟨.failExpr (.runtime error) below, s⟩

/-- Hands a value to the work that waits for it. -/
def give (setting : Setting) (v : Value) (s : State) : ExprStack FrameId → Machine
  | .answer => ⟨.give v .answer, s⟩
  | .unary operator below => giveResult (Operators.unary operator v) below s
  | .binaryLeft operator right below => ⟨.eval right (.binaryRight v operator below), s⟩
  | .binaryRight left operator below => giveResult (Operators.binary operator left v) below s
  | .logical operator right below =>
    if Operators.decides operator v then ⟨.give v below, s⟩ else ⟨.eval right below, s⟩
  | .assign site name below =>
    match s.target setting site name with
    | .ok f => ⟨.give v below, s.defineIn f name.lexeme v⟩
    | .error fault => ⟨.failExpr fault below, s⟩
  | .callee paren [] below => call setting v [] paren below s
  | .callee paren (e :: rest) below => ⟨.eval e (.argument v #[] paren rest below), s⟩
  | .argument callee given paren [] below => call setting callee (given.push v).toList paren below s
  | .argument callee given paren (e :: rest) below =>
    ⟨.eval e (.argument callee (given.push v) paren rest below), s⟩
  | .get name below =>
    match v with
    | .instanceValue i => property i name below s
    | _ => fail .noProperties name below s
  | .setTarget name value below =>
    match v with
    | .instanceValue i => ⟨.eval value (.setValue i name below), s⟩
    | _ => fail .noFields name below s
  | .setValue i name below => ⟨.give v below, { s with store := s.store.setField i name.lexeme v }⟩
  | .discard below => ⟨.ended .normal below, s⟩
  | .print below => ⟨.ended .normal below, s.print v⟩
  | .declare name below => ⟨.ended .normal below, s.define name.lexeme v⟩
  | .branch whenTrue whenFalse below =>
    if v.isTruthy then ⟨.exec whenTrue below, s⟩
    else
      match whenFalse with
      | some statement => ⟨.exec statement below, s⟩
      | none => ⟨.ended .normal below, s⟩
  | .test condition body below =>
    if v.isTruthy then ⟨.exec body (.again condition body below), s⟩ else ⟨.ended .normal below, s⟩
  | .returnValue below => ⟨.ended (.returned v) below, s⟩

/-- Begins a statement. -/
def exec (below : StmtStack FrameId) (s : State) : Stmt → Machine
  | .expression e => ⟨.eval e (.discard below), s⟩
  | .print e => ⟨.eval e (.print below), s⟩
  | .declareVariable name (some e) => ⟨.eval e (.declare name below), s⟩
  | .declareVariable name none => ⟨.ended .normal below, s.define name.lexeme .nil⟩
  | .block body =>
    let outer := s.current
    ⟨.ended .normal (.sequence body (.leave outer below)), s.enter outer []⟩
  | .branch condition whenTrue whenFalse => ⟨.eval condition (.branch whenTrue whenFalse below), s⟩
  | .loop condition body => ⟨.eval condition (.test condition body below), s⟩
  | .declareFunction f => ⟨.ended .normal below, s.declareFunction f⟩
  | .returnValue _ (some e) => ⟨.eval e (.returnValue below), s⟩
  | .returnValue _ none => ⟨.ended (.returned .nil) below, s⟩
  | .declareClass name methods => ⟨.ended .normal below, s.declareClass name methods⟩

/-- The value of a call whose body has ended. -/
def yieldValue (s : State) (completion : Completion) : Yield FrameId → Value
  | .returned =>
    match completion with
    | .normal => .nil
    | .returned v => v
  | .receiver scope => (s.store.localValue? scope "this").getD .nil
  | .created i => .instanceValue i

/-- Tells the work that waits that a statement has ended. A `return` at the top level ends nothing. -/
def ended (completion : Completion) (s : State) : StmtStack FrameId → Machine
  | .program [] => ⟨.ended completion (.program []), s⟩
  | .program (statement :: rest) => ⟨.exec statement (.program rest), s⟩
  | .sequence [] below => ⟨.ended completion below, s⟩
  | .sequence (statement :: rest) below =>
    match completion with
    | .normal => ⟨.exec statement (.sequence rest below), s⟩
    | .returned _ => ⟨.ended completion below, s⟩
  | .again condition body below =>
    match completion with
    | .normal => ⟨.eval condition (.test condition body below), s⟩
    | .returned _ => ⟨.ended completion below, s⟩
  | .leave scope below => ⟨.ended completion below, { s with current := scope }⟩
  | .finish scope yield below =>
    let v := yieldValue s completion yield
    ⟨.give v below, { s with current := scope, depth := s.depth - 1 }⟩

/-- Drops the work that waits for a value which never comes. -/
def failExpr (fault : Fault) (s : State) : ExprStack FrameId → Machine
  | .answer => ⟨.failExpr fault .answer, s⟩
  | .unary _ below | .binaryLeft _ _ below | .binaryRight _ _ below | .logical _ _ below
  | .assign _ _ below | .callee _ _ below | .argument _ _ _ _ below | .get _ below
  | .setTarget _ _ below | .setValue _ _ below => ⟨.failExpr fault below, s⟩
  | .discard below | .print below | .declare _ below | .branch _ _ below | .test _ _ below
  | .returnValue below => ⟨.failStmt fault below, s⟩

/-- Drops the work that waits for a statement which never ends. -/
def failStmt (fault : Fault) (s : State) : StmtStack FrameId → Machine
  | .program rest => ⟨.failStmt fault (.program rest), s⟩
  | .sequence _ below | .again _ _ below => ⟨.failStmt fault below, s⟩
  | .leave scope below => ⟨.failStmt fault below, { s with current := scope }⟩
  | .finish scope _ below =>
    ⟨.failExpr fault below, { s with current := scope, depth := s.depth - 1 }⟩

/-- One step. A machine that has stopped stays as it is. -/
def step (setting : Setting) : Machine → Machine
  | ⟨.eval e below, s⟩ => eval setting below s e
  | ⟨.give v below, s⟩ => give setting v s below
  | ⟨.exec statement below, s⟩ => exec below s statement
  | ⟨.ended completion below, s⟩ => ended completion s below
  | ⟨.failExpr fault below, s⟩ => failExpr fault s below
  | ⟨.failStmt fault below, s⟩ => failStmt fault s below

/-- How a run has ended, if it has. -/
inductive Outcome where
  | answered (v : Value)
  | completed
  | failed (fault : Fault)
  | unfinished
  deriving DecidableEq

/-- What the machine has come to. -/
def outcome (m : Machine) : Outcome :=
  match m.control with
  | .give v .answer => .answered v
  | .ended _ (.program []) => .completed
  | .failExpr fault .answer | .failStmt fault (.program _) => .failed fault
  | _ => .unfinished

/-- The machine that is about to evaluate an expression on its own. -/
def ofExpr (e : Expr) (s : State) : Machine :=
  ⟨.eval e .answer, s⟩

/-- The machine that is about to run a program. -/
def ofProgram (statements : List Stmt) (s : State) : Machine :=
  ⟨.ended .normal (.program statements), s⟩

/-- Whether the machine has stopped. -/
def stopped (m : Machine) : Bool :=
  match m.outcome with
  | .unfinished => false
  | _ => true

/-- Runs the machine until it stops, for at most `fuel` steps. -/
def run (setting : Setting) : Nat → Machine → Machine
  | 0, m => m
  | fuel + 1, m => if m.stopped then m else run setting fuel (m.step setting)

/-- The state between two programs: whatever happened, the globals are the current frame again. -/
def rest (m : Machine) : State :=
  { m.state with current := Store.globals, depth := 0 }

end Machine

end LoxLanguage
