import LoxLanguage.Session.Basic

/-! Static scoping without distances and without frames. An environment says which variable each local name in scope
means. A declaration makes a new variable and extends the environment for the rest of its scope; a function
keeps the environment of its declaration; what was extended inside a block or a call is forgotten at its end.
A name that the environment does not know means a global. -/

namespace LoxLanguage.Lexical

/-- The place of a variable among the cells. -/
abbrev Location := Nat

/-- The local names in scope, the latest first. At the top level there are none. -/
inductive Environment where
  | top
  | inner (names : List (String × Location))

namespace Environment

/-- The variable that a name means, if it is a local one. -/
def find? : Environment → String → Option Location
  | .top, _ => none
  | .inner names, name => names.lookup name

/-- The environment at the start of a block or a body. -/
def nest : Environment → Environment
  | .top => .inner []
  | .inner names => .inner names

/-- The environment in which a name means a new variable. -/
def extend : Environment → String → Location → Environment
  | .top, name, location => .inner [(name, location)]
  | .inner names, name, location => .inner ((name, location) :: names)

end Environment

/-- A function with the environment of its declaration. -/
structure Closure where
  declaration : Function
  environment : Environment
  isInitializer : Bool

/-- A class with its methods, each with the environment of the class. -/
structure Class where
  name : String
  methods : Bindings Closure
  deriving Inhabited

/-- What a program can change. A variable without a value has been declared and is not to be read yet. -/
structure State where
  cells : Array (Option Value)
  globals : Bindings Value
  closures : Array Closure
  classes : Array Class
  instances : Array Instance
  environment : Environment
  depth : Nat
  printed : Array String
  ticks : Nat

namespace State

/-- The state before the first program. -/
def initial : State :=
  { cells := #[], globals := [("clock", .clock)], closures := #[], classes := #[], instances := #[],
    environment := .top, depth := 0, printed := #[], ticks := 0 }

/-! ### Variables -/

/-- Makes a variable for a name, with a value or without. -/
def allocate (s : State) (name : String) (content : Option Value) : State :=
  { s with
    cells := s.cells.push content
    environment := s.environment.extend name s.cells.size }

/-- Makes variables for the parameters of a routine. -/
def allocateAll (s : State) (parameters : List (Token × Value)) : State :=
  parameters.foldl (fun s p => s.allocate p.1.lexeme (some p.2)) s

/-- Gives a global name its value. -/
def setGlobal (s : State) (name : String) (v : Value) : State :=
  { s with globals := s.globals.put name v }

/-- Gives a variable its value. -/
def write (s : State) (location : Location) (v : Value) : State :=
  { s with cells := s.cells.setIfInBounds location (some v) }

/-- Declares a name that has its value at once. -/
def declare (s : State) (name : String) (v : Value) : State :=
  match s.environment with
  | .top => s.setGlobal name v
  | .inner _ => s.allocate name (some v)

/-- Declares a name whose initializer is still to come. A global name is not declared before its value is known. -/
def reserve (s : State) (name : String) : State :=
  match s.environment with
  | .top => s
  | .inner _ => s.allocate name none

/-- Gives a declared name the value of its initializer. -/
def settle (s : State) (name : String) (v : Value) : State :=
  match s.environment.find? name with
  | some location => s.write location v
  | none => s.setGlobal name v

/-- The value of a variable, if it has one. -/
def content? (s : State) (location : Location) : Option Value :=
  (s.cells[location]?).join

/-- The value of a name. -/
def read (s : State) (name : Token) : Except Fault Value :=
  let found := match s.environment.find? name.lexeme with
    | some location => s.content? location
    | none => s.globals.get? name.lexeme
  match found with
  | some v => .ok v
  | none => .error (.undefinedVariable name)

/-- Assigns to a name. A global name must have been declared. -/
def assign (s : State) (name : Token) (v : Value) : Except Fault State :=
  match s.environment.find? name.lexeme with
  | some location => .ok (s.write location v)
  | none =>
    if s.globals.has name.lexeme then .ok (s.setGlobal name.lexeme v) else .error (.undefinedVariable name)

/-- What `this` means in the environment of an initializer. -/
def receiver (s : State) (environment : Environment) : Value :=
  ((environment.find? "this").bind s.content?).getD .nil

/-- Makes a variable for `this` in an environment, which is not the current one. -/
def bindReceiver (s : State) (environment : Environment) (i : InstanceId) : State × Environment :=
  ({ s with cells := s.cells.push (some (.instanceValue i)) },
    environment.extend "this" s.cells.size)

/-! ### Functions, classes, instances -/

/-- Declares a function, which knows itself. -/
def declareFunction (s : State) (f : Function) : State :=
  let s := s.declare f.name.lexeme (.closure s.closures.size)
  { s with closures := s.closures.push ⟨f, s.environment, false⟩ }

/-- The methods of a class by name. Of two with one name the later counts. -/
def methodTable (methods : List Function) (environment : Environment) : Bindings Closure :=
  methods.foldl (fun table f => table.put f.name.lexeme ⟨f, environment, f.isInitializer⟩) []

/-- Declares a class, which its methods know. -/
def declareClass (s : State) (name : Token) (methods : List Function) : State :=
  let s := s.declare name.lexeme (.classValue s.classes.size)
  { s with classes := s.classes.push ⟨name.lexeme, methodTable methods s.environment⟩ }

/-- The class with a number. -/
def classAt (s : State) (c : ClassId) : Class :=
  s.classes.getD c default

/-- The instance with a number. -/
def instanceAt (s : State) (i : InstanceId) : Instance :=
  s.instances.getD i default

/-- The class of an instance. -/
def classOf (s : State) (i : InstanceId) : Class :=
  s.classAt (s.instanceAt i).classId

/-- Makes an instance without fields. -/
def newInstance (s : State) (c : ClassId) : State :=
  { s with instances := s.instances.push ⟨c, []⟩ }

/-- Gives a field of an instance its value. -/
def setField (s : State) (i : InstanceId) (name : String) (v : Value) : State :=
  { s with instances := s.instances.modify i fun o => { o with fields := o.fields.put name v } }

/-! ### Text -/

/-- The text of a value. -/
def display (s : State) : Value → String
  | .nil => Literal.nil.display
  | .bool b => (Literal.bool b).display
  | .number x => (Literal.number x).display
  | .text t => t
  | .clock => "<native fn>"
  | .closure f =>
    match s.closures[f]? with
    | some c => "<fn " ++ c.declaration.name.lexeme ++ ">"
    | none => "<fn >"
  | .classValue c => (s.classAt c).name
  | .instanceValue i => "<" ++ (s.classOf i).name ++ " instance>"

/-- Prints a value. -/
def print (s : State) (v : Value) : State :=
  { s with printed := s.printed.push (s.display v) }

/-- The global names in order, with the texts of their values. -/
def globalTexts (s : State) : List (String × String) :=
  (s.globals.map fun b => (b.1, s.display b.2)).mergeSort fun a b => a.1 ≤ b.1

end State

/-- The machine at one moment. Its work is that of the other machine, with environments in the place of frames. -/
structure Machine where
  control : Control Environment
  state : State

namespace Machine

/-- Fails with an error of the program at a token. -/
def fail (cause : RuntimeError.Cause) (token : Token) (below : ExprStack Environment) (s : State) : Machine :=
  ⟨.failExpr (.runtime ⟨cause, token⟩) below, s⟩

/-- Starts the body of a function in a scope of its own inside an environment, unless too many calls are open. -/
def enterBody (host : Host) (f : Function) (environment : Environment) (arguments : List Value)
    (yield : Yield Environment) (paren : Token) (below : ExprStack Environment) (s : State) : Machine :=
  if s.depth < host.callLimit then
    let inside := { s with depth := s.depth + 1, environment := environment.nest }
    ⟨.ended .normal (.sequence f.body (.finish s.environment yield below)),
      inside.allocateAll (f.parameters.zip arguments)⟩
  else fail .stackOverflow paren below s

/-- Calls a function or a method with as many arguments as it has parameters. -/
def callClosure (host : Host) (closure : Closure) (arguments : List Value) (paren : Token)
    (below : ExprStack Environment) (s : State) : Machine :=
  if arguments.length = closure.declaration.parameters.length then
    let yield := if closure.isInitializer then .receiver closure.environment else .returned
    enterBody host closure.declaration closure.environment arguments yield paren below s
  else fail (.wrongArity closure.declaration.parameters.length arguments.length) paren below s

/-- Calls a class: makes an instance and runs the initializer on it, if there is one. -/
def callClass (host : Host) (c : ClassId) (arguments : List Value) (paren : Token) (below : ExprStack Environment)
    (s : State) : Machine :=
  let made := s.instances.size
  match (s.classAt c).methods.get? Function.initializerName with
  | none =>
    if arguments.length = 0 then ⟨.give (.instanceValue made) below, s.newInstance c⟩
    else fail (.wrongArity 0 arguments.length) paren below s
  | some initializer =>
    if arguments.length = initializer.declaration.parameters.length then
      let (s, environment) := (s.newInstance c).bindReceiver initializer.environment made
      enterBody host initializer.declaration environment arguments (.created made) paren below s
    else fail (.wrongArity initializer.declaration.parameters.length arguments.length) paren below s

/-- Calls a value. -/
def call (host : Host) (callee : Value) (arguments : List Value) (paren : Token) (below : ExprStack Environment)
    (s : State) : Machine :=
  match callee with
  | .clock =>
    if arguments.length = 0 then ⟨.give (.number (host.clock s.ticks)) below, { s with ticks := s.ticks + 1 }⟩
    else fail (.wrongArity 0 arguments.length) paren below s
  | .closure f =>
    match s.closures[f]? with
    | some closure => callClosure host closure arguments paren below s
    | none => fail .notCallable paren below s
  | .classValue c => callClass host c arguments paren below s
  | _ => fail .notCallable paren below s

/-- A property of an instance: a field, or else a method that knows its instance. -/
def property (i : InstanceId) (name : Token) (below : ExprStack Environment) (s : State) : Machine :=
  match (s.instanceAt i).fields.get? name.lexeme with
  | some v => ⟨.give v below, s⟩
  | none =>
    match (s.classOf i).methods.get? name.lexeme with
    | some method =>
      let (s, environment) := s.bindReceiver method.environment i
      ⟨.give (.closure s.closures.size) below, { s with closures := s.closures.push { method with environment } }⟩
    | none => fail (.undefinedProperty name.lexeme) name below s

/-- Goes on with a value or with the fault in its place. -/
def giveResult (result : Except Fault Value) (below : ExprStack Environment) (s : State) : Machine :=
  match result with
  | .ok v => ⟨.give v below, s⟩
  | .error fault => ⟨.failExpr fault below, s⟩

/-- Begins an expression. -/
def eval (below : ExprStack Environment) (s : State) : Expr → Machine
  | .literal value => ⟨.give (.ofLiteral value) below, s⟩
  | .unary operator operand => ⟨.eval operand (.unary operator below), s⟩
  | .binary left operator right => ⟨.eval left (.binaryLeft operator right below), s⟩
  | .logical left operator right => ⟨.eval left (.logical operator right below), s⟩
  | .grouping inner => ⟨.eval inner below, s⟩
  | .use _ name => giveResult (s.read name) below s
  | .assign site name value => ⟨.eval value (.assign site name below), s⟩
  | .call callee paren arguments => ⟨.eval callee (.callee paren arguments below), s⟩
  | .get object name => ⟨.eval object (.get name below), s⟩
  | .set object name value => ⟨.eval object (.setTarget name value below), s⟩
  | .this _ keyword => giveResult (s.read keyword) below s

/-- Hands a value to the work that waits for it. -/
def give (host : Host) (v : Value) (s : State) : ExprStack Environment → Machine
  | .answer => ⟨.give v .answer, s⟩
  | .unary operator below => giveResult ((Operators.unary operator v).mapError .runtime) below s
  | .binaryLeft operator right below => ⟨.eval right (.binaryRight v operator below), s⟩
  | .binaryRight left operator below => giveResult ((Operators.binary operator left v).mapError .runtime) below s
  | .logical operator right below =>
    if Operators.decides operator v then ⟨.give v below, s⟩ else ⟨.eval right below, s⟩
  | .assign _ name below =>
    match s.assign name v with
    | .ok s => ⟨.give v below, s⟩
    | .error fault => ⟨.failExpr fault below, s⟩
  | .callee paren [] below => call host v [] paren below s
  | .callee paren (e :: rest) below => ⟨.eval e (.argument v #[] paren rest below), s⟩
  | .argument callee given paren [] below => call host callee (given.push v).toList paren below s
  | .argument callee given paren (e :: rest) below =>
    ⟨.eval e (.argument callee (given.push v) paren rest below), s⟩
  | .get name below =>
    match v with
    | .instanceValue i => property i name below s
    | _ => fail .noProperties name below s
  | .setTarget name value below =>
    match v with
    | .instanceValue i => ⟨.eval value (.setValue i name below), s⟩
    | _ => fail .noFields name below s
  | .setValue i name below => ⟨.give v below, s.setField i name.lexeme v⟩
  | .discard below => ⟨.ended .normal below, s⟩
  | .print below => ⟨.ended .normal below, s.print v⟩
  | .declare name below => ⟨.ended .normal below, s.settle name.lexeme v⟩
  | .branch whenTrue whenFalse below =>
    if v.isTruthy then ⟨.exec whenTrue below, s⟩
    else
      match whenFalse with
      | some statement => ⟨.exec statement below, s⟩
      | none => ⟨.ended .normal below, s⟩
  | .test condition body below =>
    if v.isTruthy then ⟨.exec body (.again condition body below), s⟩ else ⟨.ended .normal below, s⟩
  | .returnValue below => ⟨.ended (.returned v) below, s⟩

/-- Begins a statement. -/
def exec (below : StmtStack Environment) (s : State) : Stmt → Machine
  | .expression e => ⟨.eval e (.discard below), s⟩
  | .print e => ⟨.eval e (.print below), s⟩
  | .declareVariable name (some e) => ⟨.eval e (.declare name below), s.reserve name.lexeme⟩
  | .declareVariable name none => ⟨.ended .normal below, s.declare name.lexeme .nil⟩
  | .block body =>
    ⟨.ended .normal (.sequence body (.leave s.environment below)), { s with environment := s.environment.nest }⟩
  | .branch condition whenTrue whenFalse => ⟨.eval condition (.branch whenTrue whenFalse below), s⟩
  | .loop condition body => ⟨.eval condition (.test condition body below), s⟩
  | .declareFunction f => ⟨.ended .normal below, s.declareFunction f⟩
  | .returnValue _ (some e) => ⟨.eval e (.returnValue below), s⟩
  | .returnValue _ none => ⟨.ended (.returned .nil) below, s⟩
  | .declareClass name methods => ⟨.ended .normal below, s.declareClass name methods⟩

/-- The value of a call whose body has ended. -/
def yieldValue (s : State) (completion : Completion) : Yield Environment → Value
  | .returned =>
    match completion with
    | .normal => .nil
    | .returned v => v
  | .receiver environment => s.receiver environment
  | .created i => .instanceValue i

/-- Tells the work that waits that a statement has ended. A `return` at the top level ends nothing. -/
def ended (completion : Completion) (s : State) : StmtStack Environment → Machine
  | .program [] => ⟨.ended completion (.program []), s⟩
  | .program (statement :: rest) => ⟨.exec statement (.program rest), s⟩
  | .sequence [] below => ⟨.ended completion below, s⟩
  | .sequence (statement :: rest) below =>
    match completion with
    | .normal => ⟨.exec statement (.sequence rest below), s⟩
    | .returned _ => ⟨.ended completion below, s⟩
  | .again condition body below =>
    match completion with
    | .normal => ⟨.eval condition (.test condition body below), s⟩
    | .returned _ => ⟨.ended completion below, s⟩
  | .leave environment below => ⟨.ended completion below, { s with environment }⟩
  | .finish environment yield below =>
    ⟨.give (yieldValue s completion yield) below, { s with environment, depth := s.depth - 1 }⟩

/-- Drops the work that waits for a value which never comes. -/
def failExpr (fault : Fault) (s : State) : ExprStack Environment → Machine
  | .answer => ⟨.failExpr fault .answer, s⟩
  | .unary _ below | .binaryLeft _ _ below | .binaryRight _ _ below | .logical _ _ below
  | .assign _ _ below | .callee _ _ below | .argument _ _ _ _ below | .get _ below
  | .setTarget _ _ below | .setValue _ _ below => ⟨.failExpr fault below, s⟩
  | .discard below | .print below | .declare _ below | .branch _ _ below | .test _ _ below
  | .returnValue below => ⟨.failStmt fault below, s⟩

/-- Drops the work that waits for a statement which never ends. -/
def failStmt (fault : Fault) (s : State) : StmtStack Environment → Machine
  | .program rest => ⟨.failStmt fault (.program rest), s⟩
  | .sequence _ below | .again _ _ below => ⟨.failStmt fault below, s⟩
  | .leave environment below => ⟨.failStmt fault below, { s with environment }⟩
  | .finish environment _ below => ⟨.failExpr fault below, { s with environment, depth := s.depth - 1 }⟩

/-- One step. A machine that has stopped stays as it is. -/
def step (host : Host) : Machine → Machine
  | ⟨.eval e below, s⟩ => eval below s e
  | ⟨.give v below, s⟩ => give host v s below
  | ⟨.exec statement below, s⟩ => exec below s statement
  | ⟨.ended completion below, s⟩ => ended completion s below
  | ⟨.failExpr fault below, s⟩ => failExpr fault s below
  | ⟨.failStmt fault below, s⟩ => failStmt fault s below

/-- How far the machine has come. -/
def outcome (m : Machine) : LoxLanguage.Machine.Outcome :=
  match m.control with
  | .give v .answer => .answered v
  | .ended _ (.program []) => .completed
  | .failExpr fault .answer | .failStmt fault (.program _) => .failed fault
  | _ => .unfinished

/-- Takes steps until the machine stops, at most as many as it is given. -/
def run (host : Host) : Nat → Machine → Machine
  | 0, m => m
  | fuel + 1, m => if m.outcome = .unfinished then run host fuel (m.step host) else m

/-- The machine at the start of a program. -/
def ofProgram (statements : List Stmt) (s : State) : Machine :=
  ⟨.ended .normal (.program statements), s⟩

/-- The state between two programs. -/
def rest (m : Machine) : State :=
  { m.state with environment := .top, depth := 0 }

end Machine

end LoxLanguage.Lexical
