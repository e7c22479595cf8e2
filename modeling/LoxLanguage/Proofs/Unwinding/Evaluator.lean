import LoxLanguage.Machine.Step

/-! The reference evaluator, in which a `return` unwinds. It raises a signal with its value, and the signal is caught by the
nearest call around it. Blocks, branches and loops do nothing with a signal: it passes through them because
what comes behind it is not done. Errors of the program pass through everything.

An evaluation is given fuel for the depth of its recursion, and may run out of it. -/

namespace LoxLanguage.Unwinding

/-- What breaks off an evaluation: a `return` with its value, or a fault. -/
inductive Signal where
  | returning (v : Value)
  | fault (fault : Fault)
  deriving DecidableEq

/-- What can be done in a state: it gives a result or a signal, and the state behind it, unless fuel runs out. -/
def Action (α : Type) : Type :=
  State → Option (Except Signal α × State)

instance : Monad Action where
  pure a := fun s => some (.ok a, s)
  bind x f := fun s =>
    match x s with
    | none => none
    | some (.ok a, s') => f a s'
    | some (.error signal, s') => some (.error signal, s')

section Actions
variable {α β : Type}

/-- The fuel is used up. -/
def exhausted : Action α :=
  fun _ => none

/-- Ends with a signal. -/
def raise (signal : Signal) : Action α :=
  fun s => some (.error signal, s)

/-- The error of a program at a token. -/
def fail (cause : RuntimeError.Cause) (token : Token) : Action α :=
  raise (.fault (.runtime ⟨cause, token⟩))

/-- Goes on with a value, or raises the fault in its place. -/
def orFault : Except Fault α → Action α
  | .ok a => pure a
  | .error fault => raise (.fault fault)

/-- Goes on with a value, or raises the error in its place. -/
def orError : Except RuntimeError α → Action α
  | .ok a => pure a
  | .error error => raise (.fault (.runtime error))

/-- The state as it is. -/
def state : Action State :=
  fun s => some (.ok s, s)

/-- Changes the state. -/
def change (f : State → State) : Action Unit :=
  fun s => some (.ok (), f s)

/-- Does something in the state that `enter` gives. However that ends, `leave` puts back what belongs to the state
    before. -/
def within (enter : State → State) (leave : State → State → State) (body : Action α) : Action α :=
  fun s => (body (enter s)).map fun ended => (ended.1, leave s ended.2)

/-- A `return` gives its value, and statements that end without one give nil. -/
def caught : Except Signal Unit → Except Signal Value
  | .ok _ => .ok .nil
  | .error (.returning v) => .ok v
  | .error (.fault fault) => .error (.fault fault)

/-- Catches a `return`. -/
def catching (body : Action Unit) : Action Value :=
  fun s => (body s).map fun ended => (caught ended.1, ended.2)

/-- Does the same with each, one after the other. -/
def each (act : α → Action β) : List α → Action (List β)
  | [] => pure []
  | a :: rest => do
    let b ← act a
    let others ← each act rest
    pure (b :: others)

/-- Executes statements one after the other. -/
def all (exec : Stmt → Action Unit) : List Stmt → Action Unit
  | [] => pure ()
  | statement :: rest => do
    exec statement
    all exec rest

end Actions

/-! ### Calls -/

section Calls
variable (setting : Setting) (exec : Stmt → Action Unit) (arguments : List Value) (paren : Token)

/-- Runs the body of a function in a new frame inside `scope`, unless too many calls are open. This is where a `return` is
    caught. -/
def invoke (closure : Closure) (scope : FrameId) : Action Value := do
  if (← state).depth < setting.callLimit then
    within
      (fun s => State.enter { s with depth := s.depth + 1 } scope (closure.bindParameters arguments))
      (fun caller s => { s with current := caller.current, depth := s.depth - 1 })
      (catching (all exec closure.declaration.body))
  else fail .stackOverflow paren

/-- Calls a function value. An initializer gives its receiver, whatever it returns. -/
def callClosure (closure : Closure) : Action Value :=
  if arguments.length = closure.arity then do
    let v ← invoke setting exec arguments paren closure closure.scope
    if closure.isInitializer then
      let s ← state
      pure ((s.store.localValue? closure.scope "this").getD .nil)
    else pure v
  else fail (.wrongArity closure.arity arguments.length) paren

/-- Calls a class: makes an instance and runs the initializer on it, if there is one. -/
def callClass (c : ClassId) : Action Value := do
  let s ← state
  let made := s.store.instances.size
  match (s.store.classAt c).methods.get? Function.initializerName with
  | none =>
    if arguments.length = 0 then
      change fun s => { s with store := s.store.newInstance c }
      pure (.instanceValue made)
    else fail (.wrongArity 0 arguments.length) paren
  | some initializer =>
    if arguments.length = initializer.arity then
      change fun s =>
        { s with store := (s.store.newInstance c).newFrame (some initializer.scope) [("this", .instanceValue made)] }
      let _ ← invoke setting exec arguments paren initializer s.store.nextFrame
      pure (.instanceValue made)
    else fail (.wrongArity initializer.arity arguments.length) paren

/-- Calls a value. -/
def call (callee : Value) : Action Value :=
  match callee with
  | .clock =>
    if arguments.length = 0 then do
      let s ← state
      change fun s => { s with ticks := s.ticks + 1 }
      pure (.number (setting.clock s.ticks))
    else fail (.wrongArity 0 arguments.length) paren
  | .closure f => do
    match (← state).store.closures[f]? with
    | some closure => callClosure setting exec arguments paren closure
    | none => fail .notCallable paren
  | .classValue c => callClass setting exec arguments paren c
  | _ => fail .notCallable paren

end Calls

/-- A property of an instance: a field, or else a method bound to the instance in a frame of its own. -/
def property (i : InstanceId) (name : Token) : Action Value := do
  let s ← state
  match (s.store.instanceAt i).fields.get? name.lexeme with
  | some v => pure v
  | none =>
    match (s.store.classOf i).methods.get? name.lexeme with
    | some method =>
      change fun s =>
        { s with
          store := (s.store.newFrame (some method.scope) [("this", .instanceValue i)]).newClosure
            { method with scope := s.store.nextFrame } }
      pure (.closure s.store.closures.size)
    | none => fail (.undefinedProperty name.lexeme) name

/-! ### Expressions and statements -/

mutual

/-- Evaluates an expression. -/
def eval (setting : Setting) : Nat → Expr → Action Value
  | 0, _ => exhausted
  | _ + 1, .literal value => pure (.ofLiteral value)
  | fuel + 1, .unary operator operand => do
    let v ← eval setting fuel operand
    orError (Operators.unary operator v)
  | fuel + 1, .binary left operator right => do
    let v ← eval setting fuel left
    let w ← eval setting fuel right
    orError (Operators.binary operator v w)
  | fuel + 1, .logical left operator right => do
    let v ← eval setting fuel left
    if Operators.decides operator v then pure v else eval setting fuel right
  | fuel + 1, .grouping inner => eval setting fuel inner
  | _ + 1, .use site name => do
    orFault ((← state).read setting site name)
  | fuel + 1, .assign site name value => do
    let v ← eval setting fuel value
    let f ← orFault ((← state).target setting site name)
    change fun s => s.defineIn f name.lexeme v
    pure v
  | fuel + 1, .call callee paren arguments => do
    let f ← eval setting fuel callee
    let given ← each (eval setting fuel) arguments
    call setting (exec setting fuel) given paren f
  | fuel + 1, .get object name => do
    match ← eval setting fuel object with
    | .instanceValue i => property i name
    | _ => fail .noProperties name
  | fuel + 1, .set object name value => do
    match ← eval setting fuel object with
    | .instanceValue i =>
      let v ← eval setting fuel value
      change fun s => { s with store := s.store.setField i name.lexeme v }
      pure v
    | _ => fail .noFields name
  | _ + 1, .this site keyword => do
    orFault ((← state).read setting site keyword)

/-- Executes a statement. -/
def exec (setting : Setting) : Nat → Stmt → Action Unit
  | 0, _ => exhausted
  | fuel + 1, .expression e => do
    let _ ← eval setting fuel e
    pure ()
  | fuel + 1, .print e => do
    let v ← eval setting fuel e
    change fun s => s.print v
  | fuel + 1, .declareVariable name (some e) => do
    let v ← eval setting fuel e
    change fun s => s.define name.lexeme v
  | _ + 1, .declareVariable name none => change fun s => s.define name.lexeme .nil
  | fuel + 1, .block body =>
    within (fun s => s.enter s.current []) (fun outer s => { s with current := outer.current })
      (all (exec setting fuel) body)
  | fuel + 1, .branch condition whenTrue whenFalse => do
    let v ← eval setting fuel condition
    if v.isTruthy then exec setting fuel whenTrue
    else
      match whenFalse with
      | some statement => exec setting fuel statement
      | none => pure ()
  | fuel + 1, .loop condition body => do
    let v ← eval setting fuel condition
    if v.isTruthy then
      exec setting fuel body
      exec setting fuel (.loop condition body)
    else pure ()
  | _ + 1, .declareFunction f => change fun s => s.declareFunction f
  | fuel + 1, .returnValue _ (some e) => do
    let v ← eval setting fuel e
    raise (.returning v)
  | _ + 1, .returnValue _ none => raise (.returning .nil)
  | _ + 1, .declareClass name methods => change fun s => s.declareClass name methods

end

/-- Runs a program: its statements one after the other. -/
def run (setting : Setting) (fuel : Nat) (program : List Stmt) : Action Unit :=
  all (exec setting fuel) program

end LoxLanguage.Unwinding
