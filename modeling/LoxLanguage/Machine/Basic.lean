import LoxLanguage.Scope.Distances
import LoxLanguage.Store.Basic
import LoxLanguage.Store.RuntimeError

/-! The machine that runs programs: what it is about to do, the work that waits below, and the state that
a program can change. The work that waits is data of its own, so the depth of a program's calls is bounded
by a number that the machine is given and by nothing else. -/

namespace LoxLanguage

/-- How a statement ends: normally, or by a `return` on its way to the call that it ends. -/
inductive Completion where
  | normal
  | returned (v : Value)
  deriving DecidableEq

/-- Why a run cannot go on: an error of the program, or a distance that leads out of the chain of frames. -/
inductive Fault where
  | runtime (error : RuntimeError)
  | strayed (missing : Store.Missing)
  deriving DecidableEq

/-- The error of a use whose name is bound nowhere. -/
def Fault.undefinedVariable (name : Token) : Fault :=
  .runtime ⟨.undefinedVariable name.lexeme, name⟩

/-- The value of a call whose body has ended: what the body returned, the `this` of an initializer (bound
    in the scope around its parameters), or the instance that a class has made. -/
inductive Yield (σ : Type) where
  | returned
  | receiver (scope : σ)
  | created (i : InstanceId)
  deriving DecidableEq

mutual

/-- Work that waits for the value of an expression. A scope that is put back later is of type `σ`. -/
inductive ExprStack (σ : Type) where
  | answer
  | unary (operator : Token) (below : ExprStack σ)
  | binaryLeft (operator : Token) (right : Expr) (below : ExprStack σ)
  | binaryRight (left : Value) (operator : Token) (below : ExprStack σ)
  | logical (operator : Token) (right : Expr) (below : ExprStack σ)
  | assign (site : Site) (name : Token) (below : ExprStack σ)
  | callee (paren : Token) (arguments : List Expr) (below : ExprStack σ)
  | argument (callee : Value) (given : Array Value) (paren : Token) (rest : List Expr) (below : ExprStack σ)
  | get (name : Token) (below : ExprStack σ)
  | setTarget (name : Token) (value : Expr) (below : ExprStack σ)
  | setValue (i : InstanceId) (name : Token) (below : ExprStack σ)
  | discard (below : StmtStack σ)
  | print (below : StmtStack σ)
  | declare (name : Token) (below : StmtStack σ)
  | branch (whenTrue : Stmt) (whenFalse : Option Stmt) (below : StmtStack σ)
  | test (condition : Expr) (body : Stmt) (below : StmtStack σ)
  | returnValue (below : StmtStack σ)

/-- Work that waits for the end of a statement. -/
inductive StmtStack (σ : Type) where
  | program (rest : List Stmt)
  | sequence (rest : List Stmt) (below : StmtStack σ)
  | again (condition : Expr) (body : Stmt) (below : StmtStack σ)
  | leave (scope : σ) (below : StmtStack σ)
  | finish (scope : σ) (yield : Yield σ) (below : ExprStack σ)

end

/-- What the machine is about to do, above the work that waits. -/
inductive Control (σ : Type) where
  | eval (e : Expr) (below : ExprStack σ)
  | give (v : Value) (below : ExprStack σ)
  | exec (s : Stmt) (below : StmtStack σ)
  | ended (completion : Completion) (below : StmtStack σ)
  | failExpr (fault : Fault) (below : ExprStack σ)
  | failStmt (fault : Fault) (below : StmtStack σ)

/-- What a program can change: the store, the current frame, the number of calls that have not ended, the
    lines printed, and how often the clock was read. -/
structure State where
  store : Store
  current : FrameId
  depth : Nat
  printed : Array String
  ticks : Nat

/-- What a program cannot change: the distances of its uses, how many calls may be open at once, and the
    readings of the clock. -/
structure Setting where
  distances : Distances
  callLimit : Nat
  clock : Nat → Number

/-- The machine at one moment. -/
structure Machine where
  control : Control FrameId
  state : State

namespace State

/-- The state in which a session starts. -/
def initial : State :=
  { store := .initial, current := Store.globals, depth := 0, printed := #[], ticks := 0 }

/-- Binds a name in the current frame. -/
def define (s : State) (name : String) (v : Value) : State :=
  { s with store := s.store.define s.current name v }

/-- Binds a name in a given frame. -/
def defineIn (s : State) (f : FrameId) (name : String) (v : Value) : State :=
  { s with store := s.store.define f name v }

/-- Prints a line. -/
def print (s : State) (v : Value) : State :=
  { s with printed := s.printed.push (s.store.display v) }

/-- The text that has been printed from a line on. -/
def output (s : State) (first : Nat) : String :=
  String.join ((s.printed.toList.drop first).map (· ++ "\n"))

/-- The global names with the texts of their values, sorted by name. -/
def globalTexts (s : State) : List (String × String) :=
  ((s.store.frame Store.globals).bindings.map fun b => (b.1, s.store.display b.2)).mergeSort
    fun a b => a.1 ≤ b.1

/-- Opens a frame inside a given one and makes it the current frame. -/
def enter (s : State) (parent : FrameId) (bindings : Bindings Value) : State :=
  let address := s.store.nextFrame
  { s with store := s.store.newFrame (some parent) bindings, current := address }

/-- Makes a function value and binds it in the current frame. -/
def declareFunction (s : State) (f : Function) : State :=
  let address := s.store.closures.size
  { s with store := (s.store.newClosure ⟨f, s.current, false⟩).define s.current f.name.lexeme (.closure address) }

/-- The methods of a class that is declared in a frame. Of two methods with one name the later one counts. -/
def methodTable (methods : List Function) (scope : FrameId) : Bindings Closure :=
  methods.foldl (fun table f => table.put f.name.lexeme ⟨f, scope, f.isInitializer⟩) []

/-- Makes a class and binds it in the current frame. -/
def declareClass (s : State) (name : Token) (methods : List Function) : State :=
  let address := s.store.classes.size
  let made := s.store.newClass ⟨name.lexeme, methodTable methods s.current⟩
  { s with store := made.define s.current name.lexeme (.classValue address) }

/-- The value of a use: from the frame at its distance, or by name from the globals. -/
def read (s : State) (setting : Setting) (site : Site) (name : Token) : Except Fault Value :=
  match setting.distances.get? site with
  | some distance =>
    match s.store.valueAt distance s.current name.lexeme with
    | .ok v => .ok v
    | .error .undefined => .error (.undefinedVariable name)
    | .error (.strayed missing) => .error (.strayed missing)
  | none =>
    match s.store.lookup? Store.globals name.lexeme with
    | some v => .ok v
    | none => .error (.undefinedVariable name)

/-- The frame that an assignment writes to: the one at its distance, or the globals if they bind the name. -/
def target (s : State) (setting : Setting) (site : Site) (name : Token) : Except Fault FrameId :=
  match setting.distances.get? site with
  | some distance =>
    match s.store.frameAt? distance s.current with
    | some f => .ok f
    | none => .error (.strayed (s.store.missing distance s.current))
  | none =>
    match s.store.holder? Store.globals name.lexeme with
    | some f => .ok f
    | none => .error (.undefinedVariable name)

end State

end LoxLanguage
