import LoxLanguage.Proofs.Lexical.Machine
import LoxLanguage.Proofs.Tree.Relabel

/-! The reference machine never looks at lines and labels: on a program with other lines and labels, and a state whose
functions have them too, it takes the same steps, and an error arises at the token with the other line. -/

namespace LoxLanguage

open Lexical (Environment)

/-! ### Work -/

namespace Relabelling

variable (ρ : Relabelling)

/-- A fault at a relabelled token. -/
def fault : Fault → Fault
  | .runtime error => .runtime { error with token := ρ.token error.token }
  | .strayed missing => .strayed missing

/-- An outcome with its fault relabelled. -/
def outcome : Machine.Outcome → Machine.Outcome
  | .failed fault => .failed (ρ.fault fault)
  | other => other

end Relabelling

section Work
variable (ρ : Relabelling)

mutual

/-- Work that waits for a value, with its tokens relabelled. -/
def ExprStack.relabel {σ : Type} : ExprStack σ → ExprStack σ
  | .answer => .answer
  | .unary operator below => .unary (ρ.token operator) below.relabel
  | .binaryLeft operator right below => .binaryLeft (ρ.token operator) (right.relabel ρ) below.relabel
  | .binaryRight left operator below => .binaryRight left (ρ.token operator) below.relabel
  | .logical operator right below => .logical (ρ.token operator) (right.relabel ρ) below.relabel
  | .assign site name below => .assign (ρ.site site) (ρ.token name) below.relabel
  | .callee paren arguments below => .callee (ρ.token paren) (arguments.map (Expr.relabel ρ)) below.relabel
  | .argument callee given paren rest below =>
    .argument callee given (ρ.token paren) (rest.map (Expr.relabel ρ)) below.relabel
  | .get name below => .get (ρ.token name) below.relabel
  | .setTarget name value below => .setTarget (ρ.token name) (value.relabel ρ) below.relabel
  | .setValue i name below => .setValue i (ρ.token name) below.relabel
  | .discard below => .discard below.relabel
  | .print below => .print below.relabel
  | .declare name below => .declare (ρ.token name) below.relabel
  | .branch whenTrue whenFalse below =>
    .branch (whenTrue.relabel ρ) (whenFalse.map (Stmt.relabel ρ)) below.relabel
  | .test condition body below => .test (condition.relabel ρ) (body.relabel ρ) below.relabel
  | .returnValue below => .returnValue below.relabel

/-- Work that waits for the end of a statement, with its tokens relabelled. -/
def StmtStack.relabel {σ : Type} : StmtStack σ → StmtStack σ
  | .program rest => .program (rest.map (Stmt.relabel ρ))
  | .sequence rest below => .sequence (rest.map (Stmt.relabel ρ)) below.relabel
  | .again condition body below => .again (condition.relabel ρ) (body.relabel ρ) below.relabel
  | .leave scope below => .leave scope below.relabel
  | .finish scope yield below => .finish scope yield below.relabel

end

/-- What a machine is doing, with its tokens relabelled. -/
def Control.relabel {σ : Type} : Control σ → Control σ
  | .eval e below => .eval (e.relabel ρ) (below.relabel ρ)
  | .give v below => .give v (below.relabel ρ)
  | .exec s below => .exec (s.relabel ρ) (below.relabel ρ)
  | .ended completion below => .ended completion (below.relabel ρ)
  | .failExpr fault below => .failExpr (ρ.fault fault) (below.relabel ρ)
  | .failStmt fault below => .failStmt (ρ.fault fault) (below.relabel ρ)

end Work

/-! ### States -/

theorem Bindings.get?_map {α β : Type} (f : α → β) (b : Bindings α) (name : String) :
    Bindings.get? (b.map fun entry => (entry.1, f entry.2)) name = (b.get? name).map f := by
  induction b with
  | nil => rfl
  | cons entry rest ih =>
    rw [List.map_cons, get?_cons, get?_cons, ih]
    split <;> rfl

theorem Bindings.put_map {α β : Type} (f : α → β) (b : Bindings α) (name : String) (a : α) :
    Bindings.put (b.map fun entry => (entry.1, f entry.2)) name (f a) =
      (b.put name a).map fun entry => (entry.1, f entry.2) := by
  induction b with
  | nil => rfl
  | cons entry rest ih =>
    obtain ⟨other, old⟩ := entry
    rw [List.map_cons, put, put, ih]
    split <;> rfl

theorem Bindings.foldl_put_map {α β γ : Type} (f : α → β) (name : γ → String) (value : γ → α) (items : List γ)
    (b : Bindings α) :
    items.foldl (fun (b : Bindings β) item => b.put (name item) (f (value item))) (b.map fun entry => (entry.1, f entry.2)) =
      (items.foldl (fun (b : Bindings α) item => b.put (name item) (value item)) b).map
        fun entry => (entry.1, f entry.2) := by
  induction items generalizing b with
  | nil => rfl
  | cons item rest ih => rw [List.foldl_cons, List.foldl_cons, put_map, ih]

namespace Lexical

variable (ρ : Relabelling)

/-- A function with its declaration relabelled. -/
def Closure.relabel (c : Closure) : Closure :=
  { c with declaration := c.declaration.relabel ρ }

/-- A class with its methods relabelled. -/
def Class.relabel (c : Class) : Class :=
  { c with methods := c.methods.map fun entry => (entry.1, entry.2.relabel ρ) }

namespace State

/-- A state whose functions and classes are relabelled. -/
def relabel (s : State) : State :=
  { s with closures := s.closures.map (Closure.relabel ρ), classes := s.classes.map (Class.relabel ρ) }

variable (s : State)

@[simp]
theorem relabel_allocate (name : String) (content : Option Value) :
    (s.relabel ρ).allocate name content = (s.allocate name content).relabel ρ := rfl

@[simp]
theorem relabel_setGlobal (name : String) (v : Value) :
    (s.relabel ρ).setGlobal name v = (s.setGlobal name v).relabel ρ := rfl

@[simp]
theorem relabel_write (location : Location) (v : Value) :
    (s.relabel ρ).write location v = (s.write location v).relabel ρ := rfl

@[simp]
theorem relabel_newInstance (c : ClassId) : (s.relabel ρ).newInstance c = (s.newInstance c).relabel ρ := rfl

@[simp]
theorem relabel_setField (i : InstanceId) (name : String) (v : Value) :
    (s.relabel ρ).setField i name v = (s.setField i name v).relabel ρ := rfl

@[simp]
theorem relabel_declare (name : String) (v : Value) : (s.relabel ρ).declare name v = (s.declare name v).relabel ρ := by
  have henvironment : (s.relabel ρ).environment = s.environment := rfl
  unfold declare
  rw [henvironment]
  split <;> rfl

@[simp]
theorem relabel_reserve (name : String) : (s.relabel ρ).reserve name = (s.reserve name).relabel ρ := by
  have henvironment : (s.relabel ρ).environment = s.environment := rfl
  unfold reserve
  rw [henvironment]
  split <;> rfl

@[simp]
theorem relabel_settle (name : String) (v : Value) : (s.relabel ρ).settle name v = (s.settle name v).relabel ρ := by
  have henvironment : (s.relabel ρ).environment = s.environment := rfl
  unfold settle
  rw [henvironment]
  split <;> rfl

theorem relabel_allocateAll (names : List Token) (arguments : List Value) :
    (s.relabel ρ).allocateAll ((names.map ρ.token).zip arguments) =
      (s.allocateAll (names.zip arguments)).relabel ρ := by
  unfold allocateAll
  induction names generalizing s arguments with
  | nil => rfl
  | cons name rest ih =>
    cases arguments with
    | nil => rfl
    | cons v arguments => exact ih (s.allocate name.lexeme (some v)) arguments

theorem relabel_read (name : Token) : (s.relabel ρ).read (ρ.token name) = (s.read name).mapError ρ.fault := by
  dsimp only [read, relabel, content?, Relabelling.token_lexeme]
  cases s.environment.find? name.lexeme with
  | none => cases s.globals.get? name.lexeme <;> rfl
  | some location =>
    dsimp only
    cases (s.cells[location]?).join <;> rfl

theorem relabel_assign (name : Token) (v : Value) :
    (s.relabel ρ).assign (ρ.token name) v = ((s.assign name v).map (relabel ρ)).mapError ρ.fault := by
  have henvironment : (s.relabel ρ).environment = s.environment := rfl
  have hglobals : (s.relabel ρ).globals = s.globals := rfl
  simp only [assign, henvironment, hglobals, Relabelling.token_lexeme]
  cases s.environment.find? name.lexeme with
  | none =>
    dsimp only
    split <;> rfl
  | some location => rfl

theorem relabel_declareFunction (f : Function) :
    (s.relabel ρ).declareFunction (f.relabel ρ) = (s.declareFunction f).relabel ρ := by
  unfold declareFunction
  have hsize : (s.relabel ρ).closures.size = s.closures.size := Array.size_map
  rw [hsize, Function.relabel_name, Relabelling.token_lexeme, relabel_declare]
  simp [relabel, Closure.relabel]

theorem relabel_methodTable (methods : List Function) (environment : Environment) :
    methodTable (methods.map (Function.relabel ρ)) environment =
      (methodTable methods environment).map fun entry => (entry.1, entry.2.relabel ρ) := by
  have hfold := Bindings.foldl_put_map (Closure.relabel ρ) (fun f : Function => f.name.lexeme)
    (fun f => ⟨f, environment, f.isInitializer⟩) methods []
  rw [methodTable, List.foldl_map]
  simp only [Function.relabel_name, Function.relabel_isInitializer, Relabelling.token_lexeme]
  exact hfold

theorem relabel_declareClass (name : Token) (methods : List Function) :
    (s.relabel ρ).declareClass (ρ.token name) (methods.map (Function.relabel ρ)) =
      (s.declareClass name methods).relabel ρ := by
  unfold declareClass
  have hsize : (s.relabel ρ).classes.size = s.classes.size := Array.size_map
  rw [hsize, Relabelling.token_lexeme, relabel_declare]
  simp [relabel, Class.relabel, relabel_methodTable]

@[simp]
theorem relabel_classAt (c : ClassId) : (s.relabel ρ).classAt c = (s.classAt c).relabel ρ := by
  simp only [classAt, relabel, Array.getD_eq_getD_getElem?, Array.getElem?_map]
  cases s.classes[c]? <;> rfl

@[simp]
theorem relabel_classOf (i : InstanceId) : (s.relabel ρ).classOf i = (s.classOf i).relabel ρ :=
  relabel_classAt ρ s _

/-- What is shown of a value does not depend on lines and labels. -/
@[simp]
theorem relabel_display (v : Value) : (s.relabel ρ).display v = s.display v := by
  cases v with
  | closure f =>
    simp only [display, relabel, Array.getElem?_map]
    cases s.closures[f]? with
    | none => rfl
    | some c => simp [Closure.relabel]
  | classValue c => simp [display, Class.relabel]
  | instanceValue i => simp [display, Class.relabel]
  | _ => rfl

@[simp]
theorem relabel_print (v : Value) : (s.relabel ρ).print v = (s.print v).relabel ρ := by
  unfold print
  rw [relabel_display]
  rfl

theorem relabel_printed : (s.relabel ρ).printed = s.printed := rfl

theorem relabel_globalTexts : (s.relabel ρ).globalTexts = s.globalTexts := by
  simp only [globalTexts, relabel_display]
  rfl

end State

/-! ### Steps -/

theorem relabel_unary (operator : Token) (v : Value) : (Operators.unary (ρ.token operator) v).mapError Fault.runtime =
    ((Operators.unary operator v).mapError Fault.runtime).mapError ρ.fault := by
  unfold Operators.unary
  rw [Relabelling.token_kind]
  split
  · rfl
  · split <;> rfl
  · rfl

theorem relabel_binary (operator : Token) (left right : Value) :
    (Operators.binary (ρ.token operator) left right).mapError Fault.runtime =
      ((Operators.binary operator left right).mapError Fault.runtime).mapError ρ.fault := by
  unfold Operators.binary
  rw [Relabelling.token_kind]
  split
  · rfl
  · rfl
  · cases Operators.plus? left right <;> rfl
  · split
    · split <;> rfl
    · rfl

namespace Machine

/-- A machine with its tokens relabelled. -/
def relabel (m : Machine) : Machine :=
  ⟨m.control.relabel ρ, m.state.relabel ρ⟩

theorem relabel_state (m : Machine) : (m.relabel ρ).state = m.state.relabel ρ := rfl

variable (host : Host) (s : State) (below : ExprStack Environment) (paren : Token) (arguments : List Value)

theorem relabel_giveResult (result : Except Fault Value) :
    giveResult (result.mapError ρ.fault) (below.relabel ρ) (s.relabel ρ) = (giveResult result below s).relabel ρ := by
  cases result <;> rfl

theorem relabel_enterBody (f : Function) (environment : Environment) (yield : Yield Environment) :
    enterBody host (f.relabel ρ) environment arguments yield (ρ.token paren) (below.relabel ρ) (s.relabel ρ) =
      (enterBody host f environment arguments yield paren below s).relabel ρ := by
  have hdepth : (s.relabel ρ).depth = s.depth := rfl
  unfold enterBody
  rw [hdepth]
  split
  · rw [Function.relabel_body, Function.relabel_parameters]
    show Machine.mk _ ({ s with depth := s.depth + 1, environment := environment.nest }.relabel ρ |>.allocateAll _) = _
    rw [State.relabel_allocateAll]
    rfl
  · rfl

theorem relabel_callClosure (closure : Closure) :
    callClosure host (closure.relabel ρ) arguments (ρ.token paren) (below.relabel ρ) (s.relabel ρ) =
      (callClosure host closure arguments paren below s).relabel ρ := by
  simp only [callClosure, Closure.relabel, Function.relabel_parameters, List.length_map]
  split
  · exact relabel_enterBody ρ host s below paren arguments _ _ _
  · rfl

theorem relabel_callClass (c : ClassId) :
    callClass host c arguments (ρ.token paren) (below.relabel ρ) (s.relabel ρ) =
      (callClass host c arguments paren below s).relabel ρ := by
  unfold callClass
  rw [State.relabel_classAt, Class.relabel]
  dsimp only
  rw [Bindings.get?_map]
  cases (s.classAt c).methods.get? Function.initializerName with
  | none =>
    dsimp only [Option.map_none]
    split <;> rfl
  | some initializer =>
    simp only [Option.map_some, Closure.relabel, Function.relabel_parameters, List.length_map]
    split
    · exact relabel_enterBody ρ host ((s.newInstance c).bindReceiver initializer.environment s.instances.size).1 below
        paren arguments initializer.declaration _ _
    · rfl

theorem relabel_call (callee : Value) :
    call host callee arguments (ρ.token paren) (below.relabel ρ) (s.relabel ρ) =
      (call host callee arguments paren below s).relabel ρ := by
  cases callee with
  | clock =>
    simp only [call]
    split <;> rfl
  | closure f =>
    have hclosures : (s.relabel ρ).closures[f]? = (s.closures[f]?).map (Closure.relabel ρ) := Array.getElem?_map
    unfold call
    dsimp only
    rw [hclosures]
    cases s.closures[f]? with
    | none => rfl
    | some closure => exact relabel_callClosure ρ host s below paren arguments closure
  | classValue c => exact relabel_callClass ρ host s below paren arguments c
  | _ => rfl

theorem relabel_property (i : InstanceId) (name : Token) :
    property i (ρ.token name) (below.relabel ρ) (s.relabel ρ) = (property i name below s).relabel ρ := by
  have hfields : ((s.relabel ρ).instanceAt i).fields = (s.instanceAt i).fields := rfl
  unfold property
  rw [hfields, State.relabel_classOf, Class.relabel, Relabelling.token_lexeme]
  cases (s.instanceAt i).fields.get? name.lexeme with
  | some v => rfl
  | none =>
    dsimp only
    rw [Bindings.get?_map]
    cases (s.classOf i).methods.get? name.lexeme with
    | none => rfl
    | some method =>
      simp [relabel, State.relabel, State.bindReceiver, Control.relabel, Closure.relabel]

theorem relabel_eval (e : Expr) : eval (below.relabel ρ) (s.relabel ρ) (e.relabel ρ) = (eval below s e).relabel ρ := by
  cases e with
  | use site name =>
    rw [Expr.relabel, eval, State.relabel_read, relabel_giveResult]
    rfl
  | this site keyword =>
    rw [Expr.relabel, eval, State.relabel_read, relabel_giveResult]
    rfl
  | call callee paren arguments =>
    rw [Expr.relabel, Expr.relabelAll_eq]
    rfl
  | _ => rfl

theorem relabel_give (v : Value) : give host v (s.relabel ρ) (below.relabel ρ) = (give host v s below).relabel ρ := by
  cases below with
  | unary operator below =>
    rw [ExprStack.relabel, give, relabel_unary, relabel_giveResult]
    rfl
  | binaryRight left operator below =>
    rw [ExprStack.relabel, give, relabel_binary, relabel_giveResult]
    rfl
  | logical operator right below =>
    have hdecides : Operators.decides (ρ.token operator) v = Operators.decides operator v := rfl
    rw [ExprStack.relabel, give, give, hdecides]
    split <;> rfl
  | assign site name below =>
    rw [ExprStack.relabel, give, give, State.relabel_assign]
    cases s.assign name v <;> rfl
  | callee paren arguments below =>
    cases arguments with
    | nil => exact relabel_call ρ host s below paren [] v
    | cons e rest => rfl
  | argument callee given paren rest below =>
    cases rest with
    | nil => exact relabel_call ρ host s below paren _ callee
    | cons e rest => rfl
  | get name below =>
    cases v with
    | instanceValue i => exact relabel_property ρ s below i name
    | _ => rfl
  | setTarget name value below => cases v <;> rfl
  | print below =>
    rw [ExprStack.relabel, give, give, State.relabel_print]
    rfl
  | declare name below =>
    rw [ExprStack.relabel, give, give, Relabelling.token_lexeme, State.relabel_settle]
    rfl
  | branch whenTrue whenFalse below =>
    cases whenFalse with
    | none =>
      simp only [ExprStack.relabel, give, Option.map_none]
      split <;> rfl
    | some statement =>
      simp only [ExprStack.relabel, give, Option.map_some]
      split <;> rfl
  | test condition body below =>
    rw [ExprStack.relabel, give, give]
    split <;> rfl
  | _ => rfl

theorem relabel_exec (below : StmtStack Environment) (statement : Stmt) :
    exec (below.relabel ρ) (s.relabel ρ) (statement.relabel ρ) = (exec below s statement).relabel ρ := by
  cases statement with
  | declareVariable name initializer =>
    cases initializer with
    | none =>
      rw [Stmt.relabel, Option.map_none, exec, exec, Relabelling.token_lexeme, State.relabel_declare]
      rfl
    | some e =>
      rw [Stmt.relabel, Option.map_some, exec, exec, Relabelling.token_lexeme, State.relabel_reserve]
      rfl
  | block body =>
    rw [Stmt.relabel, Stmt.relabelAll_eq]
    rfl
  | branch condition whenTrue whenFalse =>
    rw [Stmt.relabel, Stmt.relabelOption_eq]
    rfl
  | declareFunction f =>
    rw [Stmt.relabel, exec, exec, State.relabel_declareFunction]
    rfl
  | returnValue keyword value => cases value <;> rfl
  | declareClass name methods =>
    rw [Stmt.relabel, Function.relabelAll_eq, exec, exec, State.relabel_declareClass]
    rfl
  | _ => rfl

theorem relabel_ended (completion : Completion) (below : StmtStack Environment) :
    ended completion (s.relabel ρ) (below.relabel ρ) = (ended completion s below).relabel ρ := by
  cases below with
  | program rest => cases rest <;> rfl
  | sequence rest below => cases rest <;> cases completion <;> rfl
  | again condition body below => cases completion <;> rfl
  | leave environment below => rfl
  | finish environment yield below => cases yield <;> rfl

theorem relabel_failExpr (fault : Fault) :
    failExpr (ρ.fault fault) (s.relabel ρ) (below.relabel ρ) = (failExpr fault s below).relabel ρ := by
  cases below <;> rfl

theorem relabel_failStmt (fault : Fault) (below : StmtStack Environment) :
    failStmt (ρ.fault fault) (s.relabel ρ) (below.relabel ρ) = (failStmt fault s below).relabel ρ := by
  cases below <;> rfl

/-- A step does not depend on lines and labels. -/
theorem relabel_step (m : Machine) : (m.relabel ρ).step host = (m.step host).relabel ρ := by
  obtain ⟨control, s⟩ := m
  cases control with
  | eval e below => exact relabel_eval ρ s below e
  | give v below => exact relabel_give ρ host s below v
  | exec statement below => exact relabel_exec ρ s below statement
  | ended completion below => exact relabel_ended ρ s completion below
  | failExpr fault below => exact relabel_failExpr ρ s below fault
  | failStmt fault below => exact relabel_failStmt ρ s fault below

theorem relabel_outcome (m : Machine) : (m.relabel ρ).outcome = ρ.outcome m.outcome := by
  obtain ⟨control, s⟩ := m
  cases control with
  | give v below => cases below <;> rfl
  | ended completion below =>
    cases below with
    | program rest => cases rest <;> rfl
    | _ => rfl
  | failExpr fault below => cases below <;> rfl
  | failStmt fault below => cases below <;> rfl
  | _ => rfl

/-- Neither does a run. -/
theorem relabel_run (fuel : Nat) (m : Machine) : (m.relabel ρ).run host fuel = (m.run host fuel).relabel ρ := by
  induction fuel generalizing m with
  | zero => rfl
  | succ fuel ih =>
    have hfinished : (m.relabel ρ).outcome = .unfinished ↔ m.outcome = .unfinished := by
      rw [relabel_outcome]
      cases m.outcome <;> simp [Relabelling.outcome]
    rw [run, run]
    by_cases h : m.outcome = .unfinished
    · rw [if_pos h, if_pos (hfinished.mpr h), relabel_step, ih]
    · rw [if_neg h, if_neg (fun h' => h (hfinished.mp h'))]

theorem relabel_ofProgram (statements : List Stmt) :
    (ofProgram statements s).relabel ρ = ofProgram (statements.map (Stmt.relabel ρ)) (s.relabel ρ) := rfl

end Machine

end Lexical

end LoxLanguage
