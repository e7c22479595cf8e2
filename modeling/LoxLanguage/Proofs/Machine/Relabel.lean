import LoxLanguage.Proofs.Lexical.Relabel

/-! The machine looks at labels only to find the distance of a use. On a program with other lines and labels, a state whose
functions have them too, and a table in which the distances stand at the other labels, it takes the same steps, and an
error arises at the token with the other line. -/

namespace LoxLanguage

/-! ### States -/

section States
variable (ρ : Relabelling)

/-- A function with its declaration relabelled. -/
def Closure.relabel (c : Closure) : Closure :=
  { c with declaration := c.declaration.relabel ρ }

/-- A class with its methods relabelled. -/
def Class.relabel (c : Class) : Class :=
  { c with methods := c.methods.map fun entry => (entry.1, entry.2.relabel ρ) }

namespace Store

/-- A store whose functions and classes are relabelled. -/
def relabel (s : Store) : Store :=
  { s with closures := s.closures.map (Closure.relabel ρ), classes := s.classes.map (Class.relabel ρ) }

variable (s : Store)

theorem relabel_newClosure (c : Closure) : (s.relabel ρ).newClosure (c.relabel ρ) = (s.newClosure c).relabel ρ := by
  simp [newClosure, relabel]

theorem relabel_newClass (c : Class) : (s.relabel ρ).newClass (c.relabel ρ) = (s.newClass c).relabel ρ := by
  simp [newClass, relabel]

@[simp]
theorem relabel_classAt (c : ClassId) : (s.relabel ρ).classAt c = (s.classAt c).relabel ρ := by
  simp only [classAt, relabel, Array.getD_eq_getD_getElem?, Array.getElem?_map]
  cases s.classes[c]? <;> rfl

@[simp]
theorem relabel_classOf (i : InstanceId) : (s.relabel ρ).classOf i = (s.classOf i).relabel ρ :=
  relabel_classAt ρ s _

theorem relabel_ascend (distance : Nat) (place : Option FrameId) :
    (s.relabel ρ).ascend distance place = s.ascend distance place := by
  induction distance generalizing place with
  | zero => rfl
  | succ distance ih =>
    cases place with
    | none => rfl
    | some f => exact ih _

theorem relabel_frameAt? (distance : Nat) (f : FrameId) : (s.relabel ρ).frameAt? distance f = s.frameAt? distance f := by
  rw [frameAt?, ancestor?, relabel_ascend]
  rfl

theorem relabel_missing (distance : Nat) (f : FrameId) : (s.relabel ρ).missing distance f = s.missing distance f := by
  rw [missing, ancestor?, relabel_ascend]
  rfl

theorem relabel_valueAt (distance : Nat) (f : FrameId) (name : String) :
    (s.relabel ρ).valueAt distance f name = s.valueAt distance f name := by
  rw [valueAt, relabel_frameAt?, relabel_missing]
  rfl

/-- What is shown of a value does not depend on lines and labels. -/
@[simp]
theorem relabel_display (v : Value) : (s.relabel ρ).display v = s.display v := by
  cases v with
  | closure f =>
    simp only [display, closureName, relabel, Array.getElem?_map]
    cases s.closures[f]? with
    | none => rfl
    | some c => simp [Closure.relabel]
  | classValue c => simp [display, Class.relabel]
  | instanceValue i => simp [display, Class.relabel]
  | _ => rfl

end Store

end States

/-- A setting with the distances of another one, at other labels. -/
structure Setting.Relabels (ρ : Relabelling) (setting setting' : Setting) : Prop where
  distances : ∀ site, setting'.distances.get? (ρ.site site) = setting.distances.get? site
  callLimit : setting'.callLimit = setting.callLimit
  clock : setting'.clock = setting.clock

namespace State

variable (ρ : Relabelling)

/-- A state with its store relabelled. -/
def relabel (s : State) : State :=
  { s with store := s.store.relabel ρ }

variable (s : State)

theorem relabel_print (v : Value) : (s.relabel ρ).print v = (s.print v).relabel ρ := by
  have hstore : (s.relabel ρ).store = s.store.relabel ρ := rfl
  rw [print, hstore, Store.relabel_display]
  rfl

theorem relabel_globalTexts : (s.relabel ρ).globalTexts = s.globalTexts := by
  have hstore : (s.relabel ρ).store = s.store.relabel ρ := rfl
  simp only [globalTexts, hstore, Store.relabel_display]
  rfl

theorem relabel_declareFunction (f : Function) :
    (s.relabel ρ).declareFunction (f.relabel ρ) = (s.declareFunction f).relabel ρ := by
  have hsize : (s.relabel ρ).store.closures.size = s.store.closures.size := Array.size_map
  have hmade : (s.relabel ρ).store.newClosure ⟨f.relabel ρ, (s.relabel ρ).current, false⟩ =
      (s.store.newClosure ⟨f, s.current, false⟩).relabel ρ := Store.relabel_newClosure ρ s.store ⟨f, s.current, false⟩
  unfold declareFunction
  rw [hsize, hmade, Function.relabel_name, Relabelling.token_lexeme]
  rfl

theorem relabel_methodTable (methods : List Function) (scope : FrameId) :
    methodTable (methods.map (Function.relabel ρ)) scope =
      (methodTable methods scope).map fun entry => (entry.1, entry.2.relabel ρ) := by
  have hfold := Bindings.foldl_put_map (Closure.relabel ρ) (fun f : Function => f.name.lexeme)
    (fun f => ⟨f, scope, f.isInitializer⟩) methods []
  rw [methodTable, List.foldl_map]
  simp only [Function.relabel_name, Function.relabel_isInitializer, Relabelling.token_lexeme]
  exact hfold

theorem relabel_declareClass (name : Token) (methods : List Function) :
    (s.relabel ρ).declareClass (ρ.token name) (methods.map (Function.relabel ρ)) =
      (s.declareClass name methods).relabel ρ := by
  have hsize : (s.relabel ρ).store.classes.size = s.store.classes.size := Array.size_map
  have hmade : (s.relabel ρ).store.newClass
        ⟨name.lexeme, (methodTable methods (s.relabel ρ).current).map fun entry => (entry.1, entry.2.relabel ρ)⟩ =
      (s.store.newClass ⟨name.lexeme, methodTable methods s.current⟩).relabel ρ :=
    Store.relabel_newClass ρ s.store ⟨name.lexeme, methodTable methods s.current⟩
  unfold declareClass
  rw [hsize, Relabelling.token_lexeme, relabel_methodTable, hmade]
  rfl

variable {ρ} {setting setting' : Setting} (h : setting.Relabels ρ setting')
include h

theorem relabel_read (site : Site) (name : Token) :
    (s.relabel ρ).read setting' (ρ.site site) (ρ.token name) = (s.read setting site name).mapError ρ.fault := by
  unfold read
  rw [h.distances]
  cases setting.distances.get? site with
  | none =>
    have hlookup : (s.relabel ρ).store.lookup? Store.globals (ρ.token name).lexeme =
        s.store.lookup? Store.globals name.lexeme := rfl
    dsimp only
    rw [hlookup]
    cases s.store.lookup? Store.globals name.lexeme <;> rfl
  | some distance =>
    have hvalue : (s.relabel ρ).store.valueAt distance (s.relabel ρ).current (ρ.token name).lexeme =
        s.store.valueAt distance s.current name.lexeme := Store.relabel_valueAt ρ s.store distance _ _
    dsimp only
    rw [hvalue]
    cases s.store.valueAt distance s.current name.lexeme with
    | ok v => rfl
    | error error => cases error <;> rfl

theorem relabel_target (site : Site) (name : Token) :
    (s.relabel ρ).target setting' (ρ.site site) (ρ.token name) = (s.target setting site name).mapError ρ.fault := by
  unfold target
  rw [h.distances]
  cases setting.distances.get? site with
  | none =>
    have hholder : (s.relabel ρ).store.holder? Store.globals (ρ.token name).lexeme =
        s.store.holder? Store.globals name.lexeme := rfl
    dsimp only
    rw [hholder]
    cases s.store.holder? Store.globals name.lexeme <;> rfl
  | some distance =>
    have hframe : (s.relabel ρ).store.frameAt? distance (s.relabel ρ).current = s.store.frameAt? distance s.current :=
      Store.relabel_frameAt? ρ s.store distance _
    have hmissing : (s.relabel ρ).store.missing distance (s.relabel ρ).current = s.store.missing distance s.current :=
      Store.relabel_missing ρ s.store distance _
    dsimp only
    rw [hframe, hmissing]
    cases s.store.frameAt? distance s.current <;> rfl

end State

/-! ### Steps -/

namespace Machine

variable (ρ : Relabelling)

/-- A machine with its tokens relabelled. -/
def relabel (m : Machine) : Machine :=
  ⟨m.control.relabel ρ, m.state.relabel ρ⟩

theorem relabel_ofProgram (statements : List Stmt) (s : State) :
    (ofProgram statements s).relabel ρ = ofProgram (statements.map (Stmt.relabel ρ)) (s.relabel ρ) := rfl

theorem relabel_rest (m : Machine) : (m.relabel ρ).rest = m.rest.relabel ρ := rfl

theorem relabel_outcome (m : Machine) : (m.relabel ρ).outcome = ρ.outcome m.outcome := by
  obtain ⟨control, s⟩ := m
  cases control with
  | give v below => cases below <;> rfl
  | ended completion below =>
    cases below with
    | program rest => cases rest <;> rfl
    | _ => rfl
  | failExpr fault below => cases below <;> rfl
  | failStmt fault below => cases below <;> rfl
  | _ => rfl

theorem relabel_stopped (m : Machine) : (m.relabel ρ).stopped = m.stopped := by
  unfold stopped
  rw [relabel_outcome]
  cases m.outcome <;> rfl

variable (s : State) (below : ExprStack FrameId) (paren : Token) (arguments : List Value)

theorem relabel_giveResult {result result' : Except RuntimeError Value}
    (h : result'.mapError Fault.runtime = (result.mapError Fault.runtime).mapError ρ.fault) :
    giveResult result' (below.relabel ρ) (s.relabel ρ) = (giveResult result below s).relabel ρ := by
  cases result with
  | ok v =>
    cases result' with
    | ok v' =>
      cases h
      rfl
    | error error' => cases h
  | error error =>
    cases result' with
    | ok v' => cases h
    | error error' =>
      cases h
      rfl

theorem relabel_property (i : InstanceId) (name : Token) :
    property i (ρ.token name) (below.relabel ρ) (s.relabel ρ) = (property i name below s).relabel ρ := by
  have hfields : ((s.relabel ρ).store.instanceAt i).fields = (s.store.instanceAt i).fields := rfl
  have hclass : (s.relabel ρ).store.classOf i = (s.store.classOf i).relabel ρ := Store.relabel_classOf ρ s.store i
  unfold property
  rw [hfields, hclass, Class.relabel, Relabelling.token_lexeme]
  cases (s.store.instanceAt i).fields.get? name.lexeme with
  | some v => rfl
  | none =>
    dsimp only
    rw [Bindings.get?_map]
    cases (s.store.classOf i).methods.get? name.lexeme with
    | none => rfl
    | some method =>
      simp [relabel, State.relabel, Store.relabel, Store.newFrame, Store.newClosure, Store.nextFrame, Control.relabel,
        Closure.relabel]

theorem relabel_exec (below : StmtStack FrameId) (statement : Stmt) :
    exec (below.relabel ρ) (s.relabel ρ) (statement.relabel ρ) = (exec below s statement).relabel ρ := by
  cases statement with
  | declareVariable name initializer => cases initializer <;> rfl
  | block body =>
    rw [Stmt.relabel, Stmt.relabelAll_eq]
    rfl
  | branch condition whenTrue whenFalse =>
    rw [Stmt.relabel, Stmt.relabelOption_eq]
    rfl
  | declareFunction f =>
    rw [Stmt.relabel, exec, exec, State.relabel_declareFunction]
    rfl
  | returnValue keyword value => cases value <;> rfl
  | declareClass name methods =>
    rw [Stmt.relabel, Function.relabelAll_eq, exec, exec, State.relabel_declareClass]
    rfl
  | _ => rfl

theorem relabel_ended (completion : Completion) (below : StmtStack FrameId) :
    ended completion (s.relabel ρ) (below.relabel ρ) = (ended completion s below).relabel ρ := by
  cases below with
  | program rest => cases rest <;> rfl
  | sequence rest below => cases rest <;> cases completion <;> rfl
  | again condition body below => cases completion <;> rfl
  | leave scope below => rfl
  | finish scope yield below => cases yield <;> rfl

theorem relabel_failExpr (fault : Fault) :
    failExpr (ρ.fault fault) (s.relabel ρ) (below.relabel ρ) = (failExpr fault s below).relabel ρ := by
  cases below <;> rfl

theorem relabel_failStmt (fault : Fault) (below : StmtStack FrameId) :
    failStmt (ρ.fault fault) (s.relabel ρ) (below.relabel ρ) = (failStmt fault s below).relabel ρ := by
  cases below <;> rfl

variable {ρ} {setting setting' : Setting} (h : setting.Relabels ρ setting')
include h

theorem relabel_enterBody (closure : Closure) (scope : FrameId) (yield : Yield FrameId) :
    enterBody setting' (closure.relabel ρ) scope arguments yield (ρ.token paren) (below.relabel ρ) (s.relabel ρ) =
      (enterBody setting closure scope arguments yield paren below s).relabel ρ := by
  have hparameters : (closure.relabel ρ).bindParameters arguments = closure.bindParameters arguments := by
    simp only [Closure.bindParameters, Closure.relabel, Function.relabel_parameters, List.zip_map_left, List.foldl_map]
    rfl
  have hbody : (closure.relabel ρ).declaration.body = closure.declaration.body.map (Stmt.relabel ρ) :=
    Function.relabel_body ρ closure.declaration
  have hdepth : (s.relabel ρ).depth = s.depth := rfl
  unfold enterBody
  rw [hdepth, h.callLimit, hparameters, hbody]
  split <;> rfl

theorem relabel_callClosure (closure : Closure) :
    callClosure setting' (closure.relabel ρ) arguments (ρ.token paren) (below.relabel ρ) (s.relabel ρ) =
      (callClosure setting closure arguments paren below s).relabel ρ := by
  have harity : (closure.relabel ρ).arity = closure.arity := by
    simp [Closure.arity, Closure.relabel]
  unfold callClosure
  rw [harity]
  split
  · exact relabel_enterBody s below paren arguments h closure closure.scope _
  · rfl

theorem relabel_callClass (c : ClassId) :
    callClass setting' c arguments (ρ.token paren) (below.relabel ρ) (s.relabel ρ) =
      (callClass setting c arguments paren below s).relabel ρ := by
  have hclass : (s.relabel ρ).store.classAt c = (s.store.classAt c).relabel ρ := Store.relabel_classAt ρ s.store c
  unfold callClass
  rw [hclass, Class.relabel]
  dsimp only
  rw [Bindings.get?_map]
  cases (s.store.classAt c).methods.get? Function.initializerName with
  | none =>
    dsimp only [Option.map_none]
    split <;> rfl
  | some initializer =>
    have harity : (initializer.relabel ρ).arity = initializer.arity := by
      simp [Closure.arity, Closure.relabel]
    dsimp only [Option.map_some]
    rw [harity]
    split
    · exact relabel_enterBody { s with store := (s.store.newInstance c).newFrame (some initializer.scope) _ } below paren
        arguments h initializer _ _
    · rfl

theorem relabel_call (callee : Value) :
    call setting' callee arguments (ρ.token paren) (below.relabel ρ) (s.relabel ρ) =
      (call setting callee arguments paren below s).relabel ρ := by
  cases callee with
  | clock =>
    simp only [call, h.clock]
    split <;> rfl
  | closure f =>
    have hclosures : (s.relabel ρ).store.closures[f]? = (s.store.closures[f]?).map (Closure.relabel ρ) :=
      Array.getElem?_map
    unfold call
    dsimp only
    rw [hclosures]
    cases s.store.closures[f]? with
    | none => rfl
    | some closure => exact relabel_callClosure s below paren arguments h closure
  | classValue c => exact relabel_callClass s below paren arguments h c
  | _ => rfl

theorem relabel_eval (e : Expr) :
    eval setting' (below.relabel ρ) (s.relabel ρ) (e.relabel ρ) = (eval setting below s e).relabel ρ := by
  cases e with
  | use site name =>
    rw [Expr.relabel, eval, eval, State.relabel_read s h]
    cases s.read setting site name <;> rfl
  | this site keyword =>
    rw [Expr.relabel, eval, eval, State.relabel_read s h]
    cases s.read setting site keyword <;> rfl
  | call callee paren arguments =>
    rw [Expr.relabel, Expr.relabelAll_eq]
    rfl
  | _ => rfl

theorem relabel_give (v : Value) :
    give setting' v (s.relabel ρ) (below.relabel ρ) = (give setting v s below).relabel ρ := by
  cases below with
  | unary operator below => exact relabel_giveResult ρ s below (Lexical.relabel_unary ρ operator v)
  | binaryRight left operator below => exact relabel_giveResult ρ s below (Lexical.relabel_binary ρ operator left v)
  | logical operator right below =>
    have hdecides : Operators.decides (ρ.token operator) v = Operators.decides operator v := rfl
    rw [ExprStack.relabel, give, give, hdecides]
    split <;> rfl
  | assign site name below =>
    rw [ExprStack.relabel, give, give, State.relabel_target s h]
    cases s.target setting site name <;> rfl
  | callee paren arguments below =>
    cases arguments with
    | nil => exact relabel_call s below paren [] h v
    | cons e rest => rfl
  | argument callee given paren rest below =>
    cases rest with
    | nil => exact relabel_call s below paren _ h callee
    | cons e rest => rfl
  | get name below =>
    cases v with
    | instanceValue i => exact relabel_property ρ s below i name
    | _ => rfl
  | setTarget name value below => cases v <;> rfl
  | print below =>
    rw [ExprStack.relabel, give, give, State.relabel_print]
    rfl
  | branch whenTrue whenFalse below =>
    cases whenFalse with
    | none =>
      simp only [ExprStack.relabel, give, Option.map_none]
      split <;> rfl
    | some statement =>
      simp only [ExprStack.relabel, give, Option.map_some]
      split <;> rfl
  | test condition body below =>
    rw [ExprStack.relabel, give, give]
    split <;> rfl
  | _ => rfl

/-- A step depends on labels only through the distances at them. -/
theorem relabel_step (m : Machine) : (m.relabel ρ).step setting' = (m.step setting).relabel ρ := by
  obtain ⟨control, s⟩ := m
  cases control with
  | eval e below => exact relabel_eval s below h e
  | give v below => exact relabel_give s below h v
  | exec statement below => exact relabel_exec ρ s below statement
  | ended completion below => exact relabel_ended ρ s completion below
  | failExpr fault below => exact relabel_failExpr ρ s below fault
  | failStmt fault below => exact relabel_failStmt ρ s fault below

/-- So does a run. -/
theorem relabel_run (fuel : Nat) (m : Machine) : (m.relabel ρ).run setting' fuel = (m.run setting fuel).relabel ρ := by
  induction fuel generalizing m with
  | zero => rfl
  | succ fuel ih =>
    rw [run, run, relabel_stopped]
    split
    · rfl
    · rw [relabel_step h, ih]

end Machine

end LoxLanguage
