import Mathlib
import LoxLanguage.Proofs.Machine.Work
import LoxLanguage.Proofs.Unwinding.Evaluator

/-! The machine follows the reference evaluator. Where the evaluator gives a result, the machine comes to hand it to the work
that waits, in the same state; where the evaluator runs out of fuel, the machine has not stopped after as many steps
(`tracked`). A signal of the evaluator is a completion of the machine: what the one does not do behind the signal, the
other drops from the work that waits. -/

namespace LoxLanguage.Unwinding

theorem bind_assoc {α β γ : Type} (x : Action α) (f : α → Action β) (g : β → Action γ) :
    (x >>= f) >>= g = x >>= fun a => f a >>= g := by
  funext s
  simp only [bind]
  rcases x s with _ | ⟨_ | _, _⟩ <;> rfl

theorem state_bind {α : Type} (f : State → Action α) (s : State) : (state >>= f) s = f s s :=
  rfl

theorem change_bind {α : Type} (f : State → State) (g : Unit → Action α) (s : State) : (change f >>= g) s = g () (f s) :=
  rfl

/-! ### Following -/

/-- Machines that go on with what an action has given. -/
abbrev Resume (α : Type) : Type :=
  Except Signal α → State → Machine → Prop

/-- The machine hands the value, or the fault, to the work that waits. -/
def Handed (K : ExprStack FrameId) : Resume Value
  | .ok v, s, m => m = ⟨.give v K, s⟩
  | .error (.fault fault), s, m => m = ⟨.failExpr fault K, s⟩
  | .error (.returning _), _, _ => False

/-- The machine tells the work that waits how the statement has ended. A `return` is a completion. -/
def Told (L : StmtStack FrameId) : Resume Unit
  | .ok _, s, m => m = ⟨.ended .normal L, s⟩
  | .error (.returning v), s, m => m = ⟨.ended (.returned v) L, s⟩
  | .error (.fault fault), s, m => m = ⟨.failStmt fault L, s⟩

/-- The machine comes to go on with what an action has given. If fuel has run out, the machine has not stopped after `n`
    steps. -/
def Tracks {α : Type} (setting : Setting) (n : Nat) (resume : Resume α) (m : Machine) :
    Option (Except Signal α × State) → Prop
  | none => (m.run setting n).stopped = false
  | some (result, s) => ∃ k, resume result s (m.run setting k)

/-- A machine that goes on with a signal comes to go on with it further down. -/
def Drops {α β : Type} (setting : Setting) (upper : Resume α) (lower : Resume β) : Prop :=
  ∀ signal s m, upper (.error signal) s m → ∃ k, lower (.error signal) s (m.run setting k)

theorem stopped_mono {setting : Setting} {m : Machine} {j k : Nat} (hle : j ≤ k) (h : (m.run setting k).stopped = false) :
    (m.run setting j).stopped = false := by
  refine Bool.eq_false_iff.mpr fun hstopped => ?_
  rw [Machine.run_of_finished (Machine.stopped_iff.mp hstopped) hle, hstopped] at h
  cases h

namespace Tracks

variable {α β : Type} {setting : Setting} {n j : Nat} {upper : Resume α} {lower : Resume β} {m : Machine}
  {result : Option (Except Signal α × State)}

/-- What is followed from a later moment on is followed from now on, and the steps up to there count. -/
theorem later (h : Tracks setting n upper (m.run setting j) result) : Tracks setting (n + j) upper m result := by
  cases result with
  | none =>
    show (m.run setting (n + j)).stopped = false
    rw [Nat.add_comm, Machine.run_add]
    exact h
  | some ended =>
    obtain ⟨k, hk⟩ := h
    refine ⟨j + k, ?_⟩
    rwa [Machine.run_add]

theorem mono {k : Nat} (hle : j ≤ k) (h : Tracks setting k upper m result) : Tracks setting j upper m result := by
  cases result with
  | none => exact stopped_mono hle h
  | some ended => exact h

theorem reached (h : Tracks setting n upper m result) :
    Tracks setting n (fun r s m' => upper r s m' ∧ ∃ k, m' = m.run setting k) m result := by
  cases result with
  | none => exact h
  | some ended =>
    obtain ⟨k, hk⟩ := h
    exact ⟨k, hk, k, rfl⟩

/-- A step that does not count. -/
theorem behind (h : Tracks setting n upper (m.run setting 1) result) : Tracks setting n upper m result :=
  h.later.mono (Nat.le_succ n)

/-- Two machines that come to the same after one step. -/
theorem beside {m' : Machine} (h : Tracks setting n upper m result) (hbegins : ∀ result s, ¬ upper result s m)
    (hstep : m'.run setting 1 = m.run setting 1) (hgoes : m'.stopped = false) : Tracks setting n upper m' result := by
  cases result with
  | none =>
    cases n with
    | zero => exact hgoes
    | succ n =>
      have hrun : (m.run setting (n + 1)).stopped = false := h
      show (m'.run setting (n + 1)).stopped = false
      rwa [Nat.add_comm, Machine.run_add, hstep, ← Machine.run_add, Nat.add_comm]
  | some ended =>
    obtain ⟨k, hk⟩ := h
    cases k with
    | zero => exact absurd hk (hbegins _ _)
    | succ k =>
      refine ⟨1 + k, ?_⟩
      rwa [Machine.run_add, hstep, ← Machine.run_add, Nat.add_comm]

/-- What is made of a result, whatever it is. -/
theorem map {g : Except Signal α × State → Except Signal β × State} (h : Tracks setting n upper m result)
    (hg : ∀ r s m', upper r s m' → ∃ k, lower (g (r, s)).1 (g (r, s)).2 (m'.run setting k)) :
    Tracks setting n lower m (result.map g) := by
  cases result with
  | none => exact h
  | some ended =>
    obtain ⟨k, hk⟩ := h
    obtain ⟨j, hj⟩ := hg _ _ _ hk
    refine ⟨k + j, ?_⟩
    rwa [Machine.run_add]

/-- A signal skips what would have come next, and a result goes on with it. -/
theorem bind {x : Action α} {f : α → Action β} {s : State} (hx : Tracks setting n upper m (x s))
    (hsignal : Drops setting upper lower)
    (hf : ∀ a s' m', upper (.ok a) s' m' → Tracks setting n lower m' (f a s')) :
    Tracks setting n lower m ((x >>= f) s) := by
  simp only [Bind.bind]
  generalize x s = result at hx
  rcases result with _ | ⟨signal | a, s'⟩
  · exact hx
  · obtain ⟨k, hk⟩ := hx
    obtain ⟨j, hj⟩ := hsignal signal s' _ hk
    refine ⟨k + j, ?_⟩
    rwa [Machine.run_add]
  · obtain ⟨k, hk⟩ := hx
    exact (hf a s' _ hk).later.mono (Nat.le_add_right n k)

end Tracks

/-! ### Down the work that waits -/

section Drops
variable {setting : Setting} {J : ExprStack FrameId} {L : StmtStack FrameId}

/-- A fault drops work that waits for a value. No `return` comes to such work. -/
theorem drops_handed {β : Type} {lower : Resume β}
    (h : ∀ fault s, lower (.error (.fault fault)) s (Machine.run setting 1 ⟨.failExpr fault J, s⟩)) :
    Drops setting (Handed J) lower := by
  intro signal s m hm
  cases signal with
  | returning v => exact hm.elim
  | fault fault =>
    obtain rfl := hm
    exact ⟨1, h fault s⟩

/-- A signal drops the statements that would have come next. -/
theorem drops_sequence (rest : List Stmt) : Drops setting (Told (.sequence rest L)) (Told L) := by
  intro signal s m hm
  cases signal with
  | returning v =>
    obtain rfl := hm
    cases rest <;> exact ⟨1, rfl⟩
  | fault fault =>
    obtain rfl := hm
    exact ⟨1, rfl⟩

/-- A signal drops the next round of a loop. -/
theorem drops_again (condition : Expr) (body : Stmt) : Drops setting (Told (.again condition body L)) (Told L) := by
  intro signal s m hm
  cases signal with
  | returning v =>
    obtain rfl := hm
    exact ⟨1, rfl⟩
  | fault fault =>
    obtain rfl := hm
    exact ⟨1, rfl⟩

end Drops

/-! ### Calls -/

/-- The machine follows what evaluates expressions. -/
def EvalTracked (setting : Setting) (n : Nat) (eval : Expr → Action Value) : Prop :=
  ∀ e K s, Tracks setting n (Handed K) ⟨.eval e K, s⟩ (eval e s)

/-- The machine follows what executes statements. -/
def ExecTracked (setting : Setting) (n : Nat) (exec : Stmt → Action Unit) : Prop :=
  ∀ statement L s, Tracks setting n (Told L) ⟨.exec statement L, s⟩ (exec statement s)

section Calls
variable {setting : Setting} {n : Nat} {eval : Expr → Action Value} {exec : Stmt → Action Unit} {K : ExprStack FrameId}
  {s : State} {paren : Token}

theorem tracks_fail {cause : RuntimeError.Cause} {token : Token} :
    Tracks setting n (Handed K) (Machine.fail cause token K s) (fail cause token s) :=
  ⟨0, rfl⟩

theorem tracks_all (hexec : ExecTracked setting n exec) (body : List Stmt) (L : StmtStack FrameId) (s : State) :
    Tracks setting n (Told L) ⟨.ended .normal (.sequence body L), s⟩ (all exec body s) := by
  induction body generalizing s with
  | nil => exact ⟨1, rfl⟩
  | cons statement rest ih =>
    refine .behind (.bind (hexec statement (.sequence rest L) s) (drops_sequence rest) fun _ s' m' hm => ?_)
    obtain rfl := hm
    exact ih s'

/-- The machine hands the value of a call to the work that waits, once the body has given a value. -/
def Yielded (yield : Yield FrameId) (K : ExprStack FrameId) : Resume Value
  | .ok v, s, m => m = ⟨.give (Machine.yieldValue s (.returned v) yield) K, s⟩
  | .error (.fault fault), s, m => m = ⟨.failExpr fault K, s⟩
  | .error (.returning _), _, _ => False

theorem drops_yielded {yield : Yield FrameId} : Drops setting (Yielded yield K) (Handed K) := by
  intro signal s m hm
  cases signal with
  | returning v => exact hm.elim
  | fault fault => exact ⟨0, hm⟩

theorem tracks_invoke (hexec : ExecTracked setting n exec) (closure : Closure) (scope : FrameId) (arguments : List Value)
    (yield : Yield FrameId) :
    Tracks setting n (Yielded yield K) (Machine.enterBody setting closure scope arguments yield paren K s)
      (invoke setting exec arguments paren closure scope s) := by
  unfold Machine.enterBody invoke
  rw [state_bind]
  split
  · unfold within catching
    rw [Option.map_map]
    refine (tracks_all hexec closure.declaration.body (.finish s.current yield K) _).map fun r s' m hm => ?_
    -- A body that has ended by itself gives what one that has returned nil gives.
    rcases r with (v | fault) | ⟨⟩ <;> obtain rfl := hm <;> refine ⟨1, ?_⟩
    · cases yield <;> rfl
    · rfl
    · cases yield <;> rfl
  · exact ⟨0, rfl⟩

theorem tracks_callClosure (hexec : ExecTracked setting n exec) (closure : Closure) (arguments : List Value) :
    Tracks setting n (Handed K) (Machine.callClosure setting closure arguments paren K s)
      (callClosure setting exec arguments paren closure s) := by
  unfold Machine.callClosure callClosure
  split
  · refine .bind (tracks_invoke hexec closure _ arguments _) drops_yielded fun v s' m hm => ?_
    obtain rfl := hm
    cases closure.isInitializer <;> exact ⟨0, rfl⟩
  · exact tracks_fail

theorem tracks_callClass (hexec : ExecTracked setting n exec) (c : ClassId) (arguments : List Value) :
    Tracks setting n (Handed K) (Machine.callClass setting c arguments paren K s)
      (callClass setting exec arguments paren c s) := by
  unfold Machine.callClass callClass
  rw [state_bind]
  cases (s.store.classAt c).methods.get? Function.initializerName with
  | none =>
    dsimp only
    split
    · exact ⟨0, rfl⟩
    · exact tracks_fail
  | some initializer =>
    dsimp only
    split
    · rw [change_bind]
      refine .bind (tracks_invoke hexec initializer _ arguments _) drops_yielded fun v s' m hm => ?_
      obtain rfl := hm
      exact ⟨0, rfl⟩
    · exact tracks_fail

theorem tracks_call (hexec : ExecTracked setting n exec) (callee : Value) (arguments : List Value) :
    Tracks setting n (Handed K) (Machine.call setting callee arguments paren K s)
      (call setting exec arguments paren callee s) := by
  unfold Machine.call call
  cases callee with
  | clock =>
    dsimp only
    split
    · exact ⟨0, rfl⟩
    · exact tracks_fail
  | closure f =>
    dsimp only
    rw [state_bind]
    cases s.store.closures[f]? with
    | none => exact tracks_fail
    | some closure => exact tracks_callClosure hexec closure arguments
  | classValue c => exact tracks_callClass hexec c arguments
  | _ => exact tracks_fail

/-- The arguments that are left, and the call behind them. -/
theorem tracks_arguments (heval : EvalTracked setting n eval) (hexec : ExecTracked setting n exec) (callee : Value)
    (rest : List Expr) (given : Array Value) (v : Value) (s : State) :
    Tracks setting n (Handed K) ⟨.give v (.argument callee given paren rest K), s⟩
      ((each eval rest >>= fun others => call setting exec (given.toList ++ v :: others) paren callee) s) := by
  induction rest generalizing given v s with
  | nil =>
    refine .behind ?_
    have hgiven : (given.push v).toList = given.toList ++ [v] := Array.toList_push
    show Tracks setting n _ (Machine.call setting callee (given.push v).toList paren K s) _
    rw [hgiven]
    exact tracks_call hexec callee _
  | cons e rest ih =>
    rw [each, bind_assoc]
    refine .behind (.bind (heval e (.argument callee (given.push v) paren rest K) s) (drops_handed fun _ _ => rfl) ?_)
    intro w s' m hm
    obtain rfl := hm
    have hnext := ih (given.push v) w s'
    simp only [Array.toList_push, List.append_assoc, List.singleton_append] at hnext
    rw [bind_assoc]
    exact hnext

theorem tracks_property (i : InstanceId) (name : Token) :
    Tracks setting n (Handed K) (Machine.property i name K s) (property i name s) := by
  unfold Machine.property property
  rw [state_bind]
  cases (s.store.instanceAt i).fields.get? name.lexeme with
  | some v => exact ⟨0, rfl⟩
  | none =>
    dsimp only
    cases (s.store.classOf i).methods.get? name.lexeme with
    | some method => exact ⟨0, rfl⟩
    | none => exact tracks_fail

theorem tracks_result (result : Except RuntimeError Value) :
    Tracks setting n (Handed K) (Machine.giveResult result K s) (orError result s) := by
  cases result <;> exact ⟨0, rfl⟩

end Calls

/-! ### Expressions and statements -/

section Evaluator
variable {setting : Setting} {n : Nat}

theorem tracks_eval (heval : EvalTracked setting n (eval setting n)) (hexec : ExecTracked setting n (exec setting n))
    (e : Expr) (K : ExprStack FrameId) (s : State) :
    Tracks setting n (Handed K) (Machine.eval setting K s e) (eval setting (n + 1) e s) := by
  cases e with
  | literal value =>
    rw [eval]
    exact ⟨0, rfl⟩
  | unary operator operand =>
    rw [eval]
    refine .bind (heval operand (.unary operator K) s) (drops_handed fun _ _ => rfl) fun v s' m hm => ?_
    obtain rfl := hm
    exact .behind (tracks_result _)
  | binary left operator right =>
    rw [eval]
    refine .bind (heval left (.binaryLeft operator right K) s) (drops_handed fun _ _ => rfl) fun v s' m hm => ?_
    obtain rfl := hm
    refine .behind (.bind (heval right (.binaryRight v operator K) s') (drops_handed fun _ _ => rfl) fun w s'' m hm => ?_)
    obtain rfl := hm
    exact .behind (tracks_result _)
  | logical left operator right =>
    rw [eval]
    refine .bind (heval left (.logical operator right K) s) (drops_handed fun _ _ => rfl) fun v s' m hm => ?_
    obtain rfl := hm
    refine .behind ?_
    show Tracks setting n _ (if Operators.decides operator v then ⟨.give v K, s'⟩ else ⟨.eval right K, s'⟩) _
    split
    · exact ⟨0, rfl⟩
    · exact heval right K s'
  | grouping inner =>
    rw [eval]
    exact heval inner K s
  | use site name =>
    rw [eval, Machine.eval]
    rw [state_bind]
    cases s.read setting site name <;> exact ⟨0, rfl⟩
  | assign site name value =>
    rw [eval]
    refine .bind (heval value (.assign site name K) s) (drops_handed fun _ _ => rfl) fun v s' m hm => ?_
    obtain rfl := hm
    refine .behind ?_
    show Tracks setting n _ (Machine.give setting v s' (.assign site name K)) _
    rw [Machine.give]
    rw [state_bind]
    cases s'.target setting site name <;> exact ⟨0, rfl⟩
  | call callee paren arguments =>
    rw [eval]
    refine .bind (heval callee (.callee paren arguments K) s) (drops_handed fun _ _ => rfl) fun f s' m hm => ?_
    obtain rfl := hm
    cases arguments with
    | nil => exact .behind (tracks_call hexec f [])
    | cons e rest =>
      rw [each, bind_assoc]
      refine .behind (.bind (heval e (.argument f #[] paren rest K) s') (drops_handed fun _ _ => rfl) fun v s'' m hm => ?_)
      obtain rfl := hm
      rw [bind_assoc]
      exact tracks_arguments heval hexec f rest #[] v s''
  | get object name =>
    rw [eval]
    refine .bind (heval object (.get name K) s) (drops_handed fun _ _ => rfl) fun v s' m hm => ?_
    obtain rfl := hm
    cases v with
    | instanceValue i => exact .behind (tracks_property i name)
    | _ => exact .behind tracks_fail
  | set object name value =>
    rw [eval]
    refine .bind (heval object (.setTarget name value K) s) (drops_handed fun _ _ => rfl) fun v s' m hm => ?_
    obtain rfl := hm
    cases v with
    | instanceValue i =>
      refine .behind (.bind (heval value (.setValue i name K) s') (drops_handed fun _ _ => rfl) fun w s'' m hm => ?_)
      obtain rfl := hm
      exact ⟨1, rfl⟩
    | _ => exact .behind tracks_fail
  | this site keyword =>
    rw [eval, Machine.eval]
    rw [state_bind]
    cases s.read setting site keyword <;> exact ⟨0, rfl⟩

theorem tracks_exec (heval : EvalTracked setting n (eval setting n)) (hexec : ExecTracked setting n (exec setting n))
    (statement : Stmt) (L : StmtStack FrameId) (s : State) :
    Tracks setting n (Told L) (Machine.exec L s statement) (exec setting (n + 1) statement s) := by
  cases statement with
  | expression e =>
    rw [exec]
    refine .bind (heval e (.discard L) s) (drops_handed fun _ _ => rfl) fun v s' m hm => ?_
    obtain rfl := hm
    exact ⟨1, rfl⟩
  | print e =>
    rw [exec]
    refine .bind (heval e (.print L) s) (drops_handed fun _ _ => rfl) fun v s' m hm => ?_
    obtain rfl := hm
    exact ⟨1, rfl⟩
  | declareVariable name initial =>
    cases initial with
    | none =>
      rw [exec]
      exact ⟨0, rfl⟩
    | some e =>
      rw [exec]
      refine .bind (heval e (.declare name L) s) (drops_handed fun _ _ => rfl) fun v s' m hm => ?_
      obtain rfl := hm
      exact ⟨1, rfl⟩
  | block body =>
    rw [exec]
    refine (tracks_all hexec body (.leave s.current L) (s.enter s.current [])).map fun r s' m hm => ?_
    -- However the statements have ended, the frame around the block is put back.
    rcases r with (v | fault) | ⟨⟩ <;>
    · obtain rfl := hm
      exact ⟨1, rfl⟩
  | branch condition whenTrue whenFalse =>
    cases whenFalse with
    | none =>
      rw [exec]
      refine .bind (heval condition (.branch whenTrue none L) s) (drops_handed fun _ _ => rfl) fun v s' m hm => ?_
      obtain rfl := hm
      refine .behind ?_
      show Tracks setting n _ (if v.isTruthy then ⟨.exec whenTrue L, s'⟩ else ⟨.ended .normal L, s'⟩) _
      split
      · exact hexec whenTrue L s'
      · exact ⟨0, rfl⟩
    | some statement =>
      rw [exec]
      refine .bind (heval condition (.branch whenTrue (some statement) L) s) (drops_handed fun _ _ => rfl) fun v s' m hm => ?_
      obtain rfl := hm
      refine .behind ?_
      show Tracks setting n _ (if v.isTruthy then ⟨.exec whenTrue L, s'⟩ else ⟨.exec statement L, s'⟩) _
      split
      · exact hexec whenTrue L s'
      · exact hexec statement L s'
  | loop condition body =>
    rw [exec]
    refine .bind (heval condition (.test condition body L) s) (drops_handed fun _ _ => rfl) fun v s' m hm => ?_
    obtain rfl := hm
    refine .behind ?_
    show Tracks setting n _ (Machine.give setting v s' (.test condition body L)) _
    rw [Machine.give]
    split
    · refine .bind (hexec body (.again condition body L) s') (drops_again condition body) fun _ s'' m hm => ?_
      obtain rfl := hm
      -- After a round the machine goes on as it does with the loop itself.
      refine (hexec (.loop condition body) L s'').beside (fun r t hr => ?_) rfl rfl
      rcases r with (v | fault) | ⟨⟩ <;> cases hr
    · exact ⟨0, rfl⟩
  | declareFunction f =>
    rw [exec]
    exact ⟨0, rfl⟩
  | returnValue keyword value =>
    cases value with
    | none =>
      rw [exec]
      exact ⟨0, rfl⟩
    | some e =>
      rw [exec]
      refine .bind (heval e (.returnValue L) s) (drops_handed fun _ _ => rfl) fun v s' m hm => ?_
      obtain rfl := hm
      exact ⟨1, rfl⟩
  | declareClass name methods =>
    rw [exec]
    exact ⟨0, rfl⟩

/-- The machine follows the evaluator, whatever the fuel. A step is spent wherever fuel is. -/
theorem tracked (setting : Setting) (n : Nat) :
    EvalTracked setting n (eval setting n) ∧ ExecTracked setting n (exec setting n) := by
  induction n with
  | zero => exact ⟨fun e K s => by rw [eval]; rfl, fun statement L s => by rw [exec]; rfl⟩
  | succ n ih =>
    obtain ⟨heval, hexec⟩ := ih
    exact ⟨fun e K s => .later (j := 1) (tracks_eval heval hexec e K s),
      fun statement L s => .later (j := 1) (tracks_exec heval hexec statement L s)⟩

end Evaluator

end LoxLanguage.Unwinding
