import Mathlib
import LoxLanguage.Proofs.Machine.Work
import LoxLanguage.Proofs.Scope.Points

/-! Returns. In a program that resolves without a problem, every `return` belongs to a function, so a `return` is met only
while a call is open (`Machine.contained_run`). From there on the machine drops what the call has left to do, at
whatever depth of blocks, branches and loops, and hands the value to the caller (`Machine.unwinds_of_contained`). -/

namespace LoxLanguage

/-! ### Statements that return -/

mutual

/-- Whether a statement has a `return` outside of the functions in it. -/
def Stmt.returns : Stmt → Bool
  | .returnValue _ _ => true
  | .block body => Stmt.returnsAny body
  | .branch _ whenTrue whenFalse => whenTrue.returns || Stmt.returnsOption whenFalse
  | .loop _ body => body.returns
  | .expression _ | .print _ | .declareVariable _ _ | .declareFunction _ | .declareClass _ _ => false

@[inherit_doc Stmt.returns]
def Stmt.returnsAny : List Stmt → Bool
  | [] => false
  | s :: rest => s.returns || Stmt.returnsAny rest

@[inherit_doc Stmt.returns]
def Stmt.returnsOption : Option Stmt → Bool
  | none => false
  | some s => s.returns

end

section Accepted

mutual

/-- A `return` that no function contains breaks a rule. -/
theorem Stmt.returns_eq_false : ∀ (s : Stmt) {c : Context}, c.enclosing = .topLevel →
    (∀ p ∈ s.points c, p.violations = []) → s.returns = false
  | .returnValue keyword value, c, htop, h => by
    have hpoint := h ⟨.stmt (.returnValue keyword value), c⟩ (by rw [Stmt.points]; exact List.mem_cons_self)
    simp [Point.violations, htop] at hpoint
  | .block body, c, htop, h => by
    rw [Stmt.points] at h
    exact Stmt.returnsAny_eq_false body (c := c.enter .block []) htop (List.forall_mem_cons.mp h).2
  | .branch condition whenTrue whenFalse, c, htop, h => by
    rw [Stmt.points] at h
    obtain ⟨-, h⟩ := List.forall_mem_append.mp (List.forall_mem_cons.mp h).2
    obtain ⟨htrue, hfalse⟩ := List.forall_mem_append.mp h
    have hafter : (c.declare whenTrue.names).enclosing = .topLevel := by rw [Context.enclosing_declare, htop]
    rw [Stmt.returns, whenTrue.returns_eq_false htop htrue, Stmt.returnsOption_eq_false whenFalse hafter hfalse, Bool.or_false]
  | .loop condition body, c, htop, h => by
    rw [Stmt.points] at h
    obtain ⟨-, h⟩ := List.forall_mem_append.mp (List.forall_mem_cons.mp h).2
    exact body.returns_eq_false htop h
  | .expression _, _, _, _ | .print _, _, _, _ | .declareVariable _ _, _, _, _ | .declareFunction _, _, _, _
  | .declareClass _ _, _, _, _ => rfl

theorem Stmt.returnsAny_eq_false : ∀ (body : List Stmt) {c : Context}, c.enclosing = .topLevel →
    (∀ p ∈ Stmt.pointsAll body c, p.violations = []) → Stmt.returnsAny body = false
  | [], _, _, _ => rfl
  | s :: rest, c, htop, h => by
    rw [Stmt.pointsAll] at h
    obtain ⟨hs, hrest⟩ := List.forall_mem_append.mp h
    have hafter : (c.declare s.names).enclosing = .topLevel := by rw [Context.enclosing_declare, htop]
    rw [Stmt.returnsAny, s.returns_eq_false htop hs, Stmt.returnsAny_eq_false rest hafter hrest, Bool.or_false]

theorem Stmt.returnsOption_eq_false : ∀ (s : Option Stmt) {c : Context}, c.enclosing = .topLevel →
    (∀ p ∈ Stmt.pointsOption s c, p.violations = []) → Stmt.returnsOption s = false
  | none, _, _, _ => rfl
  | some s, _, htop, h => s.returns_eq_false htop h

end

/-- A program that resolves without a problem has no `return` of its own. -/
theorem returnsAny_of_quiet {program : List Stmt} (h : (resolve program).problems = #[]) :
    Stmt.returnsAny program = false := by
  refine Stmt.returnsAny_eq_false program (c := .top) rfl fun p hp => ?_
  have hviolations := problems_eq_points program
  rw [h] at hviolations
  exact List.flatMap_eq_nil_iff.mp hviolations.symm p hp

end Accepted

/-! ### The call that a return ends -/

/-- Where a call goes on when its body has ended: the frame to put back, what the call yields, and the work that waits for
    its value. -/
structure Caller where
  scope : FrameId
  yield : Yield FrameId
  below : ExprStack FrameId

/-- The innermost call around the statements that wait. -/
def StmtStack.caller? : StmtStack FrameId → Option Caller
  | .program _ => none
  | .sequence _ below | .again _ _ below | .leave _ below => below.caller?
  | .finish scope yield below => some ⟨scope, yield, below⟩

/-- Something that may return waits, or is about to begin, only inside a call. -/
def StmtStack.Admits (L : StmtStack FrameId) (returns : Bool) : Prop :=
  returns = true → L.caller?.isSome = true

mutual

/-- Outside of all calls nothing that waits returns. -/
def ExprStack.Contained : ExprStack FrameId → Prop
  | .answer => True
  | .unary _ below | .binaryLeft _ _ below | .binaryRight _ _ below | .logical _ _ below | .assign _ _ below
  | .callee _ _ below | .argument _ _ _ _ below | .get _ below | .setTarget _ _ below | .setValue _ _ below =>
    below.Contained
  | .discard below | .print below | .declare _ below => below.Contained
  | .branch whenTrue whenFalse below => below.Admits (whenTrue.returns || Stmt.returnsOption whenFalse) ∧ below.Contained
  | .test _ body below => below.Admits body.returns ∧ below.Contained
  | .returnValue below => below.Admits true ∧ below.Contained

@[inherit_doc ExprStack.Contained]
def StmtStack.Contained : StmtStack FrameId → Prop
  | .program rest => Stmt.returnsAny rest = false
  | .sequence rest below => below.Admits (Stmt.returnsAny rest) ∧ below.Contained
  | .again _ body below => below.Admits body.returns ∧ below.Contained
  | .leave _ below => below.Contained
  | .finish _ _ below => below.Contained

end

/-- Whether a statement has ended by a `return`. -/
def Completion.isReturn : Completion → Bool
  | .normal => false
  | .returned _ => true

@[inherit_doc ExprStack.Contained]
def Control.Contained : Control FrameId → Prop
  | .eval _ below | .give _ below | .failExpr _ below => below.Contained
  | .exec statement below => below.Admits statement.returns ∧ below.Contained
  | .ended completion below => below.Admits completion.isReturn ∧ below.Contained
  | .failStmt _ below => below.Contained

theorem StmtStack.admits_false (L : StmtStack FrameId) : L.Admits false :=
  nofun

theorem StmtStack.admits_or {L : StmtStack FrameId} {a b : Bool} : L.Admits (a || b) ↔ L.Admits a ∧ L.Admits b := by
  cases a <;> cases b <;> simp [StmtStack.Admits]

namespace Machine

section Contained
variable {setting : Setting} {s : State} {K : ExprStack FrameId} {L : StmtStack FrameId}

theorem contained_enterBody {closure : Closure} {scope : FrameId} {arguments : List Value} {yield : Yield FrameId}
    {paren : Token} (h : K.Contained) :
    (enterBody setting closure scope arguments yield paren K s).control.Contained := by
  unfold enterBody
  split
  · exact ⟨nofun, fun _ => rfl, h⟩
  · exact h

theorem contained_call {callee : Value} {arguments : List Value} {paren : Token} (h : K.Contained) :
    (call setting callee arguments paren K s).control.Contained := by
  unfold call callClosure callClass
  split
  · split <;> exact h
  · split
    · split
      · exact contained_enterBody h
      · exact h
    · exact h
  · split
    · split <;> exact h
    · split
      · exact contained_enterBody h
      · exact h
  · exact h

theorem contained_property {i : InstanceId} {name : Token} (h : K.Contained) : (property i name K s).control.Contained := by
  unfold property
  split
  · exact h
  · split <;> exact h

theorem contained_eval (h : K.Contained) (e : Expr) : (eval setting K s e).control.Contained := by
  cases e with
  | use site name =>
    rw [eval]
    split <;> exact h
  | this site keyword =>
    rw [eval]
    split <;> exact h
  | _ => exact h

theorem contained_give (v : Value) (h : K.Contained) : (give setting v s K).control.Contained := by
  cases K with
  | unary operator K =>
    rw [give]
    cases Operators.unary operator v <;> exact h
  | binaryRight left operator K =>
    rw [give]
    cases Operators.binary operator left v <;> exact h
  | logical operator right K =>
    rw [give]
    split <;> exact h
  | assign site name K =>
    rw [give]
    split <;> exact h
  | callee paren arguments K =>
    cases arguments with
    | nil => exact contained_call h
    | cons e rest => exact h
  | argument callee given paren rest K =>
    cases rest with
    | nil => exact contained_call h
    | cons e rest => exact h
  | get name K =>
    cases v with
    | instanceValue i => exact contained_property h
    | _ => exact h
  | setTarget name value K => cases v <;> exact h
  | discard L | print L | declare _ L => exact ⟨L.admits_false, h⟩
  | branch whenTrue whenFalse L =>
    obtain ⟨htrue, hfalse⟩ := StmtStack.admits_or.mp h.1
    cases whenFalse with
    | none =>
      rw [give]
      split
      · exact ⟨htrue, h.2⟩
      · exact ⟨L.admits_false, h.2⟩
    | some statement =>
      rw [give]
      split
      · exact ⟨htrue, h.2⟩
      · exact ⟨hfalse, h.2⟩
  | test condition body L =>
    rw [give]
    split
    · exact ⟨h.1, h⟩
    · exact ⟨L.admits_false, h.2⟩
  | _ => exact h

theorem contained_exec {statement : Stmt} (h : (Control.exec statement L).Contained) :
    (exec L s statement).control.Contained := by
  cases statement with
  | declareVariable name initializer =>
    cases initializer with
    | none => exact ⟨L.admits_false, h.2⟩
    | some e => exact h.2
  | block body => exact ⟨StmtStack.admits_false _, h.1, h.2⟩
  | returnValue keyword value => cases value <;> exact h
  | declareFunction _ | declareClass _ _ => exact ⟨L.admits_false, h.2⟩
  | branch _ _ _ | loop _ _ => exact h
  | expression _ | print _ => exact h.2

theorem contained_ended {completion : Completion} (h : (Control.ended completion L).Contained) :
    (ended completion s L).control.Contained := by
  cases L with
  | program rest =>
    cases rest with
    | nil => exact h
    | cons statement rest =>
      obtain ⟨hfirst, hrest⟩ := Bool.or_eq_false_iff.mp h.2
      exact ⟨fun hreturns => absurd hreturns (by rw [hfirst]; nofun), hrest⟩
  | sequence rest L =>
    cases rest with
    | nil => exact ⟨h.1, h.2.2⟩
    | cons statement rest =>
      obtain ⟨hfirst, hrest⟩ := StmtStack.admits_or.mp h.2.1
      cases completion with
      | normal => exact ⟨hfirst, hrest, h.2.2⟩
      | returned v => exact ⟨h.1, h.2.2⟩
  | again condition body L =>
    cases completion with
    | normal => exact h.2
    | returned v => exact ⟨h.1, h.2.2⟩
  | leave scope L => exact h
  | finish scope yield K => exact h.2

theorem contained_step {m : Machine} (h : m.control.Contained) : (m.step setting).control.Contained := by
  obtain ⟨control, s⟩ := m
  cases control with
  | eval e K => exact contained_eval h e
  | give v K => exact contained_give v h
  | exec statement L => exact contained_exec h
  | ended completion L => exact contained_ended h
  | failExpr fault K =>
    cases K with
    | branch _ _ _ | test _ _ _ | returnValue _ => exact h.2
    | _ => exact h
  | failStmt fault L =>
    cases L with
    | sequence _ _ | again _ _ _ => exact h.2
    | _ => exact h

theorem contained_run {m : Machine} (h : m.control.Contained) (n : Nat) : (m.run setting n).control.Contained := by
  induction n with
  | zero => exact h
  | succ n ih =>
    rw [run_succ]
    exact contained_step ih

end Contained

/-! ### Unwinding -/

/-- From the moment at which a `return` has been met, the machine does nothing but go down to the call around it, putting
    back the frames on its way, and then hands the value to the caller. -/
structure Unwinds (setting : Setting) (m : Machine) (v : Value) (caller : Caller) (j : Nat) : Prop where
  drops : ∀ i ≤ j, ∃ L f, L.caller? = some caller ∧
    m.run setting i = ⟨.ended (.returned v) L, { m.state with current := f }⟩
  resumes : m.run setting (j + 1) =
    ⟨.give (yieldValue m.state (.returned v) caller.yield) caller.below,
      { m.state with current := caller.scope, depth := m.state.depth - 1 }⟩

section Unwinds
variable {setting : Setting} {v : Value} {caller : Caller}

theorem unwinds_below {L L' : StmtStack FrameId} {s : State} {f : FrameId} {j : Nat} (hcaller : L.caller? = some caller)
    (hstep : run setting 1 ⟨.ended (.returned v) L, s⟩ = ⟨.ended (.returned v) L', { s with current := f }⟩)
    (h : Unwinds setting ⟨.ended (.returned v) L', { s with current := f }⟩ v caller j) :
    Unwinds setting ⟨.ended (.returned v) L, s⟩ v caller (j + 1) where
  drops i hi := by
    cases i with
    | zero => exact ⟨L, s.current, hcaller, rfl⟩
    | succ i =>
      rw [Nat.add_comm, run_add, hstep]
      exact h.drops i (Nat.le_of_succ_le_succ hi)
  resumes := by
    rw [Nat.add_comm, run_add, hstep, h.resumes]
    cases caller.yield <;> rfl

/-- A `return` goes down to the call around it, however many blocks, branches and loops are between. -/
theorem exists_unwinds : ∀ (L : StmtStack FrameId) (s : State), L.caller? = some caller →
    ∃ j, Unwinds setting ⟨.ended (.returned v) L, s⟩ v caller j
  | .finish _ _ _, s, h => by
    cases h
    refine ⟨0, fun i hi => ?_, rfl⟩
    cases Nat.le_zero.mp hi
    exact ⟨_, s.current, rfl, rfl⟩
  | .sequence rest L, s, h => by
    obtain ⟨j, hj⟩ := exists_unwinds L s h
    exact ⟨j + 1, unwinds_below h (by cases rest <;> rfl) hj⟩
  | .again _ _ L, s, h => by
    obtain ⟨j, hj⟩ := exists_unwinds L s h
    exact ⟨j + 1, unwinds_below h rfl hj⟩
  | .leave scope L, s, h => by
    obtain ⟨j, hj⟩ := exists_unwinds L { s with current := scope } h
    exact ⟨j + 1, unwinds_below h rfl hj⟩

/-- A `return` that is met while a call is open ends that call. -/
theorem unwinds_of_contained {m : Machine} {L : StmtStack FrameId} (hcontained : m.control.Contained)
    (h : m.control = .ended (.returned v) L) : ∃ caller j, L.caller? = some caller ∧ Unwinds setting m v caller j := by
  obtain ⟨control, s⟩ := m
  obtain rfl := h
  obtain ⟨caller, hcaller⟩ := Option.isSome_iff_exists.mp (hcontained.1 rfl)
  obtain ⟨j, hj⟩ := exists_unwinds L s hcaller
  exact ⟨caller, j, hcaller, hj⟩

end Unwinds

end Machine

end LoxLanguage
