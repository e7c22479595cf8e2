import LoxLanguage.Proofs.Lexical.Machine

/-! A program with more statements behind it. Until the program has ended, the statements behind it wait at the bottom of
the work and change nothing (`extend_step`). When it ends, all blocks and calls have been left, so the rest
begins where a program of its own would: at the top level, with no call open (`Grounded`). -/

namespace LoxLanguage

open Lexical (Environment)

/-! ### More statements behind a program -/

section Extend
variable {σ : Type} (more : List Stmt)

mutual

/-- Work that waits for a value, with more statements behind the program. -/
def ExprStack.extend : ExprStack σ → ExprStack σ
  | .answer => .answer
  | .unary operator below => .unary operator below.extend
  | .binaryLeft operator right below => .binaryLeft operator right below.extend
  | .binaryRight left operator below => .binaryRight left operator below.extend
  | .logical operator right below => .logical operator right below.extend
  | .assign site name below => .assign site name below.extend
  | .callee paren arguments below => .callee paren arguments below.extend
  | .argument callee given paren rest below => .argument callee given paren rest below.extend
  | .get name below => .get name below.extend
  | .setTarget name value below => .setTarget name value below.extend
  | .setValue i name below => .setValue i name below.extend
  | .discard below => .discard below.extend
  | .print below => .print below.extend
  | .declare name below => .declare name below.extend
  | .branch whenTrue whenFalse below => .branch whenTrue whenFalse below.extend
  | .test condition body below => .test condition body below.extend
  | .returnValue below => .returnValue below.extend

/-- Work that waits for the end of a statement, with more statements behind the program. -/
def StmtStack.extend : StmtStack σ → StmtStack σ
  | .program rest => .program (rest ++ more)
  | .sequence rest below => .sequence rest below.extend
  | .again condition body below => .again condition body below.extend
  | .leave scope below => .leave scope below.extend
  | .finish scope yield below => .finish scope yield below.extend

end

/-- What a machine is doing, with more statements behind the program. -/
def Control.extend : Control σ → Control σ
  | .eval e below => .eval e (below.extend more)
  | .give v below => .give v (below.extend more)
  | .exec s below => .exec s (below.extend more)
  | .ended completion below => .ended completion (below.extend more)
  | .failExpr fault below => .failExpr fault (below.extend more)
  | .failStmt fault below => .failStmt fault (below.extend more)

end Extend

namespace Lexical.Machine

variable (host : Host) (more : List Stmt)

/-- A machine with more statements behind its program. -/
def extend (m : Machine) : Machine :=
  ⟨m.control.extend more, m.state⟩

section Calls
variable (s : State) (below : ExprStack Environment) (paren : Token) (arguments : List Value)

theorem extend_enterBody (f : Function) (environment : Environment) (yield : Yield Environment) :
    enterBody host f environment arguments yield paren (below.extend more) s =
      (enterBody host f environment arguments yield paren below s).extend more := by
  unfold enterBody
  split <;> rfl

theorem extend_call (callee : Value) :
    call host callee arguments paren (below.extend more) s = (call host callee arguments paren below s).extend more := by
  cases callee with
  | clock =>
    simp only [call]
    split <;> rfl
  | closure f =>
    unfold call
    dsimp only
    split
    · unfold callClosure
      split
      · exact extend_enterBody host more s below paren arguments _ _ _
      · rfl
    · rfl
  | classValue c =>
    unfold call callClass
    dsimp only
    split
    · split <;> rfl
    · split
      · exact extend_enterBody host more _ below paren arguments _ _ _
      · rfl
  | _ => rfl

theorem extend_property (i : InstanceId) (name : Token) :
    property i name (below.extend more) s = (property i name below s).extend more := by
  unfold property
  split
  · rfl
  · split <;> rfl

theorem extend_giveResult (result : Except Fault Value) :
    giveResult result (below.extend more) s = (giveResult result below s).extend more := by
  cases result <;> rfl

theorem extend_give (v : Value) : give host v s (below.extend more) = (give host v s below).extend more := by
  cases below with
  | unary operator below => exact extend_giveResult more s below _
  | binaryRight left operator below => exact extend_giveResult more s below _
  | logical operator right below =>
    simp only [ExprStack.extend, give]
    split <;> rfl
  | assign site name below =>
    simp only [ExprStack.extend, give]
    split <;> rfl
  | callee paren arguments below =>
    cases arguments with
    | nil => exact extend_call host more s below paren [] v
    | cons e rest => rfl
  | argument callee given paren rest below =>
    cases rest with
    | nil => exact extend_call host more s below paren _ callee
    | cons e rest => rfl
  | get name below =>
    cases v with
    | instanceValue i => exact extend_property more s below i name
    | _ => rfl
  | setTarget name value below => cases v <;> rfl
  | branch whenTrue whenFalse below =>
    cases whenFalse <;>
    · simp only [ExprStack.extend, give]
      split <;> rfl
  | test condition body below =>
    simp only [ExprStack.extend, give]
    split <;> rfl
  | _ => rfl

end Calls

/-- Statements behind a program that has not ended only wait. -/
theorem extend_step {m : Machine} (h : m.outcome ≠ .completed) : (m.extend more).step host = (m.step host).extend more := by
  obtain ⟨control, s⟩ := m
  cases control with
  | eval e below =>
    cases e with
    | use site name => exact extend_giveResult more s below _
    | this site keyword => exact extend_giveResult more s below _
    | _ => rfl
  | give v below => exact extend_give host more s below v
  | exec statement below =>
    cases statement with
    | declareVariable name initializer => cases initializer <;> rfl
    | returnValue keyword value => cases value <;> rfl
    | _ => rfl
  | ended completion below =>
    cases below with
    | program rest =>
      cases rest with
      | nil => exact absurd rfl h
      | cons statement rest => rfl
    | sequence rest below => cases rest <;> cases completion <;> rfl
    | again condition body below => cases completion <;> rfl
    | _ => rfl
  | failExpr fault below => cases below <;> rfl
  | failStmt fault below => cases below <;> rfl

theorem extend_outcome {m : Machine} (h : m.outcome = .unfinished) : (m.extend more).outcome = .unfinished := by
  obtain ⟨control, s⟩ := m
  cases control with
  | give v below =>
    cases below with
    | answer => cases h
    | _ => rfl
  | ended completion below =>
    cases below with
    | program rest =>
      cases rest with
      | nil => cases h
      | cons statement rest => rfl
    | _ => rfl
  | failExpr fault below =>
    cases below with
    | answer => cases h
    | _ => rfl
  | failStmt fault below =>
    cases below with
    | program rest => cases h
    | _ => rfl
  | _ => rfl

theorem eq_of_completed {m : Machine} (h : m.outcome = .completed) : ∃ completion, m.control = .ended completion (.program []) := by
  unfold outcome at h
  split at h
  · cases h
  · exact ⟨_, ‹_›⟩
  · cases h
  · cases h
  · cases h

theorem run_of_finished {m : Machine} (h : m.outcome ≠ .unfinished) (fuel : Nat) : m.run host fuel = m := by
  cases fuel with
  | zero => rfl
  | succ fuel => rw [run, if_neg h]

theorem extend_of_completed {m : Machine} (h : m.outcome = .completed) :
    ∃ completion, m.extend more = ⟨.ended completion (.program more), m.state⟩ := by
  obtain ⟨completion, hcontrol⟩ := eq_of_completed h
  obtain ⟨control, s⟩ := m
  obtain rfl : control = .ended completion (.program []) := hcontrol
  exact ⟨completion, rfl⟩

/-- When a program has completed, the statements behind it are next. -/
theorem run_extend {m : Machine} {fuel : Nat} (h : (m.run host fuel).outcome = .completed) :
    ∃ steps completion, ∀ fuel', (m.extend more).run host (steps + fuel') =
      run host fuel' ⟨.ended completion (.program more), (m.run host fuel).state⟩ := by
  induction fuel generalizing m with
  | zero =>
    obtain ⟨completion, hextend⟩ := extend_of_completed (m := m) more h
    exact ⟨0, completion, fun fuel' => by rw [Nat.zero_add, hextend, run.eq_1]⟩
  | succ fuel ih =>
    by_cases hfinished : m.outcome = .unfinished
    · have hrun : m.run host (fuel + 1) = (m.step host).run host fuel := by rw [run, if_pos hfinished]
      rw [hrun] at h ⊢
      obtain ⟨steps, completion, hsteps⟩ := ih h
      refine ⟨steps + 1, completion, fun fuel' => ?_⟩
      have hnot : m.outcome ≠ .completed := by rw [hfinished]; nofun
      rw [Nat.add_right_comm, run, if_pos (extend_outcome more hfinished), extend_step host more hnot, hsteps]
    · rw [run_of_finished host hfinished] at h ⊢
      obtain ⟨completion, hextend⟩ := extend_of_completed more h
      exact ⟨0, completion, fun fuel' => by rw [Nat.zero_add, hextend]⟩

end Lexical.Machine

/-! ### Leaving blocks and calls -/

mutual

/-- The environment and the number of open calls behind all of the work that waits. -/
def ExprStack.unwind : ExprStack Environment → Environment × Nat → Environment × Nat
  | .answer, p => p
  | .unary _ below, p | .binaryLeft _ _ below, p | .binaryRight _ _ below, p | .logical _ _ below, p
  | .assign _ _ below, p | .callee _ _ below, p | .argument _ _ _ _ below, p | .get _ below, p
  | .setTarget _ _ below, p | .setValue _ _ below, p => below.unwind p
  | .discard below, p | .print below, p | .declare _ below, p | .branch _ _ below, p | .test _ _ below, p
  | .returnValue below, p => below.unwind p

/-- The environment and the depth when all blocks and calls that are open have been left. -/
def StmtStack.unwind : StmtStack Environment → Environment × Nat → Environment × Nat
  | .program _, p => p
  | .sequence _ below, p | .again _ _ below, p => below.unwind p
  | .leave environment below, p => below.unwind (environment, p.2)
  | .finish environment _ below, p => below.unwind (environment, p.2 - 1)

end

mutual

/-- Where the work leads does not depend on the current environment, unless it stays there. -/
theorem ExprStack.unwind_or : ∀ (K : ExprStack Environment) (e e' : Environment) (d : Nat),
    K.unwind (e, d) = K.unwind (e', d) ∨ (K.unwind (e, d)).1 = e
  | .answer, _, _, _ => .inr rfl
  | .unary _ below, e, e', d | .binaryLeft _ _ below, e, e', d | .binaryRight _ _ below, e, e', d
  | .logical _ _ below, e, e', d | .assign _ _ below, e, e', d | .callee _ _ below, e, e', d
  | .argument _ _ _ _ below, e, e', d | .get _ below, e, e', d | .setTarget _ _ below, e, e', d
  | .setValue _ _ below, e, e', d => below.unwind_or e e' d
  | .discard below, e, e', d | .print below, e, e', d | .declare _ below, e, e', d | .branch _ _ below, e, e', d
  | .test _ _ below, e, e', d | .returnValue below, e, e', d => below.unwind_or e e' d

theorem StmtStack.unwind_or : ∀ (K : StmtStack Environment) (e e' : Environment) (d : Nat),
    K.unwind (e, d) = K.unwind (e', d) ∨ (K.unwind (e, d)).1 = e
  | .program _, _, _, _ => .inr rfl
  | .sequence _ below, e, e', d | .again _ _ below, e, e', d => below.unwind_or e e' d
  | .leave _ _, _, _, _ => .inl rfl
  | .finish _ _ _, _, _, _ => .inl rfl

end

/-- The environment and the depth when all that is open has been left. -/
def Control.unwind : Control Environment → Environment × Nat → Environment × Nat
  | .eval _ below, p | .give _ below, p | .failExpr _ below, p => below.unwind p
  | .exec _ below, p | .ended _ below, p | .failStmt _ below, p => below.unwind p

namespace Lexical

/-- A state that may have got new local names, but none at the top level. -/
structure State.Extends (s s' : State) : Prop where
  top : s.environment = .top → s'.environment = .top
  depth : s'.depth = s.depth

theorem State.Extends.declare (s : State) (name : String) (v : Value) : s.Extends (s.declare name v) := by
  unfold State.declare
  cases h : s.environment with
  | top => exact ⟨fun _ => h, rfl⟩
  | inner names => exact ⟨fun h' => (nomatch h.symm.trans h'), rfl⟩

theorem State.Extends.reserve (s : State) (name : String) : s.Extends (s.reserve name) := by
  unfold State.reserve
  cases h : s.environment with
  | top => exact ⟨fun _ => h, rfl⟩
  | inner names => exact ⟨fun h' => (nomatch h.symm.trans h'), rfl⟩

theorem State.environment_settle (s : State) (name : String) (v : Value) :
    (s.settle name v).environment = s.environment ∧ (s.settle name v).depth = s.depth := by
  unfold State.settle
  split <;> exact ⟨rfl, rfl⟩

theorem State.environment_assign {s s' : State} {name : Token} {v : Value} (h : s.assign name v = .ok s') :
    s'.environment = s.environment ∧ s'.depth = s.depth := by
  unfold State.assign at h
  split at h
  · cases h
    exact ⟨rfl, rfl⟩
  · split at h <;> cases h
    exact ⟨rfl, rfl⟩

/-- Behind the parameters of a call the number of open calls is what it was. -/
theorem State.depth_allocateAll (s : State) (parameters : List (Token × Value)) :
    (s.allocateAll parameters).depth = s.depth := by
  unfold State.allocateAll
  induction parameters generalizing s with
  | nil => rfl
  | cons p rest ih => exact ih _

namespace Machine

/-- The work that waits leads back to the top level and to no open call. -/
def Grounded (m : Machine) : Prop :=
  m.control.unwind (m.state.environment, m.state.depth) = (.top, 0)

theorem unwind_extends {K : StmtStack Environment} {s s' : State} (hs : s.Extends s')
    (h : K.unwind (s.environment, s.depth) = (.top, 0)) : K.unwind (s'.environment, s'.depth) = (.top, 0) := by
  rw [hs.depth]
  rcases K.unwind_or s.environment s'.environment s.depth with hsame | htop
  · rw [← hsame, h]
  · have htop : s.environment = .top := by rw [← htop, h]
    rw [hs.top htop, ← htop, h, htop]

variable {host : Host} {s : State} {below : ExprStack Environment}

theorem grounded_giveResult {result : Except Fault Value} (h : below.unwind (s.environment, s.depth) = (.top, 0)) :
    (giveResult result below s).Grounded := by
  cases result <;> exact h

theorem grounded_enterBody {f : Function} {environment : Environment} {arguments : List Value} {yield : Yield Environment}
    {paren : Token} (h : below.unwind (s.environment, s.depth) = (.top, 0)) :
    (enterBody host f environment arguments yield paren below s).Grounded := by
  unfold enterBody
  split
  · show below.unwind (s.environment, (State.allocateAll _ _).depth - 1) = _
    rw [State.depth_allocateAll]
    exact h
  · exact h

theorem grounded_call {callee : Value} {arguments : List Value} {paren : Token}
    (h : below.unwind (s.environment, s.depth) = (.top, 0)) : (call host callee arguments paren below s).Grounded := by
  cases callee with
  | clock =>
    unfold call
    dsimp only
    split <;> exact h
  | closure f =>
    unfold call
    dsimp only
    split
    · unfold callClosure
      split
      · exact grounded_enterBody h
      · exact h
    · exact h
  | classValue c =>
    unfold call callClass
    dsimp only
    split
    · split <;> exact h
    · split
      · exact grounded_enterBody h
      · exact h
  | _ => exact h

theorem grounded_property {i : InstanceId} {name : Token} (h : below.unwind (s.environment, s.depth) = (.top, 0)) :
    (property i name below s).Grounded := by
  unfold property
  split
  · exact h
  · split <;> exact h

theorem grounded_give {v : Value} (h : below.unwind (s.environment, s.depth) = (.top, 0)) :
    (give host v s below).Grounded := by
  cases below with
  | unary operator below => exact grounded_giveResult h
  | binaryRight left operator below => exact grounded_giveResult h
  | logical operator right below =>
    rw [give]
    split <;> exact h
  | assign site name below =>
    rw [give]
    split
    · rename_i s' hassign
      obtain ⟨henvironment, hdepth⟩ := State.environment_assign hassign
      show below.unwind (s'.environment, s'.depth) = _
      rw [henvironment, hdepth]
      exact h
    · exact h
  | callee paren arguments below =>
    cases arguments with
    | nil => exact grounded_call h
    | cons e rest => exact h
  | argument callee given paren rest below =>
    cases rest with
    | nil => exact grounded_call h
    | cons e rest => exact h
  | get name below =>
    cases v with
    | instanceValue i => exact grounded_property h
    | _ => exact h
  | setTarget name value below => cases v <;> exact h
  | declare name below =>
    obtain ⟨henvironment, hdepth⟩ := s.environment_settle name.lexeme v
    show below.unwind ((s.settle name.lexeme v).environment, (s.settle name.lexeme v).depth) = _
    rw [henvironment, hdepth]
    exact h
  | branch whenTrue whenFalse below =>
    cases whenFalse <;>
    · rw [give]
      split <;> exact h
  | test condition body below =>
    rw [give]
    split <;> exact h
  | _ => exact h

/-- A step does not change where the work leads: what it enters it also leaves. -/
theorem Grounded.step {m : Machine} (h : m.Grounded) : (m.step host).Grounded := by
  obtain ⟨control, s⟩ := m
  cases control with
  | eval e below =>
    cases e with
    | use site name => exact grounded_giveResult h
    | this site keyword => exact grounded_giveResult h
    | _ => exact h
  | give v below => exact grounded_give h
  | exec statement below =>
    cases statement with
    | declareVariable name initializer =>
      cases initializer with
      | none => exact unwind_extends (.declare s _ _) h
      | some e => exact unwind_extends (.reserve s _) h
    | declareFunction f =>
      have hs := State.Extends.declare s f.name.lexeme (.closure s.closures.size)
      exact @unwind_extends _ _ (s.declareFunction f) ⟨hs.top, hs.depth⟩ h
    | declareClass name methods =>
      have hs := State.Extends.declare s name.lexeme (.classValue s.classes.size)
      exact @unwind_extends _ _ (s.declareClass name methods) ⟨hs.top, hs.depth⟩ h
    | returnValue keyword value => cases value <;> exact h
    | _ => exact h
  | ended completion below =>
    cases below with
    | program rest => cases rest <;> exact h
    | sequence rest below => cases rest <;> cases completion <;> exact h
    | again condition body below => cases completion <;> exact h
    | _ => exact h
  | failExpr fault below => cases below <;> exact h
  | failStmt fault below => cases below <;> exact h

theorem Grounded.run {m : Machine} (h : m.Grounded) (fuel : Nat) : (m.run host fuel).Grounded := by
  induction fuel generalizing m with
  | zero => exact h
  | succ fuel ih =>
    rw [Machine.run]
    split
    · exact ih h.step
    · exact h

theorem grounded_ofProgram {statements : List Stmt} (henvironment : s.environment = .top) (hdepth : s.depth = 0) :
    (ofProgram statements s).Grounded := by
  show (s.environment, s.depth) = _
  rw [henvironment, hdepth]

/-- The way in which the last statement of a program has ended does not matter to the next program. -/
theorem run_ended (completion : Completion) (statements : List Stmt) (s : State) (fuel : Nat) :
    (run host fuel ⟨.ended completion (.program statements), s⟩).outcome = ((ofProgram statements s).run host fuel).outcome ∧
      (run host fuel ⟨.ended completion (.program statements), s⟩).state = ((ofProgram statements s).run host fuel).state := by
  cases fuel with
  | zero => cases statements <;> exact ⟨rfl, rfl⟩
  | succ fuel => cases statements <;> exact ⟨rfl, rfl⟩

/-- Once a program has completed, the statements behind it run as a program of their own. -/
theorem run_sequel {first : List Stmt} {fuel : Nat} (henvironment : s.environment = .top) (hdepth : s.depth = 0)
    (h : ((ofProgram first s).run host fuel).outcome = .completed) (more : List Stmt) :
    ∃ steps, ∀ fuel',
      ((ofProgram (first ++ more) s).run host (steps + fuel')).outcome =
        ((ofProgram more ((ofProgram first s).run host fuel).rest).run host fuel').outcome ∧
      ((ofProgram (first ++ more) s).run host (steps + fuel')).state =
        ((ofProgram more ((ofProgram first s).run host fuel).rest).run host fuel').state := by
  obtain ⟨steps, completion, hsteps⟩ := run_extend host more h
  have hground := @Grounded.run host _ (@grounded_ofProgram s first henvironment hdepth) fuel
  have hrest : ((ofProgram first s).run host fuel).rest = ((ofProgram first s).run host fuel).state := by
    obtain ⟨completion, hcontrol⟩ := eq_of_completed h
    unfold Grounded at hground
    rw [hcontrol] at hground
    obtain ⟨htop, hzero⟩ := Prod.mk.inj hground
    rw [rest, ← htop, ← hzero]
  refine ⟨steps, fun fuel' => ?_⟩
  have hwhole : (ofProgram (first ++ more) s).run host (steps + fuel') = _ := hsteps fuel'
  rw [hwhole, hrest]
  exact run_ended completion more _ fuel'

end Machine

end Lexical

end LoxLanguage
