import Mathlib
import LoxLanguage.Proofs.Machine.Passes

/-! Work above other work. An expression or a statement is run above the work that waits for it as it is run with nothing
below it, step by step, up to the moment at which it has come to its end (`Machine.run_above`). So what a run with
nothing below leaves in place is left in place by every expression and statement, wherever it stands
(`Machine.current_of_answers`, `Machine.current_of_ends`). -/

namespace LoxLanguage

/-! ### Stacks on other stacks -/

mutual

/-- The work with other work below it: `K` in place of the answer, `L` in place of the program. -/
def ExprStack.onto : ExprStack FrameId → ExprStack FrameId → StmtStack FrameId → ExprStack FrameId
  | .answer, K, _ => K
  | .unary operator below, K, L => .unary operator (below.onto K L)
  | .binaryLeft operator right below, K, L => .binaryLeft operator right (below.onto K L)
  | .binaryRight left operator below, K, L => .binaryRight left operator (below.onto K L)
  | .logical operator right below, K, L => .logical operator right (below.onto K L)
  | .assign site name below, K, L => .assign site name (below.onto K L)
  | .callee paren arguments below, K, L => .callee paren arguments (below.onto K L)
  | .argument callee given paren rest below, K, L => .argument callee given paren rest (below.onto K L)
  | .get name below, K, L => .get name (below.onto K L)
  | .setTarget name value below, K, L => .setTarget name value (below.onto K L)
  | .setValue i name below, K, L => .setValue i name (below.onto K L)
  | .discard below, K, L => .discard (below.onto K L)
  | .print below, K, L => .print (below.onto K L)
  | .declare name below, K, L => .declare name (below.onto K L)
  | .branch whenTrue whenFalse below, K, L => .branch whenTrue whenFalse (below.onto K L)
  | .test condition body below, K, L => .test condition body (below.onto K L)
  | .returnValue below, K, L => .returnValue (below.onto K L)

@[inherit_doc ExprStack.onto]
def StmtStack.onto : StmtStack FrameId → ExprStack FrameId → StmtStack FrameId → StmtStack FrameId
  | .program _, _, L => L
  | .sequence rest below, K, L => .sequence rest (below.onto K L)
  | .again condition body below, K, L => .again condition body (below.onto K L)
  | .leave scope below, K, L => .leave scope (below.onto K L)
  | .finish scope yield below, K, L => .finish scope yield (below.onto K L)

end

@[inherit_doc ExprStack.onto]
def Control.onto (c : Control FrameId) (K : ExprStack FrameId) (L : StmtStack FrameId) : Control FrameId :=
  match c with
  | .eval e below => .eval e (below.onto K L)
  | .give v below => .give v (below.onto K L)
  | .exec s below => .exec s (below.onto K L)
  | .ended completion below => .ended completion (below.onto K L)
  | .failExpr fault below => .failExpr fault (below.onto K L)
  | .failStmt fault below => .failStmt fault (below.onto K L)

@[inherit_doc ExprStack.onto]
def Machine.onto (m : Machine) (K : ExprStack FrameId) (L : StmtStack FrameId) : Machine :=
  ⟨m.control.onto K L, m.state⟩

mutual

/-- What the work stands on: the statements of a program that are still to come, or nothing but an answer. -/
def ExprStack.bottom : ExprStack FrameId → Option (List Stmt)
  | .answer => none
  | .unary _ below | .binaryLeft _ _ below | .binaryRight _ _ below | .logical _ _ below | .assign _ _ below
  | .callee _ _ below | .argument _ _ _ _ below | .get _ below | .setTarget _ _ below | .setValue _ _ below =>
    below.bottom
  | .discard below | .print below | .declare _ below | .branch _ _ below | .test _ _ below | .returnValue below =>
    below.bottom

@[inherit_doc ExprStack.bottom]
def StmtStack.bottom : StmtStack FrameId → Option (List Stmt)
  | .program rest => some rest
  | .sequence _ below | .again _ _ below | .leave _ below => below.bottom
  | .finish _ _ below => below.bottom

end

@[inherit_doc ExprStack.bottom]
def Control.bottom : Control FrameId → Option (List Stmt)
  | .eval _ below | .give _ below | .failExpr _ below => below.bottom
  | .exec _ below | .ended _ below | .failStmt _ below => below.bottom

mutual

/-- How many pieces of work wait. -/
def ExprStack.height : ExprStack FrameId → Nat
  | .answer => 0
  | .unary _ below | .binaryLeft _ _ below | .binaryRight _ _ below | .logical _ _ below | .assign _ _ below
  | .callee _ _ below | .argument _ _ _ _ below | .get _ below | .setTarget _ _ below | .setValue _ _ below =>
    below.height + 1
  | .discard below | .print below | .declare _ below | .branch _ _ below | .test _ _ below | .returnValue below =>
    below.height + 1

/-- How many pieces of work wait. -/
def StmtStack.height : StmtStack FrameId → Nat
  | .program _ => 0
  | .sequence _ below | .again _ _ below | .leave _ below => below.height + 1
  | .finish _ _ below => below.height + 1

end

section Height
variable {K : ExprStack FrameId} {L : StmtStack FrameId}

mutual

theorem ExprStack.height_onto : ∀ J : ExprStack FrameId,
    (J.onto K L).height = J.height + J.bottom.elim K.height fun _ => L.height
  | .answer => (Nat.zero_add _).symm
  | .unary _ J | .binaryLeft _ _ J | .binaryRight _ _ J | .logical _ _ J | .assign _ _ J | .callee _ _ J
  | .argument _ _ _ _ J | .get _ J | .setTarget _ _ J | .setValue _ _ J => by
    rw [ExprStack.onto, ExprStack.height, J.height_onto, ExprStack.height, ExprStack.bottom]
    omega
  | .discard J | .print J | .declare _ J | .branch _ _ J | .test _ _ J | .returnValue J => by
    rw [ExprStack.onto, ExprStack.height, J.height_onto, ExprStack.height, ExprStack.bottom]
    omega

theorem StmtStack.height_onto : ∀ J : StmtStack FrameId,
    (J.onto K L).height = J.height + J.bottom.elim K.height fun _ => L.height
  | .program _ => (Nat.zero_add _).symm
  | .sequence _ J | .again _ _ J | .leave _ J => by
    rw [StmtStack.onto, StmtStack.height, J.height_onto, StmtStack.height, StmtStack.bottom]
    omega
  | .finish _ _ J => by
    rw [StmtStack.onto, StmtStack.height, J.height_onto, StmtStack.height, StmtStack.bottom]
    omega

end

/-- Work that comes out as what it was put on was nothing. -/
theorem ExprStack.onto_eq_iff {J : ExprStack FrameId} (hbottom : J.bottom = none) : J.onto K L = K ↔ J = .answer := by
  refine ⟨fun h => ?_, fun h => by rw [h, ExprStack.onto]⟩
  have hheight := congrArg ExprStack.height h
  rw [ExprStack.height_onto J, hbottom] at hheight
  cases J with
  | answer => rfl
  | _ =>
    simp only [ExprStack.height, Option.elim_none] at hheight
    omega

theorem StmtStack.onto_eq_iff {J : StmtStack FrameId} {rest : List Stmt} (hbottom : J.bottom = some rest) :
    J.onto K L = L ↔ J = .program rest := by
  refine ⟨fun h => ?_, fun h => by rw [h, StmtStack.onto]⟩
  have hheight := congrArg StmtStack.height h
  rw [StmtStack.height_onto J, hbottom] at hheight
  cases J with
  | program => rw [Option.some.inj hbottom]
  | _ =>
    simp only [StmtStack.height, Option.elim_some] at hheight
    omega

end Height

/-! ### Steps above other work -/

namespace Machine

/-- A step from `m` to `m'` is the same one above other work, and leaves the bottom as it is. -/
structure Lifts (K : ExprStack FrameId) (L : StmtStack FrameId) (m m' lifted : Machine) : Prop where
  lifted : lifted = m'.onto K L
  bottom : m'.control.bottom = m.control.bottom

section Lifts
variable {setting : Setting} {K J : ExprStack FrameId} {L : StmtStack FrameId} {control : Control FrameId} {s s' : State}

theorem lifts_giveResult {result : Except RuntimeError Value} (h : J.bottom = control.bottom) :
    Lifts K L ⟨control, s⟩ (giveResult result J s) (giveResult result (J.onto K L) s) := by
  cases result <;> exact ⟨rfl, h⟩

theorem lifts_enterBody {closure : Closure} {scope : FrameId} {arguments : List Value} {yield : Yield FrameId} {paren : Token}
    (h : J.bottom = control.bottom) :
    Lifts K L ⟨control, s⟩ (enterBody setting closure scope arguments yield paren J s')
      (enterBody setting closure scope arguments yield paren (J.onto K L) s') := by
  unfold enterBody
  split <;> exact ⟨rfl, h⟩

theorem lifts_call {callee : Value} {arguments : List Value} {paren : Token} (h : J.bottom = control.bottom) :
    Lifts K L ⟨control, s⟩ (call setting callee arguments paren J s)
      (call setting callee arguments paren (J.onto K L) s) := by
  unfold call callClosure callClass
  split
  · split <;> exact ⟨rfl, h⟩
  · split
    · split
      · exact lifts_enterBody h
      · exact ⟨rfl, h⟩
    · exact ⟨rfl, h⟩
  · split
    · split <;> exact ⟨rfl, h⟩
    · split
      · exact lifts_enterBody h
      · exact ⟨rfl, h⟩
  · exact ⟨rfl, h⟩

theorem lifts_property {i : InstanceId} {name : Token} (h : J.bottom = control.bottom) :
    Lifts K L ⟨control, s⟩ (property i name J s) (property i name (J.onto K L) s) := by
  unfold property
  split
  · exact ⟨rfl, h⟩
  · split <;> exact ⟨rfl, h⟩

theorem lifts_eval (e : Expr) : Lifts K L ⟨.eval e J, s⟩ (eval setting J s e) (eval setting (J.onto K L) s e) := by
  cases e with
  | use site name =>
    simp only [eval]
    split <;> exact ⟨rfl, rfl⟩
  | this site keyword =>
    simp only [eval]
    split <;> exact ⟨rfl, rfl⟩
  | _ => exact ⟨rfl, rfl⟩

theorem lifts_give (v : Value) (hbusy : J ≠ .answer) :
    Lifts K L ⟨.give v J, s⟩ (give setting v s J) (give setting v s (J.onto K L)) := by
  cases J with
  | answer => exact absurd rfl hbusy
  | unary operator J => exact lifts_giveResult rfl
  | binaryRight left operator J => exact lifts_giveResult rfl
  | logical operator right J =>
    simp only [ExprStack.onto, give]
    split <;> exact ⟨rfl, rfl⟩
  | assign site name J =>
    simp only [ExprStack.onto, give]
    split <;> exact ⟨rfl, rfl⟩
  | callee paren arguments J =>
    cases arguments with
    | nil => exact lifts_call rfl
    | cons e rest => exact ⟨rfl, rfl⟩
  | argument callee given paren rest J =>
    cases rest with
    | nil => exact lifts_call rfl
    | cons e rest => exact ⟨rfl, rfl⟩
  | get name J =>
    cases v with
    | instanceValue i => exact lifts_property rfl
    | _ => exact ⟨rfl, rfl⟩
  | setTarget name value J => cases v <;> exact ⟨rfl, rfl⟩
  | branch whenTrue whenFalse J =>
    cases whenFalse <;>
    · simp only [ExprStack.onto, give]
      split <;> exact ⟨rfl, rfl⟩
  | test condition body J =>
    simp only [ExprStack.onto, give]
    split <;> exact ⟨rfl, rfl⟩
  | _ => exact ⟨rfl, rfl⟩

theorem lifts_exec (statement : Stmt) (J : StmtStack FrameId) :
    Lifts K L ⟨.exec statement J, s⟩ (exec J s statement) (exec (J.onto K L) s statement) := by
  cases statement with
  | declareVariable name initializer => cases initializer <;> exact ⟨rfl, rfl⟩
  | returnValue keyword value => cases value <;> exact ⟨rfl, rfl⟩
  | _ => exact ⟨rfl, rfl⟩

theorem lifts_ended (completion : Completion) {J : StmtStack FrameId} (hbusy : ∀ rest, J ≠ .program rest) :
    Lifts K L ⟨.ended completion J, s⟩ (ended completion s J) (ended completion s (J.onto K L)) := by
  cases J with
  | program rest => exact absurd rfl (hbusy rest)
  | sequence rest J => cases rest <;> cases completion <;> exact ⟨rfl, rfl⟩
  | again condition body J => cases completion <;> exact ⟨rfl, rfl⟩
  | _ => exact ⟨rfl, rfl⟩

/-- What has not come to its end takes the same step above other work. -/
theorem lifts_step {m : Machine} (hstopped : m.stopped = false)
    (hbottom : ∀ statement rest, m.control.bottom ≠ some (statement :: rest)) :
    Lifts K L m (m.step setting) ((m.onto K L).step setting) := by
  obtain ⟨control, s⟩ := m
  cases control with
  | eval e J => exact lifts_eval e
  | give v J =>
    refine lifts_give v ?_
    rintro rfl
    cases hstopped
  | exec statement J => exact lifts_exec statement J
  | ended completion J =>
    refine lifts_ended completion ?_
    rintro (_ | ⟨statement, rest⟩) rfl
    · cases hstopped
    · exact hbottom statement rest rfl
  | failExpr fault J =>
    cases J with
    | answer => cases hstopped
    | _ => exact ⟨rfl, rfl⟩
  | failStmt fault J =>
    cases J with
    | program rest => cases hstopped
    | _ => exact ⟨rfl, rfl⟩

end Lifts

end Machine

/-! ### Up to the end -/

/-- A value or a fault is handed to the work that waits for an expression. -/
def Control.Answers (K : ExprStack FrameId) : Control FrameId → Prop
  | .give _ J | .failExpr _ J => J = K
  | _ => False

/-- The end of a statement, or a fault, is told to the work that waits for it. -/
def Control.Ends (L : StmtStack FrameId) : Control FrameId → Prop
  | .ended _ J | .failStmt _ J => J = L
  | _ => False

namespace Machine

variable {setting : Setting}

/-- The first moment of a run at which something holds of what the machine is about to do. -/
structure FirstAt (setting : Setting) (m : Machine) (holds : Control FrameId → Prop) (n : Nat) : Prop where
  now : holds (m.run setting n).control
  before : ∀ k < n, ¬ holds (m.run setting k).control

/-- Up to a moment at which a run with nothing below has not stopped before, the run above other work is the same. -/
theorem run_above {K : ExprStack FrameId} {L : StmtStack FrameId} {m : Machine} {n : Nat}
    (hbottom : ∀ statement rest, m.control.bottom ≠ some (statement :: rest))
    (hbusy : ∀ k < n, (m.run setting k).stopped = false) :
    (m.onto K L).run setting n = (m.run setting n).onto K L ∧ (m.run setting n).control.bottom = m.control.bottom := by
  induction n with
  | zero => exact ⟨rfl, rfl⟩
  | succ n ih =>
    obtain ⟨hrun, hsame⟩ := ih fun k hk => hbusy k (Nat.lt_succ_of_lt hk)
    have hstep : Lifts K L _ _ (((m.run setting n).onto K L).step setting) :=
      lifts_step (hbusy n (Nat.lt_succ_self n)) (hsame ▸ hbottom)
    rw [run_succ, run_succ, hrun]
    exact ⟨hstep.lifted, hstep.bottom.trans hsame⟩

/-- With nothing but an answer below, a machine stops where it answers. -/
theorem answers_iff_stopped {m : Machine} (hbottom : m.control.bottom = none) :
    m.control.Answers .answer ↔ m.stopped = true := by
  obtain ⟨control, s⟩ := m
  cases control with
  | eval | exec => exact iff_of_false id nofun
  | give v J =>
    cases J with
    | answer => exact iff_of_true rfl rfl
    | _ => exact iff_of_false nofun nofun
  | ended completion J =>
    cases J with
    | program rest => cases hbottom
    | _ => exact iff_of_false id nofun
  | failExpr fault J =>
    cases J with
    | answer => exact iff_of_true rfl rfl
    | _ => exact iff_of_false nofun nofun
  | failStmt fault J =>
    cases J with
    | program rest => cases hbottom
    | _ => exact iff_of_false id nofun

/-- With nothing but an end below, a machine stops where it ends. -/
theorem ends_iff_stopped {m : Machine} (hbottom : m.control.bottom = some []) :
    m.control.Ends (.program []) ↔ m.stopped = true := by
  obtain ⟨control, s⟩ := m
  cases control with
  | eval | exec => exact iff_of_false id nofun
  | give v J =>
    cases J with
    | answer => cases hbottom
    | _ => exact iff_of_false id nofun
  | ended completion J =>
    cases J with
    | program rest =>
      cases hbottom
      exact iff_of_true rfl rfl
    | _ => exact iff_of_false nofun nofun
  | failExpr fault J =>
    cases J with
    | answer => cases hbottom
    | _ => exact iff_of_false id nofun
  | failStmt fault J =>
    cases J with
    | program rest =>
      cases hbottom
      exact iff_of_true rfl rfl
    | _ => exact iff_of_false nofun nofun

end Machine

namespace Control

variable {K : ExprStack FrameId} {L : StmtStack FrameId} {c : Control FrameId}

theorem answers_onto (hbottom : c.bottom = none) : (c.onto K L).Answers K ↔ c.Answers .answer := by
  cases c with
  | give v J => exact ExprStack.onto_eq_iff hbottom
  | failExpr fault J => exact ExprStack.onto_eq_iff hbottom
  | _ => exact Iff.rfl

theorem ends_onto {rest : List Stmt} (hbottom : c.bottom = some rest) : (c.onto K L).Ends L ↔ c.Ends (.program rest) := by
  cases c with
  | ended completion J => exact StmtStack.onto_eq_iff hbottom
  | failStmt fault J => exact StmtStack.onto_eq_iff hbottom
  | _ => exact Iff.rfl

end Control

namespace Machine

/-- A machine comes to its end above other work where it stops with nothing below. -/
structure Ending (K : ExprStack FrameId) (L : StmtStack FrameId) (m : Machine) (ends : Control FrameId → Prop) : Prop where
  bottom : ∀ statement rest, m.control.bottom ≠ some (statement :: rest)
  onto : ∀ m' : Machine, m'.control.bottom = m.control.bottom → (ends (m'.control.onto K L) ↔ m'.stopped = true)

section Ending
variable {setting : Setting} {s : State} {n : Nat} {K : ExprStack FrameId} {L : StmtStack FrameId}

theorem ending_answers (e : Expr) (s : State) : Ending K L (ofExpr e s) (Control.Answers K) where
  bottom := nofun
  onto _ hsame := (Control.answers_onto hsame).trans (answers_iff_stopped hsame)

theorem ending_ends (statement : Stmt) (s : State) :
    Ending K L ⟨.exec statement (.program []), s⟩ (Control.Ends L) where
  bottom := nofun
  onto _ hsame := (Control.ends_onto hsame).trans (ends_iff_stopped hsame)

variable {m : Machine} {ends : Control FrameId → Prop}

/-- The first end above other work is the first moment at which the run with nothing below has stopped. -/
theorem Ending.firstAt_iff (h : Ending K L m ends) : FirstAt setting (m.onto K L) ends n ↔
    (m.run setting n).stopped = true ∧ ∀ k < n, (m.run setting k).stopped = false := by
  have hends : ∀ k, (∀ j < k, (m.run setting j).stopped = false) →
      (ends ((m.onto K L).run setting k).control ↔ (m.run setting k).stopped = true) := by
    intro k hbusy
    obtain ⟨hrun, hsame⟩ := @run_above setting K L m k h.bottom hbusy
    rw [hrun]
    exact h.onto _ hsame
  constructor
  · intro hfirst
    have hbusy : ∀ k < n, (m.run setting k).stopped = false := by
      intro k
      induction k using Nat.strong_induction_on with
      | _ k ih =>
        intro hk
        have hearlier : ∀ j < k, (m.run setting j).stopped = false := fun j hj => ih j hj (hj.trans hk)
        exact Bool.eq_false_iff.mpr fun hstopped => hfirst.before k hk ((hends k hearlier).mpr hstopped)
    exact ⟨(hends n hbusy).mp hfirst.now, hbusy⟩
  · rintro ⟨hstopped, hbusy⟩
    refine ⟨(hends n hbusy).mpr hstopped, fun k hk hnow => ?_⟩
    have hearly := (hends k fun j hj => hbusy j (hj.trans hk)).mp hnow
    rw [hbusy k hk] at hearly
    cases hearly

/-- When a run above other work has come to its end for the first time, the frame is current that was current below. -/
theorem Ending.current (h : Ending K L m ends) (hfirst : FirstAt setting (m.onto K L) ends n) :
    ((m.onto K L).run setting n).state.current = m.control.outermost m.state.current := by
  obtain ⟨hstopped, hbusy⟩ := h.firstAt_iff.mp hfirst
  have hback := @outermost_run setting m n
  rw [outermost_of_stopped (stopped_iff.mp hstopped)] at hback
  rw [(run_above h.bottom hbusy).1]
  exact hback

/-- The frame that is current when an expression has been evaluated is the one that was current before. -/
theorem current_of_answers {e : Expr} (h : FirstAt setting ⟨.eval e K, s⟩ (Control.Answers K) n) :
    (run setting n ⟨.eval e K, s⟩).state.current = s.current :=
  (ending_answers (L := .program []) e s).current h

/-- The frame that is current when a statement has ended is the one that was current before. -/
theorem current_of_ends {statement : Stmt} (h : FirstAt setting ⟨.exec statement L, s⟩ (Control.Ends L) n) :
    (run setting n ⟨.exec statement L, s⟩).state.current = s.current :=
  (ending_ends (K := .answer) statement s).current h

end Ending

end Machine

end LoxLanguage
