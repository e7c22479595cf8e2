import Mathlib
import LoxLanguage.Machine.Step
import LoxLanguage.Proofs.Lexical.Frames
import LoxLanguage.Proofs.Scope.Visits

/-! The work that waits: which frames it puts back, and what stands below a declaration. The frames that become current
again are among those that were current when a block or a call began, so whatever holds of them goes on to hold, up to
the frame that a step has just opened (`Machine.Ordered.step`). A declaration is always one of a list of statements.

A run that fails drops all the work that waits and leaves the store alone. -/

namespace LoxLanguage

/-- The work that waits behind a statement of a list. -/
def StmtStack.isList : StmtStack FrameId → Bool
  | .program _ | .sequence _ _ => true
  | _ => false

mutual

/-- The frames that the work puts back have a property, and a declaration is one of a list. -/
def ExprStack.Ordered (p : FrameId → Prop) : ExprStack FrameId → Prop
  | .answer => True
  | .unary _ below | .binaryLeft _ _ below | .binaryRight _ _ below | .logical _ _ below | .assign _ _ below
  | .callee _ _ below | .argument _ _ _ _ below | .get _ below | .setTarget _ _ below | .setValue _ _ below =>
    below.Ordered p
  | .declare _ below => below.isList = true ∧ below.Ordered p
  | .discard below | .print below | .branch _ _ below | .test _ _ below | .returnValue below => below.Ordered p

@[inherit_doc ExprStack.Ordered]
def StmtStack.Ordered (p : FrameId → Prop) : StmtStack FrameId → Prop
  | .program _ => True
  | .sequence _ below | .again _ _ below => below.Ordered p
  | .leave f below => p f ∧ below.Ordered p
  | .finish f _ below => p f ∧ below.Ordered p

end

@[inherit_doc ExprStack.Ordered]
def Control.Ordered (p : FrameId → Prop) : Control FrameId → Prop
  | .eval _ below | .give _ below | .failExpr _ below => below.Ordered p
  | .exec statement below => (statement.declared?.isSome → below.isList = true) ∧ below.Ordered p
  | .ended _ below | .failStmt _ below => below.Ordered p

/-- The branches and the bodies of loops that are about to begin declare nothing. -/
def Control.Plain : Control FrameId → Prop
  | .give _ (.branch whenTrue whenFalse _) =>
    whenTrue.declared? = none ∧ ∀ statement, whenFalse = some statement → statement.declared? = none
  | .give _ (.test _ body _) => body.declared? = none
  | _ => True

section Mono
variable {p q : FrameId → Prop}

mutual

theorem ExprStack.ordered_mono (hpq : ∀ f, p f → q f) : ∀ K : ExprStack FrameId, K.Ordered p → K.Ordered q
  | .answer, _ => trivial
  | .unary _ K, h | .binaryLeft _ _ K, h | .binaryRight _ _ K, h | .logical _ _ K, h | .assign _ _ K, h
  | .callee _ _ K, h | .argument _ _ _ _ K, h | .get _ K, h | .setTarget _ _ K, h | .setValue _ _ K, h =>
    ExprStack.ordered_mono hpq K h
  | .declare _ K, h => ⟨h.1, StmtStack.ordered_mono hpq K h.2⟩
  | .discard K, h | .print K, h | .branch _ _ K, h | .test _ _ K, h | .returnValue K, h => StmtStack.ordered_mono hpq K h

theorem StmtStack.ordered_mono (hpq : ∀ f, p f → q f) : ∀ K : StmtStack FrameId, K.Ordered p → K.Ordered q
  | .program _, _ => trivial
  | .sequence _ K, h | .again _ _ K, h => StmtStack.ordered_mono hpq K h
  | .leave _ K, h => ⟨hpq _ h.1, StmtStack.ordered_mono hpq K h.2⟩
  | .finish _ _ K, h => ⟨hpq _ h.1, ExprStack.ordered_mono hpq K h.2⟩

end

theorem Control.ordered_mono (hpq : ∀ f, p f → q f) (c : Control FrameId) (h : c.Ordered p) : c.Ordered q := by
  cases c with
  | eval e K => exact K.ordered_mono hpq h
  | give v K => exact K.ordered_mono hpq h
  | exec statement K => exact ⟨h.1, K.ordered_mono hpq h.2⟩
  | ended completion K => exact K.ordered_mono hpq h
  | failExpr fault K => exact K.ordered_mono hpq h
  | failStmt fault K => exact K.ordered_mono hpq h

end Mono

namespace Machine

/-- The current frame and those that the work puts back have a property, and a declaration is one of a list. -/
structure Ordered (p : FrameId → Prop) (m : Machine) : Prop where
  current : p m.state.current
  work : m.control.Ordered p

/-- The step has opened the frame that is now the current one, after all others. -/
def Opens (s : State) (m : Machine) : Prop :=
  s.store.frames.size ≤ m.state.current ∧ m.state.current + 1 = m.state.store.frames.size

/-- What a step leaves of an ordered machine: the current frame is one that has the property, or the newest. -/
structure Follows (p : FrameId → Prop) (s : State) (m : Machine) : Prop where
  current : p m.state.current ∨ Opens s m
  work : m.control.Ordered p

section Follows
variable {p : FrameId → Prop} {setting : Setting} {s : State} {K : ExprStack FrameId}

theorem follows_enterBody {s₀ : State} {closure : Closure} {scope : FrameId} {arguments : List Value} {yield : Yield FrameId}
    {paren : Token} (hcurrent : p s.current) (hK : K.Ordered p) (hsize : s₀.store.frames.size ≤ s.store.frames.size) :
    Follows p s₀ (enterBody setting closure scope arguments yield paren K s) := by
  unfold enterBody
  split
  · exact ⟨.inr ⟨hsize, Store.size_newFrame.symm⟩, hcurrent, hK⟩
  · exact ⟨.inl hcurrent, hK⟩

theorem follows_callClass {k : ClassId} {arguments : List Value} {paren : Token} (hcurrent : p s.current) (hK : K.Ordered p) :
    Follows p s (callClass setting k arguments paren K s) := by
  unfold callClass
  split
  · split <;> exact ⟨.inl hcurrent, hK⟩
  · split
    · refine follows_enterBody hcurrent hK ?_
      exact (Nat.le_succ _).trans_eq Store.size_newFrame.symm
    · exact ⟨.inl hcurrent, hK⟩

theorem follows_call {callee : Value} {arguments : List Value} {paren : Token} (hcurrent : p s.current) (hK : K.Ordered p) :
    Follows p s (call setting callee arguments paren K s) := by
  unfold call
  split
  · split <;> exact ⟨.inl hcurrent, hK⟩
  · split
    · unfold callClosure
      split
      · exact follows_enterBody hcurrent hK (Nat.le_refl _)
      · exact ⟨.inl hcurrent, hK⟩
    · exact ⟨.inl hcurrent, hK⟩
  · exact follows_callClass hcurrent hK
  · exact ⟨.inl hcurrent, hK⟩

theorem follows_property {i : InstanceId} {name : Token} (hcurrent : p s.current) (hK : K.Ordered p) :
    Follows p s (property i name K s) := by
  unfold property
  split
  · exact ⟨.inl hcurrent, hK⟩
  · split <;> exact ⟨.inl hcurrent, hK⟩

theorem follows_eval (hcurrent : p s.current) (hK : K.Ordered p) (e : Expr) : Follows p s (eval setting K s e) := by
  cases e with
  | use site name =>
    rw [eval]
    split <;> exact ⟨.inl hcurrent, hK⟩
  | this site keyword =>
    rw [eval]
    split <;> exact ⟨.inl hcurrent, hK⟩
  | _ => exact ⟨.inl hcurrent, hK⟩

theorem follows_give (hcurrent : p s.current) {v : Value} {K : ExprStack FrameId} (hK : K.Ordered p)
    (hplain : (Control.give v K).Plain) : Follows p s (give setting v s K) := by
  cases K with
  | answer => exact ⟨.inl hcurrent, trivial⟩
  | unary operator K =>
    rw [give]
    cases Operators.unary operator v <;> exact ⟨.inl hcurrent, hK⟩
  | binaryRight left operator K =>
    rw [give]
    cases Operators.binary operator left v <;> exact ⟨.inl hcurrent, hK⟩
  | logical operator right K =>
    rw [give]
    split <;> exact ⟨.inl hcurrent, hK⟩
  | assign site name K =>
    rw [give]
    split <;> exact ⟨.inl hcurrent, hK⟩
  | callee paren arguments K =>
    cases arguments with
    | nil => exact follows_call hcurrent hK
    | cons e rest => exact ⟨.inl hcurrent, hK⟩
  | argument callee given paren rest K =>
    cases rest with
    | nil => exact follows_call hcurrent hK
    | cons e rest => exact ⟨.inl hcurrent, hK⟩
  | get name K =>
    cases v with
    | instanceValue i => exact follows_property hcurrent hK
    | _ => exact ⟨.inl hcurrent, hK⟩
  | setTarget name value K => cases v <;> exact ⟨.inl hcurrent, hK⟩
  | declare name K => exact ⟨.inl hcurrent, hK.2⟩
  | branch whenTrue whenFalse K =>
    obtain ⟨htrue, hfalse⟩ := hplain
    cases whenFalse with
    | none =>
      rw [give]
      split
      · exact ⟨.inl hcurrent, fun h => absurd htrue (Option.isSome_iff_ne_none.mp h), hK⟩
      · exact ⟨.inl hcurrent, hK⟩
    | some statement =>
      rw [give]
      split
      · exact ⟨.inl hcurrent, fun h => absurd htrue (Option.isSome_iff_ne_none.mp h), hK⟩
      · exact ⟨.inl hcurrent, fun h => absurd (hfalse statement rfl) (Option.isSome_iff_ne_none.mp h), hK⟩
  | test condition body K =>
    have hbody : body.declared? = none := hplain
    rw [give]
    split
    · exact ⟨.inl hcurrent, fun h => absurd hbody (Option.isSome_iff_ne_none.mp h), hK⟩
    · exact ⟨.inl hcurrent, hK⟩
  | _ => exact ⟨.inl hcurrent, hK⟩

theorem follows_exec (hcurrent : p s.current) {statement : Stmt} {K : StmtStack FrameId}
    (h : (Control.exec statement K).Ordered p) : Follows p s (exec K s statement) := by
  obtain ⟨hlist, hK⟩ := h
  cases statement with
  | declareVariable name initializer =>
    cases initializer with
    | none => exact ⟨.inl hcurrent, hK⟩
    | some e => exact ⟨.inl hcurrent, hlist rfl, hK⟩
  | block body => exact ⟨.inr ⟨Nat.le_refl _, Store.size_newFrame.symm⟩, hcurrent, hK⟩
  | returnValue keyword value => cases value <;> exact ⟨.inl hcurrent, hK⟩
  | _ => exact ⟨.inl hcurrent, hK⟩

theorem follows_ended (hcurrent : p s.current) {K : StmtStack FrameId} (hK : K.Ordered p) (completion : Completion) :
    Follows p s (ended completion s K) := by
  cases K with
  | program rest =>
    cases rest with
    | nil => exact ⟨.inl hcurrent, trivial⟩
    | cons statement rest => exact ⟨.inl hcurrent, fun _ => rfl, trivial⟩
  | sequence rest K =>
    cases rest with
    | nil => exact ⟨.inl hcurrent, hK⟩
    | cons statement rest =>
      cases completion with
      | normal => exact ⟨.inl hcurrent, fun _ => rfl, hK⟩
      | returned v => exact ⟨.inl hcurrent, hK⟩
  | again condition body K => cases completion <;> exact ⟨.inl hcurrent, hK⟩
  | leave f K => exact ⟨.inl hK.1, hK.2⟩
  | finish f yield K => exact ⟨.inl hK.1, hK.2⟩

/-- After a step the work is ordered as before, and the current frame is one of those that were kept, or the newest. -/
theorem Ordered.step {m : Machine} (h : m.Ordered p) (hplain : m.control.Plain) : Follows p m.state (m.step setting) := by
  obtain ⟨control, s⟩ := m
  obtain ⟨hcurrent, hwork⟩ := h
  cases control with
  | eval e K => exact follows_eval hcurrent hwork e
  | give v K => exact follows_give hcurrent hwork hplain
  | exec statement K => exact follows_exec hcurrent hwork
  | ended completion K => exact follows_ended hcurrent hwork completion
  | failExpr fault K =>
    cases K with
    | declare name K => exact ⟨.inl hcurrent, hwork.2⟩
    | _ => exact ⟨.inl hcurrent, hwork⟩
  | failStmt fault K =>
    cases K with
    | leave f K => exact ⟨.inl hwork.1, hwork.2⟩
    | finish f yield K => exact ⟨.inl hwork.1, hwork.2⟩
    | _ => exact ⟨.inl hcurrent, hwork⟩

end Follows

end Machine

/-! ### Steps and runs -/

namespace Machine

variable {setting : Setting}

theorem stopped_iff {m : Machine} : m.stopped = true ↔ m.outcome ≠ .unfinished := by
  unfold stopped
  cases m.outcome <;> simp

theorem step_of_stopped {m : Machine} (h : m.stopped = true) : m.step setting = m := by
  obtain ⟨control, s⟩ := m
  cases control with
  | eval | exec => cases h
  | give v K =>
    cases K with
    | answer => rfl
    | _ => cases h
  | ended completion K =>
    cases K with
    | program rest =>
      cases rest with
      | nil => rfl
      | cons => cases h
    | _ => cases h
  | failExpr fault K =>
    cases K with
    | answer => rfl
    | _ => cases h
  | failStmt fault K =>
    cases K with
    | program rest => rfl
    | _ => cases h

theorem run_succ (m : Machine) (n : Nat) : m.run setting (n + 1) = (m.run setting n).step setting := by
  induction n generalizing m with
  | zero =>
    show (if m.stopped = true then m else m.step setting) = m.step setting
    split
    · rename_i hstopped
      exact (step_of_stopped hstopped).symm
    · rfl
  | succ n ih =>
    show (if m.stopped = true then m else (m.step setting).run setting (n + 1)) =
      (if m.stopped = true then m else (m.step setting).run setting n).step setting
    by_cases hstopped : m.stopped = true
    · rw [if_pos hstopped, if_pos hstopped, step_of_stopped hstopped]
    · rw [if_neg hstopped, if_neg hstopped, ih]

theorem run_add (m : Machine) (j k : Nat) : m.run setting (j + k) = (m.run setting j).run setting k := by
  induction k with
  | zero => rfl
  | succ k ih => rw [← Nat.add_assoc, run_succ, run_succ, ih]

theorem run_of_finished {m : Machine} {k n : Nat} (h : (m.run setting k).outcome ≠ .unfinished) (hle : k ≤ n) :
    m.run setting n = m.run setting k := by
  have hstopped := stopped_iff.mpr h
  induction hle with
  | refl => rfl
  | step _ ih => rw [run_succ, ih, step_of_stopped hstopped]

end Machine

/-! ### Runs that fail -/

/-- The fault with which a run is failing. -/
def Control.fault? : Control FrameId → Option Fault
  | .failExpr fault _ | .failStmt fault _ => some fault
  | _ => none

namespace Machine

section Failing
variable {setting : Setting} {fault : Fault}

theorem fault?_step {m : Machine} (h : m.control.fault? = some fault) :
    (m.step setting).control.fault? = some fault ∧ (m.step setting).rest = m.rest := by
  obtain ⟨control, s⟩ := m
  cases control with
  | failExpr _ K => cases K <;> exact ⟨h, rfl⟩
  | failStmt _ K => cases K <;> exact ⟨h, rfl⟩
  | _ => cases h

/-- A run that fails goes on to fail, and leaves behind what it had come to. -/
theorem run_of_fault {m : Machine} (h : m.control.fault? = some fault) (n : Nat) :
    (m.run setting n).control.fault? = some fault ∧ (m.run setting n).rest = m.rest := by
  induction n with
  | zero => exact ⟨h, rfl⟩
  | succ n ih =>
    obtain ⟨hfault, hrest⟩ := @fault?_step setting fault _ ih.1
    rw [run_succ]
    exact ⟨hfault, hrest.trans ih.2⟩

theorem store_run_of_fault {m : Machine} (h : m.control.fault? = some fault) (n : Nat) :
    (m.run setting n).state.store = m.state.store := by
  have hrest := congrArg State.store (@run_of_fault setting fault m h n).2
  exact hrest

mutual

theorem exists_failed_expr : ∀ (K : ExprStack FrameId) (s : State),
    ∃ n, (run setting n ⟨.failExpr fault K, s⟩).outcome = .failed fault
  | .answer, _ => ⟨0, rfl⟩
  | .unary _ K, s | .binaryLeft _ _ K, s | .binaryRight _ _ K, s | .logical _ _ K, s | .assign _ _ K, s
  | .callee _ _ K, s | .argument _ _ _ _ K, s | .get _ K, s | .setTarget _ _ K, s | .setValue _ _ K, s => by
    obtain ⟨n, hn⟩ := exists_failed_expr K s
    exact ⟨n + 1, hn⟩
  | .discard K, s | .print K, s | .declare _ K, s | .branch _ _ K, s | .test _ _ K, s | .returnValue K, s => by
    obtain ⟨n, hn⟩ := exists_failed_stmt K s
    exact ⟨n + 1, hn⟩

theorem exists_failed_stmt : ∀ (K : StmtStack FrameId) (s : State),
    ∃ n, (run setting n ⟨.failStmt fault K, s⟩).outcome = .failed fault
  | .program _, _ => ⟨0, rfl⟩
  | .sequence _ K, s | .again _ _ K, s => by
    obtain ⟨n, hn⟩ := exists_failed_stmt K s
    exact ⟨n + 1, hn⟩
  | .leave f K, s => by
    obtain ⟨n, hn⟩ := exists_failed_stmt K { s with current := f }
    exact ⟨n + 1, hn⟩
  | .finish f _ K, s => by
    obtain ⟨n, hn⟩ := exists_failed_expr K { s with current := f, depth := s.depth - 1 }
    exact ⟨n + 1, hn⟩

end

end Failing

end Machine

end LoxLanguage
