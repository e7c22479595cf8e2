import Mathlib
import LoxLanguage.Proofs.Machine.Work

/-! What every step leaves in place. The work that waits leads back to the frame in which a run began, the depth is the
number of calls that wait for their body, lines are only added to those printed, and a step that comes to a
fault has changed nothing that was there (`Machine.step_passes`). -/

namespace LoxLanguage

/-! ### The bottom of the work -/

mutual

/-- The frame that is current again behind all of the work that waits. -/
def ExprStack.outermost : ExprStack FrameId → FrameId → FrameId
  | .answer, f => f
  | .unary _ below, f | .binaryLeft _ _ below, f | .binaryRight _ _ below, f | .logical _ _ below, f
  | .assign _ _ below, f | .callee _ _ below, f | .argument _ _ _ _ below, f | .get _ below, f
  | .setTarget _ _ below, f | .setValue _ _ below, f => below.outermost f
  | .discard below, f | .print below, f | .declare _ below, f | .branch _ _ below, f | .test _ _ below, f
  | .returnValue below, f => below.outermost f

@[inherit_doc ExprStack.outermost]
def StmtStack.outermost : StmtStack FrameId → FrameId → FrameId
  | .program _, f => f
  | .sequence _ below, f | .again _ _ below, f => below.outermost f
  | .leave g below, _ => below.outermost g
  | .finish g _ below, _ => below.outermost g

end

mutual

/-- How many calls wait for their body to end. -/
def ExprStack.openCalls : ExprStack FrameId → Nat
  | .answer => 0
  | .unary _ below | .binaryLeft _ _ below | .binaryRight _ _ below | .logical _ _ below | .assign _ _ below
  | .callee _ _ below | .argument _ _ _ _ below | .get _ below | .setTarget _ _ below | .setValue _ _ below =>
    below.openCalls
  | .discard below | .print below | .declare _ below | .branch _ _ below | .test _ _ below | .returnValue below =>
    below.openCalls

@[inherit_doc ExprStack.openCalls]
def StmtStack.openCalls : StmtStack FrameId → Nat
  | .program _ => 0
  | .sequence _ below | .again _ _ below | .leave _ below => below.openCalls
  | .finish _ _ below => below.openCalls + 1

end

@[inherit_doc ExprStack.outermost]
def Control.outermost : Control FrameId → FrameId → FrameId
  | .eval _ below, f | .give _ below, f | .failExpr _ below, f => below.outermost f
  | .exec _ below, f | .ended _ below, f | .failStmt _ below, f => below.outermost f

@[inherit_doc ExprStack.openCalls]
def Control.openCalls : Control FrameId → Nat
  | .eval _ below | .give _ below | .failExpr _ below => below.openCalls
  | .exec _ below | .ended _ below | .failStmt _ below => below.openCalls

/-! ### Effects that stay -/

/-- The store `s'` is `s` with frames and instances added behind those that were there. -/
structure Store.Extends (s s' : Store) : Prop where
  frames : s.frames.toList <+: s'.frames.toList
  closures : s'.closures = s.closures
  classes : s'.classes = s.classes
  instances : s.instances.toList <+: s'.instances.toList

namespace Store.Extends

variable {s s' : Store}

@[refl]
theorem refl (s : Store) : Extends s s :=
  ⟨List.prefix_rfl, rfl, rfl, List.prefix_rfl⟩

theorem newInstance (s : Store) (k : ClassId) : Extends s (s.newInstance k) :=
  ⟨List.prefix_rfl, rfl, rfl, by simp [Store.newInstance]⟩

theorem newFrame (h : Extends s s') (parent : Option FrameId) (bindings : Bindings Value) :
    Extends s (s'.newFrame parent bindings) := by
  refine ⟨h.frames.trans ?_, h.closures, h.classes, h.instances⟩
  simp [Store.newFrame]

end Store.Extends

/-- What has been done up to `s` remains in `s'`. -/
structure State.Remains (s s' : State) : Prop where
  store : s.store.Extends s'.store
  printed : s'.printed = s.printed
  ticks : s'.ticks = s.ticks

theorem State.Remains.refl (s : State) : s.Remains s :=
  ⟨.refl _, rfl, rfl⟩

namespace Machine

/-- What a step from `m` to `m'` leaves in place. -/
structure Passes (m m' : Machine) : Prop where
  outermost : m'.control.outermost m'.state.current = m.control.outermost m.state.current
  calls : m.state.depth = m.control.openCalls → m'.state.depth = m'.control.openCalls
  printed : m.state.printed.toList <+: m'.state.printed.toList
  failed : m'.control.fault?.isSome → m.state.Remains m'.state

section Passes
variable {setting : Setting} {control control' : Control FrameId} {s : State} {store : Store} {K : ExprStack FrameId}

theorem Passes.of_control (houtermost : control'.outermost s.current = control.outermost s.current)
    (hcalls : control'.openCalls = control.openCalls) : Passes ⟨control, s⟩ ⟨control', s⟩ :=
  ⟨houtermost, fun h => h.trans hcalls.symm, List.prefix_rfl, fun _ => .refl s⟩

theorem Passes.of_store (houtermost : control'.outermost s.current = control.outermost s.current)
    (hcalls : control'.openCalls = control.openCalls) (hfault : control'.fault? = none) :
    Passes ⟨control, s⟩ ⟨control', { s with store }⟩ := by
  refine ⟨houtermost, fun h => h.trans hcalls.symm, List.prefix_rfl, fun h => ?_⟩
  rw [hfault] at h
  cases h

theorem passes_giveResult {result : Except RuntimeError Value} (houtermost : K.outermost s.current = control.outermost s.current)
    (hcalls : K.openCalls = control.openCalls) : Passes ⟨control, s⟩ (giveResult result K s) := by
  cases result <;> exact .of_control houtermost hcalls

theorem passes_enterBody {closure : Closure} {scope : FrameId} {arguments : List Value} {yield : Yield FrameId} {paren : Token}
    (houtermost : K.outermost s.current = control.outermost s.current) (hcalls : K.openCalls = control.openCalls)
    (hstore : s.store.Extends store) :
    Passes ⟨control, s⟩ (enterBody setting closure scope arguments yield paren K { s with store }) := by
  unfold enterBody
  split
  · refine ⟨houtermost, fun h => ?_, List.prefix_rfl, nofun⟩
    have hdepth : s.depth = control.openCalls := h
    show s.depth + 1 = K.openCalls + 1
    rw [hdepth, hcalls]
  · exact ⟨houtermost, fun h => h.trans hcalls.symm, List.prefix_rfl, fun _ => ⟨hstore, rfl, rfl⟩⟩

theorem passes_callClass {k : ClassId} {arguments : List Value} {paren : Token}
    (houtermost : K.outermost s.current = control.outermost s.current) (hcalls : K.openCalls = control.openCalls) :
    Passes ⟨control, s⟩ (callClass setting k arguments paren K s) := by
  unfold callClass
  split
  · split
    · exact .of_store houtermost hcalls rfl
    · exact .of_control houtermost hcalls
  · split
    · exact passes_enterBody houtermost hcalls ((Store.Extends.newInstance s.store k).newFrame _ _)
    · exact .of_control houtermost hcalls

theorem passes_call {callee : Value} {arguments : List Value} {paren : Token}
    (houtermost : K.outermost s.current = control.outermost s.current) (hcalls : K.openCalls = control.openCalls) :
    Passes ⟨control, s⟩ (call setting callee arguments paren K s) := by
  unfold call
  split
  · split
    · exact ⟨houtermost, fun h => h.trans hcalls.symm, List.prefix_rfl, nofun⟩
    · exact .of_control houtermost hcalls
  · split
    · unfold callClosure
      split
      · exact passes_enterBody houtermost hcalls (.refl _)
      · exact .of_control houtermost hcalls
    · exact .of_control houtermost hcalls
  · exact passes_callClass houtermost hcalls
  · exact .of_control houtermost hcalls

theorem passes_property {i : InstanceId} {name : Token} (houtermost : K.outermost s.current = control.outermost s.current)
    (hcalls : K.openCalls = control.openCalls) : Passes ⟨control, s⟩ (property i name K s) := by
  unfold property
  split
  · exact .of_control houtermost hcalls
  · split
    · exact .of_store houtermost hcalls rfl
    · exact .of_control houtermost hcalls

theorem passes_eval (e : Expr) : Passes ⟨.eval e K, s⟩ (eval setting K s e) := by
  cases e with
  | use site name =>
    rw [eval]
    split <;> exact .of_control rfl rfl
  | this site keyword =>
    rw [eval]
    split <;> exact .of_control rfl rfl
  | _ => exact .of_control rfl rfl

theorem passes_give (v : Value) : Passes ⟨.give v K, s⟩ (give setting v s K) := by
  cases K with
  | unary operator K => exact passes_giveResult rfl rfl
  | binaryRight left operator K => exact passes_giveResult rfl rfl
  | logical operator right K =>
    rw [give]
    split <;> exact .of_control rfl rfl
  | assign site name K =>
    rw [give]
    split
    · exact .of_store rfl rfl rfl
    · exact .of_control rfl rfl
  | callee paren arguments K =>
    cases arguments with
    | nil => exact passes_call rfl rfl
    | cons e rest => exact .of_control rfl rfl
  | argument callee given paren rest K =>
    cases rest with
    | nil => exact passes_call rfl rfl
    | cons e rest => exact .of_control rfl rfl
  | get name K =>
    cases v with
    | instanceValue i => exact passes_property rfl rfl
    | _ => exact .of_control rfl rfl
  | setTarget name value K => cases v <;> exact .of_control rfl rfl
  | setValue i name K => exact .of_store rfl rfl rfl
  | print K => exact ⟨rfl, id, by simp [give, State.print], fun hfault => absurd hfault Bool.false_ne_true⟩
  | declare name K => exact .of_store rfl rfl rfl
  | branch whenTrue whenFalse K =>
    cases whenFalse <;>
    · rw [give]
      split <;> exact .of_control rfl rfl
  | test condition body K =>
    rw [give]
    split <;> exact .of_control rfl rfl
  | _ => exact .of_control rfl rfl

theorem passes_exec (statement : Stmt) (K : StmtStack FrameId) : Passes ⟨.exec statement K, s⟩ (exec K s statement) := by
  cases statement with
  | declareVariable name initializer =>
    cases initializer with
    | none => exact .of_store rfl rfl rfl
    | some e => exact .of_control rfl rfl
  | block body => exact ⟨rfl, id, List.prefix_rfl, nofun⟩
  | declareFunction f => exact .of_store rfl rfl rfl
  | returnValue keyword value => cases value <;> exact .of_control rfl rfl
  | declareClass name methods => exact .of_store rfl rfl rfl
  | _ => exact .of_control rfl rfl

theorem passes_ended (completion : Completion) (K : StmtStack FrameId) :
    Passes ⟨.ended completion K, s⟩ (ended completion s K) := by
  cases K with
  | program rest => cases rest <;> exact .of_control rfl rfl
  | sequence rest K => cases rest <;> cases completion <;> exact .of_control rfl rfl
  | again condition body K => cases completion <;> exact .of_control rfl rfl
  | leave f K => exact ⟨rfl, id, List.prefix_rfl, nofun⟩
  | finish f yield K => exact ⟨rfl, fun h => congrArg (· - 1) h, List.prefix_rfl, nofun⟩

/-- Every step passes on the frame below all work, the number of open calls, the lines printed and, if it comes to a fault,
    all that was done before. -/
theorem step_passes (m : Machine) : m.Passes (m.step setting) := by
  obtain ⟨control, s⟩ := m
  cases control with
  | eval e K => exact passes_eval e
  | give v K => exact passes_give v
  | exec statement K => exact passes_exec statement K
  | ended completion K => exact passes_ended completion K
  | failExpr fault K => cases K <;> exact .of_control rfl rfl
  | failStmt fault K =>
    cases K with
    | leave f K => exact ⟨rfl, id, List.prefix_rfl, fun _ => ⟨.refl _, rfl, rfl⟩⟩
    | finish f yield K => exact ⟨rfl, fun h => congrArg (· - 1) h, List.prefix_rfl, fun _ => ⟨.refl _, rfl, rfl⟩⟩
    | _ => exact .of_control rfl rfl

end Passes

/-! ### Whole runs -/

section Runs
variable {setting : Setting} {m : Machine}

theorem outermost_run (m : Machine) (n : Nat) :
    (m.run setting n).control.outermost (m.run setting n).state.current = m.control.outermost m.state.current := by
  induction n with
  | zero => rfl
  | succ n ih =>
    rw [run_succ, ← ih]
    exact (step_passes _).outermost

theorem depth_run (h : m.state.depth = m.control.openCalls) (n : Nat) :
    (m.run setting n).state.depth = (m.run setting n).control.openCalls := by
  induction n with
  | zero => exact h
  | succ n ih =>
    rw [run_succ]
    exact (step_passes _).calls ih

/-- What has been printed stays printed. -/
theorem printed_run_mono (m : Machine) {k n : Nat} (h : k ≤ n) :
    (m.run setting k).state.printed.toList <+: (m.run setting n).state.printed.toList := by
  induction h with
  | refl => exact List.prefix_rfl
  | step _ ih =>
    rw [run_succ]
    exact ih.trans (step_passes _).printed

theorem fault?_of_failed {fault : Fault} (h : m.outcome = .failed fault) : m.control.fault? = some fault := by
  unfold outcome at h
  split at h <;> cases h <;> simp [*, Control.fault?]

/-- A machine that has stopped has left all blocks and calls. -/
theorem outermost_of_stopped (h : m.outcome ≠ .unfinished) (f : FrameId) : m.control.outermost f = f := by
  unfold outcome at h
  split at h <;> simp_all [Control.outermost, ExprStack.outermost, StmtStack.outermost]

/-- A machine that has stopped with a fault has failed. -/
theorem failed_of_fault? {fault : Fault} (h : m.control.fault? = some fault) (hstopped : m.outcome ≠ .unfinished) :
    m.outcome = .failed fault := by
  obtain ⟨control, s⟩ := m
  cases control with
  | failExpr _ K =>
    cases h
    cases K with
    | answer => rfl
    | _ => exact absurd rfl hstopped
  | failStmt _ K =>
    cases h
    cases K with
    | program rest => rfl
    | _ => exact absurd rfl hstopped
  | _ => cases h

/-- The step at which a run has come to its fault. -/
theorem exists_raise {fault : Fault} {n : Nat} (hstart : m.control.fault? = none)
    (h : (m.run setting n).control.fault? = some fault) :
    ∃ k < n, (m.run setting k).control.fault? = none ∧ (m.run setting (k + 1)).control.fault? = some fault := by
  induction n with
  | zero =>
    rw [run, hstart] at h
    cases h
  | succ n ih =>
    cases hbefore : (m.run setting n).control.fault? with
    | none => exact ⟨n, Nat.lt_succ_self n, hbefore, h⟩
    | some earlier =>
      have hfault := (@fault?_step setting earlier _ hbefore).1
      rw [← run_succ] at hfault
      obtain rfl := Option.some.inj (hfault.symm.trans h)
      obtain ⟨k, hlt, hraise⟩ := ih hbefore
      exact ⟨k, Nat.lt_succ_of_lt hlt, hraise⟩

/-- A run that has come to a fault stays with it, and all that was done before remains. -/
theorem run_of_raise {fault : Fault} {k n : Nat} (hlt : k < n) (h : (m.run setting (k + 1)).control.fault? = some fault) :
    (m.run setting n).control.fault? = some fault ∧ (m.run setting k).state.Remains (m.run setting n).rest := by
  induction hlt with
  | refl =>
    have hpasses := @step_passes setting (m.run setting k)
    have hremains := hpasses.failed (by rw [← run_succ, h]; rfl)
    rw [← run_succ] at hremains
    exact ⟨h, hremains.store, hremains.printed, hremains.ticks⟩
  | step _ ih =>
    obtain ⟨hfault, hrest⟩ := @fault?_step setting fault _ ih.1
    rw [run_succ, hrest]
    exact ⟨hfault, ih.2⟩

end Runs

end Machine

end LoxLanguage
