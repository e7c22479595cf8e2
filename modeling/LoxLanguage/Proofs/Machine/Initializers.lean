import Mathlib
import LoxLanguage.Proofs.Machine.Work
import LoxLanguage.Proofs.Store.Changes

/-! Initializers that a class has called. Their body runs in a frame inside the one that binds `this`. No step takes a
frame out of its parent or a name out of its frame, and the frame of the body is current again when the body has
ended, so the receiver can be read there at that moment, whatever the program is (`Machine.receives_run`). -/

namespace LoxLanguage

/-- A body that runs in the frame `f` for a class has its receiver in the frame around it. -/
def Yield.Receives (store : Store) (f : FrameId) : Yield FrameId → Prop
  | .created _ => ∃ g, (store.frame f).parent = some g ∧ (store.localValue? g "this").isSome
  | .returned | .receiver _ => True

mutual

/-- The bodies that wait below have their receivers. The frame is the one in which the work goes on. -/
def ExprStack.Receives (store : Store) : ExprStack FrameId → FrameId → Prop
  | .answer, _ => True
  | .unary _ below, f | .binaryLeft _ _ below, f | .binaryRight _ _ below, f | .logical _ _ below, f
  | .assign _ _ below, f | .callee _ _ below, f | .argument _ _ _ _ below, f | .get _ below, f
  | .setTarget _ _ below, f | .setValue _ _ below, f => below.Receives store f
  | .discard below, f | .print below, f | .declare _ below, f | .branch _ _ below, f | .test _ _ below, f
  | .returnValue below, f => below.Receives store f

@[inherit_doc ExprStack.Receives]
def StmtStack.Receives (store : Store) : StmtStack FrameId → FrameId → Prop
  | .program _, _ => True
  | .sequence _ below, f | .again _ _ below, f => below.Receives store f
  | .leave g below, _ => below.Receives store g
  | .finish g yield below, f => yield.Receives store f ∧ below.Receives store g

end

@[inherit_doc ExprStack.Receives]
def Control.Receives (store : Store) : Control FrameId → FrameId → Prop
  | .eval _ below, f | .give _ below, f | .failExpr _ below, f => below.Receives store f
  | .exec _ below, f | .ended _ below, f | .failStmt _ below, f => below.Receives store f

@[inherit_doc ExprStack.Receives]
def Machine.Receives (m : Machine) : Prop :=
  m.control.Receives m.state.store m.state.current

/-! ### Later stores -/

section Kept
variable {store store' : Store}

theorem Yield.Receives.kept (hkept : store.Kept store') {f : FrameId} {yield : Yield FrameId} (h : yield.Receives store f) :
    yield.Receives store' f := by
  cases yield with
  | created i =>
    obtain ⟨g, hparent, hthis⟩ := h
    have hf : f < store.frames.size := by
      by_contra hle
      rw [Store.frame_of_le (Nat.le_of_not_lt hle)] at hparent
      cases hparent
    exact ⟨g, (hkept.frames f hf).2.trans hparent, hkept.names g "this" hthis⟩
  | returned | receiver _ => trivial

mutual

theorem ExprStack.receives_kept (hkept : store.Kept store') :
    ∀ (K : ExprStack FrameId) (f : FrameId), K.Receives store f → K.Receives store' f
  | .answer, _, _ => trivial
  | .unary _ K, f, h | .binaryLeft _ _ K, f, h | .binaryRight _ _ K, f, h | .logical _ _ K, f, h | .assign _ _ K, f, h
  | .callee _ _ K, f, h | .argument _ _ _ _ K, f, h | .get _ K, f, h | .setTarget _ _ K, f, h | .setValue _ _ K, f, h =>
    ExprStack.receives_kept hkept K f h
  | .discard K, f, h | .print K, f, h | .declare _ K, f, h | .branch _ _ K, f, h | .test _ _ K, f, h
  | .returnValue K, f, h => StmtStack.receives_kept hkept K f h

theorem StmtStack.receives_kept (hkept : store.Kept store') :
    ∀ (K : StmtStack FrameId) (f : FrameId), K.Receives store f → K.Receives store' f
  | .program _, _, _ => trivial
  | .sequence _ K, f, h | .again _ _ K, f, h => StmtStack.receives_kept hkept K f h
  | .leave g K, _, h => StmtStack.receives_kept hkept K g h
  | .finish g _ K, _, h => ⟨h.1.kept hkept, ExprStack.receives_kept hkept K g h.2⟩

end

theorem Control.receives_kept (hkept : store.Kept store') (c : Control FrameId) (f : FrameId) (h : c.Receives store f) :
    c.Receives store' f := by
  cases c with
  | eval _ K | give _ K | failExpr _ K => exact K.receives_kept hkept f h
  | exec _ K | ended _ K | failStmt _ K => exact K.receives_kept hkept f h

end Kept

/-! ### Steps

What a step leaves is looked at in a store that has all that the step has made. -/

namespace Machine

section Steps
variable {setting : Setting} {store : Store} {s : State} {K : ExprStack FrameId}

theorem receives_enterBody {closure : Closure} {scope : FrameId} {arguments : List Value} {yield : Yield FrameId} {paren : Token}
    (hkept : (enterBody setting closure scope arguments yield paren K s).state.store.Kept store)
    (hyield : ∀ i, yield = .created i → (s.store.localValue? scope "this").isSome) (hK : K.Receives store s.current) :
    (enterBody setting closure scope arguments yield paren K s).control.Receives store
      (enterBody setting closure scope arguments yield paren K s).state.current := by
  unfold enterBody at hkept ⊢
  split at hkept
  · rw [if_pos ‹_›]
    refine ⟨?_, hK⟩
    cases yield with
    | created i =>
      -- The frame of the body is the newest one, and it lies in the frame of the receiver.
      refine Yield.Receives.kept hkept ⟨scope, ?_, ?_⟩
      · exact congrArg Frame.parent Store.frame_newFrame_self
      · exact (Store.Kept.newFrame _ _).names scope "this" (hyield i rfl)
    | returned | receiver _ => trivial
  · rw [if_neg ‹_›]
    exact hK

theorem receives_callClass {k : ClassId} {arguments : List Value} {paren : Token}
    (hkept : (callClass setting k arguments paren K s).state.store.Kept store) (hK : K.Receives store s.current) :
    (callClass setting k arguments paren K s).control.Receives store
      (callClass setting k arguments paren K s).state.current := by
  unfold callClass at hkept ⊢
  cases hinitializer : (s.store.classAt k).methods.get? Function.initializerName with
  | none =>
    dsimp only
    split <;> exact hK
  | some initializer =>
    simp only [hinitializer] at hkept ⊢
    by_cases hlength : arguments.length = initializer.arity
    · rw [if_pos hlength] at hkept ⊢
      refine receives_enterBody hkept (fun _ _ => ?_) hK
      rw [Store.localValue?, Store.nextFrame]
      exact congrArg (fun frame : Frame => (frame.bindings.get? "this").isSome) Store.frame_newFrame_self
    · rw [if_neg hlength]
      exact hK

theorem receives_call {callee : Value} {arguments : List Value} {paren : Token}
    (hkept : (call setting callee arguments paren K s).state.store.Kept store) (hK : K.Receives store s.current) :
    (call setting callee arguments paren K s).control.Receives store
      (call setting callee arguments paren K s).state.current := by
  cases callee with
  | clock =>
    rw [call]
    split <;> exact hK
  | closure f =>
    unfold call at hkept ⊢
    cases hclosure : s.store.closures[f]? with
    | none =>
      simp only [hclosure]
      exact hK
    | some closure =>
      simp only [hclosure, callClosure] at hkept ⊢
      split at hkept
      · rw [if_pos ‹_›]
        refine receives_enterBody hkept (fun i hi => ?_) hK
        split at hi <;> cases hi
      · rw [if_neg ‹_›]
        exact hK
  | classValue k => exact receives_callClass hkept hK
  | _ => exact hK

theorem receives_eval (hK : K.Receives store s.current) (e : Expr) :
    (eval setting K s e).control.Receives store (eval setting K s e).state.current := by
  cases e with
  | use site name =>
    rw [eval]
    split <;> exact hK
  | this site keyword =>
    rw [eval]
    split <;> exact hK
  | _ => exact hK

theorem receives_property {i : InstanceId} {name : Token} (hK : K.Receives store s.current) :
    (property i name K s).control.Receives store (property i name K s).state.current := by
  unfold property
  split
  · exact hK
  · split <;> exact hK

theorem receives_give {v : Value} (hkept : (give setting v s K).state.store.Kept store) (hK : K.Receives store s.current) :
    (give setting v s K).control.Receives store (give setting v s K).state.current := by
  cases K with
  | unary operator K =>
    rw [give]
    cases Operators.unary operator v <;> exact hK
  | binaryRight left operator K =>
    rw [give]
    cases Operators.binary operator left v <;> exact hK
  | logical operator right K =>
    rw [give]
    split <;> exact hK
  | assign site name K =>
    rw [give]
    split <;> exact hK
  | callee paren arguments K =>
    cases arguments with
    | nil => exact receives_call hkept hK
    | cons e rest => exact hK
  | argument callee given paren rest K =>
    cases rest with
    | nil => exact receives_call hkept hK
    | cons e rest => exact hK
  | get name K =>
    cases v with
    | instanceValue i => exact receives_property hK
    | _ => exact hK
  | setTarget name value K => cases v <;> exact hK
  | branch whenTrue whenFalse K =>
    cases whenFalse <;>
    · rw [give]
      split <;> exact hK
  | test condition body K =>
    rw [give]
    split <;> exact hK
  | _ => exact hK

theorem receives_exec {K : StmtStack FrameId} (hK : K.Receives store s.current) (statement : Stmt) :
    (exec K s statement).control.Receives store (exec K s statement).state.current := by
  cases statement with
  | declareVariable name initializer => cases initializer <;> exact hK
  | returnValue keyword value => cases value <;> exact hK
  | _ => exact hK

theorem receives_ended {K : StmtStack FrameId} (hK : K.Receives store s.current) (completion : Completion) :
    (ended completion s K).control.Receives store (ended completion s K).state.current := by
  cases K with
  | program rest => cases rest <;> trivial
  | sequence rest K => cases rest <;> cases completion <;> exact hK
  | again condition body K => cases completion <;> exact hK
  | leave f K => exact hK
  | finish f yield K => exact hK.2

theorem Receives.step {m : Machine} (h : m.Receives) : (m.step setting).Receives := by
  have hkept := changes_kept (step_changes setting m)
  have hbefore := m.control.receives_kept hkept m.state.current h
  obtain ⟨control, s⟩ := m
  cases control with
  | eval e K => exact receives_eval hbefore e
  | give v K => exact receives_give (.refl _) hbefore
  | exec statement K => exact receives_exec hbefore statement
  | ended completion K => exact receives_ended hbefore completion
  | failExpr fault K => cases K <;> exact hbefore
  | failStmt fault K =>
    cases K with
    | finish f yield K => exact hbefore.2
    | _ => exact hbefore

end Steps

/-- In every run of a program, the initializers that classes have called have their receivers. -/
theorem receives_run {setting : Setting} (statements : List Stmt) (s : State) (n : Nat) :
    ((ofProgram statements s).run setting n).Receives := by
  induction n with
  | zero => exact trivial
  | succ n ih =>
    rw [run_succ]
    exact ih.step

end Machine

end LoxLanguage
