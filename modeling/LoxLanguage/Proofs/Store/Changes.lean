import Mathlib
import LoxLanguage.Machine.Step
import LoxLanguage.Proofs.Lexical.Frames

/-! What a step does to the store. Each step is a row of elementary changes: it opens a frame, binds a name in one, adds a
function value, a class or an instance, or sets a field (`Machine.step_changes`). A frame is opened inside one that
the state knows or that the step itself has opened; a name is bound by a declaration in the current frame, or by an
assignment in the frame that it is meant for. Whatever the changes are, nothing that was there before is lost (`Store.Kept`). -/

namespace LoxLanguage

open Relation (ReflTransGen)

/-! ### What is never lost -/

namespace Store

/-- What a store has of an earlier one: the frames with their parents and names, the function values and the classes as
    they were, and the instances with their classes. -/
structure Kept (s s' : Store) : Prop where
  frames : ∀ f, f < s.frames.size → f < s'.frames.size ∧ (s'.frame f).parent = (s.frame f).parent
  names : ∀ f x, (s.localValue? f x).isSome → (s'.localValue? f x).isSome
  closures : ∀ (f : ClosureId) c, s.closures[f]? = some c → s'.closures[f]? = some c
  classes : ∀ (k : ClassId) c, s.classes[k]? = some c → s'.classes[k]? = some c
  instances : ∀ (i : InstanceId) o, s.instances[i]? = some o → ∃ o', s'.instances[i]? = some o' ∧ o'.classId = o.classId

variable {s s' s'' : Store}

theorem getElem?_push_of_some {α : Type} {xs : Array α} {i : Nat} {a : α} (h : xs[i]? = some a) (b : α) :
    (xs.push b)[i]? = some a := by
  rw [Array.getElem?_push, if_neg, h]
  rintro rfl
  rw [Array.getElem?_size] at h
  cases h

namespace Kept

@[refl]
theorem refl (s : Store) : Kept s s :=
  ⟨fun _ h => ⟨h, rfl⟩, fun _ _ => id, fun _ _ => id, fun _ _ => id, fun _ o h => ⟨o, h, rfl⟩⟩

theorem trans (h : Kept s s') (h' : Kept s' s'') : Kept s s'' where
  frames f hf := by
    obtain ⟨hlt, hparent⟩ := h.frames f hf
    obtain ⟨hlt', hparent'⟩ := h'.frames f hlt
    exact ⟨hlt', hparent'.trans hparent⟩
  names f x hx := h'.names f x (h.names f x hx)
  closures f c hc := h'.closures f c (h.closures f c hc)
  classes k c hc := h'.classes k c (h.classes k c hc)
  instances i o ho := by
    obtain ⟨o', ho', hclass⟩ := h.instances i o ho
    obtain ⟨o'', ho'', hclass'⟩ := h'.instances i o' ho'
    exact ⟨o'', ho'', hclass'.trans hclass⟩

theorem newFrame (parent : Option FrameId) (bindings : Bindings Value) : Kept s (s.newFrame parent bindings) := by
  refine ⟨fun f hf => ?_, fun f x hx => ?_, fun _ _ => id, fun _ _ => id, fun _ o h => ⟨o, h, rfl⟩⟩
  · rw [size_newFrame, frame_newFrame_of_ne (Nat.ne_of_lt hf)]
    exact ⟨Nat.lt_succ_of_lt hf, rfl⟩
  · rwa [localValue?_newFrame_of_ne]
    rintro rfl
    rw [localValue?_of_le (Nat.le_refl _)] at hx
    cases hx

theorem define (f : FrameId) (x : String) (v : Value) : Kept s (s.define f x v) := by
  refine ⟨fun g hg => ?_, fun g y hy => ?_, fun _ _ => id, fun _ _ => id, fun _ o h => ⟨o, h, rfl⟩⟩
  · rw [size_define, parent_define]
    exact ⟨hg, rfl⟩
  · by_cases heq : g = f ∧ y = x
    · obtain ⟨rfl, rfl⟩ := heq
      have hlt : g < s.frames.size := by
        by_contra hle
        rw [localValue?_of_le (Nat.le_of_not_lt hle)] at hy
        cases hy
      rw [localValue?_define_self hlt]
      rfl
    · rw [localValue?_define_of_ne (by tauto)]
      exact hy

theorem newClosure (c : Closure) : Kept s (s.newClosure c) :=
  ⟨fun _ h => ⟨h, rfl⟩, fun _ _ => id, fun _ _ h => getElem?_push_of_some h c, fun _ _ => id, fun _ o h => ⟨o, h, rfl⟩⟩

theorem newClass (c : Class) : Kept s (s.newClass c) :=
  ⟨fun _ h => ⟨h, rfl⟩, fun _ _ => id, fun _ _ => id, fun _ _ h => getElem?_push_of_some h c, fun _ o h => ⟨o, h, rfl⟩⟩

theorem newInstance (k : ClassId) : Kept s (s.newInstance k) :=
  ⟨fun _ h => ⟨h, rfl⟩, fun _ _ => id, fun _ _ => id, fun _ _ => id, fun _ o h => ⟨o, getElem?_push_of_some h _, rfl⟩⟩

theorem setField (i : InstanceId) (x : String) (v : Value) : Kept s (s.setField i x v) := by
  refine ⟨fun _ h => ⟨h, rfl⟩, fun _ _ => id, fun _ _ => id, fun _ _ => id, fun j o h => ?_⟩
  rw [Store.setField, Array.getElem?_modify, h]
  split
  · exact ⟨_, rfl, rfl⟩
  · exact ⟨o, rfl, rfl⟩

theorem size_le (h : Kept s s') : s.frames.size ≤ s'.frames.size := by
  by_contra hlt
  exact Nat.lt_irrefl _ (h.frames s'.frames.size (Nat.lt_of_not_le hlt)).1

end Kept

/-! ### Chains of parents -/

/-- From each frame one comes to the globals, and no further. -/
def Rooted (s : Store) : Prop :=
  ∀ f, f < s.frames.size → ∃ d, s.frameAt? d f = some globals ∧ s.ancestor? (d + 1) f = some none

/-- Every frame but that of the globals lies in one that was made before it. -/
structure Nested (s : Store) : Prop where
  root : globals < s.frames.size
  orphan : (s.frame globals).parent = none
  parent : ∀ f, f < s.frames.size → f ≠ globals → ∃ p, (s.frame f).parent = some p ∧ p < f

namespace Nested

theorem initial : Nested Store.initial := by
  refine ⟨Nat.zero_lt_one, rfl, fun f hf hne => ?_⟩
  exact absurd (Nat.lt_one_iff.mp hf) hne

theorem rooted (h : s.Nested) : s.Rooted := by
  intro f
  induction f using Nat.strong_induction_on with
  | _ f ih =>
    intro hf
    by_cases hroot : f = globals
    · rw [hroot]
      exact ⟨0, rfl, congrArg some h.orphan⟩
    · obtain ⟨p, hparent, hlt⟩ := h.parent f hf hroot
      obtain ⟨d, hframe, hend⟩ := ih p hlt (Nat.lt_trans hlt hf)
      have hup : ∀ d, s.ancestor? (d + 1) f = s.ancestor? d p := fun d => by
        rw [ancestor?, ascend, hparent]
        rfl
      refine ⟨d + 1, ?_, (hup (d + 1)).trans hend⟩
      rw [frameAt?, hup]
      exact hframe

theorem of_parents (h : s.Nested) (hsize : s'.frames.size = s.frames.size)
    (hparent : ∀ f, (s'.frame f).parent = (s.frame f).parent) : s'.Nested := by
  refine ⟨by rw [hsize]; exact h.root, (hparent _).trans h.orphan, fun f hf hne => ?_⟩
  rw [hparent]
  exact h.parent f (hsize ▸ hf) hne

theorem newFrame (h : s.Nested) {parent : FrameId} (hparent : parent < s.frames.size) (bindings : Bindings Value) :
    (s.newFrame (some parent) bindings).Nested := by
  refine ⟨?_, ?_, fun f hf hne => ?_⟩
  · rw [size_newFrame]
    exact Nat.lt_succ_of_lt h.root
  · rw [frame_newFrame_of_ne (Nat.ne_of_lt h.root)]
    exact h.orphan
  · rw [size_newFrame] at hf
    rcases Nat.lt_succ_iff_lt_or_eq.mp hf with hlt | rfl
    · rw [frame_newFrame_of_ne (Nat.ne_of_lt hlt)]
      exact h.parent f hlt hne
    · rw [frame_newFrame_self]
      exact ⟨parent, rfl, hparent⟩

end Nested

end Store

/-! ### Elementary changes -/

/-- The name that the step is going to bind for a declaration, and the work that waits behind it. -/
def Control.declaration? : Control FrameId → Option (String × StmtStack FrameId)
  | .exec (.declareVariable name none) below => some (name.lexeme, below)
  | .exec (.declareFunction f) below => some (f.name.lexeme, below)
  | .exec (.declareClass name _) below => some (name.lexeme, below)
  | .give _ (.declare name below) => some (name.lexeme, below)
  | _ => none

/-- The frames inside which a step can open another one. -/
inductive State.Knows (s : State) : FrameId → Prop where
  | current : Knows s s.current
  | closure {f : ClosureId} {c : Closure} (h : s.store.closures[f]? = some c) : Knows s c.scope
  | method {k : ClassId} {x : String} {c : Closure} (h : (s.store.classAt k).methods.get? x = some c) : Knows s c.scope

namespace Machine

/-- The step can bind the name in the frame. -/
inductive Binds (setting : Setting) (m : Machine) : FrameId → String → Prop where
  | declaration {x : String} {K : StmtStack FrameId} (h : m.control.declaration? = some (x, K)) :
      Binds setting m m.state.current x
  | assignment {v : Value} {site : Site} {name : Token} {K : ExprStack FrameId} {f : FrameId}
      (hcontrol : m.control = .give v (.assign site name K)) (h : m.state.target setting site name = .ok f) :
      Binds setting m f name.lexeme

/-- One change that a step can make, at one of the stores on its way. -/
inductive Changes (setting : Setting) (m : Machine) : Store → Store → Prop where
  | frame {s : Store} {parent : FrameId} (bindings : Bindings Value)
      (h : m.state.Knows parent ∨ m.state.store.frames.size ≤ parent ∧ parent < s.frames.size) :
      Changes setting m s (s.newFrame (some parent) bindings)
  | name {s : Store} {f : FrameId} {x : String} (v : Value) (h : m.Binds setting f x) :
      Changes setting m s (s.define f x v)
  | closure {s : Store} (c : Closure) : Changes setting m s (s.newClosure c)
  | class {s : Store} (c : Class) : Changes setting m s (s.newClass c)
  | instance {s : Store} (k : ClassId) : Changes setting m s (s.newInstance k)
  | field {s : Store} (i : InstanceId) (x : String) (v : Value) : Changes setting m s (s.setField i x v)

section Changes
variable {setting : Setting} {m : Machine} {s : State} {K : ExprStack FrameId}

theorem enterBody_changes {closure : Closure} {scope : FrameId} {arguments : List Value} {yield : Yield FrameId} {paren : Token}
    (h : m.state.Knows scope ∨ m.state.store.frames.size ≤ scope ∧ scope < s.store.frames.size) :
    ReflTransGen (m.Changes setting) s.store (enterBody setting closure scope arguments yield paren K s).state.store := by
  unfold enterBody
  split
  · exact .single (.frame _ h)
  · exact .refl

theorem callClass_changes {k : ClassId} {arguments : List Value} {paren : Token} (hs : m.state = s) :
    ReflTransGen (m.Changes setting) s.store (callClass setting k arguments paren K s).state.store := by
  unfold callClass
  split
  · split
    · exact .single (.instance k)
    · exact .refl
  · rename_i initializer hinitializer
    split
    · have hknows : m.state.Knows initializer.scope := by
        rw [hs]
        exact .method hinitializer
      refine .head (.instance k) (.head (.frame [("this", .instanceValue s.store.instances.size)] (.inl hknows)) ?_)
      refine enterBody_changes (s := { s with store := _ }) (.inr ⟨?_, ?_⟩)
      · rw [hs]
        exact Nat.le_refl _
      · exact Nat.lt_of_lt_of_eq (Nat.lt_succ_self _) Store.size_newFrame.symm
    · exact .refl

theorem call_changes {callee : Value} {arguments : List Value} {paren : Token} (hs : m.state = s) :
    ReflTransGen (m.Changes setting) s.store (call setting callee arguments paren K s).state.store := by
  unfold call
  split
  · split <;> exact .refl
  · split
    · rename_i f closure hclosure
      unfold callClosure
      split
      · refine enterBody_changes (.inl ?_)
        rw [hs]
        exact .closure hclosure
      · exact .refl
    · exact .refl
  · exact callClass_changes hs
  · exact .refl

theorem property_changes {i : InstanceId} {name : Token} (hs : m.state = s) :
    ReflTransGen (m.Changes setting) s.store (property i name K s).state.store := by
  unfold property
  split
  · exact .refl
  · split
    · rename_i method hmethod
      refine .head (.frame [("this", .instanceValue i)] (.inl ?_)) (.single (.closure _))
      rw [hs]
      exact .method hmethod
    · exact .refl

theorem store_eval (e : Expr) : (eval setting K s e).state.store = s.store := by
  cases e with
  | use site name =>
    rw [eval]
    split <;> rfl
  | this site keyword =>
    rw [eval]
    split <;> rfl
  | _ => rfl

theorem give_changes (v : Value) (K : ExprStack FrameId) (s : State) :
    ReflTransGen (Changes setting ⟨.give v K, s⟩) s.store (give setting v s K).state.store := by
  cases K with
  | unary operator K =>
    rw [give]
    cases Operators.unary operator v <;> exact .refl
  | binaryRight left operator K =>
    rw [give]
    cases Operators.binary operator left v <;> exact .refl
  | logical operator right K =>
    rw [give]
    split <;> exact .refl
  | assign site name K =>
    rw [give]
    split
    · rename_i f hf
      exact .single (.name v (.assignment rfl hf))
    · exact .refl
  | callee paren arguments K =>
    cases arguments with
    | nil => exact call_changes rfl
    | cons e rest => exact .refl
  | argument callee given paren rest K =>
    cases rest with
    | nil => exact call_changes rfl
    | cons e rest => exact .refl
  | get name K =>
    cases v with
    | instanceValue i => exact property_changes rfl
    | _ => exact .refl
  | setTarget name value K => cases v <;> exact .refl
  | setValue i name K => exact .single (.field i name.lexeme v)
  | declare name K => exact .single (.name v (.declaration rfl))
  | branch whenTrue whenFalse K =>
    cases whenFalse <;>
    · rw [give]
      split <;> exact .refl
  | test condition body K =>
    rw [give]
    split <;> exact .refl
  | _ => exact .refl

theorem exec_changes (statement : Stmt) (K : StmtStack FrameId) (s : State) :
    ReflTransGen (Changes setting ⟨.exec statement K, s⟩) s.store (exec K s statement).state.store := by
  cases statement with
  | declareVariable name initializer =>
    cases initializer with
    | none => exact .single (.name .nil (.declaration rfl))
    | some e => exact .refl
  | block body => exact .single (.frame [] (.inl .current))
  | declareFunction f => exact .head (.closure _) (.single (.name _ (.declaration rfl)))
  | returnValue keyword value => cases value <;> exact .refl
  | declareClass name methods => exact .head (.class _) (.single (.name _ (.declaration rfl)))
  | _ => exact .refl

theorem store_ended (completion : Completion) (K : StmtStack FrameId) (s : State) :
    (ended completion s K).state.store = s.store := by
  cases K with
  | program rest => cases rest <;> rfl
  | sequence rest K => cases rest <;> cases completion <;> rfl
  | again condition body K => cases completion <;> rfl
  | _ => rfl

/-- What a step does to the store is made of elementary changes. -/
theorem step_changes (setting : Setting) (m : Machine) :
    ReflTransGen (m.Changes setting) m.state.store (m.step setting).state.store := by
  obtain ⟨control, s⟩ := m
  cases control with
  | eval e K =>
    show ReflTransGen _ s.store (eval setting K s e).state.store
    rw [store_eval]
  | give v K => exact give_changes v K s
  | exec statement K => exact exec_changes statement K s
  | ended completion K =>
    show ReflTransGen _ s.store (ended completion s K).state.store
    rw [store_ended]
  | failExpr fault K => cases K <;> exact .refl
  | failStmt fault K => cases K <;> exact .refl

theorem Changes.kept {store store' : Store} (h : m.Changes setting store store') : store.Kept store' := by
  cases h with
  | frame bindings _ => exact .newFrame _ bindings
  | name v _ => exact .define _ _ v
  | closure c => exact .newClosure c
  | «class» c => exact .newClass c
  | «instance» k => exact .newInstance k
  | field i x v => exact .setField i x v

theorem changes_kept {store store' : Store} (h : ReflTransGen (m.Changes setting) store store') : store.Kept store' := by
  induction h with
  | refl => exact .refl _
  | tail _ hchange ih => exact ih.trans hchange.kept

/-- A change opens frames where the others are, or leaves all parents. -/
theorem changes_nested {store : Store} (hnested : m.state.store.Nested)
    (hknows : ∀ f, m.state.Knows f → f < m.state.store.frames.size)
    (h : ReflTransGen (m.Changes setting) m.state.store store) : store.Nested := by
  induction h with
  | refl => exact hnested
  | @tail store _ hbefore hchange ih =>
    cases hchange with
    | frame bindings hparent =>
      refine ih.newFrame ?_ bindings
      rcases hparent with hparent | ⟨-, hlt⟩
      · exact Nat.lt_of_lt_of_le (hknows _ hparent) (changes_kept hbefore).size_le
      · exact hlt
    | name v _ => exact ih.of_parents Store.size_define fun _ => Store.parent_define
    | _ => exact ih.of_parents rfl fun _ => rfl

/-- A change leaves a frame as it is, or binds a name that the step can bind there. -/
theorem Changes.frame_eq {store store' : Store} (h : m.Changes setting store store') {g : FrameId}
    (hg : g < store.frames.size) :
    store'.frame g = store.frame g ∨ ∃ x v, m.Binds setting g x ∧
      store'.frame g = { store.frame g with bindings := (store.frame g).bindings.put x v } := by
  cases h with
  | frame bindings _ => exact .inl (Store.frame_newFrame_of_ne (Nat.ne_of_lt hg))
  | @name f x v hbinds =>
    by_cases heq : g = f
    · subst heq
      exact .inr ⟨x, v, hbinds, Store.frame_define_self hg⟩
    · exact .inl (Store.frame_define_of_ne heq)
  | _ => exact .inl rfl

theorem changes_frame_eq {store : Store} (h : ReflTransGen (m.Changes setting) m.state.store store) {g : FrameId}
    (hg : g < m.state.store.frames.size) (hnone : ∀ x, ¬ m.Binds setting g x) : store.frame g = m.state.store.frame g := by
  induction h with
  | refl => rfl
  | tail hbefore hchange ih =>
    rcases hchange.frame_eq (Nat.lt_of_lt_of_le hg (changes_kept hbefore).size_le) with heq | ⟨x, -, hbinds, -⟩
    · exact heq.trans ih
    · exact absurd hbinds (hnone x)

/-- A name that is new in a frame is one that the step can bind there. -/
theorem binds_of_changes {store : Store} (h : ReflTransGen (m.Changes setting) m.state.store store) {g : FrameId} {x : String}
    (hg : g < m.state.store.frames.size) (hbefore : m.state.store.localValue? g x = none)
    (hafter : (store.localValue? g x).isSome) : m.Binds setting g x := by
  induction h with
  | refl =>
    rw [hbefore] at hafter
    cases hafter
  | tail hchanges hchange ih =>
    rw [Store.localValue?] at hafter
    rcases hchange.frame_eq (Nat.lt_of_lt_of_le hg (changes_kept hchanges).size_le) with heq | ⟨y, v, hbinds, heq⟩
    · rw [heq] at hafter
      exact ih hafter
    · by_cases hxy : x = y
      · rwa [hxy]
      · rw [heq, Bindings.get?_put_of_ne _ _ hxy] at hafter
        exact ih hafter

end Changes

end Machine

end LoxLanguage
