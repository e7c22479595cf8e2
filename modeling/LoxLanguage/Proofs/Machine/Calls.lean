import Mathlib
import LoxLanguage.Proofs.Machine.Alone
import LoxLanguage.Proofs.Store.Changes

/-! Calls. What a call answers first is handed on by the step that ends its body, so it is what the call was to yield
(`Machine.yield_of_answer`): a class yields the instance that it has made, and an initializer what its receiver is
bound to at that moment, whatever the body has returned.

Each body that runs belongs to an instance, or to none (`Provenance`): a method to that of which it was fetched, or
which was made for it, and a function to what the body belongs to that declares it. -/

namespace LoxLanguage

/-! ### What is called -/

/-- A value that is called, with its arguments and the work that waits for the answer. -/
structure Call (σ : Type) where
  callee : Value
  arguments : List Value
  below : ExprStack σ

/-- The call that is about to begin. -/
def Control.call? {σ : Type} : Control σ → Option (Call σ)
  | .give callee (.callee _ [] below) => some ⟨callee, [], below⟩
  | .give v (.argument callee given _ [] below) => some ⟨callee, (given.push v).toList, below⟩
  | _ => none

/-- The instance of which a property is about to be fetched. -/
def Control.object? {σ : Type} : Control σ → Option InstanceId
  | .give object (.get _ _) =>
    match object with
    | .instanceValue i => some i
    | _ => none
  | _ => none

/-- A call begins when its last argument is there, or the value to be called if there are no arguments. -/
theorem Control.eq_of_call? {σ : Type} {c : Control σ} {call : Call σ} (h : c.call? = some call) :
    (∃ paren, c = .give call.callee (.callee paren [] call.below) ∧ call.arguments = []) ∨
      ∃ v given paren, c = .give v (.argument call.callee given paren [] call.below) ∧
        call.arguments = (given.push v).toList := by
  unfold Control.call? at h
  split at h
  · cases h
    exact .inl ⟨_, rfl, rfl⟩
  · cases h
    exact .inr ⟨_, _, _, rfl, rfl⟩
  · cases h

namespace Machine

variable {setting : Setting} {m : Machine} {call : Call FrameId}

theorem step_of_call? (h : m.control.call? = some call) :
    ∃ paren, m.step setting = Machine.call setting call.callee call.arguments paren call.below m.state := by
  obtain ⟨control, s⟩ := m
  rcases Control.eq_of_call? h with ⟨paren, rfl, harguments⟩ | ⟨v, given, paren, rfl, harguments⟩
  · exact ⟨paren, harguments ▸ rfl⟩
  · exact ⟨paren, harguments ▸ rfl⟩

/-- Before a call begins, it has not answered. -/
theorem not_answers_of_call? (h : m.control.call? = some call) : ¬ m.control.Answers call.below := by
  intro hsame
  rcases Control.eq_of_call? h with ⟨paren, hcontrol, -⟩ | ⟨v, given, paren, hcontrol, -⟩
  all_goals
    rw [hcontrol] at hsame
    have hheight := congrArg ExprStack.height hsame
    simp [ExprStack.height] at hheight

theorem run_step (m : Machine) (n : Nat) : m.run setting (n + 1) = (m.step setting).run setting n := by
  rw [Nat.add_comm, run_add, run_succ]
  rfl

/-- What does not hold now holds first as it does from the next step on. -/
theorem FirstAt.of_step {holds : Control FrameId → Prop} {n : Nat} (h : FirstAt setting m holds n)
    (hnot : ¬ holds m.control) : ∃ k, n = k + 1 ∧ FirstAt setting (m.step setting) holds k := by
  cases n with
  | zero => exact absurd h.now hnot
  | succ k =>
    refine ⟨k, rfl, run_step m k ▸ h.now, fun j hj => ?_⟩
    rw [← run_step]
    exact h.before (j + 1) (Nat.succ_lt_succ hj)

theorem kept_run (m : Machine) (n : Nat) : m.state.store.Kept (m.run setting n).state.store := by
  induction n with
  | zero => exact .refl _
  | succ n ih =>
    rw [run_succ]
    exact ih.trans (changes_kept (step_changes _ _))

/-! ### Where a call answers -/

section Bodies
variable {K : ExprStack FrameId} {caller : FrameId} {yield : Yield FrameId} {body : List Stmt} {s : State} {n : Nat}

/-- Work above the end of a call does not answer the call. -/
theorem not_answers_onto {c : Control FrameId} {J : ExprStack FrameId} {rest : List Stmt} (hbottom : c.bottom = some rest) :
    ¬ (c.onto J (.finish caller yield K)).Answers K := by
  have habove : ∀ I : ExprStack FrameId, I.bottom = some rest → I.onto J (.finish caller yield K) ≠ K := by
    intro I hI hsame
    have hheight := congrArg ExprStack.height hsame
    rw [ExprStack.height_onto, hI] at hheight
    simp only [Option.elim, StmtStack.height] at hheight
    omega
  cases c with
  | give v I => exact habove I hbottom
  | failExpr fault I => exact habove I hbottom
  | _ => exact id

theorem ending_body (J : ExprStack FrameId) (L : StmtStack FrameId) :
    Ending J L ⟨.ended .normal (.sequence body (.program [])), s⟩ (Control.Ends L) where
  bottom := nofun
  onto _ hsame := (Control.ends_onto hsame).trans (ends_iff_stopped hsame)

/-- A body that has answered has come to its end one step before. -/
theorem ends_of_answer
    (h : FirstAt setting ⟨.ended .normal (.sequence body (.finish caller yield K)), s⟩ (Control.Answers K) n) :
    ∃ k, n = k + 1 ∧
      (run setting k ⟨.ended .normal (.sequence body (.finish caller yield K)), s⟩).control.Ends (.finish caller yield K) := by
  -- The body on its own stops before the answer, since as long as it runs the end of the call is still to come.
  have hstops : ∃ k, k < n ∧ (run setting k ⟨.ended .normal (.sequence body (.program [])), s⟩).stopped = true := by
    by_contra hnone
    obtain ⟨hrun, hbottom⟩ := @run_above setting .answer (.finish caller yield K)
      ⟨.ended .normal (.sequence body (.program [])), s⟩ n nofun
      fun k hk => Bool.eq_false_iff.mpr fun hstopped => hnone ⟨k, hk, hstopped⟩
    have hnow := h.now
    rw [show (⟨.ended .normal (.sequence body (.finish caller yield K)), s⟩ : Machine) =
      onto ⟨.ended .normal (.sequence body (.program [])), s⟩ .answer (.finish caller yield K) from rfl, hrun] at hnow
    exact not_answers_onto hbottom hnow
  obtain ⟨hlt, hstopped⟩ := Nat.find_spec hstops
  have hfirst := (ending_body .answer (.finish caller yield K)).firstAt_iff.mpr ⟨hstopped, fun k hk =>
    Bool.eq_false_iff.mpr fun hearlier => Nat.find_min hstops hk ⟨hk.trans hlt, hearlier⟩⟩
  have hends : (run setting (Nat.find hstops) ⟨.ended .normal (.sequence body (.finish caller yield K)), s⟩).control.Ends
      (.finish caller yield K) := hfirst.now
  refine ⟨Nat.find hstops, Nat.le_antisymm (Nat.le_of_not_lt fun hlate => h.before _ hlate ?_) hlt, hends⟩
  -- The step that ends the call answers it.
  rw [run_succ]
  generalize run setting (Nat.find hstops) _ = m at hends
  obtain ⟨control, t⟩ := m
  cases control with
  | ended completion L =>
    cases hends
    exact rfl
  | failStmt fault L =>
    cases hends
    exact rfl
  | _ => exact hends.elim

/-- What a call answers is what it yields at the end of its body. -/
theorem yield_of_answer {w : Value}
    (h : FirstAt setting ⟨.ended .normal (.sequence body (.finish caller yield K)), s⟩ (Control.Answers K) n)
    (hgive : (run setting n ⟨.ended .normal (.sequence body (.finish caller yield K)), s⟩).control = .give w K) :
    ∃ k completion, k < n ∧
      w = yieldValue (run setting k ⟨.ended .normal (.sequence body (.finish caller yield K)), s⟩).state completion yield := by
  obtain ⟨k, rfl, hends⟩ := ends_of_answer h
  rw [run_succ] at hgive
  generalize hrun : run setting k _ = m at hends hgive
  obtain ⟨control, t⟩ := m
  cases control with
  | ended completion L =>
    cases hends
    cases hgive
    exact ⟨k, completion, Nat.lt_succ_self k, by rw [hrun]⟩
  | failStmt fault L =>
    cases hends
    cases hgive
  | _ => exact hends.elim

theorem FirstAt.eq_zero {holds : Control FrameId → Prop} (h : FirstAt setting m holds n) (hnow : holds m.control) :
    n = 0 := by
  by_contra hne
  exact h.before 0 (Nat.pos_of_ne_zero hne) hnow

/-- A call that fails at once does not give a value. -/
theorem not_give_of_fail {cause : RuntimeError.Cause} {token : Token} {w : Value}
    (h : FirstAt setting (fail cause token K s) (Control.Answers K) n) :
    (run setting n (fail cause token K s)).control ≠ .give w K := by
  rw [h.eq_zero rfl]
  nofun

@[inherit_doc yield_of_answer]
theorem yield_of_enterBody {closure : Closure} {scope : FrameId} {arguments : List Value} {paren : Token} {w : Value}
    (h : FirstAt setting (enterBody setting closure scope arguments yield paren K s) (Control.Answers K) n)
    (hgive : (run setting n (enterBody setting closure scope arguments yield paren K s)).control = .give w K) :
    ∃ k completion, k < n ∧
      w = yieldValue (run setting k (enterBody setting closure scope arguments yield paren K s)).state completion yield := by
  unfold enterBody at h hgive ⊢
  split at h
  · rename_i hdepth
    rw [if_pos hdepth] at hgive ⊢
    exact yield_of_answer h hgive
  · rename_i hdepth
    rw [if_neg hdepth] at hgive
    exact absurd hgive (not_give_of_fail h)

/-! ### Classes and initializers -/

/-- A class answers with the instance that it has made. -/
theorem answer_of_class {k : ClassId} {arguments : List Value} {w : Value}
    (hcall : m.control.call? = some ⟨.classValue k, arguments, K⟩) (h : FirstAt setting m (Control.Answers K) n)
    (hgive : (m.run setting n).control = .give w K) :
    w = .instanceValue m.state.store.instances.size ∧
      ∃ o, (m.run setting n).state.store.instances[m.state.store.instances.size]? = some o ∧ o.classId = k := by
  obtain ⟨paren, hstep⟩ := @step_of_call? setting m _ hcall
  obtain ⟨j, rfl, hfirst⟩ := h.of_step (not_answers_of_call? hcall)
  rw [run_step] at hgive ⊢
  rw [hstep] at hfirst hgive ⊢
  have hmade : ∀ m' : Machine, m'.state.store.instances = m.state.store.instances.push ⟨k, []⟩ →
      ∃ o, (m'.run setting j).state.store.instances[m.state.store.instances.size]? = some o ∧ o.classId = k := by
    intro m' hinstances
    refine (kept_run m' j).instances _ ⟨k, []⟩ ?_
    rw [hinstances, Array.getElem?_push_size]
  simp only [Machine.call, callClass] at hfirst hgive ⊢
  split at hfirst
  · rename_i hnone
    simp only [hnone] at hgive ⊢
    split at hfirst
    · rename_i hlength
      rw [if_pos hlength] at hgive ⊢
      cases hfirst.eq_zero rfl
      cases hgive
      exact ⟨rfl, hmade _ rfl⟩
    · rename_i hlength
      rw [if_neg hlength] at hgive
      exact absurd hgive (not_give_of_fail hfirst)
  · rename_i initializer hsome
    simp only [hsome] at hgive ⊢
    split at hfirst
    · rename_i hlength
      rw [if_pos hlength] at hgive ⊢
      obtain ⟨i, completion, -, rfl⟩ := yield_of_enterBody hfirst hgive
      refine ⟨rfl, hmade _ ?_⟩
      unfold enterBody
      split <;> rfl
    · rename_i hlength
      rw [if_neg hlength] at hgive
      exact absurd hgive (not_give_of_fail hfirst)

/-- An initializer answers with what its receiver is bound to when its body ends. -/
theorem answer_of_initializer {f : ClosureId} {closure : Closure} {arguments : List Value} {w : Value}
    (hcall : m.control.call? = some ⟨.closure f, arguments, K⟩) (hclosure : m.state.store.closures[f]? = some closure)
    (hinitializer : closure.isInitializer = true) (h : FirstAt setting m (Control.Answers K) n)
    (hgive : (m.run setting n).control = .give w K) :
    ∃ k, k < n ∧ w = ((m.run setting k).state.store.localValue? closure.scope "this").getD .nil := by
  obtain ⟨paren, hstep⟩ := @step_of_call? setting m _ hcall
  obtain ⟨j, rfl, hfirst⟩ := h.of_step (not_answers_of_call? hcall)
  rw [run_step] at hgive
  rw [hstep] at hfirst hgive
  simp only [Machine.call, hclosure, callClosure, hinitializer, ↓reduceIte] at hfirst hgive
  split at hfirst
  · rename_i hlength
    rw [if_pos hlength] at hgive
    obtain ⟨i, completion, hi, rfl⟩ := yield_of_enterBody hfirst hgive
    refine ⟨i + 1, Nat.succ_lt_succ hi, ?_⟩
    rw [run_step, hstep]
    simp only [Machine.call, hclosure, callClosure, hinitializer, ↓reduceIte]
    rw [if_pos hlength]
    rfl
  · rename_i hlength
    rw [if_neg hlength] at hgive
    exact absurd hgive (not_give_of_fail hfirst)

end Bodies

end Machine

/-! ### Whose body runs -/

/-- How many function values and instances there are, and how many calls are open. -/
structure Tally where
  closures : Nat
  instances : Nat
  depth : Nat

/-- How many functions and instances there are, and how many calls are open. -/
def State.tally (s : State) : Tally :=
  ⟨s.store.closures.size, s.store.instances.size, s.depth⟩

/-- The instances to which the body that runs, the bodies that wait for a call in them, the latest first, and the function
    values belong, each to one or to none. -/
structure Provenance where
  current : Option InstanceId
  callers : List (Option InstanceId)
  functions : ClosureId → Option InstanceId

namespace Provenance

/-- Nothing has run. -/
def start : Provenance :=
  ⟨none, [], fun _ => none⟩

/-- A further entry begins, outside of all bodies. -/
def entry (p : Provenance) : Provenance :=
  { p with current := none, callers := [] }

/-- A function value is made. A method belongs to the instance of which it is fetched, and a function that is declared to
    what the body belongs to that declares it. -/
def make (p : Provenance) (f : ClosureId) (object : Option InstanceId) : Provenance :=
  { p with functions := fun g => if g = f then object <|> p.current else p.functions g }

/-- What the body belongs to that is run when a value is called: that of a function value, wherever the value has been in
    between, to what the value belongs to, and the initializer of a class to the next instance. -/
def ofCallee (p : Provenance) (next : InstanceId) : Value → Option InstanceId
  | .closure f => p.functions f
  | .classValue _ => some next
  | _ => none

/-- A body with its instance begins to run. -/
def enter (p : Provenance) (r : Option InstanceId) : Provenance :=
  { p with current := r, callers := p.current :: p.callers }

/-- The body that runs has ended. -/
def leave (p : Provenance) : Provenance :=
  match p.callers with
  | [] => p
  | r :: rest => { p with current := r, callers := rest }

/-- What a step makes of it. The step makes a function value if there is one more of them afterwards, and begins or ends a
    call if there is one more or one less. -/
def step {σ : Type} (p : Provenance) (control : Control σ) (before after : Tally) : Provenance :=
  let p := if before.closures < after.closures then p.make before.closures control.object? else p
  if before.depth < after.depth then p.enter (control.call?.bind fun call => p.ofCallee before.instances call.callee)
  else if after.depth < before.depth then p.leave
  else p

section Step
variable {σ : Type} {p : Provenance} {control : Control σ} {before after : Tally}

theorem step_of_eq (hclosures : after.closures = before.closures) (hdepth : after.depth = before.depth) :
    p.step control before after = p := by
  simp [step, hclosures, hdepth]

theorem step_of_make (hclosures : after.closures = before.closures + 1) (hdepth : after.depth = before.depth) :
    p.step control before after = p.make before.closures control.object? := by
  simp [step, hclosures, hdepth]

theorem step_of_enter (hclosures : after.closures = before.closures) (hdepth : after.depth = before.depth + 1)
    {call : Call σ} (hcall : control.call? = some call) :
    p.step control before after = p.enter (p.ofCallee before.instances call.callee) := by
  simp [step, hclosures, hdepth, hcall]

theorem step_of_leave (hclosures : after.closures = before.closures) (hdepth : after.depth < before.depth) :
    p.step control before after = p.leave := by
  simp [step, hclosures, hdepth, Nat.not_lt_of_lt hdepth]

end Step

end Provenance

end LoxLanguage
