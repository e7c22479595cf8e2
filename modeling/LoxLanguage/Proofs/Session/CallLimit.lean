import Mathlib
import LoxLanguage.Proofs.Machine.Passes
import LoxLanguage.Proofs.Session.Accepted

/-! The limit on open calls. A step looks at it only where it enters the body of a function (`Machine.step_limited`), so a
run under a higher limit is the same run until there is no room for a call. A run that overflows has done what the
other one has done up to that call, and leaves it at that. -/

namespace LoxLanguage

/-- A setting with another limit for open calls. -/
def Setting.withLimit (setting : Setting) (n : Nat) : Setting :=
  { setting with callLimit := n }

/-- The fault of a call for which there is no room. -/
def Fault.overflow (paren : Token) : Fault :=
  .runtime ⟨.stackOverflow, paren⟩

/-! ### Where the limit counts -/

namespace Machine

/-- The machine is failing because there was no room for a call. -/
def Overflowed (m : Machine) : Prop :=
  ∃ paren, m.control.fault? = some (.overflow paren)

/-- The machine that a step gives under each limit: always the same one, which has not overflowed, or the one that enters a
    body. -/
def Limited (setting : Setting) (s : State) (result : Nat → Machine) : Prop :=
  (∃ m : Machine, ¬ m.Overflowed ∧ ∀ n, result n = m) ∨
    ∃ closure scope arguments yield paren K store, s.store.Extends store ∧
      ∀ n, result n = enterBody (setting.withLimit n) closure scope arguments yield paren K { s with store }

section Limited
variable {setting : Setting} {s : State} {K : ExprStack FrameId}

theorem not_overflowed {m : Machine} (h : m.control.fault? = none) : ¬ m.Overflowed := by
  rintro ⟨paren, hfault⟩
  rw [h] at hfault
  cases hfault

theorem not_overflowed_fault {fault : Fault} (h : ∀ paren, fault ≠ .overflow paren) :
    ¬ Overflowed ⟨.failExpr fault K, s⟩ := by
  rintro ⟨paren, hfault⟩
  exact h paren (Option.some.inj hfault)

theorem not_overflowed_fail {cause : RuntimeError.Cause} {token : Token} (h : cause ≠ .stackOverflow) :
    ¬ (fail cause token K s).Overflowed := by
  refine not_overflowed_fault fun paren hfault => h ?_
  cases hfault
  rfl

theorem read_error {site : Site} {name : Token} {fault : Fault} (h : s.read setting site name = .error fault) (paren : Token) :
    fault ≠ .overflow paren := by
  rintro rfl
  simp only [State.read, Fault.undefinedVariable, Fault.overflow] at h
  split at h <;> split at h <;> cases h

theorem target_error {site : Site} {name : Token} {fault : Fault} (h : s.target setting site name = .error fault)
    (paren : Token) : fault ≠ .overflow paren := by
  rintro rfl
  simp only [State.target, Fault.undefinedVariable, Fault.overflow] at h
  split at h <;> split at h <;> cases h

theorem unary_error {operator : Token} {v : Value} {error : RuntimeError} (h : Operators.unary operator v = .error error) :
    error.cause ≠ .stackOverflow := by
  unfold Operators.unary at h
  split at h
  · cases h
  · split at h <;> cases h
    nofun
  · cases h
    nofun

theorem binary_error {operator : Token} {v w : Value} {error : RuntimeError}
    (h : Operators.binary operator v w = .error error) : error.cause ≠ .stackOverflow := by
  unfold Operators.binary at h
  split at h
  · cases h
  · cases h
  · split at h <;> cases h
    nofun
  · split at h
    · split at h <;> cases h
      nofun
    · cases h
      nofun

theorem not_overflowed_giveResult {result : Except RuntimeError Value}
    (h : ∀ error, result = .error error → error.cause ≠ .stackOverflow) : ¬ (giveResult result K s).Overflowed := by
  cases result with
  | ok v => exact not_overflowed rfl
  | error error =>
    refine not_overflowed_fault fun paren hfault => h error rfl ?_
    cases hfault
    rfl

theorem Limited.of_not_overflowed {m : Machine} (h : ¬ m.Overflowed) : Limited setting s fun _ => m :=
  .inl ⟨m, h, fun _ => rfl⟩

theorem callClosure_limited {closure : Closure} {arguments : List Value} {paren : Token} :
    Limited setting s fun n => callClosure (setting.withLimit n) closure arguments paren K s := by
  unfold callClosure
  split
  · exact .inr ⟨closure, closure.scope, arguments, _, paren, K, s.store, .refl _, fun _ => rfl⟩
  · exact .of_not_overflowed (not_overflowed_fail nofun)

theorem callClass_limited {k : ClassId} {arguments : List Value} {paren : Token} :
    Limited setting s fun n => callClass (setting.withLimit n) k arguments paren K s := by
  unfold callClass
  split
  · split
    · exact .of_not_overflowed (not_overflowed rfl)
    · exact .of_not_overflowed (not_overflowed_fail nofun)
  · split
    · rename_i initializer _ _
      exact .inr ⟨initializer, _, arguments, _, paren, K, _, (Store.Extends.newInstance s.store k).newFrame _ _, fun _ => rfl⟩
    · exact .of_not_overflowed (not_overflowed_fail nofun)

theorem call_limited {callee : Value} {arguments : List Value} {paren : Token} :
    Limited setting s fun n => call (setting.withLimit n) callee arguments paren K s := by
  unfold call
  split
  · split
    · exact .of_not_overflowed (m := ⟨.give (.number (setting.clock s.ticks)) K, { s with ticks := s.ticks + 1 }⟩)
        (not_overflowed rfl)
    · exact .of_not_overflowed (not_overflowed_fail nofun)
  · split
    · exact callClosure_limited
    · exact .of_not_overflowed (not_overflowed_fail nofun)
  · exact callClass_limited
  · exact .of_not_overflowed (not_overflowed_fail nofun)

theorem not_overflowed_property {i : InstanceId} {name : Token} : ¬ (property i name K s).Overflowed := by
  unfold property
  split
  · exact not_overflowed rfl
  · split
    · exact not_overflowed rfl
    · exact not_overflowed_fail nofun

theorem eval_limited (e : Expr) : Limited setting s fun n => eval (setting.withLimit n) K s e := by
  cases e with
  | use site name =>
    refine .of_not_overflowed (m := eval setting K s (.use site name)) ?_
    rw [eval]
    split
    · exact not_overflowed rfl
    · exact not_overflowed_fault (read_error (by assumption))
  | this site keyword =>
    refine .of_not_overflowed (m := eval setting K s (.this site keyword)) ?_
    rw [eval]
    split
    · exact not_overflowed rfl
    · exact not_overflowed_fault (read_error (by assumption))
  | _ => exact .of_not_overflowed (not_overflowed rfl)

theorem give_limited (v : Value) : Limited setting s fun n => give (setting.withLimit n) v s K := by
  cases K with
  | unary operator K => exact .of_not_overflowed (not_overflowed_giveResult fun _ => unary_error)
  | binaryRight left operator K => exact .of_not_overflowed (not_overflowed_giveResult fun _ => binary_error)
  | logical operator right K =>
    refine .of_not_overflowed (m := give setting v s (.logical operator right K)) ?_
    rw [give]
    split <;> exact not_overflowed rfl
  | assign site name K =>
    refine .of_not_overflowed (m := give setting v s (.assign site name K)) ?_
    rw [give]
    split
    · exact not_overflowed rfl
    · exact not_overflowed_fault (target_error (by assumption))
  | callee paren arguments K =>
    cases arguments with
    | nil => exact call_limited
    | cons e rest => exact .of_not_overflowed (not_overflowed rfl)
  | argument callee given paren rest K =>
    cases rest with
    | nil => exact call_limited
    | cons e rest => exact .of_not_overflowed (not_overflowed rfl)
  | get name K =>
    cases v with
    | instanceValue i => exact .of_not_overflowed not_overflowed_property
    | _ => exact .of_not_overflowed (not_overflowed_fail fun hcause => by cases hcause)
  | setTarget name value K =>
    cases v with
    | instanceValue i => exact .of_not_overflowed (not_overflowed rfl)
    | _ => exact .of_not_overflowed (not_overflowed_fail fun hcause => by cases hcause)
  | branch whenTrue whenFalse K =>
    refine .of_not_overflowed (m := give setting v s (.branch whenTrue whenFalse K)) ?_
    cases whenFalse <;>
    · rw [give]
      split <;> exact not_overflowed rfl
  | test condition body K =>
    refine .of_not_overflowed (m := give setting v s (.test condition body K)) ?_
    rw [give]
    split <;> exact not_overflowed rfl
  | _ => exact .of_not_overflowed (not_overflowed rfl)

theorem fault?_exec (statement : Stmt) (K : StmtStack FrameId) : (exec K s statement).control.fault? = none := by
  cases statement with
  | declareVariable name initializer => cases initializer <;> rfl
  | returnValue keyword value => cases value <;> rfl
  | _ => rfl

theorem fault?_ended (completion : Completion) (K : StmtStack FrameId) : (ended completion s K).control.fault? = none := by
  cases K with
  | program rest => cases rest <;> rfl
  | sequence rest K => cases rest <;> cases completion <;> rfl
  | again condition body K => cases completion <;> rfl
  | _ => rfl

/-- The limit counts for a step only where it enters a body. -/
theorem step_limited {m : Machine} (h : m.control.fault? = none) :
    Limited setting m.state fun n => m.step (setting.withLimit n) := by
  obtain ⟨control, s⟩ := m
  cases control with
  | eval e K => exact eval_limited e
  | give v K => exact give_limited v
  | exec statement K => exact .of_not_overflowed (not_overflowed (fault?_exec statement K))
  | ended completion K => exact .of_not_overflowed (not_overflowed (fault?_ended completion K))
  | _ => cases h

section Body
variable {closure : Closure} {scope : FrameId} {arguments : List Value} {yield : Yield FrameId} {paren : Token}

theorem callLimit_le_of_enterBody (h : (enterBody setting closure scope arguments yield paren K s).Overflowed) :
    setting.callLimit ≤ s.depth := by
  by_contra hroom
  rw [enterBody, if_pos (Nat.lt_of_not_le hroom)] at h
  exact not_overflowed rfl h

theorem enterBody_withLimit {n : Nat} (hn : setting.callLimit ≤ n)
    (hfits : ¬ (enterBody setting closure scope arguments yield paren K s).Overflowed) :
    enterBody (setting.withLimit n) closure scope arguments yield paren K s =
      enterBody setting closure scope arguments yield paren K s := by
  by_cases hroom : s.depth < setting.callLimit
  · have hmore : s.depth < (setting.withLimit n).callLimit := Nat.lt_of_lt_of_le hroom hn
    rw [enterBody, enterBody, if_pos hroom, if_pos hmore]
  · rw [enterBody, if_neg hroom] at hfits
    exact absurd ⟨paren, rfl⟩ hfits

end Body

/-- A step that overflows does so because as many calls are open as may be. -/
theorem callLimit_le_of_overflowed {m : Machine} (h : m.control.fault? = none) (hover : (m.step setting).Overflowed) :
    setting.callLimit ≤ m.state.depth := by
  rcases @step_limited setting m h with ⟨m', hm', hsame⟩ | ⟨closure, scope, arguments, yield, paren, K, store, -, henter⟩
  · obtain rfl : m.step setting = m' := hsame setting.callLimit
    exact absurd hover hm'
  · have hstep : m.step setting = enterBody setting closure scope arguments yield paren K { m.state with store } :=
      henter setting.callLimit
    rw [hstep] at hover
    have hfull := callLimit_le_of_enterBody hover
    exact hfull

/-- A step that has room under a limit is the same under a higher one. -/
theorem step_withLimit {m : Machine} {n : Nat} (hn : setting.callLimit ≤ n) (hfits : ¬ (m.step setting).Overflowed) :
    m.step (setting.withLimit n) = m.step setting := by
  cases hfault : m.control.fault? with
  | some fault =>
    obtain ⟨control, s⟩ := m
    cases control with
    | failExpr _ K => rfl
    | failStmt _ K => rfl
    | _ => cases hfault
  | none =>
    rcases @step_limited setting m hfault with ⟨m', -, hsame⟩ | ⟨closure, scope, arguments, yield, paren, K, store, -, henter⟩
    · exact (hsame n).trans (hsame setting.callLimit).symm
    · have hstep : m.step setting = enterBody setting closure scope arguments yield paren K { m.state with store } :=
        henter setting.callLimit
      rw [hstep] at hfits ⊢
      exact (henter n).trans (enterBody_withLimit hn hfits)

/-- A run that has room under a limit is the same under a higher one. -/
theorem run_withLimit {m : Machine} {n k : Nat} (hn : setting.callLimit ≤ n) (hfits : ¬ (m.run setting k).Overflowed) :
    m.run (setting.withLimit n) k = m.run setting k := by
  induction k with
  | zero => rfl
  | succ k ih =>
    rw [run_succ] at hfits
    have hbefore : ¬ (m.run setting k).Overflowed := by
      rintro ⟨paren, hfault⟩
      exact hfits ⟨paren, (fault?_step hfault).1⟩
    rw [run_succ, run_succ, ih hbefore, step_withLimit hn hfits]

/-- What a run has printed when it overflows, a run under a higher limit prints too. -/
theorem printed_of_overflow {m : Machine} {n k fuel : Nat} (hn : setting.callLimit ≤ n)
    (hraise : (m.run setting k).control.fault? = none)
    (hfinished : (m.run (setting.withLimit n) fuel).outcome ≠ .unfinished) :
    (m.run setting k).state.printed.toList <+: (m.run (setting.withLimit n) fuel).state.printed.toList := by
  rw [← run_withLimit hn (not_overflowed hraise)]
  rcases Nat.le_total k fuel with hle | hle
  · exact printed_run_mono m hle
  · rw [run_of_finished hfinished hle]

end Limited

end Machine

/-! ### Sessions -/

namespace Session

variable {history : History} {s loaded : Session} {source : String} {m : Machine}

/-- The session under another limit. -/
def withLimit (s : Session) (n : Nat) : Session :=
  { s with host := { s.host with callLimit := n } }

/-- Whether an entry runs, and as what program, does not depend on the limit. -/
theorem load_withLimit (s : Session) (source : String) (n : Nat) :
    (s.withLimit n).load source = ((s.load source).1.withLimit n, (s.load source).2) := by
  have hparse : (s.withLimit n).parse source = ((s.parse source).1.withLimit n, (s.parse source).2) := rfl
  unfold load
  rw [hparse]
  rcases s.parse source with ⟨read, parsed⟩
  cases parsed with
  | none => rfl
  | some parsed =>
    dsimp only [withLimit]
    split <;> rfl

theorem run_withLimit (hload : s.load source = (loaded, some m)) (n fuel : Nat) :
    (s.withLimit n).run fuel source =
      (loaded.withLimit n).finish (m.run (loaded.setting.withLimit n) fuel) := by
  have hraised := s.load_withLimit source n
  rw [hload] at hraised
  exact run_of_load hraised fuel

theorem Reached.depth (h : s.Reached history) : s.state.depth = 0 := by
  induction h with
  | start => rfl
  | ran _ hrun =>
    obtain ⟨loaded, m, -, rfl, -⟩ := load_of_run hrun
    rfl
  | rejected _ hrun ih =>
    rw [eq_of_rejected hrun]
    exact ih
  | reported _ _ ih => exact ih

/-- How an entry that has overflowed after `fuel` steps leaves its session, against runs under the limit `n`. All blocks and
    calls have been left. It has done what those runs do in some first steps, up to a call for which there is no room, and
    nothing since. -/
structure Overflows (s : Session) (source : String) (n fuel : Nat) (after : Session) : Prop where
  current : after.state.current = Store.globals
  printed : ∀ fuel' high outcome, (s.withLimit n).run fuel' source = (high, .ran outcome) → outcome ≠ .unfinished →
    after.state.printed.toList <+: high.state.printed.toList
  steps : ∃ loaded m, s.load source = (loaded, some m) ∧ (m.run loaded.setting fuel).state.current = Store.globals ∧
    ∃ k < fuel, m.run (loaded.setting.withLimit n) k = m.run loaded.setting k ∧
      s.host.callLimit ≤ (m.run loaded.setting k).control.openCalls ∧
      (m.run loaded.setting k).state.Remains after.state

end Session

/-- An accepted entry that has room under the limit of its session runs the same under a higher one. One that overflows has
    printed the first of the lines that it prints under a higher limit, and what it has done is kept. -/
theorem run_raised_limit {history : History} {s : Session} (h : s.Reached history) {source : String}
    (haccepts : s.Accepts source) {n : Nat} (hn : s.host.callLimit ≤ n) (fuel : Nat) :
    ∃ low outcome, s.run fuel source = (low, .ran outcome) ∧
      (outcome ≠ .unfinished → (∀ paren, outcome ≠ .failed (.overflow paren)) →
        (s.withLimit n).run fuel source = (low.withLimit n, .ran outcome)) ∧
      ∀ paren, outcome = .failed (.overflow paren) → s.Overflows source n fuel low := by
  obtain ⟨loaded, m, hload⟩ := Session.load_of_accepts haccepts
  have hloads := Session.loads_of_load hload
  have hlimit : loaded.setting.callLimit ≤ n := by
    show loaded.host.callLimit ≤ n
    rwa [hloads.host]
  have hrun : s.run fuel source = ({ loaded with state := (m.run loaded.setting fuel).rest },
      .ran (m.run loaded.setting fuel).outcome) := Session.run_of_load hload fuel
  refine ⟨_, _, hrun, fun hfinished hfits => ?_, fun paren hover => ?_⟩
  · -- A machine that has stopped with the fault of an overflow has failed with it.
    have hroom : ¬ (m.run loaded.setting fuel).Overflowed := by
      rintro ⟨paren, hfault⟩
      exact hfits paren (Machine.failed_of_fault? hfault hfinished)
    rw [Session.run_withLimit hload, Machine.run_withLimit hlimit hroom]
    rfl
  · have hstart : m.control.fault? = none := by
      rw [hloads.machine]
      rfl
    obtain ⟨k, hlt, hbefore, hafter⟩ := Machine.exists_raise hstart (Machine.fault?_of_failed hover)
    obtain ⟨-, hremains⟩ := Machine.run_of_raise hlt hafter
    refine ⟨rfl, fun fuel' high outcome' hhigh hfinished => ?_, loaded, m, hload, ?_, k, hlt, ?_, ?_, hremains⟩
    · rw [Session.run_withLimit hload] at hhigh
      obtain ⟨rfl, hresult⟩ := Prod.mk.inj hhigh
      cases hresult
      have hprinted := Machine.printed_of_overflow hlimit hbefore hfinished
      rw [← hremains.printed] at hprinted
      exact hprinted
    · have hcurrent := @Machine.outermost_run loaded.setting m fuel
      rw [Machine.outermost_of_stopped (by rw [hover]; nofun)] at hcurrent
      rw [hcurrent, hloads.machine]
      exact h.together.current
    · exact Machine.run_withLimit hlimit (Machine.not_overflowed hbefore)
    · have hdepth : m.state.depth = m.control.openCalls := by
        rw [hloads.machine]
        exact h.depth
      rw [Machine.run_succ] at hafter
      have hfull := Machine.callLimit_le_of_overflowed hbefore ⟨paren, hafter⟩
      rw [Machine.depth_run hdepth] at hfull
      rw [← hloads.host]
      exact hfull

/-- A function that calls itself once, from inside its first call. -/
def nestedCall : String :=
  "fun f(again) \x7b print \"in\"; if (again) f(false); print \"out\"; \x7d f(true);"

def underLimitOne : Session :=
  Session.start ⟨1, fun _ => 0⟩ (.new false false) ""

/-- The inner call overflows under the limit one and has room under the limit two. -/
theorem run_raised_limit_nestedCall :
    underLimitOne.Accepts nestedCall ∧
      (underLimitOne.run 60 nestedCall).2 = .ran (.failed (.overflow ⟨.rightParen, ")", .nil, 1⟩)) ∧
      (underLimitOne.run 60 nestedCall).1.state.printed = #["in"] ∧
      underLimitOne.Overflows nestedCall 2 60 (underLimitOne.run 60 nestedCall).1 ∧
      ((underLimitOne.withLimit 2).run 60 nestedCall).2 = .ran .completed ∧
      ((underLimitOne.withLimit 2).run 60 nestedCall).1.state.printed = #["in", "in", "out", "out"] ∧
      (((underLimitOne.withLimit 2).withLimit 3).run 60 nestedCall).2 = .ran .completed := by
  have haccepts : underLimitOne.Accepts nestedCall :=
    ⟨by decide +kernel, by decide +kernel, by decide +kernel, by decide +kernel⟩
  have hover : (underLimitOne.run 60 nestedCall).2 = .ran (.failed (.overflow ⟨.rightParen, ")", .nil, 1⟩)) := by
    decide +kernel
  have hcompleted : ((underLimitOne.withLimit 2).run 60 nestedCall).2 = .ran .completed := by decide +kernel
  refine ⟨haccepts, hover, by decide +kernel, ?_, hcompleted, by decide +kernel, ?_⟩
  · have hreached : underLimitOne.Reached [] := .start _ _ _
    obtain ⟨low, outcome, hrun, -, hoverflows⟩ :=
      run_raised_limit hreached haccepts (show underLimitOne.host.callLimit ≤ 2 by decide) 60
    rw [hrun] at hover ⊢
    exact hoverflows _ (RunResult.ran.inj hover)
  · have hreached : (underLimitOne.withLimit 2).Reached [] := .start _ _ _
    obtain ⟨low, outcome, hrun, hfits, -⟩ :=
      run_raised_limit hreached ⟨haccepts.1, haccepts.2, haccepts.3, haccepts.4⟩
        (show (underLimitOne.withLimit 2).host.callLimit ≤ 3 by decide) 60
    rw [hrun] at hcompleted
    obtain rfl := RunResult.ran.inj hcompleted
    rw [hfits nofun nofun]

end LoxLanguage
