import Mathlib
import LoxLanguage.Proofs.Machine.Alone
import LoxLanguage.Proofs.Session.Accepted
import LoxLanguage.Proofs.Store.Changes

/-! The current frame is put back on every way out. Whatever an expression or a statement has come to, the frame that was
current in front of it is current behind it; so a program ends in the frame in which it began, and the next
entry of the session declares its names among the globals (`current_restored`). -/

namespace LoxLanguage

/-! ### Names without a distance -/

/-- A name without a distance is looked up among the globals, whichever frame is current. -/
theorem State.read_of_unscoped {s : State} {setting : Setting} {site : Site} (h : setting.distances.get? site = none)
    (name : Token) : (s.read setting site name).toOption = s.store.lookup? Store.globals name.lexeme := by
  rw [State.read, h]
  cases s.store.lookup? Store.globals name.lexeme <;> rfl

theorem State.target_of_unscoped {s : State} {setting : Setting} {site : Site} (h : setting.distances.get? site = none)
    (name : Token) : (s.target setting site name).toOption = s.store.holder? Store.globals name.lexeme := by
  rw [State.target, h]
  cases s.store.holder? Store.globals name.lexeme <;> rfl

/-! ### Declarations -/

namespace Machine

variable {setting : Setting} {m : Machine}

/-- A declaration binds its name in the current frame and leaves all other frames as they are. -/
theorem frames_of_declaration {x : String} {L : StmtStack FrameId} (h : m.control.declaration? = some (x, L)) :
    ∃ v, (m.step setting).state.store.frames = (m.state.store.define m.state.current x v).frames := by
  obtain ⟨control, s⟩ := m
  cases control with
  | exec statement K =>
    cases statement with
    | declareVariable name initializer =>
      cases initializer <;> cases h
      exact ⟨.nil, rfl⟩
    | declareFunction f =>
      cases h
      exact ⟨_, rfl⟩
    | declareClass name methods =>
      cases h
      exact ⟨_, rfl⟩
    | _ => cases h
  | give v K =>
    cases K with
    | declare name K =>
      cases h
      exact ⟨v, rfl⟩
    | _ => cases h
  | _ => cases h

theorem outermost_of_declaration {x : String} {rest : List Stmt} (h : m.control.declaration? = some (x, .program rest))
    (f : FrameId) : m.control.outermost f = f := by
  obtain ⟨control, s⟩ := m
  cases control with
  | exec statement K =>
    cases statement with
    | declareVariable name initializer =>
      cases initializer <;> cases h
      rfl
    | declareFunction _ | declareClass _ _ =>
      cases h
      rfl
    | _ => cases h
  | give v K =>
    cases K with
    | declare name K =>
      cases h
      rfl
    | _ => cases h
  | _ => cases h

end Machine

/-! ### Entries -/

namespace Session

/-- The entries of a session begin in the frame of the globals: there they run their own statements, there their
    declarations bind, and there names without a distance are looked up. -/
structure BeginsInGlobals (s : Session) : Prop where
  current : s.state.current = Store.globals
  statements : ∀ source s' m, s.load source = (s', some m) → ∀ n statement rest,
    (m.run s'.setting n).control = .exec statement (.program rest) → (m.run s'.setting n).state.current = Store.globals
  declarations : ∀ source s' m, s.load source = (s', some m) → ∀ n x rest,
    (m.run s'.setting n).control.declaration? = some (x, .program rest) →
      ∃ v, (m.run s'.setting (n + 1)).state.store.frames =
        ((m.run s'.setting n).state.store.define Store.globals x v).frames
  names : ∀ source s' m, s.load source = (s', some m) → ∀ n site name, s'.distances.get? site = none →
    ((m.run s'.setting n).state.read s'.setting site name).toOption =
        (m.run s'.setting n).state.store.lookup? Store.globals name.lexeme ∧
      ((m.run s'.setting n).state.target s'.setting site name).toOption =
        (m.run s'.setting n).state.store.holder? Store.globals name.lexeme

variable {s s' : Session} {source : String} {m : Machine}

/-- Below all work of an entry is the frame in which the session has been. -/
theorem outermost_run (h : s.load source = (s', some m)) (n : Nat) :
    (m.run s'.setting n).control.outermost (m.run s'.setting n).state.current = s.state.current := by
  rw [Machine.outermost_run, (loads_of_load h).machine]
  rfl

theorem beginsInGlobals (hcurrent : s.state.current = Store.globals) : s.BeginsInGlobals where
  current := hcurrent
  statements source s' m hload n statement rest hcontrol := by
    have hback := outermost_run hload n
    rw [hcontrol, hcurrent] at hback
    exact hback
  declarations source s' m hload n x rest hdeclaration := by
    have hback := outermost_run hload n
    rw [Machine.outermost_of_declaration hdeclaration, hcurrent] at hback
    obtain ⟨v, hframes⟩ := @Machine.frames_of_declaration s'.setting _ _ _ hdeclaration
    rw [hback, ← Machine.run_succ] at hframes
    exact ⟨v, hframes⟩
  names source s' m _ n site name hunscoped :=
    ⟨State.read_of_unscoped hunscoped name, State.target_of_unscoped hunscoped name⟩

end Session

/-- The current frame is put back on every way out. When an expression or a statement, above any work and in any state,
    has for the first time come to a value, to an end of any kind or to a fault, the frame is current that was current
    before. A program that has ended in whatever way is back in the frame in which it began, and whatever an entry has
    come to, the next one begins in the globals. -/
theorem current_restored :
    (∀ (setting : Setting) (e : Expr) (K : ExprStack FrameId) (s : State) (n : Nat),
      Machine.FirstAt setting ⟨.eval e K, s⟩ (Control.Answers K) n →
        (Machine.run setting n ⟨.eval e K, s⟩).state.current = s.current) ∧
      (∀ (setting : Setting) (statement : Stmt) (L : StmtStack FrameId) (s : State) (n : Nat),
        Machine.FirstAt setting ⟨.exec statement L, s⟩ (Control.Ends L) n →
          (Machine.run setting n ⟨.exec statement L, s⟩).state.current = s.current) ∧
      (∀ (setting : Setting) (statements : List Stmt) (s : State) (n : Nat),
        ((Machine.ofProgram statements s).run setting n).outcome ≠ .unfinished →
          ((Machine.ofProgram statements s).run setting n).state.current = s.current) ∧
      ∀ (s s' : Session) (fuel : Nat) (source : String) (outcome : Machine.Outcome) (reporter : Reporter),
        s.run fuel source = (s', .ran outcome) → Session.BeginsInGlobals { s' with reporter } := by
  refine ⟨fun _ _ _ _ _ => Machine.current_of_answers, fun _ _ _ _ _ => Machine.current_of_ends, ?_, ?_⟩
  · intro setting statements s n hfinished
    have hback := @Machine.outermost_run setting (.ofProgram statements s) n
    rwa [Machine.outermost_of_stopped hfinished] at hback
  · intro s s' fuel source outcome reporter hrun
    obtain ⟨loaded, m, -, rfl, -⟩ := Session.load_of_run hrun
    exact Session.beginsInGlobals rfl

/-- A call that fails in a block inside of it. -/
def failingEntry : String :=
  "fun f() \x7b \x7b var a = nil; a(); \x7d \x7d f();"

def beforeFailure : Session :=
  Session.start ⟨3, fun _ => 0⟩ (.new false false) ""

/-- The entry fails with the frames of a call and of a block open, and a variable that is declared next is a global. -/
theorem current_restored_failing :
    (beforeFailure.run 60 failingEntry).2 = .ran (.failed (.runtime ⟨.notCallable, ⟨.rightParen, ")", .nil, 1⟩⟩)) ∧
      Session.BeginsInGlobals { (beforeFailure.run 60 failingEntry).1 with reporter := .new false false } ∧
      ((Session.run 60 { (beforeFailure.run 60 failingEntry).1 with reporter := .new false false } "var b;").1.state.store.frame
        Store.globals).bindings.has "b" = true := by
  have hfails : (beforeFailure.run 60 failingEntry).2 =
      .ran (.failed (.runtime ⟨.notCallable, ⟨.rightParen, ")", .nil, 1⟩⟩)) := by
    decide +kernel
  have hrun : beforeFailure.run 60 failingEntry = ((beforeFailure.run 60 failingEntry).1,
      .ran (.failed (.runtime ⟨.notCallable, ⟨.rightParen, ")", .nil, 1⟩⟩))) := by
    rw [← hfails]
  exact ⟨hfails, current_restored.2.2.2 _ _ _ _ _ (.new false false) hrun, by decide +kernel⟩

end LoxLanguage
