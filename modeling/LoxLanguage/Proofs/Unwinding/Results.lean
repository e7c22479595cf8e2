import Mathlib
import LoxLanguage.Proofs.Machine.Alone
import LoxLanguage.Proofs.Unwinding.Tracks

/-! Results of the reference evaluator and of the machine. What the evaluator gives for an expression or a statement, with as
much fuel as it takes, is what the machine hands to the work that waits when it has come to the end for the first time
(`eval_coincides`, `exec_coincides`). A program whose statements end without a `return` comes to the same (`run_coincides`). -/

namespace LoxLanguage.Unwinding

open Machine (FirstAt)

/-! ### Results of machines that stop -/

/-- What an evaluation gives, with as much fuel as it takes, is what a machine has given at some moment. The steps of a run
    that finishes are fuel enough. -/
structure Coincides {α : Type} (setting : Setting) (m : Machine) (results : Nat → Option (Except Signal α × State))
    (given : Except Signal α → State → Nat → Prop) : Prop where
  same : ∀ r t, (∃ fuel, results fuel = some (r, t)) ↔ ∃ n, given r t n
  ends : ∀ n, (m.run setting n).outcome ≠ .unfinished → ∃ r t, results n = some (r, t)

/-- A machine that goes on in this way has stopped, and goes on with one result. -/
structure Settles {α : Type} (resume : Resume α) : Prop where
  stops : ∀ {r s m}, resume r s m → m.outcome ≠ .unfinished
  unique : ∀ {r r' s s' m}, resume r s m → resume r' s' m → r = r' ∧ s = s'

section Settles
variable {α : Type} {setting : Setting} {upper lower : Resume α} {m : Machine}
  {results : Nat → Option (Except Signal α × State)}

theorem Tracks.ends {n : Nat} {result : Option (Except Signal α × State)} (h : Tracks setting n upper m result)
    (hfinished : (m.run setting n).outcome ≠ .unfinished) : ∃ r t, result = some (r, t) := by
  cases result with
  | none =>
    have hstopped := Machine.stopped_iff.mpr hfinished
    rw [show (m.run setting n).stopped = false from h] at hstopped
    cases hstopped
  | some ended => exact ⟨ended.1, ended.2, rfl⟩

/-- If the machine follows an evaluation, however much fuel that has got, the two have the same result. -/
theorem Settles.coincides (hsettles : Settles lower) (htracks : ∀ n, Tracks setting n lower m (results n)) :
    Coincides setting m results fun r t n => lower r t (m.run setting n) where
  same r t := by
    constructor
    · rintro ⟨fuel, hresult⟩
      have htracked := htracks fuel
      rw [hresult] at htracked
      exact htracked
    · rintro ⟨n, hn⟩
      have hfinished := hsettles.stops hn
      have htracked := htracks n
      obtain ⟨r', t', hresult⟩ := htracked.ends hfinished
      rw [hresult] at htracked
      obtain ⟨k, hk⟩ := htracked
      have hsame : m.run setting n = m.run setting k := by
        rcases Nat.le_total k n with hle | hle
        · exact Machine.run_of_finished (hsettles.stops hk) hle
        · exact (Machine.run_of_finished hfinished hle).symm
      obtain ⟨hr, ht⟩ := hsettles.unique (hsame ▸ hn) hk
      exact ⟨n, by rw [hresult, hr, ht]⟩
  ends n hfinished := (htracks n).ends hfinished

/-- What a run with nothing below comes to is what the run above other work has come to at its first end. -/
theorem Settles.exists_iff {K : ExprStack FrameId} {L : StmtStack FrameId} {ends : Control FrameId → Prop}
    (hsettles : Settles lower) (hending : m.Ending K L ends) {r : Except Signal α} {t : State}
    (honto : ∀ m' : Machine, m'.control.bottom = m.control.bottom → (upper r t (m'.onto K L) ↔ lower r t m')) :
    (∃ n, lower r t (m.run setting n)) ↔
      ∃ n, FirstAt setting (m.onto K L) ends n ∧ upper r t ((m.onto K L).run setting n) := by
  constructor
  · rintro ⟨n, hn⟩
    classical
    have hstops : ∃ k, (m.run setting k).stopped = true := ⟨n, Machine.stopped_iff.mpr (hsettles.stops hn)⟩
    have hbusy : ∀ k < Nat.find hstops, (m.run setting k).stopped = false := fun k hk =>
      Bool.eq_false_iff.mpr (Nat.find_min hstops hk)
    have hfinished := Machine.stopped_iff.mp (Nat.find_spec hstops)
    have hle : Nat.find hstops ≤ n := Nat.find_min' hstops (Machine.stopped_iff.mpr (hsettles.stops hn))
    obtain ⟨hrun, hsame⟩ := Machine.run_above (K := K) (L := L) hending.bottom hbusy
    refine ⟨Nat.find hstops, hending.firstAt_iff.mpr ⟨Nat.find_spec hstops, hbusy⟩, ?_⟩
    rw [hrun, honto _ hsame, ← Machine.run_of_finished hfinished hle]
    exact hn
  · rintro ⟨n, hfirst, hn⟩
    obtain ⟨hrun, hsame⟩ := Machine.run_above (K := K) (L := L) hending.bottom (hending.firstAt_iff.mp hfirst).2
    rw [hrun, honto _ hsame] at hn
    exact ⟨n, hn⟩

/-- Above other work, the first end counts. -/
theorem Settles.coincides_above {K : ExprStack FrameId} {L : StmtStack FrameId} {ends : Control FrameId → Prop}
    (hsettles : Settles lower) (hending : m.Ending K L ends)
    (honto : ∀ r t (m' : Machine), m'.control.bottom = m.control.bottom → (upper r t (m'.onto K L) ↔ lower r t m'))
    (htracks : ∀ n, Tracks setting n lower m (results n)) (habove : ∀ n, Tracks setting n upper (m.onto K L) (results n)) :
    Coincides setting (m.onto K L) results fun r t n =>
      FirstAt setting (m.onto K L) ends n ∧ upper r t ((m.onto K L).run setting n) where
  same r t := ((hsettles.coincides htracks).same r t).trans (hsettles.exists_iff hending (honto r t))
  ends n hfinished := (habove n).ends hfinished

end Settles

/-! ### Expressions and statements -/

theorem settles_handed : Settles (Handed .answer) where
  stops {r s m} h := by
    rcases r with (v | fault) | v
    · exact h.elim
    · obtain rfl := h
      nofun
    · obtain rfl := h
      nofun
  unique {r r' s s' m} h h' := by
    rcases r with (v | fault) | v <;> rcases r' with (v' | fault') | v' <;> simp_all [Handed]

theorem settles_told : Settles (Told (.program [])) where
  stops {r s m} h := by
    rcases r with (v | fault) | ⟨⟩ <;>
    · obtain rfl := h
      nofun
  unique {r r' s s' m} h h' := by
    rcases r with (v | fault) | ⟨⟩ <;> rcases r' with (v' | fault') | ⟨⟩ <;> simp_all [Told]

section Onto
variable {K : ExprStack FrameId} {L : StmtStack FrameId} {m : Machine} {t : State}

theorem handed_onto (hbottom : m.control.bottom = none) (r : Except Signal Value) :
    Handed K r t (m.onto K L) ↔ Handed .answer r t m := by
  obtain ⟨control, s⟩ := m
  cases control with
  | give w J =>
    have hJ := @ExprStack.onto_eq_iff K L J hbottom
    rcases r with (v | fault) | v <;> simp [Handed, Machine.onto, Control.onto, hJ]
  | failExpr _ J =>
    have hJ := @ExprStack.onto_eq_iff K L J hbottom
    rcases r with (v | fault) | v <;> simp [Handed, Machine.onto, Control.onto, hJ]
  | _ => rcases r with (v | fault) | v <;> simp [Handed, Machine.onto, Control.onto]

theorem told_onto (hbottom : m.control.bottom = some []) (r : Except Signal Unit) :
    Told L r t (m.onto K L) ↔ Told (.program []) r t m := by
  obtain ⟨control, s⟩ := m
  cases control with
  | ended completion J =>
    have hJ := @StmtStack.onto_eq_iff K L J [] hbottom
    rcases r with (v | fault) | ⟨⟩ <;> simp [Told, Machine.onto, Control.onto, hJ]
  | failStmt _ J =>
    have hJ := @StmtStack.onto_eq_iff K L J [] hbottom
    rcases r with (v | fault) | ⟨⟩ <;> simp [Told, Machine.onto, Control.onto, hJ]
  | _ => rcases r with (v | fault) | ⟨⟩ <;> simp [Told, Machine.onto, Control.onto]

end Onto

section Results
variable {setting : Setting} {m : Machine}

/-- The value or the fault that the evaluator gives for an expression is the one that the machine first hands to the work
    that waits for the expression, in the same state. -/
theorem eval_coincides {e : Expr} {K : ExprStack FrameId} (h : m.control = .eval e K) :
    Coincides setting m (fun fuel => eval setting fuel e m.state) fun r t n =>
      FirstAt setting m (Control.Answers K) n ∧ Handed K r t (m.run setting n) := by
  obtain ⟨control, s⟩ := m
  obtain rfl := h
  exact settles_handed.coincides_above (Machine.ending_answers (L := .program []) e s) (fun r _ _ hsame => handed_onto hsame r)
    (fun n => (tracked setting n).1 e .answer s) fun n => (tracked setting n).1 e K s

/-- The way in which the evaluator ends a statement is the one that the machine first tells the work that waits for its
    end. -/
theorem exec_coincides {statement : Stmt} {L : StmtStack FrameId} (h : m.control = .exec statement L) :
    Coincides setting m (fun fuel => exec setting fuel statement m.state) fun r t n =>
      FirstAt setting m (Control.Ends L) n ∧ Told L r t (m.run setting n) := by
  obtain ⟨control, s⟩ := m
  obtain rfl := h
  exact settles_told.coincides_above (Machine.ending_ends (K := .answer) statement s) (fun r _ _ hsame => told_onto hsame r)
    (fun n => (tracked setting n).2 statement (.program []) s) fun n => (tracked setting n).2 statement L s

end Results

/-! ### Programs -/

/-- The machine has run a program to its end, or to a fault. -/
def Finished : Resume Unit
  | .ok _, s, m => m.state = s ∧ m.outcome = .completed
  | .error (.fault fault), s, m => m.state = s ∧ m.outcome = .failed fault
  | .error (.returning _), _, _ => False

theorem settles_finished : Settles Finished where
  stops {r s m} h := by
    rcases r with (v | fault) | ⟨⟩
    · exact h.elim
    · rw [h.2]
      nofun
    · rw [h.2]
      nofun
  unique {r r' s s' m} h h' := by
    rcases r with (v | fault) | ⟨⟩ <;> rcases r' with (v' | fault') | ⟨⟩ <;> simp_all [Finished]

/-- No statement of the program itself comes to its end by a `return`. -/
def Uninterrupted (setting : Setting) (m : Machine) : Prop :=
  ∀ n completion rest, (m.run setting n).control = .ended completion (.program rest) → completion = .normal

section Programs
variable {setting : Setting} {n : Nat} {exec : Stmt → Action Unit} {m : Machine}

theorem Uninterrupted.later (h : Uninterrupted setting m) (k : Nat) : Uninterrupted setting (m.run setting k) := by
  intro n completion rest hcontrol
  rw [← Machine.run_add] at hcontrol
  exact h (k + n) completion rest hcontrol

/-- A program whose statements end by themselves is followed. -/
theorem tracks_program (hexec : ExecTracked setting n exec) (program : List Stmt) (s : State)
    (h : Uninterrupted setting (.ofProgram program s)) :
    Tracks setting n Finished (.ofProgram program s) (all exec program s) := by
  induction program generalizing s with
  | nil => exact ⟨0, rfl, rfl⟩
  | cons statement rest ih =>
    have hbegin : Uninterrupted setting ⟨.exec statement (.program rest), s⟩ := h.later 1
    refine .behind (.bind (hexec statement (.program rest) s).reached ?_ ?_)
    · rintro (v | fault) s' m ⟨hm, k, rfl⟩
      · cases hbegin k (.returned v) rest (congrArg Machine.control hm)
      · exact ⟨0, by rw [hm]; exact ⟨rfl, rfl⟩⟩
    · rintro _ s' m ⟨hm, k, rfl⟩
      have hrest := hbegin.later k
      rw [show Machine.run setting k _ = _ from hm] at hrest ⊢
      exact ih s' hrest

/-- What the evaluator makes of a program is what the machine makes of it. -/
theorem run_coincides {program : List Stmt} {s : State} (h : Uninterrupted setting (.ofProgram program s)) :
    Coincides setting (.ofProgram program s) (fun fuel => run setting fuel program s) fun r t n =>
      Finished r t ((Machine.ofProgram program s).run setting n) :=
  settles_finished.coincides fun n => tracks_program (tracked setting n).2 program s h

end Programs

end LoxLanguage.Unwinding
