import Mathlib
import LoxLanguage.Proofs.Machine.Returns
import LoxLanguage.Proofs.Session.Accepted
import LoxLanguage.Proofs.Unwinding.Results

/-! Completions and unwinding. A session tells each piece of work that waits how the statement above it has ended, and a
`return` is one of the ways. The reference evaluator has no such thing: a `return` breaks off whatever is being done, up to
the call around it. On entries that run the two cannot be told apart (`unwinding_coincides`). -/

namespace LoxLanguage

open Unwinding (Coincides Finished Handed Told)

namespace Session

variable {s s' : Session} {source : String} {m : Machine}

/-- In an entry that runs, a `return` is met only while a call is open. -/
theorem contained_of_load (h : s.load source = (s', some m)) (n : Nat) : (m.run s'.setting n).control.Contained := by
  refine Machine.contained_run ?_ n
  rw [(loads_of_load h).machine]
  exact ⟨nofun, returnsAny_of_quiet (loads_of_load h).quiet⟩

/-- The statements of an entry end normally. -/
theorem uninterrupted_of_load (h : s.load source = (s', some m)) : Unwinding.Uninterrupted s'.setting m := by
  intro n completion rest hcontrol
  have hcontained := contained_of_load h n
  rw [hcontrol] at hcontained
  cases completion with
  | normal => rfl
  | returned v => cases hcontained.1 rfl

end Session

/-- Whether a `return` is a way of ending or breaks off what is being done cannot be told from an entry that runs. The two
    end the entry in the same way and leave the same state: what has been printed, the store and all else. Wherever the
    entry evaluates an expression, such as a call, or executes a statement, both come to the same value or the same end
    there. From a `return` on, nothing but the way down to the call around it happens before the caller goes on with the
    value. No statement of the entry itself ends by a `return`. -/
theorem unwinding_coincides {s s' : Session} {source : String} {m : Machine} (h : s.load source = (s', some m)) :
    (Coincides s'.setting m (fun fuel => Unwinding.run s'.setting fuel (s.program source) s.state) fun r t n =>
      Finished r t (m.run s'.setting n)) ∧
      (∀ k e K, (m.run s'.setting k).control = .eval e K →
        Coincides s'.setting (m.run s'.setting k) (fun fuel => Unwinding.eval s'.setting fuel e (m.run s'.setting k).state)
          fun r t n => Machine.FirstAt s'.setting (m.run s'.setting k) (Control.Answers K) n ∧
            Handed K r t (m.run s'.setting (k + n))) ∧
      (∀ k statement L, (m.run s'.setting k).control = .exec statement L →
        Coincides s'.setting (m.run s'.setting k)
          (fun fuel => Unwinding.exec s'.setting fuel statement (m.run s'.setting k).state)
          fun r t n => Machine.FirstAt s'.setting (m.run s'.setting k) (Control.Ends L) n ∧
            Told L r t (m.run s'.setting (k + n))) ∧
      (∀ k v L, (m.run s'.setting k).control = .ended (.returned v) L →
        ∃ caller j, L.caller? = some caller ∧ Machine.Unwinds s'.setting (m.run s'.setting k) v caller j) ∧
      ∀ k completion rest, (m.run s'.setting k).control = .ended completion (.program rest) → completion = .normal := by
  refine ⟨?_, fun k e K hcontrol => ?_, fun k statement L hcontrol => ?_,
    fun k v L hcontrol => Machine.unwinds_of_contained (Session.contained_of_load h k) hcontrol,
    Session.uninterrupted_of_load h⟩
  · have huninterrupted := Session.uninterrupted_of_load h
    rw [(Session.loads_of_load h).machine] at huninterrupted ⊢
    exact Unwinding.run_coincides huninterrupted
  · simp only [Machine.run_add]
    exact Unwinding.eval_coincides hcontrol
  · simp only [Machine.run_add]
    exact Unwinding.exec_coincides hcontrol

/-- A function that returns from a block in a loop. -/
def returningEntry : String :=
  "fun f() \x7b while (true) \x7b return true; \x7d \x7d print f();"

def beforeReturn : Session :=
  Session.start ⟨3, fun _ => 0⟩ (.new false false) ""

/-- The loop of the function would never end by itself, but the entry ends in the reference evaluator, and has printed what
    the call has returned. -/
theorem unwinding_coincides_loop :
    (beforeReturn.load returningEntry).2.isSome = true ∧
      ∃ fuel t, Unwinding.run (beforeReturn.load returningEntry).1.setting fuel (beforeReturn.program returningEntry)
        beforeReturn.state = some (.ok (), t) ∧ t.printed = #["true"] := by
  have hloads : (beforeReturn.load returningEntry).2.isSome = true := by decide +kernel
  obtain ⟨m, hm⟩ := Option.isSome_iff_exists.mp hloads
  have hload : beforeReturn.load returningEntry = ((beforeReturn.load returningEntry).1, some m) := by rw [← hm]
  have hmachine := (Session.loads_of_load hload).machine
  have hends : (m.run (beforeReturn.load returningEntry).1.setting 40).outcome = .completed ∧
      (m.run (beforeReturn.load returningEntry).1.setting 40).state.printed = #["true"] := by
    rw [hmachine]
    decide +kernel
  obtain ⟨fuel, hfuel⟩ := ((unwinding_coincides hload).1.same (.ok ()) _).mpr ⟨40, rfl, hends.1⟩
  exact ⟨hloads, fuel, _, hfuel, hends.2⟩

end LoxLanguage
