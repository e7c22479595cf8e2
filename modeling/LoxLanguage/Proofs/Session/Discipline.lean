import Mathlib
import LoxLanguage.Proofs.Session.Bindings

/-! The heap over whole sessions. A moment is a session in the middle of an entry; from one moment the next is reached by a
step of the machine, or by a further entry that is accepted, however far the last one has come. At each moment that can
be reached, frames, function values, classes and instances are kept for good, and names are bound only where the program
says so (`heap_disciplined`). -/

namespace LoxLanguage

open Relation (ReflTransGen)

/-! ### Moments -/

/-- A session in the middle of an entry. -/
structure Moment where
  session : Session
  machine : Machine

namespace Moment

/-- The store at a moment. -/
def store (r : Moment) : Store :=
  r.machine.state.store

/-- One step later. -/
def step (r : Moment) : Moment :=
  ⟨r.session, r.machine.step r.session.setting⟩

/-- What can come next: a step, or the beginning of a further entry. -/
inductive Next (r : Moment) : Moment → Prop where
  | step : Next r r.step
  | entry {reporter : Reporter} {source : String} {s : Session} {m : Machine}
      (h : Session.load { r.session with state := r.machine.rest, reporter } source = (s, some m)) : Next r ⟨s, m⟩

/-- What can come sooner or later. -/
def Later : Moment → Moment → Prop :=
  ReflTransGen Next

/-- The moments that come about: any number of steps of an entry, accepted by a session that has come about. -/
def Reached (r : Moment) : Prop :=
  ∃ (history : History) (s : Session) (source : String) (m : Machine) (n : Nat), s.Reached history ∧
    s.load source = (r.session, some m) ∧ r.machine = m.run r.session.setting n

variable {r r' : Moment}

theorem Reached.next (h : r.Reached) (hnext : r.Next r') : r'.Reached := by
  obtain ⟨history, s, source, m, n, hreached, hload, hmachine⟩ := h
  cases hnext with
  | step =>
    refine ⟨history, s, source, m, n + 1, hreached, hload, ?_⟩
    show r.machine.step r.session.setting = _
    rw [hmachine, Machine.run_succ]
    rfl
  | @entry reporter source' s' m' hload' =>
    have hrun := Session.run_of_load hload n
    rw [← hmachine] at hrun
    exact ⟨_, _, source', m', 0, (hreached.ran hrun).reported reporter, hload', rfl⟩

theorem Reached.later (h : r.Reached) (hlater : r.Later r') : r'.Reached := by
  induction hlater with
  | refl => exact h
  | tail _ hnext ih => exact ih.next hnext

end Moment

/-! ### Sound moments -/

theorem Session.Loads.sound {programs : List (List Stmt)} {s s' : Session} {t : Lexical.State} {source : String} {m : Machine}
    (h : Together programs s t) (hnested : s.state.store.Nested) (hload : s.Loads source s' m) (n : Nat) :
    (m.run s'.setting n).Sound (Visited (s.program source :: programs)) := by
  refine Machine.Sound.run (h.tabled.load hload).fine ⟨⟨_, h.simulates hload⟩, ?_, ?_, ?_⟩ n
  · rw [hload.machine]
    exact hnested
  · rw [hload.machine]
    show s.state.current < _
    rw [h.current]
    exact hnested.root
  · rw [hload.machine]
    trivial

theorem Session.Reached.nested {history : History} {s : Session} (h : s.Reached history) : s.state.store.Nested := by
  induction h with
  | start => exact .initial
  | @ran _ _ _ fuel _ _ h hrun ih =>
    obtain ⟨loaded, m, hload, rfl, -⟩ := Session.load_of_run hrun
    exact ((Session.loads_of_load hload).sound h.together ih fuel).nested
  | rejected _ hrun ih =>
    rw [Session.eq_of_rejected hrun]
    exact ih
  | reported _ _ ih => exact ih

theorem Moment.Reached.sound {r : Moment} (h : r.Reached) :
    ∃ programs, (∀ v, Visited programs v → v.Fine r.session.distances) ∧ r.machine.Sound (Visited programs) := by
  obtain ⟨history, s, source, m, n, hreached, hload, hmachine⟩ := h
  have hloads := Session.loads_of_load hload
  refine ⟨_, (hreached.together.tabled.load hloads).fine, ?_⟩
  rw [hmachine]
  exact hloads.sound hreached.together hreached.nested n

/-! ### The discipline -/

namespace Moment

variable {r r' : Moment}

/-- A further entry begins with the store that the last one has left. -/
theorem machine_of_entry {reporter : Reporter} {source : String} {s : Session} {m : Machine}
    (h : Session.load { r.session with state := r.machine.rest, reporter } source = (s, some m)) :
    ∃ statements, m = .ofProgram statements r.machine.rest :=
  ⟨_, (Session.loads_of_load h).machine⟩

theorem Next.kept (h : r.Next r') : r.store.Kept r'.store := by
  cases h with
  | step => exact Machine.changes_kept (Machine.step_changes _ _)
  | entry hload =>
    obtain ⟨statements, rfl⟩ := machine_of_entry hload
    exact .refl _

theorem Later.kept (h : r.Later r') : r.store.Kept r'.store := by
  induction h with
  | refl => exact .refl _
  | tail _ hnext ih => exact ih.trans hnext.kept

theorem Reached.sealed_next {g : FrameId} {i : InstanceId} (h : r.Reached) (hsealed : r.machine.Sealed g i)
    (hnext : r.Next r') : r'.machine.Sealed g i := by
  cases hnext with
  | step =>
    obtain ⟨programs, hfine, hsound⟩ := h.sound
    exact hsealed.step hfine hsound
  | entry hload =>
    obtain ⟨statements, rfl⟩ := machine_of_entry hload
    exact ⟨hsealed.ne_globals, hsealed.lt, hsealed.bindings, hsealed.ne_globals.symm, trivial⟩

theorem Reached.sealed_later {g : FrameId} {i : InstanceId} (h : r.Reached) (hsealed : r.machine.Sealed g i)
    (hlater : r.Later r') : r'.machine.Sealed g i := by
  induction hlater with
  | refl => exact hsealed
  | tail hbefore hnext ih => exact (h.later hbefore).sealed_next ih hnext

theorem Reached.declares (h : r.Reached) (hnext : r.Next r') {x : String}
    (hbefore : r.store.localValue? Store.globals x = none) (hafter : (r'.store.localValue? Store.globals x).isSome) :
    ∃ rest, r.machine.control.declaration? = some (x, .program rest) := by
  obtain ⟨programs, hfine, hsound⟩ := h.sound
  cases hnext with
  | step =>
    have hbinds := Machine.binds_of_changes (Machine.step_changes r.session.setting r.machine) hsound.nested.root hbefore hafter
    exact hsound.declares hfine hbinds hbefore
  | entry hload =>
    obtain ⟨statements, rfl⟩ := machine_of_entry hload
    have hsame : (r.store.localValue? Store.globals x).isSome := hafter
    rw [hbefore] at hsame
    cases hsame

/-- An assignment to a global name that is not bound fails, and the store stays as it is. -/
theorem assign_unbound {v : Value} {site : Site} {name : Token} {K : ExprStack FrameId}
    (hcontrol : r.machine.control = .give v (.assign site name K)) (hdistance : r.session.distances.get? site = none)
    (hunbound : r.store.localValue? Store.globals name.lexeme = none) :
    (∀ n, (r.machine.run r.session.setting n).state.store = r.store) ∧
      ∃ n, (r.machine.run r.session.setting n).outcome = .failed (.undefinedVariable name) := by
  obtain ⟨session, control, s⟩ := r
  obtain rfl : control = _ := hcontrol
  have hhas : (s.store.frame Store.globals).bindings.has name.lexeme = false := congrArg Option.isSome hunbound
  have htarget : s.target session.setting site name = .error (.undefinedVariable name) := by
    have hnone : session.setting.distances.get? site = none := hdistance
    simp [State.target, hnone, Store.holder?_globals, hhas]
  have hstep : Machine.step session.setting ⟨.give v (.assign site name K), s⟩ =
      ⟨.failExpr (.undefinedVariable name) K, s⟩ := by
    rw [Machine.step, Machine.give, htarget]
  have hrun : ∀ n, Machine.run session.setting (n + 1) ⟨.give v (.assign site name K), s⟩ =
      Machine.run session.setting n ⟨.failExpr (.undefinedVariable name) K, s⟩ := fun n => by
    rw [← hstep]
    rfl
  refine ⟨fun n => ?_, ?_⟩
  · cases n with
    | zero => rfl
    | succ n =>
      show (Machine.run session.setting (n + 1) _).state.store = s.store
      rw [hrun]
      exact Machine.store_run_of_fault rfl n
  · obtain ⟨n, hn⟩ := @Machine.exists_failed_expr session.setting (.undefinedVariable name) K s
    exact ⟨n + 1, (congrArg Machine.outcome (hrun n)).trans hn⟩

/-- How the heap goes on from a moment. -/
structure Disciplined (r : Moment) : Prop where
  /-- Each chain of parents ends at the globals. -/
  rooted : r.store.Rooted
  /-- Nothing is lost, and what a frame lies in, what a function or a class is and what class an instance has is fixed. -/
  kept : ∀ r', r.Later r' → r.store.Kept r'.store
  /-- A new global name is that of a declaration below which there is only the rest of the program. -/
  declared : ∀ r' x, r.Next r' → r.store.localValue? Store.globals x = none →
    (r'.store.localValue? Store.globals x).isSome → ∃ rest, r.machine.control.declaration? = some (x, .program rest)
  /-- An assignment to a global name that is not bound makes the run fail and leaves the store as it is. -/
  unbound : ∀ v site name K, r.machine.control = .give v (.assign site name K) → r.session.distances.get? site = none →
    r.store.localValue? Store.globals name.lexeme = none →
      (∀ n, (r.machine.run r.session.setting n).state.store = r.store) ∧
        ∃ n, (r.machine.run r.session.setting n).outcome = .failed (.undefinedVariable name)
  /-- The frame that is made when a method is bound to an instance holds that instance and nothing else, for good. -/
  receiver : ∀ i, r.machine.receiver? = some i → ∀ r', r.step.Later r' →
    r.store.nextFrame < r'.store.nextFrame ∧
      (r'.store.frame r.store.nextFrame).bindings = [("this", .instanceValue i)]

end Moment

/-- The heap is disciplined at each moment of each session, whatever its entries come to. -/
theorem heap_disciplined {r : Moment} (h : r.Reached) : r.Disciplined := by
  obtain ⟨programs, hfine, hsound⟩ := h.sound
  refine ⟨hsound.nested.rooted, fun r' => Moment.Later.kept, fun r' x hnext => h.declares hnext,
    fun v site name K => Moment.assign_unbound, fun i hreceiver r' hlater => ?_⟩
  have hsealed := @Machine.sealed_of_receiver r.session.setting r.machine i hsound.nested.root hsound.ordered hreceiver
  have hlast := (h.next .step).sealed_later hsealed hlater
  exact ⟨hlast.lt, hlast.bindings⟩

/-- Fetches a method, and then assigns to a name that is not bound. -/
def cupEntry : String :=
  "class Cup \x7b fill() \x7b return this; \x7d \x7d var cup = Cup(); cup.fill; lid = cup;"

def loadedCup : Session × Option Machine :=
  (Session.start ⟨3, fun _ => 0⟩ (.new false false) "").load cupEntry

/-- After twelve steps the method is bound to the only instance, in the second frame of the store; the entry is going to
    fail, and other entries may follow. -/
theorem heap_disciplined_cup :
    ∃ r : Moment, r.Reached ∧ r.machine.receiver? = some 0 ∧ r.store.nextFrame = 1 ∧
      ∀ r', r.step.Later r' → (r'.store.frame 1).bindings = [("this", .instanceValue 0)] := by
  have hvalues : loadedCup.2.map (fun m => ((m.run loadedCup.1.setting 12).receiver?,
      (m.run loadedCup.1.setting 12).state.store.nextFrame)) = some (some 0, 1) := by decide +kernel
  have hload : (Session.start ⟨3, fun _ => 0⟩ (.new false false) "").load cupEntry = loadedCup := by rw [loadedCup]
  generalize loadedCup = result at hvalues hload
  obtain ⟨s, loaded⟩ := result
  obtain ⟨m, hm, hvalues⟩ := Option.map_eq_some_iff.mp hvalues
  cases hm
  obtain ⟨hreceiver, hnext⟩ := Prod.mk.inj hvalues
  have hreached : Moment.Reached ⟨s, m.run s.setting 12⟩ := ⟨[], _, cupEntry, m, 12, .start _ _ _, hload, rfl⟩
  refine ⟨_, hreached, hreceiver, hnext, fun r' hlater => ?_⟩
  have hframe := ((heap_disciplined hreached).receiver 0 hreceiver r' hlater).2
  have hsecond : (Moment.store ⟨s, m.run s.setting 12⟩).nextFrame = 1 := hnext
  rwa [hsecond] at hframe

end LoxLanguage
