import Mathlib
import LoxLanguage.Proofs.Lexical.Receivers
import LoxLanguage.Proofs.Session.Discipline

/-! Instances and their methods over whole sessions. At each moment that can be reached a class makes a new instance of
itself, an initializer answers with the instance of which it was fetched, and `this` is the instance to which the body
belongs that runs (`receivers_faithful`). Which one that is, is noted from the first entry on (`Moment.Traced`),
without looking at frames or at what names are bound to. -/

namespace LoxLanguage

open Machine (FirstAt)

/-! ### Traced moments -/

namespace Moment

/-- The instances to which bodies and function values belong at a moment, noted from the beginning of the session on. -/
inductive Traced : Moment → Provenance → Prop where
  | first {host : Host} {reporter : Reporter} {path source : String} {s : Session} {m : Machine}
      (hload : (Session.start host reporter path).load source = (s, some m)) : Traced ⟨s, m⟩ .start
  | step {r : Moment} {p : Provenance} (h : Traced r p) :
      Traced r.step (p.step r.machine.control r.machine.state.tally r.step.machine.state.tally)
  | entry {r : Moment} {p : Provenance} {reporter : Reporter} {source : String} {s : Session} {m : Machine} (h : Traced r p)
      (hload : Session.load { r.session with state := r.machine.rest, reporter } source = (s, some m)) :
      Traced ⟨s, m⟩ p.entry

theorem Traced.run {s : Session} {m : Machine} {p : Provenance} (h : Traced ⟨s, m⟩ p) (n : Nat) :
    ∃ q, Traced ⟨s, m.run s.setting n⟩ q := by
  induction n with
  | zero => exact ⟨p, h⟩
  | succ n ih =>
    obtain ⟨q, hq⟩ := ih
    rw [Machine.run_succ]
    exact ⟨_, hq.step⟩

end Moment

theorem Session.Reached.traced {history : History} {s : Session} (h : s.Reached history) :
    ∀ {reporter : Reporter} {source : String} {s' : Session} {m : Machine},
      Session.load { s with reporter } source = (s', some m) → ∃ p, Moment.Traced ⟨s', m⟩ p := by
  induction h with
  | start host reporter path => exact fun hload => ⟨_, .first hload⟩
  | ran _ hrun ih =>
    obtain ⟨loaded, m, hload, rfl, -⟩ := Session.load_of_run hrun
    obtain ⟨p, hp⟩ := ih hload
    obtain ⟨q, hq⟩ := hp.run _
    exact fun hload => ⟨_, hq.entry hload⟩
  | rejected _ hrun ih =>
    rw [Session.eq_of_rejected hrun]
    exact ih
  | reported _ _ ih => exact ih

/-- Every moment that comes about is traced. -/
theorem Moment.Reached.traced {r : Moment} (h : r.Reached) : ∃ p, r.Traced p := by
  obtain ⟨history, s, source, m, n, hreached, hload, hmachine⟩ := h
  obtain ⟨p, hp⟩ := hreached.traced hload
  have htraced := hp.run n
  rw [← hmachine] at htraced
  exact htraced

/-! ### Attributions -/

/-- The reference machine at a traced moment: its environments know the instances that are noted. -/
structure Moment.Attribution (r : Moment) (p : Provenance) (programs : List (List Stmt)) (m' : Lexical.Machine)
    (labels : Labels) : Prop where
  tabled : Tabled programs r.session.distances r.session.nextSite
  keeps : ∀ v, Visited programs v → v.KeepsThis
  simulates : Simulates (Visited programs) r.machine m'
  attributed : m'.Attributed labels p

/-- An entry begins outside of all bodies. -/
theorem Together.attribution {programs : List (List Stmt)} {s s' : Session} {t : Lexical.State} {source : String}
    {m : Machine}
    {p : Provenance} {labels : Labels} (h : Together programs s t) (hkeeps : ∀ v, Visited programs v → v.KeepsThis)
    (hvalues : t.Values labels p.functions) (hdepth : t.depth = 0) (hload : s.load source = (s', some m)) :
    Moment.Attribution ⟨s', m⟩ p.entry (s.program source :: programs) (.ofProgram (s.program source) t) labels := by
  have hloads := Session.loads_of_load hload
  refine ⟨h.tabled.load hloads, ?_, h.simulates hloads, ⟨hvalues, ?_, hdepth.symm⟩, rfl⟩
  · rintro v ⟨program, hmem, hv⟩
    rcases List.mem_cons.mp hmem with rfl | hmem
    · exact keepsThis_of_quiet (scan_regular source) hloads.orderly hloads.quiet v hv
    · exact hkeeps v ⟨program, hmem, hv⟩
  · show t.environment.Attributed labels t.cells none
    rw [h.environment]
    exact .top

theorem Lexical.State.values_initial (labels : Labels) (functions : ClosureId → Option InstanceId) :
    State.initial.Values labels functions :=
  ⟨nofun, nofun⟩

theorem Moment.Attribution.together {r : Moment} {p : Provenance} {programs : List (List Stmt)} {m' : Lexical.Machine}
    {labels : Labels} (h : r.Attribution p programs m' labels) (reporter : Reporter) :
    Together programs { r.session with state := r.machine.rest, reporter } m'.rest := by
  obtain ⟨homes, hmatch⟩ := h.simulates.matching
  exact ⟨h.tabled, ⟨homes, hmatch.moved _ _ rfl⟩, rfl, rfl⟩

theorem Moment.Traced.attribution {r : Moment} {p : Provenance} (h : r.Traced p) :
    ∃ programs m' labels, r.Attribution p programs m' labels := by
  induction h with
  | @first host reporter path _ _ _ hload =>
    have hvalues : Lexical.State.initial.Values (fun _ => "") Provenance.start.functions :=
      Lexical.State.values_initial _ _
    refine ⟨_, _, _, (Together.start host reporter path).attribution (p := .start) ?_ hvalues rfl hload⟩
    rintro v ⟨program, hmem, -⟩
    cases hmem
  | @step r p _ ih =>
    obtain ⟨programs, m', labels, htabled, hkeeps, hsimulates, hattributed⟩ := ih
    have hcontinues : Lexical.Machine.Continues m'.control m'.state p (m'.step r.session.host) :=
      hsimulates.continues htabled.fine hkeeps hattributed
    obtain ⟨labels', hstep⟩ := hcontinues
    have hsimulates' : Simulates (Visited programs) r.step.machine (m'.step r.session.host) :=
      hsimulates.step htabled.fine
    rw [hsimulates.step_provenance, hsimulates'.tally] at hstep
    exact ⟨programs, _, labels', htabled, hkeeps, hsimulates', hstep⟩
  | @entry r p reporter _ _ _ _ hload ih =>
    obtain ⟨programs, m', labels, h⟩ := ih
    have hvalues : m'.rest.Values labels p.functions := h.attributed.state.values.retained rfl rfl (.refl labels _)
    exact ⟨_, _, _, (h.together reporter).attribution h.keeps hvalues rfl hload⟩

/-! ### Instances and their methods -/

namespace Moment

theorem later_run (r : Moment) (n : Nat) : r.Later ⟨r.session, r.machine.run r.session.setting n⟩ := by
  induction n with
  | zero => exact .refl
  | succ n ih =>
    rw [Machine.run_succ]
    exact ih.tail .step

/-- How instances, their initializers and `this` go together from a moment on. -/
structure Faithful (r : Moment) : Prop where
  /-- A class that is called and answers without an error answers with a new instance of itself. -/
  created : ∀ k arguments K n w, r.machine.control.call? = some ⟨.classValue k, arguments, K⟩ →
    FirstAt r.session.setting r.machine (Control.Answers K) n →
    (r.machine.run r.session.setting n).control = .give w K →
      ∃ i o, w = .instanceValue i ∧ r.store.instances.size ≤ i ∧
        (r.machine.run r.session.setting n).state.store.instances[i]? = some o ∧ o.classId = k
  /-- An initializer that is fetched of an instance is a new function value. Whenever and wherever this is called, if it
      answers without an error it answers with the instance, whatever its body has returned. -/
  initialized : ∀ i name J, r.machine.control = .give (.instanceValue i) (.get name J) →
    name.lexeme = Function.initializerName → r.store.fetched? (.instanceValue i) name.lexeme = some i →
      r.step.machine.control = .give (.closure r.store.closures.size) J ∧
      ∀ r', r.step.Later r' → ∀ arguments K n w,
        r'.machine.control.call? = some ⟨.closure r.store.closures.size, arguments, K⟩ →
        FirstAt r'.session.setting r'.machine (Control.Answers K) n →
        (r'.machine.run r'.session.setting n).control = .give w K → w = .instanceValue i
  /-- The moment is traced, and `this` is the instance to which the body belongs that runs. -/
  traced : ∃ p, r.Traced p
  this : ∀ p, r.Traced p → ∀ site keyword K, r.machine.control = .eval (.this site keyword) K →
    ∃ i, p.current = some i ∧ r.step.machine = ⟨.give (.instanceValue i) K, r.machine.state⟩

/-- What is fetched by the name of initializers is an initializer. -/
theorem Traced.isInitializer {r : Moment} {p : Provenance} (h : r.Traced p) {i : InstanceId} {method : Closure}
    (hmethod : (r.store.classOf i).methods.get? Function.initializerName = some method) : method.isInitializer = true := by
  obtain ⟨programs, m', labels, hattribution⟩ := h.attribution
  obtain ⟨homes, hmatch⟩ := hattribution.simulates.matching
  rcases rel_cases ((hmatch.classOf i).methods Function.initializerName) with ⟨hnone, -⟩ | ⟨c, c', hsome, hsome', hmatches⟩
  · cases hnone.symm.trans hmethod
  · cases hsome.symm.trans hmethod
    obtain ⟨-, hname, hinitializer⟩ := hattribution.attributed.state.values.methods _ _ c' hsome'
    rw [← hmatches.isInitializer, hinitializer, Function.isInitializer, hname]
    exact beq_self_eq_true _

/-- An initializer that is fetched of an instance is a new function value that knows the instance. -/
theorem Reached.fetches {r : Moment} (h : r.Reached) {i : InstanceId} {name : Token} {J : ExprStack FrameId}
    (hcontrol : r.machine.control = .give (.instanceValue i) (.get name J)) (hname : name.lexeme = Function.initializerName)
    (hfetched : r.store.fetched? (.instanceValue i) name.lexeme = some i) :
    r.step.machine.control = .give (.closure r.store.closures.size) J ∧
      ∃ closure, r.step.store.closures[r.store.closures.size]? = some closure ∧ closure.isInitializer = true ∧
        r.step.machine.Sealed closure.scope i := by
  obtain ⟨p, htraced⟩ := h.traced
  obtain ⟨programs, hfine, hsound⟩ := h.sound
  have hreceiver : r.machine.receiver? = some i := by
    rw [Machine.receiver?, hcontrol]
    exact hfetched
  have hsealed : r.step.machine.Sealed r.store.nextFrame i :=
    Machine.sealed_of_receiver hsound.nested.root hsound.ordered hreceiver
  obtain ⟨session, control, s⟩ := r
  obtain rfl : control = .give (.instanceValue i) (.get name J) := hcontrol
  dsimp only [Store.fetched?, store] at hfetched
  split at hfetched
  · cases hfetched
  · rename_i hfields
    obtain ⟨method, hmethod, -⟩ := Option.map_eq_some_iff.mp hfetched
    have hinitializer := htraced.isInitializer (hname ▸ hmethod)
    have hstep : Machine.step session.setting ⟨.give (.instanceValue i) (.get name J), s⟩ =
        ⟨.give (.closure s.store.closures.size) J,
          { s with
            store := (s.store.newFrame (some method.scope) [("this", .instanceValue i)]).newClosure
              { method with scope := s.store.nextFrame } }⟩ := by
      show Machine.property i name J s = _
      simp only [Machine.property, hfields, hmethod]
    dsimp only [step, store] at hsealed ⊢
    rw [hstep] at hsealed ⊢
    exact ⟨rfl, _, Array.getElem?_push_size, hinitializer, hsealed⟩

end Moment

/-- Classes, initializers and methods keep to their instances, at each moment of each session and whatever its entries come
    to. -/
theorem receivers_faithful {r : Moment} (h : r.Reached) : r.Faithful where
  created k arguments K n w hcall hfirst hgive := by
    obtain ⟨rfl, o, ho, hclass⟩ := Machine.answer_of_class hcall hfirst hgive
    exact ⟨_, o, rfl, Nat.le_refl _, ho, hclass⟩
  initialized i name J hcontrol hname hfetched := by
    obtain ⟨hstep, closure, hclosure, hinitializer, hsealed⟩ := h.fetches hcontrol hname hfetched
    refine ⟨hstep, fun r' hlater arguments K n w hcall hfirst hgive => ?_⟩
    have hkept := hlater.kept.closures _ closure hclosure
    obtain ⟨k, -, rfl⟩ := Machine.answer_of_initializer hcall hkept hinitializer hfirst hgive
    -- The frame of the receiver is as it was when the method was fetched, also at the end of the body.
    have hsealed' := (h.next .step).sealed_later hsealed (hlater.trans (r'.later_run k))
    rw [Store.localValue?, hsealed'.bindings]
    rfl
  traced := h.traced
  this p hp site keyword K hcontrol := by
    obtain ⟨programs, m', labels, hattribution⟩ := hp.attribution
    exact hattribution.simulates.step_this hattribution.tabled.fine hattribution.keeps hattribution.attributed hcontrol

/-- Keeps a method of a second instance in a field of the first, calls it there, and calls the function that it returns. -/
def lentEntry : String :=
  "class A \x7b m() \x7b fun f() \x7b return this; \x7d return f; \x7d \x7d var b = A(); b.g = A().m; b.g()();"

def loadedLent : Session × Option Machine :=
  (Session.start ⟨3, fun _ => 0⟩ (.new false false) "").load lentEntry

/-- Whether `this` is about to be evaluated. -/
def Control.readsThis : Control FrameId → Bool
  | .eval (.this _ _) _ => true
  | _ => false

/-- The value that is handed on. -/
def Control.given? : Control FrameId → Option Value
  | .give v _ => some v
  | _ => none

/-- After 39 steps the method has returned, and `this` is evaluated in the function that was declared in it. -/
theorem receivers_faithful_lent :
    ∃ (r : Moment) (p : Provenance) (site : Site) (keyword : Token) (K : ExprStack FrameId), r.Reached ∧ r.Traced p ∧
      r.machine.control = .eval (.this site keyword) K ∧
      p.current = some 1 ∧ r.step.machine = ⟨.give (.instanceValue 1) K, r.machine.state⟩ := by
  have hvalues : loadedLent.2.map (fun m => ((m.run loadedLent.1.setting 39).control.readsThis,
      (m.run loadedLent.1.setting 40).control.given?)) = some (true, some (.instanceValue 1)) := by decide +kernel
  have hload : (Session.start ⟨3, fun _ => 0⟩ (.new false false) "").load lentEntry = loadedLent := by rw [loadedLent]
  generalize loadedLent = result at hvalues hload
  obtain ⟨s, loaded⟩ := result
  obtain ⟨m, hm, hvalues⟩ := Option.map_eq_some_iff.mp hvalues
  cases hm
  obtain ⟨hthis, hgiven⟩ := Prod.mk.inj hvalues
  have hreached : Moment.Reached ⟨s, m.run s.setting 39⟩ := ⟨[], _, lentEntry, m, 39, .start _ _ _, hload, rfl⟩
  have hfaithful := receivers_faithful hreached
  obtain ⟨p, hp⟩ := hfaithful.traced
  unfold Control.readsThis at hthis
  split at hthis
  · rename_i site keyword K hcontrol
    obtain ⟨i, hi, hstep⟩ := hfaithful.this p hp site keyword K hcontrol
    have hnext : m.run s.setting 40 = ⟨.give (.instanceValue i) K, (m.run s.setting 39).state⟩ :=
      (Machine.run_succ m 39).trans hstep
    rw [hnext] at hgiven
    cases hgiven
    exact ⟨_, p, site, keyword, K, hreached, hp, hcontrol, hi, hstep⟩
  · cases hthis

end LoxLanguage
