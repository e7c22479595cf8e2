import Mathlib
import LoxLanguage.Proofs.Machine.Work
import LoxLanguage.Proofs.Session.Accepted
import LoxLanguage.Proofs.Store.Changes

/-! What holds at each moment of a run of accepted programs: the machine does the same as the reference machine, each
frame lies in an older one, and the frames of the waiting work exist (`Machine.Sound`). From this it follows
where names can be bound. A declaration in the frame of the globals is a statement of the program itself; an assignment
goes to the current frame or to a frame that binds the name, and its name is never `this`. So nothing is ever bound in
the frame in which a method has found its receiver (`Machine.Sealed`). -/

namespace LoxLanguage

open Lexical (Environment)

/-! ### What the reference machine tells -/

section Simulated
variable {P : Visit → Prop} {m : Machine} {m' : Lexical.Machine}

theorem Simulates.plain (h : Simulates P m m') : m.control.Plain := by
  cases h with
  | active _ hc =>
    cases hc with
    | give hK =>
      cases hK with
      | branch _ htrue hfalse _ => exact ⟨htrue, fun statement hs => (hfalse statement hs).2⟩
      | test _ _ hbody _ => exact hbody
      | _ => trivial
    | _ => trivial
  | failing _ hc => cases hc <;> trivial

/-- The frames inside which a step can open another one exist. -/
theorem Simulates.knows_lt (h : Simulates P m m') (hcurrent : m.state.current < m.state.store.frames.size) {f : FrameId}
    (hf : m.state.Knows f) : f < m.state.store.frames.size := by
  obtain ⟨homes, hmatch⟩ := h.matching
  cases hf with
  | current => exact hcurrent
  | @closure f c hc =>
    rcases rel_cases (hmatch.closures.get f) with ⟨hnone, -⟩ | ⟨_, _, hsome, -, hmatches⟩
    · cases hc.symm.trans hnone
    · cases hc.symm.trans hsome
      obtain ⟨scopes, -, hsees, -⟩ := hmatches.place
      exact hsees.lt hmatch.heap.root
  | @method k x c hc =>
    rw [Store.classAt, Array.getD_eq_getD_getElem?] at hc
    rcases rel_cases (hmatch.classes.get k) with ⟨hnone, -⟩ | ⟨_, _, hsome, -, hmatches⟩
    · rw [hnone] at hc
      cases hc
    · rw [hsome] at hc
      rcases rel_cases (hmatches.methods x) with ⟨hnone, -⟩ | ⟨_, _, hmethod, -, hmatches⟩
      · cases hnone.symm.trans hc
      · cases hmethod.symm.trans hc
        obtain ⟨outer, -, hsees⟩ := hmatches.place
        exact hsees.lt hmatch.heap.root

/-- What an assignment finds further out than in the innermost scope is finished. -/
theorem NearlySettled.readable {scopes : List Scope} {x : String} {d : Nat} (h : NearlySettled scopes)
    (hd : scopes.findIdx? (·.has x) = some (d + 1)) : Readable scopes x := by
  refine readable_of_settled h.outer fun scope hscope hfalse => ?_
  cases scopes with
  | nil => cases hscope
  | cons inner outer =>
    cases hscope
    have hhas : scope.has x = true := by
      rw [Bindings.has, hfalse]
      rfl
    rw [List.findIdx?_cons, if_pos hhas] at hd
    cases hd

/-- An assignment goes to the current frame, if that is a local one, or to a frame that binds the name. -/
theorem Simulates.target {setting : Setting} (hfine : ∀ v, P v → v.Fine setting.distances) {v : Value} {site : Site}
    {name : Token} {K : ExprStack FrameId} (h : Simulates P m m') (hcontrol : m.control = .give v (.assign site name K))
    {f : FrameId} (htarget : m.state.target setting site name = .ok f) :
    name.lexeme ≠ "this" ∧
      (f = m.state.current ∧ f ≠ Store.globals ∨ (m.state.store.localValue? f name.lexeme).isSome) := by
  cases h with
  | failing _ hc => cases hc <;> cases hcontrol
  | @active c c' s t homes scopes saved h hc =>
    cases hcontrol
    cases hc with
    | give hK =>
      cases hK with
      | @assign _ _ _ _ value r _ _ hscopes hvisit _ =>
        subst hscopes
        have hself := hfine _ hvisit
        have hdistance : setting.distances.get? site = r.scopes.findIdx? (·.has name.lexeme) := hself.distance site rfl
        refine ⟨hself.proper, ?_⟩
        rw [State.target, hdistance] at htarget
        cases hd : r.scopes.findIdx? (·.has name.lexeme) with
        | none =>
          rw [hd, Store.holder?_globals] at htarget
          by_cases hhas : (s.store.frame Store.globals).bindings.has name.lexeme = true
          · rw [if_pos hhas] at htarget
            cases htarget
            exact .inr hhas
          · rw [if_neg hhas] at htarget
            cases htarget
        | some d =>
          obtain ⟨g, l, scope, hframe, hlocal, -, -, hscope, hbound⟩ := h.stands.sees.at_distance hd
          simp only [hd, hframe, Except.ok.injEq] at htarget
          subst htarget
          cases d with
          | zero => exact .inl ⟨(Option.some.inj hframe).symm, hlocal⟩
          | succ d => exact .inr (hbound (NearlySettled.readable hself.steady hd (d + 1) scope hd hscope))

/-! ### Declarations of the program itself -/

/-- The work behind the statements of a block or a body has a place to return to. -/
theorem not_forall_exit : ∀ (K : StmtStack FrameId) (K' : StmtStack Environment), ¬ ∀ exit, StmtWork P exit [] K K'
  | .program rest, K', h => by cases h [[]]
  | .sequence rest K, K', h => by
    cases h [] with
    | sequence _ hK => exact not_forall_exit K _ hK
  | .again condition body K, K', h => by
    cases K' with
    | again _ _ K' =>
      refine not_forall_exit K K' fun exit => ?_
      cases h exit with
      | again _ _ _ hK => exact hK
    | _ => cases h []
  | .leave f K, K', h => by cases h []
  | .finish f yield K, K', h => by cases h []

theorem StmtWork.eq_program {scopes : List Scope} {K : StmtStack FrameId} {K' : StmtStack Environment}
    (h : StmtWork P scopes [] K K') (hlist : K.isList = true) : ∃ rest, K = .program rest := by
  cases h with
  | @program rest _ => exact ⟨rest, rfl⟩
  | sequence _ hK => exact absurd hK (not_forall_exit _ _)
  | again => cases hlist

theorem Control.declaration?_exec {statement : Stmt} {K K' : StmtStack FrameId} {x : String}
    (h : (Control.exec statement K).declaration? = some (x, K')) : K' = K ∧ statement.declared?.isSome := by
  cases statement with
  | declareVariable name initializer =>
    cases initializer with
    | none =>
      cases h
      exact ⟨rfl, rfl⟩
    | some e => cases h
  | declareFunction f =>
    cases h
    exact ⟨rfl, rfl⟩
  | declareClass name methods =>
    cases h
    exact ⟨rfl, rfl⟩
  | _ => cases h

theorem Control.declaration?_give {v : Value} {K : ExprStack FrameId} {K' : StmtStack FrameId} {x : String}
    (h : (Control.give v K).declaration? = some (x, K')) : ∃ name, K = .declare name K' := by
  cases K with
  | declare name K =>
    cases h
    exact ⟨name, rfl⟩
  | _ => cases h

/-- In the frame of the globals only statements of the program itself declare a name. -/
theorem Simulates.eq_program {p : FrameId → Prop} (h : Simulates P m m') (hordered : m.Ordered p)
    (hcurrent : m.state.current = Store.globals) {x : String} {K : StmtStack FrameId}
    (hdeclaration : m.control.declaration? = some (x, K)) : ∃ rest, K = .program rest := by
  have hwork := hordered.work
  cases h with
  | failing _ hc => cases hc <;> cases hdeclaration
  | @active c c' s t homes scopes saved h hc =>
    -- No frame is older than that of the globals, so there is nothing to return to.
    have hsaved : saved = [] := by
      cases hstacked : saved with
      | nil => rfl
      | cons p rest =>
        have hstack := h.stacked
        rw [hstacked] at hstack
        cases hstack with
        | cons hlt _ _ _ => exact absurd (hcurrent ▸ hlt) (Nat.not_lt_zero _)
    subst hsaved
    cases hc with
    | exec _ hK =>
      obtain ⟨rfl, hsome⟩ := Control.declaration?_exec hdeclaration
      exact hK.eq_program (hwork.1 hsome)
    | give hK =>
      obtain ⟨name, rfl⟩ := Control.declaration?_give hdeclaration
      cases hK with
      | declare _ hK => exact hK.eq_program hwork.1
    | eval => cases hdeclaration
    | ended => cases hdeclaration

end Simulated

/-! ### Sound machines -/

namespace Machine

/-- What holds of the machine at each moment. -/
structure Sound (P : Visit → Prop) (m : Machine) : Prop where
  simulates : ∃ m' : Lexical.Machine, Simulates P m m'
  nested : m.state.store.Nested
  ordered : m.Ordered (· < m.state.store.frames.size)

section Sound
variable {P : Visit → Prop} {distances : Distances} {host : Host} {m : Machine}

theorem Sound.step (hfine : ∀ v, P v → v.Fine distances) (h : m.Sound P) :
    (m.step ⟨distances, host.callLimit, host.clock⟩).Sound P := by
  obtain ⟨⟨m', hsimulates⟩, hnested, hordered⟩ := h
  have hchanges := step_changes ⟨distances, host.callLimit, host.clock⟩ m
  have hsize := (changes_kept hchanges).size_le
  obtain ⟨hcurrent, hwork⟩ := @Ordered.step _ ⟨distances, host.callLimit, host.clock⟩ m hordered hsimulates.plain
  refine ⟨⟨_, hsimulates.step hfine⟩, changes_nested hnested (fun f => hsimulates.knows_lt hordered.current) hchanges, ?_, ?_⟩
  · rcases hcurrent with hlt | ⟨-, hlast⟩
    · exact Nat.lt_of_lt_of_le hlt hsize
    · exact Nat.lt_of_lt_of_eq (Nat.lt_succ_self _) hlast
  · exact Control.ordered_mono (fun f hf => Nat.lt_of_lt_of_le hf hsize) _ hwork

theorem Sound.run (hfine : ∀ v, P v → v.Fine distances) (h : m.Sound P) (n : Nat) :
    (m.run ⟨distances, host.callLimit, host.clock⟩ n).Sound P := by
  induction n generalizing m with
  | zero => exact h
  | succ n ih =>
    rw [Machine.run]
    split
    · exact h
    · exact ih (h.step hfine)

/-- A name that is new among the globals is declared by the program itself. -/
theorem Sound.declares (hfine : ∀ v, P v → v.Fine distances) (h : m.Sound P) {x : String}
    (hbinds : m.Binds ⟨distances, host.callLimit, host.clock⟩ Store.globals x)
    (hnew : m.state.store.localValue? Store.globals x = none) : ∃ rest, m.control.declaration? = some (x, .program rest) := by
  obtain ⟨m', hsimulates⟩ := h.simulates
  generalize hg : Store.globals = g at hbinds
  cases hbinds with
  | @declaration _ K hdeclaration =>
    obtain ⟨rest, rfl⟩ := hsimulates.eq_program h.ordered hg.symm hdeclaration
    exact ⟨rest, hdeclaration⟩
  | assignment hcontrol htarget =>
    subst hg
    rcases (hsimulates.target hfine hcontrol htarget).2 with ⟨-, hlocal⟩ | hbound
    · exact absurd rfl hlocal
    · rw [hnew] at hbound
      cases hbound

end Sound

end Machine

/-! ### Receivers -/

/-- The instance of which a method is fetched. -/
def Store.fetched? (store : Store) (object : Value) (name : String) : Option InstanceId :=
  match object with
  | .instanceValue i =>
    match (store.instanceAt i).fields.get? name with
    | some _ => none
    | none => ((store.classOf i).methods.get? name).map fun _ => i
  | _ => none

/-- The instance that a call makes and hands to an initializer. -/
def Store.constructed? (store : Store) (callee : Value) (arguments : Nat) : Option InstanceId :=
  match callee with
  | .classValue k =>
    match (store.classAt k).methods.get? Function.initializerName with
    | some initializer => if arguments = initializer.arity then some store.instances.size else none
    | none => none
  | _ => none

namespace Machine

/-- The instance to which the step binds a method: that of which a method is fetched, or a new one whose class has an
    initializer. -/
def receiver? (m : Machine) : Option InstanceId :=
  match m.control with
  | .give object (.get name _) => m.state.store.fetched? object name.lexeme
  | .give callee (.callee _ [] _) => m.state.store.constructed? callee 0
  | .give _ (.argument callee given _ [] _) => m.state.store.constructed? callee (given.size + 1)
  | _ => none

/-- The frame binds `this` to the instance and nothing else, and is not one to which the machine comes back. -/
structure Sealed (g : FrameId) (i : InstanceId) (m : Machine) : Prop where
  ne_globals : g ≠ Store.globals
  lt : g < m.state.store.frames.size
  bindings : (m.state.store.frame g).bindings = [("this", .instanceValue i)]
  ordered : m.Ordered (· ≠ g)

section Sealed
variable {P : Visit → Prop} {distances : Distances} {setting : Setting} {host : Host} {s : State} {m : Machine} {i : InstanceId}

theorem sealed_callClass {k : ClassId} {arguments : List Value} {paren : Token} {K : ExprStack FrameId}
    (hroot : Store.globals < s.store.frames.size) (hcurrent : s.current < s.store.frames.size)
    (hK : K.Ordered (· < s.store.frames.size)) (h : s.store.constructed? (.classValue k) arguments.length = some i) :
    Sealed s.store.nextFrame i (callClass setting k arguments paren K s) := by
  have hne : s.store.nextFrame ≠ Store.globals := Nat.ne_of_gt hroot
  have hne' : s.current ≠ s.store.nextFrame := Nat.ne_of_lt hcurrent
  have hwork : K.Ordered (· ≠ s.store.nextFrame) := K.ordered_mono (fun f hf => Nat.ne_of_lt hf) hK
  rw [Store.constructed?] at h
  cases hinitializer : (s.store.classAt k).methods.get? Function.initializerName with
  | none =>
    rw [hinitializer] at h
    cases h
  | some initializer =>
    rw [hinitializer] at h
    by_cases harity : arguments.length = initializer.arity
    · simp only [if_pos harity, Option.some.injEq] at h
      subst h
      simp only [callClass, hinitializer, if_pos harity, enterBody]
      have hsize : ((s.store.newInstance k).newFrame (some initializer.scope)
          [("this", .instanceValue s.store.instances.size)]).frames.size = s.store.frames.size + 1 := Store.size_newFrame
      have hmade : ((s.store.newInstance k).newFrame (some initializer.scope)
          [("this", .instanceValue s.store.instances.size)]).frame s.store.nextFrame = ⟨_, _⟩ := Store.frame_newFrame_self
      generalize (s.store.newInstance k).newFrame (some initializer.scope)
        [("this", .instanceValue s.store.instances.size)] = made at hsize hmade
      have hlast : s.store.nextFrame ≠ made.frames.size := by
        rw [hsize]
        exact Nat.ne_of_lt (Nat.lt_succ_self _)
      -- The frame of the receiver is there whether or not there is room for the call.
      split
      · refine ⟨hne, ?_, ?_, hlast.symm, hne', hwork⟩
        · show s.store.nextFrame < (made.newFrame _ _).frames.size
          rw [Store.size_newFrame, hsize]
          exact Nat.lt_succ_of_lt (Nat.lt_succ_self _)
        · show ((made.newFrame _ _).frame s.store.nextFrame).bindings = _
          rw [Store.frame_newFrame_of_ne hlast, hmade]
      · refine ⟨hne, ?_, ?_, hne', hwork⟩
        · exact Nat.lt_of_lt_of_eq (Nat.lt_succ_self _) hsize.symm
        · exact congrArg Frame.bindings hmade
    · simp only [if_neg harity] at h
      cases h

theorem sealed_call {callee : Value} {arguments : List Value} {paren : Token} {K : ExprStack FrameId}
    (hroot : Store.globals < s.store.frames.size) (hcurrent : s.current < s.store.frames.size)
    (hK : K.Ordered (· < s.store.frames.size)) (h : s.store.constructed? callee arguments.length = some i) :
    Sealed s.store.nextFrame i (call setting callee arguments paren K s) := by
  cases callee with
  | classValue k => exact sealed_callClass hroot hcurrent hK h
  | _ => cases h

theorem sealed_property {j : InstanceId} {name : Token} {K : ExprStack FrameId}
    (hroot : Store.globals < s.store.frames.size) (hcurrent : s.current < s.store.frames.size)
    (hK : K.Ordered (· < s.store.frames.size)) (h : s.store.fetched? (.instanceValue j) name.lexeme = some i) :
    Sealed s.store.nextFrame i (property j name K s) := by
  rw [Store.fetched?] at h
  unfold property
  cases hfield : (s.store.instanceAt j).fields.get? name.lexeme with
  | some v =>
    rw [hfield] at h
    cases h
  | none =>
    rw [hfield] at h
    cases hmethod : (s.store.classOf j).methods.get? name.lexeme with
    | none =>
      rw [hmethod] at h
      cases h
    | some method =>
      rw [hmethod] at h
      cases h
      refine ⟨Nat.ne_of_gt hroot, ?_, ?_, Nat.ne_of_lt hcurrent, K.ordered_mono (fun f hf => Nat.ne_of_lt hf) hK⟩
      · exact Nat.lt_of_lt_of_eq (Nat.lt_succ_self _) Store.size_newFrame.symm
      · exact congrArg Frame.bindings Store.frame_newFrame_self

/-- The frame of a receiver is sealed from the step on that makes it. -/
theorem sealed_of_receiver (hroot : Store.globals < m.state.store.frames.size)
    (hordered : m.Ordered (· < m.state.store.frames.size)) (h : m.receiver? = some i) :
    (m.step setting).Sealed m.state.store.nextFrame i := by
  obtain ⟨control, s⟩ := m
  obtain ⟨hcurrent, hwork⟩ := hordered
  cases control with
  | give v K =>
    cases K with
    | get name K =>
      cases v with
      | instanceValue j => exact sealed_property hroot hcurrent hwork h
      | _ => cases h
    | callee paren arguments K =>
      cases arguments with
      | nil => exact sealed_call hroot hcurrent hwork h
      | cons e rest => cases h
    | argument callee given paren rest K =>
      cases rest with
      | nil =>
        refine sealed_call hroot hcurrent hwork ?_
        rw [Array.length_toList, Array.size_push]
        exact h
      | cons e rest => cases h
    | _ => cases h
  | _ => cases h

/-- No step binds a name in a sealed frame. -/
theorem Sealed.not_binds {g : FrameId} (hfine : ∀ v, P v → v.Fine setting.distances) (hsound : m.Sound P) (h : m.Sealed g i)
    (x : String) : ¬ m.Binds setting g x := by
  obtain ⟨m', hsimulates⟩ := hsound.simulates
  intro hbinds
  cases hbinds with
  | declaration _ => exact h.ordered.current rfl
  | @assignment _ _ name _ _ hcontrol htarget =>
    obtain ⟨hname, ⟨hcurrent, -⟩ | hbound⟩ := hsimulates.target hfine hcontrol htarget
    · exact h.ordered.current hcurrent.symm
    · rw [Store.localValue?, h.bindings, Bindings.get?_cons, if_neg hname] at hbound
      cases hbound

theorem Sealed.step {g : FrameId} (hfine : ∀ v, P v → v.Fine setting.distances) (hsound : m.Sound P) (h : m.Sealed g i) :
    (m.step setting).Sealed g i := by
  have hchanges := step_changes setting m
  obtain ⟨m', hsimulates⟩ := hsound.simulates
  obtain ⟨hcurrent, hwork⟩ := @Ordered.step _ setting m h.ordered hsimulates.plain
  refine ⟨h.ne_globals, Nat.lt_of_lt_of_le h.lt (changes_kept hchanges).size_le, ?_, ?_, hwork⟩
  · rw [changes_frame_eq hchanges h.lt (h.not_binds hfine hsound)]
    exact h.bindings
  · rcases hcurrent with hne | ⟨hle, -⟩
    · exact hne
    · exact Nat.ne_of_gt (Nat.lt_of_lt_of_le h.lt hle)

end Sealed

end Machine

end LoxLanguage
