import Mathlib
import LoxLanguage.Proofs.Machine.Initializers
import LoxLanguage.Proofs.Session.Accepted

/-! Accepted programs fail in no other way than by an error of their own. At each moment of a run, the frames from the
current one outward lie one to one against the scopes that the resolver had at the node that is evaluated
(`Store.Aligned`), so each use that has a distance finds its frame and what is bound there, and the machine
never comes to an operator or a receiver that it does not know. -/

namespace LoxLanguage

open Lexical (Environment)

/-- The chain of frames from `f` to the globals is one longer than a list of scopes, and the frame of each scope is a
    local one that binds the finished names of the scope. -/
structure Store.Aligned (store : Store) (scopes : List Scope) (f : FrameId) : Prop where
  length : store.ancestor? (scopes.length + 1) f = some none
  outermost : store.frameAt? scopes.length f = some Store.globals
  frames : ∀ (d : Nat) scope, scopes[d]? = some scope → ∃ g, store.frameAt? d f = some g ∧ g ≠ Store.globals ∧
    ∀ x, scope.get? x = some true → (store.localValue? g x).isSome

/-- A frame inside the frames of the outer scopes. -/
theorem Store.Aligned.cons {store : Store} {scope : Scope} {outer : List Scope} {f parent : FrameId}
    (h : store.Aligned outer parent) (hne : f ≠ Store.globals) (hparent : (store.frame f).parent = some parent)
    (hbound : ∀ x, scope.get? x = some true → (store.localValue? f x).isSome) : store.Aligned (scope :: outer) f := by
  have hascend : ∀ d, store.ancestor? (d + 1) f = store.ancestor? d parent := fun d => by
    rw [Store.ancestor?, Store.ascend, hparent]
    rfl
  have hframe : ∀ d, store.frameAt? (d + 1) f = store.frameAt? d parent := fun d => by
    rw [Store.frameAt?, hascend]
    rfl
  refine ⟨(hascend _).trans h.length, (hframe _).trans h.outermost, fun d scope' hscope => ?_⟩
  cases d with
  | zero =>
    cases hscope
    exact ⟨f, rfl, hne, hbound⟩
  | succ d =>
    obtain ⟨g, hg, hlocal, hbound'⟩ := h.frames d scope' hscope
    exact ⟨g, (hframe d).trans hg, hlocal, hbound'⟩

theorem Sees.aligned {store : Store} {homes : Homes} {scopes : List Scope} {f : FrameId} {environment : Environment}
    (h : Sees store homes scopes f environment) (hroot : (store.frame Store.globals).parent = none) :
    store.Aligned scopes f := by
  induction h with
  | top => exact ⟨congrArg some hroot, rfl, nofun⟩
  | inner hne _ hparent _ _ _ hbound ih => exact ih.cons hne hparent hbound

/-- What the machine relies on when it is about to take a step. A node is one that the resolver has visited, in scopes that
    match the frames. A name that is read at a distance is bound there, in a local frame; an assignment at a
    distance is to a local frame. No operator is unknown. A call of an initializer finds its receiver: in the scope of the
    function value, and where a class makes the call, in the frame around that of the body. -/
def Control.Supported (programs : List (List Stmt)) (distances : Distances) (s : State) : Control FrameId → Prop
  | .eval e _ =>
    (∃ r, Visited programs (.expr e r) ∧ s.store.Aligned r.scopes s.current) ∧
      ∀ site name d, e = .use site name ∨ e = .this site name → distances.get? site = some d →
        ∃ g v, s.store.frameAt? d s.current = some g ∧ g ≠ Store.globals ∧
          s.store.valueAt d s.current name.lexeme = .ok v
  | .exec statement _ => ∃ r, Visited programs (.stmt statement r) ∧ s.store.Aligned r.scopes s.current
  | .give _ (.assign site _ _) =>
    ∀ d, distances.get? site = some d → ∃ g, s.store.frameAt? d s.current = some g ∧ g ≠ Store.globals
  | .give v (.unary operator _) =>
    ∀ error, Operators.unary operator v = .error error → error.cause.isInternal = false
  | .give w (.binaryRight v operator _) =>
    ∀ error, Operators.binary operator v w = .error error → error.cause.isInternal = false
  | .ended _ (.finish _ (.receiver g) _) => (s.store.localValue? g "this").isSome
  | .ended _ (.finish _ (.created _) _) =>
    ∃ g, (s.store.frame s.current).parent = some g ∧ (s.store.localValue? g "this").isSome
  | _ => True

/-- What holds at each moment of a run of accepted programs. If the run has ended, it is complete or has come to an error
    of the program. -/
structure Machine.Safe (programs : List (List Stmt)) (distances : Distances) (m : Machine) : Prop where
  supported : m.control.Supported programs distances m.state
  outcome : m.outcome = .unfinished ∨ m.outcome = .completed ∨
    ∃ error, m.outcome = .failed (.runtime error) ∧ error.cause.isInternal = false

section Safe
variable {P : Visit → Prop} {programs : List (List Stmt)} {distances : Distances} {scopes : List Scope}
  {saved : List Saved} {homes : Homes} {s : State} {t : Lexical.State}

theorem Expr.Occurs.visited {e : Expr} (h : e.Occurs P scopes) : ∃ r : Resolution, r.scopes = scopes ∧ P (.expr e r) := by
  obtain ⟨r, hscopes, hvisits⟩ := h
  cases e with
  | assign site name value =>
    have hself := (List.forall_mem_append.mp hvisits).2
    exact ⟨value.resolve r, (value.resolve_scopes r).trans hscopes, List.forall_mem_singleton.mp hself⟩
  | _ => exact ⟨r, hscopes, hvisits _ List.mem_cons_self⟩

theorem Stmt.Occurs.visited {statement : Stmt} (h : statement.Occurs P scopes) :
    ∃ r : Resolution, r.scopes = scopes ∧ P (.stmt statement r) := by
  obtain ⟨r, hscopes, hvisits⟩ := h
  cases statement <;> exact ⟨r, hscopes, hvisits _ List.mem_cons_self⟩

/-- A name that is read at a distance is bound there. -/
theorem Agrees.bound_at (h : Agrees P homes scopes saved s t) {name : Token} {d : Nat}
    (hd : scopes.findIdx? (·.has name.lexeme) = some d) (hreadable : Readable scopes name.lexeme) :
    ∃ g v, s.store.frameAt? d s.current = some g ∧ g ≠ Store.globals ∧
      s.store.valueAt d s.current name.lexeme = .ok v := by
  obtain ⟨g, l, scope, hframe, hlocal, -, -, hscope, hbound⟩ := h.stands.sees.at_distance hd
  obtain ⟨v, hv⟩ := Option.isSome_iff_exists.mp (hbound (hreadable d scope hd hscope))
  refine ⟨g, v, hframe, hlocal, ?_⟩
  simp only [Store.valueAt, hframe, hv]

theorem Agrees.supported_eval (hfine : ∀ v, Visited programs v → v.Fine distances)
    (h : Agrees (Visited programs) homes scopes saved s t) {e : Expr} (he : e.Occurs (Visited programs) scopes)
    (K : ExprStack FrameId) : Control.Supported programs distances s (.eval e K) := by
  obtain ⟨r, rfl, hvisit⟩ := he.visited
  refine ⟨⟨r, hvisit, h.stands.sees.aligned h.matching.heap.orphan⟩, fun site name d hform hd => ?_⟩
  rcases hform with rfl | rfl
  · have hself := hfine _ hvisit
    exact h.bound_at ((hself.distance site rfl).symm.trans hd) hself.use_readable
  · have hself := hfine _ hvisit
    exact h.bound_at ((hself.distance site rfl).symm.trans hd) hself.this_readable

theorem Agrees.supported_give (hfine : ∀ v, Visited programs v → v.Fine distances)
    (h : Agrees (Visited programs) homes scopes saved s t) {K : ExprStack FrameId} {K' : ExprStack Environment}
    (hK : ExprWork (Visited programs) scopes saved K K') (v : Value) :
    Control.Supported programs distances s (.give v K) := by
  cases hK with
  | unary hoperator _ => exact fun _ => Operators.unary_ordinary hoperator
  | binaryRight hoperator _ => exact fun _ => Operators.binary_ordinary hoperator
  | @assign _ _ site _ _ _ _ _ hscopes hvisit _ =>
    subst hscopes
    intro d hd
    have hdistance := (hfine _ hvisit).distance site rfl
    obtain ⟨g, l, scope, hframe, hlocal, -⟩ := h.stands.sees.at_distance (hdistance.symm.trans hd)
    exact ⟨g, hframe, hlocal⟩
  | _ => trivial

theorem Agrees.supported_exec (h : Agrees (Visited programs) homes scopes saved s t) {statement : Stmt}
    (hs : statement.Occurs (Visited programs) scopes) (K : StmtStack FrameId) :
    Control.Supported programs distances s (.exec statement K) := by
  obtain ⟨r, rfl, hvisit⟩ := hs.visited
  exact ⟨r, hvisit, h.stands.sees.aligned h.matching.heap.orphan⟩

theorem Agrees.supported_ended (h : Agrees (Visited programs) homes scopes saved s t) {K : StmtStack FrameId}
    {K' : StmtStack Environment} (hK : StmtWork (Visited programs) scopes saved K K')
    (hreceives : K.Receives s.store s.current) (completion : Completion) :
    Control.Supported programs distances s (.ended completion K) := by
  cases hK with
  | @finish _ p _ _ _ _ _ hyield _ =>
    cases h.stacked with
    | cons _ _ hreceiver _ =>
      generalize p.receiver = receiver at hyield hreceiver
      cases hyield with
      | returned => trivial
      | created => exact hreceives.1
      | receiver =>
        cases hreceiver with
        | some hsees =>
          obtain ⟨g, hg, -, hbound⟩ := (hsees.aligned h.matching.heap.orphan).frames 0 _ rfl
          cases hg
          exact hbound "this" rfl
  | _ => trivial

theorem Simulates.supported (hfine : ∀ v, Visited programs v → v.Fine distances) {m : Machine} {m' : Lexical.Machine}
    (h : Simulates (Visited programs) m m') (hreceives : m.Receives) : m.control.Supported programs distances m.state := by
  cases h with
  | active h hc =>
    cases hc with
    | eval he _ => exact h.supported_eval hfine he _
    | give hK => exact h.supported_give hfine hK _
    | exec hs _ => exact h.supported_exec hs _
    | ended hK => exact h.supported_ended hK hreceives _
  | failing _ hc => cases hc <;> trivial

/-- A run that has ended is complete or has come to an error of the program. -/
theorem Simulates.outcome_ordinary {m : Machine} {m' : Lexical.Machine} (h : Simulates P m m') :
    m.outcome = .unfinished ∨ m.outcome = .completed ∨
      ∃ error, m.outcome = .failed (.runtime error) ∧ error.cause.isInternal = false := by
  cases h with
  | active h hc =>
    cases hc with
    | eval _ _ | exec _ _ => exact .inl rfl
    | give hK =>
      left
      cases hK <;> rfl
    | ended hK =>
      cases hK with
      | @program rest _ =>
        cases rest with
        | nil => exact .inr (.inl rfl)
        | cons _ _ => exact .inl rfl
      | _ => exact .inl rfl
  | failing _ hc =>
    cases hc with
    | expr _ hK =>
      left
      cases hK <;> rfl
    | stmt hfault hK =>
      obtain ⟨error, rfl, hordinary⟩ := hfault
      cases hK with
      | program _ => exact .inr (.inr ⟨error, rfl, hordinary⟩)
      | _ => exact .inl rfl

end Safe

/-- In every session, an accepted entry is run, and its run is safe after any number of steps. -/
theorem accepted_run_safe {history : History} {s : Session} (h : s.Reached history) {source : String}
    (haccepts : s.Accepts source) :
    ∃ s' m, s.load source = (s', some m) ∧ ∀ fuel,
      s.run fuel source = s'.finish (m.run s'.setting fuel) ∧
        (m.run s'.setting fuel).Safe (s.program source :: history.map Prod.snd) s'.distances := by
  obtain ⟨s', m, hload⟩ := Session.load_of_accepts haccepts
  have hloads := Session.loads_of_load hload
  refine ⟨s', m, hload, fun fuel => ⟨Session.run_of_load hload fuel, ?_⟩⟩
  have hruns := h.together.runs hloads fuel
  have hreceives : (m.run s'.setting fuel).Receives := by
    rw [hloads.machine]
    exact Machine.receives_run _ _ fuel
  exact ⟨hruns.supported (h.together.tabled.load hloads).fine hreceives, hruns.outcome_ordinary⟩

/-- A class with an initializer. -/
def initializerEntry : String :=
  "class A \x7b init(x) \x7b this.x = x; \x7d \x7d"

/-- Uses of the class, the last of which is an error. -/
def initializerUses : String :=
  "for (var i = false; !i; i = true) A(i); A(nil).y;"

/-- A session that has run the declaration of the class. -/
theorem exists_reached_initializer : ∃ history s, Session.Reached history s ∧ history.length = 1 ∧
    s.reporter.hadError = false ∧ s.nextSite = 2 := by
  have hrun : ((Session.start ⟨3, fun _ => 0⟩ (.new false false) "").run 10 initializerEntry).2 = .ran .completed := by cbv
  have hclear : ((Session.start ⟨3, fun _ => 0⟩ (.new false false) "").run 10 initializerEntry).1.reporter.hadError = false := by
    cbv
  have hnext : ((Session.start ⟨3, fun _ => 0⟩ (.new false false) "").run 10 initializerEntry).1.nextSite = 2 := by cbv
  generalize hresult : (Session.start ⟨3, fun _ => 0⟩ (.new false false) "").run 10 initializerEntry = result at hrun hclear hnext
  obtain ⟨s, outcome⟩ := result
  cases hrun
  exact ⟨_, s, .ran (.start _ _ _) hresult, rfl, hclear, hnext⟩

/-- The second of two entries, which runs the initializer of the first one. -/
theorem accepted_run_safe_initializer :
    ∃ history s, Session.Reached history s ∧ history.length = 1 ∧ s.Accepts initializerUses ∧
      ∃ s' m, s.load initializerUses = (s', some m) ∧ ∀ fuel,
        s.run fuel initializerUses = s'.finish (m.run s'.setting fuel) ∧
          (m.run s'.setting fuel).Safe (s.program initializerUses :: history.map Prod.snd) s'.distances := by
  obtain ⟨history, s, hreached, hlength, hclear, hnext⟩ := exists_reached_initializer
  have haccepts : s.Accepts initializerUses := by
    refine ⟨hclear, by cbv, ?_, ?_⟩
    · rw [hnext]
      cbv
    · rw [Session.program, hnext]
      cbv
  exact ⟨history, s, hreached, hlength, haccepts, accepted_run_safe hreached haccepts⟩

end LoxLanguage
