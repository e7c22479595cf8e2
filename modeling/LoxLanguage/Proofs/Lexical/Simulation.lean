import LoxLanguage.Proofs.Lexical.Agreement

/-! The machine against the reference machine. As long as a run has not failed, the two machines are about to do the
same at a place that the resolver has visited, above the same work, and their states agree there; each step
keeps this (`Simulates.step`), and so do all steps of a run (`Simulates.run`). A run that fails has come to an
error of the program: nothing that the machine asks of the frames is ever missing. -/

namespace LoxLanguage

open Lexical (Environment)

/-! ### Work that waits -/

/-- The value of a call comes from the same place. -/
inductive YieldMatches : Option (FrameId × Environment) → Yield FrameId → Yield Environment → Prop where
  | returned : YieldMatches none .returned .returned
  | receiver {f : FrameId} {environment : Environment} :
      YieldMatches (some (f, environment)) (.receiver f) (.receiver environment)
  | created {i : InstanceId} : YieldMatches none (.created i) (.created i)

mutual

/-- The same work that waits for a value in these scopes. -/
inductive ExprWork (P : Visit → Prop) : List Scope → List Saved → ExprStack FrameId → ExprStack Environment → Prop where
  | unary {scopes saved operator K K'} (hoperator : operator.kind = .bang ∨ operator.kind = .minus)
      (hK : ExprWork P scopes saved K K') : ExprWork P scopes saved (.unary operator K) (.unary operator K')
  | binaryLeft {scopes saved operator right K K'} (hoperator : Operators.isBinary operator.kind = true)
      (hright : right.Occurs P scopes) (hK : ExprWork P scopes saved K K') :
      ExprWork P scopes saved (.binaryLeft operator right K) (.binaryLeft operator right K')
  | binaryRight {scopes saved left operator K K'} (hoperator : Operators.isBinary operator.kind = true)
      (hK : ExprWork P scopes saved K K') :
      ExprWork P scopes saved (.binaryRight left operator K) (.binaryRight left operator K')
  | logical {scopes saved operator right K K'} (hright : right.Occurs P scopes) (hK : ExprWork P scopes saved K K') :
      ExprWork P scopes saved (.logical operator right K) (.logical operator right K')
  | assign {scopes saved site name value r K K'} (hscopes : r.scopes = scopes) (hvisit : P (.expr (.assign site name value) r))
      (hK : ExprWork P scopes saved K K') : ExprWork P scopes saved (.assign site name K) (.assign site name K')
  | callee {scopes saved paren arguments K K'} (harguments : Expr.AllOccur P scopes arguments)
      (hK : ExprWork P scopes saved K K') :
      ExprWork P scopes saved (.callee paren arguments K) (.callee paren arguments K')
  | argument {scopes saved callee given paren rest K K'} (hrest : Expr.AllOccur P scopes rest)
      (hK : ExprWork P scopes saved K K') :
      ExprWork P scopes saved (.argument callee given paren rest K) (.argument callee given paren rest K')
  | get {scopes saved name K K'} (hK : ExprWork P scopes saved K K') : ExprWork P scopes saved (.get name K) (.get name K')
  | setTarget {scopes saved name value K K'} (hvalue : value.Occurs P scopes) (hK : ExprWork P scopes saved K K') :
      ExprWork P scopes saved (.setTarget name value K) (.setTarget name value K')
  | setValue {scopes saved i name K K'} (hK : ExprWork P scopes saved K K') :
      ExprWork P scopes saved (.setValue i name K) (.setValue i name K')
  | discard {scopes saved K K'} (hK : StmtWork P scopes saved K K') : ExprWork P scopes saved (.discard K) (.discard K')
  | print {scopes saved K K'} (hK : StmtWork P scopes saved K K') : ExprWork P scopes saved (.print K) (.print K')
  | declare {scopes saved name K K'} (hname : ∀ scope outer, scopes = scope :: outer → scope.has name.lexeme = true)
      (hK : StmtWork P (markName scopes name.lexeme true) saved K K') :
      ExprWork P scopes saved (.declare name K) (.declare name K')
  | branch {scopes saved whenTrue whenFalse K K'} (htrue : whenTrue.Occurs P scopes) (htrue' : whenTrue.declared? = none)
      (hfalse : ∀ s, whenFalse = some s → s.Occurs P scopes ∧ s.declared? = none) (hK : StmtWork P scopes saved K K') :
      ExprWork P scopes saved (.branch whenTrue whenFalse K) (.branch whenTrue whenFalse K')
  | test {scopes saved condition body K K'} (hcondition : condition.Occurs P scopes) (hbody : body.Occurs P scopes)
      (hbody' : body.declared? = none) (hK : StmtWork P scopes saved K K') :
      ExprWork P scopes saved (.test condition body K) (.test condition body K')
  | returnValue {scopes saved K K'} (hK : StmtWork P scopes saved K K') :
      ExprWork P scopes saved (.returnValue K) (.returnValue K')

/-- The same work that waits for the end of a statement in these scopes. What waits behind the statements of a block or
    a body leaves their scope, whatever they have declared in it. -/
inductive StmtWork (P : Visit → Prop) : List Scope → List Saved → StmtStack FrameId → StmtStack Environment → Prop where
  | program {rest} (hrest : Stmt.AllOccur P [] rest) : StmtWork P [] [] (.program rest) (.program rest)
  | sequence {scopes saved rest K K'} (hrest : Stmt.AllOccur P scopes rest) (hK : ∀ exit, StmtWork P exit saved K K') :
      StmtWork P scopes saved (.sequence rest K) (.sequence rest K')
  | again {scopes saved condition body K K'} (hcondition : condition.Occurs P scopes) (hbody : body.Occurs P scopes)
      (hbody' : body.declared? = none) (hK : StmtWork P scopes saved K K') :
      StmtWork P scopes saved (.again condition body K) (.again condition body K')
  | leave {scopes p saved K K'} (hK : StmtWork P p.scopes saved K K') :
      StmtWork P scopes (p :: saved) (.leave p.frame K) (.leave p.environment K')
  | finish {scopes p saved yield yield' K K'} (hyield : YieldMatches p.receiver yield yield')
      (hK : ExprWork P p.scopes saved K K') :
      StmtWork P scopes (p :: saved) (.finish p.frame yield K) (.finish p.environment yield' K')

end

/-! ### Machines -/

/-- An error of the program, not of the machine. -/
def Fault.Ordinary (fault : Fault) : Prop :=
  ∃ error : RuntimeError, fault = .runtime error ∧ error.cause.isInternal = false

/-- The two machines are about to do the same in these scopes. -/
inductive Active (P : Visit → Prop) (scopes : List Scope) (saved : List Saved) :
    Control FrameId → Control Environment → Prop where
  | eval {e K K'} (he : e.Occurs P scopes) (hK : ExprWork P scopes saved K K') : Active P scopes saved (.eval e K) (.eval e K')
  | give {v K K'} (hK : ExprWork P scopes saved K K') : Active P scopes saved (.give v K) (.give v K')
  | exec {s K K'} (hs : s.Occurs P scopes) (hK : StmtWork P (scopesAfter scopes s.declared?) saved K K') :
      Active P scopes saved (.exec s K) (.exec s K')
  | ended {completion K K'} (hK : StmtWork P scopes saved K K') :
      Active P scopes saved (.ended completion K) (.ended completion K')

/-- Both machines drop the same work. -/
inductive Failing (P : Visit → Prop) : Control FrameId → Control Environment → Prop where
  | expr {fault scopes saved K K'} (hfault : fault.Ordinary) (hK : ExprWork P scopes saved K K') :
      Failing P (.failExpr fault K) (.failExpr fault K')
  | stmt {fault scopes saved K K'} (hfault : fault.Ordinary) (hK : StmtWork P scopes saved K K') :
      Failing P (.failStmt fault K) (.failStmt fault K')

/-- The two machines do the same. -/
inductive Simulates (P : Visit → Prop) : Machine → Lexical.Machine → Prop where
  | active {c c' s t homes scopes saved} (h : Agrees P homes scopes saved s t) (hc : Active P scopes saved c c') :
      Simulates P ⟨c, s⟩ ⟨c', t⟩
  | failing {c c' s t homes} (h : Matches P homes s t) (hc : Failing P c c') : Simulates P ⟨c, s⟩ ⟨c', t⟩

section Steps
variable {P : Visit → Prop} {distances : Distances} {host : Host} {homes : Homes} {scopes : List Scope} {saved : List Saved}
  {s : State} {t : Lexical.State} {K : ExprStack FrameId} {K' : ExprStack Environment}

/-! ### Expressions -/

theorem Simulates.fail (h : Agrees P homes scopes saved s t) (hK : ExprWork P scopes saved K K')
    {cause : RuntimeError.Cause} (hcause : cause.isInternal = false) (token : Token) :
    Simulates P (Machine.fail cause token K s) (Lexical.Machine.fail cause token K' t) :=
  .failing h.matching (.expr ⟨_, rfl, hcause⟩ hK)

theorem Simulates.read {setting : Setting} {site : Site} {name : Token} (h : Agrees P homes scopes saved s t)
    (hdistance : setting.distances.get? site = scopes.findIdx? (·.has name.lexeme)) (hreadable : Readable scopes name.lexeme)
    (hK : ExprWork P scopes saved K K') :
    Simulates P
      (match s.read setting site name with
        | .ok v => ⟨.give v K, s⟩
        | .error fault => ⟨.failExpr fault K, s⟩)
      (Lexical.Machine.giveResult (t.read name) K' t) := by
  rcases h.read hdistance hreadable with ⟨v, hread, hread'⟩ | ⟨hread, hread'⟩
  · rw [hread, hread']
    exact .active h (.give hK)
  · rw [hread, hread']
    exact .failing h.matching (.expr ⟨_, rfl, rfl⟩ hK)

theorem Simulates.eval {setting : Setting} (hfine : ∀ v, P v → v.Fine setting.distances)
    (h : Agrees P homes scopes saved s t) {e : Expr} (he : e.Occurs P scopes) (hK : ExprWork P scopes saved K K') :
    Simulates P (Machine.eval setting K s e) (Lexical.Machine.eval K' t e) := by
  obtain ⟨r, rfl, hvisits⟩ := he
  cases e with
  | literal value => exact .active h (.give hK)
  | unary operator operand =>
    obtain ⟨hself, hoperand⟩ := List.forall_mem_cons.mp hvisits
    exact .active h (.eval ⟨r, rfl, hoperand⟩ (.unary (hfine _ hself).proper hK))
  | binary left operator right =>
    obtain ⟨hself, hparts⟩ := List.forall_mem_cons.mp hvisits
    obtain ⟨hleft, hright⟩ := List.forall_mem_append.mp hparts
    have hright : right.Occurs P r.scopes := ⟨left.resolve r, left.resolve_scopes r, hright⟩
    exact .active h (.eval ⟨r, rfl, hleft⟩ (.binaryLeft (hfine _ hself).proper hright hK))
  | logical left operator right =>
    obtain ⟨-, hparts⟩ := List.forall_mem_cons.mp hvisits
    obtain ⟨hleft, hright⟩ := List.forall_mem_append.mp hparts
    exact .active h (.eval ⟨r, rfl, hleft⟩ (.logical ⟨left.resolve r, left.resolve_scopes r, hright⟩ hK))
  | grouping inner =>
    obtain ⟨-, hinner⟩ := List.forall_mem_cons.mp hvisits
    exact .active h (.eval ⟨r, rfl, hinner⟩ hK)
  | use site name =>
    have hself := hfine _ (List.forall_mem_singleton.mp hvisits)
    exact .read h (hself.distance site rfl) hself.use_readable hK
  | assign site name value =>
    obtain ⟨hvalue, hself⟩ := List.forall_mem_append.mp hvisits
    exact .active h (.eval ⟨r, rfl, hvalue⟩ (.assign (value.resolve_scopes r) (List.forall_mem_singleton.mp hself) hK))
  | call callee paren arguments =>
    obtain ⟨-, hparts⟩ := List.forall_mem_cons.mp hvisits
    obtain ⟨hcallee, harguments⟩ := List.forall_mem_append.mp hparts
    exact .active h (.eval ⟨r, rfl, hcallee⟩ (.callee ⟨callee.resolve r, callee.resolve_scopes r, harguments⟩ hK))
  | get object name =>
    obtain ⟨-, hobject⟩ := List.forall_mem_cons.mp hvisits
    exact .active h (.eval ⟨r, rfl, hobject⟩ (.get hK))
  | set object name value =>
    obtain ⟨-, hparts⟩ := List.forall_mem_cons.mp hvisits
    obtain ⟨hvalue, hobject⟩ := List.forall_mem_append.mp hparts
    exact .active h (.eval ⟨value.resolve r, value.resolve_scopes r, hobject⟩ (.setTarget ⟨r, rfl, hvalue⟩ hK))
  | this site keyword =>
    have hself := hfine _ (List.forall_mem_singleton.mp hvisits)
    exact .read h (hself.distance site rfl) hself.this_readable hK

/-! ### Operators -/

theorem Operators.unary_ordinary {operator : Token} (h : operator.kind = .bang ∨ operator.kind = .minus) {v : Value}
    {error : RuntimeError} (herror : Operators.unary operator v = .error error) : error.cause.isInternal = false := by
  unfold Operators.unary at herror
  rcases h with h | h
  · rw [h] at herror
    cases herror
  · rw [h] at herror
    cases v <;> cases herror <;> rfl

theorem Operators.arithmetic?_isSome {kind : Token.Kind} (h : Operators.isBinary kind = true) (hne : kind ≠ .bangEqual)
    (heq : kind ≠ .equalEqual) (hplus : kind ≠ .plus) (x y : Number) : (Operators.arithmetic? kind x y).isSome := by
  cases kind <;> first | rfl | contradiction

theorem Operators.binary_ordinary {operator : Token} (h : Operators.isBinary operator.kind = true) {v w : Value}
    {error : RuntimeError} (herror : Operators.binary operator v w = .error error) : error.cause.isInternal = false := by
  unfold Operators.binary at herror
  split at herror
  · cases herror
  · cases herror
  · split at herror
    · cases herror
    · cases herror
      rfl
  · rename_i hne heq hplus
    split at herror
    · rename_i x y
      obtain ⟨u, hu⟩ := Option.isSome_iff_exists.mp (Operators.arithmetic?_isSome h hne heq hplus x y)
      rw [hu] at herror
      cases herror
    · cases herror
      rfl

theorem Simulates.giveResult (h : Agrees P homes scopes saved s t) (hK : ExprWork P scopes saved K K')
    {result : Except RuntimeError Value} (hordinary : ∀ error, result = .error error → error.cause.isInternal = false) :
    Simulates P (Machine.giveResult result K s) (Lexical.Machine.giveResult (result.mapError .runtime) K' t) := by
  cases result with
  | ok v => exact .active h (.give hK)
  | error error => exact .failing h.matching (.expr ⟨error, rfl, hordinary error rfl⟩ hK)

/-! ### Calls -/

theorem Simulates.enterBody (hfine : ∀ v, P v → v.Fine distances) (h : Agrees P homes scopes saved s t)
    {closure : Closure} {around : List Scope} {f : FrameId} {environment : Environment} {arguments : List Value}
    {receiver : Option (FrameId × Environment)} {yield : Yield FrameId} {yield' : Yield Environment}
    (hoccurs : closure.declaration.Occurs P around) (hsees : Sees s.store homes around f environment)
    (hyield : YieldMatches receiver yield yield') (hreceiver : SeesReceiver s.store homes receiver)
    (hlength : arguments.length = closure.arity) (hK : ExprWork P scopes saved K K') (paren : Token) :
    Simulates P (Machine.enterBody ⟨distances, host.callLimit, host.clock⟩ closure f arguments yield paren K s)
      (Lexical.Machine.enterBody host closure.declaration environment arguments yield' paren K' t) := by
  unfold Machine.enterBody Lexical.Machine.enterBody
  rw [h.matching.depth]
  by_cases hdepth : s.depth < host.callLimit
  · rw [if_pos hdepth, if_pos hdepth]
    obtain ⟨enclosing, r, rfl, hvisits⟩ := hoccurs
    obtain ⟨⟨name, parameters, body⟩, scope, isInitializer⟩ := closure
    obtain ⟨hself, hbody⟩ := List.forall_mem_cons.mp hvisits
    obtain ⟨homes', h'⟩ := h.enterBody hsees hreceiver hlength (hfine _ hself).quiet
    rw [h.matching.depth] at h'
    -- The body starts in the scopes that the resolver has behind the parameters.
    refine .active h' (.ended (.sequence ⟨r.inBody enclosing parameters, ?_, hbody⟩
      fun _ => .finish (p := ⟨_, _, _, receiver⟩) hyield hK))
    exact Resolution.parameters_scopes _ parameters
  · rw [if_neg hdepth, if_neg hdepth]
    exact .fail h hK rfl paren

theorem Simulates.callClosure (hfine : ∀ v, P v → v.Fine distances) (h : Agrees P homes scopes saved s t)
    {closure : Closure} {closure' : Lexical.Closure} (hclosure : ClosureMatches P s.store homes closure closure')
    (hK : ExprWork P scopes saved K K') (arguments : List Value) (paren : Token) :
    Simulates P (Machine.callClosure ⟨distances, host.callLimit, host.clock⟩ closure arguments paren K s)
      (Lexical.Machine.callClosure host closure' arguments paren K' t) := by
  obtain ⟨hdeclaration, hinitializer, around, hoccurs, hsees, hthis⟩ := hclosure
  unfold Machine.callClosure Lexical.Machine.callClosure Closure.arity
  rw [hdeclaration, hinitializer]
  by_cases hlength : arguments.length = closure.declaration.parameters.length
  · rw [if_pos hlength, if_pos hlength]
    cases hi : closure.isInitializer with
    | false => exact .enterBody hfine h hoccurs hsees .returned .none hlength hK paren
    | true =>
      obtain ⟨outer, rfl⟩ := hthis hi
      exact .enterBody hfine h hoccurs hsees .receiver (.some hsees) hlength hK paren
  · rw [if_neg hlength, if_neg hlength]
    exact .fail h hK rfl paren

theorem Simulates.callClass (hfine : ∀ v, P v → v.Fine distances) (h : Agrees P homes scopes saved s t)
    (hK : ExprWork P scopes saved K K') (c : ClassId) (arguments : List Value) (paren : Token) :
    Simulates P (Machine.callClass ⟨distances, host.callLimit, host.clock⟩ c arguments paren K s)
      (Lexical.Machine.callClass host c arguments paren K' t) := by
  have hclass := h.matching.classAt c
  have hsize : t.instances.size = s.store.instances.size := congrArg Array.size h.matching.instances
  unfold Machine.callClass Lexical.Machine.callClass Closure.arity
  rw [hsize]
  rcases rel_cases (hclass.methods Function.initializerName) with ⟨hm, hm'⟩ | ⟨m, m', hm, hm', hmethod⟩
  · rw [hm, hm']
    by_cases hlength : arguments.length = 0
    · simp only [if_pos hlength]
      exact .active (h.newInstance c) (.give hK)
    · simp only [if_neg hlength]
      exact .fail h hK rfl paren
  · rw [hm, hm']
    obtain ⟨hdeclaration, -, outer, hoccurs, hsees⟩ := hmethod
    simp only [hdeclaration]
    by_cases hlength : arguments.length = m.declaration.parameters.length
    · rw [if_pos hlength, if_pos hlength]
      have hinstance := h.newInstance c
      obtain ⟨homes', h', hsees'⟩ := hinstance.bindReceiver (hsees.grows (g := 0) (grows_of_frames rfl)) s.store.instances.size
      exact .enterBody hfine h' hoccurs hsees' .created .none hlength hK paren
    · rw [if_neg hlength, if_neg hlength]
      exact .fail h hK rfl paren

theorem Simulates.call (hfine : ∀ v, P v → v.Fine distances) (h : Agrees P homes scopes saved s t)
    (hK : ExprWork P scopes saved K K') (callee : Value) (arguments : List Value) (paren : Token) :
    Simulates P (Machine.call ⟨distances, host.callLimit, host.clock⟩ callee arguments paren K s)
      (Lexical.Machine.call host callee arguments paren K' t) := by
  unfold Machine.call Lexical.Machine.call
  cases callee with
  | clock =>
    by_cases hlength : arguments.length = 0
    · simp only [if_pos hlength]
      rw [h.matching.ticks]
      have htick := h.tick
      rw [h.matching.ticks] at htick
      exact .active htick (.give hK)
    · simp only [if_neg hlength]
      exact .fail h hK rfl paren
  | closure f =>
    rcases rel_cases (h.matching.closures.get f) with ⟨hc, hc'⟩ | ⟨c, c', hc, hc', hclosure⟩
    · simp only [hc, hc']
      exact .fail h hK rfl paren
    · simp only [hc, hc']
      exact .callClosure hfine h hclosure hK arguments paren
  | classValue c => exact .callClass hfine h hK c arguments paren
  | _ => exact .fail h hK rfl paren

theorem Simulates.property (h : Agrees P homes scopes saved s t) (hK : ExprWork P scopes saved K K') (i : InstanceId)
    (name : Token) : Simulates P (Machine.property i name K s) (Lexical.Machine.property i name K' t) := by
  have hclass := h.matching.classOf i
  unfold Machine.property Lexical.Machine.property
  rw [h.matching.instanceAt]
  cases hfield : (s.store.instanceAt i).fields.get? name.lexeme with
  | some v => exact .active h (.give hK)
  | none =>
    rcases rel_cases (hclass.methods name.lexeme) with ⟨hm, hm'⟩ | ⟨m, m', hm, hm', hmethod⟩
    · simp only [hm, hm']
      exact .fail h hK rfl name
    · simp only [hm, hm']
      obtain ⟨hdeclaration, hinitializer, outer, hoccurs, hsees⟩ := hmethod
      obtain ⟨homes', h', hsees'⟩ := h.bindReceiver hsees i
      have hsize : (t.bindReceiver m'.environment i).1.closures.size = s.store.closures.size := h.matching.closures.size.symm
      rw [hsize]
      exact .active (h'.newClosure ⟨hdeclaration, hinitializer, _, hoccurs, hsees', fun _ => ⟨outer, rfl⟩⟩) (.give hK)

/-! ### Values that are handed on -/

theorem Simulates.give (hfine : ∀ v, P v → v.Fine distances) (h : Agrees P homes scopes saved s t)
    (hK : ExprWork P scopes saved K K') (v : Value) :
    Simulates P (Machine.give ⟨distances, host.callLimit, host.clock⟩ v s K) (Lexical.Machine.give host v t K') := by
  cases hK with
  | unary hoperator hK => exact .giveResult h hK fun _ => Operators.unary_ordinary hoperator
  | binaryLeft hoperator hright hK => exact .active h (.eval hright (.binaryRight hoperator hK))
  | binaryRight hoperator hK => exact .giveResult h hK fun _ => Operators.binary_ordinary hoperator
  | @logical _ _ operator _ _ _ hright hK =>
    rw [Machine.give, Lexical.Machine.give]
    by_cases hdecides : Operators.decides operator v = true
    · rw [if_pos hdecides, if_pos hdecides]
      exact .active h (.give hK)
    · rw [if_neg hdecides, if_neg hdecides]
      exact .active h (.eval hright hK)
  | @assign _ _ site name _ r _ _ hscopes hvisit hK =>
    subst hscopes
    rw [Machine.give, Lexical.Machine.give]
    have hdistance : (Setting.mk distances host.callLimit host.clock).distances.get? site = r.distance? name.lexeme :=
      (hfine _ hvisit).distance site rfl
    rcases h.assign hdistance v with ⟨f, t', htarget, hassign, h'⟩ | ⟨htarget, hassign⟩
    · simp only [htarget, hassign]
      exact .active h' (.give hK)
    · simp only [htarget, hassign]
      exact .failing h.matching (.expr ⟨_, rfl, rfl⟩ hK)
  | @callee _ _ paren arguments _ _ harguments hK =>
    cases arguments with
    | nil => exact .call hfine h hK v [] paren
    | cons e rest =>
      obtain ⟨r, rfl, hvisits⟩ := harguments
      obtain ⟨he, hrest⟩ := List.forall_mem_append.mp hvisits
      exact .active h (.eval ⟨r, rfl, he⟩ (.argument ⟨e.resolve r, e.resolve_scopes r, hrest⟩ hK))
  | @argument _ _ callee given paren rest _ _ hrest hK =>
    cases rest with
    | nil => exact .call hfine h hK callee (given.push v).toList paren
    | cons e rest =>
      obtain ⟨r, rfl, hvisits⟩ := hrest
      obtain ⟨he, hrest⟩ := List.forall_mem_append.mp hvisits
      exact .active h (.eval ⟨r, rfl, he⟩ (.argument ⟨e.resolve r, e.resolve_scopes r, hrest⟩ hK))
  | @get _ _ name _ _ hK =>
    cases v with
    | instanceValue i => exact .property h hK i name
    | _ => exact .fail h hK rfl name
  | @setTarget _ _ name _ _ _ hvalue hK =>
    cases v with
    | instanceValue i => exact .active h (.eval hvalue (.setValue hK))
    | _ => exact .fail h hK rfl name
  | @setValue _ _ i name _ _ hK => exact .active (h.setField i name.lexeme v) (.give hK)
  | discard hK => exact .active h (.ended hK)
  | print hK => exact .active (h.print v) (.ended hK)
  | declare hname hK => exact .active (h.settle hname v) (.ended hK)
  | @branch _ _ whenTrue whenFalse _ _ htrue htrue' hfalse hK =>
    simp only [Machine.give, Lexical.Machine.give]
    by_cases hv : v.isTruthy = true
    · rw [if_pos hv, if_pos hv]
      exact .active h (.exec htrue (by rw [htrue']; exact hK))
    · rw [if_neg hv, if_neg hv]
      cases whenFalse with
      | none => exact .active h (.ended hK)
      | some statement =>
        obtain ⟨hoccurs, hnone⟩ := hfalse statement rfl
        exact .active h (.exec hoccurs (by rw [hnone]; exact hK))
  | @test _ _ condition body _ _ hcondition hbody hbody' hK =>
    rw [Machine.give, Lexical.Machine.give]
    by_cases hv : v.isTruthy = true
    · rw [if_pos hv, if_pos hv]
      exact .active h (.exec hbody (by rw [hbody']; exact .again hcondition hbody hbody' hK))
    · rw [if_neg hv, if_neg hv]
      exact .active h (.ended hK)
  | returnValue hK => exact .active h (.ended hK)

/-! ### Statements -/

theorem Stmt.AllOccur.cons {statement : Stmt} {rest : List Stmt} (hfine : ∀ v, P v → v.Fine distances)
    (h : Stmt.AllOccur P scopes (statement :: rest)) :
    statement.Occurs P scopes ∧ Stmt.AllOccur P (scopesAfter scopes statement.declared?) rest := by
  obtain ⟨r, rfl, hvisits⟩ := h
  obtain ⟨hstatement, hrest⟩ := List.forall_mem_append.mp hvisits
  have hscopes := statement.resolve_scopes r fun v hv => (hfine v (hstatement v hv)).proper
  exact ⟨⟨r, rfl, hstatement⟩, statement.resolve r, hscopes, hrest⟩

theorem Function.occurs_of_visitsAll {methods : List Function} {r : Resolution} (h : ∀ v ∈ Function.visitsAll methods r, P v) :
    ∀ m ∈ methods, m.Occurs P r.scopes := by
  induction methods generalizing r with
  | nil => nofun
  | cons f rest ih =>
    obtain ⟨hf, hrest⟩ := List.forall_mem_append.mp h
    refine List.forall_mem_cons.mpr ⟨⟨_, r, rfl, hf⟩, ?_⟩
    have hscopes := f.resolve_scopes (if f.isInitializer then .initializer else .method) r
    rw [← hscopes]
    exact ih hrest

theorem Simulates.exec (hfine : ∀ v, P v → v.Fine distances) (h : Agrees P homes scopes saved s t) {statement : Stmt}
    {below : StmtStack FrameId} {below' : StmtStack Environment} (hs : statement.Occurs P scopes)
    (hK : StmtWork P (scopesAfter scopes statement.declared?) saved below below') :
    Simulates P (Machine.exec below s statement) (Lexical.Machine.exec below' t statement) := by
  obtain ⟨r, rfl, hvisits⟩ := hs
  cases statement with
  | expression e =>
    obtain ⟨-, he⟩ := List.forall_mem_cons.mp hvisits
    exact .active h (.eval ⟨r, rfl, he⟩ (.discard hK))
  | print e =>
    obtain ⟨-, he⟩ := List.forall_mem_cons.mp hvisits
    exact .active h (.eval ⟨r, rfl, he⟩ (.print hK))
  | declareVariable name initializer =>
    obtain ⟨hself, hinitializer⟩ := List.forall_mem_cons.mp hvisits
    have hundeclared : Undeclared r.scopes name.lexeme := undeclared_of_quiet (hfine _ hself).quiet
    cases initializer with
    | none =>
      obtain ⟨homes', h'⟩ := h.declare hundeclared .nil
      exact .active h' (.ended hK)
    | some e =>
      obtain ⟨homes', h'⟩ := h.reserve hundeclared
      refine .active h' (.eval ⟨r.declare name, r.declare_scopes name, hinitializer⟩ (.declare ?_ hK))
      intro scope outer heq
      cases hscopes : r.scopes with
      | nil => rw [hscopes] at heq; cases heq
      | cons scope' outer' =>
        rw [hscopes] at heq
        cases heq
        rw [Bindings.has_put]
        simp
  | block body =>
    obtain ⟨-, hbody⟩ := List.forall_mem_cons.mp hvisits
    exact .active (h.enter h.stands.sees .none)
      (.ended (.sequence ⟨r.enter [], rfl, hbody⟩ fun _ => .leave (p := ⟨_, _, _, none⟩) hK))
  | branch condition whenTrue whenFalse =>
    obtain ⟨hself, hparts⟩ := List.forall_mem_cons.mp hvisits
    obtain ⟨hcondition, hparts⟩ := List.forall_mem_append.mp hparts
    obtain ⟨htrue, hfalse⟩ := List.forall_mem_append.mp hparts
    obtain ⟨hnone, hnone'⟩ := (hfine _ hself).proper
    have hscopes := condition.resolve_scopes r
    refine .active h (.eval ⟨r, rfl, hcondition⟩ (.branch ⟨condition.resolve r, hscopes, htrue⟩ hnone ?_ hK))
    rintro statement rfl
    -- The branch in front declares nothing, so the other one is in the same scopes.
    have hscopes' := whenTrue.resolve_scopes _ fun v hv => (hfine v (htrue v hv)).proper
    rw [hnone, hscopes] at hscopes'
    exact ⟨⟨whenTrue.resolve (condition.resolve r), hscopes', hfalse⟩, hnone' statement rfl⟩
  | loop condition body =>
    obtain ⟨hself, hparts⟩ := List.forall_mem_cons.mp hvisits
    obtain ⟨hcondition, hbody⟩ := List.forall_mem_append.mp hparts
    have hbody : body.Occurs P r.scopes := ⟨condition.resolve r, condition.resolve_scopes r, hbody⟩
    exact .active h (.eval ⟨r, rfl, hcondition⟩ (.test ⟨r, rfl, hcondition⟩ hbody (hfine _ hself).proper hK))
  | declareFunction f =>
    obtain ⟨hself, hf⟩ := List.forall_mem_cons.mp hvisits
    have hundeclared : Undeclared r.scopes f.name.lexeme := undeclared_of_quiet (hfine _ hself).quiet
    have hoccurs : f.Occurs P (scopesAfter r.scopes (some f.name)) := by
      refine ⟨_, _, ?_, hf⟩
      rw [Resolution.define_scopes, Resolution.declare_scopes]
      rfl
    obtain ⟨homes', h'⟩ := h.declareFunction hundeclared hoccurs
    exact .active h' (.ended hK)
  | returnValue keyword value =>
    obtain ⟨-, hvalue⟩ := List.forall_mem_cons.mp hvisits
    cases value with
    | none => exact .active h (.ended hK)
    | some e =>
      have hscopes := r.checkReturn_scopes keyword true
      exact .active h (.eval ⟨r.checkReturn keyword true, hscopes, hvalue⟩ (.returnValue hK))
  | declareClass name methods =>
    obtain ⟨hself, hmethods⟩ := List.forall_mem_cons.mp hvisits
    have hundeclared : Undeclared r.scopes name.lexeme := undeclared_of_quiet (hfine _ hself).quiet
    have hscopes : (((r.declare name).define name).inClassBody).scopes =
        [("this", true)] :: scopesAfter r.scopes (some name) := by
      show [("this", true)] :: ((r.declare name).define name).scopes = _
      rw [Resolution.define_scopes, Resolution.declare_scopes]
      rfl
    obtain ⟨homes', h'⟩ := h.declareClass hundeclared (hscopes ▸ Function.occurs_of_visitsAll hmethods)
    exact .active h' (.ended hK)

/-! ### Ends of statements and of calls -/

theorem Agrees.yieldValue {p : Saved} (h : Agrees P homes scopes (p :: saved) s t) {yield : Yield FrameId}
    {yield' : Yield Environment} (hyield : YieldMatches p.receiver yield yield') (completion : Completion) :
    Lexical.Machine.yieldValue t completion yield' = Machine.yieldValue s completion yield := by
  obtain ⟨hmatch, -, hstacked⟩ := h
  cases hstacked with
  | cons _ _ hreceiver _ =>
    generalize p.receiver = receiver at hyield hreceiver
    cases hyield with
    | returned => rfl
    | created => rfl
    | @receiver f environment =>
      cases hreceiver with
      | some hsees =>
        obtain ⟨-, -, -, hnames⟩ := hsees.of_cons
        obtain ⟨l, hhome, hfind⟩ := hnames "this" rfl
        simp only [Lexical.Machine.yieldValue, Machine.yieldValue, Lexical.State.receiver, hfind, Option.bind_some,
          Lexical.State.content?, hmatch.heap.content f "this" l hhome, Option.join_some]

theorem Simulates.ended (hfine : ∀ v, P v → v.Fine distances) (h : Agrees P homes scopes saved s t)
    {below : StmtStack FrameId} {below' : StmtStack Environment} (hK : StmtWork P scopes saved below below')
    (completion : Completion) :
    Simulates P (Machine.ended completion s below) (Lexical.Machine.ended completion t below') := by
  cases hK with
  | @program rest hrest =>
    cases rest with
    | nil => exact .active h (.ended (.program hrest))
    | cons statement rest =>
      obtain ⟨hstatement, hrest⟩ := hrest.cons hfine
      have hscopes : scopesAfter [] statement.declared? = [] := by cases statement.declared? <;> rfl
      rw [hscopes] at hrest
      exact .active h (.exec hstatement (by rw [hscopes]; exact .program hrest))
  | @sequence _ _ rest _ _ hrest hK =>
    cases rest with
    | nil => exact .active h (.ended (hK scopes))
    | cons statement rest =>
      obtain ⟨hstatement, hrest⟩ := hrest.cons hfine
      cases completion with
      | normal => exact .active h (.exec hstatement (.sequence hrest hK))
      | returned v =>
        -- A `return` leaves the scope from wherever it is, whatever the rest would have declared.
        exact .active h (.ended (hK scopes))
  | again hcondition hbody hbody' hK =>
    cases completion with
    | normal => exact .active h (.eval hcondition (.test hcondition hbody hbody' hK))
    | returned v => exact .active h (.ended hK)
  | leave hK => exact .active h.leave (.ended hK)
  | finish hyield hK =>
    rw [Machine.ended, Lexical.Machine.ended, h.yieldValue hyield]
    exact .active h.finish (.give hK)

/-! ### Errors -/

theorem Simulates.failExpr (h : Matches P homes s t) {fault : Fault} (hfault : fault.Ordinary)
    (hK : ExprWork P scopes saved K K') :
    Simulates P (Machine.failExpr fault s K) (Lexical.Machine.failExpr fault t K') := by
  cases hK with
  | unary _ hK | binaryLeft _ _ hK | binaryRight _ hK | logical _ hK | assign _ _ hK | callee _ hK | argument _ hK
  | get hK | setTarget _ hK | setValue hK => exact .failing h (.expr hfault hK)
  | discard hK | print hK | declare _ hK | branch _ _ _ hK | test _ _ _ hK | returnValue hK =>
    exact .failing h (.stmt hfault hK)

theorem Simulates.failStmt (h : Matches P homes s t) {fault : Fault} (hfault : fault.Ordinary)
    {below : StmtStack FrameId} {below' : StmtStack Environment} (hK : StmtWork P scopes saved below below') :
    Simulates P (Machine.failStmt fault s below) (Lexical.Machine.failStmt fault t below') := by
  cases hK with
  | program hrest => exact .failing h (.stmt hfault (.program hrest))
  | sequence _ hK => exact .failing h (.stmt hfault (hK scopes))
  | again _ _ _ hK => exact .failing h (.stmt hfault hK)
  | leave hK => exact .failing (h.moved _ _ h.depth) (.stmt hfault hK)
  | finish _ hK => exact .failing (h.moved _ _ (congrArg (· - 1) h.depth)) (.expr hfault hK)

/-! ### Runs -/

/-- One step keeps two machines together. -/
theorem Simulates.step (hfine : ∀ v, P v → v.Fine distances) {m : Machine} {m' : Lexical.Machine} (h : Simulates P m m') :
    Simulates P (m.step ⟨distances, host.callLimit, host.clock⟩) (m'.step host) := by
  cases h with
  | active h hc =>
    cases hc with
    | eval he hK => exact .eval hfine h he hK
    | give hK => exact .give hfine h hK _
    | exec hs hK => exact .exec hfine h hs hK
    | ended hK => exact .ended hfine h hK _
  | failing h hc =>
    cases hc with
    | expr hfault hK => exact .failExpr h hfault hK
    | stmt hfault hK => exact .failStmt h hfault hK

theorem Simulates.outcome {m : Machine} {m' : Lexical.Machine} (h : Simulates P m m') : m'.outcome = m.outcome := by
  cases h with
  | active _ hc =>
    cases hc with
    | eval | exec => rfl
    | give hK => cases hK <;> rfl
    | ended hK =>
      cases hK with
      | @program rest _ => cases rest <;> rfl
      | _ => rfl
  | failing _ hc =>
    cases hc with
    | expr _ hK => cases hK <;> rfl
    | stmt _ hK => cases hK <;> rfl

/-- Any number of steps keeps two machines together. -/
theorem Simulates.run (hfine : ∀ v, P v → v.Fine distances) (fuel : Nat) {m : Machine} {m' : Lexical.Machine}
    (h : Simulates P m m') :
    Simulates P (m.run ⟨distances, host.callLimit, host.clock⟩ fuel) (m'.run host fuel) := by
  induction fuel generalizing m m' with
  | zero => exact h
  | succ fuel ih =>
    rw [Machine.run, Lexical.Machine.run, h.outcome]
    by_cases hstopped : m.outcome = .unfinished
    · rw [if_pos hstopped, if_neg (by rw [Machine.stopped, hstopped]; decide)]
      exact ih (h.step hfine)
    · have hstop : m.stopped = true := by
        unfold Machine.stopped
        cases hm : m.outcome with
        | unfinished => exact absurd hm hstopped
        | _ => rfl
      rw [if_neg hstopped, if_pos hstop]
      exact h

end Steps

end LoxLanguage
