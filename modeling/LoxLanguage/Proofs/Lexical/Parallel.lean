import Mathlib
import LoxLanguage.Proofs.Lexical.Variants

/-! The reference machine on a program and on a variant of it. Each step on one side is a step on the other, but for the
steps with which the variant enters and leaves the blocks that it alone has (`Parallel.step`). So one of the two
ends if the other does, in the same way, with the same lines printed and the same texts of the globals; without such
blocks they are alike after any number of steps. -/

namespace LoxLanguage

open Lexical (Environment)

/-! ### Work that waits -/

/-- The value of a call comes from the same place. -/
inductive Yield.Parallel : Yield Environment → Yield Environment → Prop where
  | returned : Yield.Parallel .returned .returned
  | receiver {e e' : Environment} (h : e'.find? "this" = e.find? "this") : Yield.Parallel (.receiver e) (.receiver e')
  | created (i : InstanceId) : Yield.Parallel (.created i) (.created i)

mutual

/-- The same work that waits for a value, but for variants. -/
inductive ExprStack.Parallel (wraps : Prop) : Level → Naming → ExprStack Environment → ExprStack Environment → Prop where
  | unary {level ρ operator K K'} (hK : ExprStack.Parallel wraps level ρ K K') :
      ExprStack.Parallel wraps level ρ (.unary operator K) (.unary operator K')
  | binaryLeft {level ρ operator e e' K K'} (h : Expr.Variant ρ e e') (hK : ExprStack.Parallel wraps level ρ K K') :
      ExprStack.Parallel wraps level ρ (.binaryLeft operator e K) (.binaryLeft operator e' K')
  | binaryRight {level ρ left operator K K'} (hK : ExprStack.Parallel wraps level ρ K K') :
      ExprStack.Parallel wraps level ρ (.binaryRight left operator K) (.binaryRight left operator K')
  | logical {level ρ operator e e' K K'} (h : Expr.Variant ρ e e') (hK : ExprStack.Parallel wraps level ρ K K') :
      ExprStack.Parallel wraps level ρ (.logical operator e K) (.logical operator e' K')
  | assign {level ρ site name name' K K'} (hname : ρ.SameToken name name') (hK : ExprStack.Parallel wraps level ρ K K') :
      ExprStack.Parallel wraps level ρ (.assign site name K) (.assign site name' K')
  | callee {level ρ paren given given' K K'} (h : Expr.VariantAll ρ given given') (hK : ExprStack.Parallel wraps level ρ K K') :
      ExprStack.Parallel wraps level ρ (.callee paren given K) (.callee paren given' K')
  | argument {level ρ callee given paren rest rest' K K'} (h : Expr.VariantAll ρ rest rest')
      (hK : ExprStack.Parallel wraps level ρ K K') :
      ExprStack.Parallel wraps level ρ (.argument callee given paren rest K) (.argument callee given paren rest' K')
  | get {level ρ name K K'} (hK : ExprStack.Parallel wraps level ρ K K') :
      ExprStack.Parallel wraps level ρ (.get name K) (.get name K')
  | setTarget {level ρ name e e' K K'} (h : Expr.Variant ρ e e') (hK : ExprStack.Parallel wraps level ρ K K') :
      ExprStack.Parallel wraps level ρ (.setTarget name e K) (.setTarget name e' K')
  | setValue {level ρ i name K K'} (hK : ExprStack.Parallel wraps level ρ K K') :
      ExprStack.Parallel wraps level ρ (.setValue i name K) (.setValue i name K')
  | discard {level ρ K K'} (hK : StmtStack.Parallel wraps level ρ K K') :
      ExprStack.Parallel wraps level ρ (.discard K) (.discard K')
  | print {level ρ K K'} (hK : StmtStack.Parallel wraps level ρ K K') :
      ExprStack.Parallel wraps level ρ (.print K) (.print K')
  | declare {level ρ name name' K K'} (hname : ρ name.lexeme name'.lexeme) (hK : StmtStack.Parallel wraps level ρ K K') :
      ExprStack.Parallel wraps level ρ (.declare name K) (.declare name' K')
  | branch {level ρ s s' o o' K K'} (hs : Stmt.Variant wraps .bare ρ s s') (ho : Stmt.VariantOption wraps ρ o o')
      (hK : StmtStack.Parallel wraps level ρ K K') :
      ExprStack.Parallel wraps level ρ (.branch s o K) (.branch s' o' K')
  | test {level ρ e e' s s' K K'} (he : Expr.Variant ρ e e') (hs : Stmt.Variant wraps .bare ρ s s')
      (hK : StmtStack.Parallel wraps level ρ K K') : ExprStack.Parallel wraps level ρ (.test e s K) (.test e' s' K')
  | returnValue {level ρ K K'} (hK : StmtStack.Parallel wraps level ρ K K') :
      ExprStack.Parallel wraps level ρ (.returnValue K) (.returnValue K')

/-- The same work that waits for the end of a statement, but for variants. Behind a statement that has a block around it on
    one side, that side has to leave the block first. -/
inductive StmtStack.Parallel (wraps : Prop) : Level → Naming → StmtStack Environment → StmtStack Environment → Prop where
  | program {ρ rest rest'} (h : Stmt.VariantAll wraps .top ρ rest rest') :
      StmtStack.Parallel wraps .top ρ (.program rest) (.program rest')
  | sequence {level ρ rest rest' K K'} (h : Stmt.VariantAll wraps level.position ρ rest rest')
      (hK : ∀ exit ρ', StmtStack.Parallel wraps exit ρ' K K') :
      StmtStack.Parallel wraps level ρ (.sequence rest K) (.sequence rest' K')
  | again {level ρ e e' s s' K K'} (he : Expr.Variant ρ e e') (hs : Stmt.Variant wraps .bare ρ s s')
      (hK : StmtStack.Parallel wraps level ρ K K') : StmtStack.Parallel wraps level ρ (.again e s K) (.again e' s' K')
  | leave {level ρ around ρ' e e' K K'} (henv : around.At ρ' e e') (hK : StmtStack.Parallel wraps around ρ' K K') :
      StmtStack.Parallel wraps level ρ (.leave e K) (.leave e' K')
  | finish {level ρ around ρ' e e' yield yield' K K'} (hyield : yield.Parallel yield') (henv : around.At ρ' e e')
      (hK : ExprStack.Parallel wraps around ρ' K K') :
      StmtStack.Parallel wraps level ρ (.finish e yield K) (.finish e' yield' K')
  | wrapped {around ρ e e' K K'} (hwraps : wraps) (henv : around.At ρ e e') (hK : StmtStack.Parallel wraps around ρ K K') :
      StmtStack.Parallel wraps (.fixed e) ρ K (.sequence [] (.leave e' K'))

end

/-! ### Machines -/

namespace Lexical.Machine

/-- The two machines are about to do the same, but for variants. -/
inductive Parallel (wraps : Prop) : Machine → Machine → Prop where
  | eval {level ρ e e' K K' t t'} (ht : t.Alike wraps t') (henv : level.At ρ t.environment t'.environment)
      (h : Expr.Variant ρ e e') (hK : ExprStack.Parallel wraps level ρ K K') : Parallel wraps ⟨.eval e K, t⟩ ⟨.eval e' K', t'⟩
  | give {level ρ v K K' t t'} (ht : t.Alike wraps t') (henv : level.At ρ t.environment t'.environment)
      (hK : ExprStack.Parallel wraps level ρ K K') : Parallel wraps ⟨.give v K, t⟩ ⟨.give v K', t'⟩
  | exec {level ρ s s' K K' t t'} (ht : t.Alike wraps t') (henv : level.At ρ t.environment t'.environment)
      (h : Stmt.Variant wraps level.position ρ s s')
      (hK : StmtStack.Parallel wraps level (ρ.after s.declared? s'.declared?) K K') :
      Parallel wraps ⟨.exec s K, t⟩ ⟨.exec s' K', t'⟩
  | ended {level ρ completion K K' t t'} (ht : t.Alike wraps t') (henv : level.At ρ t.environment t'.environment)
      (hK : StmtStack.Parallel wraps level ρ K K') : Parallel wraps ⟨.ended completion K, t⟩ ⟨.ended completion K', t'⟩
  | failExpr {level ρ fault K K' t t'} (ht : t.Alike wraps t') (hK : ExprStack.Parallel wraps level ρ K K') :
      Parallel wraps ⟨.failExpr fault K, t⟩ ⟨.failExpr fault K', t'⟩
  | failStmt {level ρ fault K K' t t'} (ht : t.Alike wraps t') (hK : StmtStack.Parallel wraps level ρ K K') :
      Parallel wraps ⟨.failStmt fault K, t⟩ ⟨.failStmt fault K', t'⟩

/-- A local variable that the machine is about to read has a value. -/
def Reads (m : Machine) : Prop :=
  ∀ site name K l, m.control = .eval (.use site name) K → m.state.environment.find? name.lexeme = some l →
    (m.state.content? l).isSome

theorem Parallel.state {wraps : Prop} {m m' : Machine} (h : Parallel wraps m m') : m.state.Alike wraps m'.state := by
  cases h <;> assumption

namespace Parallel

section Steps
variable {wraps : Prop} {host : Host} {level : Level} {ρ : Naming} {t t' : State} {K K' : ExprStack Environment}

theorem fail (ht : t.Alike wraps t') (hK : ExprStack.Parallel wraps level ρ K K') (cause : RuntimeError.Cause) (token : Token) :
    Parallel wraps (Machine.fail cause token K t) (Machine.fail cause token K' t') :=
  .failExpr ht hK

theorem giveResult (ht : t.Alike wraps t') (henv : level.At ρ t.environment t'.environment)
    (hK : ExprStack.Parallel wraps level ρ K K') (result : Except Fault Value) :
    Parallel wraps (Machine.giveResult result K t) (Machine.giveResult result K' t') := by
  cases result with
  | ok v => exact .give ht henv hK
  | error fault => exact .failExpr ht hK

/-! ### Expressions -/

theorem step_eval (ht : t.Alike wraps t') (henv : level.At ρ t.environment t'.environment) {e e' : Expr}
    (h : Expr.Variant ρ e e') (hK : ExprStack.Parallel wraps level ρ K K') (hreads : Reads ⟨.eval e K, t⟩) :
    Parallel wraps (Machine.eval K t e) (Machine.eval K' t' e') := by
  cases h with
  | literal value => exact .give ht henv hK
  | unary h => exact .eval ht henv h (.unary hK)
  | binary he hf => exact .eval ht henv he (.binaryLeft hf hK)
  | logical he hf => exact .eval ht henv he (.logical hf hK)
  | grouping h => exact .eval ht henv h hK
  | @use site name name' hname =>
    simp only [Machine.eval]
    rw [ht.read henv.alike hname fun l => hreads site name K l rfl]
    exact .giveResult ht henv hK _
  | assign hname h => exact .eval ht henv h (.assign hname hK)
  | call h hgiven => exact .eval ht henv h (.callee hgiven hK)
  | get h => exact .eval ht henv h (.get hK)
  | set he hf => exact .eval ht henv he (.setTarget hf hK)
  | this hname =>
    simp only [Machine.eval]
    rw [ht.readThis henv.alike hname]
    exact .giveResult ht henv hK _

/-! ### Calls -/

theorem enterBody (ht : t.Alike wraps t') (henv : level.At ρ t.environment t'.environment)
    (hK : ExprStack.Parallel wraps level ρ K K') {τ : Naming} {f f' : Function} {e e' : Environment} {arguments : List Value}
    {yield yield' : Yield Environment} (hf : Function.Variant wraps τ f f') (he : e.Alike τ e')
    (hlength : arguments.length = f.parameters.length) (hyield : yield.Parallel yield') (paren : Token) :
    Parallel wraps (Machine.enterBody host f e arguments yield paren K t)
      (Machine.enterBody host f' e' arguments yield' paren K' t') := by
  unfold Machine.enterBody
  rw [ht.depth]
  by_cases hdepth : t.depth < host.callLimit
  · rw [if_pos hdepth, if_pos hdepth]
    have hinside : Level.inner.At τ e.nest e'.nest := by
      refine ⟨he.nest, ?_, ?_⟩
      · cases e <;> exact ⟨_, rfl⟩
      · cases e' <;> exact ⟨_, rfl⟩
    obtain ⟨hstate, hnames⟩ := (ht.moved e.nest e'.nest (t.depth + 1)).allocateAll hinside hf.length_eq hlength
    exact .ended hstate hnames (.sequence hf.body_variant fun _ _ => .finish hyield henv hK)
  · rw [if_neg hdepth, if_neg hdepth]
    exact .fail ht hK _ paren

theorem callClosure (ht : t.Alike wraps t') (henv : level.At ρ t.environment t'.environment)
    (hK : ExprStack.Parallel wraps level ρ K K') {c c' : Lexical.Closure} (hc : ClosureVariant wraps c c')
    (arguments : List Value) (paren : Token) :
    Parallel wraps (Machine.callClosure host c arguments paren K t) (Machine.callClosure host c' arguments paren K' t') := by
  obtain ⟨hinitializer, τ, hf, he, hthis⟩ := hc
  unfold Machine.callClosure
  rw [hf.length_eq, hinitializer]
  by_cases hlength : arguments.length = c.declaration.parameters.length
  · rw [if_pos hlength, if_pos hlength]
    refine .enterBody ht henv hK hf he hlength ?_ paren
    cases hi : c.isInitializer with
    | false => exact .returned
    | true => exact .receiver (he.find _ _ (hthis hi))
  · rw [if_neg hlength, if_neg hlength]
    exact .fail ht hK _ paren

theorem callClass (ht : t.Alike wraps t') (henv : level.At ρ t.environment t'.environment)
    (hK : ExprStack.Parallel wraps level ρ K K') (c : ClassId) (arguments : List Value) (paren : Token) :
    Parallel wraps (Machine.callClass host c arguments paren K t) (Machine.callClass host c arguments paren K' t') := by
  unfold Machine.callClass
  rw [ht.instances]
  rcases rel_cases ((ht.classAt c).methods Function.initializerName) with ⟨hnone, hnone'⟩ | ⟨m, m', hsome, hsome', hm⟩
  · rw [hnone, hnone']
    by_cases hlength : arguments.length = 0
    · simp only [if_pos hlength]
      exact .give (ht.newInstance c) henv hK
    · simp only [if_neg hlength]
      exact .fail ht hK _ paren
  · rw [hsome, hsome']
    obtain ⟨-, τ, hf, he⟩ := hm
    simp only [hf.length_eq]
    by_cases hlength : arguments.length = m.declaration.parameters.length
    · rw [if_pos hlength, if_pos hlength]
      obtain ⟨hstate, hinside⟩ := (ht.newInstance c).bindReceiver he t.instances.size
      exact .enterBody hstate henv hK hf hinside hlength (.created _) paren
    · rw [if_neg hlength, if_neg hlength]
      exact .fail ht hK _ paren

theorem call (ht : t.Alike wraps t') (henv : level.At ρ t.environment t'.environment)
    (hK : ExprStack.Parallel wraps level ρ K K') (callee : Value) (arguments : List Value) (paren : Token) :
    Parallel wraps (Machine.call host callee arguments paren K t) (Machine.call host callee arguments paren K' t') := by
  unfold Machine.call
  cases callee with
  | clock =>
    by_cases hlength : arguments.length = 0
    · simp only [if_pos hlength]
      rw [ht.ticks]
      have htick := ht.tick
      rw [ht.ticks] at htick
      exact .give htick henv hK
    · simp only [if_neg hlength]
      exact .fail ht hK _ paren
  | closure f =>
    rcases rel_cases (ht.closures.get f) with ⟨hnone, hnone'⟩ | ⟨c, c', hsome, hsome', hc⟩
    · simp only [hnone, hnone']
      exact .fail ht hK _ paren
    · simp only [hsome, hsome']
      exact .callClosure ht henv hK hc arguments paren
  | classValue c => exact .callClass ht henv hK c arguments paren
  | _ => exact .fail ht hK _ paren

theorem property (ht : t.Alike wraps t') (henv : level.At ρ t.environment t'.environment)
    (hK : ExprStack.Parallel wraps level ρ K K') (i : InstanceId) (name : Token) :
    Parallel wraps (Machine.property i name K t) (Machine.property i name K' t') := by
  unfold Machine.property
  rw [ht.instanceAt]
  cases (t.instanceAt i).fields.get? name.lexeme with
  | some v => exact .give ht henv hK
  | none =>
    rcases rel_cases ((ht.classOf i).methods name.lexeme) with ⟨hnone, hnone'⟩ | ⟨m, m', hsome, hsome', hm⟩
    · simp only [hnone, hnone']
      exact .fail ht hK _ name
    · simp only [hsome, hsome']
      obtain ⟨hinitializer, τ, hf, he⟩ := hm
      obtain ⟨hstate, hinside⟩ := ht.bindReceiver he i
      rw [show (t'.bindReceiver m'.environment i).1.closures.size = (t.bindReceiver m.environment i).1.closures.size from
        ht.closures.size.symm]
      exact .give (hstate.newClosure ⟨hinitializer, _, hf, hinside, fun _ => Naming.extend_self _ _ _⟩) henv hK

/-! ### Values that are handed on -/

theorem step_give (ht : t.Alike wraps t') (henv : level.At ρ t.environment t'.environment)
    (hK : ExprStack.Parallel wraps level ρ K K') (v : Value) :
    Parallel wraps (Machine.give host v t K) (Machine.give host v t' K') := by
  cases hK with
  | unary hK => exact .giveResult ht henv hK _
  | binaryLeft h hK => exact .eval ht henv h (.binaryRight hK)
  | binaryRight hK => exact .giveResult ht henv hK _
  | @logical _ _ operator _ _ _ _ h hK =>
    simp only [Machine.give]
    by_cases hdecides : Operators.decides operator v = true
    · rw [if_pos hdecides, if_pos hdecides]
      exact .give ht henv hK
    · rw [if_neg hdecides, if_neg hdecides]
      exact .eval ht henv h hK
  | assign hname hK =>
    simp only [Machine.give]
    rcases ht.assign henv hname v with ⟨u, u', hu, hu', hstate, hplace⟩ | ⟨fault, herror, herror'⟩
    · rw [hu, hu']
      exact .give hstate hplace hK
    · rw [herror, herror']
      exact .failExpr ht hK
  | callee h hK =>
    cases h with
    | nil => exact .call ht henv hK v [] _
    | cons h hrest => exact .eval ht henv h (.argument hrest hK)
  | argument h hK =>
    cases h with
    | nil => exact .call ht henv hK _ _ _
    | cons h hrest => exact .eval ht henv h (.argument hrest hK)
  | @get _ _ name _ _ hK =>
    cases v with
    | instanceValue i => exact .property ht henv hK i name
    | _ => exact .fail ht hK _ name
  | @setTarget _ _ name _ _ _ _ h hK =>
    cases v with
    | instanceValue i => exact .eval ht henv h (.setValue hK)
    | _ => exact .fail ht hK _ name
  | setValue hK => exact .give (ht.setField _ _ v) henv hK
  | discard hK => exact .ended ht henv hK
  | print hK => exact .ended (ht.print v) henv hK
  | declare hname hK =>
    obtain ⟨hstate, hplace⟩ := ht.settle henv hname v
    exact .ended hstate hplace hK
  | branch hs ho hK =>
    simp only [Machine.give]
    by_cases htruthy : v.isTruthy = true
    · rw [if_pos htruthy, if_pos htruthy]
      exact .exec ht henv (hs.weaken _) (by rw [hs.after_eq]; exact hK)
    · rw [if_neg htruthy, if_neg htruthy]
      cases ho with
      | none => exact .ended ht henv hK
      | some hs => exact .exec ht henv (hs.weaken _) (by rw [hs.after_eq]; exact hK)
  | test he hs hK =>
    simp only [Machine.give]
    by_cases htruthy : v.isTruthy = true
    · rw [if_pos htruthy, if_pos htruthy]
      exact .exec ht henv (hs.weaken _) (by rw [hs.after_eq]; exact .again he hs hK)
    · rw [if_neg htruthy, if_neg htruthy]
      exact .ended ht henv hK
  | returnValue hK => exact .ended ht henv hK

end Steps

/-! ### Statements -/

/-- One side goes one step, and the other catches up and goes that step; without blocks of its own it has nothing to catch
    up with. -/
def Follows (wraps : Prop) (host : Host) (next m' : Machine) : Prop :=
  ∃ k, Parallel wraps next ((Machine.step host)^[k + 1] m') ∧ (¬ wraps → k = 0)

section Statements
variable {wraps : Prop} {host : Host}

theorem follows_of_step {next m' : Machine} (h : Parallel wraps next (m'.step host)) : Follows wraps host next m' :=
  ⟨0, h, fun _ => rfl⟩

/-- Steps that one side takes alone. -/
theorem Follows.catchUp {next m' : Machine} (hwraps : wraps) (j : Nat)
    (h : Follows wraps host next ((Machine.step host)^[j] m')) : Follows wraps host next m' := by
  obtain ⟨k, h, -⟩ := h
  refine ⟨k + j, ?_, fun hnot => absurd hwraps hnot⟩
  rwa [← Function.iterate_add_apply, Nat.add_right_comm] at h

theorem follows_exec {level : Level} {ρ : Naming} {t t' : State} {K K' : StmtStack Environment} {s s' : Stmt}
    (ht : t.Alike wraps t') (henv : level.At ρ t.environment t'.environment)
    (h : Stmt.Variant wraps level.position ρ s s')
    (hK : StmtStack.Parallel wraps level (ρ.after s.declared? s'.declared?) K K') :
    Follows wraps host (Machine.exec K t s) ⟨.exec s' K', t'⟩ := by
  cases h with
  | expression h => exact follows_of_step (.eval ht henv h (.discard hK))
  | print h => exact follows_of_step (.eval ht henv h (.print hK))
  | declareVariable hpos hname h =>
    cases h with
    | none =>
      obtain ⟨hstate, hplace⟩ := ht.declare henv hpos hname .nil
      exact follows_of_step (.ended hstate hplace hK)
    | some h =>
      obtain ⟨hstate, hplace⟩ := ht.reserve henv hpos hname
      exact follows_of_step (.eval hstate hplace h (.declare (Naming.extend_self _ _ _) hK))
  | block h =>
    refine follows_of_step (.ended (ht.entered _ _) henv.nest (.sequence h fun _ _ => ?_))
    exact .leave henv hK
  | branch he hs ho => exact follows_of_step (.eval ht henv he (.branch hs ho hK))
  | loop he hs => exact follows_of_step (.eval ht henv he (.test he hs hK))
  | declareFunction hpos h =>
    obtain ⟨hstate, hplace⟩ := ht.declareFunction (f := .mk _ _ _) henv hpos h
    exact follows_of_step (.ended hstate hplace hK)
  | returnValue h =>
    cases h with
    | none => exact follows_of_step (.ended ht henv hK)
    | some h => exact follows_of_step (.eval ht henv h (.returnValue hK))
  | declareClass hpos h =>
    obtain ⟨hstate, hplace⟩ := ht.declareClass henv hpos h
    exact follows_of_step (.ended hstate hplace hK)
  | @wrap _ _ _ inner hwraps h =>
    -- The block is entered, and then the statement in it is the one to go on with.
    rw [h.declared?_eq_none] at hK
    have hstate : t.Alike wraps { t' with environment := t'.environment.nest } := ht.entered t.environment _
    refine .catchUp hwraps 2 ?_
    show Follows wraps host _ ⟨.exec inner (.sequence [] (.leave t'.environment K')),
      { t' with environment := t'.environment.nest }⟩
    refine follows_exec hstate henv.wrap h ?_
    rw [h.after_eq]
    exact .wrapped hwraps henv hK
termination_by sizeOf s'

theorem follows_ended {level : Level} {ρ : Naming} {t t' : State} {K K' : StmtStack Environment}
    (completion : Completion) (ht : t.Alike wraps t') (henv : level.At ρ t.environment t'.environment)
    (hK : StmtStack.Parallel wraps level ρ K K') :
    Follows wraps host (Machine.ended completion t K) ⟨.ended completion K', t'⟩ := by
  cases hK with
  | program h =>
    cases h with
    | nil => exact follows_of_step (.ended ht henv (.program .nil))
    | cons h hrest => exact follows_of_step (.exec ht henv h (.program hrest))
  | sequence h hK =>
    cases h with
    | nil => exact follows_of_step (.ended ht henv (hK level ρ))
    | cons h hrest =>
      cases completion with
      | normal => exact follows_of_step (.exec ht henv h (.sequence hrest hK))
      | returned v => exact follows_of_step (.ended ht henv (hK level ρ))
  | again he hs hK =>
    cases completion with
    | normal => exact follows_of_step (.eval ht henv he (.test he hs hK))
    | returned v => exact follows_of_step (.ended ht henv hK)
  | leave hplace hK => exact follows_of_step (.ended (ht.entered _ _) hplace hK)
  | @finish _ _ _ _ e e' yield yield' K K' hyield hplace hK =>
    have hvalue : yieldValue t' completion yield' = yieldValue t completion yield := by
      cases hyield with
      | returned => rfl
      | receiver h => exact ht.receiver h
      | created i => rfl
    refine follows_of_step ?_
    show Parallel wraps (Machine.ended completion t (.finish e yield K)) (Machine.ended completion t' (.finish e' yield' K'))
    simp only [Machine.ended, hvalue, ht.depth]
    exact .give (ht.moved _ _ _) hplace hK
  | @wrapped around _ e e' _ K' hwraps hplace hK =>
    have hsame : t.environment = e := henv.fits
    rw [← hsame] at hplace
    refine .catchUp hwraps 2 ?_
    show Follows wraps host _ ⟨.ended completion K', { t' with environment := e' }⟩
    exact follows_ended completion (ht.entered t.environment e') hplace hK
termination_by sizeOf K'

theorem follows_failStmt {level : Level} {ρ : Naming} {t t' : State} {K K' : StmtStack Environment} (fault : Fault)
    (ht : t.Alike wraps t') (hK : StmtStack.Parallel wraps level ρ K K') :
    Follows wraps host (Machine.failStmt fault t K) ⟨.failStmt fault K', t'⟩ := by
  induction hsize : sizeOf K' using Nat.strongRecOn generalizing level t' K' with | ind n ih => ?_
  cases hK with
  | program h => exact follows_of_step (.failStmt ht (.program h))
  | sequence h hK => exact follows_of_step (.failStmt ht (hK level ρ))
  | again he hs hK => exact follows_of_step (.failStmt ht hK)
  | leave hplace hK => exact follows_of_step (.failStmt (ht.entered _ _) hK)
  | @finish _ _ _ _ e e' yield yield' K K' hyield hplace hK =>
    refine follows_of_step ?_
    show Parallel wraps (Machine.failStmt fault t (.finish e yield K)) (Machine.failStmt fault t' (.finish e' yield' K'))
    simp only [Machine.failStmt, ht.depth]
    exact .failExpr (ht.moved _ _ _) hK
  | @wrapped around ρ e e' K K' hwraps hplace hK =>
    refine .catchUp hwraps 2 ?_
    show Follows wraps host _ ⟨.failStmt fault K', { t' with environment := e' }⟩
    refine ih (sizeOf K') ?_ (ht.entered t.environment e') hK rfl
    rw [← hsize]
    simp
    omega

theorem step_failExpr {level : Level} {ρ : Naming} {t t' : State} {K K' : ExprStack Environment} (fault : Fault)
    (ht : t.Alike wraps t') (hK : ExprStack.Parallel wraps level ρ K K') :
    Parallel wraps (Machine.failExpr fault t K) (Machine.failExpr fault t' K') := by
  cases hK with
  | unary hK => exact .failExpr ht hK
  | binaryLeft _ hK => exact .failExpr ht hK
  | binaryRight hK => exact .failExpr ht hK
  | logical _ hK => exact .failExpr ht hK
  | assign _ hK => exact .failExpr ht hK
  | callee _ hK => exact .failExpr ht hK
  | argument _ hK => exact .failExpr ht hK
  | get hK => exact .failExpr ht hK
  | setTarget _ hK => exact .failExpr ht hK
  | setValue hK => exact .failExpr ht hK
  | discard hK => exact .failStmt ht hK
  | print hK => exact .failStmt ht hK
  | declare _ hK => exact .failStmt ht hK
  | branch _ _ hK => exact .failStmt ht hK
  | test _ _ hK => exact .failStmt ht hK
  | returnValue hK => exact .failStmt ht hK

/-- What one step leads to. -/
theorem step {m m' : Machine} (h : Parallel wraps m m') (hreads : m.Reads) : Follows wraps host (m.step host) m' := by
  cases h with
  | eval ht henv h hK => exact follows_of_step (step_eval ht henv h hK hreads)
  | give ht henv hK => exact follows_of_step (step_give ht henv hK _)
  | exec ht henv h hK => exact follows_exec ht henv h hK
  | ended ht henv hK => exact follows_ended _ ht henv hK
  | failExpr ht hK => exact follows_of_step (step_failExpr _ ht hK)
  | failStmt ht hK => exact follows_failStmt _ ht hK

end Statements

end Parallel

/-! ### Runs -/

section Runs
variable {wraps : Prop} {host : Host}

theorem step_of_finished {m : Machine} (h : m.outcome ≠ .unfinished) : m.step host = m := by
  obtain ⟨control, t⟩ := m
  cases control with
  | eval | exec => exact absurd rfl h
  | give v K =>
    cases K with
    | answer => rfl
    | _ => exact absurd rfl h
  | ended completion K =>
    cases K with
    | program rest =>
      cases rest with
      | nil => rfl
      | cons => exact absurd rfl h
    | _ => exact absurd rfl h
  | failExpr fault K =>
    cases K with
    | answer => rfl
    | _ => exact absurd rfl h
  | failStmt fault K =>
    cases K with
    | program rest => rfl
    | _ => exact absurd rfl h

theorem run_eq_iterate (m : Machine) (n : Nat) : m.run host n = (Machine.step host)^[n] m := by
  induction n generalizing m with
  | zero => rfl
  | succ n ih =>
    rw [run, Function.iterate_succ_apply]
    by_cases hfinished : m.outcome = .unfinished
    · rw [if_pos hfinished, ih]
    · rw [if_neg hfinished, step_of_finished hfinished, Function.iterate_fixed (step_of_finished hfinished)]

theorem run_run (m : Machine) (j k : Nat) : (m.run host j).run host k = m.run host (j + k) := by
  rw [run_eq_iterate, run_eq_iterate, run_eq_iterate, ← Function.iterate_add_apply, Nat.add_comm]

theorem run_of_le {m : Machine} {n k : Nat} (h : (m.run host n).outcome ≠ .unfinished) (hle : n ≤ k) :
    m.run host k = m.run host n := by
  obtain ⟨j, rfl⟩ := Nat.exists_eq_add_of_le hle
  rw [← run_run, run_eq_iterate (m.run host n), Function.iterate_fixed (step_of_finished h)]

namespace Parallel

variable {m m' : Machine}

/-- Any number of steps of one side are followed by at least as many of the other. -/
theorem run (h : Parallel wraps m m') (hreads : ∀ n, (m.run host n).Reads) (n : Nat) :
    ∃ k, n ≤ k ∧ Parallel wraps (m.run host n) (m'.run host k) ∧ (¬ wraps → k = n) := by
  induction n with
  | zero => exact ⟨0, Nat.le_refl 0, h, fun _ => rfl⟩
  | succ n ih =>
    obtain ⟨k, hle, hparallel, heq⟩ := ih
    have hfollows : Follows wraps host ((m.run host n).step host) (m'.run host k) := hparallel.step (hreads n)
    obtain ⟨j, hnext, hzero⟩ := hfollows
    refine ⟨k + (j + 1), by omega, ?_, fun hnot => by rw [heq hnot, hzero hnot]⟩
    rw [run_eq_iterate m, Function.iterate_succ_apply', ← run_eq_iterate, ← run_run, run_eq_iterate (m'.run host k)]
    exact hnext

/-- What the variant has come to, the program has come to. -/
theorem outcome_eq (h : Parallel wraps m m') (hfinished : m'.outcome ≠ .unfinished) : m.outcome = m'.outcome := by
  cases h with
  | eval | exec => exact absurd rfl hfinished
  | give _ _ hK => cases hK <;> exact absurd rfl hfinished
  | ended _ _ hK =>
    cases hK with
    | program h =>
      cases h with
      | nil => rfl
      | cons => exact absurd rfl hfinished
    | _ => exact absurd rfl hfinished
  | failExpr _ hK => cases hK <;> exact absurd rfl hfinished
  | failStmt _ hK =>
    cases hK with
    | program h => rfl
    | _ => exact absurd rfl hfinished

/-- Without blocks of its own the variant has come to the same at each moment. -/
theorem outcome_eq_of_not_wraps (h : Parallel wraps m m') (hnot : ¬ wraps) : m.outcome = m'.outcome := by
  cases h with
  | eval | exec => rfl
  | give _ _ hK => cases hK <;> rfl
  | ended _ _ hK =>
    cases hK with
    | program h => cases h <;> rfl
    | wrapped hwraps => exact absurd hwraps hnot
    | _ => rfl
  | failExpr _ hK => cases hK <;> rfl
  | failStmt _ hK =>
    cases hK with
    | wrapped hwraps => exact absurd hwraps hnot
    | _ => rfl

/-- Where the program has come to its end, the variant leaves its blocks and has come to its end too. -/
theorem exists_outcome_eq (h : Parallel wraps m m') (hfinished : m.outcome ≠ .unfinished) :
    ∃ k, Parallel wraps m (m'.run host k) ∧ (m'.run host k).outcome = m.outcome := by
  simp only [run_eq_iterate]
  cases h with
  | eval | exec => exact absurd rfl hfinished
  | give _ _ hK => cases hK <;> exact absurd rfl hfinished
  | failExpr _ hK => cases hK <;> exact absurd rfl hfinished
  | @ended level ρ completion K K' t t' ht henv hK =>
    induction hsize : sizeOf K' using Nat.strongRecOn generalizing level t' K' with | ind n ih => ?_
    cases hK with
    | program h =>
      cases h with
      | nil => exact ⟨0, .ended ht henv (.program .nil), rfl⟩
      | cons => exact absurd rfl hfinished
    | @wrapped around ρ e e' K K' hwraps hplace hK =>
      have hsame : t.environment = e := henv.fits
      rw [← hsame] at hplace
      obtain ⟨k, hparallel, houtcome⟩ := ih (sizeOf K') (by rw [← hsize]; simp; omega) (ht.entered t.environment e')
        hplace hK rfl
      exact ⟨k + 2, hparallel, houtcome⟩
    | _ => exact absurd rfl hfinished
  | @failStmt level ρ fault K K' t t' ht hK =>
    induction hsize : sizeOf K' using Nat.strongRecOn generalizing level t' K' with | ind n ih => ?_
    cases hK with
    | program h => exact ⟨0, .failStmt ht (.program h), rfl⟩
    | @wrapped around ρ e e' K K' hwraps hplace hK =>
      obtain ⟨k, hparallel, houtcome⟩ := ih (sizeOf K') (by rw [← hsize]; simp; omega) (ht.entered t.environment e') hK rfl
      exact ⟨k + 2, hparallel, houtcome⟩
    | _ => exact absurd rfl hfinished

end Parallel

/-- What can be observed of a run that has ended. -/
structure EndsAlike (m m' : Machine) : Prop where
  outcome : m'.outcome = m.outcome
  printed : m'.state.printed = m.state.printed
  globalTexts : m'.state.globalTexts = m.state.globalTexts

namespace Parallel

variable {m m' : Machine}

theorem endsAlike (h : Parallel wraps m m') (houtcome : m'.outcome = m.outcome) : m.EndsAlike m' :=
  ⟨houtcome, h.state.printed, h.state.globalTexts⟩

/-- A run of the program that ends is one of the variant. -/
theorem finished (h : Parallel wraps m m') (hreads : ∀ n, (m.run host n).Reads) {n : Nat}
    (hfinished : (m.run host n).outcome ≠ .unfinished) : ∃ k, (m.run host n).EndsAlike (m'.run host k) := by
  obtain ⟨k, -, hparallel, -⟩ := h.run hreads n
  have hends : ∃ j, Parallel wraps (m.run host n) ((m'.run host k).run host j) ∧ _ := hparallel.exists_outcome_eq hfinished
  obtain ⟨j, hparallel, houtcome⟩ := hends
  rw [run_run] at hparallel houtcome
  exact ⟨k + j, hparallel.endsAlike houtcome⟩

/-- A run of the variant that ends is one of the program. -/
theorem finished_of_variant (h : Parallel wraps m m') (hreads : ∀ n, (m.run host n).Reads) {k : Nat}
    (hfinished : (m'.run host k).outcome ≠ .unfinished) : ∃ n, (m.run host n).EndsAlike (m'.run host k) := by
  obtain ⟨j, hle, hparallel, -⟩ := h.run hreads k
  rw [run_of_le hfinished hle] at hparallel
  exact ⟨k, hparallel.endsAlike (hparallel.outcome_eq hfinished).symm⟩

/-- Without blocks of its own the variant is like the program at each moment. -/
theorem lockstep (h : Parallel wraps m m') (hreads : ∀ n, (m.run host n).Reads) (hnot : ¬ wraps) (n : Nat) :
    (m.run host n).EndsAlike (m'.run host n) := by
  obtain ⟨k, -, hparallel, heq⟩ := h.run hreads n
  rw [heq hnot] at hparallel
  exact hparallel.endsAlike (hparallel.outcome_eq_of_not_wraps hnot).symm

end Parallel

end Runs

end Lexical.Machine

end LoxLanguage
