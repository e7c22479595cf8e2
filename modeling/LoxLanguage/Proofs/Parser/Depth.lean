import LoxLanguage.Proofs.Parser.Progress

/-! The bound on the depth of a parser does not show in what it gives. A run that has not reached its bound
is the same under every greater one (`Within`), and on a closed row the bound that a program is parsed with
is not reached. What a parser gives under all bounds from some one on is therefore what it gives
(`Settles`), and a run is followed from part to part without counting depths. -/

namespace LoxLanguage.Parser

open Token (Kind)

/-- `q` does what `p` does, wherever `p` has not reached its bound. -/
def Within {α : Type} (p q : Parser α) : Prop :=
  ∀ s, (∃ s', p s = .error .exhausted s') ∨ p s = q s

namespace Within

variable {α β : Type} {p q : Parser α} {f g : α → Parser β}

theorem refl (p : Parser α) : Within p p :=
  fun _ => Or.inr rfl

theorem exhausted (q : Parser α) : Within (throw .exhausted) q :=
  fun s => Or.inl ⟨s, rfl⟩

theorem bind (hp : Within p q) (hf : ∀ a, Within (f a) (g a)) : Within (p >>= f) (q >>= g) := fun s => by
  rw [bind_eq, bind_eq]
  rcases hp s with ⟨s', hs'⟩ | heq
  · rw [hs']
    exact Or.inl ⟨s', rfl⟩
  · rw [heq]
    cases q s with
    | ok a s' => exact hf a s'
    | error stop s' => exact Or.inr rfl

theorem map {g : α → β} (hp : Within p q) : Within (g <$> p) (g <$> q) :=
  hp.bind (f := fun a => pure (g a)) (g := fun a => pure (g a)) fun _ => refl _

theorem recovering (hp : Within p q) : Within (recovering p) (recovering q) := fun s => by
  rcases hp s with ⟨s', hs'⟩ | heq
  · exact Or.inl ⟨s', by simp only [Parser.recovering, hs']⟩
  · exact Or.inr (by simp only [Parser.recovering, heq])

end Within

/-! ### Expressions -/

/-- A greater bound does not change the parsers of expressions. -/
structure ExpressionsWithin (fuel : Nat) : Prop where
  expression : Within (expression fuel) (expression (fuel + 1))
  operation : ∀ tighter, Within (operation fuel tighter) (operation (fuel + 1) tighter)
  chain : ∀ level tighter left, Within (chain fuel level tighter left) (chain (fuel + 1) level tighter left)
  unary : Within (unary fuel) (unary (fuel + 1))
  suffixes : ∀ e, Within (suffixes fuel e) (suffixes (fuel + 1) e)
  argumentsIfAny : Within (argumentsIfAny fuel) (argumentsIfAny (fuel + 1))
  arguments : ∀ given, Within (arguments fuel given) (arguments (fuel + 1) given)
  primary : Within (primary fuel) (primary (fuel + 1))

theorem expressionsWithin_succ {fuel : Nat} (ih : ExpressionsWithin fuel) : ExpressionsWithin (fuel + 1) where
  expression := by
    rw [expression.eq_2 fuel, expression.eq_2 (fuel + 1)]
    refine (ih.operation _).bind fun target => (Within.refl _).bind fun o => ?_
    cases o with
    | none => exact .refl _
    | some equals => exact ih.expression.bind fun value => .refl _
  operation tighter := by
    cases tighter with
    | nil =>
      rw [operation.eq_2 fuel, operation.eq_2 (fuel + 1)]
      exact ih.unary
    | cons level tighter =>
      rw [operation.eq_3 fuel, operation.eq_3 (fuel + 1)]
      exact (ih.operation tighter).bind fun left => ih.chain level tighter left
  chain level tighter left := by
    rw [chain.eq_2 _ _ _ fuel, chain.eq_2 _ _ _ (fuel + 1)]
    refine (Within.refl _).bind fun o => ?_
    cases o with
    | none => exact .refl _
    | some operator => exact (ih.operation tighter).bind fun right => ih.chain level tighter _
  unary := by
    rw [unary.eq_2 fuel, unary.eq_2 (fuel + 1)]
    refine (Within.refl _).bind fun o => ?_
    cases o with
    | none => exact ih.primary.bind fun e => ih.suffixes e
    | some operator => exact ih.unary.bind fun operand => .refl _
  suffixes e := by
    rw [suffixes.eq_2 _ fuel, suffixes.eq_2 _ (fuel + 1)]
    refine (Within.refl _).bind fun o => ?_
    cases o with
    | some paren =>
      exact ih.argumentsIfAny.bind fun given => (Within.refl _).bind fun close => ih.suffixes _
    | none =>
      refine (Within.refl _).bind fun o => ?_
      cases o with
      | some dot => exact (Within.refl _).bind fun name => ih.suffixes _
      | none => exact .refl _
  argumentsIfAny := by
    rw [argumentsIfAny.eq_2 fuel, argumentsIfAny.eq_2 (fuel + 1)]
    refine (Within.refl _).bind fun b => ?_
    cases b with
    | true => exact .refl _
    | false => exact ih.arguments _
  arguments given := by
    rw [arguments.eq_2 _ fuel, arguments.eq_2 _ (fuel + 1)]
    refine (Within.refl _).bind fun _ => ih.expression.bind fun e => (Within.refl _).bind fun o => ?_
    cases o with
    | none => exact .refl _
    | some comma => exact ih.arguments _
  primary := by
    rw [primary.eq_2 fuel, primary.eq_2 (fuel + 1)]
    refine (Within.refl _).bind fun t => ?_
    split
    case h_8 => exact (Within.refl _).bind fun _ => ih.expression.bind fun inner => .refl _
    all_goals exact .refl _

theorem expressionsWithin (fuel : Nat) : ExpressionsWithin fuel := by
  induction fuel with
  | zero => constructor <;> intros <;> exact .exhausted _
  | succ fuel ih => exact expressionsWithin_succ ih

/-! ### Statements -/

section Parts
variable (fuel : Nat)

theorem expression_within : Within (expression fuel) (expression (fuel + 1)) :=
  (expressionsWithin fuel).expression

theorem parameters_within (given : Array Token) : Within (parameters fuel given) (parameters (fuel + 1) given) := by
  induction fuel generalizing given with
  | zero => exact .exhausted _
  | succ fuel ih =>
    rw [parameters.eq_2 _ fuel, parameters.eq_2 _ (fuel + 1)]
    refine (Within.refl _).bind fun _ => (Within.refl _).bind fun name => (Within.refl _).bind fun o => ?_
    cases o with
    | none => exact .refl _
    | some comma => exact ih _

theorem parametersIfAny_within : Within (parametersIfAny fuel) (parametersIfAny (fuel + 1)) := by
  refine (Within.refl _).bind fun b => ?_
  cases b with
  | true => exact .refl _
  | false => exact parameters_within fuel _

theorem variableDeclaration_within : Within (variableDeclaration fuel) (variableDeclaration (fuel + 1)) := by
  have hinit : Within (initializerIfAny fuel) (initializerIfAny (fuel + 1)) := by
    refine (Within.refl _).bind fun o => ?_
    cases o with
    | none => exact .refl _
    | some equals => exact (expression_within fuel).map
  exact (Within.refl _).bind fun name => hinit.bind fun initializer => .refl _

theorem expressionStatement_within : Within (expressionStatement fuel) (expressionStatement (fuel + 1)) :=
  (expression_within fuel).bind fun _ => .refl _

theorem expressionUnless_within (kind : Kind) : Within (expressionUnless kind fuel) (expressionUnless kind (fuel + 1)) := by
  refine (Within.refl _).bind fun b => ?_
  cases b with
  | true => exact .refl _
  | false => exact (expression_within fuel).map

theorem forInitializer_within : Within (forInitializer fuel) (forInitializer (fuel + 1)) := by
  refine (Within.refl _).bind fun o => ?_
  cases o with
  | some semicolon => exact .refl _
  | none =>
    refine (Within.refl _).bind fun o => ?_
    cases o with
    | some keyword => exact (variableDeclaration_within fuel).map
    | none => exact (expressionStatement_within fuel).map

theorem printStatement_within : Within (printStatement fuel) (printStatement (fuel + 1)) :=
  (expression_within fuel).bind fun _ => .refl _

theorem returnStatement_within (keyword : Token) :
    Within (returnStatement fuel keyword) (returnStatement (fuel + 1) keyword) :=
  (expressionUnless_within fuel .semicolon).bind fun _ => .refl _

end Parts

/-- A greater bound does not change the parsers of statements. -/
structure StatementsWithin (fuel : Nat) : Prop where
  declaration : Within (declaration fuel) (declaration (fuel + 1))
  classDeclaration : Within (classDeclaration fuel) (classDeclaration (fuel + 1))
  methods : ∀ found, Within (methods fuel found) (methods (fuel + 1) found)
  routine : ∀ kind, Within (routine fuel kind) (routine (fuel + 1) kind)
  block : Within (block fuel) (block (fuel + 1))
  items : ∀ found, Within (items fuel found) (items (fuel + 1) found)
  statement : Within (statement fuel) (statement (fuel + 1))
  forStatement : Within (forStatement fuel) (forStatement (fuel + 1))
  ifStatement : Within (ifStatement fuel) (ifStatement (fuel + 1))
  whileStatement : Within (whileStatement fuel) (whileStatement (fuel + 1))

theorem statementsWithin_succ {fuel : Nat} (ih : StatementsWithin fuel) : StatementsWithin (fuel + 1) where
  declaration := by
    rw [declaration.eq_2 fuel, declaration.eq_2 (fuel + 1)]
    refine (Within.refl _).bind fun t => ?_
    split
    · exact (Within.refl _).bind fun _ => ih.classDeclaration
    · exact (Within.refl _).bind fun _ => (ih.routine _).bind fun _ => .refl _
    · exact (Within.refl _).bind fun _ => variableDeclaration_within fuel
    · exact ih.statement
  classDeclaration := by
    rw [classDeclaration.eq_2 fuel, classDeclaration.eq_2 (fuel + 1)]
    exact (Within.refl _).bind fun name => (Within.refl _).bind fun _ => (ih.methods _).bind fun found => .refl _
  methods found := by
    rw [methods.eq_2 _ fuel, methods.eq_2 _ (fuel + 1)]
    refine (Within.refl _).bind fun b => (Within.refl _).bind fun b' => ?_
    split
    · exact .refl _
    · exact (ih.routine _).bind fun f => ih.methods _
  routine kind := by
    rw [routine.eq_2 _ fuel, routine.eq_2 _ (fuel + 1)]
    refine (Within.refl _).bind fun name => (Within.refl _).bind fun _ => ?_
    refine (parametersIfAny_within fuel).bind fun given => (Within.refl _).bind fun _ => ?_
    exact (Within.refl _).bind fun _ => ih.block.bind fun body => .refl _
  block := by
    rw [block.eq_2 fuel, block.eq_2 (fuel + 1)]
    exact (ih.items _).bind fun found => .refl _
  items found := by
    rw [items.eq_2 _ fuel, items.eq_2 _ (fuel + 1)]
    refine (Within.refl _).bind fun b => (Within.refl _).bind fun b' => ?_
    split
    · exact .refl _
    · refine ih.declaration.recovering.bind fun o => ?_
      cases o with
      | some statement => exact ih.items _
      | none => exact ih.items _
  statement := by
    rw [statement.eq_2 fuel, statement.eq_2 (fuel + 1)]
    refine (Within.refl _).bind fun t => ?_
    split
    · exact (Within.refl _).bind fun _ => ih.forStatement
    · exact (Within.refl _).bind fun _ => ih.ifStatement
    · exact (Within.refl _).bind fun _ => printStatement_within fuel
    · exact (Within.refl _).bind fun _ => returnStatement_within fuel t
    · exact (Within.refl _).bind fun _ => ih.whileStatement
    · exact (Within.refl _).bind fun _ => ih.block.bind fun body => .refl _
    · exact expressionStatement_within fuel
  forStatement := by
    rw [forStatement.eq_2 fuel, forStatement.eq_2 (fuel + 1)]
    refine (Within.refl _).bind fun _ => (forInitializer_within fuel).bind fun initializer => ?_
    refine (expressionUnless_within fuel _).bind fun condition => (Within.refl _).bind fun _ => ?_
    refine (expressionUnless_within fuel _).bind fun increment => (Within.refl _).bind fun _ => ?_
    exact ih.statement.bind fun body => .refl _
  ifStatement := by
    rw [ifStatement.eq_2 fuel, ifStatement.eq_2 (fuel + 1)]
    refine (Within.refl _).bind fun _ => (expression_within fuel).bind fun condition => ?_
    refine (Within.refl _).bind fun _ => ih.statement.bind fun whenTrue => (Within.refl _).bind fun o => ?_
    cases o with
    | some keyword => exact ih.statement.bind fun whenFalse => .refl _
    | none => exact .refl _
  whileStatement := by
    rw [whileStatement.eq_2 fuel, whileStatement.eq_2 (fuel + 1)]
    refine (Within.refl _).bind fun _ => (expression_within fuel).bind fun condition => ?_
    exact (Within.refl _).bind fun _ => ih.statement.bind fun body => .refl _

theorem statementsWithin (fuel : Nat) : StatementsWithin fuel := by
  induction fuel with
  | zero => constructor <;> intros <;> exact .exhausted _
  | succ fuel ih => exact statementsWithin_succ ih

theorem program_within (fuel : Nat) (found : Array Stmt) : Within (program fuel found) (program (fuel + 1) found) := by
  induction fuel generalizing found with
  | zero => exact .exhausted _
  | succ fuel ih =>
    rw [program.eq_2 _ fuel, program.eq_2 _ (fuel + 1)]
    refine (Within.refl _).bind fun b => ?_
    split
    · exact .refl _
    · refine (statementsWithin fuel).declaration.recovering.bind fun o => ?_
      cases o with
      | some statement => exact ih _
      | none => exact ih _

/-! ### Settled runs -/

section Settled
variable {α β : Type}

/-- A run that has not reached its bound is the same under every greater one. -/
theorem eq_of_within {p : Nat → Parser α} (hp : ∀ fuel, Within (p fuel) (p (fuel + 1))) {fuel more : Nat} {s : State}
    (hle : fuel ≤ more) (hne : ∀ s', p fuel s ≠ .error .exhausted s') : p more s = p fuel s := by
  induction hle with
  | refl => rfl
  | @step more _ ih =>
    rcases hp more s with ⟨s', hs'⟩ | heq
    · exact absurd (ih.symm.trans hs') (hne s')
    · exact heq.symm.trans ih

/-- What a parser gives under all bounds from some one on. -/
def Settles (p : Nat → Parser α) (s : State) (r : EStateM.Result Stop State α) : Prop :=
  ∃ least, ∀ fuel, least ≤ fuel → p fuel s = r

namespace Settles

variable {p q : Nat → Parser α} {f : Nat → α → Parser β} {s s' : State} {r : EStateM.Result Stop State α}

theorem of_eq (h : ∀ fuel, p fuel s = r) : Settles p s r :=
  ⟨0, fun fuel _ => h fuel⟩

/-- One level down. -/
theorem of_succ {s₀ : State} (hq : Settles q s₀ r) (h : ∀ fuel, p (fuel + 1) s = q fuel s₀) : Settles p s r := by
  obtain ⟨least, hq⟩ := hq
  refine ⟨least + 1, fun fuel hle => ?_⟩
  obtain ⟨fuel, rfl⟩ := Nat.exists_eq_add_of_le' (Nat.le_trans (Nat.le_add_left 1 least) hle)
  rw [h, hq fuel (by omega)]

theorem bind {a : α} {r : EStateM.Result Stop State β} (hp : Settles p s (.ok a s')) (hf : Settles (f · a) s' r) :
    Settles (fun fuel => p fuel >>= f fuel) s r := by
  obtain ⟨least, hp⟩ := hp
  obtain ⟨least', hf⟩ := hf
  refine ⟨max least least', fun fuel hle => ?_⟩
  show (p fuel >>= f fuel) s = r
  rw [bind_eq, hp fuel (by omega)]
  exact hf fuel (by omega)

theorem map {a : α} {g : α → β} (hp : Settles p s (.ok a s')) : Settles (fun fuel => g <$> p fuel) s (.ok (g a) s') :=
  hp.bind (f := fun _ a => pure (g a)) (.of_eq fun _ => rfl)

end Settles

end Settled

/-- On a closed row, what a program settles to is what it gives under the bound it is parsed with. -/
theorem program_eq_of_le {fuel more : Nat} {s : State} (found : Array Stmt) (hs : Closed s.rest)
    (he : 24 * s.left + 13 ≤ fuel) (hle : fuel ≤ more) : program more found s = program fuel found s := by
  refine eq_of_within (p := fun fuel => program fuel found) (fun fuel => program_within fuel found) hle fun s' heq => ?_
  obtain ⟨found', s'', hok, -⟩ := program_ok found hs he
  cases hok.symm.trans heq

theorem Settles.program_eq {fuel : Nat} {s : State} {found : Array Stmt}
    {r : EStateM.Result Stop State (Array Stmt)} (h : Settles (fun fuel => program fuel found) s r) (hs : Closed s.rest)
    (he : 24 * s.left + 13 ≤ fuel) : program fuel found s = r := by
  obtain ⟨least, h⟩ := h
  rw [← program_eq_of_le found hs he (Nat.le_max_left fuel least)]
  exact h _ (Nat.le_max_right fuel least)

end LoxLanguage.Parser
