import Mathlib
import LoxLanguage.Proofs.Parser.Places
import LoxLanguage.Proofs.Scope.Points

/-! What the parser builds. Every tree, also one that is read behind or in front of a broken statement, is made of nodes
with operators, names and keywords out of the tokens, each of a kind that fits its place; nothing is declared by a branch
of an `if` or the body of a loop; and the uses have different sites. `Builds` says this of a parser, together with
where it complains. -/

namespace LoxLanguage

open Token (Kind)

/-! ### Nodes -/

/-- A literal that a token writes down, or one that a keyword stands for. -/
def Literal.IsFrom (tokens : List Token) (value : Literal) : Prop :=
  (∃ t ∈ tokens, (t.kind = .number ∨ t.kind = .string) ∧ t.literal = value) ∨ value = .nil ∨ ∃ b, value = .bool b

/-- A node as the parser makes it from some tokens. -/
def Node.Proper (tokens : List Token) : Node → Prop
  | .expr (.literal value) => value.IsFrom tokens
  | .expr (.unary operator _) => operator ∈ tokens ∧ Parser.isUnary operator.kind = true
  | .expr (.binary _ operator _) => operator ∈ tokens ∧ Operators.isBinary operator.kind = true
  | .expr (.logical _ operator _) => operator ∈ tokens ∧ (operator.kind = .andWord ∨ operator.kind = .orWord)
  | .expr (.use _ name) | .expr (.assign _ name _) | .expr (.get _ name) | .expr (.set _ name _) =>
    name.IsFrom tokens .identifier
  | .expr (.call _ paren _) => paren.IsFrom tokens .rightParen
  | .expr (.this _ keyword) => keyword.IsFrom tokens .thisWord
  | .stmt (.declareVariable name _) | .stmt (.declareClass name _) => name.IsFrom tokens .identifier
  | .stmt (.branch _ whenTrue whenFalse) => whenTrue.declared? = none ∧ ∀ s ∈ whenFalse, s.declared? = none
  | .stmt (.loop _ body) => body.declared? = none
  | .stmt (.returnValue keyword _) => keyword.IsFrom tokens .returnWord
  | .routine f => f.name.IsFrom tokens .identifier ∧ ∀ name ∈ f.parameters, name.IsFrom tokens .identifier
  | _ => True

/-- The site of the use at a point. -/
def Point.site? (p : Point) : Option Site :=
  p.use?.map Use.site

/-- Points of proper nodes, with different sites. -/
abbrev Laid (tokens : List Token) (n m : Site) (ps : List Point) : Prop :=
  Spread Point.site? (fun p => p.node.Proper tokens) n m ps

namespace Parser

/-! ### Parsers of trees -/

/-- The state stays among the tokens, sites are given from the next one on, and a result is a good one. -/
def Builds {α : Type} (tokens : List Token) (n : Site) (p : Parser α) (good : Site → α → Prop) : Prop :=
  ∀ s, s.Among tokens n →
    match p s with
    | .ok a s' => ∃ m, n ≤ m ∧ s'.Among tokens m ∧ good m a
    | .error _ s' => ∃ m, n ≤ m ∧ s'.Among tokens m

section Builds
variable {α β : Type} {tokens : List Token} {n : Site} {p : Parser α} {f : α → Parser β} {good : Site → α → Prop}
  {goodB : Site → β → Prop}

theorem Builds.pure {a : α} (h : good n a) : Builds tokens n (pure a) good :=
  fun _ hs => ⟨n, Nat.le_refl n, hs, h⟩

theorem Builds.stop (stop : Stop) : Builds tokens n (throw stop : Parser α) good :=
  fun _ hs => ⟨n, Nat.le_refl n, hs⟩

theorem Builds.bind (hp : Builds tokens n p good) (hf : ∀ a m, good m a → Builds tokens m (f a) goodB) :
    Builds tokens n (p >>= f) goodB := by
  intro s hs
  have hfirst := hp s hs
  rw [bind_eq]
  cases heq : p s with
  | error stop s' =>
    rw [heq] at hfirst
    exact hfirst
  | ok a s' =>
    rw [heq] at hfirst
    obtain ⟨m, hle, hs', hgood⟩ := hfirst
    have hsecond := hf a m hgood s' hs'
    dsimp only
    cases heq' : f a s' with
    | ok b s'' =>
      rw [heq'] at hsecond
      obtain ⟨k, hle', hs'', hgoodB⟩ := hsecond
      exact ⟨k, Nat.le_trans hle hle', hs'', hgoodB⟩
    | error stop s'' =>
      rw [heq'] at hsecond
      obtain ⟨k, hle', hs''⟩ := hsecond
      exact ⟨k, Nat.le_trans hle hle', hs''⟩

theorem Builds.mono {good' : Site → α → Prop} (hp : Builds tokens n p good) (h : ∀ a m, good m a → good' m a) :
    Builds tokens n p good' := by
  intro s hs
  have hrun := hp s hs
  split at hrun
  · obtain ⟨m, hle, hs', hgood⟩ := hrun
    exact ⟨m, hle, hs', h _ m hgood⟩
  · exact hrun

theorem Keeps.builds {good : α → Prop} (hp : Keeps tokens n p good) :
    Builds tokens n p fun m a => m = n ∧ good a := by
  intro s hs
  have hrun := hp s hs
  cases heq : p s with
  | ok a s' =>
    rw [heq] at hrun
    exact ⟨n, Nat.le_refl n, hrun.1, rfl, hrun.2⟩
  | error stop s' =>
    rw [heq] at hrun
    exact ⟨n, Nat.le_refl n, hrun⟩

/-- Reading tokens in front of a parser of trees. -/
theorem Keeps.andThen {good : α → Prop} (hp : Keeps tokens n p good) (hf : ∀ a, good a → Builds tokens n (f a) goodB) :
    Builds tokens n (p >>= f) goodB := by
  refine hp.builds.bind fun a m h => ?_
  obtain ⟨rfl, ha⟩ := h
  exact hf a ha

theorem Builds.map {g : α → β} (hp : Builds tokens n p good) (h : ∀ a m, good m a → goodB m (g a)) :
    Builds tokens n (g <$> p) goodB :=
  hp.bind fun a m ha => .pure (h a m ha)

theorem freshSite_builds : Builds tokens n freshSite fun m site => site = n ∧ m = n + 1 := by
  intro s hs
  refine ⟨n + 1, Nat.le_succ n, ⟨hs.before, hs.rest, hs.problems, ?_⟩, hs.site, rfl⟩
  rw [← hs.site]

theorem fail_builds {complaint : Complaint} : Builds tokens n (fail complaint : Parser α) good :=
  peek_keeps.andThen fun _ ht => (complain_keeps ht).andThen fun _ _ => .stop _

/-- A broken tree is dropped with its sites. -/
theorem recovering_builds (hp : Builds tokens n p good) :
    Builds tokens n (recovering p) fun m o => n ≤ m ∧ ∀ a ∈ o, good m a := by
  intro s hs
  have hrun := hp s hs
  unfold recovering
  cases heq : p s with
  | ok a s' =>
    rw [heq] at hrun
    obtain ⟨m, hle, hs', hgood⟩ := hrun
    refine ⟨m, hle, hs', hle, fun b hb => ?_⟩
    cases Option.mem_some.mp hb
    exact hgood
  | error stop s' =>
    rw [heq] at hrun
    obtain ⟨m, hle, hs'⟩ := hrun
    cases stop with
    | broken =>
      have hsync := synchronize_keeps s' hs'
      dsimp only
      cases hsynced : synchronize s' with
      | ok _ _ =>
        rw [hsynced] at hsync
        exact ⟨m, hle, hsync.1, hle, nofun⟩
      | error _ _ =>
        rw [hsynced] at hsync
        exact ⟨m, hle, hsync⟩
    | outside => exact ⟨m, hle, hs'⟩
    | exhausted => exact ⟨m, hle, hs'⟩

end Builds

/-! ### Expressions -/

/-- An expression with sites from `n` on and below `m`. -/
def GoodExpr (tokens : List Token) (n m : Site) (e : Expr) : Prop :=
  ∀ c, Laid tokens n m (e.points c)

/-- Expressions with sites from `n` on and below `m`. -/
def GoodExprs (tokens : List Token) (n m : Site) (es : List Expr) : Prop :=
  ∀ c, Laid tokens n m (Expr.pointsAll es c)

section GoodExpr
variable {tokens : List Token} {n k m : Site} {e left right target value : Expr}

theorem GoodExpr.join {level : Level} {operator : Token} (hleft : GoodExpr tokens n k left)
    (hright : GoodExpr tokens k m right) (hmem : operator ∈ tokens) (hlevel : level.has operator.kind = true) :
    GoodExpr tokens n m (level.join left operator right) := by
  intro c
  have hboth := (hleft c).append (hright c)
  cases level
  case disjunction | conjunction =>
    rw [Level.join, Expr.points_logical]
    refine .cons rfl ⟨hmem, ?_⟩ hboth
    cases hkind : operator.kind <;> simp [hkind, Level.has] at hlevel ⊢
  all_goals
    show Laid tokens n m ((Expr.binary left operator right).points c)
    rw [Expr.points_binary]
    refine .cons rfl ⟨hmem, ?_⟩ hboth
    cases hkind : operator.kind <;> simp [hkind, Level.has] at hlevel
    all_goals rfl

/-- The target of an assignment gives its site to the assignment. -/
theorem GoodExpr.assignment (htarget : GoodExpr tokens n k target) (hvalue : GoodExpr tokens k m value)
    (h : assignment? target value = some e) : GoodExpr tokens n m e := by
  intro c
  unfold assignment? at h
  split at h
  · rename_i site name
    cases h
    have huse : Laid tokens n k [⟨.expr (.use site name), c⟩] := htarget c
    have hname : name.IsFrom tokens .identifier := huse.proper _ (List.mem_singleton_self _)
    have hassign : Laid tokens n k [⟨.expr (.assign site name value), c⟩] := huse.exchange rfl hname
    rw [Expr.points_assign]
    exact (hassign.append (hvalue c)).swap
  · rename_i object name
    cases h
    have hget : Laid tokens n k (⟨.expr (.get object name), c⟩ :: object.points c) := htarget c
    have hname : name.IsFrom tokens .identifier := hget.proper _ List.mem_cons_self
    rw [Expr.points_set]
    exact .cons rfl hname ((hget.of_cons rfl).append (hvalue c)).swap
  · cases h

theorem GoodExprs.push {given : Array Expr} (hgiven : GoodExprs tokens n k given.toList) (he : GoodExpr tokens k m e) :
    GoodExprs tokens n m (given.push e).toList := by
  intro c
  have hpush : ∀ es : List Expr, Expr.pointsAll (es ++ [e]) c = Expr.pointsAll es c ++ e.points c := fun es => by
    induction es with
    | nil => exact (Expr.pointsAll_cons e [] c).trans (List.append_nil _)
    | cons first rest ih => rw [List.cons_append, Expr.pointsAll_cons, ih, Expr.pointsAll_cons, List.append_assoc]
  rw [Array.toList_push, hpush]
  exact (hgiven c).append (he c)

end GoodExpr

/-- The parsers of expressions build good ones at a depth. -/
structure BuildsExpressions (tokens : List Token) (fuel : Nat) : Prop where
  expression : ∀ n, Builds tokens n (expression fuel) (GoodExpr tokens n)
  operation : ∀ n tighter, Builds tokens n (operation fuel tighter) (GoodExpr tokens n)
  chain : ∀ n k level tighter left, GoodExpr tokens n k left →
    Builds tokens k (chain fuel level tighter left) (GoodExpr tokens n)
  unary : ∀ n, Builds tokens n (unary fuel) (GoodExpr tokens n)
  suffixes : ∀ n k e, GoodExpr tokens n k e → Builds tokens k (suffixes fuel e) (GoodExpr tokens n)
  argumentsIfAny : ∀ n, Builds tokens n (argumentsIfAny fuel) fun m given => GoodExprs tokens n m given.toList
  arguments : ∀ n k given, GoodExprs tokens n k given.toList →
    Builds tokens k (arguments fuel given) fun m found => GoodExprs tokens n m found.toList
  primary : ∀ n, Builds tokens n (primary fuel) (GoodExpr tokens n)

theorem buildsExpressions_succ {tokens : List Token} {fuel : Nat} (ih : BuildsExpressions tokens fuel) :
    BuildsExpressions tokens (fuel + 1) where
  expression n := by
    rw [expression]
    refine (ih.operation n _).bind fun target k htarget => accept_keeps.andThen fun o ho => ?_
    cases o with
    | none => exact .pure htarget
    | some equals =>
      refine (ih.expression k).bind fun value m hvalue => ?_
      split
      · rename_i hassign
        exact .pure (htarget.assignment hvalue hassign)
      · exact (complain_keeps (ho equals rfl).1).andThen fun _ _ => .pure fun c => (htarget c).widen (hvalue c).le
  operation n tighter := by
    cases tighter with
    | nil =>
      rw [operation]
      exact ih.unary n
    | cons level tighter =>
      rw [operation]
      exact (ih.operation n tighter).bind fun left k hleft => ih.chain n k level tighter left hleft
  chain n k level tighter left hleft := by
    rw [chain]
    refine acceptIf_keeps.andThen fun o ho => ?_
    cases o with
    | none => exact .pure hleft
    | some operator =>
      obtain ⟨hmem, hlevel⟩ := ho operator rfl
      exact (ih.operation k tighter).bind fun right m hright =>
        ih.chain n m level tighter _ (hleft.join hright hmem hlevel)
  unary n := by
    rw [unary]
    refine acceptIf_keeps.andThen fun o ho => ?_
    cases o with
    | none => exact (ih.primary n).bind fun e k he => ih.suffixes n k e he
    | some operator =>
      exact (ih.unary n).bind fun operand m hoperand => .pure fun c => .cons rfl (ho operator rfl) (hoperand c)
  suffixes n k e he := by
    rw [suffixes]
    refine accept_keeps.andThen fun o _ => ?_
    cases o with
    | some opening =>
      refine (ih.argumentsIfAny k).bind fun given m hgiven => expect_keeps.andThen fun paren hparen => ?_
      refine ih.suffixes n m _ fun c => ?_
      rw [Expr.points_call]
      exact .cons rfl hparen ((he c).append (hgiven c))
    | none =>
      refine accept_keeps.andThen fun o _ => ?_
      cases o with
      | some dot => exact expect_keeps.andThen fun name hname => ih.suffixes n k _ fun c => .cons rfl hname (he c)
      | none => exact .pure he
  argumentsIfAny n := by
    rw [argumentsIfAny]
    refine check_keeps.andThen fun closed _ => ?_
    cases closed with
    | true => exact .pure fun c => .nil
    | false => exact ih.arguments n n _ fun c => .nil
  arguments n k given hgiven := by
    rw [arguments]
    refine complainIfFull_keeps.andThen fun _ _ => (ih.expression k).bind fun e m he => accept_keeps.andThen fun o _ => ?_
    cases o with
    | none => exact .pure (hgiven.push he)
    | some comma => exact ih.arguments n m _ (hgiven.push he)
  primary n := by
    rw [primary]
    refine peek_keeps.andThen fun t ht => ?_
    split
    case h_6 hkind | h_7 hkind =>
      refine accept_keeps.andThen fun _ _ => freshSite_builds.bind fun site m h => ?_
      obtain ⟨rfl, rfl⟩ := h
      exact .pure fun c => .use rfl ⟨ht, hkind⟩
    case h_8 =>
      exact accept_keeps.andThen fun _ _ => (ih.expression n).bind fun inner m hinner =>
        expect_keeps.andThen fun _ _ => .pure fun c => .cons rfl trivial (hinner c)
    case h_9 => exact fail_builds
    case h_1 | h_2 => exact accept_keeps.andThen fun _ _ => .pure fun c => .cons rfl (.inr (.inr ⟨_, rfl⟩)) .nil
    case h_3 => exact accept_keeps.andThen fun _ _ => .pure fun c => .cons rfl (.inr (.inl rfl)) .nil
    case h_4 hkind => exact accept_keeps.andThen fun _ _ => .pure fun c => .cons rfl (.inl ⟨t, ht, .inl hkind, rfl⟩) .nil
    case h_5 hkind => exact accept_keeps.andThen fun _ _ => .pure fun c => .cons rfl (.inl ⟨t, ht, .inr hkind, rfl⟩) .nil

theorem buildsExpressions (tokens : List Token) (fuel : Nat) : BuildsExpressions tokens fuel := by
  induction fuel with
  | zero => constructor <;> intros <;> exact .stop _
  | succ fuel ih => exact buildsExpressions_succ ih

/-! ### Statements -/

/-- An expression that may be missing, with sites from `n` on and below `m`. -/
def GoodOption (tokens : List Token) (n m : Site) (e : Option Expr) : Prop :=
  ∀ c, Laid tokens n m (Expr.pointsOption e c)

/-- A declaration or a statement with sites from `n` on and below `m`. -/
def GoodStmt (tokens : List Token) (n m : Site) (s : Stmt) : Prop :=
  ∀ c, Laid tokens n m (s.points c)

/-- A statement that declares nothing. -/
def GoodPlain (tokens : List Token) (n m : Site) (s : Stmt) : Prop :=
  GoodStmt tokens n m s ∧ s.declared? = none

/-- Statements with sites from `n` on and below `m`. -/
def GoodStmts (tokens : List Token) (n m : Site) (body : List Stmt) : Prop :=
  ∀ c, Laid tokens n m (Stmt.pointsAll body c)

/-- A routine with sites from `n` on and below `m`. -/
def GoodRoutine (tokens : List Token) (n m : Site) (f : Function) : Prop :=
  ∀ enclosing c, Laid tokens n m (f.points enclosing c)

/-- Methods with sites from `n` on and below `m`. -/
def GoodMethods (tokens : List Token) (n m : Site) (methods : List Function) : Prop :=
  ∀ c, Laid tokens n m (Function.pointsAll methods c)

section GoodStmt
variable {tokens : List Token} {n k l j m : Site} {s body : Stmt}

theorem GoodStmts.push {found : Array Stmt} (hfound : GoodStmts tokens n k found.toList) (hs : GoodStmt tokens k m s) :
    GoodStmts tokens n m (found.push s).toList := by
  have hpush : ∀ (ss : List Stmt) (c : Context), Stmt.pointsAll (ss ++ [s]) c =
      Stmt.pointsAll ss c ++ s.points (c.declare (Stmt.namesAll ss)) := fun ss => by
    induction ss with
    | nil =>
      intro c
      rw [Stmt.namesAll, List.flatMap_nil, c.declare_nil]
      exact List.append_nil _
    | cons first rest ih =>
      intro c
      rw [List.cons_append, Stmt.pointsAll, ih, c.declare_declare, Stmt.pointsAll, List.append_assoc]
      rfl
  intro c
  rw [Array.toList_push, hpush]
  exact (hfound c).append (hs _)

theorem GoodMethods.push {found : Array Function} {f : Function} (hfound : GoodMethods tokens n k found.toList)
    (hf : GoodRoutine tokens k m f) : GoodMethods tokens n m (found.push f).toList := by
  intro c
  have hpush : ∀ fs : List Function, Function.pointsAll (fs ++ [f]) c =
      Function.pointsAll fs c ++ f.points (if f.isInitializer then .initializer else .method) c := fun fs => by
    induction fs with
    | nil => exact List.append_nil _
    | cons first rest ih => rw [List.cons_append, Function.pointsAll, ih, Function.pointsAll, List.append_assoc]
  rw [Array.toList_push, hpush]
  exact (hfound c).append (hf _ c)

/-- The increment is written in front of the body and stands behind it. -/
theorem GoodPlain.desugarFor {initializer : Option Stmt} {condition increment : Option Expr}
    (hinitializer : ∀ c, Laid tokens n k (Stmt.pointsOption initializer c)) (hcondition : GoodOption tokens k l condition)
    (hincrement : GoodOption tokens l j increment) (hbody : GoodPlain tokens j m body) :
    GoodPlain tokens n m (desugarFor initializer condition increment body) := by
  have htest : GoodExpr tokens k l (condition.getD (.literal (.bool true))) := fun c => by
    cases condition with
    | none => exact .cons rfl (.inr (.inr ⟨true, rfl⟩)) (hcondition c)
    | some e => exact hcondition c
  have hround : ∀ inner : Stmt, GoodStmt tokens l m inner → inner.declared? = none →
      GoodStmt tokens k m (.loop (condition.getD (.literal (.bool true))) inner) :=
    fun inner hinner hnone c => .cons rfl hnone ((htest c).append (hinner c))
  have hloop : GoodStmt tokens k m (Parser.desugarFor none condition increment body) := by
    cases increment with
    | none => exact hround body (fun c => (hincrement c).append (hbody.1 c)) hbody.2
    | some e =>
      refine hround _ (fun c => .cons rfl trivial ?_) rfl
      have hstep : GoodStmt tokens l j (.expression e) := fun c => .cons rfl trivial (hincrement c)
      have hboth := ((hstep ((c.enter .block []).declare body.names)).append (hbody.1 (c.enter .block []))).swap
      rwa [← List.append_nil ((Stmt.expression e).points _)] at hboth
  cases initializer with
  | none => exact ⟨fun c => (hinitializer c).append (hloop c), rfl⟩
  | some first =>
    refine ⟨fun c => .cons rfl trivial ((hinitializer _).append ?_), rfl⟩
    rw [Stmt.pointsAll, Stmt.pointsAll, List.append_nil]
    exact hloop _

end GoodStmt

section Statements
variable {tokens : List Token} {n : Site}

theorem expression_builds (fuel : Nat) : Builds tokens n (expression fuel) (GoodExpr tokens n) :=
  (buildsExpressions tokens fuel).expression n

theorem parameters_keeps (fuel : Nat) {given : Array Token} (hgiven : ∀ name ∈ given, name.IsFrom tokens .identifier) :
    Keeps tokens n (parameters fuel given) fun found => ∀ name ∈ found, name.IsFrom tokens .identifier := by
  induction fuel generalizing given with
  | zero => exact .stop _
  | succ fuel ih =>
    rw [parameters]
    refine complainIfFull_keeps.bind fun _ _ => expect_keeps.bind fun name hname => accept_keeps.bind fun o _ => ?_
    have hpush : ∀ other ∈ given.push name, other.IsFrom tokens .identifier := fun other hother => by
      rcases Array.mem_push.mp hother with hother | rfl
      · exact hgiven other hother
      · exact hname
    cases o with
    | none => exact .pure hpush
    | some comma => exact ih hpush

theorem parametersIfAny_keeps (fuel : Nat) :
    Keeps tokens n (parametersIfAny fuel) fun found => ∀ name ∈ found, name.IsFrom tokens .identifier := by
  refine check_keeps.bind fun closed _ => ?_
  cases closed with
  | true => exact .pure (by simp)
  | false => exact parameters_keeps _ (by simp)

theorem initializerIfAny_builds (fuel : Nat) : Builds tokens n (initializerIfAny fuel) (GoodOption tokens n) := by
  refine accept_keeps.andThen fun o _ => ?_
  cases o with
  | none => exact .pure fun c => .nil
  | some equals => exact (expression_builds fuel).map fun _ _ he => he

theorem variableDeclaration_builds (fuel : Nat) : Builds tokens n (variableDeclaration fuel) (GoodStmt tokens n) :=
  expect_keeps.andThen fun _ hname => (initializerIfAny_builds fuel).bind fun _ _ hvalue =>
    expect_keeps.andThen fun _ _ => .pure fun _ => .cons rfl hname (hvalue _)

theorem expressionStatement_builds (fuel : Nat) : Builds tokens n (expressionStatement fuel) (GoodPlain tokens n) :=
  (expression_builds fuel).bind fun _ _ he => expect_keeps.andThen fun _ _ =>
    .pure ⟨fun c => .cons rfl trivial (he c), rfl⟩

theorem expressionUnless_builds (kind : Kind) (fuel : Nat) :
    Builds tokens n (expressionUnless kind fuel) (GoodOption tokens n) := by
  refine check_keeps.andThen fun closed _ => ?_
  cases closed with
  | true => exact .pure fun c => .nil
  | false => exact (expression_builds fuel).map fun _ _ he => he

theorem printStatement_builds (fuel : Nat) : Builds tokens n (printStatement fuel) (GoodPlain tokens n) :=
  (expression_builds fuel).bind fun _ _ he => expect_keeps.andThen fun _ _ =>
    .pure ⟨fun c => .cons rfl trivial (he c), rfl⟩

theorem returnStatement_builds (fuel : Nat) {keyword : Token} (hkeyword : keyword.IsFrom tokens .returnWord) :
    Builds tokens n (returnStatement fuel keyword) (GoodPlain tokens n) :=
  (expressionUnless_builds _ fuel).bind fun _ _ hvalue => expect_keeps.andThen fun _ _ =>
    .pure ⟨fun c => .cons rfl hkeyword (hvalue c), rfl⟩

theorem forInitializer_builds (fuel : Nat) :
    Builds tokens n (forInitializer fuel) fun m s => ∀ c, Laid tokens n m (Stmt.pointsOption s c) := by
  refine accept_keeps.andThen fun o _ => ?_
  cases o with
  | some semicolon => exact .pure fun c => .nil
  | none =>
    refine accept_keeps.andThen fun o _ => ?_
    cases o with
    | some keyword => exact (variableDeclaration_builds fuel).map fun _ _ hs => hs
    | none => exact (expressionStatement_builds fuel).map fun _ _ hs => hs.1

end Statements

/-- The parsers of statements build good ones at a depth. -/
structure BuildsStatements (tokens : List Token) (fuel : Nat) : Prop where
  declaration : ∀ n, Builds tokens n (declaration fuel) (GoodStmt tokens n)
  classDeclaration : ∀ n, Builds tokens n (classDeclaration fuel) (GoodStmt tokens n)
  methods : ∀ n k found, GoodMethods tokens n k found.toList →
    Builds tokens k (methods fuel found) fun m all => GoodMethods tokens n m all.toList
  routine : ∀ n kind, Builds tokens n (routine fuel kind) (GoodRoutine tokens n)
  block : ∀ n, Builds tokens n (block fuel) (GoodStmts tokens n)
  items : ∀ n k found, GoodStmts tokens n k found.toList →
    Builds tokens k (items fuel found) fun m all => GoodStmts tokens n m all.toList
  statement : ∀ n, Builds tokens n (statement fuel) (GoodPlain tokens n)
  forStatement : ∀ n, Builds tokens n (forStatement fuel) (GoodPlain tokens n)
  ifStatement : ∀ n, Builds tokens n (ifStatement fuel) (GoodPlain tokens n)
  whileStatement : ∀ n, Builds tokens n (whileStatement fuel) (GoodPlain tokens n)

theorem buildsStatements_succ {tokens : List Token} {fuel : Nat} (ih : BuildsStatements tokens fuel) :
    BuildsStatements tokens (fuel + 1) where
  declaration n := by
    rw [declaration]
    refine peek_keeps.andThen fun t _ => ?_
    split
    · exact accept_keeps.andThen fun _ _ => ih.classDeclaration n
    · exact accept_keeps.andThen fun _ _ => (ih.routine n _).bind fun f m hf =>
        .pure fun c => .cons rfl trivial (hf _ _)
    · exact accept_keeps.andThen fun _ _ => variableDeclaration_builds fuel
    · exact (ih.statement n).mono fun s m hs => hs.1
  classDeclaration n := by
    rw [classDeclaration]
    exact expect_keeps.andThen fun name hname => expect_keeps.andThen fun _ _ =>
      (ih.methods n n _ fun c => .nil).bind fun all m hall => expect_keeps.andThen fun _ _ =>
      .pure fun c => .cons rfl hname (hall _)
  methods n k found hfound := by
    rw [methods]
    refine check_keeps.andThen fun closed _ => atEnd_keeps.andThen fun ended _ => ?_
    split
    · exact .pure hfound
    · exact (ih.routine k _).bind fun f m hf => ih.methods n m _ (hfound.push hf)
  routine n kind := by
    rw [routine]
    refine expect_keeps.andThen fun name hname => expect_keeps.andThen fun _ _ =>
      (parametersIfAny_keeps fuel).andThen fun given hgiven => expect_keeps.andThen fun _ _ =>
      expect_keeps.andThen fun _ _ => (ih.block n).bind fun body m hbody => ?_
    refine .pure fun enclosing c => .cons rfl ⟨hname, fun parameter hparameter => ?_⟩ (hbody _)
    exact hgiven parameter (Array.mem_toList_iff.mp hparameter)
  block n := by
    rw [block]
    exact (ih.items n n _ fun c => .nil).bind fun all m hall => expect_keeps.andThen fun _ _ => .pure hall
  items n k found hfound := by
    rw [items]
    refine check_keeps.andThen fun closed _ => atEnd_keeps.andThen fun ended _ => ?_
    split
    · exact .pure hfound
    · refine (recovering_builds (ih.declaration k)).bind fun o m ho => ?_
      cases o with
      | some s => exact ih.items n m _ (hfound.push (ho.2 s rfl))
      | none => exact ih.items n m _ fun c => (hfound c).widen ho.1
  statement n := by
    rw [statement]
    refine peek_keeps.andThen fun t ht => ?_
    split
    · exact accept_keeps.andThen fun _ _ => ih.forStatement n
    · exact accept_keeps.andThen fun _ _ => ih.ifStatement n
    · exact accept_keeps.andThen fun _ _ => printStatement_builds fuel
    · rename_i hkind
      exact accept_keeps.andThen fun _ _ => returnStatement_builds fuel ⟨ht, hkind⟩
    · exact accept_keeps.andThen fun _ _ => ih.whileStatement n
    · exact accept_keeps.andThen fun _ _ => (ih.block n).bind fun body m hbody =>
        .pure ⟨fun c => .cons rfl trivial (hbody _), rfl⟩
    · exact expressionStatement_builds fuel
  forStatement n := by
    rw [forStatement]
    exact expect_keeps.andThen fun _ _ => (forInitializer_builds fuel).bind fun initializer k hinitializer =>
      (expressionUnless_builds _ fuel).bind fun condition l hcondition => expect_keeps.andThen fun _ _ =>
      (expressionUnless_builds _ fuel).bind fun increment j hincrement => expect_keeps.andThen fun _ _ =>
      (ih.statement j).bind fun body m hbody =>
      .pure (.desugarFor hinitializer hcondition hincrement hbody)
  ifStatement n := by
    rw [ifStatement]
    refine expect_keeps.andThen fun _ _ => (expression_builds fuel).bind fun condition k hcondition =>
      expect_keeps.andThen fun _ _ => (ih.statement k).bind fun whenTrue l htrue => accept_keeps.andThen fun o _ => ?_
    cases o with
    | some keyword =>
      refine (ih.statement l).bind fun whenFalse m hfalse => .pure ⟨fun c => .cons rfl ⟨htrue.2, ?_⟩ ?_, rfl⟩
      · rintro s ⟨⟩
        exact hfalse.2
      · exact (hcondition c).append ((htrue.1 c).append (hfalse.1 _))
    | none =>
      exact .pure ⟨fun c => .cons rfl ⟨htrue.2, nofun⟩ ((hcondition c).append ((htrue.1 c).append .nil)), rfl⟩
  whileStatement n := by
    rw [whileStatement]
    exact expect_keeps.andThen fun _ _ => (expression_builds fuel).bind fun condition k hcondition =>
      expect_keeps.andThen fun _ _ => (ih.statement k).bind fun body m hbody =>
      .pure ⟨fun c => .cons rfl hbody.2 ((hcondition c).append (hbody.1 c)), rfl⟩

theorem buildsStatements (tokens : List Token) (fuel : Nat) : BuildsStatements tokens fuel := by
  induction fuel with
  | zero => constructor <;> intros <;> exact .stop _
  | succ fuel ih => exact buildsStatements_succ ih

theorem program_builds {tokens : List Token} (fuel : Nat) {n k : Site} {found : Array Stmt}
    (hfound : GoodStmts tokens n k found.toList) :
    Builds tokens k (program fuel found) fun m all => GoodStmts tokens n m all.toList := by
  induction fuel generalizing k found with
  | zero => exact .stop _
  | succ fuel ih =>
    rw [program]
    refine atEnd_keeps.andThen fun ended _ => ?_
    cases ended with
    | true => exact .pure hfound
    | false =>
      refine (recovering_builds ((buildsStatements tokens fuel).declaration k)).bind fun o m ho => ?_
      cases o with
      | some s => exact ih (hfound.push (ho.2 s rfl))
      | none => exact ih fun c => (hfound c).widen ho.1

end Parser

theorem parse_builds (first : Site) (tokens : List Token) :
    (∀ t complaint, .atToken t complaint ∈ (parse first tokens).problems → t ∈ tokens) ∧
      Laid tokens first (parse first tokens).nextSite (points (parse first tokens).statements) := by
  have hstart : Parser.State.Among tokens first ⟨[], tokens, first, #[]⟩ := ⟨by simp, fun _ => id, by simp, rfl⟩
  have hempty : Parser.GoodStmts tokens first first (#[] : Array Stmt).toList := fun c => .nil
  have hrun := Parser.program_builds (Parser.fuelFor tokens.length) hempty _ hstart
  unfold parse
  split
  · rename_i heq
    rw [heq] at hrun
    obtain ⟨m, hle, hs, hall⟩ := hrun
    refine ⟨fun t complaint h => hs.problems t complaint (Array.mem_toList_iff.mp h), ?_⟩
    rw [← hs.site] at hall
    exact hall .top
  · rename_i heq
    rw [heq] at hrun
    obtain ⟨m, hle, hs⟩ := hrun
    refine ⟨fun t complaint h => hs.problems t complaint (Array.mem_toList_iff.mp h), ?_⟩
    rw [← hs.site] at hle
    exact Spread.nil.widen hle

/-- Every complaint of parsing is at one of the tokens. -/
theorem mem_of_parse_problems {first : Site} {tokens : List Token} {t : Token} {complaint : Complaint}
    (h : .atToken t complaint ∈ (parse first tokens).problems) : t ∈ tokens :=
  (parse_builds first tokens).1 t complaint h

/-- The statements of a program are laid out between the first site and the next free one, whatever has been complained
    about. -/
theorem parse_laid (first : Site) (tokens : List Token) :
    Laid tokens first (parse first tokens).nextSite (points (parse first tokens).statements) :=
  (parse_builds first tokens).2

end LoxLanguage
