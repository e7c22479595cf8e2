import LoxLanguage.Proofs.Grammar.Basic

/-! Other lines for the tokens of a program and other labels for its uses. What a program means does not depend on
them: the tokens of a tree with other lines are derived as the tree with other lines, and the sites of a
derivation may start anywhere. -/

namespace LoxLanguage

/-- A line for each token and a label for each site. -/
structure Relabelling where
  line : Token → Int
  site : Site → Site

namespace Relabelling

variable (ρ : Relabelling)

/-- A token on its new line. -/
def token (t : Token) : Token :=
  { t with line := ρ.line t }

@[simp]
theorem token_kind (t : Token) : (ρ.token t).kind = t.kind := rfl

@[simp]
theorem token_lexeme (t : Token) : (ρ.token t).lexeme = t.lexeme := rfl

@[simp]
theorem token_literal (t : Token) : (ρ.token t).literal = t.literal := rfl

/-- From a site on, sites that follow each other still do. -/
def RunsFrom (n : Site) : Prop :=
  ∀ i, n ≤ i → ρ.site (i + 1) = ρ.site i + 1

theorem RunsFrom.mono {ρ : Relabelling} {n m : Site} (h : ρ.RunsFrom n) (hle : n ≤ m) : ρ.RunsFrom m :=
  fun i hi => h i (Nat.le_trans hle hi)

/-- The tokens stay as they are, and the sites start elsewhere. -/
def startingAt (first start : Site) : Relabelling :=
  ⟨Token.line, fun i => i - first + start⟩

theorem startingAt_runsFrom (first start : Site) : (startingAt first start).RunsFrom first := by
  intro i hi
  show i + 1 - first + start = i - first + start + 1
  rw [Nat.succ_sub hi, Nat.succ_add]

theorem map_startingAt (first start : Site) (ts : List Token) : ts.map (startingAt first start).token = ts :=
  List.map_id ts

/-- The sites stay as they are, and the tokens get other lines. -/
def ofLines (line : Token → Int) : Relabelling :=
  ⟨line, id⟩

theorem ofLines_runsFrom (line : Token → Int) (n : Site) : (ofLines line).RunsFrom n :=
  fun _ _ => rfl

end Relabelling

/-! ### Trees -/

section Trees
variable (ρ : Relabelling)

mutual

/-- An expression with its tokens and sites relabelled. -/
def Expr.relabel : Expr → Expr
  | .literal value => .literal value
  | .unary operator operand => .unary (ρ.token operator) operand.relabel
  | .binary left operator right => .binary left.relabel (ρ.token operator) right.relabel
  | .logical left operator right => .logical left.relabel (ρ.token operator) right.relabel
  | .grouping inner => .grouping inner.relabel
  | .use site name => .use (ρ.site site) (ρ.token name)
  | .assign site name value => .assign (ρ.site site) (ρ.token name) value.relabel
  | .call callee paren arguments => .call callee.relabel (ρ.token paren) (Expr.relabelAll arguments)
  | .get object name => .get object.relabel (ρ.token name)
  | .set object name value => .set object.relabel (ρ.token name) value.relabel
  | .this site keyword => .this (ρ.site site) (ρ.token keyword)

def Expr.relabelAll : List Expr → List Expr
  | [] => []
  | e :: rest => e.relabel :: Expr.relabelAll rest

end

mutual

/-- A statement with its tokens and sites relabelled. -/
def Stmt.relabel : Stmt → Stmt
  | .expression e => .expression (e.relabel ρ)
  | .print e => .print (e.relabel ρ)
  | .declareVariable name initializer => .declareVariable (ρ.token name) (initializer.map (Expr.relabel ρ))
  | .block body => .block (Stmt.relabelAll body)
  | .branch condition whenTrue whenFalse =>
    .branch (condition.relabel ρ) whenTrue.relabel (Stmt.relabelOption whenFalse)
  | .loop condition body => .loop (condition.relabel ρ) body.relabel
  | .declareFunction f => .declareFunction f.relabel
  | .returnValue keyword value => .returnValue (ρ.token keyword) (value.map (Expr.relabel ρ))
  | .declareClass name methods => .declareClass (ρ.token name) (Function.relabelAll methods)

def Stmt.relabelAll : List Stmt → List Stmt
  | [] => []
  | s :: rest => s.relabel :: Stmt.relabelAll rest

def Stmt.relabelOption : Option Stmt → Option Stmt
  | none => none
  | some s => some s.relabel

/-- A function with its tokens and sites relabelled. -/
def Function.relabel : Function → Function
  | .mk name parameters body => .mk (ρ.token name) (parameters.map ρ.token) (Stmt.relabelAll body)

def Function.relabelAll : List Function → List Function
  | [] => []
  | f :: rest => f.relabel :: Function.relabelAll rest

end

@[simp]
theorem Expr.relabelAll_eq (es : List Expr) : Expr.relabelAll ρ es = es.map (Expr.relabel ρ) := by
  induction es with
  | nil => rfl
  | cons e rest ih => rw [Expr.relabelAll, ih, List.map_cons]

@[simp]
theorem Stmt.relabelAll_eq (body : List Stmt) : Stmt.relabelAll ρ body = body.map (Stmt.relabel ρ) := by
  induction body with
  | nil => rfl
  | cons s rest ih => rw [Stmt.relabelAll, ih, List.map_cons]

@[simp]
theorem Stmt.relabelOption_eq (s : Option Stmt) : Stmt.relabelOption ρ s = s.map (Stmt.relabel ρ) := by
  cases s <;> rfl

@[simp]
theorem Function.relabelAll_eq (methods : List Function) :
    Function.relabelAll ρ methods = methods.map (Function.relabel ρ) := by
  induction methods with
  | nil => rfl
  | cons f rest ih => rw [Function.relabelAll, ih, List.map_cons]

variable (f : Function)

@[simp]
theorem Function.relabel_name : (f.relabel ρ).name = ρ.token f.name := by
  cases f
  rfl

@[simp]
theorem Function.relabel_parameters : (f.relabel ρ).parameters = f.parameters.map ρ.token := by
  cases f
  rfl

@[simp]
theorem Function.relabel_body : (f.relabel ρ).body = f.body.map (Stmt.relabel ρ) := by
  cases f
  simp [Function.relabel, Function.body]

@[simp]
theorem Function.relabel_isInitializer : (f.relabel ρ).isInitializer = f.isInitializer := by
  rw [isInitializer, isInitializer, relabel_name, Relabelling.token_lexeme]

end Trees

/-! ### Derivations -/

namespace Grammar

variable {ρ : Relabelling} {n m : Site} {ts : List Token}

theorem relabel_node {X : Symbol} {rule : OperatorRule} (hrule : X.rule? = some rule) (left : Expr) (operator : Token)
    (right : Expr) :
    (rule.node left operator right).relabel ρ = rule.node (left.relabel ρ) (ρ.token operator) (right.relabel ρ) := by
  cases X <;> cases hrule <;> simp [Expr.relabel]

/-- An expression is derived in the same way when its tokens and uses are labelled otherwise. -/
theorem Derives.relabel {X : Symbol} {e : Expr} (h : Derives X n ts e m) (hρ : ρ.RunsFrom n) :
    n ≤ m ∧ Derives X (ρ.site n) (ts.map ρ.token) (e.relabel ρ) (ρ.site m) := by
  induction h using @Derives.rec _
    (fun n ts given m _ => ρ.RunsFrom n →
      n ≤ m ∧ Arguments (ρ.site n) (ts.map ρ.token) (given.map (Expr.relabel ρ)) (ρ.site m))
    (fun n ts given m _ => ρ.RunsFrom n →
      n ≤ m ∧ SomeArguments (ρ.site n) (ts.map ρ.token) (given.map (Expr.relabel ρ)) (ρ.site m)) with
  | @assignVariable n _ _ _ _ _ hname hequals _ ih =>
    obtain ⟨hle, hvalue⟩ := ih (hρ.mono (Nat.le_succ n))
    rw [hρ n (Nat.le_refl n)] at hvalue
    refine ⟨Nat.le_of_succ_le hle, ?_⟩
    rw [List.map_cons, List.map_cons, Expr.relabel]
    exact .assignVariable hname hequals hvalue
  | assignProperty _ hdot hname hequals _ ihObject ihValue =>
    obtain ⟨hle, hobject⟩ := ihObject hρ
    obtain ⟨hle', hvalue⟩ := ihValue (hρ.mono hle)
    refine ⟨Nat.le_trans hle hle', ?_⟩
    rw [List.map_append, List.map_cons, List.map_cons, List.map_cons, Expr.relabel]
    exact .assignProperty hobject hdot hname hequals hvalue
  | value _ ih =>
    obtain ⟨hle, h⟩ := ih hρ
    exact ⟨hle, .value h⟩
  | operand hrule _ ih =>
    obtain ⟨hle, h⟩ := ih hρ
    exact ⟨hle, .operand hrule h⟩
  | operator hrule _ hoperator _ ihLeft ihRight =>
    obtain ⟨hle, hleft⟩ := ihLeft hρ
    obtain ⟨hle', hright⟩ := ihRight (hρ.mono hle)
    refine ⟨Nat.le_trans hle hle', ?_⟩
    rw [List.map_append, List.map_cons, relabel_node hrule]
    exact .operator hrule hleft hoperator hright
  | negation hoperator _ ih =>
    obtain ⟨hle, h⟩ := ih hρ
    exact ⟨hle, .negation hoperator h⟩
  | plain _ ih =>
    obtain ⟨hle, h⟩ := ih hρ
    exact ⟨hle, .plain h⟩
  | atom _ ih =>
    obtain ⟨hle, h⟩ := ih hρ
    exact ⟨hle, .atom h⟩
  | call _ hopening _ hlength hclosing ih ihGiven =>
    obtain ⟨hle, hcallee⟩ := ih hρ
    obtain ⟨hle', hgiven⟩ := ihGiven (hρ.mono hle)
    refine ⟨Nat.le_trans hle hle', ?_⟩
    rw [List.map_append, List.map_cons, List.map_append, Expr.relabel, Expr.relabelAll_eq]
    exact .call hcallee hopening hgiven (by rwa [List.length_map]) hclosing
  | property _ hdot hname ih =>
    obtain ⟨hle, hobject⟩ := ih hρ
    refine ⟨hle, ?_⟩
    rw [List.map_append]
    exact .property hobject hdot hname
  | trueWord h => exact ⟨Nat.le_refl _, .trueWord h⟩
  | falseWord h => exact ⟨Nat.le_refl _, .falseWord h⟩
  | nilWord h => exact ⟨Nat.le_refl _, .nilWord h⟩
  | @constant _ t h => exact ⟨Nat.le_refl _, @Derives.constant _ (ρ.token t) h⟩
  | @this n _ h =>
    rw [hρ n (Nat.le_refl n)]
    exact ⟨Nat.le_succ n, .this h⟩
  | @name n _ h =>
    rw [hρ n (Nat.le_refl n)]
    exact ⟨Nat.le_succ n, .name h⟩
  | grouping hopening _ hclosing ih =>
    obtain ⟨hle, h⟩ := ih hρ
    refine ⟨hle, ?_⟩
    rw [List.map_cons, List.map_append]
    exact .grouping hopening h hclosing
  | none => exact ⟨Nat.le_refl _, .none⟩
  | some _ ih hρ =>
    obtain ⟨hle, h⟩ := ih hρ
    exact ⟨hle, .some h⟩
  | last _ ih hρ =>
    obtain ⟨hle, h⟩ := ih hρ
    exact ⟨hle, .last h⟩
  | more _ hcomma _ ih ihGiven hρ =>
    obtain ⟨hle, h⟩ := ih hρ
    obtain ⟨hle', hgiven⟩ := ihGiven (hρ.mono hle)
    refine ⟨Nat.le_trans hle hle', ?_⟩
    rw [List.map_append, List.map_cons]
    exact .more h hcomma hgiven

theorem OptionalExpression.relabel {e : Option Expr} (h : OptionalExpression n ts e m) (hρ : ρ.RunsFrom n) :
    n ≤ m ∧ OptionalExpression (ρ.site n) (ts.map ρ.token) (e.map (Expr.relabel ρ)) (ρ.site m) := by
  cases h with
  | none => exact ⟨Nat.le_refl _, .none⟩
  | some h =>
    obtain ⟨hle, h⟩ := h.relabel hρ
    exact ⟨hle, .some h⟩

theorem SomeParameters.relabel {names : List Token} (h : SomeParameters ts names) :
    SomeParameters (ts.map ρ.token) (names.map ρ.token) := by
  induction h with
  | last h => exact .last h
  | more h hcomma _ ih => exact .more h hcomma ih

theorem Parameters.relabel {names : List Token} (h : Parameters ts names) :
    Parameters (ts.map ρ.token) (names.map ρ.token) := by
  cases h with
  | none => exact .none
  | some h => exact .some h.relabel

theorem Variable.relabel {a : Stmt} (h : Variable n ts a m) (hρ : ρ.RunsFrom n) :
    n ≤ m ∧ Variable (ρ.site n) (ts.map ρ.token) (a.relabel ρ) (ρ.site m) := by
  cases h with
  | plain hkeyword hname hsemicolon => exact ⟨Nat.le_refl _, .plain hkeyword hname hsemicolon⟩
  | initialized hkeyword hname hequals h hsemicolon =>
    obtain ⟨hle, h⟩ := h.relabel hρ
    refine ⟨hle, ?_⟩
    rw [List.map_cons, List.map_cons, List.map_cons, List.map_append]
    exact .initialized hkeyword hname hequals h hsemicolon

theorem Initializer.relabel {a : Option Stmt} (h : Initializer n ts a m) (hρ : ρ.RunsFrom n) :
    n ≤ m ∧ Initializer (ρ.site n) (ts.map ρ.token) (a.map (Stmt.relabel ρ)) (ρ.site m) := by
  cases h with
  | none hsemicolon => exact ⟨Nat.le_refl _, .none hsemicolon⟩
  | declaration h =>
    obtain ⟨hle, h⟩ := h.relabel hρ
    exact ⟨hle, .declaration h⟩
  | expression h hsemicolon =>
    obtain ⟨hle, h⟩ := h.relabel hρ
    refine ⟨hle, ?_⟩
    rw [List.map_append]
    exact .expression h hsemicolon

theorem relabel_forTree (initializer : Option Stmt) (condition increment : Option Expr) (body : Stmt) :
    (forTree initializer condition increment body).relabel ρ =
      forTree (initializer.map (Stmt.relabel ρ)) (condition.map (Expr.relabel ρ)) (increment.map (Expr.relabel ρ))
        (body.relabel ρ) := by
  cases initializer <;> cases condition <;> cases increment <;>
    simp [forTree, whileTree, Stmt.relabel, Expr.relabel]

/-- A declaration is derived in the same way when its tokens and uses are labelled otherwise. -/
theorem Declaration.relabel {a : Stmt} (h : Declaration n ts a m) (hρ : ρ.RunsFrom n) :
    n ≤ m ∧ Declaration (ρ.site n) (ts.map ρ.token) (a.relabel ρ) (ρ.site m) := by
  induction h using @Declaration.rec _
    (fun n ts f m _ => ρ.RunsFrom n → n ≤ m ∧ Routine (ρ.site n) (ts.map ρ.token) (f.relabel ρ) (ρ.site m))
    (fun n ts all m _ => ρ.RunsFrom n →
      n ≤ m ∧ Methods (ρ.site n) (ts.map ρ.token) (all.map (Function.relabel ρ)) (ρ.site m))
    (fun n ts body m _ => ρ.RunsFrom n →
      n ≤ m ∧ Declarations (ρ.site n) (ts.map ρ.token) (body.map (Stmt.relabel ρ)) (ρ.site m))
    (fun dangles n ts a m _ => ρ.RunsFrom n →
      n ≤ m ∧ Statement dangles (ρ.site n) (ts.map ρ.token) (a.relabel ρ) (ρ.site m)) with
  | classes hkeyword hname hopening _ hclosing ih =>
    obtain ⟨hle, hmethods⟩ := ih hρ
    refine ⟨hle, ?_⟩
    rw [List.map_cons, List.map_cons, List.map_cons, List.map_append, Stmt.relabel, Function.relabelAll_eq]
    exact .classes hkeyword hname hopening hmethods hclosing
  | function hkeyword _ ih =>
    obtain ⟨hle, h⟩ := ih hρ
    exact ⟨hle, .function hkeyword h⟩
  | binding h =>
    obtain ⟨hle, h⟩ := h.relabel hρ
    exact ⟨hle, .binding h⟩
  | statement _ ih =>
    obtain ⟨hle, h⟩ := ih hρ
    exact ⟨hle, .statement h⟩
  | mk hname hopening hparameters hlength hclosing hbrace _ hendBrace ih hρ =>
    obtain ⟨hle, hbody⟩ := ih hρ
    refine ⟨hle, ?_⟩
    simp only [List.map_cons, List.map_append, Function.relabel, Stmt.relabelAll_eq]
    exact .mk hname hopening hparameters.relabel (by rwa [List.length_map]) hclosing hbrace hbody hendBrace
  | nil => exact ⟨Nat.le_refl _, .nil⟩
  | cons _ _ ih ihMethods hρ =>
    obtain ⟨hle, h⟩ := ih hρ
    obtain ⟨hle', hmethods⟩ := ihMethods (hρ.mono hle)
    refine ⟨Nat.le_trans hle hle', ?_⟩
    rw [List.map_append]
    exact .cons h hmethods
  | none => exact ⟨Nat.le_refl _, .none⟩
  | more _ _ ih ihBody hρ =>
    obtain ⟨hle, h⟩ := ih hρ
    obtain ⟨hle', hbody⟩ := ihBody (hρ.mono hle)
    refine ⟨Nat.le_trans hle hle', ?_⟩
    rw [List.map_append]
    exact .more h hbody
  | expression h hsemicolon hρ =>
    obtain ⟨hle, h⟩ := Derives.relabel h hρ
    refine ⟨hle, ?_⟩
    rw [List.map_append]
    exact .expression h hsemicolon
  | print hkeyword h hsemicolon hρ =>
    obtain ⟨hle, h⟩ := Derives.relabel h hρ
    refine ⟨hle, ?_⟩
    rw [List.map_cons, List.map_append]
    exact .print hkeyword h hsemicolon
  | returns hkeyword h hsemicolon hρ =>
    obtain ⟨hle, h⟩ := h.relabel hρ
    refine ⟨hle, ?_⟩
    rw [List.map_cons, List.map_append]
    exact .returns hkeyword h hsemicolon
  | block hopening _ hclosing ih hρ =>
    obtain ⟨hle, hbody⟩ := ih hρ
    refine ⟨hle, ?_⟩
    rw [List.map_cons, List.map_append, Stmt.relabel, Stmt.relabelAll_eq]
    exact .block hopening hbody hclosing
  | loop hkeyword hopening hcondition hclosing _ ih hρ =>
    obtain ⟨hle, hcondition⟩ := Derives.relabel hcondition hρ
    obtain ⟨hle', hbody⟩ := ih (hρ.mono hle)
    refine ⟨Nat.le_trans hle hle', ?_⟩
    rw [List.map_cons, List.map_cons, List.map_append]
    exact .loop hkeyword hopening hcondition hclosing hbody
  | loopFor hkeyword hopening hinitializer hcondition hsemicolon hincrement hclosing _ ih hρ =>
    obtain ⟨hle₁, hinitializer⟩ := hinitializer.relabel hρ
    obtain ⟨hle₂, hcondition⟩ := hcondition.relabel (hρ.mono hle₁)
    have hle₂ := Nat.le_trans hle₁ hle₂
    obtain ⟨hle₃, hincrement⟩ := hincrement.relabel (hρ.mono hle₂)
    have hle₃ := Nat.le_trans hle₂ hle₃
    obtain ⟨hle₄, hbody⟩ := ih (hρ.mono hle₃)
    refine ⟨Nat.le_trans hle₃ hle₄, ?_⟩
    simp only [List.map_cons, List.map_append, relabel_forTree]
    exact .loopFor hkeyword hopening hinitializer hcondition hsemicolon hincrement hclosing hbody
  | branch hkeyword hopening hcondition hclosing _ ih hρ =>
    obtain ⟨hle, hcondition⟩ := Derives.relabel hcondition hρ
    obtain ⟨hle', htrue⟩ := ih (hρ.mono hle)
    refine ⟨Nat.le_trans hle hle', ?_⟩
    rw [List.map_cons, List.map_cons, List.map_append]
    exact .branch hkeyword hopening hcondition hclosing htrue
  | branchElse hkeyword hopening hcondition hclosing _ hotherwise _ ihTrue ihFalse hρ =>
    obtain ⟨hle₁, hcondition⟩ := Derives.relabel hcondition hρ
    obtain ⟨hle₂, htrue⟩ := ihTrue (hρ.mono hle₁)
    have hle₂ := Nat.le_trans hle₁ hle₂
    obtain ⟨hle₃, hfalse⟩ := ihFalse (hρ.mono hle₂)
    refine ⟨Nat.le_trans hle₂ hle₃, ?_⟩
    simp only [List.map_cons, List.map_append]
    exact .branchElse hkeyword hopening hcondition hclosing htrue hotherwise hfalse

/-- A program is derived in the same way when its tokens and uses are labelled otherwise. -/
theorem Program.relabel {body : List Stmt} (h : Program n ts body m) (hρ : ρ.RunsFrom n) :
    n ≤ m ∧ Program (ρ.site n) (ts.map ρ.token) (body.map (Stmt.relabel ρ)) (ρ.site m) := by
  induction h using @Declarations.rec (fun _ _ _ _ _ => True) (fun _ _ _ _ _ => True) (fun _ _ _ _ _ => True) _
    (fun _ _ _ _ _ _ => True) with
  | none => exact ⟨Nat.le_refl _, .none⟩
  | more h _ _ ih =>
    obtain ⟨hle, h⟩ := h.relabel hρ
    obtain ⟨hle', hbody⟩ := ih (hρ.mono hle)
    refine ⟨Nat.le_trans hle hle', ?_⟩
    rw [List.map_append]
    exact .more h hbody
  | _ => trivial

/-- Two programs, one behind the other, are a program. -/
theorem Program.append {k : Site} {us : List Token} {body more : List Stmt} (h : Program n ts body k)
    (hmore : Program k us more m) : Program n (ts ++ us) (body ++ more) m := by
  induction h using @Declarations.rec (fun _ _ _ _ _ => True) (fun _ _ _ _ _ => True) (fun _ _ _ _ _ => True) _
    (fun _ _ _ _ _ _ => True) with
  | none => exact hmore
  | more h _ _ ih =>
    rw [List.append_assoc, List.cons_append]
    exact .more h (ih hmore)
  | _ => trivial

end Grammar

end LoxLanguage
