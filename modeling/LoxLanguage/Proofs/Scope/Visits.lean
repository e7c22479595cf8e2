import LoxLanguage.Scope.Resolve

/-! The walk of the resolver over a program. A visit is a node together with what the resolver knows when it comes
to it; `Stmt.visitsAll` lists the visits of a walk in order. The distances and the problems that resolution
finds are those of the visits, one after the other (`Stmt.resolveAll_log`), so a program without problems
is one whose visits all are without. -/

namespace LoxLanguage

/-! ### Scopes -/

/-- Marks a name in the innermost scope: declared, or with its initializer finished. -/
def markName (scopes : List Scope) (name : String) (finished : Bool) : List Scope :=
  match scopes with
  | [] => []
  | scope :: outer => scope.put name finished :: outer

/-- The name that a statement declares. -/
def Stmt.declared? : Stmt → Option Token
  | .declareVariable name _ => some name
  | .declareFunction f => some f.name
  | .declareClass name _ => some name
  | _ => none

/-- The scopes behind a declaration of a name, if there is one. -/
def scopesAfter (scopes : List Scope) : Option Token → List Scope
  | none => scopes
  | some name => markName (markName scopes name.lexeme false) name.lexeme true

namespace Resolution

/-- Inside the body of a routine, with its parameters declared. -/
def inBody (r : Resolution) (enclosing : Enclosing) (names : List Token) : Resolution :=
  ({ r with enclosing }.enter []).parameters names

/-- Inside the class that has been declared last. -/
def inClassBody (r : Resolution) : Resolution :=
  { r with inClass := true }.enter [("this", true)]

variable (r : Resolution)

@[simp]
theorem declare_scopes (name : Token) : (r.declare name).scopes = markName r.scopes name.lexeme false := by
  unfold declare
  cases h : r.scopes with
  | nil => exact h
  | cons scope outer => rfl

@[simp]
theorem define_scopes (name : Token) : (r.define name).scopes = markName r.scopes name.lexeme true := by
  unfold define
  cases h : r.scopes with
  | nil => exact h
  | cons scope outer => rfl

@[simp]
theorem bind_scopes (site : Site) (name : String) : (r.bind site name).scopes = r.scopes := by
  unfold bind
  split <;> rfl

@[simp]
theorem checkRead_scopes (name : Token) : (r.checkRead name).scopes = r.scopes := by
  unfold checkRead
  split
  · split <;> rfl
  · rfl

@[simp]
theorem checkReturn_scopes (keyword : Token) (hasValue : Bool) : (r.checkReturn keyword hasValue).scopes = r.scopes := by
  unfold checkReturn
  dsimp only
  split <;> split <;> rfl

theorem leave_scopes : r.leave.scopes = r.scopes.tail := rfl

theorem tail_markName (scopes : List Scope) (name : String) (finished : Bool) :
    (markName scopes name finished).tail = scopes.tail := by
  cases scopes <;> rfl

theorem parameters_scopes (names : List Token) :
    (r.parameters names).scopes = names.foldl (fun scopes name => scopesAfter scopes (some name)) r.scopes := by
  unfold parameters
  induction names generalizing r with
  | nil => rfl
  | cons name rest ih => rw [List.foldl_cons, List.foldl_cons, ih, define_scopes, declare_scopes]; rfl

theorem tail_parameters_scopes (names : List Token) : (r.parameters names).scopes.tail = r.scopes.tail := by
  unfold parameters
  induction names generalizing r with
  | nil => rfl
  | cons name rest ih => rw [List.foldl_cons, ih, define_scopes, declare_scopes, tail_markName, tail_markName]

end Resolution

open Resolution

mutual

theorem Expr.resolve_scopes : ∀ (e : Expr) (r : Resolution), (e.resolve r).scopes = r.scopes
  | .literal _, _ => rfl
  | .unary _ operand, r => by rw [Expr.resolve, operand.resolve_scopes]
  | .binary left _ right, r => by rw [Expr.resolve, right.resolve_scopes, left.resolve_scopes]
  | .logical left _ right, r => by rw [Expr.resolve, right.resolve_scopes, left.resolve_scopes]
  | .grouping inner, r => by rw [Expr.resolve, inner.resolve_scopes]
  | .use _ _, r => by rw [Expr.resolve, bind_scopes, checkRead_scopes]
  | .assign _ _ value, r => by rw [Expr.resolve, bind_scopes, value.resolve_scopes]
  | .call callee _ arguments, r => by rw [Expr.resolve, Expr.resolveAll_scopes arguments, callee.resolve_scopes]
  | .get object _, r => by rw [Expr.resolve, object.resolve_scopes]
  | .set object _ value, r => by rw [Expr.resolve, object.resolve_scopes, value.resolve_scopes]
  | .this _ _, r => by
    rw [Expr.resolve]
    split
    · rw [bind_scopes]
    · rfl

theorem Expr.resolveAll_scopes : ∀ (es : List Expr) (r : Resolution), (Expr.resolveAll es r).scopes = r.scopes
  | [], _ => rfl
  | e :: rest, r => by rw [Expr.resolveAll, Expr.resolveAll_scopes rest, e.resolve_scopes]

end

theorem Expr.resolveOption_scopes (e : Option Expr) (r : Resolution) : (Expr.resolveOption e r).scopes = r.scopes := by
  cases e with
  | none => rfl
  | some e => exact e.resolve_scopes r

mutual

/-- A statement touches the innermost scope only. -/
theorem Stmt.tail_resolve_scopes : ∀ (s : Stmt) (r : Resolution), (s.resolve r).scopes.tail = r.scopes.tail
  | .expression e, r => by rw [Stmt.resolve, e.resolve_scopes]
  | .print e, r => by rw [Stmt.resolve, e.resolve_scopes]
  | .declareVariable name initializer, r => by
    rw [Stmt.resolve, define_scopes, tail_markName, Expr.resolveOption_scopes, declare_scopes, tail_markName]
  | .block body, r => by rw [Stmt.resolve, leave_scopes, Stmt.tail_resolveAll_scopes body (r.enter [])]; rfl
  | .branch condition whenTrue whenFalse, r => by
    rw [Stmt.resolve, Stmt.tail_resolveOption_scopes whenFalse, whenTrue.tail_resolve_scopes, condition.resolve_scopes]
  | .loop condition body, r => by rw [Stmt.resolve, body.tail_resolve_scopes, condition.resolve_scopes]
  | .declareFunction f, r => by
    rw [Stmt.resolve, f.resolve_scopes, define_scopes, tail_markName, declare_scopes, tail_markName]
  | .returnValue keyword value, r => by rw [Stmt.resolve, Expr.resolveOption_scopes, checkReturn_scopes]
  | .declareClass name methods, r => by
    rw [Stmt.resolve]
    show (Function.resolveAll methods _).scopes.tail.tail = _
    rw [Function.resolveAll_scopes methods]
    show ((r.declare name).define name).scopes.tail = _
    rw [define_scopes, tail_markName, declare_scopes, tail_markName]

theorem Stmt.tail_resolveAll_scopes : ∀ (body : List Stmt) (r : Resolution),
    (Stmt.resolveAll body r).scopes.tail = r.scopes.tail
  | [], _ => rfl
  | s :: rest, r => by rw [Stmt.resolveAll, Stmt.tail_resolveAll_scopes rest, s.tail_resolve_scopes]

theorem Stmt.tail_resolveOption_scopes : ∀ (s : Option Stmt) (r : Resolution),
    (Stmt.resolveOption s r).scopes.tail = r.scopes.tail
  | none, _ => rfl
  | some s, r => s.tail_resolve_scopes r

theorem Function.resolve_scopes : ∀ (f : Function) (enclosing : Enclosing) (r : Resolution),
    (f.resolve enclosing r).scopes = r.scopes
  | .mk _ parameters body, enclosing, r => by
    rw [Function.resolve]
    exact (Stmt.tail_resolveAll_scopes body _).trans (tail_parameters_scopes _ _)

theorem Function.resolveAll_scopes : ∀ (methods : List Function) (r : Resolution),
    (Function.resolveAll methods r).scopes = r.scopes
  | [], _ => rfl
  | f :: rest, r => by rw [Function.resolveAll, Function.resolveAll_scopes rest, f.resolve_scopes]

end

theorem Stmt.resolve_block_scopes (body : List Stmt) (r : Resolution) : ((Stmt.block body).resolve r).scopes = r.scopes :=
  Stmt.tail_resolveAll_scopes body (r.enter [])

theorem Stmt.resolve_class_scopes (name : Token) (methods : List Function) (r : Resolution) :
    ((Stmt.declareClass name methods).resolve r).scopes = ((r.declare name).define name).scopes :=
  congrArg List.tail (Function.resolveAll_scopes methods ((r.declare name).define name).inClassBody)

/-! ### Visits -/

/-- A node with what the resolver knows when it comes to it. -/
inductive Visit where
  | expr (e : Expr) (r : Resolution)
  | stmt (s : Stmt) (r : Resolution)
  | routine (f : Function) (enclosing : Enclosing) (r : Resolution)

mutual

/-- The visits of an expression. The target of an assignment comes behind its value. -/
def Expr.visits : Expr → Resolution → List Visit
  | .literal value, r => [.expr (.literal value) r]
  | .unary operator operand, r => .expr (.unary operator operand) r :: operand.visits r
  | .binary left operator right, r =>
    .expr (.binary left operator right) r :: (left.visits r ++ right.visits (left.resolve r))
  | .logical left operator right, r =>
    .expr (.logical left operator right) r :: (left.visits r ++ right.visits (left.resolve r))
  | .grouping inner, r => .expr (.grouping inner) r :: inner.visits r
  | .use site name, r => [.expr (.use site name) r]
  | .assign site name value, r => value.visits r ++ [.expr (.assign site name value) (value.resolve r)]
  | .call callee paren arguments, r =>
    .expr (.call callee paren arguments) r :: (callee.visits r ++ Expr.visitsAll arguments (callee.resolve r))
  | .get object name, r => .expr (.get object name) r :: object.visits r
  | .set object name value, r =>
    .expr (.set object name value) r :: (value.visits r ++ object.visits (value.resolve r))
  | .this site keyword, r => [.expr (.this site keyword) r]

def Expr.visitsAll : List Expr → Resolution → List Visit
  | [], _ => []
  | e :: rest, r => e.visits r ++ Expr.visitsAll rest (e.resolve r)

end

def Expr.visitsOption : Option Expr → Resolution → List Visit
  | none, _ => []
  | some e, r => e.visits r

mutual

/-- The visits of a statement. -/
def Stmt.visits : Stmt → Resolution → List Visit
  | .expression e, r => .stmt (.expression e) r :: e.visits r
  | .print e, r => .stmt (.print e) r :: e.visits r
  | .declareVariable name initializer, r =>
    .stmt (.declareVariable name initializer) r :: Expr.visitsOption initializer (r.declare name)
  | .block body, r => .stmt (.block body) r :: Stmt.visitsAll body (r.enter [])
  | .branch condition whenTrue whenFalse, r =>
    .stmt (.branch condition whenTrue whenFalse) r :: (condition.visits r ++ (whenTrue.visits (condition.resolve r) ++
      Stmt.visitsOption whenFalse (whenTrue.resolve (condition.resolve r))))
  | .loop condition body, r =>
    .stmt (.loop condition body) r :: (condition.visits r ++ body.visits (condition.resolve r))
  | .declareFunction f, r =>
    .stmt (.declareFunction f) r :: f.visits .function ((r.declare f.name).define f.name)
  | .returnValue keyword value, r =>
    .stmt (.returnValue keyword value) r :: Expr.visitsOption value (r.checkReturn keyword value.isSome)
  | .declareClass name methods, r =>
    .stmt (.declareClass name methods) r :: Function.visitsAll methods ((r.declare name).define name).inClassBody

def Stmt.visitsAll : List Stmt → Resolution → List Visit
  | [], _ => []
  | s :: rest, r => s.visits r ++ Stmt.visitsAll rest (s.resolve r)

def Stmt.visitsOption : Option Stmt → Resolution → List Visit
  | none, _ => []
  | some s, r => s.visits r

/-- The visits of a routine: itself, then its body. -/
def Function.visits : Function → Enclosing → Resolution → List Visit
  | .mk name parameters body, enclosing, r =>
    .routine (.mk name parameters body) enclosing r :: Stmt.visitsAll body (r.inBody enclosing parameters)

def Function.visitsAll : List Function → Resolution → List Visit
  | [], _ => []
  | f :: rest, r =>
    let enclosing := if f.isInitializer then .initializer else .method
    f.visits enclosing r ++ Function.visitsAll rest (f.resolve enclosing r)

end

/-! ### Distances and problems -/

/-- What a declaration of a name is reported for. -/
def declareComplaints (scopes : List Scope) (name : Token) : List Problem :=
  match scopes with
  | [] => []
  | scope :: _ => if scope.has name.lexeme then [.atToken name .alreadyDeclared] else []

/-- What the parameters of a routine are reported for. -/
def parameterComplaints : List Scope → List Token → List Problem
  | _, [] => []
  | scopes, name :: rest => declareComplaints scopes name ++ parameterComplaints (scopesAfter scopes (some name)) rest

/-- What a read of a name is reported for. -/
def readComplaints (scopes : List Scope) (name : Token) : List Problem :=
  match scopes with
  | [] => []
  | scope :: _ => if scope.get? name.lexeme = some false then [.atToken name .readInOwnInitializer] else []

namespace Visit

/-- The distance to a name at a site, if a scope has the name. -/
def entry (r : Resolution) (site : Site) (name : Token) : List (Site × Nat) :=
  (r.distance? name.lexeme).toList.map (site, ·)

/-- The distance that the resolver notes at a visit. -/
def entries : Visit → List (Site × Nat)
  | .expr (.use site name) r => entry r site name
  | .expr (.assign site name _) r => entry r site name
  | .expr (.this site keyword) r => if r.inClass then entry r site keyword else []
  | _ => []

/-- What the resolver reports at a visit. -/
def complaints : Visit → List Problem
  | .expr (.use _ name) r => readComplaints r.scopes name
  | .expr (.this _ keyword) r => if r.inClass then [] else [.atToken keyword .thisOutsideClass]
  | .stmt (.declareVariable name _) r => declareComplaints r.scopes name
  | .stmt (.declareFunction f) r => declareComplaints r.scopes f.name
  | .stmt (.declareClass name _) r => declareComplaints r.scopes name
  | .stmt (.returnValue keyword value) r =>
    (if r.enclosing = .topLevel then [.atToken keyword .returnAtTopLevel] else []) ++
      (if value.isSome && r.enclosing = .initializer then [.atToken keyword .returnValueFromInitializer] else [])
  | .routine f _ r => parameterComplaints ([] :: r.scopes) f.parameters
  | _ => []

end Visit

namespace Resolution

/-- What is noted and reported between two moments is that of the visits between them. -/
structure Logs (r r' : Resolution) (vs : List Visit) : Prop where
  distances : r'.distances.toList = r.distances.toList ++ vs.flatMap Visit.entries
  problems : r'.problems.toList = r.problems.toList ++ vs.flatMap Visit.complaints

namespace Logs

variable {r r₁ r₂ : Resolution} {vs ws : List Visit} {v : Visit}

theorem nil : Logs r r [] :=
  ⟨by simp, by simp⟩

theorem append (h : Logs r r₁ vs) (h' : Logs r₁ r₂ ws) : Logs r r₂ (vs ++ ws) := by
  refine ⟨?_, ?_⟩
  · rw [h'.distances, h.distances, List.flatMap_append, List.append_assoc]
  · rw [h'.problems, h.problems, List.flatMap_append, List.append_assoc]

theorem single (hd : r₁.distances.toList = r.distances.toList ++ v.entries)
    (hp : r₁.problems.toList = r.problems.toList ++ v.complaints) : Logs r r₁ [v] := by
  refine ⟨?_, ?_⟩
  · rw [hd, List.flatMap_singleton]
  · rw [hp, List.flatMap_singleton]

/-- A visit at which nothing is noted or reported. -/
theorem silent (hd : v.entries = []) (hp : v.complaints = []) (h : Logs r r₁ vs) : Logs r r₁ (v :: vs) :=
  (single (by rw [hd, List.append_nil]) (by rw [hp, List.append_nil])).append h

end Logs

variable (r : Resolution)

theorem bind_log (site : Site) (name : Token) :
    (r.bind site name.lexeme).distances.toList = r.distances.toList ++ Visit.entry r site name ∧
      (r.bind site name.lexeme).problems = r.problems := by
  unfold bind Visit.entry
  cases r.distance? name.lexeme with
  | none => simp
  | some d => simp

theorem declare_log (name : Token) : (r.declare name).distances = r.distances ∧
    (r.declare name).problems.toList = r.problems.toList ++ declareComplaints r.scopes name := by
  unfold declare declareComplaints
  cases r.scopes with
  | nil => simp
  | cons scope outer =>
    by_cases h : scope.has name.lexeme = true
    · simp [h, complain]
    · simp [h]

theorem define_log (name : Token) : (r.define name).distances = r.distances ∧ (r.define name).problems = r.problems := by
  unfold define
  cases r.scopes <;> exact ⟨rfl, rfl⟩

theorem checkRead_log (name : Token) : (r.checkRead name).distances = r.distances ∧
    (r.checkRead name).problems.toList = r.problems.toList ++ readComplaints r.scopes name := by
  unfold checkRead readComplaints
  cases r.scopes with
  | nil => simp
  | cons scope outer =>
    by_cases h : scope.get? name.lexeme = some false
    · simp [h, complain]
    · simp [h]

theorem parameters_log (names : List Token) : (r.parameters names).distances = r.distances ∧
    (r.parameters names).problems.toList = r.problems.toList ++ parameterComplaints r.scopes names := by
  unfold parameters
  induction names generalizing r with
  | nil => simp [parameterComplaints]
  | cons name rest ih =>
    rw [List.foldl_cons, (ih _).1, (ih _).2, (define_log _ name).1, (define_log _ name).2, (declare_log r name).1,
      (declare_log r name).2, define_scopes, declare_scopes, List.append_assoc]
    exact ⟨rfl, rfl⟩

theorem checkReturn_log (keyword : Token) (value : Option Expr) :
    (r.checkReturn keyword value.isSome).distances = r.distances ∧
      (r.checkReturn keyword value.isSome).problems.toList =
        r.problems.toList ++ (Visit.stmt (.returnValue keyword value) r).complaints := by
  unfold checkReturn Visit.complaints
  cases h : r.enclosing <;> cases value <;> simp [complain, h]

end Resolution

mutual

theorem Expr.resolve_log : ∀ (e : Expr) (r : Resolution), Logs r (e.resolve r) (e.visits r)
  | .literal _, _ => .silent rfl rfl .nil
  | .unary _ operand, r => .silent rfl rfl (operand.resolve_log r)
  | .binary left _ right, r => .silent rfl rfl ((left.resolve_log r).append (right.resolve_log _))
  | .logical left _ right, r => .silent rfl rfl ((left.resolve_log r).append (right.resolve_log _))
  | .grouping inner, r => .silent rfl rfl (inner.resolve_log r)
  | .use site name, r => by
    obtain ⟨hd, hp⟩ := checkRead_log r name
    obtain ⟨hd', hp'⟩ := bind_log (r.checkRead name) site name
    refine .single ?_ ?_
    · rw [Expr.resolve, hd', hd, Visit.entry, distance?, checkRead_scopes]
      rfl
    · rw [Expr.resolve, hp', hp]
      rfl
  | .assign site name value, r => by
    obtain ⟨hd, hp⟩ := bind_log (value.resolve r) site name
    refine (value.resolve_log r).append (.single hd ?_)
    rw [Expr.resolve, hp]
    exact (List.append_nil _).symm
  | .call callee _ arguments, r =>
    .silent rfl rfl ((callee.resolve_log r).append (Expr.resolveAll_log arguments _))
  | .get object _, r => .silent rfl rfl (object.resolve_log r)
  | .set object _ value, r => .silent rfl rfl ((value.resolve_log r).append (object.resolve_log _))
  | .this site keyword, r => by
    obtain ⟨hd, hp⟩ := bind_log r site keyword
    rw [Expr.resolve]
    by_cases h : r.inClass = true
    · rw [if_pos h]
      exact .single (by simp [hd, Visit.entries, h]) (by simp [hp, Visit.complaints, h])
    · rw [if_neg h]
      exact .single (by simp [Visit.entries, h, complain]) (by simp [Visit.complaints, h, complain])

theorem Expr.resolveAll_log : ∀ (es : List Expr) (r : Resolution), Logs r (Expr.resolveAll es r) (Expr.visitsAll es r)
  | [], _ => .nil
  | e :: rest, r => (e.resolve_log r).append (Expr.resolveAll_log rest _)

end

theorem Expr.resolveOption_log (e : Option Expr) (r : Resolution) :
    Logs r (Expr.resolveOption e r) (Expr.visitsOption e r) := by
  cases e with
  | none => exact .nil
  | some e => exact e.resolve_log r

/-- A declaration of a name, and what is found behind it. -/
theorem Resolution.Logs.declare {r r' : Resolution} {name : Token} {v : Visit} {vs : List Visit} (hd : v.entries = [])
    (hp : v.complaints = declareComplaints r.scopes name) (h : Logs ((r.declare name).define name) r' vs) :
    Logs r r' (v :: vs) := by
  have hdeclare : Logs r ((r.declare name).define name) [v] := .single
    (by rw [(define_log _ name).1, (declare_log r name).1, hd, List.append_nil])
    (by rw [(define_log _ name).2, (declare_log r name).2, hp])
  exact hdeclare.append h

mutual

theorem Stmt.resolve_log : ∀ (s : Stmt) (r : Resolution), Logs r (s.resolve r) (s.visits r)
  | .expression e, r => .silent rfl rfl (e.resolve_log r)
  | .print e, r => .silent rfl rfl (e.resolve_log r)
  | .declareVariable name initializer, r => by
    obtain ⟨hd, hp⟩ := declare_log r name
    have hdeclare : Logs r (r.declare name) [.stmt (.declareVariable name initializer) r] :=
      .single (by rw [hd]; exact (List.append_nil _).symm) hp
    have hall := hdeclare.append (Expr.resolveOption_log initializer (r.declare name))
    obtain ⟨hd', hp'⟩ := define_log (Expr.resolveOption initializer (r.declare name)) name
    rw [Stmt.resolve]
    exact ⟨by rw [hd']; exact hall.distances, by rw [hp']; exact hall.problems⟩
  | .block body, r => by
    have hbody := Stmt.resolveAll_log body (r.enter [])
    exact .silent rfl rfl ⟨hbody.distances, hbody.problems⟩
  | .branch condition whenTrue whenFalse, r =>
    .silent rfl rfl ((condition.resolve_log r).append
      ((whenTrue.resolve_log _).append (Stmt.resolveOption_log whenFalse _)))
  | .loop condition body, r => .silent rfl rfl ((condition.resolve_log r).append (body.resolve_log _))
  | .declareFunction f, r => .declare rfl rfl (f.resolve_log .function _)
  | .returnValue keyword value, r => by
    obtain ⟨hd, hp⟩ := checkReturn_log r keyword value
    have hcheck : Logs r (r.checkReturn keyword value.isSome) [.stmt (.returnValue keyword value) r] :=
      .single (by rw [hd]; exact (List.append_nil _).symm) hp
    exact hcheck.append (Expr.resolveOption_log value _)
  | .declareClass name methods, r => by
    have hmethods := Function.resolveAll_log methods ((r.declare name).define name).inClassBody
    exact .declare rfl rfl ⟨hmethods.distances, hmethods.problems⟩

theorem Stmt.resolveAll_log : ∀ (body : List Stmt) (r : Resolution),
    Logs r (Stmt.resolveAll body r) (Stmt.visitsAll body r)
  | [], _ => .nil
  | s :: rest, r => (s.resolve_log r).append (Stmt.resolveAll_log rest _)

theorem Stmt.resolveOption_log : ∀ (s : Option Stmt) (r : Resolution),
    Logs r (Stmt.resolveOption s r) (Stmt.visitsOption s r)
  | none, _ => .nil
  | some s, r => s.resolve_log r

theorem Function.resolve_log : ∀ (f : Function) (enclosing : Enclosing) (r : Resolution),
    Logs r (f.resolve enclosing r) (f.visits enclosing r)
  | .mk name parameters body, enclosing, r => by
    obtain ⟨hd, hp⟩ := parameters_log ({ r with enclosing }.enter []) parameters
    have hparameters : Logs r (r.inBody enclosing parameters) [.routine (.mk name parameters body) enclosing r] :=
      .single (by rw [inBody, hd]; exact (List.append_nil _).symm) hp
    have hall := hparameters.append (Stmt.resolveAll_log body (r.inBody enclosing parameters))
    exact ⟨hall.distances, hall.problems⟩

theorem Function.resolveAll_log : ∀ (methods : List Function) (r : Resolution),
    Logs r (Function.resolveAll methods r) (Function.visitsAll methods r)
  | [], _ => .nil
  | f :: rest, r => (f.resolve_log _ r).append (Function.resolveAll_log rest _)

end

end LoxLanguage
