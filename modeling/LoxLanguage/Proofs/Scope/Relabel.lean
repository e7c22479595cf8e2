import LoxLanguage.Proofs.Scope.Binding
import LoxLanguage.Proofs.Tree.Relabel

/-! Resolution reads names and places, never lines and labels: with other lines and labels a program has the same
problems, at the tokens with the other lines. A program without problems leaves the resolver as it found it, so a
second program behind it is resolved as if it stood alone. -/

namespace LoxLanguage

/-- A problem at a relabelled token. -/
def Relabelling.problem (ρ : Relabelling) : Problem → Problem
  | .onLine line complaint => .onLine line complaint
  | .atToken token complaint => .atToken (ρ.token token) complaint

namespace Resolution

/-- Two resolutions at the same place that have found the same problems and distances, up to labels. The second one had
    noted some distances before. -/
structure Mirrors (ρ : Relabelling) (before : Array (Site × Nat)) (r r' : Resolution) : Prop where
  scopes : r'.scopes = r.scopes
  enclosing : r'.enclosing = r.enclosing
  inClass : r'.inClass = r.inClass
  problems : r'.problems = r.problems.map ρ.problem
  distances : r'.distances = before ++ r.distances.map fun e => (ρ.site e.1, e.2)

namespace Mirrors

variable {ρ : Relabelling} {before : Array (Site × Nat)} {r r' : Resolution}

theorem complain (h : Mirrors ρ before r r') (token : Token) (complaint : Complaint) :
    Mirrors ρ before (r.complain token complaint) (r'.complain (ρ.token token) complaint) := by
  refine ⟨h.scopes, h.enclosing, h.inClass, ?_, h.distances⟩
  simp [Resolution.complain, h.problems, Relabelling.problem]

theorem withScopes (h : Mirrors ρ before r r') (scopes : List Scope) :
    Mirrors ρ before { r with scopes } { r' with scopes } :=
  ⟨rfl, h.enclosing, h.inClass, h.problems, h.distances⟩

theorem withEnclosing (h : Mirrors ρ before r r') (enclosing : Enclosing) :
    Mirrors ρ before { r with enclosing } { r' with enclosing } :=
  ⟨h.scopes, rfl, h.inClass, h.problems, h.distances⟩

theorem withInClass (h : Mirrors ρ before r r') (inClass : Bool) :
    Mirrors ρ before { r with inClass } { r' with inClass } :=
  ⟨h.scopes, h.enclosing, rfl, h.problems, h.distances⟩

theorem enter (h : Mirrors ρ before r r') (scope : Scope) : Mirrors ρ before (r.enter scope) (r'.enter scope) := by
  unfold Resolution.enter
  rw [h.scopes]
  exact h.withScopes _

theorem leave (h : Mirrors ρ before r r') : Mirrors ρ before r.leave r'.leave := by
  unfold Resolution.leave
  rw [h.scopes]
  exact h.withScopes _

theorem declare (h : Mirrors ρ before r r') (name : Token) :
    Mirrors ρ before (r.declare name) (r'.declare (ρ.token name)) := by
  unfold Resolution.declare
  rw [h.scopes]
  cases r.scopes with
  | nil => exact h
  | cons scope outer =>
    rw [Relabelling.token_lexeme]
    dsimp only
    split
    · exact (h.complain name .alreadyDeclared).withScopes _
    · exact h.withScopes _

theorem define (h : Mirrors ρ before r r') (name : Token) :
    Mirrors ρ before (r.define name) (r'.define (ρ.token name)) := by
  unfold Resolution.define
  rw [h.scopes]
  cases r.scopes with
  | nil => exact h
  | cons scope outer => exact h.withScopes _

theorem bind (h : Mirrors ρ before r r') (site : Site) (name : String) :
    Mirrors ρ before (r.bind site name) (r'.bind (ρ.site site) name) := by
  unfold Resolution.bind Resolution.distance?
  rw [h.scopes]
  split
  · refine ⟨rfl, h.enclosing, h.inClass, h.problems, ?_⟩
    simp [h.distances]
  · exact h

theorem checkRead (h : Mirrors ρ before r r') (name : Token) :
    Mirrors ρ before (r.checkRead name) (r'.checkRead (ρ.token name)) := by
  unfold Resolution.checkRead
  rw [h.scopes]
  cases r.scopes with
  | nil => exact h
  | cons scope outer =>
    rw [Relabelling.token_lexeme]
    dsimp only
    split
    · exact h.complain name .readInOwnInitializer
    · exact h

theorem parameters (h : Mirrors ρ before r r') (names : List Token) :
    Mirrors ρ before (r.parameters names) (r'.parameters (names.map ρ.token)) := by
  unfold Resolution.parameters
  induction names generalizing r r' with
  | nil => exact h
  | cons name rest ih => exact ih ((h.declare name).define name)

theorem checkReturn (h : Mirrors ρ before r r') (keyword : Token) (hasValue : Bool) :
    Mirrors ρ before (r.checkReturn keyword hasValue) (r'.checkReturn (ρ.token keyword) hasValue) := by
  have hplace : Mirrors ρ before (if r.enclosing = .topLevel then r.complain keyword .returnAtTopLevel else r)
      (if r'.enclosing = .topLevel then r'.complain (ρ.token keyword) .returnAtTopLevel else r') := by
    rw [h.enclosing]
    split
    · exact h.complain keyword .returnAtTopLevel
    · exact h
  have hvalue : ∀ {q q' : Resolution}, Mirrors ρ before q q' → Mirrors ρ before
      (if hasValue && q.enclosing = .initializer then q.complain keyword .returnValueFromInitializer else q)
      (if hasValue && q'.enclosing = .initializer then q'.complain (ρ.token keyword) .returnValueFromInitializer
        else q') := by
    intro q q' hq
    rw [hq.enclosing]
    split
    · exact hq.complain keyword .returnValueFromInitializer
    · exact hq
  exact hvalue hplace

end Mirrors

end Resolution

open Resolution

section Relabelled
variable {ρ : Relabelling} {before : Array (Site × Nat)}

mutual

theorem Expr.resolve_relabel : ∀ (e : Expr) {r r' : Resolution}, Mirrors ρ before r r' →
    Mirrors ρ before (e.resolve r) ((e.relabel ρ).resolve r')
  | .literal _, _, _, h => h
  | .unary _ operand, _, _, h => operand.resolve_relabel h
  | .binary left _ right, _, _, h => right.resolve_relabel (left.resolve_relabel h)
  | .logical left _ right, _, _, h => right.resolve_relabel (left.resolve_relabel h)
  | .grouping inner, _, _, h => inner.resolve_relabel h
  | .use site name, _, _, h => (h.checkRead name).bind site name.lexeme
  | .assign site name value, _, _, h => (value.resolve_relabel h).bind site name.lexeme
  | .call callee _ arguments, _, _, h => Expr.resolveAll_relabel arguments (callee.resolve_relabel h)
  | .get object _, _, _, h => object.resolve_relabel h
  | .set object _ value, _, _, h => object.resolve_relabel (value.resolve_relabel h)
  | .this site keyword, _, _, h => by
    rw [Expr.relabel, Expr.resolve, Expr.resolve, h.inClass]
    split
    · exact h.bind site keyword.lexeme
    · exact h.complain keyword .thisOutsideClass

theorem Expr.resolveAll_relabel : ∀ (es : List Expr) {r r' : Resolution}, Mirrors ρ before r r' →
    Mirrors ρ before (Expr.resolveAll es r) (Expr.resolveAll (Expr.relabelAll ρ es) r')
  | [], _, _, h => h
  | e :: rest, _, _, h => Expr.resolveAll_relabel rest (e.resolve_relabel h)

end

theorem Expr.resolveOption_relabel (e : Option Expr) {r r' : Resolution} (h : Mirrors ρ before r r') :
    Mirrors ρ before (Expr.resolveOption e r) (Expr.resolveOption (e.map (Expr.relabel ρ)) r') := by
  cases e with
  | none => exact h
  | some e => exact e.resolve_relabel h

mutual

theorem Stmt.resolve_relabel : ∀ (s : Stmt) {r r' : Resolution}, Mirrors ρ before r r' →
    Mirrors ρ before (s.resolve r) ((s.relabel ρ).resolve r')
  | .expression e, _, _, h => e.resolve_relabel h
  | .print e, _, _, h => e.resolve_relabel h
  | .declareVariable name initializer, _, _, h =>
    (Expr.resolveOption_relabel initializer (h.declare name)).define name
  | .block body, _, _, h => (Stmt.resolveAll_relabel body (h.enter [])).leave
  | .branch condition whenTrue whenFalse, _, _, h =>
    Stmt.resolveOption_relabel whenFalse (whenTrue.resolve_relabel (condition.resolve_relabel h))
  | .loop condition body, _, _, h => body.resolve_relabel (condition.resolve_relabel h)
  | .declareFunction f, _, _, h => by
    rw [Stmt.relabel, Stmt.resolve, Stmt.resolve, Function.relabel_name]
    exact f.resolve_relabel .function ((h.declare f.name).define f.name)
  | .returnValue keyword value, _, _, h => by
    rw [Stmt.relabel, Stmt.resolve, Stmt.resolve, Option.isSome_map]
    exact Expr.resolveOption_relabel value (h.checkReturn keyword value.isSome)
  | .declareClass name methods, r, r', h => by
    have hinside := (((h.declare name).define name).withInClass true).enter [("this", true)]
    have hmethods := (Function.resolveAll_relabel methods hinside).leave
    rw [Stmt.relabel, Stmt.resolve, Stmt.resolve]
    dsimp only
    rw [h.inClass]
    exact hmethods.withInClass r.inClass

theorem Stmt.resolveAll_relabel : ∀ (body : List Stmt) {r r' : Resolution}, Mirrors ρ before r r' →
    Mirrors ρ before (Stmt.resolveAll body r) (Stmt.resolveAll (Stmt.relabelAll ρ body) r')
  | [], _, _, h => h
  | s :: rest, _, _, h => Stmt.resolveAll_relabel rest (s.resolve_relabel h)

theorem Stmt.resolveOption_relabel : ∀ (s : Option Stmt) {r r' : Resolution}, Mirrors ρ before r r' →
    Mirrors ρ before (Stmt.resolveOption s r) (Stmt.resolveOption (Stmt.relabelOption ρ s) r')
  | none, _, _, h => h
  | some s, _, _, h => s.resolve_relabel h

theorem Function.resolve_relabel : ∀ (f : Function) (enclosing : Enclosing) {r r' : Resolution}, Mirrors ρ before r r' →
    Mirrors ρ before (f.resolve enclosing r) ((f.relabel ρ).resolve enclosing r')
  | .mk _ parameters body, enclosing, r, r', h => by
    have hinside := ((h.withEnclosing enclosing).enter []).parameters parameters
    have hbody := (Stmt.resolveAll_relabel body hinside).leave
    rw [Function.relabel, Function.resolve, Function.resolve, h.enclosing]
    exact hbody.withEnclosing r.enclosing

theorem Function.resolveAll_relabel : ∀ (methods : List Function) {r r' : Resolution}, Mirrors ρ before r r' →
    Mirrors ρ before (Function.resolveAll methods r) (Function.resolveAll (Function.relabelAll ρ methods) r')
  | [], _, _, h => h
  | f :: rest, _, _, h => by
    rw [Function.relabelAll, Function.resolveAll, Function.resolveAll, Function.relabel_isInitializer]
    exact Function.resolveAll_relabel rest (f.resolve_relabel _ h)

end

theorem mirrors_relabel (body : List Stmt) : Mirrors ρ #[] (resolve body) (resolve (body.map (Stmt.relabel ρ))) := by
  have hstart : Mirrors ρ #[] .start .start := ⟨rfl, rfl, rfl, by simp [start], by simp [start]⟩
  rw [← Stmt.relabelAll_eq]
  exact Stmt.resolveAll_relabel body hstart

/-- The problems of a program stay the same, at the tokens with the other lines. -/
theorem problems_relabel (body : List Stmt) :
    (resolve (body.map (Stmt.relabel ρ))).problems = (resolve body).problems.map ρ.problem :=
  (mirrors_relabel body).problems

/-- So do its distances, at the other sites. -/
theorem distances_relabel (body : List Stmt) :
    (resolve (body.map (Stmt.relabel ρ))).distances = (resolve body).distances.map fun e => (ρ.site e.1, e.2) := by
  rw [(mirrors_relabel body).distances, Array.empty_append]

end Relabelled

/-! ### Programs one behind the other -/

namespace Resolution

/-- The routine and the class around the current place. -/
def place (r : Resolution) : Enclosing × Bool :=
  (r.enclosing, r.inClass)

variable (r : Resolution)

@[simp]
theorem declare_place (name : Token) : (r.declare name).place = r.place := by
  unfold declare
  cases r.scopes with
  | nil => rfl
  | cons scope outer =>
    dsimp only
    split <;> rfl

@[simp]
theorem define_place (name : Token) : (r.define name).place = r.place := by
  unfold define
  cases r.scopes <;> rfl

@[simp]
theorem bind_place (site : Site) (name : String) : (r.bind site name).place = r.place := by
  unfold bind
  split <;> rfl

@[simp]
theorem checkRead_place (name : Token) : (r.checkRead name).place = r.place := by
  unfold checkRead
  split
  · split <;> rfl
  · rfl

@[simp]
theorem checkReturn_place (keyword : Token) (hasValue : Bool) : (r.checkReturn keyword hasValue).place = r.place := by
  unfold checkReturn
  dsimp only
  split <;> split <;> rfl

@[simp]
theorem parameters_place (names : List Token) : (r.parameters names).place = r.place := by
  unfold parameters
  induction names generalizing r with
  | nil => rfl
  | cons name rest ih => rw [List.foldl_cons, ih, define_place, declare_place]

end Resolution

mutual

theorem Expr.resolve_place : ∀ (e : Expr) (r : Resolution), (e.resolve r).place = r.place
  | .literal _, _ => rfl
  | .unary _ operand, r => by rw [Expr.resolve, operand.resolve_place]
  | .binary left _ right, r => by rw [Expr.resolve, right.resolve_place, left.resolve_place]
  | .logical left _ right, r => by rw [Expr.resolve, right.resolve_place, left.resolve_place]
  | .grouping inner, r => by rw [Expr.resolve, inner.resolve_place]
  | .use _ _, r => by rw [Expr.resolve, bind_place, checkRead_place]
  | .assign _ _ value, r => by rw [Expr.resolve, bind_place, value.resolve_place]
  | .call callee _ arguments, r => by rw [Expr.resolve, Expr.resolveAll_place arguments, callee.resolve_place]
  | .get object _, r => by rw [Expr.resolve, object.resolve_place]
  | .set object _ value, r => by rw [Expr.resolve, object.resolve_place, value.resolve_place]
  | .this _ _, r => by
    rw [Expr.resolve]
    split
    · rw [bind_place]
    · rfl

theorem Expr.resolveAll_place : ∀ (es : List Expr) (r : Resolution), (Expr.resolveAll es r).place = r.place
  | [], _ => rfl
  | e :: rest, r => by rw [Expr.resolveAll, Expr.resolveAll_place rest, e.resolve_place]

end

theorem Expr.resolveOption_place (e : Option Expr) (r : Resolution) : (Expr.resolveOption e r).place = r.place := by
  cases e with
  | none => rfl
  | some e => exact e.resolve_place r

mutual

/-- Behind a statement the resolver is where it was before. -/
theorem Stmt.resolve_place : ∀ (s : Stmt) (r : Resolution), (s.resolve r).place = r.place
  | .expression e, r => by rw [Stmt.resolve, e.resolve_place]
  | .print e, r => by rw [Stmt.resolve, e.resolve_place]
  | .declareVariable name initializer, r => by
    rw [Stmt.resolve, define_place, Expr.resolveOption_place, declare_place]
  | .block body, r => by
    rw [Stmt.resolve]
    exact Stmt.resolveAll_place body (r.enter [])
  | .branch condition whenTrue whenFalse, r => by
    rw [Stmt.resolve, Stmt.resolveOption_place whenFalse, whenTrue.resolve_place, condition.resolve_place]
  | .loop condition body, r => by rw [Stmt.resolve, body.resolve_place, condition.resolve_place]
  | .declareFunction f, r => by rw [Stmt.resolve, f.resolve_place, define_place, declare_place]
  | .returnValue keyword value, r => by rw [Stmt.resolve, Expr.resolveOption_place, checkReturn_place]
  | .declareClass name methods, r => by
    have hmethods := congrArg Prod.fst (Function.resolveAll_place methods ((r.declare name).define name).inClassBody)
    have hdeclared : ((r.declare name).define name).place = r.place := by rw [define_place, declare_place]
    rw [Stmt.resolve]
    exact Prod.ext (hmethods.trans (congrArg Prod.fst hdeclared :)) rfl

theorem Stmt.resolveAll_place : ∀ (body : List Stmt) (r : Resolution), (Stmt.resolveAll body r).place = r.place
  | [], _ => rfl
  | s :: rest, r => by rw [Stmt.resolveAll, Stmt.resolveAll_place rest, s.resolve_place]

theorem Stmt.resolveOption_place : ∀ (s : Option Stmt) (r : Resolution), (Stmt.resolveOption s r).place = r.place
  | none, _ => rfl
  | some s, r => s.resolve_place r

theorem Function.resolve_place : ∀ (f : Function) (enclosing : Enclosing) (r : Resolution),
    (f.resolve enclosing r).place = r.place
  | .mk _ parameters body, enclosing, r => by
    have hbody := Stmt.resolveAll_place body (r.inBody enclosing parameters)
    rw [inBody, parameters_place] at hbody
    have hclass := congrArg Prod.snd hbody
    rw [Function.resolve]
    exact Prod.ext rfl hclass

theorem Function.resolveAll_place : ∀ (methods : List Function) (r : Resolution),
    (Function.resolveAll methods r).place = r.place
  | [], _ => rfl
  | f :: rest, r => by rw [Function.resolveAll, Function.resolveAll_place rest, f.resolve_place]

end

theorem Stmt.resolveAll_append (body more : List Stmt) (r : Resolution) :
    Stmt.resolveAll (body ++ more) r = Stmt.resolveAll more (Stmt.resolveAll body r) := by
  induction body generalizing r with
  | nil => rfl
  | cons s rest ih => exact ih (s.resolve r)

/-- There are no local names behind a program. -/
theorem Stmt.resolveAll_scopes_nil (body : List Stmt) {r : Resolution} (hr : r.scopes = [])
    (hproper : ∀ v ∈ Stmt.visitsAll body r, v.Proper) : (Stmt.resolveAll body r).scopes = [] := by
  induction body generalizing r with
  | nil => exact hr
  | cons s rest ih =>
    obtain ⟨hs, hrest⟩ := List.forall_mem_append.mp hproper
    refine ih ?_ hrest
    rw [s.resolve_scopes r hs, hr]
    cases s.declared? <;> rfl

/-- Behind a program without problems, a second program has the problems that it has on its own, whatever its lines. -/
theorem problems_append {n m : Site} {body : List Stmt} (horderly : Visit.Orderly n m (Stmt.visitsAll body .start))
    (hquiet : (resolve body).problems = #[]) (ρ : Relabelling) (more : List Stmt) :
    (resolve (body ++ more.map (Stmt.relabel ρ))).problems = (resolve more).problems.map ρ.problem := by
  have hplace := Stmt.resolveAll_place body .start
  have hbehind : Mirrors ρ (resolve body).distances .start (resolve body) := by
    refine ⟨Stmt.resolveAll_scopes_nil body rfl horderly.proper, congrArg Prod.fst hplace, congrArg Prod.snd hplace, ?_, ?_⟩
    · rw [hquiet]
      simp [start]
    · simp [start]
  rw [resolve, Stmt.resolveAll_append, ← Stmt.relabelAll_eq]
  exact (Stmt.resolveAll_relabel more hbehind).problems

end LoxLanguage
