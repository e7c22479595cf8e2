import Mathlib.Data.List.Basic
import Mathlib.Data.List.Flatten
import LoxLanguage.Proofs.Scope.Sites
import LoxLanguage.Scope.Distances

/-! What an accepted program is like at each visit. A name is unread only in the innermost scope and only while its
initializer is walked, so what a use finds at its distance is a finished name; no name is declared twice in
one scope; and the table of distances holds for each use the distance that the scopes give it. -/

namespace LoxLanguage

open Visit

/-! ### Scopes behind a statement -/

/-- A statement leaves the scopes as they are, but for the name that it declares in the innermost one. -/
theorem Stmt.resolve_scopes : ∀ (s : Stmt) (r : Resolution), (∀ v ∈ s.visits r, v.Proper) →
    (s.resolve r).scopes = scopesAfter r.scopes s.declared?
  | .expression e, r, _ => e.resolve_scopes r
  | .print e, r, _ => e.resolve_scopes r
  | .declareVariable name initializer, r, _ => by
    rw [Stmt.resolve, Resolution.define_scopes, Expr.resolveOption_scopes, Resolution.declare_scopes]
    rfl
  | .block body, r, _ => Stmt.resolve_block_scopes body r
  | .branch condition whenTrue whenFalse, r, hproper => by
    obtain ⟨hself, hparts⟩ := List.forall_mem_cons.mp hproper
    obtain ⟨-, hparts⟩ := List.forall_mem_append.mp hparts
    obtain ⟨htrue, hfalse⟩ := List.forall_mem_append.mp hparts
    have heq := whenTrue.resolve_scopes _ htrue
    rw [hself.1, condition.resolve_scopes] at heq
    cases whenFalse with
    | none => exact heq
    | some s =>
      have heq' := s.resolve_scopes _ hfalse
      rw [hself.2 s rfl, heq] at heq'
      exact heq'
  | .loop condition body, r, hproper => by
    obtain ⟨hself, hparts⟩ := List.forall_mem_cons.mp hproper
    have heq := body.resolve_scopes _ (List.forall_mem_append.mp hparts).2
    have hself : body.declared? = none := hself
    rw [hself, condition.resolve_scopes] at heq
    exact heq
  | .declareFunction f, r, _ => by
    rw [Stmt.resolve, f.resolve_scopes, Resolution.define_scopes, Resolution.declare_scopes]
    rfl
  | .returnValue keyword value, r, _ => by
    rw [Stmt.resolve, Expr.resolveOption_scopes, Resolution.checkReturn_scopes]
    rfl
  | .declareClass name methods, r, _ => by
    rw [Stmt.resolve_class_scopes, Resolution.define_scopes, Resolution.declare_scopes]
    rfl

/-! ### Unread names -/

/-- All names of a scope are finished. -/
def Scope.Settled (scope : Scope) : Prop :=
  ∀ name, scope.get? name ≠ some false

/-- The names of all scopes are finished. -/
def AllSettled (scopes : List Scope) : Prop :=
  ∀ scope ∈ scopes, scope.Settled

theorem Scope.settled_nil : Scope.Settled [] := fun _ => by
  rw [Bindings.get?_nil]
  decide

theorem Scope.Settled.put {scope : Scope} (h : scope.Settled) (name : String) :
    Scope.Settled ((scope.put name false).put name true) := by
  intro other
  by_cases heq : other = name
  · rw [heq, Bindings.get?_put_self]
    decide
  · rw [Bindings.get?_put_of_ne _ _ heq, Bindings.get?_put_of_ne _ _ heq]
    exact h other

theorem AllSettled.cons {scope : Scope} {outer : List Scope} (h : scope.Settled) (houter : AllSettled outer) :
    AllSettled (scope :: outer) :=
  List.forall_mem_cons.mpr ⟨h, houter⟩

theorem AllSettled.after {scopes : List Scope} (h : AllSettled scopes) (name : Option Token) :
    AllSettled (scopesAfter scopes name) := by
  cases name with
  | none => exact h
  | some name =>
    cases scopes with
    | nil => exact h
    | cons scope outer =>
      obtain ⟨hscope, houter⟩ := List.forall_mem_cons.mp h
      exact .cons (hscope.put name.lexeme) houter

theorem AllSettled.parameters {r : Resolution} (h : AllSettled r.scopes) (names : List Token) :
    AllSettled (r.parameters names).scopes := by
  unfold Resolution.parameters
  induction names generalizing r with
  | nil => exact h
  | cons name rest ih =>
    refine ih ?_
    rw [Resolution.define_scopes, Resolution.declare_scopes]
    exact h.after (some name)

/-- In the scopes of an expression, only the innermost one has unread names, and `this` is not one of them. -/
structure NearlySettled (scopes : List Scope) : Prop where
  outer : AllSettled scopes.tail
  this : ∀ scope ∈ scopes, scope.get? "this" ≠ some false

theorem AllSettled.nearly {scopes : List Scope} (h : AllSettled scopes) : NearlySettled scopes :=
  ⟨fun scope hscope => h scope (List.mem_of_mem_tail hscope), fun scope hscope => h scope hscope "this"⟩

theorem AllSettled.declare {scopes : List Scope} (h : AllSettled scopes) {name : String} (hname : name ≠ "this") :
    NearlySettled (markName scopes name false) := by
  cases scopes with
  | nil => exact h.nearly
  | cons scope outer =>
    obtain ⟨hscope, houter⟩ := List.forall_mem_cons.mp h
    refine ⟨houter, List.forall_mem_cons.mpr ⟨?_, fun scope hscope => houter scope hscope "this"⟩⟩
    rw [Bindings.get?_put_of_ne _ _ (Ne.symm hname)]
    exact hscope "this"

/-- Which names are unread at a visit. -/
def Visit.Steady : Visit → Prop
  | .expr _ r => NearlySettled r.scopes
  | .stmt _ r => AllSettled r.scopes
  | .routine _ _ r => AllSettled r.scopes

mutual

theorem Expr.visits_steady : ∀ (e : Expr) {r : Resolution}, NearlySettled r.scopes → ∀ v ∈ e.visits r, v.Steady
  | .literal _, r, h => List.forall_mem_singleton.mpr h
  | .unary _ operand, r, h => List.forall_mem_cons.mpr ⟨h, operand.visits_steady h⟩
  | .binary left _ right, r, h => List.forall_mem_cons.mpr ⟨h, List.forall_mem_append.mpr
      ⟨left.visits_steady h, right.visits_steady (by rwa [left.resolve_scopes])⟩⟩
  | .logical left _ right, r, h => List.forall_mem_cons.mpr ⟨h, List.forall_mem_append.mpr
      ⟨left.visits_steady h, right.visits_steady (by rwa [left.resolve_scopes])⟩⟩
  | .grouping inner, r, h => List.forall_mem_cons.mpr ⟨h, inner.visits_steady h⟩
  | .use _ _, r, h => List.forall_mem_singleton.mpr h
  | .assign _ _ value, r, h => List.forall_mem_append.mpr ⟨value.visits_steady h, List.forall_mem_singleton.mpr (by
      show NearlySettled (value.resolve r).scopes
      rwa [value.resolve_scopes])⟩
  | .call callee _ arguments, r, h => List.forall_mem_cons.mpr ⟨h, List.forall_mem_append.mpr
      ⟨callee.visits_steady h, Expr.visitsAll_steady arguments (by rwa [callee.resolve_scopes])⟩⟩
  | .get object _, r, h => List.forall_mem_cons.mpr ⟨h, object.visits_steady h⟩
  | .set object _ value, r, h => List.forall_mem_cons.mpr ⟨h, List.forall_mem_append.mpr
      ⟨value.visits_steady h, object.visits_steady (by rwa [value.resolve_scopes])⟩⟩
  | .this _ _, r, h => List.forall_mem_singleton.mpr h

theorem Expr.visitsAll_steady : ∀ (es : List Expr) {r : Resolution}, NearlySettled r.scopes →
    ∀ v ∈ Expr.visitsAll es r, v.Steady
  | [], _, _ => nofun
  | e :: rest, r, h => List.forall_mem_append.mpr
      ⟨e.visits_steady h, Expr.visitsAll_steady rest (by rwa [e.resolve_scopes])⟩

end

theorem Expr.visitsOption_steady (e : Option Expr) {r : Resolution} (h : NearlySettled r.scopes) :
    ∀ v ∈ Expr.visitsOption e r, v.Steady := by
  cases e with
  | none => exact nofun
  | some e => exact e.visits_steady h

mutual

theorem Stmt.visits_steady : ∀ (s : Stmt) {r : Resolution}, AllSettled r.scopes → (∀ v ∈ s.visits r, v.Proper) →
    ∀ v ∈ s.visits r, v.Steady
  | .expression e, r, h, _ => List.forall_mem_cons.mpr ⟨h, e.visits_steady h.nearly⟩
  | .print e, r, h, _ => List.forall_mem_cons.mpr ⟨h, e.visits_steady h.nearly⟩
  | .declareVariable name initializer, r, h, hproper => by
    have hname : name.lexeme ≠ "this" := (List.forall_mem_cons.mp hproper).1
    refine List.forall_mem_cons.mpr ⟨h, Expr.visitsOption_steady initializer ?_⟩
    rw [Resolution.declare_scopes]
    exact h.declare hname
  | .block body, r, h, hproper =>
    List.forall_mem_cons.mpr ⟨h, Stmt.visitsAll_steady body (.cons Scope.settled_nil h) (List.forall_mem_cons.mp hproper).2⟩
  | .branch condition whenTrue whenFalse, r, h, hproper => by
    obtain ⟨hself, hparts⟩ := List.forall_mem_cons.mp hproper
    obtain ⟨-, hparts⟩ := List.forall_mem_append.mp hparts
    obtain ⟨htrue, hfalse⟩ := List.forall_mem_append.mp hparts
    have hcondition : AllSettled (condition.resolve r).scopes := by rwa [condition.resolve_scopes]
    have hbehind : AllSettled (whenTrue.resolve (condition.resolve r)).scopes := by
      rw [whenTrue.resolve_scopes _ htrue]
      exact hcondition.after _
    refine List.forall_mem_cons.mpr ⟨h, List.forall_mem_append.mpr ⟨condition.visits_steady h.nearly, ?_⟩⟩
    exact List.forall_mem_append.mpr
      ⟨whenTrue.visits_steady hcondition htrue, Stmt.visitsOption_steady whenFalse hbehind hfalse⟩
  | .loop condition body, r, h, hproper => by
    obtain ⟨-, hparts⟩ := List.forall_mem_cons.mp hproper
    have hcondition : AllSettled (condition.resolve r).scopes := by rwa [condition.resolve_scopes]
    refine List.forall_mem_cons.mpr ⟨h, List.forall_mem_append.mpr ⟨condition.visits_steady h.nearly, ?_⟩⟩
    exact body.visits_steady hcondition (List.forall_mem_append.mp hparts).2
  | .declareFunction f, r, h, hproper => by
    refine List.forall_mem_cons.mpr ⟨h, f.visits_steady _ ?_ (List.forall_mem_cons.mp hproper).2⟩
    rw [Resolution.define_scopes, Resolution.declare_scopes]
    exact h.after (some f.name)
  | .returnValue keyword value, r, h, _ => by
    refine List.forall_mem_cons.mpr ⟨h, Expr.visitsOption_steady value ?_⟩
    rw [Resolution.checkReturn_scopes]
    exact h.nearly
  | .declareClass name methods, r, h, hproper => by
    refine List.forall_mem_cons.mpr ⟨h, Function.visitsAll_steady methods ?_ (List.forall_mem_cons.mp hproper).2⟩
    refine .cons (fun other => ?_) ?_
    · rw [Bindings.get?_cons, Bindings.get?_nil]
      split <;> decide
    · show AllSettled ((r.declare name).define name).scopes
      rw [Resolution.define_scopes, Resolution.declare_scopes]
      exact h.after (some name)

theorem Stmt.visitsAll_steady : ∀ (body : List Stmt) {r : Resolution}, AllSettled r.scopes →
    (∀ v ∈ Stmt.visitsAll body r, v.Proper) → ∀ v ∈ Stmt.visitsAll body r, v.Steady
  | [], _, _, _ => nofun
  | s :: rest, r, h, hproper => by
    obtain ⟨hs, hrest⟩ := List.forall_mem_append.mp hproper
    refine List.forall_mem_append.mpr ⟨s.visits_steady h hs, Stmt.visitsAll_steady rest ?_ hrest⟩
    rw [s.resolve_scopes _ hs]
    exact h.after _

theorem Stmt.visitsOption_steady : ∀ (s : Option Stmt) {r : Resolution}, AllSettled r.scopes →
    (∀ v ∈ Stmt.visitsOption s r, v.Proper) → ∀ v ∈ Stmt.visitsOption s r, v.Steady
  | none, _, _, _ => nofun
  | some s, _, h, hproper => s.visits_steady h hproper

theorem Function.visits_steady : ∀ (f : Function) (enclosing : Enclosing) {r : Resolution}, AllSettled r.scopes →
    (∀ v ∈ f.visits enclosing r, v.Proper) → ∀ v ∈ f.visits enclosing r, v.Steady
  | .mk name parameters body, enclosing, r, h, hproper => by
    refine List.forall_mem_cons.mpr ⟨h, Stmt.visitsAll_steady body ?_ (List.forall_mem_cons.mp hproper).2⟩
    exact AllSettled.parameters (.cons Scope.settled_nil h) parameters

theorem Function.visitsAll_steady : ∀ (methods : List Function) {r : Resolution}, AllSettled r.scopes →
    (∀ v ∈ Function.visitsAll methods r, v.Proper) → ∀ v ∈ Function.visitsAll methods r, v.Steady
  | [], _, _, _ => nofun
  | f :: rest, r, h, hproper => by
    obtain ⟨hf, hrest⟩ := List.forall_mem_append.mp hproper
    refine List.forall_mem_append.mpr ⟨f.visits_steady _ h hf, Function.visitsAll_steady rest ?_ hrest⟩
    rwa [f.resolve_scopes]

end

/-! ### The table of distances -/

namespace Distances

variable {t : Distances} {entries : List (Site × Nat)} {site : Site} {d : Nat}

theorem get?_insertAll_of_not_mem (h : site ∉ entries.map Prod.fst) : (t.insertAll entries).get? site = t.get? site := by
  unfold insertAll
  induction entries generalizing t with
  | nil => rfl
  | cons e rest ih =>
    rw [List.map_cons, List.mem_cons, not_or] at h
    rw [List.foldl_cons, ih h.2, get?_insert_of_ne _ _ h.1]

theorem get?_insertAll_of_mem (hnodup : (entries.map Prod.fst).Nodup) (h : (site, d) ∈ entries) :
    (t.insertAll entries).get? site = some d := by
  unfold insertAll
  induction entries generalizing t with
  | nil => cases h
  | cons e rest ih =>
    rw [List.map_cons, List.nodup_cons] at hnodup
    rcases List.mem_cons.mp h with rfl | h
    · exact (get?_insertAll_of_not_mem hnodup.1).trans (get?_insert_self t site d)
    · exact ih hnodup.2 h

end Distances

namespace Visit

/-- The distance that the scopes give to a use. -/
def distance? : Visit → Option Nat
  | .expr (.use _ name) r => r.distance? name.lexeme
  | .expr (.assign _ name _) r => r.distance? name.lexeme
  | .expr (.this _ keyword) r => r.distance? keyword.lexeme
  | _ => none

/-- A visit without complaints notes the distance of its use, if there is one. -/
theorem entries_eq {v : Visit} (h : v.complaints = []) :
    v.entries = (v.site?.bind fun site => v.distance?.map (site, ·)).toList := by
  have hentry : ∀ r site name, entry r site name = ((r.distance? name.lexeme).map (site, ·)).toList := fun r site name => by
    unfold entry
    cases r.distance? name.lexeme <;> rfl
  cases v with
  | stmt s r => rfl
  | routine f enclosing r => rfl
  | expr e r =>
    cases e with
    | use site name => exact hentry r site name
    | assign site name value => exact hentry r site name
    | this site keyword =>
      by_cases hclass : r.inClass = true
      · rw [show entries (.expr (.this site keyword) r) = entry r site keyword from if_pos hclass]
        exact hentry r site keyword
      · simp [complaints, hclass] at h
    | _ => rfl

theorem mem_entries {v : Visit} {site : Site} {d : Nat} (h : v.complaints = []) :
    (site, d) ∈ v.entries ↔ v.site? = some site ∧ v.distance? = some d := by
  rw [entries_eq h]
  cases v.site? <;> cases v.distance? <;> simp [eq_comm]

/-- What holds at a visit of an accepted program that runs with a table of distances. -/
structure Fine (t : Distances) (v : Visit) : Prop where
  proper : v.Proper
  quiet : v.complaints = []
  steady : v.Steady
  distance : ∀ site, v.site? = some site → t.get? site = v.distance?

/-- A program without problems has no visit with complaints. -/
theorem complaints_of_quiet {ss : List Stmt} (hquiet : (resolve ss).problems = #[]) :
    ∀ v ∈ Stmt.visitsAll ss .start, v.complaints = [] := by
  have hproblems := (Stmt.resolveAll_log ss .start).problems
  have hnone : (resolve ss).problems.toList = [] := by rw [hquiet]
  exact List.flatMap_eq_nil_iff.mp (hproblems.symm.trans hnone)

theorem distances_eq (ss : List Stmt) : (resolve ss).distances.toList = (Stmt.visitsAll ss .start).flatMap entries :=
  (Stmt.resolveAll_log ss .start).distances

/-- Each distance is that of a use. -/
theorem exists_use {ss : List Stmt} (hquiet : (resolve ss).problems = #[]) {site : Site}
    (h : site ∈ (resolve ss).distances.toList.map Prod.fst) :
    ∃ v ∈ Stmt.visitsAll ss .start, v.site? = some site ∧ v.distance?.isSome := by
  obtain ⟨⟨site', d⟩, hmem, rfl⟩ := List.mem_map.mp h
  rw [distances_eq, List.mem_flatMap] at hmem
  obtain ⟨v, hv, hmem⟩ := hmem
  obtain ⟨hsite, hd⟩ := (mem_entries (complaints_of_quiet hquiet v hv)).mp hmem
  exact ⟨v, hv, hsite, by rw [hd]; rfl⟩

/-- The keys of the distances are sites of the visits, in the same order. -/
theorem keys_sublist {ss : List Stmt} (hquiet : (resolve ss).problems = #[]) :
    ((resolve ss).distances.toList.map Prod.fst).Sublist ((Stmt.visitsAll ss .start).filterMap site?) := by
  rw [distances_eq, List.map_flatMap, List.filterMap_eq_flatMap_toList]
  refine List.Sublist.flatMap_right _ fun v hv => ?_
  rw [entries_eq (complaints_of_quiet hquiet v hv)]
  cases v.site? with
  | none => exact List.nil_sublist _
  | some site => cases v.distance? <;> simp

/-- The table of an accepted program gives each use its distance. -/
theorem fine_of_accepted {n m : Site} {ss : List Stmt} {t : Distances}
    (horderly : Orderly n m (Stmt.visitsAll ss .start)) (hquiet : (resolve ss).problems = #[])
    (hfree : ∀ site, n ≤ site → t.get? site = none) :
    ∀ v ∈ Stmt.visitsAll ss .start, v.Fine (t.insertAll (resolve ss).distances.toList) := by
  have hcomplaints := complaints_of_quiet hquiet
  have hsteady := Stmt.visitsAll_steady ss (show AllSettled Resolution.start.scopes from nofun) horderly.proper
  intro v hv
  refine ⟨horderly.proper v hv, hcomplaints v hv, hsteady v hv, fun site hsite => ?_⟩
  cases hd : v.distance? with
  | some d =>
    refine Distances.get?_insertAll_of_mem ((keys_sublist hquiet).nodup horderly.nodup) ?_
    rw [distances_eq, List.mem_flatMap]
    exact ⟨v, hv, (mem_entries (hcomplaints v hv)).mpr ⟨hsite, hd⟩⟩
  | none =>
    rw [Distances.get?_insertAll_of_not_mem, hfree site (horderly.bounds site (List.mem_filterMap.mpr ⟨v, hv, hsite⟩)).1]
    intro hmem
    obtain ⟨w, hw, hsite', hd'⟩ := exists_use hquiet hmem
    -- Another visit with the same site is the same visit.
    cases horderly.eq_of_site hv hw hsite hsite'
    rw [hd] at hd'
    cases hd'

end Visit

/-! ### What a use finds, what a declaration finds -/

/-- What a use of a name finds at its distance is finished. -/
def Readable (scopes : List Scope) (name : String) : Prop :=
  ∀ d scope, scopes.findIdx? (·.has name) = some d → scopes[d]? = some scope → scope.get? name = some true

/-- The innermost scope does not have a name yet. -/
def Undeclared (scopes : List Scope) (name : String) : Prop :=
  ∀ scope outer, scopes = scope :: outer → scope.has name = false

theorem readable_of_settled {scopes : List Scope} {name : String} (houter : AllSettled scopes.tail)
    (hinner : ∀ scope, scopes.head? = some scope → scope.get? name ≠ some false) : Readable scopes name := by
  intro d scope hd hscope
  obtain ⟨hlt, hhas, -⟩ := List.findIdx?_eq_some_iff_getElem.mp hd
  have heq := (List.getElem?_eq_some_iff.mp hscope).2
  rw [heq] at hhas
  obtain ⟨b, hb⟩ := Option.isSome_iff_exists.mp hhas
  have hne : scope.get? name ≠ some false := by
    cases scopes with
    | nil => cases hlt
    | cons inner outer =>
      cases d with
      | zero => exact hinner scope (by rw [← hscope]; rfl)
      | succ d => exact houter scope (List.mem_of_getElem? hscope) name
  cases b with
  | true => exact hb
  | false => exact absurd hb hne

theorem undeclared_of_quiet {scopes : List Scope} {name : Token} (h : declareComplaints scopes name = []) :
    Undeclared scopes name.lexeme := by
  rintro scope outer rfl
  rw [declareComplaints] at h
  by_cases hhas : scope.has name.lexeme = true
  · rw [if_pos hhas] at h
    cases h
  · exact Bool.of_not_eq_true hhas

namespace Visit.Fine

variable {t : Distances} {r : Resolution} {site : Site} {name : Token}

theorem use_readable (h : Fine t (.expr (.use site name) r)) : Readable r.scopes name.lexeme := by
  refine readable_of_settled (NearlySettled.outer h.steady) fun scope hscope hfalse => ?_
  have hquiet : readComplaints r.scopes name = [] := h.quiet
  cases hscopes : r.scopes with
  | nil => rw [hscopes] at hscope; cases hscope
  | cons inner outer =>
    rw [hscopes] at hscope hquiet
    cases hscope
    rw [readComplaints, if_pos hfalse] at hquiet
    cases hquiet

theorem this_readable (h : Fine t (.expr (.this site name) r)) : Readable r.scopes name.lexeme := by
  have hname : name.lexeme = "this" := h.proper
  rw [hname]
  exact readable_of_settled (NearlySettled.outer h.steady) fun scope hscope =>
    NearlySettled.this h.steady scope (List.mem_of_mem_head? hscope)

end Visit.Fine

end LoxLanguage
