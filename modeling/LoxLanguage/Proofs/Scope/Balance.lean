import Mathlib
import LoxLanguage.Proofs.Scanner.Contents
import LoxLanguage.Proofs.Scope.Nodes

/-! Resolution is balanced. Whatever the resolver knows when it comes to a tree, and whatever it has to report there, it
leaves the tree with the scopes, the routine and the class that it came with, and only the innermost scope has got the
names that the tree declares in it. On the way it stands at each node in the scopes that the text opens around the node,
above those it came with, so a distance that it notes leads to one of the scopes around the use. -/

namespace LoxLanguage

/-! ### The innermost scope -/

/-- The same scopes, but for the innermost one, which is replaced as `R` says. -/
inductive InnermostBy (R : Scope → Scope → Prop) : List Scope → List Scope → Prop where
  | nil : InnermostBy R [] []
  | cons {scope scope' : Scope} {outer : List Scope} (h : R scope scope') : InnermostBy R (scope :: outer) (scope' :: outer)

/-- A scope that has lost no name. -/
def Scope.Grows (scope scope' : Scope) : Prop :=
  ∀ x, scope.has x = true → scope'.has x = true

/-- A scope that has got some names, all of them finished, and is the same otherwise. -/
def Scope.Declares (names : List String) (scope scope' : Scope) : Prop :=
  ∀ x, scope'.get? x = if x ∈ names then some true else scope.get? x

namespace InnermostBy

variable {R S T : Scope → Scope → Prop} {scopes scopes₁ scopes₂ : List Scope}

theorem refl (hR : ∀ scope, R scope scope) (scopes : List Scope) : InnermostBy R scopes scopes := by
  cases scopes with
  | nil => exact .nil
  | cons scope outer => exact .cons (hR scope)

theorem trans (hT : ∀ {scope scope₁ scope₂}, R scope scope₁ → S scope₁ scope₂ → T scope scope₂)
    (h : InnermostBy R scopes scopes₁) (h' : InnermostBy S scopes₁ scopes₂) : InnermostBy T scopes scopes₂ := by
  cases h with
  | nil =>
    cases h'
    exact .nil
  | cons h =>
    cases h' with
    | cons h' => exact .cons (hT h h')

theorem mono (hS : ∀ {scope scope'}, R scope scope' → S scope scope') (h : InnermostBy R scopes scopes₁) :
    InnermostBy S scopes scopes₁ := by
  cases h with
  | nil => exact .nil
  | cons h => exact .cons (hS h)

theorem length_eq (h : InnermostBy R scopes scopes₁) : scopes₁.length = scopes.length := by
  cases h <;> rfl

theorem tail_eq (h : InnermostBy R scopes scopes₁) : scopes₁.tail = scopes.tail := by
  cases h <;> rfl

theorem head (h : InnermostBy R scopes scopes₁) : ∀ scope ∈ scopes.head?, ∀ scope' ∈ scopes₁.head?, R scope scope' := by
  cases h with
  | nil => exact nofun
  | cons h =>
    rintro _ ⟨⟩ _ ⟨⟩
    exact h

end InnermostBy

/-! ### Growing -/

/-- The innermost scope may have got names. -/
abbrev Grown : List Scope → List Scope → Prop :=
  InnermostBy Scope.Grows

namespace Grown

variable {scopes scopes₁ scopes₂ : List Scope}

theorem refl (scopes : List Scope) : Grown scopes scopes :=
  InnermostBy.refl (fun _ _ hx => hx) scopes

theorem trans (h : Grown scopes scopes₁) (h' : Grown scopes₁ scopes₂) : Grown scopes scopes₂ :=
  InnermostBy.trans (fun h h' x hx => h' x (h x hx)) h h'

theorem mark (scopes : List Scope) (name : String) (finished : Bool) : Grown scopes (markName scopes name finished) := by
  cases scopes with
  | nil => exact .nil
  | cons scope outer =>
    refine .cons fun x hx => ?_
    rw [Bindings.has_put, hx, Bool.or_true]

end Grown

namespace Resolution

variable (r : Resolution)

theorem declare_grown (name : Token) : Grown r.scopes (r.declare name).scopes := by
  rw [declare_scopes]
  exact .mark _ _ _

theorem declared_grown (name : Token) : Grown r.scopes ((r.declare name).define name).scopes := by
  rw [define_scopes]
  exact (r.declare_grown name).trans (.mark _ _ _)

theorem parameters_grown (names : List Token) : Grown r.scopes (r.parameters names).scopes := by
  unfold parameters
  induction names generalizing r with
  | nil => exact .refl _
  | cons name rest ih => exact (r.declared_grown name).trans (ih _)

end Resolution

/-! ### Declaring -/

/-- The innermost scope has got some names, all of them finished. -/
abbrev GrownBy (names : List String) : List Scope → List Scope → Prop :=
  InnermostBy (Scope.Declares names)

namespace GrownBy

variable {names more : List String} {scopes scopes₁ scopes₂ : List Scope}

theorem refl (scopes : List Scope) : GrownBy [] scopes scopes :=
  InnermostBy.refl (fun _ _ => by simp) scopes

theorem trans (h : GrownBy names scopes scopes₁) (h' : GrownBy more scopes₁ scopes₂) :
    GrownBy (names ++ more) scopes scopes₂ := by
  refine InnermostBy.trans (fun {scope scope₁ scope₂} hfirst hsecond x => ?_) h h'
  rw [hsecond x, hfirst x]
  by_cases hmore : x ∈ more <;> simp [hmore]

theorem grown (h : GrownBy names scopes scopes₁) : Grown scopes scopes₁ := by
  refine InnermostBy.mono (fun {scope scope'} hdeclares x hx => ?_) h
  rw [Bindings.has, hdeclares x]
  split
  · rfl
  · exact hx

/-- A name that is declared and then finished. -/
theorem single (scopes : List Scope) (name : String) :
    GrownBy [name] scopes (markName (markName scopes name false) name true) := by
  cases scopes with
  | nil => exact .nil
  | cons scope outer =>
    refine .cons fun x => ?_
    by_cases hx : x = name
    · simp [hx]
    · simp [hx, Bindings.get?_put_of_ne _ _ hx]

end GrownBy

mutual

/-- A statement declares its names in the innermost scope and touches nothing else of the scopes. -/
theorem Stmt.resolve_grownBy : ∀ (s : Stmt) (r : Resolution), GrownBy s.names r.scopes (s.resolve r).scopes
  | .expression e, r => by
    rw [Stmt.resolve, e.resolve_scopes]
    exact .refl _
  | .print e, r => by
    rw [Stmt.resolve, e.resolve_scopes]
    exact .refl _
  | .declareVariable name initializer, r => by
    rw [Stmt.resolve, Resolution.define_scopes, Expr.resolveOption_scopes, Resolution.declare_scopes]
    exact .single _ _
  | .block body, r => by
    rw [Stmt.resolve_block_scopes]
    exact .refl _
  | .branch condition whenTrue whenFalse, r => by
    have htrue := whenTrue.resolve_grownBy (condition.resolve r)
    rw [condition.resolve_scopes] at htrue
    exact htrue.trans (Stmt.resolveOption_grownBy whenFalse _)
  | .loop condition body, r => by
    have hbody := body.resolve_grownBy (condition.resolve r)
    rw [condition.resolve_scopes] at hbody
    exact hbody
  | .declareFunction f, r => by
    rw [Stmt.resolve, f.resolve_scopes, Resolution.define_scopes, Resolution.declare_scopes]
    exact .single _ _
  | .returnValue keyword value, r => by
    rw [Stmt.resolve, Expr.resolveOption_scopes, Resolution.checkReturn_scopes]
    exact .refl _
  | .declareClass name methods, r => by
    rw [Stmt.resolve_class_scopes, Resolution.define_scopes, Resolution.declare_scopes]
    exact .single _ _

theorem Stmt.resolveOption_grownBy : ∀ (s : Option Stmt) (r : Resolution),
    GrownBy (Stmt.namesOption s) r.scopes (Stmt.resolveOption s r).scopes
  | none, _ => .refl _
  | some s, r => s.resolve_grownBy r

end

/-! ### The scopes on the way -/

/-- Scopes above others: as many as told have been opened since, and below them the others are still there, of which the
    innermost one may have got names. -/
inductive Above (base : List Scope) : Nat → List Scope → Prop where
  | grown {scopes : List Scope} (h : Grown base scopes) : Above base 0 scopes
  | opened {n : Nat} {scopes : List Scope} (scope : Scope) (h : Above base n scopes) : Above base (n + 1) (scope :: scopes)

namespace Above

variable {base scopes scopes' : List Scope} {n : Nat}

theorem length_eq (h : Above base n scopes) : scopes.length = base.length + n := by
  induction h with
  | grown h => exact h.length_eq
  | opened scope _ ih => rw [List.length_cons, ih, Nat.add_assoc]

theorem grow (h : Above base n scopes) (hgrown : Grown scopes scopes') : Above base n scopes' := by
  cases h with
  | grown h => exact .grown (h.trans hgrown)
  | opened scope h =>
    cases hgrown with
    | cons => exact .opened _ h

end Above

/-- The scopes of the resolver at a visit. -/
def Visit.scopes : Visit → List Scope
  | .expr _ r => r.scopes
  | .stmt _ r => r.scopes
  | .routine _ _ r => r.scopes

/-- The resolver comes to the node of a point in the scopes that the text opens around it, above those it came with. -/
structure Point.Reached (base : List Scope) (p : Point) (v : Visit) : Prop where
  node : v.node = p.node
  scopes : Above base p.context.layers.length v.scopes

/-- The resolver comes to the nodes of points one after the other. -/
abbrev AllReached (base : List Scope) : List Point → List Visit → Prop :=
  List.Forall₂ (Point.Reached base)

/-- The resolver stands in the scopes of a context, above those it came with. -/
abbrev Resolution.Within (r : Resolution) (base : List Scope) (c : Context) : Prop :=
  Above base c.layers.length r.scopes

namespace Resolution.Within

variable {r r' : Resolution} {base : List Scope} {c : Context}

theorem congr (h : r.Within base c) (hscopes : r'.scopes = r.scopes) : r'.Within base c := by
  rw [Within, hscopes]
  exact h

theorem grow (h : r.Within base c) (hgrown : Grown r.scopes r'.scopes) (names : List String) :
    r'.Within base (c.declare names) := by
  have hlayers : (c.declare names).layers.length = c.layers.length := List.length_modifyHead
  rw [Within, hlayers]
  exact Above.grow h hgrown

theorem body (h : r.Within base c) (enclosing : Enclosing) (names : List Token) :
    (r.inBody enclosing names).Within base (c.enter (.body enclosing) (names.map Token.lexeme)) :=
  (Above.opened [] h).grow (parameters_grown ({ r with enclosing }.enter []) names)

end Resolution.Within

mutual

/-- An expression leaves the scopes as they are, so all of its parts are reached in the same ones. -/
theorem Expr.visits_reached {base : List Scope} : ∀ (e : Expr) {r : Resolution} {c : Context}, r.Within base c →
    AllReached base (e.points c) (e.visits r)
  | .literal _, _, _, h => .cons ⟨rfl, h⟩ .nil
  | .unary _ operand, _, _, h => .cons ⟨rfl, h⟩ (operand.visits_reached h)
  | .binary left _ right, r, _, h => by
    rw [Expr.points_binary]
    have hright := right.visits_reached (h.congr (left.resolve_scopes r))
    exact .cons ⟨rfl, h⟩ (List.rel_append (left.visits_reached h) hright)
  | .logical left _ right, r, _, h => by
    rw [Expr.points_logical]
    have hright := right.visits_reached (h.congr (left.resolve_scopes r))
    exact .cons ⟨rfl, h⟩ (List.rel_append (left.visits_reached h) hright)
  | .grouping inner, _, _, h => .cons ⟨rfl, h⟩ (inner.visits_reached h)
  | .use _ _, _, _, h => .cons ⟨rfl, h⟩ .nil
  | .assign _ _ value, r, _, h => by
    rw [Expr.points_assign]
    exact List.rel_append (value.visits_reached h) (.cons ⟨rfl, h.congr (value.resolve_scopes r)⟩ .nil)
  | .call callee _ arguments, r, _, h => by
    rw [Expr.points_call]
    have harguments := Expr.visitsAll_reached arguments (h.congr (callee.resolve_scopes r))
    exact .cons ⟨rfl, h⟩ (List.rel_append (callee.visits_reached h) harguments)
  | .get object _, _, _, h => .cons ⟨rfl, h⟩ (object.visits_reached h)
  | .set object _ value, r, _, h => by
    rw [Expr.points_set]
    have hobject := object.visits_reached (h.congr (value.resolve_scopes r))
    exact .cons ⟨rfl, h⟩ (List.rel_append (value.visits_reached h) hobject)
  | .this _ _, _, _, h => .cons ⟨rfl, h⟩ .nil

theorem Expr.visitsAll_reached {base : List Scope} : ∀ (es : List Expr) {r : Resolution} {c : Context}, r.Within base c →
    AllReached base (Expr.pointsAll es c) (Expr.visitsAll es r)
  | [], _, _, _ => .nil
  | e :: rest, r, _, h => by
    rw [Expr.pointsAll_cons]
    have hrest := Expr.visitsAll_reached rest (h.congr (e.resolve_scopes r))
    exact List.rel_append (e.visits_reached h) hrest

end

theorem Expr.visitsOption_reached {base : List Scope} (e : Option Expr) {r : Resolution} {c : Context}
    (h : r.Within base c) : AllReached base (Expr.pointsOption e c) (Expr.visitsOption e r) := by
  cases e with
  | none => exact .nil
  | some e => exact e.visits_reached h

mutual

/-- The walk over a statement stays above the scopes below it. -/
theorem Stmt.visits_reached {base : List Scope} : ∀ (s : Stmt) {r : Resolution} {c : Context}, r.Within base c →
    AllReached base (s.points c) (s.visits r)
  | .expression e, _, _, h => .cons ⟨rfl, h⟩ (e.visits_reached h)
  | .print e, _, _, h => .cons ⟨rfl, h⟩ (e.visits_reached h)
  | .declareVariable name initializer, r, c, h => by
    have hinside : (r.declare name).Within base (c.inInitializer name.lexeme) := h.grow (r.declare_grown name) _
    exact .cons ⟨rfl, h⟩ (Expr.visitsOption_reached initializer hinside)
  | .block body, r, c, h => by
    have hinside : (r.enter []).Within base (c.enter .block []) := .opened [] h
    exact .cons ⟨rfl, h⟩ (Stmt.visitsAll_reached body hinside)
  | .branch condition whenTrue whenFalse, r, c, h => by
    have hcondition : (condition.resolve r).Within base c := h.congr (condition.resolve_scopes r)
    have htrue := hcondition.grow (whenTrue.resolve_grownBy _).grown whenTrue.names
    exact .cons ⟨rfl, h⟩ (List.rel_append (condition.visits_reached h)
      (List.rel_append (whenTrue.visits_reached hcondition) (Stmt.visitsOption_reached whenFalse htrue)))
  | .loop condition body, r, c, h => by
    have hcondition : (condition.resolve r).Within base c := h.congr (condition.resolve_scopes r)
    exact .cons ⟨rfl, h⟩ (List.rel_append (condition.visits_reached h) (body.visits_reached hcondition))
  | .declareFunction f, r, c, h =>
    .cons ⟨rfl, h⟩ (f.visits_reached .function (h.grow (r.declared_grown f.name) [f.name.lexeme]))
  | .returnValue keyword value, r, c, h => by
    have hvalue : (r.checkReturn keyword value.isSome).Within base c := h.congr (r.checkReturn_scopes keyword value.isSome)
    exact .cons ⟨rfl, h⟩ (Expr.visitsOption_reached value hvalue)
  | .declareClass name methods, r, c, h => by
    -- The class is declared below the scope around its methods, which goes with the walk over them.
    have hdeclared := h.grow (r.declared_grown name) [name.lexeme]
    have hinside : ((r.declare name).define name).inClassBody.Within base ((c.declare [name.lexeme]).enter .receiver ["this"]) :=
      .opened _ hdeclared
    exact .cons ⟨rfl, h⟩ (Function.visitsAll_reached methods hinside)

theorem Stmt.visitsAll_reached {base : List Scope} : ∀ (body : List Stmt) {r : Resolution} {c : Context}, r.Within base c →
    AllReached base (Stmt.pointsAll body c) (Stmt.visitsAll body r)
  | [], _, _, _ => .nil
  | s :: rest, r, c, h => by
    have hbehind := h.grow (s.resolve_grownBy r).grown s.names
    exact List.rel_append (s.visits_reached h) (Stmt.visitsAll_reached rest hbehind)

theorem Stmt.visitsOption_reached {base : List Scope} : ∀ (s : Option Stmt) {r : Resolution} {c : Context},
    r.Within base c → AllReached base (Stmt.pointsOption s c) (Stmt.visitsOption s r)
  | none, _, _, _ => .nil
  | some s, _, _, h => s.visits_reached h

theorem Function.visits_reached {base : List Scope} : ∀ (f : Function) (enclosing : Enclosing) {r : Resolution}
    {c : Context}, r.Within base c → AllReached base (f.points enclosing c) (f.visits enclosing r)
  | .mk _ parameters body, enclosing, _, _, h =>
    .cons ⟨rfl, h⟩ (Stmt.visitsAll_reached body (h.body enclosing parameters))

theorem Function.visitsAll_reached {base : List Scope} : ∀ (methods : List Function) {r : Resolution} {c : Context},
    r.Within base c → AllReached base (Function.pointsAll methods c) (Function.visitsAll methods r)
  | [], _, _, _ => .nil
  | f :: rest, r, c, h => by
    have hbehind : (f.resolve (if f.isInitializer then .initializer else .method) r).Within base c :=
      h.congr (f.resolve_scopes _ r)
    exact List.rel_append (f.visits_reached _ h) (Function.visitsAll_reached rest hbehind)

end

/-! ### What is noted on the way -/

/-- A distance that is noted at a visit is that of its use and leads to one of the scopes there. -/
theorem Visit.site?_and_lt_of_mem_entries {v : Visit} {site : Site} {d : Nat} (h : (site, d) ∈ v.entries) :
    v.site? = some site ∧ d < v.scopes.length := by
  have hentry : ∀ (r : Resolution) (here : Site) (name : Token), (site, d) ∈ Visit.entry r here name →
      some here = some site ∧ d < r.scopes.length := by
    intro r here name hmem
    obtain ⟨found, hfound, heq⟩ := List.mem_map.mp hmem
    cases heq
    exact ⟨rfl, (List.findIdx?_eq_some_iff_getElem.mp (Option.mem_toList.mp hfound)).1⟩
  match v with
  | .expr (.use here name) r => exact hentry r here name h
  | .expr (.assign here name _) r => exact hentry r here name h
  | .expr (.this here keyword) r =>
    by_cases hclass : r.inClass = true
    · exact hentry r here keyword (by simpa [Visit.entries, hclass] using h)
    · simp [Visit.entries, hclass] at h
  | .expr (.literal _) _ | .expr (.unary _ _) _ | .expr (.binary _ _ _) _ | .expr (.logical _ _ _) _
  | .expr (.grouping _) _ | .expr (.call _ _ _) _ | .expr (.get _ _) _ | .expr (.set _ _ _) _ | .stmt _ _
  | .routine _ _ _ => cases h

/-- What is noted at a point is the distance of the use there, to one of the scopes around it. Of these `depth` are around
    the tree and the others are opened in it. -/
def Point.Notes (depth : Nat) (p : Point) (entries : List (Site × Nat)) : Prop :=
  ∀ site d, (site, d) ∈ entries → p.site? = some site ∧ d < depth + p.context.layers.length

theorem Point.Reached.notes {base : List Scope} {p : Point} {v : Visit} (h : p.Reached base v) :
    p.Notes base.length v.entries := by
  intro site d hmem
  obtain ⟨hsite, hlt⟩ := Visit.site?_and_lt_of_mem_entries hmem
  rw [h.scopes.length_eq] at hlt
  rw [v.site?_eq, h.node, ← p.site?_eq] at hsite
  exact ⟨hsite, hlt⟩

/-- What a tree does to the resolver that comes to it as `r` and leaves it as `r'`. It declares `names`, its points are
    `ps`, told as if it stood alone, and the visits of the walk over it are `vs`. -/
structure Resolution.Balanced (r r' : Resolution) (names : List String) (ps : List Point) (vs : List Visit) : Prop where
  /-- There are as many scopes as before. -/
  depth : r'.scopes.length = r.scopes.length
  /-- All but the innermost one are as they were. -/
  outer : r'.scopes.tail = r.scopes.tail
  /-- The innermost one has got the names that the tree declares and has lost none. -/
  innermost : ∀ scope ∈ r.scopes.head?, ∀ scope' ∈ r'.scopes.head?, scope.Declares names scope'
  enclosing : r'.enclosing = r.enclosing
  inClass : r'.inClass = r.inClass
  /-- At each node the scopes that the tree opens around it are above those that were there. -/
  walk : AllReached r.scopes ps vs
  /-- What is noted is noted at the points of the tree, one after the other. -/
  noted : ∃ added, r'.distances.toList = r.distances.toList ++ added.flatten ∧
    List.Forall₂ (Point.Notes r.scopes.length) ps added
  /-- In a table of distances, sites that are not in the tree keep what they have. -/
  others : ∀ (t : Distances) (site : Site), (∀ p ∈ ps, p.site? ≠ some site) →
    (t.insertAll r'.distances.toList).get? site = (t.insertAll r.distances.toList).get? site

/-- A walk that leaves routine and class as they were, and the scopes but for some names, is balanced. -/
theorem Resolution.Balanced.of_walk {r r' : Resolution} {names : List String} {ps : List Point} {vs : List Visit}
    (hscopes : GrownBy names r.scopes r'.scopes) (hplace : r'.place = r.place) (hlog : Logs r r' vs)
    (hwalk : AllReached r.scopes ps vs) : r.Balanced r' names ps vs := by
  have hnoted : List.Forall₂ (Point.Notes r.scopes.length) ps (vs.map Visit.entries) :=
    List.forall₂_map_right_iff.mpr (hwalk.imp fun _ _ hreached => hreached.notes)
  refine ⟨hscopes.length_eq, hscopes.tail_eq, hscopes.head, congrArg Prod.fst hplace, congrArg Prod.snd hplace, hwalk,
    ⟨_, hlog.distances, hnoted⟩, fun t site hother => ?_⟩
  have happend : t.insertAll r'.distances.toList =
      (t.insertAll r.distances.toList).insertAll (vs.flatMap Visit.entries) := by
    rw [hlog.distances]
    exact List.foldl_append
  rw [happend, Distances.get?_insertAll_of_not_mem]
  intro hmem
  obtain ⟨⟨_, d⟩, hentry, rfl⟩ := List.mem_map.mp hmem
  obtain ⟨v, hv, hentry⟩ := List.mem_flatMap.mp hentry
  obtain ⟨p, hp, hreached⟩ := exists_of_forall₂ hwalk v hv
  exact hother p hp (hreached.notes _ d hentry).1

/-- Resolution is balanced, for every expression and every statement, in whatever state the resolver comes to it and
    whatever it reports on the way. -/
theorem resolution_balanced (r : Resolution) :
    (∀ e : Expr, r.Balanced (e.resolve r) [] (e.points .top) (e.visits r)) ∧
      ∀ s : Stmt, r.Balanced (s.resolve r) s.names (s.points .top) (s.visits r) := by
  have hwithin : r.Within r.scopes .top := .grown (.refl _)
  refine ⟨fun e => ?_, fun s => ?_⟩
  · have hscopes : GrownBy [] r.scopes (e.resolve r).scopes := by
      rw [e.resolve_scopes]
      exact .refl _
    exact .of_walk hscopes (e.resolve_place r) (e.resolve_log r) (e.visits_reached hwithin)
  · exact .of_walk (s.resolve_grownBy r) (s.resolve_place r) (s.resolve_log r) (s.visits_reached hwithin)

end LoxLanguage
