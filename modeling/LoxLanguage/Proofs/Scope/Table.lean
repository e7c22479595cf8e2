import Mathlib
import LoxLanguage.Proofs.Parser.Trees
import LoxLanguage.Proofs.Scanner.Words

/-! The table of distances. For a parsed program it says of each use which local scope around it declares the name there,
and of nothing else. The resolver notes a `this` only in a method, and looks it up like any other name; both come
to the same, since the scope around the methods of a class is the only one that declares that name. -/

namespace LoxLanguage

/-! ### Bindings -/

theorem Context.distance?_eq_some_iff {c : Context} {name : String} {d : Nat} :
    c.distance? name = some d ↔ c.Binds name d := by
  unfold distance? Binds
  induction c.layers generalizing d with
  | nil => simp
  | cons layer outer ih =>
    rw [List.findIdx?_cons]
    by_cases hname : name ∈ layer.names
    · simp only [hname, decide_true, if_true, Option.some.injEq]
      refine ⟨fun h => ⟨[], layer, outer, rfl, h, hname, nofun⟩, ?_⟩
      rintro ⟨inner, found, rest, heq, hlength, -, hinner⟩
      cases inner with
      | nil => exact hlength
      | cons first inner =>
        cases heq
        exact absurd hname (hinner _ List.mem_cons_self)
    · simp only [hname, decide_false, Bool.false_eq_true, if_false, Option.map_eq_some_iff]
      constructor
      · rintro ⟨k, hk, rfl⟩
        obtain ⟨inner, found, rest, rfl, rfl, hfound, hinner⟩ := ih.mp hk
        exact ⟨layer :: inner, found, rest, rfl, rfl, hfound, List.forall_mem_cons.mpr ⟨hname, hinner⟩⟩
      · rintro ⟨inner, found, rest, heq, rfl, hfound, hinner⟩
        cases inner with
        | nil =>
          cases heq
          exact absurd hfound hname
        | cons first inner =>
          cases heq
          exact ⟨inner.length, ih.mpr ⟨inner, found, rest, rfl, rfl, hfound, (List.forall_mem_cons.mp hinner).2⟩, rfl⟩

/-! ### Receivers -/

/-- Scopes around an expression: a method is directly in the scope of its class, and no other scope declares `this`. -/
inductive ThisScoped : List Layer → Prop where
  | nil : ThisScoped []
  | plain {layer : Layer} {outer : List Layer} (hkind : layer.kind = .block ∨ layer.kind = .body .function)
      (hnames : "this" ∉ layer.names) (houter : ThisScoped outer) : ThisScoped (layer :: outer)
  | method {layer : Layer} {outer : List Layer} (hkind : layer.isMethod = true) (hnames : "this" ∉ layer.names)
      (houter : ThisScoped outer) : ThisScoped (layer :: ⟨.receiver, ["this"]⟩ :: outer)

namespace ThisScoped

/-- Inside of a method, and only there, `this` is declared. -/
theorem distance?_this {c : Context} (h : ThisScoped c.layers) : (c.distance? "this").isSome = c.inMethod := by
  unfold Context.distance? Context.inMethod
  generalize c.layers = layers at h
  induction h with
  | nil => rfl
  | @plain layer outer hkind hnames _ ih =>
    have hplain : layer.isMethod = false := by
      rcases hkind with h | h <;> simp [Layer.isMethod, h]
    rw [List.findIdx?_cons, List.any_cons, ← ih, hplain]
    simp [hnames]
  | @method layer outer hkind hnames _ _ =>
    rw [List.any_cons, hkind, List.findIdx?_cons, List.findIdx?_cons]
    simp [hnames]

theorem declare {c : Context} {names : List String} (h : ThisScoped c.layers) (hnames : "this" ∉ names) :
    ThisScoped (c.declare names).layers := by
  obtain ⟨layers, initializing⟩ := c
  cases h with
  | nil => exact .nil
  | plain hkind hlayer houter => exact .plain hkind (by simp [Layer.declare, hlayer, hnames]) houter
  | method hkind hlayer houter => exact .method hkind (by simp [Layer.declare, hlayer, hnames]) houter

end ThisScoped

section Receivers
variable {tokens : List Token}

theorem Token.IsFrom.ne_this {t : Token} (h : t.IsFrom tokens .identifier) (hts : ∀ t ∈ tokens, t.Regular) :
    t.lexeme ≠ "this" :=
  (hts t h.1).2 h.2

section Names
variable {x : String}

mutual

/-- Proper statements do not declare a name that none of the identifiers has. -/
theorem Stmt.notMem_names (hx : ∀ t : Token, t.IsFrom tokens .identifier → t.lexeme ≠ x) : ∀ (s : Stmt) {c : Context},
    (∀ p ∈ s.points c, p.node.Proper tokens) → x ∉ s.names
  | .declareVariable name _, c, h => by
    have hname : name.IsFrom tokens .identifier := h _ List.mem_cons_self
    simpa [Stmt.names] using (hx name hname).symm
  | .declareFunction (.mk name parameters body), c, h => by
    have hname : name.IsFrom tokens .identifier := (h _ (List.mem_cons_of_mem _ List.mem_cons_self)).1
    simpa [Stmt.names, Function.name] using (hx name hname).symm
  | .declareClass name _, c, h => by
    have hname : name.IsFrom tokens .identifier := h _ List.mem_cons_self
    simpa [Stmt.names] using (hx name hname).symm
  | .branch condition whenTrue whenFalse, c, h => by
    simp only [Stmt.points, List.forall_mem_cons, List.forall_mem_append] at h
    rw [Stmt.names, List.mem_append, not_or]
    exact ⟨whenTrue.notMem_names hx h.2.2.1, Stmt.notMem_namesOption hx whenFalse h.2.2.2⟩
  | .loop condition body, c, h => by
    simp only [Stmt.points, List.forall_mem_cons, List.forall_mem_append] at h
    exact body.notMem_names hx h.2.2
  | .expression _, _, _ | .print _, _, _ | .block _, _, _ | .returnValue _ _, _, _ => by simp [Stmt.names]

theorem Stmt.notMem_namesOption (hx : ∀ t : Token, t.IsFrom tokens .identifier → t.lexeme ≠ x) :
    ∀ (s : Option Stmt) {c : Context}, (∀ p ∈ Stmt.pointsOption s c, p.node.Proper tokens) → x ∉ Stmt.namesOption s
  | none, _, _ => by simp [Stmt.namesOption]
  | some s, _, h => s.notMem_names hx h

end

end Names

/-- Proper statements do not declare `this`. -/
theorem Stmt.this_notMem_names (hts : ∀ t ∈ tokens, t.Regular) (s : Stmt) {c : Context}
    (h : ∀ p ∈ s.points c, p.node.Proper tokens) : "this" ∉ s.names :=
  s.notMem_names (fun _ ht => ht.ne_this hts) h

/-- In the scopes around an expression at a point, `this` is declared for methods alone. -/
def Point.InThisScoped (p : Point) : Prop :=
  ∀ e, p.node = .expr e → ThisScoped p.context.layers

theorem Expr.points_thisScoped (e : Expr) {c : Context} (hc : ThisScoped c.layers) : ∀ p ∈ e.points c, p.InThisScoped := by
  intro p hp _ _
  obtain ⟨part, -, rfl⟩ := List.mem_map.mp hp
  exact hc

theorem Expr.pointsOption_thisScoped (e : Option Expr) {c : Context} (hc : ThisScoped c.layers) :
    ∀ p ∈ Expr.pointsOption e c, p.InThisScoped := by
  cases e with
  | none => nofun
  | some e => exact e.points_thisScoped hc

mutual

theorem Stmt.points_thisScoped (hts : ∀ t ∈ tokens, t.Regular) : ∀ (s : Stmt) {c : Context}, ThisScoped c.layers →
    (∀ p ∈ s.points c, p.node.Proper tokens) → ∀ p ∈ s.points c, p.InThisScoped
  | .expression e, c, hc, _ => List.forall_mem_cons.mpr ⟨nofun, e.points_thisScoped hc⟩
  | .print e, c, hc, _ => List.forall_mem_cons.mpr ⟨nofun, e.points_thisScoped hc⟩
  | .declareVariable name initializer, c, hc, h => by
    have hname := Stmt.this_notMem_names hts (.declareVariable name initializer) h
    exact List.forall_mem_cons.mpr ⟨nofun, Expr.pointsOption_thisScoped initializer (hc.declare hname)⟩
  | .block body, c, hc, h => by
    have hbody := (List.forall_mem_cons.mp h).2
    exact List.forall_mem_cons.mpr ⟨nofun, Stmt.pointsAll_thisScoped hts body (.plain (.inl rfl) (by simp) hc) hbody⟩
  | .branch condition whenTrue whenFalse, c, hc, h => by
    simp only [Stmt.points, List.forall_mem_cons, List.forall_mem_append] at h ⊢
    obtain ⟨-, -, htrue, hfalse⟩ := h
    have hnames := whenTrue.this_notMem_names hts htrue
    exact ⟨nofun, condition.points_thisScoped hc, whenTrue.points_thisScoped hts hc htrue,
      Stmt.pointsOption_thisScoped hts whenFalse (hc.declare hnames) hfalse⟩
  | .loop condition body, c, hc, h => by
    simp only [Stmt.points, List.forall_mem_cons, List.forall_mem_append] at h ⊢
    exact ⟨nofun, condition.points_thisScoped hc, body.points_thisScoped hts hc h.2.2⟩
  | .declareFunction f, c, hc, h => by
    have hname := Stmt.this_notMem_names hts (.declareFunction f) h
    refine List.forall_mem_cons.mpr ⟨nofun, f.points_thisScoped hts ?_ (List.forall_mem_cons.mp h).2⟩
    exact fun names hnames => .plain (.inr rfl) hnames (hc.declare hname)
  | .returnValue _ value, c, hc, _ => List.forall_mem_cons.mpr ⟨nofun, Expr.pointsOption_thisScoped value hc⟩
  | .declareClass name methods, c, hc, h => by
    have hname := Stmt.this_notMem_names hts (.declareClass name methods) h
    have hmethods := (List.forall_mem_cons.mp h).2
    exact List.forall_mem_cons.mpr ⟨nofun, Function.pointsAll_thisScoped hts methods (hc.declare hname) hmethods⟩

theorem Stmt.pointsAll_thisScoped (hts : ∀ t ∈ tokens, t.Regular) : ∀ (body : List Stmt) {c : Context}, ThisScoped c.layers →
    (∀ p ∈ Stmt.pointsAll body c, p.node.Proper tokens) → ∀ p ∈ Stmt.pointsAll body c, p.InThisScoped
  | [], _, _, _ => nofun
  | s :: rest, c, hc, h => by
    obtain ⟨hs, hrest⟩ := List.forall_mem_append.mp h
    have hnames := s.this_notMem_names hts hs
    exact List.forall_mem_append.mpr
      ⟨s.points_thisScoped hts hc hs, Stmt.pointsAll_thisScoped hts rest (hc.declare hnames) hrest⟩

theorem Stmt.pointsOption_thisScoped (hts : ∀ t ∈ tokens, t.Regular) : ∀ (s : Option Stmt) {c : Context}, ThisScoped c.layers →
    (∀ p ∈ Stmt.pointsOption s c, p.node.Proper tokens) → ∀ p ∈ Stmt.pointsOption s c, p.InThisScoped
  | none, _, _, _ => nofun
  | some s, _, hc, h => s.points_thisScoped hts hc h

/-- What the scope of a routine is in depends on whether it is a method. -/
theorem Function.points_thisScoped (hts : ∀ t ∈ tokens, t.Regular) : ∀ (f : Function) {enclosing : Enclosing} {c : Context},
    (∀ names, "this" ∉ names → ThisScoped (c.enter (.body enclosing) names).layers) →
    (∀ p ∈ f.points enclosing c, p.node.Proper tokens) → ∀ p ∈ f.points enclosing c, p.InThisScoped
  | .mk name parameters body, enclosing, c, hc, h => by
    obtain ⟨hroutine, hbody⟩ := List.forall_mem_cons.mp h
    have hparameters : "this" ∉ parameters.map Token.lexeme := by
      intro hmem
      obtain ⟨parameter, hparameter, heq⟩ := List.mem_map.mp hmem
      exact (hroutine.2 parameter hparameter).ne_this hts heq
    exact List.forall_mem_cons.mpr ⟨nofun, Stmt.pointsAll_thisScoped hts body (hc _ hparameters) hbody⟩

theorem Function.pointsAll_thisScoped (hts : ∀ t ∈ tokens, t.Regular) : ∀ (methods : List Function) {c : Context},
    ThisScoped c.layers → (∀ p ∈ Function.pointsAll methods (c.enter .receiver ["this"]), p.node.Proper tokens) →
    ∀ p ∈ Function.pointsAll methods (c.enter .receiver ["this"]), p.InThisScoped
  | [], _, _, _ => nofun
  | f :: rest, c, hc, h => by
    obtain ⟨hf, hrest⟩ := List.forall_mem_append.mp h
    refine List.forall_mem_append.mpr ⟨f.points_thisScoped hts ?_ hf, Function.pointsAll_thisScoped hts rest hc hrest⟩
    refine fun names hnames => .method ?_ hnames hc
    cases f.isInitializer <;> rfl

end

end Receivers

/-! ### The table -/

namespace Point

/-- What is noted at a point is noted at the site of its use. -/
theorem map_fst_entries_sublist (p : Point) : (p.entries.map Prod.fst).Sublist p.site?.toList := by
  have hentry : ∀ (c : Context) (site : Site) (name : Token), ((entry c site name).map Prod.fst).Sublist [site] := by
    intro c site name
    unfold entry
    cases c.distance? name.lexeme <;> simp
  obtain ⟨node, c⟩ := p
  match node with
  | .expr (.use site name) => exact hentry c site name
  | .expr (.assign site name _) => exact hentry c site name
  | .expr (.this site keyword) =>
    by_cases hin : c.inMethod = true
    · rw [show entries ⟨.expr (.this site keyword), c⟩ = entry c site keyword from if_pos hin]
      exact hentry c site keyword
    · rw [show entries ⟨.expr (.this site keyword), c⟩ = [] from if_neg hin]
      exact List.nil_sublist _
  | .expr (.literal _) | .expr (.unary _ _) | .expr (.binary _ _ _) | .expr (.logical _ _ _) | .expr (.grouping _)
  | .expr (.call _ _ _) | .expr (.get _ _) | .expr (.set _ _ _) | .stmt _ | .routine _ => exact List.nil_sublist _

/-- The distance that is noted at a use is that to the scope which declares its name. -/
theorem mem_entries_iff {tokens : List Token} (hts : ∀ t ∈ tokens, t.Regular) {p : Point} (hproper : p.node.Proper tokens)
    (hscoped : p.InThisScoped) {u : Use} (hu : p.use? = some u) {d : Nat} :
    (u.site, d) ∈ p.entries ↔ p.context.Binds u.name.lexeme d := by
  have hentry : ∀ (c : Context) (site : Site) (name : Token), (site, d) ∈ entry c site name ↔ c.Binds name.lexeme d := by
    intro c site name
    rw [← Context.distance?_eq_some_iff]
    simp [entry]
  obtain ⟨node, c⟩ := p
  cases node with
  | stmt s => cases hu
  | routine f => cases hu
  | expr e =>
    cases e <;> cases hu
    case use.refl site name => exact hentry c site name
    case assign.refl site name value => exact hentry c site name
    case this.refl site keyword =>
      have hlexeme : keyword.lexeme = "this" := (hts keyword hproper.1).1 hproper.2
      have hmethod := (hscoped _ rfl).distance?_this
      by_cases hin : c.inMethod = true
      · rw [show entries ⟨.expr (.this site keyword), c⟩ = entry c site keyword from if_pos hin]
        exact hentry c site keyword
      · -- Outside of methods nothing is noted, and there is nothing to be bound to.
        have hnone : c.distance? keyword.lexeme = none := by
          rw [hlexeme]
          simpa [hin] using hmethod
        simp [entries, hin, ← Context.distance?_eq_some_iff, hnone]

end Point

theorem Distances.get?_insertAll_empty {entries : List (Site × Nat)} (hnodup : (entries.map Prod.fst).Nodup) {site : Site}
    {d : Nat} : (Distances.empty.insertAll entries).get? site = some d ↔ (site, d) ∈ entries := by
  refine ⟨fun h => ?_, Distances.get?_insertAll_of_mem hnodup⟩
  by_cases hmem : site ∈ entries.map Prod.fst
  · obtain ⟨⟨_, other⟩, hentry, rfl⟩ := List.mem_map.mp hmem
    rw [Distances.get?_insertAll_of_mem hnodup hentry] at h
    cases h
    exact hentry
  · rw [Distances.get?_insertAll_of_not_mem hmem] at h
    cases h

/-- The table that resolving gives for the statements of a program. -/
def distanceTable (program : List Stmt) : Distances :=
  Distances.empty.insertAll (resolve program).distances.toList

section Table
variable {first : Site} {tokens : List Token} {site : Site} {d : Nat}

/-- If no two points are uses at the same site, the table has what is noted at the points. -/
theorem distanceTable_get?_iff_of_nodup {program : List Stmt} (h : ((points program).filterMap Point.site?).Nodup) :
    (distanceTable program).get? site = some d ↔ ∃ p ∈ points program, (site, d) ∈ p.entries := by
  have hkeys : ((points program).flatMap Point.entries |>.map Prod.fst).Nodup := by
    refine List.Sublist.nodup ?_ h
    rw [List.map_flatMap, List.filterMap_eq_flatMap_toList]
    exact List.Sublist.flatMap_right _ fun p _ => p.map_fst_entries_sublist
  rw [distanceTable, distances_eq_points, Distances.get?_insertAll_empty hkeys, List.mem_flatMap]

theorem distanceTable_get?_iff : (distanceTable (parse first tokens).statements).get? site = some d ↔
    ∃ p ∈ points (parse first tokens).statements, (site, d) ∈ p.entries :=
  distanceTable_get?_iff_of_nodup (parse_laid first tokens).nodup

theorem Point.site?_of_mem_entries {p : Point} (h : (site, d) ∈ p.entries) : p.site? = some site := by
  have hmem := p.map_fst_entries_sublist.subset (List.mem_map_of_mem h)
  simpa using hmem

end Table

/-- The table of distances is the static binding relation, also of a program with problems. The points of a parsed
    program hold its uses, each once. A use has a distance exactly if a local scope around it has declared its name
    there, and the distance is the number of scopes that are opened inside the innermost such scope. So a declaration
    outside of all local scopes gives no distance to the uses there, and nothing but uses has one. In the tokens only
    the keyword is spelled `this`, as in all those of a scanned text. -/
theorem distanceTable_eq_binding (first : Site) {tokens : List Token} (hts : ∀ t ∈ tokens, t.Regular) :
    let program := (parse first tokens).statements
    ((points program).filterMap Point.use?).Perm (Stmt.usesOfAll program) ∧
      ((points program).filterMap Point.site?).Nodup ∧
      (∀ p ∈ points program, ∀ u, p.use? = some u → ∀ d,
        (distanceTable program).get? u.site = some d ↔ p.context.Binds u.name.lexeme d) ∧
      (∀ p ∈ points program, ∀ u, p.use? = some u → p.context.layers = [] → (distanceTable program).get? u.site = none) ∧
      ∀ site d, (distanceTable program).get? site = some d → ∃ u ∈ Stmt.usesOfAll program, u.site = site := by
  intro program
  have hlaid : Laid tokens first _ (points program) := parse_laid first tokens
  have huses := Stmt.pointsAll_uses program .top
  have hscoped := Stmt.pointsAll_thisScoped hts program .nil hlaid.proper
  have hbinds : ∀ p ∈ points program, ∀ u, p.use? = some u → ∀ d,
      (distanceTable program).get? u.site = some d ↔ p.context.Binds u.name.lexeme d := by
    intro p hp u hu d
    have hsite : p.site? = some u.site := by rw [Point.site?, hu, Option.map_some]
    rw [← Point.mem_entries_iff hts (hlaid.proper p hp) (hscoped p hp) hu, distanceTable_get?_iff]
    refine ⟨?_, fun h => ⟨p, hp, h⟩⟩
    rintro ⟨q, hq, h⟩
    -- What is noted at the site of the use is noted at its point.
    rw [hlaid.eq_of_site hp hq hsite (Point.site?_of_mem_entries h)]
    exact h
  refine ⟨huses, hlaid.nodup, hbinds, fun p hp u hu houtside => ?_, fun site d h => ?_⟩
  · rw [Option.eq_none_iff_forall_ne_some]
    intro d h
    obtain ⟨inner, layer, outer, hlayers, -⟩ := (hbinds p hp u hu d).mp h
    simp [houtside] at hlayers
  · obtain ⟨q, hq, hentry⟩ := distanceTable_get?_iff.mp h
    obtain ⟨u, hu, hsite⟩ := Option.map_eq_some_iff.mp (Point.site?_of_mem_entries hentry)
    exact ⟨u, huses.mem_iff.mp (List.mem_filterMap.mpr ⟨q, hq, hu⟩), hsite⟩

theorem scan_regular (source : String) : ∀ t ∈ (scan source).1, t.Regular := by
  obtain ⟨body, eof, htokens, heof, hbody⟩ := scan_tokens source
  rw [htokens, List.forall_mem_append]
  refine ⟨fun t ht => (hbody t ht).2, ?_⟩
  simp [Token.Regular, heof]

/-- A variable in its own initializer, uses at two depths of a function, and a `this` outside of all classes. -/
def nestingText : String :=
  "\x7b var a = a; fun f(b) \x7b print a; \x7b print b; \x7d \x7d print this; \x7d"

theorem distanceTable_eq_binding_nesting :
    let program := (parse 0 (scan nestingText).1).statements
    (∀ t ∈ (scan nestingText).1, t.Regular) ∧ (resolve program).distances.toList = [(0, 0), (1, 1), (2, 1)] ∧
      ∀ p ∈ points program, ∀ u, p.use? = some u → ∀ d,
        (distanceTable program).get? u.site = some d ↔ p.context.Binds u.name.lexeme d := by
  have hregular := scan_regular nestingText
  obtain ⟨-, -, hbinds, -, -⟩ := distanceTable_eq_binding 0 hregular
  exact ⟨hregular, by cbv, hbinds⟩

end LoxLanguage
