import Mathlib
import LoxLanguage.Proofs.Scope.Changes
import LoxLanguage.Proofs.Scope.Table

/-! A block around a statement. What the points of a statement know is what they know when the statement stands alone,
followed by the scopes around it. A block around a statement that declares nothing is one more scope there, with no
names: the distances of uses that the statement itself does not bind grow by one, and all else stays. -/

namespace LoxLanguage

/-! ### Points of a statement alone -/

/-- In further scopes. -/
def Context.within (c : Context) (outer : List Layer) : Context :=
  { c with layers := c.layers ++ outer }

/-- A point with further scopes around it. -/
def Point.within (p : Point) (outer : List Layer) : Point :=
  ⟨p.node, p.context.within outer⟩

/-- Names may be declared here without touching the scopes further out. -/
def Context.Holds (c : Context) (names : List String) : Prop :=
  c.layers ≠ [] ∨ names = []

namespace Context

variable {c : Context} {names more : List String}

theorem holds_append : c.Holds (names ++ more) ↔ c.Holds names ∧ c.Holds more := by
  unfold Holds
  rw [List.append_eq_nil_iff]
  exact or_and_left

theorem Holds.declare (h : c.Holds more) (names : List String) : (c.declare names).Holds more := by
  rcases h with h | h
  · left
    simpa [Context.declare] using h
  · exact .inr h

theorem holds_enter (kind : Layer.Kind) (names : List String) : (c.enter kind names).Holds more :=
  .inl (by simp [Context.enter])

theorem declare_within (h : c.Holds names) (outer : List Layer) :
    (c.within outer).declare names = (c.declare names).within outer := by
  obtain ⟨layers, initializing⟩ := c
  rcases h with h | rfl
  · cases layers with
    | nil => exact absurd rfl h
    | cons layer rest => rfl
  · rw [Context.declare_nil, Context.declare_nil]

/-- The variable in whose initializer a point is belongs to one of the scopes. -/
def Local (c : Context) : Prop :=
  c.layers ≠ [] ∨ c.initializing = none

end Context

/-- The second points are the first ones in further scopes. -/
structure Embeds (outer : List Layer) (ps qs : List Point) : Prop where
  eq : qs = ps.map (·.within outer)
  owned : ∀ p ∈ ps, p.context.Local

namespace Embeds

variable {outer : List Layer} {ps qs ps' qs' : List Point}

theorem nil : Embeds outer [] [] :=
  ⟨rfl, by simp⟩

theorem append (h : Embeds outer ps qs) (h' : Embeds outer ps' qs') : Embeds outer (ps ++ ps') (qs ++ qs') := by
  refine ⟨?_, ?_⟩
  · rw [h.eq, h'.eq, List.map_append]
  · exact List.forall_mem_append.mpr ⟨h.owned, h'.owned⟩

theorem cons {node : Node} {c : Context} (hc : c.Local) (h : Embeds outer ps qs) :
    Embeds outer (⟨node, c⟩ :: ps) (⟨node, c.within outer⟩ :: qs) := by
  refine ⟨?_, List.forall_mem_cons.mpr ⟨hc, h.owned⟩⟩
  rw [h.eq]
  rfl

end Embeds

section Embedding
variable (outer : List Layer)

theorem Expr.embeds (e : Expr) {c : Context} (hc : c.Local) : Embeds outer (e.points c) (e.points (c.within outer)) := by
  refine ⟨by simp [Expr.points, Point.within], ?_⟩
  intro p hp
  obtain ⟨part, -, rfl⟩ := List.mem_map.mp hp
  exact hc

theorem Expr.embedsOption (e : Option Expr) {c : Context} (hc : c.Local) :
    Embeds outer (Expr.pointsOption e c) (Expr.pointsOption e (c.within outer)) := by
  cases e with
  | none => exact .nil
  | some e => exact e.embeds outer hc

mutual

/-- A statement has the points that it has alone, in further scopes, if its declarations stay in scopes of its own. -/
theorem Stmt.embeds : ∀ (s : Stmt) {c : Context}, c.initializing = none → c.Holds s.names →
    Embeds outer (s.points c) (s.points (c.within outer))
  | .expression e, c, hc, _ => .cons (.inr hc) (e.embeds outer (.inr hc))
  | .print e, c, hc, _ => .cons (.inr hc) (e.embeds outer (.inr hc))
  | .declareVariable name initializer, c, hc, hnames => by
    have hlocal : (c.inInitializer name.lexeme).Local := by
      rcases hnames with h | h
      · exact .inl (by simpa [Context.inInitializer, Context.declare] using h)
      · simp [Stmt.names] at h
    have hinside : (c.within outer).inInitializer name.lexeme = (c.inInitializer name.lexeme).within outer := by
      have hdeclare := Context.declare_within hnames outer
      simp only [Stmt.names] at hdeclare
      simp only [Context.inInitializer, hdeclare]
      rfl
    refine .cons (.inr hc) ?_
    rw [hinside]
    exact Expr.embedsOption outer initializer hlocal
  | .block body, c, hc, _ => .cons (.inr hc) (Stmt.embedsAll body (c := c.enter .block []) hc (c.holds_enter _ _))
  | .branch condition whenTrue whenFalse, c, hc, hnames => by
    obtain ⟨htrue, hfalse⟩ := Context.holds_append.mp hnames
    have hbranch := Stmt.embedsOption whenFalse (c := c.declare whenTrue.names) hc (hfalse.declare _)
    rw [← Context.declare_within htrue] at hbranch
    exact .cons (.inr hc) ((condition.embeds outer (.inr hc)).append ((whenTrue.embeds hc htrue).append hbranch))
  | .loop condition body, c, hc, hnames =>
    .cons (.inr hc) ((condition.embeds outer (.inr hc)).append (body.embeds hc hnames))
  | .declareFunction f, c, hc, hnames => by
    have hbody := f.embeds .function (c := c.declare [f.name.lexeme]) hc
    have hinside : (c.declare [f.name.lexeme]).within outer = (c.within outer).declare [f.name.lexeme] :=
      (Context.declare_within hnames outer).symm
    rw [hinside] at hbody
    exact .cons (.inr hc) hbody
  | .returnValue _ value, c, hc, _ => .cons (.inr hc) (Expr.embedsOption outer value (.inr hc))
  | .declareClass name methods, c, hc, hnames => by
    have hmethods := Function.embedsAll methods (c := (c.declare [name.lexeme]).enter .receiver ["this"]) hc
    have hinside : ((c.declare [name.lexeme]).enter .receiver ["this"]).within outer =
        ((c.within outer).declare [name.lexeme]).enter .receiver ["this"] :=
      congrArg (·.enter .receiver ["this"]) (Context.declare_within hnames outer).symm
    rw [hinside] at hmethods
    exact .cons (.inr hc) hmethods

theorem Stmt.embedsAll : ∀ (body : List Stmt) {c : Context}, c.initializing = none → c.Holds (Stmt.namesAll body) →
    Embeds outer (Stmt.pointsAll body c) (Stmt.pointsAll body (c.within outer))
  | [], _, _, _ => .nil
  | s :: rest, c, hc, hnames => by
    obtain ⟨hs, hrest⟩ := Context.holds_append.mp hnames
    have hbehind := Stmt.embedsAll rest (c := c.declare s.names) hc (hrest.declare _)
    rw [← Context.declare_within hs] at hbehind
    exact (s.embeds hc hs).append hbehind

theorem Stmt.embedsOption : ∀ (s : Option Stmt) {c : Context}, c.initializing = none → c.Holds (Stmt.namesOption s) →
    Embeds outer (Stmt.pointsOption s c) (Stmt.pointsOption s (c.within outer))
  | none, _, _, _ => .nil
  | some s, _, hc, hnames => s.embeds hc hnames

theorem Function.embeds : ∀ (f : Function) (enclosing : Enclosing) {c : Context}, c.initializing = none →
    Embeds outer (f.points enclosing c) (f.points enclosing (c.within outer))
  | .mk _ parameters body, enclosing, c, hc =>
    .cons (.inr hc) (Stmt.embedsAll body (c := c.enter (.body enclosing) (parameters.map Token.lexeme)) hc
      (c.holds_enter _ _))

theorem Function.embedsAll : ∀ (methods : List Function) {c : Context}, c.initializing = none →
    Embeds outer (Function.pointsAll methods c) (Function.pointsAll methods (c.within outer))
  | [], _, _ => .nil
  | f :: rest, _, hc => (f.embeds _ hc).append (Function.embedsAll rest hc)

end

end Embedding

/-- The points of a statement that declares nothing. -/
theorem Stmt.points_eq_within {s : Stmt} (hs : s.names = []) {c : Context} (hc : c.initializing = none) :
    s.points c = (s.points .top).map (·.within c.layers) := by
  have hembeds := s.embeds c.layers (c := .top) rfl (.inr hs)
  have htop : Context.top.within c.layers = c := by
    obtain ⟨layers, initializing⟩ := c
    subst hc
    rfl
  rw [← hembeds.eq, htop]

/-! ### One more scope -/

/-- The scope of a block that declares nothing. -/
def Layer.blank : Layer :=
  ⟨.block, []⟩

namespace Context

theorem distance?_within (c : Context) (outer : List Layer) (x : String) : (c.within outer).distance? x =
    (c.distance? x).or ((outer.findIdx? (x ∈ ·.names)).map (· + c.layers.length)) := by
  simp only [distance?, within, List.findIdx?_append]

theorem findIdx?_blank (outer : List Layer) (x : String) :
    (Layer.blank :: outer).findIdx? (x ∈ ·.names) = (outer.findIdx? (x ∈ ·.names)).map (· + 1) := by
  simp [List.findIdx?_cons, Layer.blank]

theorem inMethod_within (c : Context) (outer : List Layer) :
    (c.within outer).inMethod = (c.inMethod || outer.any Layer.isMethod) := by
  simp [inMethod, within]

theorem enclosing_blank (c : Context) (outer : List Layer) :
    (c.within (Layer.blank :: outer)).enclosing = (c.within outer).enclosing := by
  simp only [enclosing, within, List.findSome?_append, List.findSome?_cons]
  rfl

/-- A name that is bound further out is one scope further away. -/
theorem distance?_blank (c : Context) (outer : List Layer) (x : String) : (c.within (Layer.blank :: outer)).distance? x =
    ((c.within outer).distance? x).map (· + (c.distance? x).isNone.toNat) := by
  rw [distance?_within, distance?_within, findIdx?_blank]
  cases c.distance? x with
  | some d => simp
  | none =>
    cases outer.findIdx? (x ∈ ·.names) with
    | none => rfl
    | some d => simp; omega

end Context

namespace Point

/-- The distance that is noted at a point grows by one if the point notes none when the statement stands alone. -/
theorem entries_blank (p : Point) (outer : List Layer) (hscoped : p.InThisScoped)
    (hthis : ∀ site keyword, p.node = .expr (.this site keyword) → keyword.lexeme = "this") :
    (p.within (Layer.blank :: outer)).entries =
      (p.within outer).entries.map fun e => (e.1, e.2 + p.entries.isEmpty.toNat) := by
  have hentry : ∀ (c : Context) site (name : Token), entry (c.within (Layer.blank :: outer)) site name =
      (entry (c.within outer) site name).map fun e => (e.1, e.2 + (entry c site name).isEmpty.toNat) := by
    intro c site name
    simp only [entry, Context.distance?_blank]
    cases c.distance? name.lexeme <;> cases (c.within outer).distance? name.lexeme <;> simp
  obtain ⟨node, c⟩ := p
  cases node with
  | stmt s => rfl
  | routine f => rfl
  | expr e =>
    cases e with
    | use site name => exact hentry c site name
    | assign site name value => exact hentry c site name
    | this site keyword =>
      have hname := hthis site keyword rfl
      simp only [Point.within, entries, Context.inMethod_within]
      have hblank : (Layer.blank :: outer).any Layer.isMethod = outer.any Layer.isMethod := by
        simp [Layer.blank, Layer.isMethod]
      rw [hblank]
      cases hmethod : c.inMethod with
      | true => simpa using hentry c site keyword
      | false =>
        -- Outside of all methods of the statement, `this` is that of a method around it.
        have hnone : entry c site keyword = [] := by
          have hsome := (hscoped _ rfl).distance?_this
          rw [hmethod, Option.isSome_eq_false_iff, Option.isNone_iff_eq_none] at hsome
          simp [entry, hname, hsome]
        cases outer.any Layer.isMethod with
        | true => simpa [hnone] using hentry c site keyword
        | false => simp
    | _ => rfl

/-- One more scope around a statement breaks no rule. -/
theorem violations_blank {p : Point} {outer : List Layer} (hlocal : p.context.Local)
    (h : (p.within outer).violations = []) : (p.within (Layer.blank :: outer)).violations = [] := by
  obtain ⟨node, c⟩ := p
  have hredeclared : ∀ name : Token, redeclared (c.within outer) name = [] →
      redeclared (c.within (Layer.blank :: outer)) name = [] := by
    intro name hname
    obtain ⟨layers, initializing⟩ := c
    cases layers with
    | nil => simp [redeclared, Context.within, Layer.blank]
    | cons layer rest => exact hname
  cases node with
  | routine f => exact h
  | expr e =>
    cases e with
    | use site name =>
      rcases hlocal with hlayers | hsettled
      · obtain ⟨layers, initializing⟩ := c
        cases layers with
        | nil => exact absurd rfl hlayers
        | cons layer rest => exact h
      · have hsettled : c.initializing = none := hsettled
        simp [Point.within, violations, Context.within, hsettled]
    | this site keyword =>
      simp only [Point.within, violations, Context.inMethod_within] at h ⊢
      simpa [Layer.blank, Layer.isMethod] using h
    | _ => rfl
  | stmt s =>
    cases s with
    | declareVariable name initializer => exact hredeclared name h
    | declareFunction f => exact hredeclared f.name h
    | declareClass name methods => exact hredeclared name h
    | returnValue keyword value =>
      simp only [Point.within, violations, Context.enclosing_blank] at h ⊢
      exact h
    | _ => rfl

end Point

/-! ### Programs -/

/-- A block is put around one occurrence of a statement. -/
abbrev Stmt.WrappedIn (s : Stmt) : List Stmt → List Stmt → Prop :=
  Stmt.ChangedAll (fun a b => a = s ∧ b = .block [s]) fun _ _ => False

/-- The site of a use in a statement that no scope of the statement itself binds. -/
def Stmt.LeavesFree (s : Stmt) (site : Site) : Prop :=
  (∃ u ∈ s.uses, u.site = site) ∧ (distanceTable [s]).get? site = none

instance (s : Stmt) (site : Site) : Decidable (s.LeavesFree site) :=
  inferInstanceAs (Decidable (_ ∧ _))

theorem Stmt.wraps_replacement {s : Stmt} (hdeclared : s.declared? = none) :
    Replacement (fun a b => a = s ∧ b = .block [s]) (fun _ _ => False) fun p => p.node.Regular := by
  constructor
  · rintro _ _ c ⟨rfl, rfl⟩ hregular
    exact (Stmt.names_eq_nil _ hregular hdeclared).symm
  · rintro _ _ ⟨rfl, rfl⟩
    exact hdeclared.symm
  · nofun

/-- Points among which a block has been put around a statement that declares nothing. -/
structure WrapsAt (s : Stmt) (ps ps' : List Point) : Prop where
  names : s.names = []
  place : Amid (fun qs qs' => ∃ outer, qs = (s.points .top).map (·.within outer) ∧ ∃ c : Context,
    qs' = ⟨.stmt (.block [s]), c⟩ :: (s.points .top).map (·.within (Layer.blank :: outer))) ps ps'

theorem wrapsAt_points {s : Stmt} {program program' : List Stmt} (h : s.WrappedIn program program')
    (hdeclared : s.declared? = none) (hregular : ∀ p ∈ points program, p.node.Regular) :
    WrapsAt s (points program) (points program') := by
  have hplace : Amid (fun qs qs' => s.names = [] ∧ ∃ outer, qs = (s.points .top).map (·.within outer) ∧ ∃ c : Context,
      qs' = ⟨.stmt (.block [s]), c⟩ :: (s.points .top).map (·.within (Layer.blank :: outer))) (points program)
      (points program') := by
    refine Stmt.ChangedAll.amid (Stmt.wraps_replacement hdeclared) ?_ nofun h rfl hregular
    rintro _ _ c ⟨rfl, rfl⟩ hc hregular
    have hs := Stmt.names_eq_nil _ hregular hdeclared
    refine ⟨hs, c.layers, Stmt.points_eq_within hs hc, c, ?_⟩
    have hinner : (c.enter .block []).initializing = none := hc
    rw [Stmt.points, Stmt.pointsAll, Stmt.pointsAll, List.append_nil, Stmt.points_eq_within hs hinner]
    rfl
  obtain ⟨before, before', qs, qs', after, after', hps, hps', hbefore, ⟨hs, hqs⟩, hafter⟩ := hplace
  exact ⟨hs, before, before', qs, qs', after, after', hps, hps', hbefore, hqs, hafter⟩

section Wrapped
variable {s : Stmt} {ps ps' : List Point} {n m : Site}

theorem Point.filterMap_within (ps : List Point) (outer : List Layer) :
    (ps.map (·.within outer)).filterMap Point.site? = ps.filterMap Point.site? := by
  rw [List.filterMap_map]
  exact List.filterMap_congr fun p _ => rfl

theorem WrapsAt.ranged (h : WrapsAt s ps ps') (hps : Ranged n m ps) : Ranged n m ps' := by
  obtain ⟨before, before', qs, qs', after, after', rfl, rfl, hbefore, ⟨outer, rfl, c, rfl⟩, hafter⟩ := h.place
  have hsites : (before' ++ (⟨.stmt (.block [s]), c⟩ :: (s.points .top).map (·.within (Layer.blank :: outer)) ++ after')).filterMap
      Point.site? = (before ++ ((s.points .top).map (·.within outer) ++ after)).filterMap Point.site? := by
    have hblock : Point.site? ⟨.stmt (.block [s]), c⟩ = none := rfl
    rw [List.filterMap_append, List.cons_append, List.filterMap_cons_none hblock, List.filterMap_append,
      Point.filterMap_within, hbefore.sites_eq, hafter.sites_eq, List.filterMap_append, List.filterMap_append,
      Point.filterMap_within]
  refine ⟨hps.le, hsites ▸ hps.nodup, hsites ▸ hps.bounds, ?_⟩
  obtain ⟨hb, hq, ha⟩ := List.forall_mem_append.mp hps.proper |>.imp_right List.forall_mem_append.mp
  have hblock : (Node.stmt (.block [s])).Regular := trivial
  have hinner : ∀ p ∈ (s.points .top).map (·.within (Layer.blank :: outer)), p.node.Regular := by
    simpa [Point.within] using hq
  exact List.forall_mem_append.mpr ⟨hbefore.regular hb, List.forall_mem_append.mpr
    ⟨List.forall_mem_cons.mpr ⟨hblock, hinner⟩, hafter.regular ha⟩⟩

theorem WrapsAt.violations_eq_nil (h : WrapsAt s ps ps') (hps : ∀ p ∈ ps, p.violations = []) :
    ∀ p ∈ ps', p.violations = [] := by
  obtain ⟨before, before', qs, qs', after, after', rfl, rfl, hbefore, ⟨outer, rfl, c, rfl⟩, hafter⟩ := h.place
  obtain ⟨hb, hq, ha⟩ := List.forall_mem_append.mp hps |>.imp_right List.forall_mem_append.mp
  have howned := (s.embeds outer (c := .top) rfl (.inr h.names)).owned
  have hinner : ∀ p ∈ (s.points .top).map (·.within (Layer.blank :: outer)), p.violations = [] := by
    intro p hp
    obtain ⟨q, hq', rfl⟩ := List.mem_map.mp hp
    exact Point.violations_blank (howned q hq') (hq _ (List.mem_map_of_mem hq'))
  exact List.forall_mem_append.mpr ⟨hbefore.violations_eq_nil hb, List.forall_mem_append.mpr
    ⟨List.forall_mem_cons.mpr ⟨rfl, hinner⟩, hafter.violations_eq_nil ha⟩⟩

/-- What the statement notes alone is noted at the same sites. -/
theorem leavesFree_iff (hs : Ranged n m (s.points .top)) {p : Point} (hp : p ∈ s.points .top) {site : Site}
    (hsite : p.site? = some site) : s.LeavesFree site ↔ p.entries = [] := by
  have hpoints : points [s] = s.points .top := List.append_nil _
  have htable : ∀ d, (distanceTable [s]).get? site = some d ↔ (site, d) ∈ p.entries := by
    intro d
    rw [distanceTable_get?_iff_of_nodup (by rw [hpoints]; exact hs.nodup), hpoints]
    constructor
    · rintro ⟨q, hq, hentry⟩
      rwa [hs.eq_of_site hp hq hsite (Point.site?_of_mem_entries hentry)]
    · exact fun hentry => ⟨p, hp, hentry⟩
  constructor
  · rintro ⟨-, hnone⟩
    refine List.eq_nil_iff_forall_not_mem.mpr ?_
    rintro ⟨site', d⟩ hentry
    obtain rfl : site' = site := by
      have hsite' := Point.site?_of_mem_entries hentry
      exact Option.some.inj (hsite'.symm.trans hsite)
    rw [(htable d).mpr hentry] at hnone
    cases hnone
  · intro hempty
    refine ⟨?_, ?_⟩
    · obtain ⟨u, hu, rfl⟩ := Option.map_eq_some_iff.mp hsite
      exact ⟨u, (s.points_uses .top).subset (List.mem_filterMap.mpr ⟨p, hp, hu⟩), rfl⟩
    · cases hget : (distanceTable [s]).get? site with
      | none => rfl
      | some d =>
        have hentry := (htable d).mp hget
        rw [hempty] at hentry
        cases hentry

/-- A site that the statement leaves free is that of one of its points. -/
theorem Stmt.LeavesFree.mem_sites {site : Site} (h : s.LeavesFree site) : site ∈ (s.points .top).filterMap Point.site? := by
  obtain ⟨⟨u, hu, rfl⟩, -⟩ := h
  obtain ⟨p, hp, huse⟩ := List.mem_filterMap.mp ((s.points_uses .top).symm.subset hu)
  exact List.mem_filterMap.mpr ⟨p, hp, by rw [Point.site?, huse]; rfl⟩

/-- The distances of the uses that the statement leaves free grow by one. -/
theorem WrapsAt.entries_eq (h : WrapsAt s ps ps') (hps : Ranged n m ps) (hscoped : ∀ p ∈ s.points .top, p.InThisScoped)
    (hthis : ∀ p ∈ s.points .top, ∀ site keyword, p.node = .expr (.this site keyword) → keyword.lexeme = "this") :
    ps'.flatMap Point.entries =
      (ps.flatMap Point.entries).map fun e => (e.1, if s.LeavesFree e.1 then e.2 + 1 else e.2) := by
  obtain ⟨before, before', qs, qs', after, after', rfl, rfl, hbefore, ⟨outer, rfl, c, rfl⟩, hafter⟩ := h.place
  have halone : Ranged n m (s.points .top) := by
    have hmiddle := hps.sublist ((List.sublist_append_left _ _).trans (List.sublist_append_right _ _))
    refine ⟨hmiddle.le, ?_, ?_, ?_⟩
    · simpa only [Point.filterMap_within] using hmiddle.nodup
    · simpa only [Point.filterMap_within] using hmiddle.bounds
    · simpa [Point.within] using hmiddle.proper
  -- The points around the statement have other sites.
  have haround : ∀ qs : List Point, (∀ site ∈ qs.filterMap Point.site?, site ∉ (s.points .top).filterMap Point.site?) →
      qs.flatMap Point.entries =
        (qs.flatMap Point.entries).map fun e => (e.1, if s.LeavesFree e.1 then e.2 + 1 else e.2) := by
    intro qs hqs
    conv_lhs => rw [← List.map_id (qs.flatMap Point.entries)]
    refine List.map_congr_left fun e he => ?_
    obtain ⟨q, hq, hentry⟩ := List.mem_flatMap.mp he
    have hsite := List.mem_filterMap.mpr ⟨q, hq, Point.site?_of_mem_entries hentry⟩
    rw [if_neg fun hfree => hqs e.1 hsite hfree.mem_sites]
    rfl
  have hmiddle : ((s.points .top).map (·.within (Layer.blank :: outer))).flatMap Point.entries =
      (((s.points .top).map (·.within outer)).flatMap Point.entries).map
        fun e => (e.1, if s.LeavesFree e.1 then e.2 + 1 else e.2) := by
    rw [List.flatMap_map, List.flatMap_map, List.map_flatMap]
    refine List.flatMap_congr fun p hp => ?_
    rw [p.entries_blank outer (hscoped p hp) (hthis p hp)]
    refine List.map_congr_left fun e he => ?_
    have hsite : p.site? = some e.1 := Point.site?_of_mem_entries (p := p.within outer) he
    by_cases hempty : p.entries = []
    · rw [if_pos ((leavesFree_iff halone hp hsite).mpr hempty), hempty]
      rfl
    · rw [if_neg fun hfree => hempty ((leavesFree_iff halone hp hsite).mp hfree), List.isEmpty_eq_false_iff.mpr hempty]
      rfl
  have hnodup := hps.nodup
  simp only [List.filterMap_append, Point.filterMap_within, List.nodup_append', List.disjoint_append_right] at hnodup
  obtain ⟨-, ⟨-, -, hright⟩, hleft, -⟩ := hnodup
  have hblock : Point.entries ⟨.stmt (.block [s]), c⟩ = [] := rfl
  simp only [List.flatMap_append, List.map_append, List.flatMap_cons, hblock, List.nil_append, hmiddle, hbefore.entries_eq,
    hafter.entries_eq]
  rw [← haround before fun site hsite => hleft hsite, ← haround after fun site hsite hmem => hright hmem hsite]

end Wrapped

end LoxLanguage
