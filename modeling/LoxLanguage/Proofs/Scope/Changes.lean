import Mathlib
import LoxLanguage.Proofs.Scope.Nodes

/-! Programs that differ in one place. A statement or a routine somewhere in a program is replaced by another one. At the
points around the place nothing is new: what is noted and reported there, and what the grammar says of the nodes,
stays the same. -/

namespace LoxLanguage

/-! ### Changes -/

section Changed
variable (R : Stmt → Stmt → Prop) (Q : Function → Function → Prop)

mutual

/-- One statement in a statement, or the statement itself, is replaced as `R` says, or one routine as `Q` says. -/
inductive Stmt.Changed : Stmt → Stmt → Prop where
  | here {s s'} (h : R s s') : Stmt.Changed s s'
  | block {body body'} (h : Stmt.ChangedAll body body') : Stmt.Changed (.block body) (.block body')
  | whenTrue {condition s s' whenFalse} (h : Stmt.Changed s s') :
      Stmt.Changed (.branch condition s whenFalse) (.branch condition s' whenFalse)
  | whenFalse {condition whenTrue s s'} (h : Stmt.Changed s s') :
      Stmt.Changed (.branch condition whenTrue (some s)) (.branch condition whenTrue (some s'))
  | loop {condition s s'} (h : Stmt.Changed s s') : Stmt.Changed (.loop condition s) (.loop condition s')
  | function {f f'} (h : Function.Changed f f') : Stmt.Changed (.declareFunction f) (.declareFunction f')
  | method {name before f f' after} (h : Function.Changed f f') :
      Stmt.Changed (.declareClass name (before ++ f :: after)) (.declareClass name (before ++ f' :: after))

/-- One of some statements has a change. -/
inductive Stmt.ChangedAll : List Stmt → List Stmt → Prop where
  | among {before s s' after} (h : Stmt.Changed s s') : Stmt.ChangedAll (before ++ s :: after) (before ++ s' :: after)

/-- A routine is replaced, or a statement in its body is. -/
inductive Function.Changed : Function → Function → Prop where
  | here {f f'} (h : Q f f') : Function.Changed f f'
  | body {name parameters body body'} (h : Stmt.ChangedAll body body') :
      Function.Changed (.mk name parameters body) (.mk name parameters body')

end

/-- What is replaced at good points declares the same as before. -/
structure Replacement (good : Point → Prop) : Prop where
  names : ∀ {s s'} {c : Context}, R s s' → (∀ p ∈ s.points c, good p) → s'.names = s.names
  declared : ∀ {s s'}, R s s' → s'.declared? = s.declared?
  name : ∀ {f f'}, Q f f' → f'.name = f.name

end Changed

section Names
variable {R : Stmt → Stmt → Prop} {Q : Function → Function → Prop} {good : Point → Prop} {s s' : Stmt} {f f' : Function}

theorem Function.Changed.name_eq (hrep : Replacement R Q good) (h : f.Changed R Q f') : f'.name = f.name := by
  cases h with
  | here h => exact hrep.name h
  | body h => rfl

theorem Function.Changed.isInitializer_eq (hrep : Replacement R Q good) (h : f.Changed R Q f') :
    f'.isInitializer = f.isInitializer := by
  rw [Function.isInitializer, Function.isInitializer, h.name_eq hrep]

theorem Stmt.Changed.declared_eq (hrep : Replacement R Q good) (h : s.Changed R Q s') : s'.declared? = s.declared? := by
  cases h with
  | here h => exact hrep.declared h
  | function h =>
    show some _ = some _
    rw [h.name_eq hrep]
  | _ => rfl

theorem Stmt.Changed.names_eq (hrep : Replacement R Q good) {s s' : Stmt} {c : Context} (h : s.Changed R Q s')
    (hall : ∀ p ∈ s.points c, good p) : s'.names = s.names := by
  cases h with
  | here h => exact hrep.names h hall
  | block _ => rfl
  | whenTrue h =>
    simp only [Stmt.points, List.forall_mem_cons, List.forall_mem_append] at hall
    simp only [Stmt.names, names_eq hrep h hall.2.2.1]
  | whenFalse h =>
    simp only [Stmt.points, List.forall_mem_cons, List.forall_mem_append] at hall
    simp only [Stmt.names, Stmt.namesOption, names_eq hrep h hall.2.2.2]
  | loop h =>
    simp only [Stmt.points, List.forall_mem_cons, List.forall_mem_append] at hall
    simp only [Stmt.names, names_eq hrep h hall.2.2]
  | function h => simp only [Stmt.names, h.name_eq hrep]
  | method _ => rfl

end Names

/-! ### Points -/

/-- The same is noted at two points, the second has no problem if the first has none, and the grammar allows the second
    node if it allows the first. -/
structure Point.Alike (p p' : Point) : Prop where
  site : p'.site? = p.site?
  entries : p'.entries = p.entries
  violations : p.violations = [] → p'.violations = []
  regular : p.node.Regular → p'.node.Regular

theorem Point.Alike.refl (p : Point) : p.Alike p :=
  ⟨rfl, rfl, id, id⟩

/-- Points that are alike one by one. -/
abbrev AllAlike : List Point → List Point → Prop :=
  List.Forall₂ Point.Alike

theorem AllAlike.refl (ps : List Point) : AllAlike ps ps :=
  List.forall₂_same.mpr fun p _ => .refl p

namespace AllAlike

variable {ps ps' : List Point}

theorem sites_eq (h : AllAlike ps ps') : ps'.filterMap Point.site? = ps.filterMap Point.site? := by
  induction h with
  | nil => rfl
  | cons hp _ ih => rw [List.filterMap_cons, List.filterMap_cons, hp.site, ih]

theorem entries_eq (h : AllAlike ps ps') : ps'.flatMap Point.entries = ps.flatMap Point.entries := by
  induction h with
  | nil => rfl
  | cons hp _ ih => rw [List.flatMap_cons, List.flatMap_cons, hp.entries, ih]

theorem violations_eq_nil (h : AllAlike ps ps') (hquiet : ∀ p ∈ ps, p.violations = []) : ∀ p ∈ ps', p.violations = [] := by
  induction h with
  | nil => exact hquiet
  | cons hp _ ih =>
    rw [List.forall_mem_cons] at hquiet ⊢
    exact ⟨hp.violations hquiet.1, ih hquiet.2⟩

theorem regular (h : AllAlike ps ps') (hregular : ∀ p ∈ ps, p.node.Regular) : ∀ p ∈ ps', p.node.Regular := by
  induction h with
  | nil => exact hregular
  | cons hp _ ih =>
    rw [List.forall_mem_cons] at hregular ⊢
    exact ⟨hp.regular hregular.1, ih hregular.2⟩

end AllAlike

/-- Points that are alike but for a piece in the middle, which is replaced as `S` says. -/
structure Amid (S : List Point → List Point → Prop) (ps ps' : List Point) : Prop where
  split : ∃ before before' qs qs' after after', ps = before ++ (qs ++ after) ∧ ps' = before' ++ (qs' ++ after') ∧
    AllAlike before before' ∧ S qs qs' ∧ AllAlike after after'

namespace Amid

variable {S : List Point → List Point → Prop} {ps ps' : List Point}

theorem here (h : S ps ps') : Amid S ps ps' :=
  ⟨[], [], ps, ps', [], [], by simp, by simp, .nil, h, .nil⟩

theorem within {before before' after after' : List Point} (hbefore : AllAlike before before') (h : Amid S ps ps')
    (hafter : AllAlike after after') : Amid S (before ++ (ps ++ after)) (before' ++ (ps' ++ after')) := by
  obtain ⟨start, start', qs, qs', rest, rest', rfl, rfl, hstart, hqs, hrest⟩ := h
  refine ⟨before ++ start, before' ++ start', qs, qs', rest ++ after, rest' ++ after', ?_, ?_,
    List.rel_append hbefore hstart, hqs, List.rel_append hrest hafter⟩
  · simp only [List.append_assoc]
  · simp only [List.append_assoc]

theorem behind {before before' : List Point} (hbefore : AllAlike before before') (h : Amid S ps ps') :
    Amid S (before ++ ps) (before' ++ ps') := by
  have hboth := within hbefore h (.nil : AllAlike [] [])
  rwa [List.append_nil, List.append_nil] at hboth

theorem cons {p p' : Point} (hp : p.Alike p') (h : Amid S ps ps') : Amid S (p :: ps) (p' :: ps') :=
  behind (.cons hp .nil : AllAlike [p] [p']) h

/-- Points all of which are alike. -/
theorem allAlike (h : Amid AllAlike ps ps') : AllAlike ps ps' := by
  obtain ⟨before, before', qs, qs', after, after', rfl, rfl, hbefore, hqs, hafter⟩ := h
  exact List.rel_append hbefore (List.rel_append hqs hafter)

end Amid

theorem Stmt.pointsAll_append (before after : List Stmt) (c : Context) : Stmt.pointsAll (before ++ after) c =
    Stmt.pointsAll before c ++ Stmt.pointsAll after (c.declare (Stmt.namesAll before)) := by
  induction before generalizing c with
  | nil => simp [Stmt.namesAll, Stmt.pointsAll, c.declare_nil]
  | cons s rest ih => simp [Stmt.namesAll, Stmt.pointsAll, ih, c.declare_declare]

theorem Function.pointsAll_append (before after : List Function) (c : Context) :
    Function.pointsAll (before ++ after) c = Function.pointsAll before c ++ Function.pointsAll after c := by
  induction before with
  | nil => rfl
  | cons f rest ih => simp [Function.pointsAll, ih]

section Points
variable {R : Stmt → Stmt → Prop} {Q : Function → Function → Prop} {S : List Point → List Point → Prop}
  {good : Point → Prop}

mutual

theorem Stmt.Changed.amid (hrep : Replacement R Q good)
    (hR : ∀ {s s'} {c : Context}, R s s' → c.initializing = none → (∀ p ∈ s.points c, good p) → S (s.points c) (s'.points c))
    (hQ : ∀ {f f'} {enclosing} {c : Context}, Q f f' → c.initializing = none → (∀ p ∈ f.points enclosing c, good p) →
      S (f.points enclosing c) (f'.points enclosing c)) :
    ∀ {s s' : Stmt} {c : Context}, s.Changed R Q s' → c.initializing = none → (∀ p ∈ s.points c, good p) →
      Amid S (s.points c) (s'.points c)
  | _, _, _, .here h, hc, hgood => .here (hR h hc hgood)
  | _, _, c, .block h, hc, hgood =>
    .cons ⟨rfl, rfl, id, id⟩ (Stmt.ChangedAll.amid hrep hR hQ (c := c.enter .block []) h hc (List.forall_mem_cons.mp hgood).2)
  | _, _, c, .whenTrue h, hc, hgood => by
    simp only [Stmt.points, List.forall_mem_cons, List.forall_mem_append] at hgood
    obtain ⟨-, -, htrue, -⟩ := hgood
    have hbranch := Stmt.Changed.amid hrep hR hQ h hc htrue
    simp only [Stmt.points, h.names_eq hrep htrue]
    refine .cons ⟨rfl, rfl, id, fun hregular => ⟨?_, hregular.2⟩⟩ (.within (.refl _) hbranch (.refl _))
    rw [h.declared_eq hrep]
    exact hregular.1
  | _, _, c, @Stmt.Changed.whenFalse _ _ _ whenTrue _ _ h, hc, hgood => by
    simp only [Stmt.points, List.forall_mem_cons, List.forall_mem_append] at hgood
    obtain ⟨-, -, -, hfalse⟩ := hgood
    have hbranch := Stmt.Changed.amid hrep hR hQ (c := c.declare whenTrue.names) h hc hfalse
    refine .cons ⟨rfl, rfl, id, fun hregular => ⟨hregular.1, ?_⟩⟩ (.behind (.refl _) (.behind (.refl _) hbranch))
    rintro _ ⟨⟩
    rw [h.declared_eq hrep]
    exact hregular.2 _ rfl
  | _, _, c, .loop h, hc, hgood => by
    simp only [Stmt.points, List.forall_mem_cons, List.forall_mem_append] at hgood
    obtain ⟨-, -, hbody⟩ := hgood
    refine .cons ⟨rfl, rfl, id, fun hregular => ?_⟩ (.behind (.refl _) (Stmt.Changed.amid hrep hR hQ h hc hbody))
    exact (h.declared_eq hrep).trans hregular
  | _, _, c, @Stmt.Changed.function _ _ f _ h, hc, hgood => by
    have hname := h.name_eq hrep
    have hbody : Amid S (f.points .function (c.declare [f.name.lexeme])) _ :=
      Function.Changed.amid hrep hR hQ h hc (List.forall_mem_cons.mp hgood).2
    simp only [Stmt.points, hname]
    refine .cons ⟨rfl, rfl, fun hquiet => ?_, id⟩ hbody
    simpa only [Point.violations, hname] using hquiet
  | _, _, c, @Stmt.Changed.method _ _ name _ _ _ _ h, hc, hgood => by
    simp only [Stmt.points, Function.pointsAll_append, Function.pointsAll, List.forall_mem_cons, List.forall_mem_append] at hgood
    obtain ⟨-, -, hf, -⟩ := hgood
    have hmethod := Function.Changed.amid hrep hR hQ h (c := (c.declare [name.lexeme]).enter .receiver ["this"]) hc hf
    simp only [Stmt.points, Function.pointsAll_append, Function.pointsAll, h.isInitializer_eq hrep]
    exact .cons ⟨rfl, rfl, id, id⟩ (.within (.refl _) hmethod (.refl _))

/-- The points of statements with a change are alike around the place of the change. -/
theorem Stmt.ChangedAll.amid (hrep : Replacement R Q good)
    (hR : ∀ {s s'} {c : Context}, R s s' → c.initializing = none → (∀ p ∈ s.points c, good p) → S (s.points c) (s'.points c))
    (hQ : ∀ {f f'} {enclosing} {c : Context}, Q f f' → c.initializing = none → (∀ p ∈ f.points enclosing c, good p) →
      S (f.points enclosing c) (f'.points enclosing c)) :
    ∀ {body body' : List Stmt} {c : Context}, Stmt.ChangedAll R Q body body' → c.initializing = none →
      (∀ p ∈ Stmt.pointsAll body c, good p) → Amid S (Stmt.pointsAll body c) (Stmt.pointsAll body' c)
  | _, _, c, @Stmt.ChangedAll.among _ _ before _ _ _ h, hc, hgood => by
    simp only [Stmt.pointsAll_append, Stmt.pointsAll, List.forall_mem_append] at hgood
    obtain ⟨-, hs, -⟩ := hgood
    have hchange := Stmt.Changed.amid hrep hR hQ (c := c.declare (Stmt.namesAll before)) h hc hs
    simp only [Stmt.pointsAll_append, Stmt.pointsAll, h.names_eq hrep hs]
    exact .within (.refl _) hchange (.refl _)

theorem Function.Changed.amid (hrep : Replacement R Q good)
    (hR : ∀ {s s'} {c : Context}, R s s' → c.initializing = none → (∀ p ∈ s.points c, good p) → S (s.points c) (s'.points c))
    (hQ : ∀ {f f'} {enclosing} {c : Context}, Q f f' → c.initializing = none → (∀ p ∈ f.points enclosing c, good p) →
      S (f.points enclosing c) (f'.points enclosing c)) :
    ∀ {f f' : Function} {enclosing : Enclosing} {c : Context}, f.Changed R Q f' → c.initializing = none →
      (∀ p ∈ f.points enclosing c, good p) → Amid S (f.points enclosing c) (f'.points enclosing c)
  | _, _, _, _, .here h, hc, hgood => .here (hQ h hc hgood)
  | _, _, enclosing, c, @Function.Changed.body _ _ _ parameters _ _ h, hc, hgood =>
    .cons ⟨rfl, rfl, id, id⟩ (Stmt.ChangedAll.amid hrep hR hQ
      (c := c.enter (.body enclosing) (parameters.map Token.lexeme)) h hc (List.forall_mem_cons.mp hgood).2)

end

end Points

end LoxLanguage
