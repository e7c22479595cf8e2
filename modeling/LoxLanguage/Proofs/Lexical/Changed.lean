import Mathlib
import LoxLanguage.Proofs.Lexical.Variants
import LoxLanguage.Proofs.Scope.Changes

/-! Every tree that the grammar allows is a variant of itself, and so is every function value and every class of a state.
A program that is replaced by a variant in one place is as a whole replaced by a variant. -/

namespace LoxLanguage

open Lexical (Environment)

theorem Naming.sameToken_refl (t : Token) : Naming.SameToken Eq t t :=
  ⟨rfl, rfl⟩

/-! ### Trees -/

mutual

theorem Expr.variant_refl : ∀ e : Expr, Expr.Variant Eq e e
  | .literal value => .literal value
  | .unary _ operand => .unary operand.variant_refl
  | .binary left _ right => .binary left.variant_refl right.variant_refl
  | .logical left _ right => .logical left.variant_refl right.variant_refl
  | .grouping inner => .grouping inner.variant_refl
  | .use _ name => .use (Naming.sameToken_refl name)
  | .assign _ name value => .assign (Naming.sameToken_refl name) value.variant_refl
  | .call callee _ arguments => .call callee.variant_refl (Expr.variantAll_refl arguments)
  | .get object _ => .get object.variant_refl
  | .set object _ value => .set object.variant_refl value.variant_refl
  | .this _ _ => .this rfl

theorem Expr.variantAll_refl : ∀ es : List Expr, Expr.VariantAll Eq es es
  | [] => .nil
  | e :: rest => .cons e.variant_refl (Expr.variantAll_refl rest)

end

theorem Expr.variantOption_refl (e : Option Expr) : Option.Rel (Expr.Variant Eq) e e := by
  cases e with
  | none => exact .none
  | some e => exact .some e.variant_refl

section Refl
variable {wraps : Prop}

mutual

/-- A statement is a variant of itself. One that declares a name may not stand alone under a branch or a loop. -/
theorem Stmt.variant_refl : ∀ (s : Stmt) {pos : Position} {c : Context}, (∀ p ∈ s.points c, p.node.Regular) →
    (pos = .bare → s.declared? = none) → Stmt.Variant wraps pos Eq s s
  | .expression e, _, _, _, _ => .expression e.variant_refl
  | .print e, _, _, _, _ => .print e.variant_refl
  | .declareVariable name initializer, _, _, _, hpos => by
    refine .declareVariable (fun h => nomatch hpos h) (fun _ => rfl) ?_
    rw [Naming.extend_eq]
    exact Expr.variantOption_refl initializer
  | .block body, _, _, h, _ => .block (Stmt.variantAll_refl body nofun (List.forall_mem_cons.mp h).2)
  | .branch condition whenTrue whenFalse, _, _, h, _ => by
    simp only [Stmt.points, List.forall_mem_cons, List.forall_mem_append] at h
    obtain ⟨hself, -, htrue, hfalse⟩ := h
    exact .branch condition.variant_refl (whenTrue.variant_refl htrue fun _ => hself.1)
      (Stmt.variantOption_refl whenFalse hfalse hself.2)
  | .loop condition body, _, _, h, _ => by
    simp only [Stmt.points, List.forall_mem_cons, List.forall_mem_append] at h
    obtain ⟨hself, -, hbody⟩ := h
    exact .loop condition.variant_refl (body.variant_refl hbody fun _ => hself)
  | .declareFunction (.mk name parameters body), _, _, h, hpos => by
    refine .declareFunction (fun h => nomatch hpos h) ?_
    rw [Naming.extend_eq]
    exact Function.variant_refl (.mk name parameters body) (List.forall_mem_cons.mp h).2
  | .returnValue _ value, _, _, _, _ => .returnValue (Expr.variantOption_refl value)
  | .declareClass name methods, _, _, h, hpos => by
    refine .declareClass (fun h => nomatch hpos h) ?_
    rw [Naming.extend_eq, Naming.extend_eq]
    exact Function.variantAll_refl methods (List.forall_mem_cons.mp h).2

theorem Stmt.variantAll_refl : ∀ (body : List Stmt) {pos : Position} {c : Context}, pos ≠ .bare →
    (∀ p ∈ Stmt.pointsAll body c, p.node.Regular) → Stmt.VariantAll wraps pos Eq body body
  | [], _, _, _, _ => .nil
  | s :: rest, _, _, hpos, h => by
    obtain ⟨hs, hrest⟩ := List.forall_mem_append.mp h
    refine .cons (s.variant_refl hs fun hbare => absurd hbare hpos) ?_
    rw [Naming.after_eq]
    exact Stmt.variantAll_refl rest hpos hrest

theorem Stmt.variantOption_refl : ∀ (s : Option Stmt) {c : Context}, (∀ p ∈ Stmt.pointsOption s c, p.node.Regular) →
    (∀ t, s = some t → t.declared? = none) → Stmt.VariantOption wraps Eq s s
  | none, _, _, _ => .none
  | some s, _, h, hdeclared => .some (s.variant_refl h fun _ => hdeclared s rfl)

theorem Function.variant_refl : ∀ (f : Function) {enclosing : Enclosing} {c : Context},
    (∀ p ∈ f.points enclosing c, p.node.Regular) → Function.Variant wraps Eq f f
  | .mk name parameters body, _, _, h => by
    refine .mk rfl ?_
    rw [Naming.extendAll_eq]
    exact Stmt.variantAll_refl body nofun (List.forall_mem_cons.mp h).2

theorem Function.variantAll_refl : ∀ (methods : List Function) {c : Context},
    (∀ p ∈ Function.pointsAll methods c, p.node.Regular) → Function.VariantAll wraps Eq methods methods
  | [], _, _ => .nil
  | f :: rest, _, h => by
    obtain ⟨hf, hrest⟩ := List.forall_mem_append.mp h
    exact .cons (f.variant_refl hf) (Function.variantAll_refl rest hrest)

end

end Refl

/-! ### Changes -/

section Changes
variable {wraps : Prop} {R : Stmt → Stmt → Prop} {Q : Function → Function → Prop} {good : Point → Prop}

/-- Among statements that are variants of themselves, one is replaced by a variant. -/
theorem Stmt.VariantAll.replace {pos : Position} {before after : List Stmt} {s s' : Stmt} {c : Context} (hpos : pos ≠ .bare)
    (hregular : ∀ p ∈ Stmt.pointsAll (before ++ s :: after) c, p.node.Regular) (h : Stmt.Variant wraps pos Eq s s')
    (hdeclared : s'.declared? = s.declared?) :
    Stmt.VariantAll wraps pos Eq (before ++ s :: after) (before ++ s' :: after) := by
  induction before generalizing c with
  | nil =>
    refine .cons h ?_
    rw [hdeclared, Naming.after_eq]
    exact Stmt.variantAll_refl after hpos (List.forall_mem_append.mp hregular).2
  | cons first rest ih =>
    obtain ⟨hfirst, hrest⟩ := List.forall_mem_append.mp hregular
    refine .cons (first.variant_refl hfirst fun hbare => absurd hbare hpos) ?_
    rw [Naming.after_eq]
    exact ih hrest

theorem Function.VariantAll.replace {before after : List Function} {f f' : Function} {c : Context}
    (hregular : ∀ p ∈ Function.pointsAll (before ++ f :: after) c, p.node.Regular) (h : Function.Variant wraps Eq f f') :
    Function.VariantAll wraps Eq (before ++ f :: after) (before ++ f' :: after) := by
  induction before with
  | nil => exact .cons h (Function.variantAll_refl after (List.forall_mem_append.mp hregular).2)
  | cons first rest ih =>
    obtain ⟨hfirst, hrest⟩ := List.forall_mem_append.mp hregular
    exact .cons (first.variant_refl hfirst) (ih hrest)

mutual

theorem Stmt.Changed.variant (hrep : Replacement R Q good) (hgood : ∀ p, good p → p.node.Regular)
    (hR : ∀ {s s'} {c : Context} (pos), R s s' → c.initializing = none → (∀ p ∈ s.points c, good p) →
      Stmt.Variant wraps pos Eq s s')
    (hQ : ∀ {f f'} {enclosing} {c : Context}, Q f f' → c.initializing = none → (∀ p ∈ f.points enclosing c, good p) →
      Function.Variant wraps Eq f f') :
    ∀ {s s' : Stmt} {pos : Position} {c : Context}, s.Changed R Q s' → c.initializing = none → (∀ p ∈ s.points c, good p) →
      (pos = .bare → s.declared? = none) → Stmt.Variant wraps pos Eq s s'
  | _, _, _, _, .here h, hc, hall, _ => hR _ h hc hall
  | _, _, _, c, .block h, hc, hall, _ =>
    .block (Stmt.ChangedAll.variant hrep hgood hR hQ nofun (c := c.enter .block []) h hc (List.forall_mem_cons.mp hall).2)
  | _, _, _, c, @Stmt.Changed.whenTrue _ _ condition _ _ o h, hc, hall, _ => by
    simp only [Stmt.points, List.forall_mem_cons, List.forall_mem_append] at hall
    obtain ⟨hself, -, htrue, hfalse⟩ := hall
    have hdeclared := hgood _ hself
    exact .branch condition.variant_refl (Stmt.Changed.variant hrep hgood hR hQ h hc htrue fun _ => hdeclared.1)
      (Stmt.variantOption_refl o (fun p hp => hgood p (hfalse p hp)) hdeclared.2)
  | _, _, _, c, @Stmt.Changed.whenFalse _ _ condition whenTrue s s' h, hc, hall, _ => by
    simp only [Stmt.points, List.forall_mem_cons, List.forall_mem_append] at hall
    obtain ⟨hself, -, htrue, hfalse⟩ := hall
    have hdeclared := hgood _ hself
    have hbranch : Stmt.Variant wraps .bare Eq s s' :=
      Stmt.Changed.variant hrep hgood hR hQ (c := c.declare whenTrue.names) h hc hfalse fun _ => hdeclared.2 _ rfl
    exact .branch condition.variant_refl (whenTrue.variant_refl (fun p hp => hgood p (htrue p hp)) fun _ => hdeclared.1)
      (.some hbranch)
  | _, _, _, c, @Stmt.Changed.loop _ _ condition _ _ h, hc, hall, _ => by
    simp only [Stmt.points, List.forall_mem_cons, List.forall_mem_append] at hall
    obtain ⟨hself, -, hbody⟩ := hall
    exact .loop condition.variant_refl (Stmt.Changed.variant hrep hgood hR hQ h hc hbody fun _ => hgood _ hself)
  | _, _, _, c, @Stmt.Changed.function _ _ (.mk name parameters body) f' h, hc, hall, hpos => by
    have hvariant := Function.Changed.variant hrep hgood hR hQ (c := c.declare [name.lexeme]) h hc
      (List.forall_mem_cons.mp hall).2
    cases hvariant with
    | mk hlength hbody =>
      refine .declareFunction (fun h => nomatch hpos h) ?_
      rw [Naming.extend_eq]
      exact .mk hlength hbody
  | _, _, _, c, @Stmt.Changed.method _ _ name before f f' after h, hc, hall, hpos => by
    have hmethods := (List.forall_mem_cons.mp hall).2
    have hf := hmethods
    rw [Function.pointsAll_append, List.forall_mem_append, Function.pointsAll, List.forall_mem_append] at hf
    have hvariant := Function.Changed.variant hrep hgood hR hQ h (c := (c.declare [name.lexeme]).enter .receiver ["this"]) hc
      hf.2.1
    refine .declareClass (fun h => nomatch hpos h) ?_
    rw [Naming.extend_eq, Naming.extend_eq]
    exact .replace (fun p hp => hgood p (hmethods p hp)) hvariant

/-- A program in which one piece is replaced by a variant is replaced by a variant. -/
theorem Stmt.ChangedAll.variant (hrep : Replacement R Q good) (hgood : ∀ p, good p → p.node.Regular)
    (hR : ∀ {s s'} {c : Context} (pos), R s s' → c.initializing = none → (∀ p ∈ s.points c, good p) →
      Stmt.Variant wraps pos Eq s s')
    (hQ : ∀ {f f'} {enclosing} {c : Context}, Q f f' → c.initializing = none → (∀ p ∈ f.points enclosing c, good p) →
      Function.Variant wraps Eq f f') :
    ∀ {body body' : List Stmt} {pos : Position} {c : Context}, pos ≠ .bare → Stmt.ChangedAll R Q body body' →
      c.initializing = none → (∀ p ∈ Stmt.pointsAll body c, good p) → Stmt.VariantAll wraps pos Eq body body'
  | _, _, _, c, hpos, @Stmt.ChangedAll.among _ _ before _ _ _ h, hc, hall => by
    have hs := hall
    rw [Stmt.pointsAll_append, List.forall_mem_append, Stmt.pointsAll, List.forall_mem_append] at hs
    have hvariant := Stmt.Changed.variant hrep hgood hR hQ (c := c.declare (Stmt.namesAll before)) h hc hs.2.1
      fun hbare => absurd hbare hpos
    exact .replace hpos (fun p hp => hgood p (hall p hp)) hvariant (h.declared_eq hrep)

theorem Function.Changed.variant (hrep : Replacement R Q good) (hgood : ∀ p, good p → p.node.Regular)
    (hR : ∀ {s s'} {c : Context} (pos), R s s' → c.initializing = none → (∀ p ∈ s.points c, good p) →
      Stmt.Variant wraps pos Eq s s')
    (hQ : ∀ {f f'} {enclosing} {c : Context}, Q f f' → c.initializing = none → (∀ p ∈ f.points enclosing c, good p) →
      Function.Variant wraps Eq f f') :
    ∀ {f f' : Function} {enclosing : Enclosing} {c : Context}, f.Changed R Q f' → c.initializing = none →
      (∀ p ∈ f.points enclosing c, good p) → Function.Variant wraps Eq f f'
  | _, _, _, _, .here h, hc, hall => hQ h hc hall
  | _, _, enclosing, c, @Function.Changed.body _ _ _ parameters _ _ h, hc, hall => by
    refine .mk rfl ?_
    rw [Naming.extendAll_eq]
    exact Stmt.ChangedAll.variant hrep hgood hR hQ nofun (c := c.enter (.body enclosing) (parameters.map Token.lexeme)) h hc
      (List.forall_mem_cons.mp hall).2

end

end Changes

/-! ### States -/

section States
variable {wraps : Prop} {P : Visit → Prop} {scopes : List Scope}

/-- A routine that the resolver has visited is a variant of itself. -/
theorem Function.Occurs.variant_refl {f : Function} (h : f.Occurs P scopes) (hproper : ∀ v, P v → v.Proper) :
    Function.Variant wraps Eq f f := by
  obtain ⟨enclosing, r, -, hvisits⟩ := h
  suffices hregular : ∀ p ∈ f.points enclosing .top, p.node.Regular from f.variant_refl hregular
  intro p hp
  have hnode : p.node ∈ (f.visits enclosing r).map Visit.node := by
    rw [f.points_nodes enclosing r .top]
    exact List.mem_map_of_mem hp
  obtain ⟨v, hv, hsame⟩ := List.mem_map.mp hnode
  rw [← hsame]
  exact v.proper_iff.mp (hproper v (hvisits v hv))

theorem MethodMatches.variant_refl {store : Store} {homes : Homes} {c : Closure} {c' : Lexical.Closure}
    (h : MethodMatches P store homes c c') (hproper : ∀ v, P v → v.Proper) : MethodVariant wraps c' c' := by
  obtain ⟨outer, hoccurs, -⟩ := h.place
  refine ⟨rfl, Eq, ?_, .refl _⟩
  rw [Naming.extend_eq, h.declaration]
  exact hoccurs.variant_refl hproper

/-- A state that matches one of the machine is like itself. -/
theorem Matches.alike_refl {homes : Homes} {s : State} {t : Lexical.State} (h : Matches P homes s t)
    (hproper : ∀ v, P v → v.Proper) : t.Alike wraps t := by
  refine ⟨rfl, rfl, ⟨rfl, fun i => ?_⟩, ⟨rfl, fun i => ?_⟩, rfl, rfl, rfl, rfl⟩
  · rcases rel_cases (h.closures.get i) with ⟨-, hnone⟩ | ⟨c, c', -, hsome, hclosure⟩
    · rw [hnone]
      exact .none
    · obtain ⟨scopes, hoccurs, -⟩ := hclosure.place
      rw [hsome]
      refine .some ⟨rfl, Eq, ?_, .refl _, fun _ => rfl⟩
      rw [hclosure.declaration]
      exact hoccurs.variant_refl hproper
  · rcases rel_cases (h.classes.get i) with ⟨-, hnone⟩ | ⟨c, c', -, hsome, hclass⟩
    · rw [hnone]
      exact .none
    · rw [hsome]
      refine .some ⟨rfl, fun x => ?_⟩
      rcases rel_cases (hclass.methods x) with ⟨-, hnone⟩ | ⟨m, m', -, hsome, hmethod⟩
      · rw [hnone]
        exact .none
      · rw [hsome]
        exact .some (hmethod.variant_refl hproper)

end States

end LoxLanguage
