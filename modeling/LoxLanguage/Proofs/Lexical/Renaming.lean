import Mathlib
import LoxLanguage.Proofs.Lexical.Changed
import LoxLanguage.Proofs.Scope.Renaming

/-! A program in which a local variable is renamed is a variant of the program. At a point where the old name is bound to the
renamed declaration, old and new name mean the same; every other name but the new one means itself. -/

namespace LoxLanguage

/-! ### Names at a point -/

namespace Context

variable {c : Context} {x z : String}

theorem distance?_declare (hc : c.layers ≠ []) :
    (c.declare [z]).distance? x = if x = z then some 0 else c.distance? x := by
  obtain ⟨layers, initializing⟩ := c
  cases layers with
  | nil => exact absurd rfl hc
  | cons layer outer =>
    simp only [distance?, declare, List.modifyHead_cons, List.findIdx?_cons, Layer.declare, List.mem_append, List.mem_singleton]
    by_cases hx : x = z
    · simp [hx]
    · simp [hx]

theorem distance?_enter (kind : Layer.Kind) (names : List String) :
    (c.enter kind names).distance? x = if x ∈ names then some 0 else (c.distance? x).map (· + 1) := by
  simp only [distance?, enter, List.findIdx?_cons, decide_eq_true_eq]

end Context

/-- Behind the declaration of each parameter as itself. -/
theorem Naming.extendAll_self (ρ : Naming) (names : List Token) (a b : String) :
    ρ.extendAll names names a b ↔ (a = b ∧ a ∈ names.map Token.lexeme) ∨
      (a ∉ names.map Token.lexeme ∧ b ∉ names.map Token.lexeme ∧ ρ a b) := by
  unfold Naming.extendAll
  induction names generalizing ρ with
  | nil => simp
  | cons name rest ih =>
    rw [List.zip_cons_cons, List.foldl_cons, ih]
    simp only [Naming.extend, List.map_cons, List.mem_cons, not_or]
    grind

/-- What names mean at a point, with the variable renamed `j` scopes out. -/
structure Renaming.Suits (r : Renaming) (j : Nat) (c : Context) (ρ : Naming) : Prop where
  bound : c.distance? r.old = some j → ρ r.old r.new
  same : ∀ x, x ≠ r.new → (x = r.old → c.distance? x ≠ some j) → ρ x x

namespace Renaming.Suits

variable {r : Renaming} {j : Nat} {c : Context} {ρ : Naming}

/-- Outside of the scope of the declaration, and in it before the declaration, names mean themselves. -/
theorem eq (r : Renaming) (h : c.distance? r.old ≠ some j) : r.Suits j c Eq :=
  ⟨fun hbound => absurd hbound h, fun _ _ _ => rfl⟩

/-- A use is renamed to a name that means the same. -/
theorem sameToken (h : r.Suits j c ρ) {name : Token} {site : Site} (hnew : name.lexeme ≠ r.new)
    (htabled : r.table.get? site = c.distance? name.lexeme) : ρ.SameToken name (r.use j site name) := by
  unfold Renaming.use
  rw [htabled]
  split
  · rename_i hbound
    obtain ⟨hold, hdistance⟩ := hbound
    rw [hold] at hdistance
    refine ⟨rfl, ?_⟩
    show ρ name.lexeme r.new
    rw [hold]
    exact h.bound hdistance
  · rename_i hbound
    exact ⟨rfl, h.same _ hnew fun hold hdistance => hbound ⟨hold, hdistance⟩⟩

theorem declare (h : r.Suits j c ρ) (hc : c.layers ≠ []) {z : String} (hnew : z ≠ r.new) (hold : j = 0 → z ≠ r.old) :
    r.Suits j (c.declare [z]) (ρ.extend z z) := by
  refine ⟨fun hbound => ?_, fun x hx hbound => ?_⟩
  · rw [Context.distance?_declare hc] at hbound
    split at hbound
    · rename_i heq
      cases hbound
      exact absurd heq.symm (hold rfl)
    · rename_i hne
      exact .inr ⟨hne, hnew.symm, h.bound hbound⟩
  · by_cases hz : x = z
    · exact .inl ⟨hz, hz⟩
    · rw [Context.distance?_declare hc, if_neg hz] at hbound
      exact .inr ⟨hz, hz, h.same x hx hbound⟩

/-- Behind the renamed declaration itself. -/
theorem declareOld (h : r.Suits 0 c ρ) (hc : c.layers ≠ []) : r.Suits 0 (c.declare [r.old]) (ρ.extend r.old r.new) := by
  refine ⟨fun _ => .inl ⟨rfl, rfl⟩, fun x hx hbound => ?_⟩
  rw [Context.distance?_declare hc] at hbound
  have hne : x ≠ r.old := fun heq => hbound heq (if_pos heq)
  exact .inr ⟨hne, hx, h.same x hx fun heq => absurd heq hne⟩

/-- Inside a scope with some names. -/
theorem enter (h : r.Suits j c ρ) (kind : Layer.Kind) {names : List String} (hnew : r.new ∉ names) {ρ' : Naming}
    (hρ : ∀ a b, ρ' a b ↔ (a = b ∧ a ∈ names) ∨ (a ∉ names ∧ b ∉ names ∧ ρ a b)) :
    r.Suits (j + 1) (c.enter kind names) ρ' := by
  refine ⟨fun hbound => ?_, fun x hx hbound => ?_⟩
  · rw [Context.distance?_enter] at hbound
    split at hbound
    · cases hbound
    · rename_i hold
      rw [hρ]
      exact .inr ⟨hold, hnew, h.bound (by simpa using hbound)⟩
  · rw [Context.distance?_enter] at hbound
    rw [hρ]
    by_cases hmem : x ∈ names
    · exact .inl ⟨rfl, hmem⟩
    · rw [if_neg hmem] at hbound
      refine .inr ⟨hmem, hmem, h.same x hx fun hold hdistance => hbound hold ?_⟩
      rw [hdistance]
      rfl

theorem block (h : r.Suits j c ρ) : r.Suits (j + 1) (c.enter .block []) ρ :=
  h.enter .block (by simp) fun a b => by simp

theorem routine (h : r.Suits j c ρ) (enclosing : Enclosing) {parameters : List Token}
    (hnew : r.new ∉ parameters.map Token.lexeme) :
    r.Suits (j + 1) (c.enter (.body enclosing) (parameters.map Token.lexeme)) (ρ.extendAll parameters parameters) :=
  h.enter _ hnew (ρ.extendAll_self parameters)

theorem receiver (h : r.Suits j c ρ) (hnew : r.new ≠ "this") :
    r.Suits (j + 1) (c.enter .receiver ["this"]) (ρ.extend "this" "this") := by
  refine h.enter .receiver (by simpa using hnew) fun a b => ?_
  simp only [Naming.extend, List.mem_singleton]
  grind

/-- Behind a statement. -/
theorem after (h : r.Suits j c ρ) (hc : c.layers ≠ []) (s : Stmt) (hregular : ∀ p ∈ s.points c, p.node.Regular)
    (hnew : r.new ∉ s.names) (hold : j = 0 → r.old ∉ s.names) :
    r.Suits j (c.declare s.names) (ρ.after s.declared? s.declared?) := by
  have hsingle : ∀ name : Token, s.names = [name.lexeme] → r.Suits j (c.declare s.names) (ρ.extend name.lexeme name.lexeme) := by
    intro name hnames
    rw [hnames] at hnew hold ⊢
    exact h.declare hc (List.ne_of_not_mem_cons hnew).symm fun hj => (List.ne_of_not_mem_cons (hold hj)).symm
  cases hdeclared : s.declared? with
  | none =>
    rw [s.names_eq_nil hregular hdeclared, c.declare_nil]
    exact h
  | some name =>
    cases s with
    | declareVariable => exact hsingle name (by cases hdeclared; rfl)
    | declareFunction => exact hsingle name (by cases hdeclared; rfl)
    | declareClass => exact hsingle name (by cases hdeclared; rfl)
    | _ => cases hdeclared

end Renaming.Suits

/-! ### Trees -/

section Trees
variable {r : Renaming} {tokens : List Token}

mutual

theorem Expr.variant_rename (hr : r.Fresh tokens) (hold : r.old ≠ "this") : ∀ (e : Expr) {j : Nat} {c : Context} {ρ : Naming},
    r.Suits j c ρ → (∀ p ∈ e.points c, r.Good tokens p) → Expr.Variant ρ e (e.rename r j)
  | .literal value, _, _, _, _, _ => .literal value
  | .unary _ operand, _, _, _, hsuits, h => .unary (operand.variant_rename hr hold hsuits (List.forall_mem_cons.mp h).2)
  | .binary left operator right, _, c, _, hsuits, h => by
    rw [Expr.points_binary, List.forall_mem_cons, List.forall_mem_append] at h
    exact .binary (left.variant_rename hr hold hsuits h.2.1) (right.variant_rename hr hold hsuits h.2.2)
  | .logical left operator right, _, c, _, hsuits, h => by
    rw [Expr.points_logical, List.forall_mem_cons, List.forall_mem_append] at h
    exact .logical (left.variant_rename hr hold hsuits h.2.1) (right.variant_rename hr hold hsuits h.2.2)
  | .grouping inner, _, _, _, hsuits, h => .grouping (inner.variant_rename hr hold hsuits (List.forall_mem_cons.mp h).2)
  | .use site name, _, c, _, hsuits, h => by
    have hself : r.Good tokens ⟨.expr (.use site name), c⟩ := h _ List.mem_cons_self
    exact .use (hsuits.sameToken (hr.ne_new hself.proper) (hself.tabled _ rfl nofun))
  | .assign site name value, _, c, _, hsuits, h => by
    rw [Expr.points_assign, List.forall_mem_append, List.forall_mem_singleton] at h
    obtain ⟨hvalue, hself⟩ := h
    exact .assign (hsuits.sameToken (hr.ne_new hself.proper) (hself.tabled _ rfl nofun))
      (value.variant_rename hr hold hsuits hvalue)
  | .call callee paren arguments, _, c, _, hsuits, h => by
    rw [Expr.points_call, List.forall_mem_cons, List.forall_mem_append] at h
    exact .call (callee.variant_rename hr hold hsuits h.2.1) (Expr.variantAll_rename hr hold arguments hsuits h.2.2)
  | .get object _, _, _, _, hsuits, h => .get (object.variant_rename hr hold hsuits (List.forall_mem_cons.mp h).2)
  | .set object name value, _, c, _, hsuits, h => by
    rw [Expr.points_set, List.forall_mem_cons, List.forall_mem_append] at h
    exact .set (object.variant_rename hr hold hsuits h.2.2) (value.variant_rename hr hold hsuits h.2.1)
  | .this site keyword, _, c, _, hsuits, h => by
    have hself : r.Good tokens ⟨.expr (.this site keyword), c⟩ := h _ List.mem_cons_self
    have hkeyword : keyword.lexeme = "this" := hself.regular
    refine .this ?_
    rw [hkeyword]
    exact hsuits.same _ hr.ne_this.symm fun heq => absurd heq.symm hold

theorem Expr.variantAll_rename (hr : r.Fresh tokens) (hold : r.old ≠ "this") : ∀ (es : List Expr) {j : Nat} {c : Context}
    {ρ : Naming}, r.Suits j c ρ → (∀ p ∈ Expr.pointsAll es c, r.Good tokens p) → Expr.VariantAll ρ es (Expr.renameAll r j es)
  | [], _, _, _, _, _ => .nil
  | e :: rest, _, c, _, hsuits, h => by
    rw [Expr.pointsAll_cons, List.forall_mem_append] at h
    exact .cons (e.variant_rename hr hold hsuits h.1) (Expr.variantAll_rename hr hold rest hsuits h.2)

end

theorem Expr.variantOption_rename (hr : r.Fresh tokens) (hold : r.old ≠ "this") (e : Option Expr) {j : Nat} {c : Context}
    {ρ : Naming} (hsuits : r.Suits j c ρ) (h : ∀ p ∈ Expr.pointsOption e c, r.Good tokens p) :
    Option.Rel (Expr.Variant ρ) e (e.map (Expr.rename r j)) := by
  cases e with
  | none => exact .none
  | some e => exact .some (e.variant_rename hr hold hsuits h)

variable {wraps : Prop}

/-- A point of the tree inside the scope of the declaration, with what names mean there. -/
structure Renaming.Places (r : Renaming) (j : Nat) (c : Context) (ρ : Naming) : Prop where
  suits : r.Suits j c ρ
  inside : c.layers ≠ []

namespace Renaming.Places

variable {j : Nat} {c : Context} {ρ : Naming}

theorem enter {kind : Layer.Kind} {names : List String} {ρ' : Naming} (h : r.Suits (j + 1) (c.enter kind names) ρ') :
    r.Places (j + 1) (c.enter kind names) ρ' :=
  ⟨h, by simp [Context.enter]⟩

theorem declare (h : r.Places j c ρ) {z : String} (hnew : z ≠ r.new) (hold : j = 0 → z ≠ r.old) :
    r.Places j (c.declare [z]) (ρ.extend z z) :=
  ⟨h.suits.declare h.inside hnew hold, by simpa [Context.declare] using h.inside⟩

theorem after (h : r.Places j c ρ) (s : Stmt) (hgood : ∀ p ∈ s.points c, r.Good tokens p) (hr : r.Fresh tokens)
    (hold : j = 0 → r.old ∉ s.names) : r.Places j (c.declare s.names) (ρ.after s.declared? s.declared?) := by
  have hnew := s.notMem_names (fun t ht => hr.ne_new ht) fun p hp => (hgood p hp).proper
  exact ⟨h.suits.after h.inside s (fun p hp => (hgood p hp).regular) hnew hold,
    by simpa [Context.declare] using h.inside⟩

end Renaming.Places

mutual

/-- The uses in a statement are renamed to names that mean the same. -/
theorem Stmt.variant_rename (hr : r.Fresh tokens) (hold : r.old ≠ "this") : ∀ (s : Stmt) {j : Nat} {c : Context} {ρ : Naming}
    {pos : Position}, r.Places j c ρ → (j = 0 → r.old ∉ s.names) → (pos = .bare → s.declared? = none) →
    (∀ p ∈ s.points c, r.Good tokens p) → Stmt.Variant wraps pos ρ s (s.rename r j)
  | .expression e, _, _, _, _, hplace, _, _, h =>
    .expression (e.variant_rename hr hold hplace.suits (List.forall_mem_cons.mp h).2)
  | .print e, _, _, _, _, hplace, _, _, h => .print (e.variant_rename hr hold hplace.suits (List.forall_mem_cons.mp h).2)
  | .declareVariable name initializer, j, c, _, _, hplace, hnames, hpos, h => by
    obtain ⟨hself, hinside⟩ := List.forall_mem_cons.mp h
    have hbehind := hplace.suits.declare hplace.inside (hr.ne_new hself.proper) fun hj heq => hnames hj (by simp [Stmt.names, heq])
    have hinner : r.Suits j (c.inInitializer name.lexeme) _ := ⟨hbehind.bound, hbehind.same⟩
    exact .declareVariable (fun h => nomatch hpos h) (fun _ => rfl) (Expr.variantOption_rename hr hold initializer hinner hinside)
  | .block body, _, _, _, _, hplace, _, _, h =>
    .block (Stmt.variantAll_rename hr hold body (.enter hplace.suits.block) nofun nofun (List.forall_mem_cons.mp h).2)
  | .branch condition whenTrue whenFalse, j, c, ρ, _, hplace, hnames, _, h => by
    simp only [Stmt.points, List.forall_mem_cons, List.forall_mem_append] at h
    obtain ⟨hself, hcondition, htrue, hfalse⟩ := h
    simp only [Stmt.names, List.mem_append, not_or] at hnames
    have hdeclared := hself.regular
    have hbehind := hplace.after whenTrue htrue hr fun hj => (hnames hj).1
    rw [hdeclared.1] at hbehind
    exact .branch (condition.variant_rename hr hold hplace.suits hcondition)
      (whenTrue.variant_rename hr hold hplace (fun hj => (hnames hj).1) (fun _ => hdeclared.1) htrue)
      (Stmt.variantOption_rename hr hold whenFalse hbehind (fun hj => (hnames hj).2) hdeclared.2 hfalse)
  | .loop condition body, _, _, _, _, hplace, hnames, _, h => by
    simp only [Stmt.points, List.forall_mem_cons, List.forall_mem_append] at h
    obtain ⟨hself, hcondition, hbody⟩ := h
    exact .loop (condition.variant_rename hr hold hplace.suits hcondition)
      (body.variant_rename hr hold hplace hnames (fun _ => hself.regular) hbody)
  | .declareFunction (.mk name parameters body), j, c, _, _, hplace, hnames, hpos, h => by
    obtain ⟨hself, hroutine⟩ := List.forall_mem_cons.mp h
    have hname : name.IsFrom tokens .identifier := (hroutine _ List.mem_cons_self).proper.1
    have hbehind := hplace.declare (hr.ne_new hname) fun hj heq => hnames hj (by simp [Stmt.names, Function.name, heq])
    exact .declareFunction (fun h => nomatch hpos h)
      (Function.variant_rename hr hold (.mk name parameters body) hbehind.suits hroutine)
  | .returnValue _ value, _, _, _, _, hplace, _, _, h =>
    .returnValue (Expr.variantOption_rename hr hold value hplace.suits (List.forall_mem_cons.mp h).2)
  | .declareClass name methods, j, c, _, _, hplace, hnames, hpos, h => by
    obtain ⟨hself, hmethods⟩ := List.forall_mem_cons.mp h
    have hbehind := hplace.declare (hr.ne_new hself.proper) fun hj heq => hnames hj (by simp [Stmt.names, heq])
    exact .declareClass (fun h => nomatch hpos h)
      (Function.variantAll_rename hr hold methods (hbehind.suits.receiver hr.ne_this) hmethods)

theorem Stmt.variantAll_rename (hr : r.Fresh tokens) (hold : r.old ≠ "this") : ∀ (body : List Stmt) {j : Nat} {c : Context}
    {ρ : Naming} {pos : Position}, r.Places j c ρ → (j = 0 → r.old ∉ Stmt.namesAll body) → pos ≠ .bare →
    (∀ p ∈ Stmt.pointsAll body c, r.Good tokens p) → Stmt.VariantAll wraps pos ρ body (Stmt.renameAll r j body)
  | [], _, _, _, _, _, _, _, _ => .nil
  | s :: rest, j, c, _, _, hplace, hnames, hpos, h => by
    obtain ⟨hs, hrest⟩ := List.forall_mem_append.mp h
    simp only [Stmt.namesAll, List.flatMap_cons, List.mem_append, not_or] at hnames
    have hbehind := hplace.after s hs hr fun hj => (hnames hj).1
    refine .cons (s.variant_rename hr hold hplace (fun hj => (hnames hj).1) (fun hbare => absurd hbare hpos) hs) ?_
    rw [s.declared?_rename]
    exact Stmt.variantAll_rename hr hold rest hbehind (fun hj => (hnames hj).2) hpos hrest

theorem Stmt.variantOption_rename (hr : r.Fresh tokens) (hold : r.old ≠ "this") : ∀ (s : Option Stmt) {j : Nat}
    {c : Context} {ρ : Naming}, r.Places j c ρ → (j = 0 → r.old ∉ Stmt.namesOption s) →
    (∀ t, s = some t → t.declared? = none) → (∀ p ∈ Stmt.pointsOption s c, r.Good tokens p) →
    Stmt.VariantOption wraps ρ s (Stmt.renameOption r j s)
  | none, _, _, _, _, _, _, _ => .none
  | some s, _, _, _, hplace, hnames, hdeclared, h =>
    .some (s.variant_rename hr hold hplace hnames (fun _ => hdeclared s rfl) h)

theorem Function.variant_rename (hr : r.Fresh tokens) (hold : r.old ≠ "this") : ∀ (f : Function) {enclosing : Enclosing}
    {j : Nat} {c : Context} {ρ : Naming}, r.Suits j c ρ → (∀ p ∈ f.points enclosing c, r.Good tokens p) →
    Function.Variant wraps ρ f (f.rename r j)
  | .mk name parameters body, enclosing, _, _, _, hsuits, h => by
    obtain ⟨hself, hbody⟩ := List.forall_mem_cons.mp h
    have hparameters := hr.notMem_parameters hself.proper.2
    exact .mk rfl (Stmt.variantAll_rename hr hold body (.enter (hsuits.routine enclosing hparameters)) nofun nofun hbody)

theorem Function.variantAll_rename (hr : r.Fresh tokens) (hold : r.old ≠ "this") : ∀ (methods : List Function) {j : Nat}
    {c : Context} {ρ : Naming}, r.Suits j c ρ → (∀ p ∈ Function.pointsAll methods c, r.Good tokens p) →
    Function.VariantAll wraps ρ methods (Function.renameAll r j methods)
  | [], _, _, _, _, _ => .nil
  | f :: rest, _, _, _, hsuits, h => by
    obtain ⟨hf, hrest⟩ := List.forall_mem_append.mp h
    exact .cons (f.variant_rename hr hold hsuits hf) (Function.variantAll_rename hr hold rest hsuits hrest)

end

/-! ### Declarations -/

section Declarations
variable {c : Context} {body body' : List Stmt}

/-- A scope in which the declaration of a variable is renamed: in front of it names mean what they mean outside. -/
theorem Renaming.variantAll_scope (hr : r.Fresh tokens) (hold : r.old ≠ "this") {name : Token} {initializer : Option Expr}
    {before after : List Stmt} (hname : name.lexeme = r.old) {ρ : Naming} (hplace : r.Places 0 c ρ)
    (hbefore : r.old ∉ Stmt.namesAll before) (hafter : r.old ∉ Stmt.namesAll after)
    (h : ∀ p ∈ Stmt.pointsAll (before ++ .declareVariable name initializer :: after) c, r.Good tokens p) :
    Stmt.VariantAll wraps .inner ρ (before ++ .declareVariable name initializer :: after)
      (Stmt.renameAll r 0 before ++ .declareVariable (name.named r.new) (initializer.map (Expr.rename r 0)) ::
        Stmt.renameAll r 0 after) := by
  induction before generalizing c ρ with
  | nil =>
    obtain ⟨hself, hrest⟩ := List.forall_mem_append.mp h
    obtain ⟨-, hvalue⟩ := List.forall_mem_cons.mp hself
    have hbehind := hplace.suits.declareOld hplace.inside
    have hinner : r.Suits 0 (c.inInitializer r.old) _ := ⟨hbehind.bound, hbehind.same⟩
    simp only [hname, Stmt.names] at hvalue hrest
    refine .cons (.declareVariable nofun nofun ?_) ?_
    · rw [hname]
      exact Expr.variantOption_rename hr hold initializer hinner hvalue
    · show Stmt.VariantAll wraps .inner (ρ.extend name.lexeme r.new) after _
      rw [hname]
      exact Stmt.variantAll_rename hr hold after ⟨hbehind, by simpa [Context.declare] using hplace.inside⟩ (fun _ => hafter)
        nofun hrest
  | cons s rest ih =>
    obtain ⟨hs, hrest⟩ := List.forall_mem_append.mp h
    simp only [Stmt.namesAll, List.flatMap_cons, List.mem_append, not_or] at hbefore
    refine .cons (s.variant_rename hr hold hplace (fun _ => hbefore.1) nofun hs) ?_
    rw [s.declared?_rename]
    exact ih (hplace.after s hs hr fun _ => hbefore.1) hbefore.2 hrest

theorem Renaming.Declared.variantAll (hr : r.Fresh tokens) (h : r.Declared body body') (hinside : c.layers ≠ [])
    (hlacks : c.Lacks r.old) (hnodup : (Stmt.namesAll body).Nodup) (hgood : ∀ p ∈ Stmt.pointsAll body c, r.Good tokens p) :
    Stmt.VariantAll wraps .inner Eq body body' := by
  obtain ⟨hname⟩ := h
  rename_i before name initializer after
  have honce := Renaming.notMem_of_nodup hname hnodup
  have hself : r.Good tokens ⟨.stmt (.declareVariable name initializer), c.declare (Stmt.namesAll before)⟩ := by
    refine hgood _ ?_
    simp [Stmt.pointsAll_append, Stmt.pointsAll, Stmt.points]
  have hthis : r.old ≠ "this" := hname ▸ hself.regular
  have hunbound : c.distance? r.old ≠ some 0 := by
    obtain ⟨layers, initializing⟩ := c
    cases layers with
    | nil => exact absurd rfl hinside
    | cons layer outer => simp [Context.distance?, List.findIdx?_cons, hlacks layer rfl]
  exact Renaming.variantAll_scope hr hthis hname ⟨.eq r hunbound, hinside⟩ honce.1 honce.2 hgood

theorem Renaming.OfBlock.variant (hr : r.Fresh tokens) {s s' : Stmt} (h : r.OfBlock s s') (hc : c.initializing = none)
    (hgood : ∀ p ∈ s.points c, r.Good tokens p) (pos : Position) : Stmt.Variant wraps pos Eq s s' := by
  obtain ⟨hdeclared⟩ := h
  refine .block (hdeclared.variantAll hr (c := c.enter .block []) ?_ ?_ (Stmt.nodup_of_good hc hgood)
    (List.forall_mem_cons.mp hgood).2)
  · simp [Context.enter]
  · simp [Context.Lacks, Context.enter]

/-- Behind the parameters of a routine one of which is renamed. -/
theorem Renaming.places_parameters (hr : r.Fresh tokens) {before after : List Token} {p : Token} (hname : p.lexeme = r.old)
    (hproper : ∀ q ∈ before ++ p :: after, q.IsFrom tokens .identifier) (hnodup : ((before ++ p :: after).map Token.lexeme).Nodup)
    (kind : Layer.Kind) : r.Places 0 (c.enter kind ((before ++ p :: after).map Token.lexeme))
      (Naming.extendAll Eq (before ++ p :: after) (before ++ p.named r.new :: after)) := by
  have hnaming : Naming.extendAll Eq (before ++ p :: after) (before ++ p.named r.new :: after) =
      (Naming.extend Eq r.old r.new).extendAll after after := by
    have hfront := Naming.extendAll_eq before
    unfold Naming.extendAll at hfront ⊢
    rw [List.zip_append rfl, List.foldl_append, hfront, List.zip_cons_cons, List.foldl_cons, hname]
    rfl
  have hafter : r.old ∉ after.map Token.lexeme := by
    simp only [List.map_append, List.map_cons, hname] at hnodup
    exact (List.nodup_cons.mp (List.nodup_append'.mp hnodup).2.1).1
  have hfresh : r.new ∉ after.map Token.lexeme :=
    hr.notMem_parameters fun q hq => hproper q (by simp [hq])
  rw [hnaming]
  refine ⟨⟨fun _ => ?_, fun x hx hbound => ?_⟩, by simp [Context.enter]⟩
  · rw [Naming.extendAll_self]
    exact .inr ⟨hafter, hfresh, .inl ⟨rfl, rfl⟩⟩
  · have hne : x ≠ r.old := by
      intro heq
      refine hbound heq ?_
      rw [Context.distance?_enter, if_pos]
      simp [heq, hname]
    rw [Naming.extendAll_self]
    by_cases hmem : x ∈ after.map Token.lexeme
    · exact .inl ⟨rfl, hmem⟩
    · exact .inr ⟨hmem, hmem, .inr ⟨hne, hx, rfl⟩⟩

theorem Renaming.OfRoutine.variant (hr : r.Fresh tokens) {f f' : Function} (h : r.OfRoutine f f') {enclosing : Enclosing}
    (hc : c.initializing = none) (hgood : ∀ p ∈ f.points enclosing c, r.Good tokens p) : Function.Variant wraps Eq f f' := by
  have hnodup := Function.nodup_of_good hc hgood
  cases h with
  | @ofVariable name parameters body body' hdeclared =>
    obtain ⟨hparameters, hnames, hdisjoint⟩ := List.nodup_append'.mp hnodup
    refine .mk rfl ?_
    rw [Naming.extendAll_eq]
    refine hdeclared.variantAll hr ?_ (hdeclared.lacks hdisjoint) hnames (List.forall_mem_cons.mp hgood).2
    simp [Context.enter]
  | @ofParameter name before p after body hname =>
    obtain ⟨hself, hbody⟩ := List.forall_mem_cons.mp hgood
    obtain ⟨hparameters, -, hdisjoint⟩ := List.nodup_append'.mp hnodup
    have hproper : ∀ q ∈ before ++ p :: after, q.IsFrom tokens .identifier := hself.proper.2
    have hthis : r.old ≠ "this" := by
      rw [← hname]
      exact (hproper p (by simp)).ne_this hr.regular
    have honce : r.old ∉ Stmt.namesAll body := fun hmem => hdisjoint (by simp [Function.parameters, hname]) hmem
    refine .mk (by simp) (Stmt.variantAll_rename hr hthis body ?_ (fun _ => honce) nofun hbody)
    exact Renaming.places_parameters hr hname hproper hparameters _

end Declarations

end Trees

/-- A program in which a variable is renamed is a variant of the program, without blocks of its own. -/
theorem Renames.variantAll {first : Site} {tokens : List Token} {new : String} {n m : Site} {program' : List Stmt}
    (h : Renames new (parse first tokens).statements program') (hts : ∀ t ∈ tokens, t.Regular)
    (hnew : ∀ t ∈ tokens, t.lexeme ≠ new) (hthis : new ≠ "this") (hranged : Ranged n m (points (parse first tokens).statements))
    (hquiet : ∀ p ∈ points (parse first tokens).statements, p.violations = []) :
    Stmt.VariantAll False .top Eq (parse first tokens).statements program' := by
  obtain ⟨old, hchanged⟩ := h
  let r : Renaming := ⟨distanceTable (parse first tokens).statements, old, new⟩
  have hr : r.Fresh tokens := ⟨hts, hnew, hthis⟩
  have hgood := good_of_quiet old new hranged hquiet
  refine hchanged.variant (r.replacement tokens) (fun p hp => hp.regular) ?_ ?_ nofun (c := .top) rfl hgood
  · exact fun pos hblock hc hpoints => hblock.variant hr hc hpoints pos
  · exact fun hroutine hc hpoints => hroutine.variant hr hc hpoints

end LoxLanguage
