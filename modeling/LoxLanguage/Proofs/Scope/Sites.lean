import LoxLanguage.Proofs.Grammar.Basic
import LoxLanguage.Proofs.Scope.Visits

/-! What the grammar says of the walk over a program. The uses that are visited have different sites, between
those at which the derivation begins and ends; operators are those of the operator rules; the body of a loop
and the branches of an `if` declare nothing; and no variable is called `this`. -/

namespace LoxLanguage

open Token (Kind)

/-- The operators between two operands, apart from `and` and `or`. -/
def Operators.isBinary : Kind → Bool
  | .bangEqual | .equalEqual | .greater | .greaterEqual | .less | .lessEqual | .minus | .plus | .slash | .star => true
  | _ => false

/-- The word `this` is kept for its keyword. -/
def Token.Regular (t : Token) : Prop :=
  (t.kind = .thisWord → t.lexeme = "this") ∧ (t.kind = .identifier → t.lexeme ≠ "this")

/-- Things that all are proper ones, those with a site at different sites from `n` on and below `m`. -/
structure Spread {α : Type} (site? : α → Option Site) (Proper : α → Prop) (n m : Site) (vs : List α) : Prop where
  le : n ≤ m
  nodup : (vs.filterMap site?).Nodup
  bounds : ∀ site ∈ vs.filterMap site?, n ≤ site ∧ site < m
  proper : ∀ v ∈ vs, Proper v

namespace Spread

variable {α : Type} {site? : α → Option Site} {Proper : α → Prop} {n k m : Site} {v w : α} {vs ws : List α}

theorem nil : Spread site? Proper n n [] :=
  ⟨Nat.le_refl n, List.nodup_nil, nofun, nofun⟩

theorem append (h : Spread site? Proper n k vs) (h' : Spread site? Proper k m ws) :
    Spread site? Proper n m (vs ++ ws) := by
  obtain ⟨hle, hnodup, hbounds, hproper⟩ := h
  obtain ⟨hle', hnodup', hbounds', hproper'⟩ := h'
  refine ⟨Nat.le_trans hle hle', ?_, ?_, ?_⟩
  · rw [List.filterMap_append, List.nodup_append]
    refine ⟨hnodup, hnodup', fun site hsite other hother heq => ?_⟩
    subst heq
    exact Nat.not_lt_of_le (hbounds' site hother).1 (hbounds site hsite).2
  · intro site hsite
    rw [List.filterMap_append, List.mem_append] at hsite
    rcases hsite with hsite | hsite
    · obtain ⟨hn, hk⟩ := hbounds site hsite
      exact ⟨hn, Nat.lt_of_lt_of_le hk hle'⟩
    · obtain ⟨hk, hm⟩ := hbounds' site hsite
      exact ⟨Nat.le_trans hle hk, hm⟩
  · intro v hv
    rcases List.mem_append.mp hv with hv | hv
    · exact hproper v hv
    · exact hproper' v hv

theorem widen (h : Spread site? Proper n k vs) (hle : k ≤ m) : Spread site? Proper n m vs :=
  ⟨Nat.le_trans h.le hle, h.nodup, fun site hsite => ⟨(h.bounds site hsite).1, Nat.lt_of_lt_of_le (h.bounds site hsite).2 hle⟩,
    h.proper⟩

/-- Some of the things are spread as all of them are. -/
theorem sublist (h : Spread site? Proper n m vs) (hsub : ws.Sublist vs) : Spread site? Proper n m ws :=
  ⟨h.le, (hsub.filterMap site?).nodup h.nodup, fun site hsite => h.bounds site ((hsub.filterMap site?).subset hsite),
    fun v hv => h.proper v (hsub.subset hv)⟩

/-- The order does not matter. -/
theorem perm (h : Spread site? Proper n m vs) (hperm : vs.Perm ws) : Spread site? Proper n m ws := by
  obtain ⟨hle, hnodup, hbounds, hproper⟩ := h
  refine ⟨hle, (hperm.filterMap _).nodup_iff.mp hnodup, fun site hsite => ?_, fun v hv => ?_⟩
  · exact hbounds site ((hperm.filterMap _).mem_iff.mpr hsite)
  · exact hproper v (hperm.mem_iff.mpr hv)

theorem swap (h : Spread site? Proper n m (vs ++ ws)) : Spread site? Proper n m (ws ++ vs) :=
  h.perm List.perm_append_comm

theorem cons (hsite : site? v = none) (hv : Proper v) (h : Spread site? Proper n m vs) :
    Spread site? Proper n m (v :: vs) := by
  obtain ⟨hle, hnodup, hbounds, hproper⟩ := h
  have heq : (v :: vs).filterMap site? = vs.filterMap site? := List.filterMap_cons_none hsite
  refine ⟨hle, heq ▸ hnodup, heq ▸ hbounds, fun w hw => ?_⟩
  rcases List.mem_cons.mp hw with rfl | hw
  · exact hv
  · exact hproper w hw

/-- A thing without a site may be left out. -/
theorem of_cons (h : Spread site? Proper n m (v :: vs)) (hsite : site? v = none) : Spread site? Proper n m vs := by
  obtain ⟨hle, hnodup, hbounds, hproper⟩ := h
  rw [List.filterMap_cons_none hsite] at hnodup hbounds
  exact ⟨hle, hnodup, hbounds, fun w hw => hproper w (List.mem_cons_of_mem v hw)⟩

/-- A thing may be another one at the same site. -/
theorem exchange (h : Spread site? Proper n m [v]) (hsite : site? w = site? v) (hw : Proper w) :
    Spread site? Proper n m [w] := by
  obtain ⟨hle, hnodup, hbounds, -⟩ := h
  have heq : [w].filterMap site? = [v].filterMap site? := by
    cases hv : site? v <;> simp [hsite, hv]
  refine ⟨hle, heq ▸ hnodup, heq ▸ hbounds, fun u hu => ?_⟩
  rw [List.mem_singleton.mp hu]
  exact hw

theorem use (hsite : site? v = some n) (hv : Proper v) : Spread site? Proper n (n + 1) [v] := by
  have heq : [v].filterMap site? = [n] := by
    rw [List.filterMap_cons_some hsite, List.filterMap_nil]
  refine ⟨Nat.le_succ n, by simp [heq], fun site hs => ?_, fun w hw => ?_⟩
  · rw [heq, List.mem_singleton] at hs
    subst hs
    exact ⟨Nat.le_refl site, Nat.lt_succ_self site⟩
  · rw [List.mem_singleton.mp hw]
    exact hv

/-- A site is that of one thing only. -/
theorem eq_of_site {site : Site} (h : Spread site? Proper n m vs) (hv : v ∈ vs) (hw : w ∈ vs)
    (hsite : site? v = some site) (hsite' : site? w = some site) : v = w := by
  have hnodup := h.nodup
  clear h
  induction vs with
  | nil => cases hv
  | cons u rest ih =>
    have hmem : ∀ {x : α}, x ∈ rest → site? x = some site → site ∈ rest.filterMap site? := fun hx hs =>
      List.mem_filterMap.mpr ⟨_, hx, hs⟩
    cases hu : site? u with
    | none =>
      rw [List.filterMap_cons_none hu] at hnodup
      rcases List.mem_cons.mp hv with rfl | hv
      · cases hu.symm.trans hsite
      · rcases List.mem_cons.mp hw with rfl | hw
        · cases hu.symm.trans hsite'
        · exact ih hv hw hnodup
    | some other =>
      rw [List.filterMap_cons_some hu, List.nodup_cons] at hnodup
      rcases List.mem_cons.mp hv with hv' | hv'
      · rcases List.mem_cons.mp hw with hw' | hw'
        · rw [hv', hw']
        · cases (hv' ▸ hu).symm.trans hsite
          exact absurd (hmem hw' hsite') hnodup.1
      · rcases List.mem_cons.mp hw with hw' | hw'
        · cases (hw' ▸ hu).symm.trans hsite'
          exact absurd (hmem hv' hsite) hnodup.1
        · exact ih hv' hw' hnodup.2

end Spread

namespace Visit

/-- What the grammar says of a node. -/
def Proper : Visit → Prop
  | .expr (.unary operator _) _ => operator.kind = .bang ∨ operator.kind = .minus
  | .expr (.binary _ operator _) _ => Operators.isBinary operator.kind = true
  | .expr (.assign _ name _) _ => name.lexeme ≠ "this"
  | .expr (.this _ keyword) _ => keyword.lexeme = "this"
  | .stmt (.declareVariable name _) _ => name.lexeme ≠ "this"
  | .stmt (.branch _ whenTrue whenFalse) _ => whenTrue.declared? = none ∧ ∀ s, whenFalse = some s → s.declared? = none
  | .stmt (.loop _ body) _ => body.declared? = none
  | _ => True

/-- The site of a use. -/
def site? : Visit → Option Site
  | .expr (.use site _) _ => some site
  | .expr (.assign site _ _) _ => some site
  | .expr (.this site _) _ => some site
  | _ => none

/-- Visits of nodes that the grammar allows, with different sites. -/
abbrev Orderly (n m : Site) (vs : List Visit) : Prop :=
  Spread site? Proper n m vs

end Visit

namespace Grammar

open Visit

/-- The node of an operator rule is one that the grammar allows. -/
theorem orderly_node {X : Symbol} {rule : OperatorRule} {n k m : Site} {operator : Token} {left right : Expr} {r : Resolution}
    (hrule : X.rule? = some rule) (hoperator : operator.kind ∈ rule.operators) (hleft : Orderly n k (left.visits r))
    (hright : Orderly k m (right.visits (left.resolve r))) : Orderly n m ((rule.node left operator right).visits r) := by
  cases X <;> cases hrule
  case logicOr | logicAnd => exact .cons rfl trivial (hleft.append hright)
  all_goals
    refine .cons rfl ?_ (hleft.append hright)
    simp only [List.mem_cons, List.not_mem_nil, or_false] at hoperator
    show Operators.isBinary operator.kind = true
  case comparison => rcases hoperator with h | h | h | h <;> rw [h] <;> rfl
  all_goals rcases hoperator with h | h <;> rw [h] <;> rfl

theorem Derives.orderly {X : Symbol} {n m : Site} {ts : List Token} {e : Expr} (h : Derives X n ts e m)
    (hts : ∀ t ∈ ts, t.Regular) (r : Resolution) : Orderly n m (e.visits r) := by
  induction h using @Derives.rec _
    (fun n ts given m _ => (∀ t ∈ ts, t.Regular) → ∀ r, Orderly n m (Expr.visitsAll given r))
    (fun n ts given m _ => (∀ t ∈ ts, t.Regular) → ∀ r, Orderly n m (Expr.visitsAll given r)) generalizing r with
  | @assignVariable n _ name _ _ value hname _ _ ih =>
    have hvalue := ih (fun t ht => hts t (by simp [ht])) r
    have huse : Orderly n (n + 1) [.expr (.assign n name value) (value.resolve r)] :=
      .use rfl ((hts _ (by simp)).2 hname)
    exact (huse.append hvalue).swap
  | assignProperty _ _ _ _ _ ihObject ihValue =>
    have hobject := ihObject (fun t ht => hts t (by simp [ht]))
    have hvalue := ihValue (fun t ht => hts t (by simp [ht])) r
    exact .cons rfl trivial ((hobject _).append hvalue).swap
  | value _ ih => exact ih hts r
  | operand _ _ ih => exact ih hts r
  | operator hrule _ hoperator _ ihLeft ihRight =>
    exact orderly_node hrule hoperator (ihLeft (fun t ht => hts t (by simp [ht])) r)
      (ihRight (fun t ht => hts t (by simp [ht])) _)
  | negation hoperator _ ih => exact .cons rfl hoperator (ih (fun t ht => hts t (by simp [ht])) r)
  | plain _ ih => exact ih hts r
  | atom _ ih => exact ih hts r
  | call _ _ _ _ _ ih ihGiven =>
    exact .cons rfl trivial ((ih (fun t ht => hts t (by simp [ht])) r).append
      (ihGiven (fun t ht => hts t (by simp [ht])) _))
  | property _ _ _ ih => exact .cons rfl trivial (ih (fun t ht => hts t (by simp [ht])) r)
  | trueWord | falseWord | nilWord | constant => exact .cons rfl trivial .nil
  | this h => exact .use rfl ((hts _ (List.mem_singleton_self _)).1 h)
  | name => exact .use rfl trivial
  | grouping _ _ _ ih => exact .cons rfl trivial (ih (fun t ht => hts t (by simp [ht])) r)
  | none => exact .nil
  | some _ ih hts r => exact ih hts r
  | last _ ih hts r => exact (ih hts r).append .nil
  | more _ _ _ ih ihGiven hts r =>
    exact (ih (fun t ht => hts t (by simp [ht])) r).append (ihGiven (fun t ht => hts t (by simp [ht])) _)

theorem OptionalExpression.orderly {n m : Site} {ts : List Token} {e : Option Expr} (h : OptionalExpression n ts e m)
    (hts : ∀ t ∈ ts, t.Regular) (r : Resolution) : Orderly n m (Expr.visitsOption e r) := by
  cases h with
  | none => exact .nil
  | some h => exact h.orderly hts r

theorem Variable.orderly {n m : Site} {ts : List Token} {a : Stmt} (h : Variable n ts a m) (hts : ∀ t ∈ ts, t.Regular)
    (r : Resolution) : Orderly n m (a.visits r) := by
  cases h with
  | plain _ hname _ => exact .cons rfl ((hts _ (by simp)).2 hname) .nil
  | initialized _ hname _ h _ =>
    exact .cons rfl ((hts _ (by simp)).2 hname) (h.orderly (fun t ht => hts t (by simp [ht])) _)

theorem Initializer.orderly {n m : Site} {ts : List Token} {a : Option Stmt} (h : Initializer n ts a m)
    (hts : ∀ t ∈ ts, t.Regular) (r : Resolution) : Orderly n m (Stmt.visitsOption a r) := by
  cases h with
  | none => exact .nil
  | declaration h => exact h.orderly hts r
  | expression h _ => exact .cons rfl trivial (h.orderly (fun t ht => hts t (by simp [ht])) r)

theorem orderly_whileTree {k l j m : Site} {condition increment : Option Expr} {body : Stmt}
    (hcondition : ∀ r, Orderly k l (Expr.visitsOption condition r))
    (hincrement : ∀ r, Orderly l j (Expr.visitsOption increment r)) (hbody : ∀ r, Orderly j m (body.visits r))
    (hdeclared : body.declared? = none) (r : Resolution) : Orderly k m ((whileTree condition increment body).visits r) := by
  cases increment with
  | none =>
    have hrest : ∀ r, Orderly l m (body.visits r) := fun r => (hincrement r).append (hbody r)
    cases condition with
    | none => exact .cons rfl hdeclared (.cons rfl trivial ((hcondition r).append (hrest _)))
    | some e => exact .cons rfl hdeclared ((hcondition r).append (hrest _))
  | some e =>
    -- The increment is written in front of the body and walked behind it.
    have hrest : ∀ r, Orderly l m ((Stmt.block [body, .expression e]).visits r) := fun r => by
      refine .cons rfl trivial ?_
      have hexpression : Orderly l j ((Stmt.expression e).visits (body.resolve (r.enter []))) :=
        .cons rfl trivial (hincrement _)
      have hall := (hexpression.append (hbody (r.enter []))).swap
      rwa [← List.append_nil ((Stmt.expression e).visits _)] at hall
    cases condition with
    | none => exact .cons rfl rfl (.cons rfl trivial ((hcondition r).append (hrest _)))
    | some e => exact .cons rfl rfl ((hcondition r).append (hrest _))

theorem orderly_forTree {n k l j m : Site} {initializer : Option Stmt} {condition increment : Option Expr} {body : Stmt}
    (hinitializer : ∀ r, Orderly n k (Stmt.visitsOption initializer r))
    (hcondition : ∀ r, Orderly k l (Expr.visitsOption condition r))
    (hincrement : ∀ r, Orderly l j (Expr.visitsOption increment r)) (hbody : ∀ r, Orderly j m (body.visits r))
    (hdeclared : body.declared? = none) (r : Resolution) :
    Orderly n m ((forTree initializer condition increment body).visits r) := by
  have hloop := orderly_whileTree hcondition hincrement hbody hdeclared
  cases initializer with
  | none => exact (hinitializer r).append (hloop r)
  | some a => exact .cons rfl trivial ((hinitializer _).append ((hloop _).append .nil))

theorem declared_forTree (initializer : Option Stmt) (condition increment : Option Expr) (body : Stmt) :
    (forTree initializer condition increment body).declared? = none := by
  cases initializer <;> cases condition <;> cases increment <;> rfl

theorem Declaration.orderly {n m : Site} {ts : List Token} {a : Stmt} (h : Declaration n ts a m)
    (hts : ∀ t ∈ ts, t.Regular) (r : Resolution) : Orderly n m (a.visits r) := by
  induction h using @Declaration.rec _
    (fun n ts f m _ => (∀ t ∈ ts, t.Regular) → ∀ enclosing r, Orderly n m (f.visits enclosing r))
    (fun n ts all m _ => (∀ t ∈ ts, t.Regular) → ∀ r, Orderly n m (Function.visitsAll all r))
    (fun n ts body m _ => (∀ t ∈ ts, t.Regular) → ∀ r, Orderly n m (Stmt.visitsAll body r))
    (fun _ n ts a m _ => (∀ t ∈ ts, t.Regular) → a.declared? = none ∧ ∀ r, Orderly n m (a.visits r)) generalizing r with
  | classes _ _ _ _ _ ih => exact .cons rfl trivial (ih (fun t ht => hts t (by simp [ht])) _)
  | function _ _ ih => exact .cons rfl trivial (ih (fun t ht => hts t (by simp [ht])) _ _)
  | binding h => exact h.orderly hts r
  | statement _ ih => exact (ih hts).2 r
  | mk _ _ _ _ _ _ _ _ ih hts enclosing r => exact .cons rfl trivial (ih (fun t ht => hts t (by simp [ht])) _)
  | nil => exact .nil
  | cons _ _ ih ihMethods hts r =>
    exact (ih (fun t ht => hts t (by simp [ht])) _ r).append (ihMethods (fun t ht => hts t (by simp [ht])) _)
  | none => exact .nil
  | more _ _ ih ihBody hts r =>
    exact (ih (fun t ht => hts t (by simp [ht])) r).append (ihBody (fun t ht => hts t (by simp [ht])) _)
  | expression h _ hts =>
    exact ⟨rfl, fun r => .cons rfl trivial (h.orderly (fun t ht => hts t (by simp [ht])) r)⟩
  | print _ h _ hts => exact ⟨rfl, fun r => .cons rfl trivial (h.orderly (fun t ht => hts t (by simp [ht])) r)⟩
  | returns _ h _ hts => exact ⟨rfl, fun r => .cons rfl trivial (h.orderly (fun t ht => hts t (by simp [ht])) _)⟩
  | block _ _ _ ih hts => exact ⟨rfl, fun r => .cons rfl trivial (ih (fun t ht => hts t (by simp [ht])) _)⟩
  | loop _ _ hcondition _ _ ih hts =>
    obtain ⟨hdeclared, hbody⟩ := ih fun t ht => hts t (by simp [ht])
    refine ⟨rfl, fun r => .cons rfl hdeclared ?_⟩
    exact (hcondition.orderly (fun t ht => hts t (by simp [ht])) r).append (hbody _)
  | loopFor _ _ hinitializer hcondition _ hincrement _ _ ih hts =>
    obtain ⟨hdeclared, hbody⟩ := ih fun t ht => hts t (by simp [ht])
    refine ⟨declared_forTree _ _ _ _, fun r => ?_⟩
    exact orderly_forTree (hinitializer.orderly fun t ht => hts t (by simp [ht]))
      (hcondition.orderly fun t ht => hts t (by simp [ht])) (hincrement.orderly fun t ht => hts t (by simp [ht]))
      hbody hdeclared r
  | branch _ _ hcondition _ _ ih hts =>
    obtain ⟨hdeclared, htrue⟩ := ih fun t ht => hts t (by simp [ht])
    refine ⟨rfl, fun r => .cons rfl ⟨hdeclared, nofun⟩ ?_⟩
    exact (hcondition.orderly (fun t ht => hts t (by simp [ht])) r).append ((htrue _).append .nil)
  | branchElse _ _ hcondition _ _ _ _ ihTrue ihFalse hts =>
    obtain ⟨hdeclared, htrue⟩ := ihTrue fun t ht => hts t (by simp [ht])
    obtain ⟨hdeclared', hfalse⟩ := ihFalse fun t ht => hts t (by simp [ht])
    refine ⟨rfl, fun r => .cons rfl ⟨hdeclared, fun s hs => Option.some.inj hs ▸ hdeclared'⟩ ?_⟩
    exact (hcondition.orderly (fun t ht => hts t (by simp [ht])) r).append ((htrue _).append (hfalse _))

/-- The walk over a program visits uses at different sites, from the first site of the program on. -/
theorem Program.orderly {n m : Site} {ts : List Token} {body : List Stmt} (h : Program n ts body m)
    (hts : ∀ t ∈ ts, t.Regular) (r : Resolution) : Orderly n m (Stmt.visitsAll body r) := by
  induction h using @Declarations.rec (fun _ _ _ _ _ => True) (fun _ _ _ _ _ => True) (fun _ _ _ _ _ => True) _
    (fun _ _ _ _ _ _ => True) generalizing r with
  | none => exact .nil
  | more h _ _ ih =>
    exact (h.orderly (fun t ht => hts t (by simp [ht])) r).append (ih (fun t ht => hts t (by simp [ht])) _)
  | _ => trivial

end Grammar

end LoxLanguage
