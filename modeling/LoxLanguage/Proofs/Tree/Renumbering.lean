import Mathlib
import LoxLanguage.Proofs.Tree.Relabel
import LoxLanguage.Tree.Uses

/-! Other labels for the uses of a tree, with the tokens as they are. Labels may be given one after the other or at once,
and only those of the uses in the tree matter (`Stmt.relabel_ofSites`). -/

namespace LoxLanguage

namespace Relabelling

/-- The tokens stay as they are, and the sites get other labels. -/
def ofSites (site : Site → Site) : Relabelling :=
  ⟨Token.line, site⟩

/-- Two rows of sites, the first one from `l` on with `c` sites and the second one behind it with `d` sites, change places. -/
def exchange (l c d : Nat) : Equiv.Perm Site where
  toFun i := if i < l then i else if i < l + c then i + d else if i < l + c + d then i - c else i
  invFun i := if i < l then i else if i < l + d then i + c else if i < l + d + c then i - d else i
  left_inv i := by grind
  right_inv i := by grind

theorem exchange_of_lt {l c d i : Nat} (h : i < l) : exchange l c d i = i :=
  if_pos h

theorem exchange_before {l c d i m n : Nat} (h : i < m) (hle : m + n ≤ l) : exchange l c d (i + n) = i + n :=
  exchange_of_lt (Nat.lt_of_lt_of_le (Nat.add_lt_add_right h n) hle)

theorem exchange_first {l c d i : Nat} (h : i < c) : exchange l c d (i + l) = i + (d + l) := by
  show (if i + l < l then _ else _) = _
  grind

theorem exchange_second {l c d i : Nat} (h : i < d) : exchange l c d (i + (c + l)) = i + l := by
  show (if i + (c + l) < l then _ else _) = _
  grind

/-- What is not in front of a site up to `l` does not get there. -/
theorem exchange_le {l c d n i : Nat} (hn : n ≤ l) (hi : n ≤ i) : n ≤ exchange l c d i := by
  show n ≤ if i < l then _ else _
  grind

end Relabelling

open Relabelling

section Labels
variable {f g k : Site → Site}

mutual

theorem Expr.relabel_ofSites : ∀ (e : Expr), (∀ u ∈ e.uses, g (f u.site) = k u.site) →
    (e.relabel (ofSites f)).relabel (ofSites g) = e.relabel (ofSites k)
  | .literal _, _ => rfl
  | .unary _ operand, h => congrArg (Expr.unary _) (operand.relabel_ofSites h)
  | .binary left _ right, h => by
    obtain ⟨hleft, hright⟩ := List.forall_mem_append.mp h
    exact congrArg₂ (Expr.binary · _ ·) (left.relabel_ofSites hleft) (right.relabel_ofSites hright)
  | .logical left _ right, h => by
    obtain ⟨hleft, hright⟩ := List.forall_mem_append.mp h
    exact congrArg₂ (Expr.logical · _ ·) (left.relabel_ofSites hleft) (right.relabel_ofSites hright)
  | .grouping inner, h => congrArg Expr.grouping (inner.relabel_ofSites h)
  | .use _ _, h => congrArg (Expr.use · _) (h _ (List.mem_singleton_self _))
  | .assign _ _ value, h => by
    obtain ⟨hsite, hvalue⟩ := List.forall_mem_cons.mp h
    exact congrArg₂ (Expr.assign · _ ·) hsite (value.relabel_ofSites hvalue)
  | .call callee _ arguments, h => by
    obtain ⟨hcallee, harguments⟩ := List.forall_mem_append.mp h
    exact congrArg₂ (Expr.call · _ ·) (callee.relabel_ofSites hcallee) (Expr.relabelAll_ofSites arguments harguments)
  | .get object _, h => congrArg (Expr.get · _) (object.relabel_ofSites h)
  | .set object _ value, h => by
    obtain ⟨hobject, hvalue⟩ := List.forall_mem_append.mp h
    exact congrArg₂ (Expr.set · _ ·) (object.relabel_ofSites hobject) (value.relabel_ofSites hvalue)
  | .this _ _, h => congrArg (Expr.this · _) (h _ (List.mem_singleton_self _))

theorem Expr.relabelAll_ofSites : ∀ (es : List Expr), (∀ u ∈ Expr.usesOfAll es, g (f u.site) = k u.site) →
    Expr.relabelAll (ofSites g) (Expr.relabelAll (ofSites f) es) = Expr.relabelAll (ofSites k) es
  | [], _ => rfl
  | e :: rest, h => by
    obtain ⟨he, hrest⟩ := List.forall_mem_append.mp h
    exact congrArg₂ List.cons (e.relabel_ofSites he) (Expr.relabelAll_ofSites rest hrest)

end

theorem Expr.relabelOption_ofSites (e : Option Expr) (h : ∀ u ∈ Expr.usesOfOption e, g (f u.site) = k u.site) :
    (e.map (Expr.relabel (ofSites f))).map (Expr.relabel (ofSites g)) = e.map (Expr.relabel (ofSites k)) := by
  cases e with
  | none => rfl
  | some e => exact congrArg some (e.relabel_ofSites h)

mutual

/-- Labels may be given one after the other or at once. -/
theorem Stmt.relabel_ofSites : ∀ (s : Stmt), (∀ u ∈ s.uses, g (f u.site) = k u.site) →
    (s.relabel (ofSites f)).relabel (ofSites g) = s.relabel (ofSites k)
  | .expression e, h => congrArg Stmt.expression (e.relabel_ofSites h)
  | .print e, h => congrArg Stmt.print (e.relabel_ofSites h)
  | .declareVariable _ initializer, h => congrArg (Stmt.declareVariable _) (Expr.relabelOption_ofSites initializer h)
  | .block body, h => congrArg Stmt.block (Stmt.relabelAll_ofSites body h)
  | .branch condition whenTrue whenFalse, h => by
    obtain ⟨hboth, hfalse⟩ := List.forall_mem_append.mp h
    obtain ⟨hcondition, htrue⟩ := List.forall_mem_append.mp hboth
    simp only [Stmt.relabel]
    rw [condition.relabel_ofSites hcondition, whenTrue.relabel_ofSites htrue, Stmt.relabelOption_ofSites whenFalse hfalse]
  | .loop condition body, h => by
    obtain ⟨hcondition, hbody⟩ := List.forall_mem_append.mp h
    exact congrArg₂ Stmt.loop (condition.relabel_ofSites hcondition) (body.relabel_ofSites hbody)
  | .declareFunction f, h => congrArg Stmt.declareFunction (f.relabel_ofSites h)
  | .returnValue _ value, h => congrArg (Stmt.returnValue _) (Expr.relabelOption_ofSites value h)
  | .declareClass _ methods, h => congrArg (Stmt.declareClass _) (Function.relabelAll_ofSites methods h)

theorem Stmt.relabelAll_ofSites : ∀ (body : List Stmt), (∀ u ∈ Stmt.usesOfAll body, g (f u.site) = k u.site) →
    Stmt.relabelAll (ofSites g) (Stmt.relabelAll (ofSites f) body) = Stmt.relabelAll (ofSites k) body
  | [], _ => rfl
  | s :: rest, h => by
    obtain ⟨hs, hrest⟩ := List.forall_mem_append.mp h
    exact congrArg₂ List.cons (s.relabel_ofSites hs) (Stmt.relabelAll_ofSites rest hrest)

theorem Stmt.relabelOption_ofSites : ∀ (s : Option Stmt), (∀ u ∈ Stmt.usesOfOption s, g (f u.site) = k u.site) →
    Stmt.relabelOption (ofSites g) (Stmt.relabelOption (ofSites f) s) = Stmt.relabelOption (ofSites k) s
  | none, _ => rfl
  | some s, h => congrArg some (s.relabel_ofSites h)

theorem Function.relabel_ofSites : ∀ (r : Function), (∀ u ∈ r.uses, g (f u.site) = k u.site) →
    (r.relabel (ofSites f)).relabel (ofSites g) = r.relabel (ofSites k)
  | .mk _ parameters body, h => by
    have hparameters : ∀ site, parameters.map (ofSites site).token = parameters := fun _ => List.map_id parameters
    simp only [Function.relabel, hparameters]
    exact congrArg (Function.mk _ _) (Stmt.relabelAll_ofSites body h)

theorem Function.relabelAll_ofSites : ∀ (methods : List Function),
    (∀ u ∈ Function.usesOfAll methods, g (f u.site) = k u.site) →
    Function.relabelAll (ofSites g) (Function.relabelAll (ofSites f) methods) = Function.relabelAll (ofSites k) methods
  | [], _ => rfl
  | r :: rest, h => by
    obtain ⟨hr, hrest⟩ := List.forall_mem_append.mp h
    exact congrArg₂ List.cons (r.relabel_ofSites hr) (Function.relabelAll_ofSites rest hrest)

end

end Labels

end LoxLanguage
