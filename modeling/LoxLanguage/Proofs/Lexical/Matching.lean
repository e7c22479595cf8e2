import LoxLanguage.Proofs.Lexical.Scopes

/-! States against states. Function values and classes match when they have the same declarations, made where frame and
environment lie against the scopes that the resolver had there; everything else that a program can change is
the same on both sides. The places to which blocks and calls return are kept in a list (`Saved`), outermost
last; their frames were made in that order, so filling the current frame leaves them alone (`Stacked`). -/

namespace LoxLanguage

open Lexical (Environment Location)

/-! ### Arrays and tables -/

/-- Two arrays of one size whose elements match. -/
structure Alike {α β : Type} (R : α → β → Prop) (xs : Array α) (ys : Array β) : Prop where
  size : xs.size = ys.size
  get : ∀ i : Nat, Option.Rel R xs[i]? ys[i]?

theorem rel_imp {α β : Type} {R Q : α → β → Prop} {a : Option α} {b : Option β} (h : Option.Rel R a b)
    (hrq : ∀ x y, R x y → Q x y) : Option.Rel Q a b := by
  cases h with
  | none => exact .none
  | some hr => exact .some (hrq _ _ hr)

theorem rel_cases {α β : Type} {R : α → β → Prop} {a : Option α} {b : Option β} (h : Option.Rel R a b) :
    (a = none ∧ b = none) ∨ ∃ x y, a = some x ∧ b = some y ∧ R x y := by
  cases h with
  | none => exact .inl ⟨rfl, rfl⟩
  | some hr => exact .inr ⟨_, _, rfl, rfl, hr⟩

namespace Alike

variable {α β : Type} {R Q : α → β → Prop} {xs : Array α} {ys : Array β}

theorem imp (h : Alike R xs ys) (hrq : ∀ x y, R x y → Q x y) : Alike Q xs ys :=
  ⟨h.size, fun i => rel_imp (h.get i) hrq⟩

theorem push {x : α} {y : β} (h : Alike R xs ys) (hxy : R x y) : Alike R (xs.push x) (ys.push y) := by
  refine ⟨by rw [Array.size_push, Array.size_push, h.size], fun i => ?_⟩
  rw [Array.getElem?_push, Array.getElem?_push, h.size]
  by_cases hi : i = ys.size
  · rw [if_pos hi, if_pos hi]
    exact .some hxy
  · rw [if_neg hi, if_neg hi]
    exact h.get i

end Alike

theorem Bindings.rel_put {α β : Type} {R : α → β → Prop} {b : Bindings α} {b' : Bindings β} {a : α} {a' : β}
    (h : ∀ x, Option.Rel R (b.get? x) (b'.get? x)) (ha : R a a') (name : String) :
    ∀ x, Option.Rel R ((b.put name a).get? x) ((b'.put name a').get? x) := by
  intro x
  by_cases hx : x = name
  · rw [hx, Bindings.get?_put_self, Bindings.get?_put_self]
    exact .some ha
  · rw [Bindings.get?_put_of_ne _ _ hx, Bindings.get?_put_of_ne _ _ hx]
    exact h x

/-! ### Nodes at scopes -/

section Occurs
variable (P : Visit → Prop) (scopes : List Scope)

/-- The resolver has visited an expression in these scopes. -/
def Expr.Occurs (e : Expr) : Prop :=
  ∃ r : Resolution, r.scopes = scopes ∧ ∀ v ∈ e.visits r, P v

/-- The resolver has visited expressions one after the other in these scopes. -/
def Expr.AllOccur (es : List Expr) : Prop :=
  ∃ r : Resolution, r.scopes = scopes ∧ ∀ v ∈ Expr.visitsAll es r, P v

/-- The resolver has visited a statement in these scopes. -/
def Stmt.Occurs (s : Stmt) : Prop :=
  ∃ r : Resolution, r.scopes = scopes ∧ ∀ v ∈ s.visits r, P v

/-- The resolver has visited statements one after the other, the first of them in these scopes. -/
def Stmt.AllOccur (body : List Stmt) : Prop :=
  ∃ r : Resolution, r.scopes = scopes ∧ ∀ v ∈ Stmt.visitsAll body r, P v

/-- The resolver has visited a routine in these scopes. -/
def Function.Occurs (f : Function) : Prop :=
  ∃ (enclosing : Enclosing) (r : Resolution), r.scopes = scopes ∧ ∀ v ∈ f.visits enclosing r, P v

end Occurs

/-! ### Function values and classes -/

section Values
variable (P : Visit → Prop) (store : Store) (homes : Homes)

/-- Two function values that do the same. An initializer has the scope of its receiver around it. -/
structure ClosureMatches (c : Closure) (c' : Lexical.Closure) : Prop where
  declaration : c'.declaration = c.declaration
  isInitializer : c'.isInitializer = c.isInitializer
  place : ∃ scopes, c.declaration.Occurs P scopes ∧ Sees store homes scopes c.scope c'.environment ∧
    (c.isInitializer = true → ∃ outer, scopes = [("this", true)] :: outer)

/-- Two methods that do the same once they know their receiver. -/
structure MethodMatches (c : Closure) (c' : Lexical.Closure) : Prop where
  declaration : c'.declaration = c.declaration
  isInitializer : c'.isInitializer = c.isInitializer
  place : ∃ outer, c.declaration.Occurs P ([("this", true)] :: outer) ∧ Sees store homes outer c.scope c'.environment

/-- Two classes with the same methods. -/
structure ClassMatches (c : Class) (c' : Lexical.Class) : Prop where
  name : c'.name = c.name
  methods : ∀ x, Option.Rel (MethodMatches P store homes) (c.methods.get? x) (c'.methods.get? x)

end Values

section Grown
variable {P : Visit → Prop} {store store' : Store} {homes homes' : Homes} {f : FrameId}

theorem ClosureMatches.grows {c : Closure} {c' : Lexical.Closure} (h : ClosureMatches P store homes c c')
    (hg : Grows f store homes store' homes') : ClosureMatches P store' homes' c c' := by
  obtain ⟨hdeclaration, hinitializer, scopes, hoccurs, hsees, hthis⟩ := h
  exact ⟨hdeclaration, hinitializer, scopes, hoccurs, hsees.grows hg, hthis⟩

theorem MethodMatches.grows {c : Closure} {c' : Lexical.Closure} (h : MethodMatches P store homes c c')
    (hg : Grows f store homes store' homes') : MethodMatches P store' homes' c c' := by
  obtain ⟨hdeclaration, hinitializer, outer, hoccurs, hsees⟩ := h
  exact ⟨hdeclaration, hinitializer, outer, hoccurs, hsees.grows hg⟩

theorem ClassMatches.grows {c : Class} {c' : Lexical.Class} (h : ClassMatches P store homes c c')
    (hg : Grows f store homes store' homes') : ClassMatches P store' homes' c c' :=
  ⟨h.name, fun x => rel_imp (h.methods x) fun _ _ hm => hm.grows hg⟩

end Grown

/-! ### States -/

/-- The two states hold the same, apart from where the program is in them. -/
structure Matches (P : Visit → Prop) (homes : Homes) (s : State) (t : Lexical.State) : Prop where
  heap : Heap homes s.store t.cells t.globals
  closures : Alike (ClosureMatches P s.store homes) s.store.closures t.closures
  classes : Alike (ClassMatches P s.store homes) s.store.classes t.classes
  instances : t.instances = s.store.instances
  depth : t.depth = s.depth
  printed : t.printed = s.printed
  ticks : t.ticks = s.ticks

/-- A place to which a block or a call returns. A call of an initializer also knows where its receiver is. -/
structure Saved where
  scopes : List Scope
  frame : FrameId
  environment : Environment
  receiver : Option (FrameId × Environment)

/-- The receiver of a call, where it is known, is in a scope of its own. -/
inductive SeesReceiver (store : Store) (homes : Homes) : Option (FrameId × Environment) → Prop where
  | none : SeesReceiver store homes none
  | some {outer : List Scope} {f : FrameId} {environment : Environment}
      (h : Sees store homes ([("this", true)] :: outer) f environment) : SeesReceiver store homes (some (f, environment))

theorem SeesReceiver.grows {store store' : Store} {homes homes' : Homes} {g : FrameId}
    {receiver : Option (FrameId × Environment)} (h : SeesReceiver store homes receiver)
    (hg : Grows g store homes store' homes') : SeesReceiver store' homes' receiver := by
  cases h with
  | none => exact .none
  | some h => exact .some (h.grows hg)

/-- The places to return to from the frame `f`, the next one first. -/
inductive Stacked (store : Store) (homes : Homes) : FrameId → List Saved → Prop where
  | nil {f : FrameId} : Stacked store homes f []
  | cons {f : FrameId} {p : Saved} {saved : List Saved} (hlt : p.frame < f)
      (hstands : Stands store homes p.scopes p.frame p.environment)
      (hreceiver : SeesReceiver store homes p.receiver) (hbelow : Stacked store homes p.frame saved) : Stacked store homes f (p :: saved)

theorem Stacked.grows {store store' : Store} {homes homes' : Homes} {f g : FrameId} {saved : List Saved}
    (h : Stacked store homes f saved) (hg : Grows g store homes store' homes') (hle : f ≤ g)
    (hroot : Store.globals < store.frames.size) : Stacked store' homes' f saved := by
  induction h with
  | nil => exact .nil
  | @cons f p saved hlt hstands hreceiver _ ih =>
    have hpg : p.frame < g := Nat.lt_of_lt_of_le hlt hle
    exact .cons hlt (hstands.grows hg (Nat.ne_of_lt hpg) hroot) (hreceiver.grows hg) (ih (Nat.le_of_lt hpg))

/-- The two states hold the same at a place with these scopes, from which one returns to the saved places. -/
structure Agrees (P : Visit → Prop) (homes : Homes) (scopes : List Scope) (saved : List Saved) (s : State)
    (t : Lexical.State) : Prop where
  matching : Matches P homes s t
  stands : Stands s.store homes scopes s.current t.environment
  stacked : Stacked s.store homes s.current saved

end LoxLanguage
