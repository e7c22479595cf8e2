import Mathlib
import LoxLanguage.Proofs.Lexical.Simulation
import LoxLanguage.Proofs.Machine.Calls
import LoxLanguage.Proofs.Scope.Receivers

/-! Receivers in the reference machine. Each variable is made for one name and known by that name only, so a variable for
`this` is never written to. Therefore an environment always knows the instance as `this` to which the body belongs
that runs in it (`Lexical.Machine.Attributed.step`). -/

namespace LoxLanguage

open Lexical (Environment Location)

/-! ### Variables and their names -/

/-- The name that each variable was made for. -/
abbrev Labels := Location → String

/-- What happens to the variables: no label changes, and none that is labelled `this` is written to. -/
structure Labels.Retains (labels : Labels) (cells : Array (Option Value)) (labels' : Labels)
    (cells' : Array (Option Value)) : Prop where
  size : cells.size ≤ cells'.size
  label : ∀ l, l < cells.size → labels' l = labels l
  this : ∀ l, l < cells.size → labels l = "this" → cells'[l]? = cells[l]?

/-- The labels with one for the next variable. -/
def Labels.add (labels : Labels) (cells : Array (Option Value)) (x : String) : Labels := fun l =>
  if l = cells.size then x else labels l

namespace Labels.Retains

variable {labels labels₁ labels₂ : Labels} {cells cells₁ cells₂ : Array (Option Value)}

theorem refl (labels : Labels) (cells : Array (Option Value)) : labels.Retains cells labels cells :=
  ⟨Nat.le_refl _, fun _ _ => rfl, fun _ _ _ => rfl⟩

theorem trans (h : labels.Retains cells labels₁ cells₁) (h' : labels₁.Retains cells₁ labels₂ cells₂) :
    labels.Retains cells labels₂ cells₂ := by
  refine ⟨Nat.le_trans h.size h'.size, fun l hl => ?_, fun l hl hthis => ?_⟩
  · rw [h'.label l (Nat.lt_of_lt_of_le hl h.size), h.label l hl]
  · rw [h'.this l (Nat.lt_of_lt_of_le hl h.size) (h.label l hl ▸ hthis), h.this l hl hthis]

theorem push (x : String) (content : Option Value) :
    labels.Retains cells (labels.add cells x) (cells.push content) := by
  refine ⟨by simp, fun l hl => if_neg (Nat.ne_of_lt hl), fun l hl _ => ?_⟩
  rw [Array.getElem?_push, if_neg (Nat.ne_of_lt hl)]

theorem write {l : Location} (h : labels l ≠ "this") (v : Value) :
    labels.Retains cells labels (cells.setIfInBounds l (some v)) := by
  refine ⟨by simp, fun _ _ => rfl, fun l' _ hthis => Array.getElem?_setIfInBounds_ne ?_⟩
  rintro rfl
  exact h hthis

end Labels.Retains

/-! ### Environments -/

namespace Lexical.Environment

/-- The variables that an environment knows were made for the names by which it knows them. -/
def Tagged (labels : Labels) (cells : Array (Option Value)) (e : Environment) : Prop :=
  ∀ x l, e.find? x = some l → l < cells.size ∧ labels l = x

/-- What the environment knows as `this` is the instance, if there is one. -/
structure Attributed (labels : Labels) (cells : Array (Option Value)) (e : Environment) (r : Option InstanceId) : Prop where
  tagged : e.Tagged labels cells
  this : ((e.find? "this").bind fun l => cells[l]?.join) = r.map Value.instanceValue

variable {labels labels' : Labels} {cells cells' : Array (Option Value)} {e : Environment} {r : Option InstanceId}

theorem Tagged.retained (h : e.Tagged labels cells) (hretains : labels.Retains cells labels' cells') :
    e.Tagged labels' cells' := by
  intro x l hl
  obtain ⟨hlt, hlabel⟩ := h x l hl
  exact ⟨Nat.lt_of_lt_of_le hlt hretains.size, (hretains.label l hlt).trans hlabel⟩

theorem Attributed.retained (h : e.Attributed labels cells r) (hretains : labels.Retains cells labels' cells') :
    e.Attributed labels' cells' r := by
  refine ⟨h.tagged.retained hretains, ?_⟩
  rw [← h.this]
  cases hl : e.find? "this" with
  | none => rfl
  | some l =>
    obtain ⟨hlt, hlabel⟩ := h.tagged "this" l hl
    simp only [Option.bind_some, hretains.this l hlt hlabel]

theorem Attributed.top : Attributed labels cells .top none :=
  ⟨nofun, rfl⟩

theorem Attributed.nest (h : e.Attributed labels cells r) : e.nest.Attributed labels cells r := by
  refine ⟨fun x l hl => h.tagged x l (e.find?_nest x ▸ hl), ?_⟩
  rw [find?_nest]
  exact h.this

theorem Tagged.extend (h : e.Tagged labels cells) (x : String) (content : Option Value) :
    (e.extend x cells.size).Tagged (labels.add cells x) (cells.push content) := by
  intro y l hl
  rw [find?_extend_eq] at hl
  split at hl
  · rename_i hy
    cases hl
    exact ⟨by simp, (if_pos rfl).trans hy.symm⟩
  · exact h.retained (.push x content) y l hl

/-- A declaration of another name leaves `this`. -/
theorem Attributed.extend (h : e.Attributed labels cells r) {x : String} (hx : x ≠ "this") (content : Option Value) :
    (e.extend x cells.size).Attributed (labels.add cells x) (cells.push content) r := by
  refine ⟨h.tagged.extend x content, ?_⟩
  rw [find?_extend_eq, if_neg hx.symm]
  exact (h.retained (.push x content)).this

/-- A new variable for `this` hides the others. -/
theorem Tagged.receiver (h : e.Tagged labels cells) (i : InstanceId) :
    (e.extend "this" cells.size).Attributed (labels.add cells "this") (cells.push (some (.instanceValue i))) (some i) := by
  refine ⟨h.extend "this" _, ?_⟩
  rw [find?_extend_eq, if_pos rfl]
  simp

end Lexical.Environment

/-! ### Work that waits -/

section Carries
variable (Q : Environment → Option InstanceId → Prop)

mutual

/-- The environments that the work puts back are those of bodies that belong to the instances given: first to that of the
    body that runs, and behind each call to the next of the callers. What waits for the value of a declaration does not
    declare `this`. -/
def ExprStack.Carries (r : Option InstanceId) (callers : List (Option InstanceId)) : ExprStack Environment → Prop
  | .answer => callers = []
  | .unary _ below | .binaryLeft _ _ below | .binaryRight _ _ below | .logical _ _ below | .assign _ _ below
  | .callee _ _ below | .argument _ _ _ _ below | .get _ below | .setTarget _ _ below | .setValue _ _ below =>
    below.Carries r callers
  | .declare name below => name.lexeme ≠ "this" ∧ below.Carries r callers
  | .discard below | .print below | .branch _ _ below | .test _ _ below | .returnValue below => below.Carries r callers

@[inherit_doc ExprStack.Carries]
def StmtStack.Carries (r : Option InstanceId) (callers : List (Option InstanceId)) : StmtStack Environment → Prop
  | .program _ => callers = []
  | .sequence _ below | .again _ _ below => below.Carries r callers
  | .leave e below => Q e r ∧ below.Carries r callers
  | .finish e _ below => ∃ r' rest, callers = r' :: rest ∧ Q e r' ∧ below.Carries r' rest

end

@[inherit_doc ExprStack.Carries]
def Control.Carries (r : Option InstanceId) (callers : List (Option InstanceId)) : Control Environment → Prop
  | .eval _ below | .give _ below | .failExpr _ below => below.Carries Q r callers
  | .exec _ below | .ended _ below | .failStmt _ below => below.Carries Q r callers

end Carries

section Mono
variable {Q Q' : Environment → Option InstanceId → Prop}

mutual

theorem ExprStack.Carries.mono (hQ : ∀ e r, Q e r → Q' e r) : ∀ (K : ExprStack Environment) {r : Option InstanceId}
    {callers : List (Option InstanceId)}, K.Carries Q r callers → K.Carries Q' r callers
  | .answer, _, _, h => h
  | .unary _ K, _, _, h | .binaryLeft _ _ K, _, _, h | .binaryRight _ _ K, _, _, h | .logical _ _ K, _, _, h
  | .assign _ _ K, _, _, h | .callee _ _ K, _, _, h | .argument _ _ _ _ K, _, _, h | .get _ K, _, _, h
  | .setTarget _ _ K, _, _, h | .setValue _ _ K, _, _, h => ExprStack.Carries.mono hQ K h
  | .declare _ K, _, _, h => ⟨h.1, StmtStack.Carries.mono hQ K h.2⟩
  | .discard K, _, _, h | .print K, _, _, h | .branch _ _ K, _, _, h | .test _ _ K, _, _, h | .returnValue K, _, _, h =>
    StmtStack.Carries.mono hQ K h

theorem StmtStack.Carries.mono (hQ : ∀ e r, Q e r → Q' e r) : ∀ (K : StmtStack Environment) {r : Option InstanceId}
    {callers : List (Option InstanceId)}, K.Carries Q r callers → K.Carries Q' r callers
  | .program _, _, _, h => h
  | .sequence _ K, _, _, h | .again _ _ K, _, _, h => StmtStack.Carries.mono hQ K h
  | .leave _ K, _, _, h => ⟨hQ _ _ h.1, StmtStack.Carries.mono hQ K h.2⟩
  | .finish _ _ K, _, _, ⟨r', rest, hcallers, he, hK⟩ => ⟨r', rest, hcallers, hQ _ _ he, ExprStack.Carries.mono hQ K hK⟩

end

theorem Control.Carries.mono (hQ : ∀ e r, Q e r → Q' e r) (c : Control Environment) {r : Option InstanceId}
    {callers : List (Option InstanceId)} (h : c.Carries Q r callers) : c.Carries Q' r callers := by
  cases c with
  | eval e K | give v K | failExpr fault K => exact ExprStack.Carries.mono hQ K h
  | exec s K | ended completion K | failStmt fault K => exact StmtStack.Carries.mono hQ K h

end Mono

/-! ### States and machines -/

namespace Lexical

/-- How many functions and instances there are, and how many calls are open. -/
def State.tally (t : State) : Tally :=
  ⟨t.closures.size, t.instances.size, t.depth⟩

/-- The function values know their instances as `this`, and the tables of the classes have their methods by name. -/
structure State.Values (labels : Labels) (functions : ClosureId → Option InstanceId) (t : State) : Prop where
  closures : ∀ (f : ClosureId) c, t.closures[f]? = some c → c.environment.Attributed labels t.cells (functions f)
  methods : ∀ (k : ClassId) x c, (t.classAt k).methods.get? x = some c → c.environment.Tagged labels t.cells ∧
    c.declaration.name.lexeme = x ∧ c.isInitializer = c.declaration.isInitializer

/-- The function values and the current environment know their instances as `this`. -/
structure State.Attributed (labels : Labels) (p : Provenance) (t : State) : Prop where
  values : t.Values labels p.functions
  environment : t.environment.Attributed labels t.cells p.current
  depth : p.callers.length = t.depth

@[inherit_doc State.Attributed]
structure Machine.Attributed (labels : Labels) (p : Provenance) (m : Machine) : Prop where
  state : m.state.Attributed labels p
  work : m.control.Carries (Environment.Attributed labels m.state.cells) p.current p.callers

/-- A step from a state has led to a machine, and the attributions with it. -/
def Machine.Continues (control : Control Environment) (t : State) (p : Provenance) (m : Machine) : Prop :=
  ∃ labels, m.Attributed labels (p.step control t.tally m.state.tally)

section Updates
variable {labels labels' : Labels} {p q : Provenance} {t t' : State} {control control' : Control Environment}

theorem Machine.Continues.of_step {m : Machine} (hstep : p.step control t.tally m.state.tally = q)
    (h : m.Attributed labels q) : Machine.Continues control t p m :=
  ⟨labels, hstep ▸ h⟩

theorem State.Values.retained {functions : ClosureId → Option InstanceId} (h : t.Values labels functions)
    (hclosures : t'.closures = t.closures) (hclasses : t'.classes = t.classes)
    (hretains : labels.Retains t.cells labels' t'.cells) : t'.Values labels' functions where
  closures f c hc := (h.closures f c (hclosures ▸ hc)).retained hretains
  methods k x c hc := by
    rw [State.classAt, hclasses] at hc
    obtain ⟨htagged, hname⟩ := h.methods k x c hc
    exact ⟨htagged.retained hretains, hname⟩

/-- A step that makes no function value and neither begins nor ends a call. -/
theorem State.Attributed.continues (h : t.Attributed labels p)
    (hwork : control'.Carries (Environment.Attributed labels t.cells) p.current p.callers)
    (hclosures : t'.closures = t.closures) (hclasses : t'.classes = t.classes) (hdepth : t'.depth = t.depth)
    (hretains : labels.Retains t.cells labels' t'.cells)
    (henvironment : t'.environment.Attributed labels' t'.cells p.current) :
    Machine.Continues control t p ⟨control', t'⟩ := by
  have hvalues := h.values.retained hclosures hclasses hretains
  refine .of_step (Provenance.step_of_eq (congrArg Array.size hclosures) hdepth) ⟨⟨hvalues, henvironment, ?_⟩, ?_⟩
  · exact h.depth.trans hdepth.symm
  · exact hwork.mono fun _ _ he => he.retained hretains

/-- A step that leaves the variables alone. -/
theorem State.Attributed.moves (h : t.Attributed labels p)
    (hwork : control'.Carries (Environment.Attributed labels t.cells) p.current p.callers)
    (hclosures : t'.closures = t.closures) (hclasses : t'.classes = t.classes) (hdepth : t'.depth = t.depth)
    (hcells : t'.cells = t.cells) (henvironment : t'.environment = t.environment) :
    Machine.Continues control t p ⟨control', t'⟩ := by
  have hretains : labels.Retains t.cells labels t'.cells := by
    rw [hcells]
    exact .refl labels _
  refine h.continues hwork hclosures hclasses hdepth hretains ?_
  rw [hcells, henvironment]
  exact h.environment

end Updates

/-! ### Names -/

section Names
variable {labels : Labels} {p : Provenance} {t : State} {x : String} {r : Option InstanceId}

/-- What a declaration or an assignment does to the variables and to the current environment. -/
structure State.Defines (labels : Labels) (r : Option InstanceId) (t t' : State) : Prop where
  closures : t'.closures = t.closures
  classes : t'.classes = t.classes
  depth : t'.depth = t.depth
  cells : ∃ labels', labels.Retains t.cells labels' t'.cells ∧ t'.environment.Attributed labels' t'.cells r

theorem State.defines_allocate (h : t.environment.Attributed labels t.cells r) (hx : x ≠ "this") (content : Option Value) :
    State.Defines labels r t (t.allocate x content) :=
  ⟨rfl, rfl, rfl, _, .push x content, h.extend hx content⟩

theorem State.defines_setGlobal (h : t.environment.Attributed labels t.cells r) (v : Value) :
    State.Defines labels r t (t.setGlobal x v) :=
  ⟨rfl, rfl, rfl, labels, .refl _ _, h⟩

theorem State.defines_write (h : t.environment.Attributed labels t.cells r) (hx : x ≠ "this") {l : Location}
    (hl : t.environment.find? x = some l) (v : Value) : State.Defines labels r t (t.write l v) := by
  have hretains : labels.Retains t.cells labels (t.cells.setIfInBounds l (some v)) :=
    .write ((h.tagged x l hl).2 ▸ hx) v
  exact ⟨rfl, rfl, rfl, labels, hretains, h.retained hretains⟩

theorem State.defines_declare (h : t.environment.Attributed labels t.cells r) (hx : x ≠ "this") (v : Value) :
    State.Defines labels r t (t.declare x v) := by
  unfold State.declare
  split
  · exact State.defines_setGlobal h v
  · exact State.defines_allocate h hx _

theorem State.defines_reserve (h : t.environment.Attributed labels t.cells r) (hx : x ≠ "this") :
    State.Defines labels r t (t.reserve x) := by
  unfold State.reserve
  split
  · exact ⟨rfl, rfl, rfl, labels, .refl _ _, h⟩
  · exact State.defines_allocate h hx none

theorem State.defines_settle (h : t.environment.Attributed labels t.cells r) (hx : x ≠ "this") (v : Value) :
    State.Defines labels r t (t.settle x v) := by
  unfold State.settle
  split
  · rename_i l hl
    exact State.defines_write h hx hl v
  · exact State.defines_setGlobal h v

theorem State.defines_assign (h : t.environment.Attributed labels t.cells r) {name : Token} (hx : name.lexeme ≠ "this")
    {v : Value} {t' : State} (hassign : t.assign name v = .ok t') : State.Defines labels r t t' := by
  unfold State.assign at hassign
  split at hassign
  · rename_i l hl
    cases hassign
    exact State.defines_write h hx hl v
  · split at hassign
    · cases hassign
      exact State.defines_setGlobal h v
    · cases hassign

/-- Parameters are not `this` either. -/
theorem State.defines_allocateAll (given : List (Token × Value)) (hnames : ∀ g ∈ given, g.1.lexeme ≠ "this") {t : State}
    {labels : Labels} (h : t.environment.Attributed labels t.cells r) : State.Defines labels r t (t.allocateAll given) := by
  induction given generalizing t labels with
  | nil => exact ⟨rfl, rfl, rfl, labels, .refl _ _, h⟩
  | cons g rest ih =>
    obtain ⟨hg, hrest⟩ := List.forall_mem_cons.mp hnames
    obtain ⟨-, -, -, labels₁, hretains, hfirst⟩ := State.defines_allocate h hg (some g.2)
    obtain ⟨hclosures, hclasses, hdepth, labels₂, hretains', hlast⟩ := ih hrest hfirst
    exact ⟨hclosures, hclasses, hdepth, labels₂, hretains.trans hretains', hlast⟩

theorem State.Defines.continues {t' : State} {control control' : Control Environment}
    (hnames : State.Defines labels p.current t t') (h : t.Attributed labels p)
    (hwork : control'.Carries (Environment.Attributed labels t.cells) p.current p.callers) :
    Machine.Continues control t p ⟨control', t'⟩ := by
  obtain ⟨hclosures, hclasses, hdepth, labels', hretains, henvironment⟩ := hnames
  exact h.continues hwork hclosures hclasses hdepth hretains henvironment

end Names

/-! ### Calls -/

/-- No parameter is `this`. -/
structure State.Spares (t : State) : Prop where
  closures : ∀ (f : ClosureId) c, t.closures[f]? = some c → ∀ x ∈ c.declaration.parameters, x.lexeme ≠ "this"
  methods : ∀ (k : ClassId) x c, (t.classAt k).methods.get? x = some c →
    ∀ y ∈ c.declaration.parameters, y.lexeme ≠ "this"

section Calls
variable {host : Host} {labels : Labels} {p : Provenance} {t₀ t : State} {control : Control Environment}
  {call : Call Environment} {K : ExprStack Environment}

theorem continues_enterBody {f : Function} {e : Environment} {arguments : List Value} {yield : Yield Environment}
    {paren : Token} (hcall : control.call? = some call) (hclosures : t.closures = t₀.closures) (hdepth : t.depth = t₀.depth)
    (h : t.Attributed labels p) (hK : K.Carries (Environment.Attributed labels t.cells) p.current p.callers)
    (he : e.Attributed labels t.cells (p.ofCallee t₀.instances.size call.callee))
    (hnames : ∀ x ∈ f.parameters, x.lexeme ≠ "this") :
    Machine.Continues control t₀ p (Machine.enterBody host f e arguments yield paren K t) := by
  unfold Machine.enterBody
  split
  · have hgiven : ∀ g ∈ f.parameters.zip arguments, g.1.lexeme ≠ "this" := fun g hg => hnames _ (List.of_mem_zip hg).1
    obtain ⟨hclosures', hclasses', hdepth', labels', hretains, hinside⟩ := State.defines_allocateAll
      (f.parameters.zip arguments) hgiven (t := { t with depth := t.depth + 1, environment := e.nest }) he.nest
    have hvalues := h.values.retained hclosures' hclasses' hretains
    refine .of_step (Provenance.step_of_enter (congrArg Array.size (hclosures'.trans hclosures))
        (hdepth'.trans (congrArg (· + 1) hdepth)) hcall)
      ⟨⟨hvalues, hinside, ?_⟩, p.current, p.callers, rfl, h.environment.retained hretains, ?_⟩
    · rw [hdepth']
      exact congrArg (· + 1) h.depth
    · exact hK.mono fun _ _ he => he.retained hretains
  · exact .of_step (Provenance.step_of_eq (congrArg Array.size hclosures) hdepth) ⟨h, hK⟩

theorem continues_fail {cause : RuntimeError.Cause} {token : Token} (h : t.Attributed labels p)
    (hK : K.Carries (Environment.Attributed labels t.cells) p.current p.callers) :
    Machine.Continues control t p (Machine.fail cause token K t) :=
  h.moves hK rfl rfl rfl rfl rfl

/-- A class hands the instance that it makes to its initializer. -/
theorem continues_callClass {k : ClassId} {arguments : List Value} {paren : Token}
    (hcall : control.call? = some ⟨.classValue k, arguments, K⟩) (hspares : t.Spares) (h : t.Attributed labels p)
    (hK : K.Carries (Environment.Attributed labels t.cells) p.current p.callers) :
    Machine.Continues control t p (Machine.callClass host k arguments paren K t) := by
  unfold Machine.callClass
  split
  · split
    · exact h.moves hK rfl rfl rfl rfl rfl
    · exact continues_fail h hK
  · rename_i initializer hinitializer
    split
    · have hretains : labels.Retains t.cells _ (t.cells.push (some (.instanceValue t.instances.size))) := .push "this" _
      have hmade : State.Attributed _ p ((t.newInstance k).bindReceiver initializer.environment t.instances.size).1 :=
        ⟨h.values.retained rfl rfl hretains, h.environment.retained hretains, h.depth⟩
      have htagged := (h.values.methods k _ initializer hinitializer).1
      exact continues_enterBody hcall rfl rfl hmade (hK.mono fun _ _ he => he.retained hretains) (htagged.receiver _)
        (hspares.methods k _ initializer hinitializer)
    · exact continues_fail h hK

theorem continues_call {callee : Value} {arguments : List Value} {paren : Token}
    (hcall : control.call? = some ⟨callee, arguments, K⟩) (hspares : t.Spares) (h : t.Attributed labels p)
    (hK : K.Carries (Environment.Attributed labels t.cells) p.current p.callers) :
    Machine.Continues control t p (Machine.call host callee arguments paren K t) := by
  cases callee with
  | clock =>
    rw [Machine.call]
    split
    · exact h.moves hK rfl rfl rfl rfl rfl
    · exact continues_fail h hK
  | closure f =>
    rw [Machine.call]
    split
    · rename_i closure hclosure
      unfold Machine.callClosure
      split
      · exact continues_enterBody hcall rfl rfl h hK (h.values.closures f closure hclosure)
          (hspares.closures f closure hclosure)
      · exact continues_fail h hK
    · exact continues_fail h hK
  | classValue k => exact continues_callClass hcall hspares h hK
  | _ => exact continues_fail h hK

end Calls

/-! ### Function values and classes -/

section Values
variable {labels : Labels} {p : Provenance} {t : State} {functions : ClosureId → Option InstanceId}

theorem State.Values.newClosure (h : t.Values labels functions) {c : Closure} {r : Option InstanceId}
    (hc : c.environment.Attributed labels t.cells r) :
    State.Values labels (fun g => if g = t.closures.size then r else functions g)
      { t with closures := t.closures.push c } where
  closures f c' hc' := by
    rw [Array.getElem?_push] at hc'
    split at hc'
    · rename_i hf
      cases hc'
      rw [if_pos hf]
      exact hc
    · rename_i hf
      rw [if_neg hf]
      exact h.closures f c' hc'
  methods := h.methods

/-- The methods in the table of a class are there by name, with the environment of the class. -/
theorem State.eq_of_methodTable {methods : List Function} {e : Environment} {x : String} {c : Closure}
    (h : (State.methodTable methods e).get? x = some c) :
    c.environment = e ∧ c.declaration.name.lexeme = x ∧ c.isInitializer = c.declaration.isInitializer := by
  -- The table is filled from the front, so what is in it at the beginning is kept in the statement.
  suffices hfold : ∀ table : Bindings Closure,
      (∀ x c, table.get? x = some c →
        c.environment = e ∧ c.declaration.name.lexeme = x ∧ c.isInitializer = c.declaration.isInitializer) →
      ∀ x c, (methods.foldl (fun table f => table.put f.name.lexeme ⟨f, e, f.isInitializer⟩) table).get? x = some c →
        c.environment = e ∧ c.declaration.name.lexeme = x ∧ c.isInitializer = c.declaration.isInitializer from
    hfold [] (fun x c hc => by cases hc) x c h
  clear h
  induction methods with
  | nil => exact fun table htable => htable
  | cons f rest ih =>
    intro table htable
    refine ih _ fun x c hc => ?_
    by_cases hx : x = f.name.lexeme
    · rw [hx, Bindings.get?_put_self] at hc
      cases hc
      exact ⟨rfl, hx.symm, rfl⟩
    · rw [Bindings.get?_put_of_ne _ _ hx] at hc
      exact htable x c hc

theorem State.Values.newClass (h : t.Values labels functions) {name : String} {methods : List Function} {e : Environment}
    (he : e.Tagged labels t.cells) :
    State.Values labels functions { t with classes := t.classes.push ⟨name, State.methodTable methods e⟩ } where
  closures := h.closures
  methods k x c hc := by
    rw [State.classAt, Array.getD_eq_getD_getElem?, Array.getElem?_push] at hc
    split at hc
    · obtain ⟨henvironment, hname⟩ := State.eq_of_methodTable hc
      exact ⟨henvironment ▸ he, hname⟩
    · rw [← Array.getD_eq_getD_getElem?] at hc
      exact h.methods k x c hc

/-- A method that is fetched belongs to the instance of which it is fetched. -/
theorem continues_property {i : InstanceId} {name : Token} {K : ExprStack Environment} (h : t.Attributed labels p)
    (hK : K.Carries (Environment.Attributed labels t.cells) p.current p.callers) :
    Machine.Continues (.give (.instanceValue i) (.get name K)) t p (Machine.property i name K t) := by
  unfold Machine.property
  split
  · exact h.moves hK rfl rfl rfl rfl rfl
  · split
    · rename_i method hmethod
      have hretains : labels.Retains t.cells _ (t.cells.push (some (.instanceValue i))) := .push "this" _
      have htagged := (h.values.methods _ _ method hmethod).1
      have hbound : State.Values _ p.functions (t.bindReceiver method.environment i).1 :=
        h.values.retained rfl rfl hretains
      have hvalues := hbound.newClosure (c := { method with environment := _ }) (htagged.receiver i)
      exact .of_step (Provenance.step_of_make (Array.size_push _) rfl)
        ⟨⟨hvalues, h.environment.retained hretains, h.depth⟩, hK.mono fun _ _ he => he.retained hretains⟩
    · exact continues_fail h hK

/-- A function that is declared belongs to what the body belongs to that declares it. -/
theorem continues_declareFunction {f : Function} {K : StmtStack Environment} (hname : f.name.lexeme ≠ "this")
    (h : t.Attributed labels p) (hK : K.Carries (Environment.Attributed labels t.cells) p.current p.callers) :
    Machine.Continues (.exec (.declareFunction f) K) t p ⟨.ended .normal K, t.declareFunction f⟩ := by
  obtain ⟨hclosures, hclasses, hdepth, labels', hretains, henvironment⟩ :=
    State.defines_declare h.environment hname (.closure t.closures.size)
  have hsize := congrArg Array.size hclosures
  have hvalues := (h.values.retained hclosures hclasses hretains).newClosure (c := ⟨f, _, false⟩) henvironment
  rw [hsize] at hvalues
  exact .of_step (Provenance.step_of_make ((Array.size_push _).trans (congrArg (· + 1) hsize)) hdepth)
    ⟨⟨hvalues, henvironment, h.depth.trans hdepth.symm⟩, hK.mono fun _ _ he => he.retained hretains⟩

theorem continues_declareClass {name : Token} {methods : List Function} {K : StmtStack Environment}
    (hname : name.lexeme ≠ "this") (h : t.Attributed labels p)
    (hK : K.Carries (Environment.Attributed labels t.cells) p.current p.callers) :
    Machine.Continues (.exec (.declareClass name methods) K) t p ⟨.ended .normal K, t.declareClass name methods⟩ := by
  obtain ⟨hclosures, hclasses, hdepth, labels', hretains, henvironment⟩ :=
    State.defines_declare h.environment hname (.classValue t.classes.size)
  have hvalues : State.Values labels' p.functions (t.declareClass name methods) :=
    (h.values.retained hclosures hclasses hretains).newClass henvironment.tagged
  exact .of_step (Provenance.step_of_eq (congrArg Array.size hclosures) hdepth)
    ⟨⟨hvalues, henvironment, h.depth.trans hdepth.symm⟩, hK.mono fun _ _ he => he.retained hretains⟩

end Values

/-! ### Steps -/

section Steps
variable {host : Host} {labels : Labels} {p : Provenance} {t : State}

theorem continues_giveResult {control : Control Environment} {result : Except Fault Value} {K : ExprStack Environment}
    (h : t.Attributed labels p) (hK : K.Carries (Environment.Attributed labels t.cells) p.current p.callers) :
    Machine.Continues control t p (Machine.giveResult result K t) := by
  cases result <;> exact h.moves hK rfl rfl rfl rfl rfl

theorem continues_eval {K : ExprStack Environment} (h : t.Attributed labels p)
    (hK : K.Carries (Environment.Attributed labels t.cells) p.current p.callers) (e : Expr) :
    Machine.Continues (.eval e K) t p (Machine.eval K t e) := by
  cases e with
  | use site name => exact continues_giveResult h hK
  | this site keyword => exact continues_giveResult h hK
  | _ => exact h.moves hK rfl rfl rfl rfl rfl

theorem continues_give (hspares : t.Spares) (h : t.Attributed labels p) (v : Value) {K : ExprStack Environment}
    (hK : K.Carries (Environment.Attributed labels t.cells) p.current p.callers)
    (hassign : ∀ site name below, K = .assign site name below → name.lexeme ≠ "this") :
    Machine.Continues (.give v K) t p (Machine.give host v t K) := by
  cases K with
  | unary operator K => exact continues_giveResult h hK
  | binaryRight left operator K => exact continues_giveResult h hK
  | logical operator right K =>
    rw [Machine.give]
    split <;> exact h.moves hK rfl rfl rfl rfl rfl
  | assign site name K =>
    rw [Machine.give]
    split
    · rename_i t' ht'
      exact (State.defines_assign h.environment (hassign site name K rfl) ht').continues h hK
    · exact h.moves hK rfl rfl rfl rfl rfl
  | callee paren arguments K =>
    cases arguments with
    | nil => exact continues_call rfl hspares h hK
    | cons e rest => exact h.moves hK rfl rfl rfl rfl rfl
  | argument callee given paren rest K =>
    cases rest with
    | nil => exact continues_call rfl hspares h hK
    | cons e rest => exact h.moves hK rfl rfl rfl rfl rfl
  | get name K =>
    cases v with
    | instanceValue i => exact continues_property h hK
    | _ => exact continues_fail h hK
  | setTarget name value K =>
    cases v with
    | instanceValue i => exact h.moves hK rfl rfl rfl rfl rfl
    | _ => exact continues_fail h hK
  | declare name K => exact (State.defines_settle h.environment hK.1 v).continues h hK.2
  | branch whenTrue whenFalse K =>
    cases whenFalse <;>
    · rw [Machine.give]
      split <;> exact h.moves hK rfl rfl rfl rfl rfl
  | test condition body K =>
    rw [Machine.give]
    split <;> exact h.moves hK rfl rfl rfl rfl rfl
  | _ => exact h.moves hK rfl rfl rfl rfl rfl

theorem continues_exec (h : t.Attributed labels p) {statement : Stmt}
    (hdeclared : ∀ name, statement.declared? = some name → name.lexeme ≠ "this") {K : StmtStack Environment}
    (hK : K.Carries (Environment.Attributed labels t.cells) p.current p.callers) :
    Machine.Continues (.exec statement K) t p (Machine.exec K t statement) := by
  cases statement with
  | declareVariable name initializer =>
    have hname := hdeclared name rfl
    cases initializer with
    | none => exact (State.defines_declare h.environment hname .nil).continues h hK
    | some e => exact (State.defines_reserve h.environment hname).continues h ⟨hname, hK⟩
  | block body =>
    exact h.continues ⟨h.environment, hK⟩ rfl rfl rfl (.refl labels _) h.environment.nest
  | declareFunction f => exact continues_declareFunction (hdeclared f.name rfl) h hK
  | returnValue keyword value => cases value <;> exact h.moves hK rfl rfl rfl rfl rfl
  | declareClass name methods => exact continues_declareClass (hdeclared name rfl) h hK
  | _ => exact h.moves hK rfl rfl rfl rfl rfl

/-- The end of a call goes back to the body of the caller. -/
theorem continues_finish {control control' : Control Environment} {e : Environment} {yield : Yield Environment}
    {K : ExprStack Environment} (h : t.Attributed labels p)
    (hK : (StmtStack.finish e yield K).Carries (Environment.Attributed labels t.cells) p.current p.callers)
    (hwork : ∀ r callers, K.Carries (Environment.Attributed labels t.cells) r callers →
      control'.Carries (Environment.Attributed labels t.cells) r callers) :
    Machine.Continues control t p ⟨control', { t with environment := e, depth := t.depth - 1 }⟩ := by
  obtain ⟨r, rest, hcallers, he, hK⟩ := hK
  have hdepth : t.depth = rest.length + 1 := by rw [← h.depth, hcallers, List.length_cons]
  have hlast : t.depth - 1 < t.depth := by omega
  have hleave : p.leave = { p with current := r, callers := rest } := by rw [Provenance.leave, hcallers]
  have hlength : rest.length = t.depth - 1 := by omega
  have hattributed : Machine.Attributed labels p.leave ⟨control', { t with environment := e, depth := t.depth - 1 }⟩ := by
    rw [hleave]
    exact ⟨⟨h.values.retained rfl rfl (.refl labels _), he, hlength⟩, hwork r rest hK⟩
  exact .of_step (Provenance.step_of_leave rfl hlast) hattributed

theorem continues_ended (h : t.Attributed labels p) (completion : Completion) {K : StmtStack Environment}
    (hK : K.Carries (Environment.Attributed labels t.cells) p.current p.callers) :
    Machine.Continues (.ended completion K) t p (Machine.ended completion t K) := by
  cases K with
  | program rest => cases rest <;> exact h.moves hK rfl rfl rfl rfl rfl
  | sequence rest K => cases rest <;> cases completion <;> exact h.moves hK rfl rfl rfl rfl rfl
  | again condition body K => cases completion <;> exact h.moves hK rfl rfl rfl rfl rfl
  | leave e K => exact h.continues hK.2 rfl rfl rfl (.refl labels _) hK.1
  | finish e yield K => exact continues_finish h hK fun _ _ => id

theorem continues_failExpr (h : t.Attributed labels p) (fault : Fault) {K : ExprStack Environment}
    (hK : K.Carries (Environment.Attributed labels t.cells) p.current p.callers) :
    Machine.Continues (.failExpr fault K) t p (Machine.failExpr fault t K) := by
  cases K with
  | declare name K => exact h.moves hK.2 rfl rfl rfl rfl rfl
  | _ => exact h.moves hK rfl rfl rfl rfl rfl

theorem continues_failStmt (h : t.Attributed labels p) (fault : Fault) {K : StmtStack Environment}
    (hK : K.Carries (Environment.Attributed labels t.cells) p.current p.callers) :
    Machine.Continues (.failStmt fault K) t p (Machine.failStmt fault t K) := by
  cases K with
  | leave e K => exact h.continues hK.2 rfl rfl rfl (.refl labels _) hK.1
  | finish e yield K => exact continues_finish h hK fun _ _ => id
  | _ => exact h.moves hK rfl rfl rfl rfl rfl

end Steps

end Lexical

/-! ### Runs of accepted programs -/

section Accepted
variable {P : Visit → Prop} {distances : Distances} {host : Host} {labels : Labels} {p : Provenance} {m : Machine}
  {m' : Lexical.Machine}

theorem Function.Occurs.parameters_ne_this {f : Function} {scopes : List Scope} (h : f.Occurs P scopes)
    (hkeeps : ∀ v, P v → v.KeepsThis) : ∀ x ∈ f.parameters, x.lexeme ≠ "this" := by
  obtain ⟨enclosing, r, -, hvisits⟩ := h
  cases f with
  | mk name parameters body =>
    have hroutine := hkeeps _ (hvisits (.routine (.mk name parameters body) enclosing r) List.mem_cons_self)
    exact hroutine.2

theorem Matches.spares {homes : Homes} {s : State} {t : Lexical.State} (h : Matches P homes s t)
    (hkeeps : ∀ v, P v → v.KeepsThis) : t.Spares := by
  refine ⟨fun f c hc => ?_, fun k x c hc => ?_⟩
  · rcases rel_cases (h.closures.get f) with ⟨-, hnone⟩ | ⟨c₀, c', -, hsome, hmatches⟩
    · cases hnone.symm.trans hc
    · cases hsome.symm.trans hc
      obtain ⟨scopes, hoccurs, -⟩ := hmatches.place
      rw [hmatches.declaration]
      exact hoccurs.parameters_ne_this hkeeps
  · rcases rel_cases ((h.classAt k).methods x) with ⟨-, hnone⟩ | ⟨c₀, c', -, hsome, hmatches⟩
    · cases hnone.symm.trans hc
    · cases hsome.symm.trans hc
      obtain ⟨outer, hoccurs, -⟩ := hmatches.place
      rw [hmatches.declaration]
      exact hoccurs.parameters_ne_this hkeeps

theorem Stmt.Occurs.declared_ne_this {statement : Stmt} {scopes : List Scope} (h : statement.Occurs P scopes)
    (hfine : ∀ v, P v → v.Fine distances) (hkeeps : ∀ v, P v → v.KeepsThis) :
    ∀ name, statement.declared? = some name → name.lexeme ≠ "this" := by
  obtain ⟨r, -, hvisits⟩ := h
  intro name hname
  cases statement with
  | declareVariable x initializer =>
    cases hname
    exact (hfine _ (hvisits _ List.mem_cons_self)).proper
  | declareFunction f =>
    cases hname
    cases f with
    | mk x parameters body =>
      exact (hkeeps _ (hvisits (.routine (.mk x parameters body) _ _) (List.mem_cons_of_mem _ List.mem_cons_self))).1
  | declareClass x methods =>
    cases hname
    exact hkeeps _ (hvisits _ List.mem_cons_self)
  | _ => cases hname

/-- Each step keeps what the environments know as `this`. -/
theorem Simulates.continues (hfine : ∀ v, P v → v.Fine distances) (hkeeps : ∀ v, P v → v.KeepsThis)
    (hsimulates : Simulates P m m') (h : m'.Attributed labels p) :
    Lexical.Machine.Continues m'.control m'.state p (m'.step host) := by
  obtain ⟨hstate, hwork⟩ := h
  cases hsimulates with
  | active hagrees hactive =>
    cases hactive with
    | eval he hK => exact Lexical.continues_eval hstate hwork _
    | give hK =>
      refine Lexical.continues_give (hagrees.matching.spares hkeeps) hstate _ hwork ?_
      rintro site name below rfl
      cases hK with
      | assign hscopes hvisit hK => exact (hfine _ hvisit).proper
    | exec hs hK => exact Lexical.continues_exec hstate (hs.declared_ne_this hfine hkeeps) hwork
    | ended hK => exact Lexical.continues_ended hstate _ hwork
  | failing hmatch hfailing =>
    cases hfailing with
    | expr hfault hK => exact Lexical.continues_failExpr hstate _ hwork
    | stmt hfault hK => exact Lexical.continues_failStmt hstate _ hwork

theorem Matches.tally {homes : Homes} {s : State} {t : Lexical.State} (h : Matches P homes s t) : t.tally = s.tally := by
  simp only [Lexical.State.tally, State.tally, h.instances, h.depth, h.closures.size]

theorem Simulates.tally (h : Simulates P m m') : m'.state.tally = m.state.tally := by
  cases h with
  | active h => exact h.matching.tally
  | failing h => exact h.tally

/-- Both machines are about to call the same value and to fetch from the same instance. -/
theorem Simulates.control (h : Simulates P m m') : m'.control.object? = m.control.object? ∧
    m'.control.call?.map Call.callee = m.control.call?.map Call.callee := by
  cases h with
  | active _ hactive =>
    cases hactive with
    | @give v _ _ hK =>
      cases hK with
      | @callee _ _ _ arguments => cases arguments <;> exact ⟨rfl, rfl⟩
      | @argument _ _ _ _ _ rest => cases rest <;> exact ⟨rfl, rfl⟩
      | get => cases v <;> exact ⟨rfl, rfl⟩
      | _ => exact ⟨rfl, rfl⟩
    | _ => exact ⟨rfl, rfl⟩
  | failing _ hfailing => cases hfailing <;> exact ⟨rfl, rfl⟩

/-- The instances to which bodies and function values belong are the same on both machines. -/
theorem Simulates.step_provenance (h : Simulates P m m') (after : Tally) :
    p.step m'.control m'.state.tally after = p.step m.control m.state.tally after := by
  obtain ⟨hobject, hcallee⟩ := h.control
  have hbind : ∀ (p : Provenance) (next : InstanceId) {σ : Type} (c : Control σ),
      (c.call?.bind fun call => p.ofCallee next call.callee) = (c.call?.map Call.callee).bind (p.ofCallee next) :=
    fun _ _ _ c => by cases c.call? <;> rfl
  simp only [Provenance.step, hbind, hobject, hcallee, h.tally]

/-- A use of `this` finds the instance to which the body belongs that runs. -/
theorem Simulates.step_this {setting : Setting} (hfine : ∀ v, P v → v.Fine setting.distances)
    (hkeeps : ∀ v, P v → v.KeepsThis) (hsimulates : Simulates P m m') (h : m'.Attributed labels p) {site : Site}
    {keyword : Token} {K : ExprStack FrameId} (hcontrol : m.control = .eval (.this site keyword) K) :
    ∃ i, p.current = some i ∧ m.step setting = ⟨.give (.instanceValue i) K, m.state⟩ := by
  cases hsimulates with
  | failing _ hfailing =>
    cases hfailing <;> cases hcontrol
  | @active c c' s t homes scopes saved hagrees hactive =>
    obtain rfl : c = .eval (.this site keyword) K := hcontrol
    cases hactive with
    | eval he hK =>
      obtain ⟨r, rfl, hvisits⟩ := he
      have hvisit := hvisits (.expr (.this site keyword) r) (List.mem_singleton.mpr rfl)
      have hfinds := hfine _ hvisit
      obtain ⟨d, hd⟩ := Option.isSome_iff_exists.mp (hkeeps _ hvisit)
      have hlexeme : keyword.lexeme = "this" := hfinds.proper
      -- The scope that has `this` has it bound, so the variable that the environment knows has a value.
      obtain ⟨g, l, scope, hframe, -, hhome, hfind, hscope, hbound⟩ := hagrees.stands.sees.at_distance hd
      obtain ⟨v, hv⟩ := Option.isSome_iff_exists.mp (hbound (hfinds.this_readable d scope hd hscope))
      have hcell := hagrees.matching.heap.content g keyword.lexeme l hhome
      have hthis := h.state.environment.this
      rw [← hlexeme, hfind, Option.bind_some, hcell, hv] at hthis
      obtain ⟨i, hi, rfl⟩ := Option.map_eq_some_iff.mp hthis.symm
      have hdistance : setting.distances.get? site = some d := (hfinds.distance site rfl).trans hd
      have hread : s.read setting site keyword = .ok (.instanceValue i) := by
        simp [State.read, hdistance, Store.valueAt, hframe, hv]
      exact ⟨i, hi, by simp [Machine.step, Machine.eval, hread]⟩

end Accepted

end LoxLanguage
