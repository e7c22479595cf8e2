import LoxLanguage.Proofs.Lexical.Matching

/-! What reading and writing do on both sides. Each rule takes two states that agree and gives two states that agree:
reads and assignments of names, declarations, blocks, parameters, receivers, function values, classes and
instances. -/

namespace LoxLanguage

open Lexical (Environment Location)

variable {P : Visit → Prop} {homes homes' : Homes} {scopes scopes' : List Scope} {saved : List Saved} {s : State}
  {t : Lexical.State} {store' : Store} {cells : Array (Option Value)} {globals : Bindings Value}
  {environment : Environment} {g : FrameId} {x : String} {v : Value}

/-! ### Values -/

namespace Matches

theorem classAt (h : Matches P homes s t) (c : ClassId) :
    ClassMatches P s.store homes (s.store.classAt c) (t.classAt c) := by
  rw [Store.classAt, Lexical.State.classAt, Array.getD_eq_getD_getElem?, Array.getD_eq_getD_getElem?]
  rcases rel_cases (h.classes.get c) with ⟨hc, hc'⟩ | ⟨_, _, hc, hc', hmatch⟩
  · rw [hc, hc']
    exact ⟨rfl, fun _ => .none⟩
  · rw [hc, hc']
    exact hmatch

theorem instanceAt (h : Matches P homes s t) (i : InstanceId) : t.instanceAt i = s.store.instanceAt i := by
  rw [Lexical.State.instanceAt, h.instances]
  rfl

theorem classOf (h : Matches P homes s t) (i : InstanceId) :
    ClassMatches P s.store homes (s.store.classOf i) (t.classOf i) := by
  rw [Lexical.State.classOf, h.instanceAt]
  exact h.classAt _

theorem display (h : Matches P homes s t) (v : Value) : t.display v = s.store.display v := by
  cases v with
  | closure f =>
    rw [Lexical.State.display, Store.display, Store.closureName]
    rcases rel_cases (h.closures.get f) with ⟨hc, hc'⟩ | ⟨c, c', hc, hc', hmatch⟩
    · rw [hc, hc']
      rfl
    · rw [hc, hc']
      show "<fn " ++ c'.declaration.name.lexeme ++ ">" = "<fn " ++ c.declaration.name.lexeme ++ ">"
      rw [hmatch.declaration]
  | classValue c => exact (h.classAt c).name
  | instanceValue i => rw [Lexical.State.display, Store.display, (h.classOf i).name]
  | _ => rfl

/-- The current place is no part of a match, and the depth only has to be the same. -/
theorem moved (h : Matches P homes s t) (f : FrameId) (environment : Environment) {d d' : Nat} (hd : d' = d) :
    Matches P homes { s with current := f, depth := d } { t with environment, depth := d' } :=
  ⟨h.heap, h.closures, h.classes, h.instances, hd, h.printed, h.ticks⟩

theorem globalTexts (h : Matches P homes s t) : t.globalTexts = s.globalTexts := by
  rw [Lexical.State.globalTexts, State.globalTexts, h.heap.globals]
  simp only [h.display]

end Matches

namespace Agrees

/-! ### Updates of frames, updates of the rest -/

theorem update (h : Agrees P homes scopes saved s t) (hg : Grows g s.store homes store' homes') (hle : s.current ≤ g)
    (hheap : Heap homes' store' cells globals) (hstands : Stands store' homes' scopes' s.current environment)
    (hclosures : store'.closures = s.store.closures) (hclasses : store'.classes = s.store.classes)
    (hinstances : store'.instances = s.store.instances) :
    Agrees P homes' scopes' saved { s with store := store' } { t with cells, globals, environment } := by
  obtain ⟨hmatch, -, hstacked⟩ := h
  refine ⟨⟨hheap, ?_, ?_, ?_, hmatch.depth, hmatch.printed, hmatch.ticks⟩, hstands,
    hstacked.grows hg hle hmatch.heap.root⟩
  · rw [hclosures]
    exact hmatch.closures.imp fun _ _ hc => hc.grows hg
  · rw [hclasses]
    exact hmatch.classes.imp fun _ _ hc => hc.grows hg
  · exact hmatch.instances.trans hinstances.symm

theorem reframe (h : Agrees P homes scopes saved s t) {closures : Array Lexical.Closure} {classes : Array Lexical.Class}
    {instances : Array Instance} (hframes : store'.frames = s.store.frames)
    (hclosures : Alike (ClosureMatches P s.store homes) store'.closures closures)
    (hclasses : Alike (ClassMatches P s.store homes) store'.classes classes) (hinstances : instances = store'.instances) :
    Agrees P homes scopes saved { s with store := store' } { t with closures, classes, instances } := by
  obtain ⟨hmatch, hstands, hstacked⟩ := h
  have hg : ∀ {f}, Grows f s.store homes store' homes := grows_of_frames hframes
  refine ⟨⟨hmatch.heap.of_frames hframes, hclosures.imp fun _ _ hc => hc.grows (hg (f := 0)),
    hclasses.imp fun _ _ hc => hc.grows (hg (f := 0)), hinstances, hmatch.depth, hmatch.printed, hmatch.ticks⟩, ?_, ?_⟩
  · exact hstands.grows hg (Nat.ne_of_lt (Nat.lt_succ_self _)) hmatch.heap.root
  · exact hstacked.grows hg (Nat.le_refl _) hmatch.heap.root

theorem newClosure (h : Agrees P homes scopes saved s t) {c : Closure} {c' : Lexical.Closure}
    (hc : ClosureMatches P s.store homes c c') :
    Agrees P homes scopes saved { s with store := s.store.newClosure c } { t with closures := t.closures.push c' } :=
  h.reframe rfl (h.matching.closures.push hc) h.matching.classes h.matching.instances

theorem newClass (h : Agrees P homes scopes saved s t) {c : Class} {c' : Lexical.Class}
    (hc : ClassMatches P s.store homes c c') :
    Agrees P homes scopes saved { s with store := s.store.newClass c } { t with classes := t.classes.push c' } :=
  h.reframe rfl h.matching.closures (h.matching.classes.push hc) h.matching.instances

theorem newInstance (h : Agrees P homes scopes saved s t) (c : ClassId) :
    Agrees P homes scopes saved { s with store := s.store.newInstance c } (t.newInstance c) :=
  h.reframe rfl h.matching.closures h.matching.classes (by rw [h.matching.instances]; rfl)

theorem setField (h : Agrees P homes scopes saved s t) (i : InstanceId) (name : String) (v : Value) :
    Agrees P homes scopes saved { s with store := s.store.setField i name v } (t.setField i name v) :=
  h.reframe rfl h.matching.closures h.matching.classes (by rw [h.matching.instances]; rfl)

theorem print (h : Agrees P homes scopes saved s t) (v : Value) :
    Agrees P homes scopes saved (s.print v) (t.print v) := by
  obtain ⟨hmatch, hstands, hstacked⟩ := h
  have hprinted : (t.print v).printed = (s.print v).printed := by
    rw [Lexical.State.print, State.print, hmatch.display, hmatch.printed]
  exact ⟨⟨hmatch.heap, hmatch.closures, hmatch.classes, hmatch.instances, hmatch.depth, hprinted, hmatch.ticks⟩,
    hstands, hstacked⟩

theorem tick (h : Agrees P homes scopes saved s t) :
    Agrees P homes scopes saved { s with ticks := s.ticks + 1 } { t with ticks := t.ticks + 1 } := by
  obtain ⟨hmatch, hstands, hstacked⟩ := h
  exact ⟨⟨hmatch.heap, hmatch.closures, hmatch.classes, hmatch.instances, hmatch.depth, hmatch.printed,
    congrArg (· + 1) hmatch.ticks⟩, hstands, hstacked⟩

/-! ### Names -/

/-- Both sides read the same value. The name may be undefined only if it is global. -/
theorem read (h : Agrees P homes scopes saved s t) {setting : Setting} {site : Site} {name : Token}
    (hdistance : setting.distances.get? site = scopes.findIdx? (·.has name.lexeme))
    (hreadable : Readable scopes name.lexeme) :
    (∃ v, s.read setting site name = .ok v ∧ t.read name = .ok v) ∨
      (s.read setting site name = .error (.undefinedVariable name) ∧ t.read name = .error (.undefinedVariable name)) := by
  have hheap := h.matching.heap
  unfold State.read Lexical.State.read
  rw [hdistance]
  cases hd : scopes.findIdx? (·.has name.lexeme) with
  | none =>
    rw [h.stands.sees.find?_eq_none hd, Store.lookup?_globals, hheap.globals]
    cases hv : t.globals.get? name.lexeme with
    | none => exact .inr ⟨rfl, rfl⟩
    | some v => exact .inl ⟨v, rfl, rfl⟩
  | some d =>
    obtain ⟨g, l, scope, hframe, -, hhome, hfind, hscope, hbound⟩ := h.stands.sees.at_distance hd
    obtain ⟨v, hv⟩ := Option.isSome_iff_exists.mp (hbound (hreadable d scope hd hscope))
    have hcell := hheap.content g name.lexeme l hhome
    rw [hv] at hcell
    refine .inl ⟨v, ?_, ?_⟩
    · simp [Store.valueAt, hframe, hv]
    · simp [hfind, Lexical.State.content?, hcell]

/-- Both sides assign to the same variable, or both find that a global name is undefined. -/
theorem assign (h : Agrees P homes scopes saved s t) {setting : Setting} {site : Site} {name : Token}
    (hdistance : setting.distances.get? site = scopes.findIdx? (·.has name.lexeme)) (v : Value) :
    (∃ f t', s.target setting site name = .ok f ∧ t.assign name v = .ok t' ∧
      Agrees P homes scopes saved (s.defineIn f name.lexeme v) t') ∨
      (s.target setting site name = .error (.undefinedVariable name) ∧
        t.assign name v = .error (.undefinedVariable name)) := by
  have hheap := h.matching.heap
  have hsees : ∀ g, Stands (s.store.define g name.lexeme v) homes scopes s.current t.environment := fun g =>
    h.stands.grows grows_define (Nat.ne_of_lt (Nat.lt_succ_self _)) hheap.root
  unfold State.target Lexical.State.assign
  rw [hdistance]
  cases hd : scopes.findIdx? (·.has name.lexeme) with
  | none =>
    rw [h.stands.sees.find?_eq_none hd, Store.holder?_globals, hheap.globals]
    by_cases hhas : t.globals.has name.lexeme = true
    · refine .inl ⟨Store.globals, t.setGlobal name.lexeme v, by simp [hhas], by simp [hhas], ?_⟩
      exact h.update grows_define (Nat.le_refl _) hheap.setGlobal (hsees _) rfl rfl rfl
    · exact .inr ⟨by simp [hhas], by simp [hhas]⟩
  | some d =>
    obtain ⟨g, l, scope, hframe, -, hhome, hfind, -, -⟩ := h.stands.sees.at_distance hd
    refine .inl ⟨g, t.write l v, by simp [hframe], by simp [hfind], ?_⟩
    exact h.update grows_define (Nat.le_refl _) (hheap.write hhome) (hsees g) rfl rfl rfl

theorem setGlobal (h : Agrees P homes [] saved s t) : Agrees P homes [] saved (s.define x v) (t.setGlobal x v) := by
  obtain ⟨hcurrent, -⟩ := h.stands.sees.of_nil
  have hdefine : s.define x v = s.defineIn Store.globals x v := congrArg (s.defineIn · x v) hcurrent
  rw [hdefine]
  refine h.update grows_define (Nat.le_refl _) h.matching.heap.setGlobal ?_ rfl rfl rfl
  exact h.stands.grows grows_define (Nat.ne_of_lt (Nat.lt_succ_self _)) h.matching.heap.root

theorem allocate {scope : Scope} {outer : List Scope} (h : Agrees P homes (scope :: outer) saved s t)
    (hx : scope.has x = false) (v : Value) :
    ∃ homes', Agrees P homes' ((scope.put x false).put x true :: outer) saved (s.define x v) (t.allocate x (some v)) := by
  have hheap := h.matching.heap
  have hnone := h.stands.noHome hx
  obtain ⟨hne, hlt, -, -⟩ := h.stands.sees.of_cons
  refine ⟨homes.set s.current x t.cells.size, ?_⟩
  exact h.update ((grows_home hnone).trans grows_define) (Nat.le_refl _) (hheap.allocate hne hlt hnone)
    (h.stands.declare hx) rfl rfl rfl

/-- A name that has its value at once. -/
theorem declare (h : Agrees P homes scopes saved s t) {name : Token} (hx : Undeclared scopes name.lexeme) (v : Value) :
    ∃ homes', Agrees P homes' (scopesAfter scopes (some name)) saved (s.define name.lexeme v) (t.declare name.lexeme v) := by
  cases scopes with
  | nil =>
    obtain ⟨-, htop⟩ := h.stands.sees.of_nil
    have hdeclare : t.declare name.lexeme v = t.setGlobal name.lexeme v := by
      rw [Lexical.State.declare, htop]
    rw [hdeclare]
    exact ⟨homes, h.setGlobal⟩
  | cons scope outer =>
    obtain ⟨-, -, ⟨names, hinner⟩, -⟩ := h.stands.sees.of_cons
    have hdeclare : t.declare name.lexeme v = t.allocate name.lexeme (some v) := by
      rw [Lexical.State.declare, hinner]
    rw [hdeclare]
    exact h.allocate (hx scope outer rfl) v

/-- A name whose initializer is still to come. -/
theorem reserve (h : Agrees P homes scopes saved s t) (hx : Undeclared scopes x) :
    ∃ homes', Agrees P homes' (markName scopes x false) saved s (t.reserve x) := by
  cases scopes with
  | nil =>
    obtain ⟨-, htop⟩ := h.stands.sees.of_nil
    have hreserve : t.reserve x = t := by rw [Lexical.State.reserve, htop]
    rw [hreserve]
    exact ⟨homes, h⟩
  | cons scope outer =>
    have hnone := h.stands.noHome (hx scope outer rfl)
    obtain ⟨hne, hlt, ⟨names, hinner⟩, -⟩ := h.stands.sees.of_cons
    have hreserve : t.reserve x = t.allocate x none := by rw [Lexical.State.reserve, hinner]
    rw [hreserve]
    refine ⟨homes.set s.current x t.cells.size, ?_⟩
    exact h.update (grows_home hnone) (Nat.le_refl _) (h.matching.heap.reserve hne hlt hnone)
      (h.stands.reserve (hx scope outer rfl)) rfl rfl rfl

/-- The value of the initializer of a name. -/
theorem settle (h : Agrees P homes scopes saved s t) (hx : ∀ scope outer, scopes = scope :: outer → scope.has x = true)
    (v : Value) : Agrees P homes (markName scopes x true) saved (s.define x v) (t.settle x v) := by
  cases scopes with
  | nil =>
    obtain ⟨-, htop⟩ := h.stands.sees.of_nil
    have hsettle : t.settle x v = t.setGlobal x v := by
      rw [Lexical.State.settle, htop]
      rfl
    rw [hsettle]
    exact h.setGlobal
  | cons scope outer =>
    obtain ⟨-, -, -, hnames⟩ := h.stands.sees.of_cons
    obtain ⟨l, hhome, hfind⟩ := hnames x (hx scope outer rfl)
    have hsettle : t.settle x v = t.write l v := by rw [Lexical.State.settle, hfind]
    rw [hsettle]
    exact h.update grows_define (Nat.le_refl _) (h.matching.heap.write hhome) (h.stands.settle (hx scope outer rfl))
      rfl rfl rfl

/-! ### Blocks and calls -/

theorem deepen (h : Agrees P homes scopes saved s t) :
    Agrees P homes scopes saved { s with depth := s.depth + 1 } { t with depth := t.depth + 1 } := by
  obtain ⟨hmatch, hstands, hstacked⟩ := h
  exact ⟨hmatch.moved _ _ (congrArg (· + 1) hmatch.depth), hstands, hstacked⟩

/-- A new scope inside the frame `f`, which need not be the current one. -/
theorem enter (h : Agrees P homes scopes saved s t) {around : List Scope} {f : FrameId}
    (hsees : Sees s.store homes around f environment) {receiver : Option (FrameId × Environment)}
    (hreceiver : SeesReceiver s.store homes receiver) :
    Agrees P homes ([] :: around) (⟨scopes, s.current, t.environment, receiver⟩ :: saved) (s.enter f [])
      { t with environment := environment.nest } := by
  obtain ⟨hmatch, hstands, hstacked⟩ := h
  have hg : ∀ {g}, Grows g s.store homes (s.store.newFrame (some f) []) homes := grows_newFrame
  have hlt := hstands.sees.lt hmatch.heap.root
  refine ⟨⟨hmatch.heap.newFrame _, hmatch.closures.imp fun _ _ hc => hc.grows (hg (g := 0)),
    hmatch.classes.imp fun _ _ hc => hc.grows (hg (g := 0)), hmatch.instances, hmatch.depth, hmatch.printed, hmatch.ticks⟩,
    .open hsees hmatch.heap, .cons hlt ?_ (hreceiver.grows (hg (g := 0))) ?_⟩
  · exact hstands.grows hg (Nat.ne_of_lt hlt) hmatch.heap.root
  · exact hstacked.grows hg (Nat.le_refl _) hmatch.heap.root

/-- Back to the last place that was saved. -/
theorem leave {p : Saved} (h : Agrees P homes scopes (p :: saved) s t) :
    Agrees P homes p.scopes saved { s with current := p.frame } { t with environment := p.environment } := by
  obtain ⟨hmatch, -, hstacked⟩ := h
  cases hstacked with
  | cons _ hstands _ hbelow => exact ⟨hmatch.moved _ _ hmatch.depth, hstands, hbelow⟩

theorem finish {p : Saved} (h : Agrees P homes scopes (p :: saved) s t) :
    Agrees P homes p.scopes saved { s with current := p.frame, depth := s.depth - 1 }
      { t with environment := p.environment, depth := t.depth - 1 } := by
  obtain ⟨hmatch, hstands, hstacked⟩ := h.leave
  exact ⟨hmatch.moved _ _ (congrArg (· - 1) hmatch.depth), hstands, hstacked⟩

/-- Parameters are local names that have their values at once. -/
theorem allocateAll {scope : Scope} {outer : List Scope} (h : Agrees P homes (scope :: outer) saved s t)
    (given : List (Token × Value)) (hquiet : parameterComplaints (scope :: outer) (given.map Prod.fst) = []) :
    ∃ homes', Agrees P homes'
      ((given.map Prod.fst).foldl (fun scopes name => scopesAfter scopes (some name)) (scope :: outer)) saved
      (given.foldl (fun s p => s.define p.1.lexeme p.2) s) (t.allocateAll given) := by
  induction given generalizing homes scope s t with
  | nil => exact ⟨homes, h⟩
  | cons p rest ih =>
    obtain ⟨hname, hrest⟩ := List.append_eq_nil_iff.mp hquiet
    obtain ⟨homes', h'⟩ := h.allocate (undeclared_of_quiet hname scope outer rfl) p.2
    exact ih h' hrest

end Agrees

/-- The frame of a call is that of an empty scope in which the parameters are then defined. -/
theorem State.enter_foldl (s : State) (f : FrameId) (given : List (Token × Value)) (bindings : Bindings Value) :
    s.enter f (given.foldl (fun b p => b.put p.1.lexeme p.2) bindings) =
      given.foldl (fun s p => s.define p.1.lexeme p.2) (s.enter f bindings) := by
  induction given generalizing bindings with
  | nil => rfl
  | cons p rest ih =>
    have hput : s.enter f (bindings.put p.1.lexeme p.2) = (s.enter f bindings).define p.1.lexeme p.2 := by
      rw [State.enter, Store.newFrame_put]
      rfl
    rw [List.foldl_cons, ih, hput, List.foldl_cons]

namespace Agrees

theorem enterBody (h : Agrees P homes scopes saved s t) {around : List Scope} {f : FrameId} {closure : Closure}
    {arguments : List Value} (hsees : Sees s.store homes around f environment) {receiver : Option (FrameId × Environment)}
    (hreceiver : SeesReceiver s.store homes receiver) (hlength : arguments.length = closure.arity)
    (hquiet : parameterComplaints ([] :: around) closure.declaration.parameters = []) :
    ∃ homes', Agrees P homes'
      (closure.declaration.parameters.foldl (fun scopes name => scopesAfter scopes (some name)) ([] :: around))
      (⟨scopes, s.current, t.environment, receiver⟩ :: saved)
      ({ s with depth := s.depth + 1 }.enter f (closure.bindParameters arguments))
      (Lexical.State.allocateAll { t with depth := t.depth + 1, environment := environment.nest }
        (closure.declaration.parameters.zip arguments)) := by
  have hnames : (closure.declaration.parameters.zip arguments).map Prod.fst = closure.declaration.parameters :=
    List.map_fst_zip (Nat.le_of_eq hlength.symm)
  have hopen := h.deepen.enter hsees hreceiver
  rw [Closure.bindParameters, State.enter_foldl]
  obtain ⟨homes', h'⟩ := hopen.allocateAll (closure.declaration.parameters.zip arguments) (by rw [hnames]; exact hquiet)
  rw [hnames] at h'
  exact ⟨homes', h'⟩

/-- A scope for a receiver, beside the current one. -/
theorem bindReceiver (h : Agrees P homes scopes saved s t) {outer : List Scope} {f : FrameId}
    (hsees : Sees s.store homes outer f environment) (i : InstanceId) :
    ∃ homes', Agrees P homes' scopes saved
        { s with store := s.store.newFrame (some f) [("this", .instanceValue i)] } (t.bindReceiver environment i).1 ∧
      Sees (s.store.newFrame (some f) [("this", .instanceValue i)]) homes' ([("this", true)] :: outer)
        s.store.frames.size (t.bindReceiver environment i).2 := by
  have hheap := h.matching.heap
  have hstore : s.store.newFrame (some f) [("this", .instanceValue i)] =
      (s.store.newFrame (some f) []).define s.store.frames.size "this" (.instanceValue i) := by
    show s.store.newFrame (some f) (Bindings.put [] "this" (.instanceValue i)) = _
    exact Store.newFrame_put
  have hnone := hheap.fresh s.store.frames.size "this" (Nat.le_refl _)
  have hgrows : Grows s.store.frames.size s.store homes
      ((s.store.newFrame (some f) []).define s.store.frames.size "this" (.instanceValue i))
      (homes.set s.store.frames.size "this" t.cells.size) :=
    (grows_newFrame.trans (grows_home hnone)).trans grows_define
  have hcurrent : s.current < s.store.frames.size := h.stands.sees.lt hheap.root
  rw [hstore]
  refine ⟨homes.set s.store.frames.size "this" t.cells.size, ?_, ?_⟩
  · refine h.update hgrows (Nat.le_of_lt hcurrent) ?_ ?_ rfl rfl rfl
    · refine (hheap.newFrame (some f)).allocate (Nat.ne_of_gt hheap.root) ?_ hnone
      rw [Store.size_newFrame]
      exact Nat.lt_succ_self _
    · exact h.stands.grows hgrows (Nat.ne_of_lt hcurrent) hheap.root
  · have hthis := ((Stands.open hsees hheap).declare (x := "this") (v := .instanceValue i) (l := t.cells.size) rfl).sees
    have henvironment : environment.nest.extend "this" t.cells.size = environment.extend "this" t.cells.size := by
      cases environment <;> rfl
    rw [henvironment] at hthis
    exact hthis

/-- A function declaration. The function value knows its own name. -/
theorem declareFunction (h : Agrees P homes scopes saved s t) {f : Function} (hx : Undeclared scopes f.name.lexeme)
    (hoccurs : f.Occurs P (scopesAfter scopes (some f.name))) :
    ∃ homes', Agrees P homes' (scopesAfter scopes (some f.name)) saved (s.declareFunction f) (t.declareFunction f) := by
  obtain ⟨homes', h'⟩ := h.declare hx (.closure s.store.closures.size)
  have hsize := h.matching.closures.size
  refine ⟨homes', ?_⟩
  unfold Lexical.State.declareFunction
  rw [← hsize]
  exact h'.newClosure ⟨rfl, rfl, _, hoccurs, h'.stands.sees, nofun⟩

end Agrees

theorem methodTable_rel {store : Store} {f : FrameId} {methods : List Function} (hsees : Sees store homes scopes f environment)
    (hoccur : ∀ m ∈ methods, m.Occurs P ([("this", true)] :: scopes)) :
    ∀ x, Option.Rel (MethodMatches P store homes) ((State.methodTable methods f).get? x)
      ((Lexical.State.methodTable methods environment).get? x) := by
  unfold State.methodTable Lexical.State.methodTable
  suffices hfold : ∀ (table : Bindings Closure) (table' : Bindings Lexical.Closure),
      (∀ x, Option.Rel (MethodMatches P store homes) (table.get? x) (table'.get? x)) →
      ∀ x, Option.Rel (MethodMatches P store homes)
        ((methods.foldl (fun table m => table.put m.name.lexeme ⟨m, f, m.isInitializer⟩) table).get? x)
        ((methods.foldl (fun table m => table.put m.name.lexeme ⟨m, environment, m.isInitializer⟩) table').get? x) from
    hfold [] [] fun _ => .none
  induction methods with
  | nil => exact fun _ _ h => h
  | cons m rest ih =>
    obtain ⟨hm, hrest⟩ := List.forall_mem_cons.mp hoccur
    exact fun table table' h => ih hrest _ _ (Bindings.rel_put h ⟨rfl, rfl, scopes, hm, hsees⟩ m.name.lexeme)

/-- A class declaration. The methods know the name of the class. -/
theorem Agrees.declareClass (h : Agrees P homes scopes saved s t) {name : Token} {methods : List Function}
    (hx : Undeclared scopes name.lexeme)
    (hoccur : ∀ m ∈ methods, m.Occurs P ([("this", true)] :: scopesAfter scopes (some name))) :
    ∃ homes', Agrees P homes' (scopesAfter scopes (some name)) saved (s.declareClass name methods)
      (t.declareClass name methods) := by
  obtain ⟨homes', h'⟩ := h.declare hx (.classValue s.store.classes.size)
  have hsize := h.matching.classes.size
  refine ⟨homes', ?_⟩
  unfold Lexical.State.declareClass
  rw [← hsize]
  exact h'.newClass ⟨rfl, methodTable_rel h'.stands.sees hoccur⟩

end LoxLanguage
