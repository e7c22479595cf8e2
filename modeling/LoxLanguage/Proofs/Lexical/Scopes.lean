import LoxLanguage.Proofs.Lexical.Frames
import LoxLanguage.Proofs.Lexical.Machine
import LoxLanguage.Proofs.Scope.Binding

/-! Frames against environments. Each name of a local frame has a home, the variable that stands for it. At a place
where the resolver has a list of scopes, the frames from the current one outward lie against these scopes, one
for each, with the globals behind the last (`Sees`); what the environment knows is what the innermost scope
with the name has its home in. A frame that is still being filled is owned by the place that fills it
(`Stands`), so its homes are no more than the names of its scope.

All of this is kept when frames are added, names are defined, and the owner of a frame gives a new name a
home in it (`Grows`). -/

namespace LoxLanguage

open Lexical (Environment Location)

/-- For each name of a local frame, the variable that stands for it. -/
abbrev Homes := FrameId → String → Option Location

/-- The variable of a name in a frame is another one. -/
def Homes.set (homes : Homes) (f : FrameId) (x : String) (l : Location) : Homes := fun g y =>
  if g = f ∧ y = x then some l else homes g y

namespace Homes

variable {homes : Homes} {f g : FrameId} {x y : String} {l : Location}

theorem set_self : homes.set f x l f x = some l :=
  if_pos ⟨rfl, rfl⟩

theorem set_of_ne (h : g ≠ f ∨ y ≠ x) : homes.set f x l g y = homes g y :=
  if_neg fun heq => h.elim (absurd heq.1) (absurd heq.2)

end Homes

/-! ### The content of the frames -/

/-- Each home holds what its name is bound to in its frame, and a name without a home is not bound. -/
structure Heap (homes : Homes) (store : Store) (cells : Array (Option Value)) (globals : Bindings Value) : Prop where
  root : Store.globals < store.frames.size
  orphan : (store.frame Store.globals).parent = none
  globals : (store.frame Store.globals).bindings = globals
  noHome : ∀ x, homes Store.globals x = none
  fresh : ∀ f x, store.frames.size ≤ f → homes f x = none
  content : ∀ f x l, homes f x = some l → cells[l]? = some (store.localValue? f x)
  unbound : ∀ f x, f ≠ Store.globals → homes f x = none → store.localValue? f x = none
  injective : ∀ f g x y l, homes f x = some l → homes g y = some l → f = g ∧ x = y

/-- What happens to the frames while the frame `f` is the one that is filled. -/
structure Grows (f : FrameId) (store : Store) (homes : Homes) (store' : Store) (homes' : Homes) : Prop where
  size : store.frames.size ≤ store'.frames.size
  parent : ∀ g, g < store.frames.size → (store'.frame g).parent = (store.frame g).parent
  bound : ∀ g x, (store.localValue? g x).isSome → (store'.localValue? g x).isSome
  home : ∀ g x l, homes g x = some l → homes' g x = some l
  others : ∀ g x, g < store.frames.size → g ≠ f → homes' g x = homes g x

section Updates
variable {homes : Homes} {store : Store} {cells : Array (Option Value)} {globals : Bindings Value} {f g : FrameId}
  {x : String} {v : Value} {l : Location}

theorem Grows.trans {store₁ store₂ : Store} {homes₁ homes₂ : Homes} (h : Grows f store homes store₁ homes₁)
    (h' : Grows f store₁ homes₁ store₂ homes₂) : Grows f store homes store₂ homes₂ where
  size := Nat.le_trans h.size h'.size
  parent g hg := (h'.parent g (Nat.lt_of_lt_of_le hg h.size)).trans (h.parent g hg)
  bound g x hb := h'.bound g x (h.bound g x hb)
  home g x l hl := h'.home g x l (h.home g x l hl)
  others g x hg hne := (h'.others g x (Nat.lt_of_lt_of_le hg h.size) hne).trans (h.others g x hg hne)

theorem grows_define : Grows f store homes (store.define g x v) homes where
  size := Nat.le_of_eq Store.size_define.symm
  parent _ _ := Store.parent_define
  bound h y hb := by
    by_cases heq : h = g ∧ y = x
    · obtain ⟨rfl, rfl⟩ := heq
      have hlt : h < store.frames.size := by
        by_contra hle
        rw [Store.localValue?_of_le (Nat.le_of_not_lt hle)] at hb
        cases hb
      rw [Store.localValue?_define_self hlt]
      rfl
    · rw [Store.localValue?_define_of_ne (by tauto)]
      exact hb
  home _ _ _ := id
  others _ _ _ _ := rfl

theorem grows_newFrame {parent : Option FrameId} {bindings : Bindings Value} :
    Grows f store homes (store.newFrame parent bindings) homes where
  size := by
    rw [Store.size_newFrame]
    exact Nat.le_succ _
  parent g hg := by rw [Store.frame_newFrame_of_ne (Nat.ne_of_lt hg)]
  bound g x hb := by
    by_cases hg : g = store.frames.size
    · rw [hg, Store.localValue?_of_le (Nat.le_refl _)] at hb
      cases hb
    · rwa [Store.localValue?_newFrame_of_ne hg]
  home _ _ _ := id
  others _ _ _ _ := rfl

theorem grows_home (h : homes f x = none) : Grows f store homes store (homes.set f x l) where
  size := Nat.le_refl _
  parent _ _ := rfl
  bound _ _ := id
  home g y l' hl := by
    refine (Homes.set_of_ne ?_).trans hl
    by_contra heq
    obtain ⟨rfl, rfl⟩ := not_or.mp heq |>.imp not_not.mp not_not.mp
    cases h.symm.trans hl
  others g y _ hne := Homes.set_of_ne (.inl hne)

theorem grows_of_frames {store' : Store} (h : store'.frames = store.frames) : Grows f store homes store' homes := by
  obtain ⟨frames, _, _, _⟩ := store
  obtain ⟨_, _, _, _⟩ := store'
  cases h
  exact ⟨Nat.le_refl _, fun _ _ => rfl, fun _ _ => id, fun _ _ _ => id, fun _ _ _ _ => rfl⟩

namespace Heap

theorem of_frames {store' : Store} (h : Heap homes store cells globals) (hframes : store'.frames = store.frames) :
    Heap homes store' cells globals := by
  obtain ⟨frames, _, _, _⟩ := store
  obtain ⟨_, _, _, _⟩ := store'
  cases hframes
  exact ⟨h.root, h.orphan, h.globals, h.noHome, h.fresh, h.content, h.unbound, h.injective⟩

/-- A write to a home is a definition of its name. -/
theorem write (h : Heap homes store cells globals) (hl : homes g x = some l) :
    Heap homes (store.define g x v) (cells.setIfInBounds l (some v)) globals := by
  have hg : g ≠ Store.globals := by
    rintro rfl
    cases (h.noHome x).symm.trans hl
  have hlt : g < store.frames.size := by
    by_contra hle
    cases (h.fresh g x (Nat.le_of_not_lt hle)).symm.trans hl
  refine ⟨by rw [Store.size_define]; exact h.root, Store.parent_define.trans h.orphan, ?_, h.noHome, ?_, ?_, ?_, h.injective⟩
  · rw [Store.frame_define_of_ne (Ne.symm hg)]
    exact h.globals
  · intro f y hf
    rw [Store.size_define] at hf
    exact h.fresh f y hf
  · intro f y l' hl'
    by_cases heq : f = g ∧ y = x
    · obtain ⟨rfl, rfl⟩ := heq
      cases hl.symm.trans hl'
      have hin : l < cells.size := (Array.getElem?_eq_some_iff.mp (h.content f y l hl)).1
      rw [Store.localValue?_define_self hlt, Array.getElem?_setIfInBounds_self_of_lt hin]
    · have hne : l ≠ l' := fun he => heq (h.injective f g y x l (he ▸ hl') hl)
      rw [Store.localValue?_define_of_ne (by tauto), Array.getElem?_setIfInBounds_ne hne]
      exact h.content f y l' hl'
  · intro f y hf hnone
    have hne : f ≠ g ∨ y ≠ x := by
      by_contra heq
      obtain ⟨rfl, rfl⟩ := not_or.mp heq |>.imp not_not.mp not_not.mp
      cases hnone.symm.trans hl
    rw [Store.localValue?_define_of_ne hne]
    exact h.unbound f y hf hnone

theorem setGlobal (h : Heap homes store cells globals) :
    Heap homes (store.define Store.globals x v) cells (globals.put x v) := by
  refine ⟨by rw [Store.size_define]; exact h.root, Store.parent_define.trans h.orphan, ?_, h.noHome, ?_, ?_, ?_, h.injective⟩
  · rw [Store.frame_define_self h.root, h.globals]
  · intro f y hf
    rw [Store.size_define] at hf
    exact h.fresh f y hf
  · intro f y l hl
    have hf : f ≠ Store.globals := by
      rintro rfl
      cases (h.noHome y).symm.trans hl
    rw [Store.localValue?_define_of_ne (.inl hf)]
    exact h.content f y l hl
  · intro f y hf hnone
    rw [Store.localValue?_define_of_ne (.inl hf)]
    exact h.unbound f y hf hnone

/-- A variable without a value is made for a name that is not bound. -/
theorem reserve (h : Heap homes store cells globals) (hf : f ≠ Store.globals) (hlt : f < store.frames.size)
    (hnone : homes f x = none) : Heap (homes.set f x cells.size) store (cells.push none) globals := by
  have hold : ∀ {g y l}, homes g y = some l → l < cells.size := fun {g y l} hl =>
    (Array.getElem?_eq_some_iff.mp (h.content g y l hl)).1
  refine ⟨h.root, h.orphan, h.globals, ?_, ?_, ?_, ?_, ?_⟩
  · intro y
    rw [Homes.set_of_ne (.inl (Ne.symm hf))]
    exact h.noHome y
  · intro g y hg
    rw [Homes.set_of_ne (.inl (by rintro rfl; exact Nat.not_lt_of_le hg hlt))]
    exact h.fresh g y hg
  · intro g y l hl
    by_cases heq : g = f ∧ y = x
    · obtain ⟨rfl, rfl⟩ := heq
      cases Homes.set_self.symm.trans hl
      rw [Array.getElem?_push_size, h.unbound g y hf hnone]
    · rw [Homes.set_of_ne (by tauto)] at hl
      rw [Array.getElem?_push_lt (hold hl), ← Array.getElem?_eq_getElem]
      exact h.content g y l hl
  · intro g y hg hnone'
    by_cases heq : g = f ∧ y = x
    · obtain ⟨rfl, rfl⟩ := heq
      cases Homes.set_self.symm.trans hnone'
    · rw [Homes.set_of_ne (by tauto)] at hnone'
      exact h.unbound g y hg hnone'
  · intro g g' y y' l hl hl'
    by_cases heq : g = f ∧ y = x
    · obtain ⟨rfl, rfl⟩ := heq
      cases Homes.set_self.symm.trans hl
      by_cases heq' : g' = g ∧ y' = y
      · exact ⟨heq'.1.symm, heq'.2.symm⟩
      · rw [Homes.set_of_ne (by tauto)] at hl'
        exact absurd (hold hl') (Nat.lt_irrefl _)
    · rw [Homes.set_of_ne (by tauto)] at hl
      by_cases heq' : g' = f ∧ y' = x
      · obtain ⟨rfl, rfl⟩ := heq'
        cases Homes.set_self.symm.trans hl'
        exact absurd (hold hl) (Nat.lt_irrefl _)
      · rw [Homes.set_of_ne (by tauto)] at hl'
        exact h.injective g g' y y' l hl hl'

/-- A variable with a value is made for a name that is defined. -/
theorem allocate (h : Heap homes store cells globals) (hf : f ≠ Store.globals) (hlt : f < store.frames.size)
    (hnone : homes f x = none) :
    Heap (homes.set f x cells.size) (store.define f x v) (cells.push (some v)) globals := by
  have hwrite : Heap _ (store.define f x v) ((cells.push none).setIfInBounds cells.size (some v)) globals :=
    (h.reserve hf hlt hnone).write Homes.set_self
  have heq : (cells.push none).setIfInBounds cells.size (some v) = cells.push (some v) := by
    apply Array.ext_getElem?
    intro i
    rw [Array.getElem?_setIfInBounds, Array.getElem?_push, Array.getElem?_push, Array.size_push]
    by_cases hi : cells.size = i
    · simp [hi]
    · simp [hi, Ne.symm hi]
  rwa [heq] at hwrite

theorem newFrame (h : Heap homes store cells globals) (parent : Option FrameId) :
    Heap homes (store.newFrame parent []) cells globals := by
  have hnew : ∀ f x, f ≠ Store.globals → (store.newFrame parent []).localValue? f x = store.localValue? f x := by
    intro f x _
    by_cases hf : f = store.frames.size
    · rw [hf, Store.localValue?_of_le (Nat.le_refl _), Store.localValue?, Store.frame_newFrame_self]
      rfl
    · exact Store.localValue?_newFrame_of_ne hf
  refine ⟨?_, ?_, ?_, h.noHome, ?_, ?_, ?_, h.injective⟩
  · rw [Store.size_newFrame]
    exact Nat.lt_succ_of_lt h.root
  · rw [Store.frame_newFrame_of_ne (Nat.ne_of_lt h.root)]
    exact h.orphan
  · rw [Store.frame_newFrame_of_ne (Nat.ne_of_lt h.root)]
    exact h.globals
  · intro f x hf
    rw [Store.size_newFrame] at hf
    exact h.fresh f x (Nat.le_of_succ_le hf)
  · intro f x l hl
    have hf : f ≠ Store.globals := by
      rintro rfl
      cases (h.noHome x).symm.trans hl
    rw [hnew f x hf]
    exact h.content f x l hl
  · intro f x hf hnone
    rw [hnew f x hf]
    exact h.unbound f x hf hnone

end Heap

end Updates

/-! ### Frames against scopes -/

/-- From the frame `f` outward there is one frame for each scope, and the globals behind the last. The environment
    knows a name by its home in the frame of the innermost scope that has it; a finished name is bound there. -/
inductive Sees (store : Store) (homes : Homes) : List Scope → FrameId → Environment → Prop where
  | top : Sees store homes [] Store.globals .top
  | inner {scope : Scope} {outer : List Scope} {f parent : FrameId} {names : List (String × Location)} {around : Environment}
      (hne : f ≠ Store.globals) (hlt : f < store.frames.size) (hparent : (store.frame f).parent = some parent)
      (houter : Sees store homes outer parent around)
      (hfind : ∀ x, (Environment.inner names).find? x = if scope.has x then homes f x else around.find? x)
      (hhome : ∀ x, scope.has x = true → (homes f x).isSome)
      (hbound : ∀ x, scope.get? x = some true → (store.localValue? f x).isSome) :
      Sees store homes (scope :: outer) f (.inner names)

/-- A place that fills the frame of its innermost scope: no other name has a home there. -/
structure Stands (store : Store) (homes : Homes) (scopes : List Scope) (f : FrameId) (environment : Environment) : Prop where
  sees : Sees store homes scopes f environment
  owns : ∀ scope outer, scopes = scope :: outer → ∀ x, (homes f x).isSome → scope.has x = true

section Frames
variable {store store' : Store} {homes homes' : Homes} {scopes : List Scope} {f g : FrameId} {environment : Environment}

theorem Sees.lt (h : Sees store homes scopes f environment) (hroot : Store.globals < store.frames.size) :
    f < store.frames.size := by
  cases h with
  | top => exact hroot
  | inner _ hlt => exact hlt

theorem Sees.of_nil (h : Sees store homes [] f environment) : f = Store.globals ∧ environment = .top := by
  cases h
  exact ⟨rfl, rfl⟩

theorem Sees.of_cons {scope : Scope} {outer : List Scope} (h : Sees store homes (scope :: outer) f environment) :
    f ≠ Store.globals ∧ f < store.frames.size ∧ (∃ names, environment = .inner names) ∧
      ∀ x, scope.has x = true → ∃ l, homes f x = some l ∧ environment.find? x = some l := by
  cases h with
  | @inner _ _ _ parent names around hne hlt hparent houter hfind hhome hbound =>
    refine ⟨hne, hlt, ⟨names, rfl⟩, fun x hx => ?_⟩
    obtain ⟨l, hl⟩ := Option.isSome_iff_exists.mp (hhome x hx)
    exact ⟨l, hl, by rw [hfind, if_pos hx, hl]⟩

theorem Sees.grows (h : Sees store homes scopes f environment) (hg : Grows g store homes store' homes') :
    Sees store' homes' scopes f environment := by
  induction h with
  | top => exact .top
  | @inner scope outer f parent names around hne hlt hparent _ hfind hhome hbound ih =>
    refine .inner hne (Nat.lt_of_lt_of_le hlt hg.size) ((hg.parent f hlt).trans hparent) ih (fun x => ?_) (fun x hx => ?_)
      fun x hx => hg.bound f x (hbound x hx)
    · rw [hfind x]
      by_cases hx : scope.has x = true
      · obtain ⟨l, hl⟩ := Option.isSome_iff_exists.mp (hhome x hx)
        rw [if_pos hx, if_pos hx, hl, hg.home f x l hl]
      · rw [if_neg hx, if_neg hx]
    · obtain ⟨l, hl⟩ := Option.isSome_iff_exists.mp (hhome x hx)
      rw [hg.home f x l hl]
      rfl

theorem Stands.grows (h : Stands store homes scopes f environment) (hg : Grows g store homes store' homes') (hne : f ≠ g)
    (hroot : Store.globals < store.frames.size) : Stands store' homes' scopes f environment := by
  refine ⟨h.sees.grows hg, fun scope outer heq x hx => h.owns scope outer heq x ?_⟩
  rwa [hg.others f x (h.sees.lt hroot) hne] at hx

/-- A use whose name a scope has finds the frame of that scope at its distance, and the environment knows the name. -/
theorem Sees.at_distance (h : Sees store homes scopes f environment) {x : String} {d : Nat}
    (hd : scopes.findIdx? (·.has x) = some d) :
    ∃ g l scope, store.frameAt? d f = some g ∧ g ≠ Store.globals ∧ homes g x = some l ∧ environment.find? x = some l ∧
      scopes[d]? = some scope ∧ (scope.get? x = some true → (store.localValue? g x).isSome) := by
  -- One scope further out is one frame further out.
  induction h generalizing d with
  | top => cases hd
  | @inner scope outer f parent names around hne hlt hparent houter hfind hhome hbound ih =>
    rw [List.findIdx?_cons] at hd
    by_cases hx : scope.has x = true
    · rw [if_pos hx] at hd
      cases hd
      obtain ⟨l, hl⟩ := Option.isSome_iff_exists.mp (hhome x hx)
      exact ⟨f, l, scope, rfl, hne, hl, by rw [hfind, if_pos hx, hl], rfl, hbound x⟩
    · rw [if_neg hx] at hd
      obtain ⟨d', hd', rfl⟩ := Option.map_eq_some_iff.mp hd
      obtain ⟨g, l, scope', hframe, hg, hl, henv, hscope, hread⟩ := ih hd'
      refine ⟨g, l, scope', ?_, hg, hl, by rw [hfind, if_neg hx, henv], hscope, hread⟩
      rw [← hframe, Store.frameAt?, Store.ancestor?, Store.ascend, hparent]
      rfl

/-- A name that no scope has is not known to the environment. -/
theorem Sees.find?_eq_none (h : Sees store homes scopes f environment) {x : String}
    (hd : scopes.findIdx? (·.has x) = none) : environment.find? x = none := by
  induction h with
  | top => rfl
  | @inner scope outer f parent names around hne hlt hparent houter hfind hhome hbound ih =>
    rw [List.findIdx?_cons] at hd
    by_cases hx : scope.has x = true
    · rw [if_pos hx] at hd
      cases hd
    · rw [if_neg hx, Option.map_eq_none_iff] at hd
      rw [hfind, if_neg hx, ih hd]

end Frames

/-! ### Declarations -/

section Declarations
variable {store : Store} {homes : Homes} {cells : Array (Option Value)} {globals : Bindings Value} {scope : Scope}
  {outer : List Scope} {f : FrameId} {environment : Environment} {x : String} {v : Value} {l : Location}

theorem Stands.noHome (h : Stands store homes (scope :: outer) f environment) (hx : scope.has x = false) :
    homes f x = none := by
  cases hl : homes f x with
  | none => rfl
  | some l =>
    have hhas := h.owns scope outer rfl x (by rw [hl]; rfl)
    rw [hx] at hhas
    cases hhas

theorem Environment.find?_extend (names : List (String × Location)) (x y : String) (l : Location) :
    (Environment.inner ((x, l) :: names)).find? y = if y = x then some l else (Environment.inner names).find? y := by
  show List.lookup y ((x, l) :: names) = if y = x then some l else List.lookup y names
  by_cases h : y = x
  · rw [if_pos h, h, List.lookup_cons_self]
  · rw [if_neg h, List.lookup_cons, beq_false_of_ne h]

theorem Lexical.Environment.find?_extend_eq (e : Environment) (x y : String) (l : Location) :
    (e.extend x l).find? y = if y = x then some l else e.find? y := by
  cases e with
  | top => exact LoxLanguage.Environment.find?_extend [] x y l
  | inner names => exact LoxLanguage.Environment.find?_extend names x y l

theorem Lexical.Environment.find?_nest (e : Environment) (x : String) : e.nest.find? x = e.find? x := by
  cases e <;> rfl

/-- Behind the declaration of a name whose initializer is still to come. -/
theorem Stands.reserve (h : Stands store homes (scope :: outer) f environment) (hx : scope.has x = false) :
    Stands store (homes.set f x l) (scope.put x false :: outer) f (environment.extend x l) := by
  have hnone := h.noHome hx
  have howns := h.owns scope outer rfl
  cases h.sees with
  | @inner _ _ _ parent names around hne hlt hparent houter hfind hhome hbound =>
    refine ⟨.inner hne hlt hparent (houter.grows (grows_home hnone)) (fun y => ?_) (fun y hy => ?_) fun y hy => ?_, ?_⟩
    · rw [Environment.find?_extend, Bindings.has_put]
      by_cases hy : y = x
      · simp [hy, Homes.set_self]
      · simp [hy, hfind y, Homes.set_of_ne (.inr hy)]
    · rw [Bindings.has_put] at hy
      by_cases hyx : y = x
      · rw [hyx, Homes.set_self]
        rfl
      · rw [Homes.set_of_ne (.inr hyx)]
        exact hhome y (by simpa [hyx] using hy)
    · by_cases hyx : y = x
      · rw [hyx, Bindings.get?_put_self] at hy
        cases hy
      · rw [Bindings.get?_put_of_ne _ _ hyx] at hy
        exact hbound y hy
    · rintro _ _ heq y hy
      cases heq
      rw [Bindings.has_put]
      by_cases hyx : y = x
      · simp [hyx]
      · rw [Homes.set_of_ne (.inr hyx)] at hy
        simp [howns y hy]

/-- Behind the initializer of a name. -/
theorem Stands.settle (h : Stands store homes (scope :: outer) f environment) (hx : scope.has x = true) :
    Stands (store.define f x v) homes (scope.put x true :: outer) f environment := by
  have howns := h.owns scope outer rfl
  have hhas : ∀ y, (scope.put x true).has y = scope.has y := fun y => by
    rw [Bindings.has_put]
    by_cases hy : y = x
    · simp [hy, hx]
    · simp [hy]
  cases h.sees with
  | @inner _ _ _ parent names around hne hlt hparent houter hfind hhome hbound =>
    refine ⟨.inner hne ?_ ?_ (houter.grows (g := f) grows_define) (fun y => ?_) (fun y hy => ?_) fun y hy => ?_, ?_⟩
    · rwa [Store.size_define]
    · rw [Store.parent_define, hparent]
    · rw [hfind y, hhas]
    · exact hhome y (hhas y ▸ hy)
    · by_cases hyx : y = x
      · rw [hyx, Store.localValue?_define_self hlt]
        rfl
      · rw [Bindings.get?_put_of_ne _ _ hyx] at hy
        rw [Store.localValue?_define_of_ne (.inr hyx)]
        exact hbound y hy
    · rintro _ _ heq y hy
      cases heq
      rw [hhas]
      exact howns y hy

/-- Behind the declaration of a name that has its value at once. -/
theorem Stands.declare (h : Stands store homes (scope :: outer) f environment) (hx : scope.has x = false) :
    Stands (store.define f x v) (homes.set f x l) ((scope.put x false).put x true :: outer) f (environment.extend x l) :=
  (h.reserve hx).settle (by rw [Bindings.has_put]; simp)

theorem Stands.open {scopes : List Scope} (h : Sees store homes scopes f environment)
    (hheap : Heap homes store cells globals) :
    Stands (store.newFrame (some f) []) homes ([] :: scopes) store.frames.size environment.nest := by
  have hfind : ∀ x, environment.nest.find? x = environment.find? x := fun x => by cases environment <;> rfl
  obtain ⟨names, hnames⟩ : ∃ names, environment.nest = .inner names := by cases environment <;> exact ⟨_, rfl⟩
  refine ⟨?_, fun scope outer heq x hx => ?_⟩
  · rw [hnames]
    refine .inner (Nat.ne_of_gt hheap.root) ?_ ?_ (h.grows (g := f) grows_newFrame) (fun x => ?_) nofun nofun
    · rw [Store.size_newFrame]
      exact Nat.lt_succ_self _
    · rw [Store.frame_newFrame_self]
    · rw [← hnames, hfind]
      rfl
  · rw [hheap.fresh _ x (Nat.le_refl _)] at hx
    cases hx

end Declarations

end LoxLanguage
