import LoxLanguage.Store.Basic

/-! Frames after the elementary updates of a store: a new frame leaves the others as they are, and a definition
changes one name of one frame and no parent. -/

namespace LoxLanguage.Store

variable {s : Store} {f g : FrameId} {parent : Option FrameId} {bindings : Bindings Value} {x y : String} {v : Value}

theorem size_newFrame : (s.newFrame parent bindings).frames.size = s.frames.size + 1 :=
  Array.size_push _

@[simp]
theorem size_define : (s.define f x v).frames.size = s.frames.size :=
  Array.size_modify

theorem frame_of_le (h : s.frames.size ≤ f) : s.frame f = default := by
  rw [frame, Array.getD_eq_getD_getElem?, Array.getElem?_eq_none h]
  rfl

theorem frame_newFrame_self : (s.newFrame parent bindings).frame s.frames.size = ⟨bindings, parent⟩ := by
  rw [frame, newFrame, Array.getD_eq_getD_getElem?, Array.getElem?_push_size]
  rfl

theorem frame_newFrame_of_ne (h : f ≠ s.frames.size) : (s.newFrame parent bindings).frame f = s.frame f := by
  rw [frame, frame, newFrame, Array.getD_eq_getD_getElem?, Array.getD_eq_getD_getElem?, Array.getElem?_push, if_neg h]

theorem frame_define_of_ne (h : g ≠ f) : (s.define f x v).frame g = s.frame g := by
  rw [frame, frame, define, Array.getD_eq_getD_getElem?, Array.getD_eq_getD_getElem?, Array.getElem?_modify,
    if_neg (Ne.symm h)]

theorem frame_define_self (h : f < s.frames.size) :
    (s.define f x v).frame f = { s.frame f with bindings := (s.frame f).bindings.put x v } := by
  rw [frame, frame, define, Array.getD_eq_getD_getElem?, Array.getD_eq_getD_getElem?, Array.getElem?_modify, if_pos rfl,
    Array.getElem?_eq_getElem h]
  rfl

theorem parent_define : ((s.define f x v).frame g).parent = (s.frame g).parent := by
  by_cases hg : g = f
  · by_cases hlt : f < s.frames.size
    · rw [hg, frame_define_self hlt]
    · rw [hg, frame_of_le (Nat.le_of_not_lt hlt), frame_of_le]
      rw [size_define]
      exact Nat.le_of_not_lt hlt
  · rw [frame_define_of_ne hg]

theorem localValue?_define_self (h : f < s.frames.size) : (s.define f x v).localValue? f x = some v := by
  rw [localValue?, frame_define_self h, Bindings.get?_put_self]

theorem localValue?_define_of_ne (h : g ≠ f ∨ y ≠ x) : (s.define f x v).localValue? g y = s.localValue? g y := by
  unfold localValue?
  by_cases hg : g = f
  · subst hg
    by_cases hlt : g < s.frames.size
    · rw [frame_define_self hlt, Bindings.get?_put_of_ne _ _ (h.resolve_left (absurd rfl))]
    · have hle := Nat.le_of_not_lt hlt
      have hle' : (s.define g x v).frames.size ≤ g := by rwa [size_define]
      rw [frame_of_le hle, frame_of_le hle']
  · rw [frame_define_of_ne hg]

theorem localValue?_newFrame_of_ne (h : f ≠ s.frames.size) :
    (s.newFrame parent bindings).localValue? f x = s.localValue? f x := by
  rw [localValue?, localValue?, frame_newFrame_of_ne h]

theorem localValue?_of_le (h : s.frames.size ≤ f) : s.localValue? f x = none := by
  rw [localValue?, frame_of_le h]
  rfl

/-- A frame with one more name is a frame in which the name is defined afterwards. -/
theorem newFrame_put : s.newFrame parent (bindings.put x v) = (s.newFrame parent bindings).define s.frames.size x v := by
  unfold newFrame define
  congr 1
  apply Array.ext_getElem?
  intro i
  simp only [Array.getElem?_modify, Array.getElem?_push]
  by_cases hi : i = s.frames.size
  · simp [hi]
  · simp [hi, Ne.symm hi]

/-! ### Globals -/

theorem holder?_globals : s.holder? globals x = if (s.frame globals).bindings.has x then some globals else none := by
  unfold holder? holderWithin
  split
  · rfl
  · split <;> rfl

theorem lookup?_globals : s.lookup? globals x = (s.frame globals).bindings.get? x := by
  rw [lookup?, holder?_globals]
  unfold Bindings.has
  cases h : (s.frame globals).bindings.get? x with
  | none => rfl
  | some v => exact h

end LoxLanguage.Store
