import Mathlib
import LoxLanguage.Machine.Access
import LoxLanguage.Machine.Step
import LoxLanguage.Proofs.Lexical.Frames

/-! Shared frames act as one store. A frame may lie inside any frame made before it, and any number of frames inside the
same one. Which frame a name is taken from is said by `Innermost`, frame by frame along the chain of parents; an
assignment writes there, so it is seen from exactly those frames whose innermost binding is the same one.

The machine uses frames through the same operations (`Machine.eval_name`, `Machine.give_assign`). -/

namespace LoxLanguage

namespace Store

variable {s : Store} {e f g h p : FrameId} {x y : String} {d i j n : Nat} {v : Value}

/-! ### Forests -/

/-- The stores that come from any number of operations on frames, failed ones among them. A frame is made on its own or
    inside one that is there. -/
inductive Forest : Store → Prop where
  | empty : Forest empty
  | new {s : Store} (parent : Option FrameId) (h : Forest s) (hparent : ∀ p ∈ parent, p < s.frames.size) :
      Forest (s.newFrame parent [])
  | define {s : Store} (f : FrameId) (x : String) (v : Value) (h : Forest s) : Forest (s.define f x v)
  | assign {s : Store} (f : FrameId) (name : Token) (v : Value) (h : Forest s) : Forest ((Access.assign f name v).leaves s)
  | assignAt {s : Store} (distance : Nat) (f : FrameId) (name : Token) (v : Value) (h : Forest s) :
      Forest ((Access.assignAt distance f name v).leaves s)

/-- A parent was made before the frames inside it. -/
def Ordered (s : Store) : Prop :=
  ∀ f p, (s.frame f).parent = some p → p < f

theorem Ordered.define (hs : s.Ordered) : (s.define f x v).Ordered := fun g p hparent => by
  rw [parent_define] at hparent
  exact hs g p hparent

theorem Ordered.newFrame {parent : Option FrameId} {bindings : Bindings Value} (hs : s.Ordered)
    (hparent : ∀ p ∈ parent, p < s.frames.size) : (s.newFrame parent bindings).Ordered := fun g p hg => by
  by_cases heq : g = s.frames.size
  · subst heq
    rw [frame_newFrame_self] at hg
    exact hparent p hg
  · rw [frame_newFrame_of_ne heq] at hg
    exact hs g p hg

theorem leaves_assign (f : FrameId) (name : Token) (v : Value) (s : Store) :
    (Access.assign f name v).leaves s = s ∨ ∃ g, (Access.assign f name v).leaves s = s.define g name.lexeme v := by
  unfold Access.leaves Access.assign assign?
  cases s.holder? f name.lexeme with
  | none => exact .inl rfl
  | some g => exact .inr ⟨g, rfl⟩

theorem leaves_assignAt (d : Nat) (f : FrameId) (name : Token) (v : Value) (s : Store) :
    (Access.assignAt d f name v).leaves s = s ∨ ∃ g, (Access.assignAt d f name v).leaves s = s.define g name.lexeme v := by
  unfold Access.leaves Access.assignAt assignAt?
  cases s.frameAt? d f with
  | none => exact .inl rfl
  | some g => exact .inr ⟨g, rfl⟩

theorem Forest.ordered (hs : Forest s) : s.Ordered := by
  induction hs with
  | empty => exact fun f p hparent => by cases hparent
  | new parent _ hparent ih => exact ih.newFrame hparent
  | define f x v _ ih => exact ih.define
  | @assign s f name v _ ih =>
    rcases leaves_assign f name v s with heq | ⟨g, heq⟩
    · rwa [heq]
    · rw [heq]
      exact ih.define
  | @assignAt s d f name v _ ih =>
    rcases leaves_assignAt d f name v s with heq | ⟨g, heq⟩
    · rwa [heq]
    · rw [heq]
      exact ih.define

/-! ### Going outward -/

theorem ascend_add (s : Store) (i j : Nat) (place : Option FrameId) :
    s.ascend (i + j) place = (s.ascend i place).bind (s.ascend j) := by
  induction i generalizing place with
  | zero => rw [Nat.zero_add]; rfl
  | succ i ih =>
    rw [Nat.succ_add]
    cases place with
    | none => rfl
    | some f => exact ih (s.frame f).parent

/-- Going on from a frame on the way. -/
theorem ancestor?_add (h : s.ancestor? i e = some (some f)) (j : Nat) : s.ancestor? (i + j) e = s.ancestor? j f := by
  rw [ancestor?, ascend_add, ← ancestor?, h]
  rfl

/-- Where there is no frame, there is no way on. -/
theorem ancestor?_add_eq_none (h : ∀ f, s.ancestor? i e ≠ some (some f)) (hj : 0 < j) : s.ancestor? (i + j) e = none := by
  obtain ⟨j, rfl⟩ := Nat.exists_eq_succ_of_ne_zero (Nat.pos_iff_ne_zero.mp hj)
  rw [ancestor?, ascend_add, ← ancestor?]
  cases hplace : s.ancestor? i e with
  | none => rfl
  | some place =>
    cases place with
    | none => rfl
    | some f => exact absurd hplace (h f)

theorem ancestor?_succ (s : Store) (d : Nat) (f : FrameId) : s.ancestor? (d + 1) f = s.ascend d (s.frame f).parent := rfl

theorem ancestor?_define : (s.define f x v).ancestor? d e = s.ancestor? d e := by
  have hascend : ∀ place, (s.define f x v).ascend d place = s.ascend d place := by
    induction d with
    | zero => exact fun _ => rfl
    | succ d ih =>
      intro place
      cases place with
      | none => rfl
      | some g =>
        rw [ascend, ascend, parent_define]
        exact ih _
  exact hascend _

/-- Each frame outward has a smaller address. -/
theorem Ordered.distance_le (hs : s.Ordered) (h : s.ancestor? d f = some (some g)) : d + g ≤ f := by
  induction d generalizing f with
  | zero =>
    cases h
    exact Nat.le_of_eq (Nat.zero_add _)
  | succ d ih =>
    rw [ancestor?_succ] at h
    cases hparent : (s.frame f).parent with
    | none =>
      rw [hparent] at h
      cases d <;> cases h
    | some p =>
      rw [hparent] at h
      have hle : d + g ≤ p := ih h
      rw [Nat.succ_add]
      exact Nat.lt_of_le_of_lt hle (hs f p hparent)

/-! ### The innermost binding -/

theorem lt_of_bound (hbound : (s.localValue? f x).isSome) : f < s.frames.size := by
  by_contra hle
  rw [localValue?_of_le (Nat.le_of_not_lt hle)] at hbound
  cases hbound

/-- The frame `g` lies `d` frames outward from `f` and binds the name, and no frame on the way to it does. -/
structure Innermost (s : Store) (f : FrameId) (x : String) (d : Nat) (g : FrameId) : Prop where
  place : s.ancestor? d f = some (some g)
  bound : (s.localValue? g x).isSome
  nearer : ∀ i < d, ∀ h, s.ancestor? i f = some (some h) → s.localValue? h x = none

/-- A name is taken from the same frame, seen from two frames. -/
def SameBinding (s : Store) (f e : FrameId) (x : String) : Prop :=
  ∃ i j g, s.Innermost f x i g ∧ s.Innermost e x j g

namespace Innermost

theorem self (h : (s.localValue? f x).isSome) : s.Innermost f x 0 f :=
  ⟨rfl, h, fun _ hlt => absurd hlt (Nat.not_lt_zero _)⟩

/-- From one frame further in, which does not bind the name. -/
theorem inward (h : s.Innermost p x d g) (hparent : (s.frame f).parent = some p) (hunbound : s.localValue? f x = none) :
    s.Innermost f x (d + 1) g := by
  have hup : ∀ i, s.ancestor? (i + 1) f = s.ancestor? i p := fun i => by rw [ancestor?_succ, hparent]; rfl
  refine ⟨(hup d).trans h.place, h.bound, fun i hlt k hk => ?_⟩
  cases i with
  | zero =>
    cases hk
    exact hunbound
  | succ i => exact h.nearer i (Nat.lt_of_succ_lt_succ hlt) k ((hup i).symm.trans hk)

/-- From one frame further out. -/
theorem outward (h : s.Innermost f x (d + 1) g) :
    s.localValue? f x = none ∧ ∃ p, (s.frame f).parent = some p ∧ s.Innermost p x d g := by
  refine ⟨h.nearer 0 (Nat.succ_pos d) f rfl, ?_⟩
  have hplace := h.place
  rw [ancestor?_succ] at hplace
  cases hparent : (s.frame f).parent with
  | none =>
    rw [hparent] at hplace
    cases d <;> cases hplace
  | some p =>
    rw [hparent] at hplace
    refine ⟨p, rfl, hplace, h.bound, fun i hlt k hk => ?_⟩
    refine h.nearer (i + 1) (Nat.succ_lt_succ hlt) k ?_
    rw [ancestor?_succ, hparent]
    exact hk

theorem of_zero (h : s.Innermost f x 0 g) : g = f ∧ (s.localValue? f x).isSome := by
  obtain rfl : f = g := by
    have hplace := h.place
    cases hplace
    rfl
  exact ⟨rfl, h.bound⟩

/-- A definition of a name that the frame binds already moves no binding. -/
theorem define_iff (hbound : (s.localValue? h x).isSome) :
    (s.define h x v).Innermost f y d g ↔ s.Innermost f y d g := by
  have hsame : ∀ k, ((s.define h x v).localValue? k y).isSome = (s.localValue? k y).isSome := fun k => by
    by_cases heq : k = h ∧ y = x
    · obtain ⟨rfl, rfl⟩ := heq
      rw [localValue?_define_self (lt_of_bound hbound), hbound]
      rfl
    · rw [localValue?_define_of_ne (by tauto)]
  have hnone : ∀ k, (s.define h x v).localValue? k y = none ↔ s.localValue? k y = none := fun k => by
    rw [← Option.not_isSome_iff_eq_none, ← Option.not_isSome_iff_eq_none, hsame]
  constructor
  · rintro ⟨hplace, hbound, hnearer⟩
    refine ⟨ancestor?_define.symm.trans hplace, hsame g ▸ hbound, fun i hlt k hk => ?_⟩
    exact (hnone k).mp (hnearer i hlt k (ancestor?_define.trans hk))
  · rintro ⟨hplace, hbound, hnearer⟩
    refine ⟨ancestor?_define.trans hplace, (hsame g).symm ▸ hbound, fun i hlt k hk => ?_⟩
    exact (hnone k).mpr (hnearer i hlt k (ancestor?_define.symm.trans hk))

end Innermost

/-- The walk along the parents finds the innermost binding, if that is near enough. -/
theorem holderWithin_eq_some_iff : s.holderWithin n f x = some g ↔ ∃ d < n, s.Innermost f x d g := by
  induction n generalizing f with
  | zero => exact ⟨nofun, fun ⟨d, hlt, _⟩ => absurd hlt (Nat.not_lt_zero d)⟩
  | succ n ih =>
    rw [holderWithin]
    have hhas : (s.frame f).bindings.has x = (s.localValue? f x).isSome := rfl
    rw [hhas]
    by_cases hbound : (s.localValue? f x).isSome
    · rw [if_pos hbound]
      refine ⟨fun heq => ?_, fun ⟨d, _, hinner⟩ => ?_⟩
      · cases heq
        exact ⟨0, Nat.succ_pos n, .self hbound⟩
      · cases d with
        | zero => rw [hinner.of_zero.1]
        | succ d =>
          rw [hinner.outward.1] at hbound
          cases hbound
    · rw [if_neg hbound]
      have hunbound : s.localValue? f x = none := Option.not_isSome_iff_eq_none.mp hbound
      cases hparent : (s.frame f).parent with
      | none =>
        refine ⟨nofun, fun ⟨d, _, hinner⟩ => ?_⟩
        cases d with
        | zero => exact absurd hinner.of_zero.2 hbound
        | succ d =>
          obtain ⟨-, p, hp, -⟩ := hinner.outward
          cases hparent.symm.trans hp
      | some p =>
        refine ih.trans ⟨fun ⟨d, hlt, hinner⟩ => ?_, fun ⟨d, hlt, hinner⟩ => ?_⟩
        · exact ⟨d + 1, Nat.succ_lt_succ hlt, hinner.inward hparent hunbound⟩
        · cases d with
          | zero => exact absurd hinner.of_zero.2 hbound
          | succ d =>
            obtain ⟨-, p', hp, hinner⟩ := hinner.outward
            cases hparent.symm.trans hp
            exact ⟨d, Nat.lt_of_succ_lt_succ hlt, hinner⟩

/-- In a store whose parents are older than the frames inside them, every innermost binding is found. -/
theorem Ordered.holder?_eq_some_iff (hs : s.Ordered) : s.holder? f x = some g ↔ ∃ d, s.Innermost f x d g := by
  rw [holder?, holderWithin_eq_some_iff]
  refine ⟨fun ⟨d, _, hinner⟩ => ⟨d, hinner⟩, fun ⟨d, hinner⟩ => ⟨d, ?_, hinner⟩⟩
  exact Nat.lt_succ_of_le (Nat.le_trans (Nat.le_add_right d g) (hs.distance_le hinner.place))

theorem Ordered.sameBinding_iff (hs : s.Ordered) (h : s.holder? e x = some g) :
    s.SameBinding f e x ↔ s.holder? f x = some g := by
  constructor
  · rintro ⟨i, j, k, hi, hj⟩
    have hk := hs.holder?_eq_some_iff.mpr ⟨j, hj⟩
    cases h.symm.trans hk
    exact hs.holder?_eq_some_iff.mpr ⟨i, hi⟩
  · intro hf
    obtain ⟨i, hi⟩ := hs.holder?_eq_some_iff.mp hf
    obtain ⟨j, hj⟩ := hs.holder?_eq_some_iff.mp h
    exact ⟨i, j, g, hi, hj⟩

/-! ### Writing to the innermost binding -/

section Written
variable (hs : s.Ordered) (hholder : s.holder? e x = some h)
include hs hholder

theorem bound_of_holder? : (s.localValue? h x).isSome := by
  obtain ⟨d, hinner⟩ := hs.holder?_eq_some_iff.mp hholder
  exact hinner.bound

/-- Every name is still taken from the frame that it was taken from. -/
theorem holder?_written : (s.define h x v).holder? f y = s.holder? f y := by
  ext g
  rw [hs.define.holder?_eq_some_iff, hs.holder?_eq_some_iff]
  simp only [Innermost.define_iff (bound_of_holder? hs hholder)]

theorem lookup?_written_self (hf : s.holder? f x = some h) : (s.define h x v).lookup? f x = some v := by
  rw [lookup?, holder?_written hs hholder, hf]
  exact localValue?_define_self (lt_of_bound (bound_of_holder? hs hholder))

theorem lookup?_written_of_ne (hne : ¬ (y = x ∧ s.holder? f x = some h)) :
    (s.define h x v).lookup? f y = s.lookup? f y := by
  rw [lookup?, lookup?, holder?_written hs hholder]
  cases hf : s.holder? f y with
  | none => rfl
  | some g =>
    refine localValue?_define_of_ne ?_
    by_contra heq
    obtain ⟨rfl, rfl⟩ : g = h ∧ y = x := by tauto
    exact hne ⟨rfl, hf⟩

end Written

/-! ### Operations through tokens -/

section Operations
variable {name m : Token}

theorem get_of_holder? (hs : s.Ordered) (hholder : s.holder? f name.lexeme = some g) :
    ∃ u, s.localValue? g name.lexeme = some u ∧ Access.get f name s = .ok u s := by
  obtain ⟨u, hu⟩ := Option.isSome_iff_exists.mp (bound_of_holder? hs hholder)
  refine ⟨u, hu, ?_⟩
  unfold Access.get lookup?
  rw [hholder, Option.bind_some, hu]

theorem get_of_holder?_none (hholder : s.holder? f name.lexeme = none) :
    Access.get f name s = .error (.undefinedVariable name) s := by
  unfold Access.get lookup?
  rw [hholder]
  rfl

theorem assign_of_holder? (hholder : s.holder? f name.lexeme = some g) :
    Access.assign f name v s = .ok () (s.define g name.lexeme v) := by
  unfold Access.assign assign?
  rw [hholder]
  rfl

theorem assign_of_holder?_none (hholder : s.holder? f name.lexeme = none) :
    Access.assign f name v s = .error (.undefinedVariable name) s := by
  unfold Access.assign assign?
  rw [hholder]
  rfl

theorem answer_get_congr {s' : Store} (h : s'.lookup? f m.lexeme = s.lookup? f m.lexeme) :
    (Access.get f m).answer s' = (Access.get f m).answer s := by
  unfold Access.answer Access.get
  rw [h]
  cases s.lookup? f m.lexeme <;> rfl

/-- What is different after a value has been written to a name as it is seen from `e`: the value is seen from the frames
    that take the name from the same frame, and nothing else has changed. -/
structure Written (s : Store) (e : FrameId) (x : String) (v : Value) (s' : Store) : Prop where
  seen : ∀ f (m : Token), m.lexeme = x → s.SameBinding f e x → (Access.get f m).answer s' = .ok v
  unseen : ∀ f (m : Token), ¬ (m.lexeme = x ∧ s.SameBinding f e x) → (Access.get f m).answer s' = (Access.get f m).answer s
  size : s'.frames.size = s.frames.size
  parent : ∀ f, (s'.frame f).parent = (s.frame f).parent
  names : ∀ f, (s'.frame f).bindings.map Prod.fst = (s.frame f).bindings.map Prod.fst

theorem names_define (hbound : (s.localValue? h x).isSome) :
    ((s.define h x v).frame f).bindings.map Prod.fst = (s.frame f).bindings.map Prod.fst := by
  have hput : ∀ b : Bindings Value, b.has x = true → (b.put x v).map Prod.fst = b.map Prod.fst := by
    intro b
    induction b with
    | nil => nofun
    | cons entry rest ih =>
      intro hhas
      rw [Bindings.put]
      by_cases heq : entry.1 = x
      · rw [if_pos heq]
        rfl
      · rw [if_neg heq]
        have hrest : Bindings.has rest x = true := by
          rwa [Bindings.has, Bindings.get?_cons, if_neg (Ne.symm heq)] at hhas
        exact congrArg (entry.1 :: ·) (ih hrest)
  by_cases heq : f = h
  · subst heq
    rw [frame_define_self (lt_of_bound hbound)]
    exact hput _ hbound
  · rw [frame_define_of_ne heq]

theorem written_of_holder? (hs : s.Ordered) (hholder : s.holder? e x = some h) : s.Written e x v (s.define h x v) where
  seen f m hm hsame := by
    subst hm
    have hf := (hs.sameBinding_iff hholder).mp hsame
    unfold Access.answer Access.get
    rw [lookup?_written_self hs hholder hf]
  unseen f m hne := by
    refine answer_get_congr (lookup?_written_of_ne hs hholder ?_)
    rwa [← hs.sameBinding_iff hholder]
  size := size_define
  parent _ := parent_define
  names _ := names_define (bound_of_holder? hs hholder)

/-- At the distance of the innermost binding, the frame there is the one that the walk finds. -/
theorem Innermost.hops (hs : s.Ordered) (h : s.Innermost e name.lexeme d g) :
    Access.getAt d e name s = Access.get e name s ∧ Access.assignAt d e name v s = Access.assign e name v s := by
  have hholder := hs.holder?_eq_some_iff.mpr ⟨d, h⟩
  have hframe : s.frameAt? d e = some g := by rw [frameAt?, h.place]; rfl
  obtain ⟨u, hu, hget⟩ := get_of_holder? hs hholder
  constructor
  · rw [hget]
    unfold Access.getAt valueAt
    simp only [hframe, hu]
  · rw [assign_of_holder? hholder]
    unfold Access.assignAt assignAt?
    rw [hframe]
    rfl

/-- Shared frames act as one store. An assignment succeeds exactly if the name can be read, which is if it is bound in some
    frame outward; else both give the same error and leave the store as it was. The value is then seen from all frames
    with the same innermost binding and no other, and no frame has gained or lost a name. At the distance of the
    innermost binding, reading and assigning by distance are the same as by walking. Distances add up. -/
theorem frames_act_as_one_store (hs : Forest s) (e : FrameId) (name : Token) (v : Value) :
    ((∃ d g, s.Innermost e name.lexeme d g) ∧ (∃ u, Access.get e name s = .ok u s) ∧
          (∃ s', Access.assign e name v s = .ok () s') ∨
        (¬ ∃ d g, s.Innermost e name.lexeme d g) ∧ Access.get e name s = .error (.undefinedVariable name) s ∧
          Access.assign e name v s = .error (.undefinedVariable name) s) ∧
      (∀ s', Access.assign e name v s = .ok () s' → s.Written e name.lexeme v s') ∧
      (∀ d g, s.Innermost e name.lexeme d g →
        Access.getAt d e name s = Access.get e name s ∧ Access.assignAt d e name v s = Access.assign e name v s) ∧
      (∀ i j f, s.ancestor? i e = some (some f) → s.ancestor? (i + j) e = s.ancestor? j f) ∧
      ∀ i j, (∀ f, s.ancestor? i e ≠ some (some f)) → 0 < j → s.ancestor? (i + j) e = none := by
  have hordered := hs.ordered
  refine ⟨?_, fun s' hassign => ?_, fun d g hinner => hinner.hops hordered, fun i j f hplace => ancestor?_add hplace j,
    fun i j hplace hj => ancestor?_add_eq_none hplace hj⟩
  · cases hholder : s.holder? e name.lexeme with
    | none =>
      refine .inr ⟨fun ⟨d, g, hinner⟩ => ?_, get_of_holder?_none hholder, assign_of_holder?_none hholder⟩
      cases hholder.symm.trans (hordered.holder?_eq_some_iff.mpr ⟨d, hinner⟩)
    | some g =>
      obtain ⟨d, hinner⟩ := hordered.holder?_eq_some_iff.mp hholder
      obtain ⟨u, -, hget⟩ := get_of_holder? hordered hholder
      exact .inl ⟨⟨d, g, hinner⟩, ⟨u, hget⟩, _, assign_of_holder? hholder⟩
  · cases hholder : s.holder? e name.lexeme with
    | none =>
      rw [assign_of_holder?_none hholder] at hassign
      cases hassign
    | some g =>
      rw [assign_of_holder? hholder] at hassign
      cases hassign
      exact written_of_holder? hordered hholder

/-- A frame that binds `x`, two frames inside it, and one inside the first of these that binds `x` again. -/
def siblings : Store :=
  ((((empty.newFrame none []).define 0 "x" (.bool true)).newFrame (some 0) []).newFrame (some 0) []).newFrame (some 1) []
    |>.define 3 "x" .nil

/-- What is assigned through the first of the two frames is read through the second, by walking and at distance one, and
    not through the frame that binds the name again. -/
theorem frames_act_as_one_store_siblings :
    Forest siblings ∧
      (let x : Token := ⟨.identifier, "x", .nil, 1⟩
      ∃ s', Access.assign 1 x (.bool false) siblings = .ok () s' ∧ (Access.get 2 x).answer s' = .ok (.bool false) ∧
        (Access.get 3 x).answer s' = .ok .nil ∧ Access.getAt 1 2 x siblings = .ok (.bool true) siblings) := by
  have hroot : Forest ((empty.newFrame none []).define 0 "x" (.bool true)) := .define _ _ _ (.new none .empty nofun)
  have hforest : Forest siblings := by
    refine .define _ _ _ (.new (some 1) (.new (some 0) (.new (some 0) hroot ?_) ?_) ?_)
    all_goals
      intro p hp
      cases hp
      decide
  refine ⟨hforest, _, rfl, ?_⟩
  have hinner : ∀ f ∈ [1, 2], siblings.Innermost f "x" 1 0 := by
    intro f hf
    have hf : f = 1 ∨ f = 2 := by simpa using hf
    refine ⟨?_, by decide, fun i hi k hk => ?_⟩
    · rcases hf with rfl | rfl <;> rfl
    · obtain rfl := Nat.lt_one_iff.mp hi
      cases hk
      rcases hf with rfl | rfl <;> rfl
  obtain ⟨-, hwritten, -⟩ := frames_act_as_one_store hforest 1 ⟨.identifier, "x", .nil, 1⟩ (.bool false)
  obtain ⟨-, -, hhops, -⟩ := frames_act_as_one_store hforest 2 ⟨.identifier, "x", .nil, 1⟩ .nil
  have hafter := hwritten _ rfl
  refine ⟨hafter.seen 2 _ rfl ⟨1, 1, 0, hinner 2 (by simp), hinner 1 (by simp)⟩, ?_, ?_⟩
  · refine (hafter.unseen 3 _ fun ⟨_, i, j, g, hi, hj⟩ => ?_).trans rfl
    have hordered := hforest.ordered
    have hthird := hordered.holder?_eq_some_iff.mpr ⟨i, hi⟩
    have hfirst := hordered.holder?_eq_some_iff.mpr ⟨j, hj⟩
    cases hthird
    cases hfirst
  · exact (hhops 1 0 (hinner 2 (by simp))).1.trans rfl

end Operations

end Store

/-! ### Frames in the machine -/

/-- The operation that reads a name at a site: at the distance that is noted there, or from the globals. -/
def Setting.reading (setting : Setting) (site : Site) (current : FrameId) (name : Token) : Access Value :=
  match setting.distances.get? site with
  | some distance => .getAt distance current name
  | none => .get Store.globals name

/-- The operation that assigns to a name at a site. -/
def Setting.writing (setting : Setting) (site : Site) (current : FrameId) (name : Token) (v : Value) : Access Unit :=
  match setting.distances.get? site with
  | some distance => .assignAt distance current name v
  | none => .assign Store.globals name v

variable {s : State} {setting : Setting} {site : Site} {name : Token} {v : Value}

/-- What a state reads is what the operation answers, and that leaves the store as it is. -/
theorem State.reading_eq :
    setting.reading site s.current name s.store =
      match s.read setting site name with
      | .ok v => .ok v s.store
      | .error fault => .error fault s.store := by
  unfold State.read Setting.reading
  cases setting.distances.get? site with
  | none =>
    dsimp only [Access.get]
    cases s.store.lookup? Store.globals name.lexeme <;> rfl
  | some distance =>
    dsimp only [Access.getAt]
    cases s.store.valueAt distance s.current name.lexeme with
    | ok v => rfl
    | error error => cases error <;> rfl

/-- An assignment finds its frame where the operation writes, and fails where that fails. -/
theorem State.writing_eq :
    setting.writing site s.current name v s.store =
      match s.target setting site name with
      | .ok f => .ok () (s.store.define f name.lexeme v)
      | .error fault => .error fault s.store := by
  unfold State.target Setting.writing
  cases setting.distances.get? site with
  | none =>
    dsimp only [Access.assign, Store.assign?]
    cases s.store.holder? Store.globals name.lexeme <;> rfl
  | some distance =>
    dsimp only [Access.assignAt, Store.assignAt?]
    cases s.store.frameAt? distance s.current <;> rfl

/-- The machine reads a variable, and `this`, by the operation for its site. -/
theorem Machine.eval_name {e : Expr} (he : e = .use site name ∨ e = .this site name) (below : ExprStack FrameId) :
    Machine.eval setting below s e =
      match setting.reading site s.current name s.store with
      | .ok v store => ⟨.give v below, { s with store }⟩
      | .error fault store => ⟨.failExpr fault below, { s with store }⟩ := by
  rw [State.reading_eq]
  rcases he with rfl | rfl <;> rw [Machine.eval] <;> cases s.read setting site name <;> rfl

/-- The machine assigns to a variable by the operation for its site. -/
theorem Machine.give_assign (below : ExprStack FrameId) :
    Machine.give setting v s (.assign site name below) =
      match setting.writing site s.current name v s.store with
      | .ok _ store => ⟨.give v below, { s with store }⟩
      | .error fault store => ⟨.failExpr fault below, { s with store }⟩ := by
  rw [State.writing_eq, Machine.give]
  cases s.target setting site name <;> rfl

end LoxLanguage
