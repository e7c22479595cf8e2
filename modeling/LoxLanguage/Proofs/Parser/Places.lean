import LoxLanguage.Proofs.Parser.Reading

/-! Places of complaints. A parser complains only at tokens of its row: at the next one, or at one that it has taken.
`Keeps` says this of a parser that reads single tokens or recovers, together with what holds of its result. Such a
parser gives no site to a use. -/

namespace LoxLanguage

/-- A token of a kind, out of some. -/
def Token.IsFrom (tokens : List Token) (kind : Token.Kind) (t : Token) : Prop :=
  t ∈ tokens ∧ t.kind = kind

namespace Parser

open Token (Kind)

/-- The tokens read, those that are left and those complained about are among some tokens, and the next use gets the
    site `n`. -/
structure State.Among (tokens : List Token) (n : Site) (s : State) : Prop where
  before : ∀ t ∈ s.before, t ∈ tokens
  rest : ∀ t ∈ s.rest, t ∈ tokens
  problems : ∀ t complaint, .atToken t complaint ∈ s.problems → t ∈ tokens
  site : s.nextSite = n

/-- The state stays among the tokens, and a result is a good one. -/
def Keeps {α : Type} (tokens : List Token) (n : Site) (p : Parser α) (good : α → Prop) : Prop :=
  ∀ s, s.Among tokens n →
    match p s with
    | .ok a s' => s'.Among tokens n ∧ good a
    | .error _ s' => s'.Among tokens n

section Keeps
variable {α β : Type} {tokens : List Token} {n : Site} {p : Parser α} {f : α → Parser β} {good : α → Prop} {goodB : β → Prop}

theorem Keeps.pure {a : α} (h : good a) : Keeps tokens n (pure a) good :=
  fun _ hs => ⟨hs, h⟩

theorem Keeps.stop (stop : Stop) : Keeps tokens n (throw stop : Parser α) good :=
  fun _ hs => hs

theorem Keeps.bind (hp : Keeps tokens n p good) (hf : ∀ a, good a → Keeps tokens n (f a) goodB) :
    Keeps tokens n (p >>= f) goodB := by
  intro s hs
  have hfirst := hp s hs
  rw [bind_eq]
  cases heq : p s with
  | ok a s' =>
    rw [heq] at hfirst
    exact hf a hfirst.2 s' hfirst.1
  | error stop s' =>
    rw [heq] at hfirst
    exact hfirst

theorem Keeps.mono {good' : α → Prop} (hp : Keeps tokens n p good) (h : ∀ a, good a → good' a) :
    Keeps tokens n p good' := by
  intro s hs
  have hrun := hp s hs
  split at hrun
  · exact ⟨hrun.1, h _ hrun.2⟩
  · exact hrun

theorem Keeps.map {g : α → β} (hp : Keeps tokens n p good) : Keeps tokens n (g <$> p) fun _ => True :=
  hp.bind (f := fun a => Pure.pure (g a)) fun _ _ => .pure trivial

end Keeps

/-! ### Single tokens -/

section Single
variable {tokens : List Token} {n : Site} {kind : Kind} {test : Kind → Bool} {complaint : Complaint}

theorem peek_keeps : Keeps tokens n peek (· ∈ tokens) := by
  intro s hs
  unfold peek
  cases hrest : s.rest with
  | nil => exact hs
  | cons t rest => exact ⟨hs, hs.rest t (by simp [hrest])⟩

theorem previous_keeps : Keeps tokens n previous (· ∈ tokens) := by
  intro s hs
  unfold previous
  cases hbefore : s.before with
  | nil => exact hs
  | cons t earlier => exact ⟨hs, hs.before t (by simp [hbefore])⟩

theorem atEnd_keeps : Keeps tokens n atEnd fun _ => True :=
  peek_keeps.bind fun _ _ => .pure trivial

theorem check_keeps : Keeps tokens n (check kind) fun _ => True := by
  refine atEnd_keeps.bind fun ended _ => ?_
  cases ended with
  | true => exact .pure trivial
  | false => exact peek_keeps.bind fun _ _ => .pure trivial

theorem State.Among.next {s : State} (h : s.Among tokens n) : s.next.Among tokens n := by
  unfold State.next
  split
  · rename_i t rest hrest
    have hall := h.rest
    rw [hrest] at hall
    obtain ⟨ht, hlater⟩ := List.forall_mem_cons.mp hall
    exact ⟨List.forall_mem_cons.mpr ⟨ht, h.before⟩, hlater, h.problems, h.site⟩
  · exact h

theorem move_keeps : Keeps tokens n move fun _ => True := by
  refine atEnd_keeps.bind fun ended _ => ?_
  cases ended with
  | true => exact .pure trivial
  | false => exact fun s hs => ⟨hs.next, trivial⟩

theorem advance_keeps : Keeps tokens n advance (· ∈ tokens) :=
  move_keeps.bind fun _ _ => previous_keeps

theorem acceptIf_keeps : Keeps tokens n (acceptIf test) fun o => ∀ t ∈ o, t ∈ tokens ∧ test t.kind = true := by
  intro s hs
  cases hrest : s.rest with
  | nil =>
    have hpeek : peek s = .error .outside s := by rw [peek, hrest]
    have hend : atEnd s = .error .outside s := by rw [atEnd, bind_eq, hpeek]
    rw [acceptIf, bind_eq, hend]
    exact hs
  | cons t rest =>
    by_cases hkind : t.kind ≠ .eof ∧ test t.kind = true
    · rw [acceptIf_pos hrest hkind.1 hkind.2]
      refine ⟨hs.next, fun u hu => ?_⟩
      cases Option.mem_some.mp hu
      exact ⟨hs.rest t (by simp [hrest]), hkind.2⟩
    · rw [acceptIf_neg hrest (by grind)]
      exact ⟨hs, fun t ht => by cases ht⟩

theorem accept_keeps : Keeps tokens n (accept kind) fun o => ∀ t ∈ o, t.IsFrom tokens kind := by
  have haccept : Keeps tokens n (acceptIf (· == kind)) fun o => ∀ t ∈ o, t ∈ tokens ∧ (t.kind == kind) = true :=
    acceptIf_keeps
  refine haccept.mono fun o ho t ht => ?_
  obtain ⟨hmem, hkind⟩ := ho t ht
  exact ⟨hmem, eq_of_beq hkind⟩

theorem complain_keeps {t : Token} (ht : t ∈ tokens) : Keeps tokens n (complain t complaint) fun _ => True := by
  intro s hs
  refine ⟨⟨hs.before, hs.rest, fun u other hmem => ?_, hs.site⟩, trivial⟩
  rcases Array.mem_push.mp hmem with hmem | heq
  · exact hs.problems u other hmem
  · cases heq
    exact ht

theorem complainIfFull_keeps {count : Nat} : Keeps tokens n (complainIfFull count complaint) fun _ => True := by
  unfold complainIfFull
  split
  · exact peek_keeps.bind fun _ ht => complain_keeps ht
  · exact .pure trivial

theorem fail_keeps {α : Type} {good : α → Prop} : Keeps tokens n (fail complaint : Parser α) good :=
  peek_keeps.bind fun _ ht => (complain_keeps ht).bind fun _ _ => .stop _

theorem expect_keeps : Keeps tokens n (expect kind complaint) (·.IsFrom tokens kind) := by
  refine accept_keeps.bind fun o ho => ?_
  cases o with
  | some t => exact .pure (ho t rfl)
  | none => exact fail_keeps

end Single

/-! ### Recovery -/

section Recovery
variable {tokens : List Token} {n : Site}

theorem skipFrom_among : ∀ {rest before : List Token}, (∀ t ∈ before, t ∈ tokens) → (∀ t ∈ rest, t ∈ tokens) →
    ∀ {before' rest'}, skipFrom before rest = .ok (before', rest') →
      (∀ t ∈ before', t ∈ tokens) ∧ ∀ t ∈ rest', t ∈ tokens := by
  intro rest before
  fun_induction skipFrom before rest with
  | case1 => intro _ _ _ _ h; cases h
  | case2 => intro hb hr _ _ h; cases h; exact ⟨hb, hr⟩
  | case3 => intro _ _ _ _ h; cases h
  | case4 => intro hb hr _ _ h; cases h; exact ⟨hb, hr⟩
  | case5 t rest _ last earlier _ ih =>
    intro hb hr
    obtain ⟨ht, hr⟩ := List.forall_mem_cons.mp hr
    exact ih (List.forall_mem_cons.mpr ⟨ht, hb⟩) hr

theorem skip_keeps : Keeps tokens n skip fun _ => True := by
  intro s hs
  unfold skip
  cases hskip : skipFrom s.before s.rest with
  | ok found =>
    obtain ⟨hbefore, hrest⟩ := skipFrom_among hs.before hs.rest hskip
    exact ⟨⟨hbefore, hrest, hs.problems, hs.site⟩, trivial⟩
  | error stop => exact hs

theorem skipOffending_keeps : Keeps tokens n skipOffending fun _ => True := by
  refine peek_keeps.bind fun t _ => ?_
  split
  · exact .pure trivial
  · exact advance_keeps.map

theorem synchronize_keeps : Keeps tokens n synchronize fun _ => True :=
  skipOffending_keeps.bind fun _ _ => skip_keeps

end Recovery

end Parser

end LoxLanguage
