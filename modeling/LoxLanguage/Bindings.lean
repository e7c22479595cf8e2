/-! Names bound to something, in the order in which they were first bound. Binding a name again changes
what it is bound to and not its place. -/

namespace LoxLanguage

/-- Names with what they are bound to, each name once. -/
abbrev Bindings (α : Type) := List (String × α)

namespace Bindings

variable {α : Type}

/-- What a name is bound to. -/
def get? (b : Bindings α) (name : String) : Option α :=
  b.lookup name

/-- Whether a name is bound. -/
def has (b : Bindings α) (name : String) : Bool :=
  (get? b name).isSome

/-- Binds a name: in its place if it is bound, else behind all others. -/
def put : Bindings α → String → α → Bindings α
  | [], name, a => [(name, a)]
  | (other, old) :: rest, name, a =>
    if other = name then (other, a) :: rest else (other, old) :: put rest name a

@[simp]
theorem get?_nil (name : String) : get? ([] : Bindings α) name = none := rfl

theorem get?_cons (entry : String × α) (b : Bindings α) (name : String) :
    get? (entry :: b) name = if name = entry.1 then some entry.2 else get? b name := by
  obtain ⟨other, a⟩ := entry
  by_cases h : name = other
  · simp [get?, h]
  · simp [get?, List.lookup_cons, h, beq_eq_false_iff_ne.mpr h]

/-- What was bound last is found. -/
@[simp]
theorem get?_put_self (b : Bindings α) (name : String) (a : α) : get? (put b name a) name = some a := by
  induction b with
  | nil => simp [put, get?_cons]
  | cons entry rest ih =>
    by_cases h : entry.1 = name
    · simp [put, get?_cons, h]
    · simp [put, get?_cons, h, Ne.symm h, ih]

/-- Binding a name leaves the others as they are. -/
theorem get?_put_of_ne (b : Bindings α) {name other : String} (a : α) (h : other ≠ name) :
    get? (put b name a) other = get? b other := by
  induction b with
  | nil => simp [put, get?_cons, h]
  | cons entry rest ih =>
    by_cases he : entry.1 = name
    · simp [put, get?_cons, he, h]
    · simp [put, get?_cons, he, ih]

/-- The names after a binding are the one that was bound and those before. -/
theorem has_put (b : Bindings α) (name other : String) (a : α) :
    has (put b name a) other = (decide (other = name) || has b other) := by
  unfold has
  by_cases h : other = name
  · simp [h]
  · simp [h, get?_put_of_ne _ _ h]

end Bindings

end LoxLanguage
