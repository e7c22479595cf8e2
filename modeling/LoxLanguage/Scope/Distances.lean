import LoxLanguage.Tree.Basic

/-! The table of distances that a running program uses: for each site at most one distance. Sites are
numbered in order, so the table is a row with a place for each site up to the last one that has a distance. -/

namespace LoxLanguage

/-- Distances by site. -/
structure Distances where
  row : Array (Option Nat)

namespace Distances

/-- No distances. -/
def empty : Distances := ⟨#[]⟩

/-- The distance of a site. -/
def get? (t : Distances) (site : Site) : Option Nat :=
  (t.row[site]?).join

/-- Notes the distance of a site. -/
def insert (t : Distances) (site : Site) (distance : Nat) : Distances :=
  if site < t.row.size then ⟨t.row.setIfInBounds site (some distance)⟩
  else ⟨(t.row ++ Array.replicate (site - t.row.size) none).push (some distance)⟩

@[simp]
theorem get?_empty (site : Site) : empty.get? site = none := by
  simp [empty, get?]

theorem size_padded (t : Distances) {site : Site} (h : ¬ site < t.row.size) :
    (t.row ++ Array.replicate (site - t.row.size) none).size = site := by
  rw [Array.size_append, Array.size_replicate]
  exact Nat.add_sub_cancel' (Nat.le_of_not_lt h)

/-- The distance noted last is found. -/
@[simp]
theorem get?_insert_self (t : Distances) (site : Site) (distance : Nat) :
    (t.insert site distance).get? site = some distance := by
  unfold insert get?
  split
  · rename_i h
    simp [h]
  · rename_i h
    rw [Array.getElem?_push, size_padded t h, if_pos rfl]
    rfl

/-- Noting a distance leaves the other sites as they are. -/
theorem get?_insert_of_ne (t : Distances) {site other : Site} (distance : Nat) (h : other ≠ site) :
    (t.insert site distance).get? other = t.get? other := by
  unfold insert get?
  split
  · simp [Ne.symm h]
  · rename_i hsite
    rw [Array.getElem?_push, size_padded t hsite, if_neg h, Array.getElem?_append]
    split
    · rfl
    · rename_i hother
      rw [Array.getElem?_replicate, Array.getElem?_eq_none (Nat.le_of_not_lt hother)]
      split <;> rfl

/-- Notes many distances, the later ones last. -/
def insertAll (t : Distances) (entries : List (Site × Nat)) : Distances :=
  entries.foldl (fun t e => t.insert e.1 e.2) t

end Distances

end LoxLanguage
