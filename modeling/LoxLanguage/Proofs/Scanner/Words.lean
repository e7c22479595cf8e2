import LoxLanguage.Proofs.Scanner.Pieces
import LoxLanguage.Proofs.Scope.Sites

/-! Names and keywords of a scanned text. A word that is a keyword is never read as a name, so no variable is called
`this`; and the only end mark is the one behind all other tokens. -/

namespace LoxLanguage

open Token (Kind)

namespace Lexeme

theorem mem_keywords {word : String} {kind : Kind} (h : keywords.lookup word = some kind) : (word, kind) ∈ keywords := by
  obtain ⟨before, after, heq, -⟩ := List.lookup_eq_some_iff.mp h
  rw [heq]
  exact List.mem_append_right _ List.mem_cons_self

/-- What a piece of text with a given kind may be. -/
def Reads (kind : Kind) (text : List Char) : Prop :=
  kind ≠ .eof ∧ (kind = .thisWord → String.ofList text = "this") ∧ (kind = .identifier → String.ofList text ≠ "this")

theorem reads_wordKind (word : List Char) : Reads (wordKind word) word := by
  have hkeywords : ∀ p ∈ keywords, p.2 ≠ .eof ∧ p.2 ≠ .identifier ∧ (p.2 = .thisWord → p.1 = "this") := by decide
  unfold Reads wordKind
  cases h : keywords.lookup (String.ofList word) with
  | none =>
    refine ⟨nofun, nofun, fun _ heq => ?_⟩
    rw [heq] at h
    exact absurd h (by decide)
  | some kind =>
    obtain ⟨heof, hname, hthis⟩ := hkeywords _ (mem_keywords h)
    exact ⟨heof, hthis, fun heq => absurd heq hname⟩

theorem reads_single? {c : Char} {kind : Kind} (h : single? c = some kind) (text : List Char) : Reads kind text := by
  unfold single? at h
  split at h <;> cases h <;> exact ⟨nofun, nofun, nofun⟩

theorem reads_double? {c : Char} {long short : Kind} (h : double? c = some (long, short)) (text : List Char) :
    Reads long text ∧ Reads short text := by
  unfold double? at h
  split at h <;> cases h <;> exact ⟨⟨nofun, nofun, nofun⟩, nofun, nofun, nofun⟩

end Lexeme

namespace Piece

/-- A piece whose kind says what it is. -/
def Sound : Piece → Prop
  | .token kind text => Lexeme.Reads kind text
  | _ => True

theorem sound_cutNumber (c : Char) (rest : List Char) : (cutNumber c rest).1.Sound := by
  exact ⟨nofun, nofun, nofun⟩

theorem sound_cutString (rest : List Char) : (cutString rest).1.Sound := by
  unfold cutString
  split
  · exact ⟨nofun, nofun, nofun⟩
  · trivial

theorem sound_cutSlash (rest : List Char) : (cutSlash rest).1.Sound := by
  unfold cutSlash
  split
  · trivial
  · exact ⟨nofun, nofun, nofun⟩

theorem sound_cut (c : Char) (rest : List Char) : (cut c rest).1.Sound := by
  unfold cut
  split
  · rename_i h
    exact Lexeme.reads_single? h [c]
  · split
    · rename_i h
      split
      · exact (Lexeme.reads_double? h _).1
      · exact (Lexeme.reads_double? h _).2
    · split
      · exact sound_cutSlash rest
      · split
        · trivial
        · split
          · exact sound_cutString rest
          · split
            · exact sound_cutNumber c rest
            · split
              · exact Lexeme.reads_wordKind _
              · trivial

theorem sound_cutAll {fuel : Nat} {text : List Char} {found : Array Piece} (h : ∀ piece ∈ found, piece.Sound) :
    ∀ piece ∈ cutAll fuel text found, piece.Sound := by
  induction fuel generalizing text found with
  | zero => exact h
  | succ fuel ih =>
    cases text with
    | nil => exact h
    | cons c rest =>
      refine ih fun piece hpiece => ?_
      rcases Array.mem_push.mp hpiece with hpiece | rfl
      · exact h piece hpiece
      · exact sound_cut c rest

end Piece

namespace Scan

/-- The tokens found so far: no end mark, and `this` only as the keyword. -/
def Sound (s : Scan) : Prop :=
  ∀ t ∈ s.tokens, t.kind ≠ .eof ∧ t.Regular

theorem sound_add {s : Scan} {piece : Piece} (h : s.Sound) (hpiece : piece.Sound) : (s.add piece).Sound := by
  cases piece with
  | token kind text =>
    intro t ht
    rcases Array.mem_push.mp ht with ht | rfl
    · exact h t ht
    · exact hpiece
  | _ => exact h

theorem sound_foldl {pieces : List Piece} {s : Scan} (h : s.Sound) (hpieces : ∀ piece ∈ pieces, piece.Sound) :
    (pieces.foldl add s).Sound := by
  induction pieces generalizing s with
  | nil => exact h
  | cons piece rest ih =>
    obtain ⟨hpiece, hrest⟩ := List.forall_mem_cons.mp hpieces
    exact ih (sound_add h hpiece) hrest

end Scan

/-- The tokens of a text: what stands in it, then the end mark. -/
theorem scan_tokens (source : String) :
    ∃ body eof, (scan source).1 = body ++ [eof] ∧ eof.kind = .eof ∧ ∀ t ∈ body, t.kind ≠ .eof ∧ t.Regular := by
  have hpieces : ∀ piece ∈ (Piece.ofText source.toList).toList, piece.Sound := by
    intro piece hpiece
    refine Piece.sound_cutAll ?_ piece (Array.mem_toList_iff.mp hpiece)
    simp
  have hstart : Scan.start.Sound := by simp [Scan.Sound, Scan.start]
  rw [scan_eq]
  refine ⟨_, _, Array.toList_push, rfl, fun t ht => ?_⟩
  rw [← Array.foldl_toList] at ht
  exact Scan.sound_foldl hstart hpieces t (Array.mem_toList_iff.mp ht)

end LoxLanguage
