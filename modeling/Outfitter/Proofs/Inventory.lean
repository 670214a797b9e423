import Outfitter.Inventory
import Outfitter.Proofs.Path

/-! # Ownership by segments

Ownership is tested on characters: an entry is followed by a slash, or comes after one. For texts
that are cut at slashes this says that the segments of the entry stand whole at one of the ends.
-/

namespace Outfitter.Inventory

variable {owned dest : String}

theorem slashed_prefix_iff : owned.toList ++ ['/'] <+: dest.toList ↔ ∃ r, dest = owned ++ "/" ++ r := by
  constructor
  · rintro ⟨cs, hcs⟩
    refine ⟨String.ofList cs, String.toList_injective ?_⟩
    rw [← hcs]
    simp
  · rintro ⟨r, rfl⟩
    exact ⟨r.toList, by simp⟩

theorem slashed_suffix_iff : '/' :: owned.toList <:+ dest.toList ↔ ∃ r, dest = r ++ "/" ++ owned := by
  constructor
  · rintro ⟨cs, hcs⟩
    refine ⟨String.ofList cs, String.toList_injective ?_⟩
    rw [← hcs]
    simp
  · rintro ⟨r, rfl⟩
    exact ⟨r.toList, by simp⟩

/-- One entry owns what has its segments at the beginning or at the end. -/
theorem owns_iff_segments :
    owns owned dest = true ↔ splitSlash owned <+: splitSlash dest ∨ splitSlash owned <:+ splitSlash dest := by
  simp only [owns, Bool.or_eq_true, beq_iff_eq, List.isPrefixOf_iff_prefix, List.isSuffixOf_iff_suffix,
    slashed_prefix_iff, slashed_suffix_iff]
  constructor
  · rintro ((rfl | ⟨r, rfl⟩) | ⟨r, rfl⟩)
    · exact Or.inl (List.prefix_refl _)
    · rw [Path.splitSlash_append]
      exact Or.inl (List.prefix_append _ _)
    · rw [Path.splitSlash_append]
      exact Or.inr (List.suffix_append _ _)
  · rintro (h | h)
    · exact Or.inl (Path.append_of_splitSlash h)
    · rcases Path.append_of_splitSlash_suffix h with rfl | hr
      · exact Or.inl (Or.inl rfl)
      · exact Or.inr hr

/-- A path belongs to the user iff the segments of an entry are its first or its last ones. So each
segment of the entry is a whole segment of the path, and all that lies below an entry is owned. -/
theorem ownership_goes_by_segments (dest : String) :
    (isUserOwned dest = true ↔
      ∃ e ∈ userFiles, splitSlash e <+: splitSlash dest ∨ splitSlash e <:+ splitSlash dest) ∧
    (isUserOwned dest = true → ∃ e ∈ userFiles, ∀ s ∈ splitSlash e, s ∈ splitSlash dest) ∧
    ∀ e ∈ userFiles, ∀ below : String, isUserOwned (e ++ "/" ++ below) = true := by
  have howned (dest : String) : isUserOwned dest = true ↔
      ∃ e ∈ userFiles, splitSlash e <+: splitSlash dest ∨ splitSlash e <:+ splitSlash dest := by
    simp only [isUserOwned, List.any_eq_true, owns_iff_segments]
  refine ⟨howned dest, fun h => ?_, fun e he below => (howned _).mpr ⟨e, he, Or.inl ?_⟩⟩
  · obtain ⟨e, he, hends⟩ := (howned dest).mp h
    exact ⟨e, he, fun s hs => hends.elim (·.subset hs) (·.subset hs)⟩
  · rw [Path.splitSlash_append]
    exact List.prefix_append _ _

theorem segments_decide_ownership :
    isUserOwned "docs//CLAUDE.md" = true ∧ isUserOwned ".claude/local/" = true ∧
      isUserOwned "docs/MYCLAUDE.md" = false ∧ isUserOwned ".claude/localized.md" = false := by
  refine ⟨(ownership_goes_by_segments _).1.mpr ⟨"CLAUDE.md", by decide, Or.inr (by decide)⟩,
    (ownership_goes_by_segments "").2.2 ".claude/local" (by decide) "", ?_, ?_⟩
  · refine Bool.eq_false_iff.mpr fun h => ?_
    exact absurd ((ownership_goes_by_segments _).2.1 h) (by decide)
  · refine Bool.eq_false_iff.mpr fun h => ?_
    exact absurd ((ownership_goes_by_segments _).1.mp h) (by decide)

end Outfitter.Inventory
