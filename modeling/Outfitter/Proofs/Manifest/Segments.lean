import Mathlib.Data.List.Forall2
import Outfitter.Proofs.Manifest.Curated

/-! # Patterns segment by segment

A pattern is matched against a whole text, and each star may take as much of it as it likes, short
of a slash. For a pattern of characters and single stars this comes to the same as matching segment
by segment: the pattern and the text have the same number of segments, and each of the text stands
under its counterpart.
-/

namespace Outfitter

namespace Glob

/-- A text stands under a pattern: a star for any characters but slashes, all else for itself. -/
inductive Stands : List Char → List Char → Prop
  | nil : Stands [] []
  | char {c : Char} {pattern text : List Char} (hc : c ≠ '*') (h : Stands pattern text) :
      Stands (c :: pattern) (c :: text)
  | star {pattern text : List Char} (taken : List Char) (htaken : '/' ∉ taken) (h : Stands pattern text) :
      Stands ('*' :: pattern) (taken ++ text)

variable {x cs : List Char} {items : List Item}

theorem stands_nil_iff : Stands [] cs ↔ cs = [] :=
  ⟨fun h => by cases h; rfl, fun h => h ▸ .nil⟩

theorem stands_star_iff : Stands ('*' :: x) cs ↔ ∃ a b, cs = a ++ b ∧ '/' ∉ a ∧ Stands x b := by
  constructor
  · intro h
    cases h with
    | char hc _ => exact absurd rfl hc
    | star taken htaken h => exact ⟨taken, _, rfl, htaken, h⟩
  · rintro ⟨a, b, rfl, ha, h⟩
    exact .star a ha h

theorem stands_char_iff {c : Char} (hc : c ≠ '*') : Stands (c :: x) cs ↔ ∃ more, cs = c :: more ∧ Stands x more := by
  constructor
  · intro h
    cases h with
    | char _ h => exact ⟨_, rfl, h⟩
    | star => exact absurd rfl hc
  · rintro ⟨more, rfl, h⟩
    exact .char hc h

/-- The items of a part of a pattern without slashes take a beginning of the text, as far as a slash
at most; the rest is left to what follows. -/
theorem denotes_segment (hx : '/' ∉ x) :
    Denotes (x.map itemOf ++ items) cs ↔ ∃ a b, cs = a ++ b ∧ '/' ∉ a ∧ Stands x a ∧ Denotes items b := by
  induction x generalizing cs with
  | nil => simp [stands_nil_iff]
  | cons c x ih =>
    rw [List.mem_cons, not_or] at hx
    rw [List.map_cons, List.cons_append]
    by_cases hc : c = '*'
    · subst hc
      rw [itemOf, if_pos rfl, Denotes]
      simp only [ih hx.2, stands_star_iff]
      constructor
      · rintro ⟨s, _, rfl, hs, a, b, rfl, ha, hstands, hb⟩
        refine ⟨s ++ a, b, (List.append_assoc ..).symm, ?_, ⟨s, a, rfl, hs, hstands⟩, hb⟩
        exact fun h => (List.mem_append.mp h).elim hs ha
      · rintro ⟨_, b, rfl, ha, ⟨s, a, rfl, hs, hstands⟩, hb⟩
        rw [List.mem_append, not_or] at ha
        exact ⟨s, a ++ b, List.append_assoc .., hs, a, b, rfl, ha.2, hstands, hb⟩
    · rw [itemOf, if_neg hc, Denotes]
      simp only [ih hx.2, stands_char_iff hc]
      constructor
      · rintro ⟨_, rfl, a, b, rfl, ha, hstands, hb⟩
        refine ⟨c :: a, b, rfl, ?_, ⟨a, rfl, hstands⟩, hb⟩
        exact fun h => (List.mem_cons.mp h).elim hx.1 ha
      · rintro ⟨_, b, rfl, ha, ⟨a, rfl, hstands⟩, hb⟩
        rw [List.mem_cons, not_or] at ha
        exact ⟨a ++ b, rfl, a, b, rfl, ha.2, hstands, hb⟩

/-- A text is one segment, or its first segment ends at a slash. -/
theorem splitOn_slash_cases (cs : List Char) :
    ('/' ∉ cs ∧ cs.splitOn '/' = [cs]) ∨
      ∃ a b, cs = a ++ '/' :: b ∧ '/' ∉ a ∧ cs.splitOn '/' = a :: b.splitOn '/' := by
  by_cases h : '/' ∈ cs
  · obtain ⟨a, b, rfl, ha⟩ := List.eq_append_cons_of_mem h
    exact Or.inr ⟨a, b, rfl, ha, List.splitOn_append_cons_self_of_not_mem ha b⟩
  · exact Or.inl ⟨h, List.splitOn_eq_singleton h⟩

/-- A pattern that is cut at its slashes stands for the texts whose segments, one by one, stand under
its own. -/
theorem denotes_segments {segments : List (List Char)} (hne : segments ≠ []) (hs : ∀ x ∈ segments, '/' ∉ x) :
    Denotes ((['/'].intercalate segments).map itemOf) cs ↔ List.Forall₂ Stands segments (cs.splitOn '/') := by
  induction segments generalizing cs with
  | nil => exact absurd rfl hne
  | cons x rest ih =>
    obtain ⟨hx, hrest⟩ := List.forall_mem_cons.mp hs
    cases rest with
    | nil =>
      rw [List.intercalate_singleton, ← List.append_nil (x.map itemOf), denotes_segment hx]
      constructor
      · rintro ⟨a, _, rfl, ha, hstands, rfl⟩
        rw [List.append_nil, List.splitOn_eq_singleton ha]
        exact .cons hstands .nil
      · intro h
        obtain ⟨hslash, hsplit⟩ | ⟨a, b, -, -, hsplit⟩ := splitOn_slash_cases cs
        · rw [hsplit, List.forall₂_cons] at h
          exact ⟨cs, [], (List.append_nil cs).symm, hslash, h.1, rfl⟩
        · rw [hsplit, List.forall₂_cons, List.forall₂_nil_left_iff] at h
          exact absurd h.2 (List.splitOn_ne_nil '/' b)
    | cons y rest =>
      have ih {b : List Char} : _ ↔ List.Forall₂ Stands (y :: rest) (b.splitOn '/') :=
        ih (List.cons_ne_nil y rest) hrest
      rw [List.intercalate_cons_cons, List.append_assoc, List.map_append, denotes_segment hx]
      constructor
      · rintro ⟨a, _, rfl, ha, hstands, more, rfl, hmore⟩
        rw [List.splitOn_append_cons_self_of_not_mem ha]
        exact .cons hstands (ih.mp hmore)
      · intro h
        obtain ⟨-, hsplit⟩ | ⟨a, b, rfl, ha, hsplit⟩ := splitOn_slash_cases cs
        · rw [hsplit, List.forall₂_cons, List.forall₂_nil_right_iff] at h
          cases h.2
        · rw [hsplit, List.forall₂_cons, ← ih] at h
          exact ⟨a, '/' :: b, rfl, ha, h.1, b, rfl, h.2⟩

end Glob

namespace Manifest

open Glob

/-- A manifest of one pattern of characters and single stars includes exactly the texts that have as
many segments as the pattern, each under its counterpart; so no star goes past a slash. -/
theorem includes_iff_segments_stand (pattern path : String) (hs : ∀ c ∈ pattern.toList, isSimple c = true)
    (hspaced : isSpaced pattern.toList = true) :
    (ofTexts [pattern] [] []).includes path = true ↔
      List.Forall₂ (fun part segment => Stands part.toList segment.toList) (splitSlash pattern)
        (splitSlash (normalize path)) := by
  have hslash : ∀ x ∈ pattern.toList.splitOn '/', '/' ∉ x := by
    intro x hx
    simpa using Path.slash_of_mem_splitSlash (List.mem_map_of_mem (f := String.ofList) hx)
  have hincludes : (ofTexts [pattern] [] []).includes path = (Matcher.ofText pattern).accepts (normalize path) := by
    simp [ofTexts, includes]
  have hwhole : Denotes (pattern.toList.map itemOf) (normalize path).toList ↔ _ :=
    List.intercalate_splitOn '/' ▸ denotes_segments (List.splitOn_ne_nil '/' pattern.toList) hslash
  rw [hincludes, Matcher.accepts_simple hs hspaced, hwhole, splitSlash, splitSlash, List.forall₂_map_left_iff,
    List.forall₂_map_right_iff]
  simp only [String.toList_ofList]

theorem single_star_stays_in_segment :
    let agents := ofTexts [".claude/agents/*.md"] [] []
    agents.includes "./.claude/agents/coder.md" = true ∧ agents.includes ".claude/agents/nested/coder.md" = false := by
  have hself {x : List Char} (hx : '*' ∉ x) : Stands x x := by
    induction x with
    | nil => exact .nil
    | cons c x ih =>
      rw [List.mem_cons, not_or] at hx
      exact .char (Ne.symm hx.1) (ih hx.2)
  have hpattern : splitSlash ".claude/agents/*.md" = [".claude", "agents", "*.md"] := by decide
  have hcoder : splitSlash (normalize "./.claude/agents/coder.md") = [".claude", "agents", "coder.md"] := by decide
  have hsimple : ∀ c ∈ ".claude/agents/*.md".toList, isSimple c = true := List.all_eq_true.mp (by decide)
  refine ⟨(includes_iff_segments_stand _ _ hsimple (by decide)).mpr ?_, Bool.eq_false_iff.mpr fun h => ?_⟩
  · rw [hpattern, hcoder]
    refine .cons (hself (by decide)) (.cons (hself (by decide)) (.cons ?_ .nil))
    exact Stands.star "coder".toList (by decide) (hself (x := ".md".toList) (by decide))
  · have hlength := ((includes_iff_segments_stand _ _ hsimple (by decide)).mp h).length_eq
    exact absurd hlength (by decide)

end Manifest

end Outfitter
