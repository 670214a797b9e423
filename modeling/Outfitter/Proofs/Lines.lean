import Mathlib.Data.List.Basic
import Mathlib.Tactic.Common
import Outfitter.Text.Blank

/-! # Lines

Where a text ends in a line feed, or is empty, what is appended to it adds lines of its own and
leaves the lines before as they are. A last line that no line feed ends stays, up to blanks, when
one is put after it.
-/

namespace Outfitter.Text

variable {s a b line : String} {cs : List Char}

/-- The text ends where a line ends. -/
def isClosed (s : String) : Bool := s.isEmpty || s.toList.getLast? = some '\n'

theorem isClosed_iff : isClosed s = true ↔ s = "" ∨ ∃ a, s = a ++ "\n" := by
  rw [isClosed, Bool.or_eq_true, String.isEmpty_iff, decide_eq_true_iff, List.getLast?_eq_some_iff]
  refine or_congr_right ⟨?_, ?_⟩
  · rintro ⟨cs, hcs⟩
    exact ⟨String.ofList cs, String.toList_injective (by simp [hcs])⟩
  · rintro ⟨a, rfl⟩
    exact ⟨a.toList, by simp⟩

/-! ## Lines that are put together -/

theorem closeLines_append (pieces : List (List Char)) {more : List (List Char)} (hm : more ≠ []) :
    closeLines (pieces ++ more) = pieces.map dropReturn ++ closeLines more := by
  induction pieces with
  | nil => rfl
  | cons piece pieces ih =>
    have hne : pieces ++ more ≠ [] := List.append_ne_nil_of_right_ne_nil _ hm
    obtain ⟨x, xs, hx⟩ := List.exists_cons_of_ne_nil hne
    rw [List.cons_append, List.map_cons, List.cons_append, ← ih, hx, closeLines]
    exact List.cons_ne_nil x xs

theorem lines_newline (a b : String) :
    lines (a ++ "\n" ++ b) = ((a.toList.splitOn '\n').map dropReturn).map String.ofList ++ lines b := by
  have hlist : (a ++ "\n" ++ b).toList = a.toList ++ '\n' :: b.toList := by simp
  rw [lines, hlist, List.splitOn_append_cons_self, closeLines_append _ (List.splitOn_ne_nil '\n' _), List.map_append]
  rfl

theorem lines_empty : lines "" = [] := rfl

theorem lines_closed (a : String) :
    lines (a ++ "\n") = ((a.toList.splitOn '\n').map dropReturn).map String.ofList := by
  simpa only [String.append_empty, lines_empty, List.append_nil] using lines_newline a ""

theorem lines_append (ha : isClosed a = true) (b : String) : lines (a ++ b) = lines a ++ lines b := by
  rcases isClosed_iff.mp ha with rfl | ⟨c, rfl⟩
  · rw [lines_empty, String.empty_append, List.nil_append]
  · rw [lines_newline, lines_closed]

/-- A line on its own. -/
theorem lines_of_line (hline : '\n' ∉ line.toList) (hr : line.toList.getLast? ≠ some '\r') :
    lines (line ++ "\n") = [line] := by
  rw [lines_closed, List.splitOn_eq_singleton hline]
  simp [dropReturn, hr]

/-! ## Blanks at the end of a line -/

theorem dropBlankEnd_concat {c : Char} (hc : isBlank c = true) : dropBlankEnd (cs ++ [c]) = dropBlankEnd cs := by
  simp [dropBlankEnd, hc]

theorem dropBlankEnd_dropReturn (cs : List Char) : dropBlankEnd (dropReturn cs) = dropBlankEnd cs := by
  unfold dropReturn
  split
  · next h =>
    obtain ⟨init, rfl⟩ := List.getLast?_eq_some_iff.mp h
    rw [List.dropLast_concat, dropBlankEnd_concat (by decide)]
  · rfl

theorem trimEnd_of_last (h : ∀ c ∈ s.toList.getLast?, isBlank c = false) : trimEnd s = s := by
  rw [← List.head?_reverse] at h
  have hkeep : s.toList.reverse.dropWhile isBlank = s.toList.reverse := by
    cases hs : s.toList.reverse with
    | nil => rfl
    | cons c cs =>
      rw [hs] at h
      rw [List.dropWhile_cons, h c rfl, if_neg Bool.false_ne_true]
  rw [trimEnd, dropBlankEnd, hkeep, List.reverse_reverse, String.ofList_toList]

/-- The last piece of a text follows its last line feed. -/
theorem splitOn_concat (cs : List Char) :
    ∃ init last, cs.splitOn '\n' = init ++ [last] ∧ (cs = last ∨ ∃ before, cs = before ++ '\n' :: last) := by
  by_cases h : '\n' ∈ cs
  · obtain ⟨last, before, hcs, hlast⟩ := List.eq_append_cons_of_mem (List.mem_reverse.mpr h)
    have hpiece : '\n' ∉ last.reverse := by simpa using hlast
    have hsplit : cs = before.reverse ++ '\n' :: last.reverse := by
      rw [← List.reverse_reverse cs, hcs]
      simp
    refine ⟨before.reverse.splitOn '\n', last.reverse, ?_, Or.inr ⟨_, hsplit⟩⟩
    rw [hsplit, List.splitOn_append_cons_self, List.splitOn_eq_singleton hpiece]
  · exact ⟨[], cs, List.splitOn_eq_singleton h, Or.inl rfl⟩

/-- A line feed after an open last line changes the lines by blanks at most. -/
theorem trimmed_lines_newline (h : isClosed s = false) :
    (lines (s ++ "\n")).map trimEnd = (lines s).map trimEnd := by
  obtain ⟨init, last, hsplit, hlast⟩ := splitOn_concat s.toList
  have hne : last ≠ [] := by
    rintro rfl
    rw [Bool.eq_false_iff, ne_eq, isClosed_iff, not_or] at h
    rcases hlast with hempty | ⟨before, hbefore⟩
    · exact h.1 (String.toList_injective hempty)
    · exact h.2 ⟨String.ofList before, String.toList_injective (by simp [hbefore])⟩
  rw [lines_closed, lines, hsplit, closeLines_append _ (List.cons_ne_nil _ _)]
  simp [closeLines, hne, trimEnd, dropBlankEnd_dropReturn]

end Outfitter.Text
