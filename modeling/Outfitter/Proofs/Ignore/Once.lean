import Outfitter.Proofs.Disk.Reach
import Outfitter.Proofs.Ignore

/-! # Entries are added once

An entry that no line of the ignore file holds is added as its last line, after all that was there.
The next time it is found, and nothing changes.
-/

namespace Outfitter.Files

open Disk Action

variable {d d' : Disk} {root : Path} {place : List String} {text entry : String} {comment : Option String}

/-! ## What is run -/

theorem ensureIgnored_eq_addLine (h : ignored d root = .ok text) :
    (ensureIgnored root entry comment).on d = (addLine root entry comment text).on d := by
  rw [ensureIgnored_eq, on_bind_ask]
  rw [ignored] at h
  split at h
  · next hthere => rw [if_pos hthere, on_bind_ok (on_fetch_ok h)]
  · next haway =>
    rw [if_neg haway]
    cases h
    rfl

theorem ensureIgnored_of_mentions (h : ignored d root = .ok text) (hm : mentions text entry = true) :
    (ensureIgnored root entry comment).on d = (.ok false, d) := by
  rw [ensureIgnored_eq_addLine h, addLine, if_pos hm]
  rfl

theorem ensureIgnored_of_append (h : ignored d root = .ok text) (hm : mentions text entry = false)
    (ha : d.append (Layout.ignoreFile root) (addedLine text entry comment).toUTF8 = .ok d') :
    (ensureIgnored root entry comment).on d = (.ok true, d') := by
  rw [ensureIgnored_eq_addLine h, addLine, if_neg (by rw [hm]; exact Bool.false_ne_true), on_bind_ok (on_change_ok ha)]
  rfl

theorem mentions_eq_false_iff : mentions text entry = false ↔ ∀ line ∈ Text.lines text, Text.trimEnd line ≠ entry := by
  simp [mentions]

/-- The text with an entry begins with the text, line by line too, and ends with the entry. -/
theorem addedLine_extends (text : String) (comment : Option String) (hline : '\n' ∉ entry.toList)
    (hend : ∀ c ∈ entry.toList.getLast?, Text.isBlank c = false) :
    let text' := text ++ addedLine text entry comment
    text.toList <+: text'.toList ∧ (Text.lines text).map Text.trimEnd <+: (Text.lines text').map Text.trimEnd ∧
      (Text.lines text').getLast? = some entry ∧ text'.toList.getLast? = some '\n' := by
  intro text'
  obtain ⟨between, hlines⟩ := lines_addedLine text comment hline hend
  obtain ⟨before, -, heq⟩ := addedLine_eq text entry comment
  refine ⟨?_, ?_, ?_, ?_⟩
  · rw [String.toList_append]
    exact List.prefix_append _ _
  · rw [hlines, List.append_assoc, List.map_append, trimmed_lines_gap]
    exact List.prefix_append _ _
  · rw [hlines, List.getLast?_concat]
  · simp [text', heq]

/-! ## The file -/

/-- The ignore file is a regular file with a text; or it is not there, and the text is empty. -/
def Holds (d : Disk) (root : Path) (text : String) : Prop :=
  (∃ place mode t, d.locate false (Layout.ignoreFile root) = .ok (.there place (.file text.toUTF8 mode t))) ∨
    (∀ place n, d.locate false (Layout.ignoreFile root) ≠ .ok (.there place n)) ∧ text = ""

/-- The ignore file, if there is one, may be read, and written if an entry is to be added. -/
def Serves (d : Disk) (root : Path) (adds : Bool) : Prop :=
  ∀ place c mode t, d.locate false (Layout.ignoreFile root) = .ok (.there place (.file c mode t)) →
    isReadable mode = true ∧ (adds = true → isWritable mode = true)

section Entries

variable (e : Entry d (Layout.ignoreFile root) place Layout.ignoreName)

include e

theorem Holds.at? (h : Holds d root text) :
    (∃ mode t, d.top.at? (place ++ [Layout.ignoreName]) = some (.file text.toUTF8 mode t)) ∨
      d.top.at? (place ++ [Layout.ignoreName]) = none ∧ text = "" := by
  rcases h with ⟨spot, mode, t, hfile⟩ | ⟨hnone, rfl⟩
  · cases hat : d.top.at? (place ++ [Layout.ignoreName]) with
    | none =>
      rw [e.locate_vacant hat] at hfile
      cases hfile
    | some n =>
      rw [e.locate_self hat] at hfile
      cases hfile
      exact Or.inl ⟨mode, t, rfl⟩
  · refine Or.inr ⟨?_, rfl⟩
    rw [Option.eq_none_iff_forall_ne_some]
    exact fun n hn => hnone _ _ (e.locate_self hn)

theorem ignored_of_at? {mode : Nat} {t : Stamp}
    (hat : d.top.at? (place ++ [Layout.ignoreName]) = some (.file text.toUTF8 mode t)) (hr : isReadable mode = true) :
    ignored d root = .ok text := by
  have hfind := find_ok_iff.mpr (e.locate_there hat (by simp))
  rw [ignored, isThere, hfind]
  exact e.readText hat hr

theorem ignored_of_holds (h : Holds d root text) (hs : Serves d root false) : ignored d root = .ok text := by
  rcases h.at? e with ⟨mode, t, hat⟩ | ⟨hat, rfl⟩
  · exact ignored_of_at? e hat (hs _ _ _ _ (e.locate_there hat (by simp))).1
  · rw [ignored, isThere, Disk.find, e.locate_vacant hat]
    rfl

/-- What is appended comes after the text of the file, and nothing else changes. -/
theorem append_of_holds (h : Holds d root text) (hs : Serves d root true) (line : String) :
    ∃ d' mode, d.append (Layout.ignoreFile root) line.toUTF8 = .ok d' ∧ isReadable mode = true ∧
      Refiles (place ++ [Layout.ignoreName]) (text ++ line).toUTF8 mode d d' := by
  have htoUTF8 : (text ++ line).toUTF8 = text.toUTF8 ++ line.toUTF8 := String.toByteArray_append
  rw [htoUTF8]
  rcases h.at? e with ⟨mode, t, hat⟩ | ⟨hat, rfl⟩
  · obtain ⟨hr, hw⟩ := hs _ _ _ _ (e.locate_there hat (by simp))
    have hloc : d.locate true (Layout.ignoreFile root) = .ok (.there (place ++ [Layout.ignoreName]) _) :=
      e.locate_there hat (by simp)
    exact ⟨_, mode, edit_of_file hloc (hw rfl), hr, refiles_update hloc⟩
  · have hloc : d.locate true (Layout.ignoreFile root) = .ok (.vacant place Layout.ignoreName) := e.locate_vacant hat
    exact ⟨_, defaultMode, edit_of_vacant hloc e.ends, by decide, refiles_put hloc⟩

end Entries

/-- An entry is added to the ignore file iff no line holds it yet: as the last of its lines, after all
that was there, and never on a line with something else. A second call finds it and changes nothing. -/
theorem ensureIgnored_adds_entry_once (d : Disk) (root : Path) (text entry : String) (comment : Option String)
    (hroot : d.isDir root = true) (ht : takes (Layout.ignoreFile root) = true) (hfile : Holds d root text)
    (hs : Serves d root (!mentions text entry)) (hline : '\n' ∉ entry.toList)
    (hend : ∀ c ∈ entry.toList.getLast?, Text.isBlank c = false) :
    ∃ added d', (ensureIgnored root entry comment).on d = (.ok added, d') ∧
      (added = true ↔ ∀ line ∈ Text.lines text, Text.trimEnd line ≠ entry) ∧
      (added = false → d' = d) ∧
      (added = true → ∃ place text', Differs place d d' ∧ d'.readText (Layout.ignoreFile root) = .ok text' ∧
        text.toList <+: text'.toList ∧
        (Text.lines text).map Text.trimEnd <+: (Text.lines text').map Text.trimEnd ∧
        (Text.lines text').getLast? = some entry ∧ text'.toList.getLast? = some '\n') ∧
      ∀ again clock, (ensureIgnored root entry again).on { d' with clock } = (.ok false, { d' with clock }) := by
  obtain ⟨place, hr⟩ := reaches_of_isDir hroot
  have e : Entry d (Layout.ignoreFile root) place Layout.ignoreName := hr.entry_join (by decide) (by decide) ht
  have hreads : Serves d root false := fun _ _ _ _ h => ⟨(hs _ _ _ _ h).1, fun h => by cases h⟩
  have htext := ignored_of_holds e hfile hreads
  cases hm : mentions text entry with
  | true =>
    have hold : ¬ ∀ line ∈ Text.lines text, Text.trimEnd line ≠ entry := by
      rw [← mentions_eq_false_iff, hm]
      exact Bool.noConfusion
    refine ⟨false, d, ensureIgnored_of_mentions htext hm, by simp [hold], fun _ => rfl, by simp, fun again clock => ?_⟩
    exact ensureIgnored_of_mentions (d := { d with clock }) htext hm
  | false =>
    rw [hm] at hs
    obtain ⟨d', mode, happend, hmode, hfiles⟩ := append_of_holds e hfile hs (addedLine text entry comment)
    have e' := e.agrees hfiles.agrees
    have htext' := ignored_of_at? e' hfiles.file hmode
    have hm' := mentions_addedLine text comment hline hend
    refine ⟨true, d', ensureIgnored_of_append htext hm happend, by simpa using mentions_eq_false_iff.mp hm, by simp,
      fun _ => ⟨_, _, hfiles.differs, e'.readText hfiles.file hmode, addedLine_extends text comment hline hend⟩,
      fun again clock => ?_⟩
    exact ensureIgnored_of_mentions (d := { d' with clock }) htext' hm'

/-- A project whose ignore file has an open last line. -/
def unfinished (mode : Nat) : Disk :=
  ⟨.dir ⟨0, false⟩ [(".gitignore", .file "build \r\ntarget".toUTF8 mode ⟨0, false⟩)], [], 7⟩

theorem unfinished_gains_entry :
    let root := Path.ofText "/"
    let d := unfinished 0o640
    Holds d root "build \r\ntarget" ∧ Serves d root true ∧
      ∃ d', (ensureIgnored root ".pilot/" none).on d = (.ok true, d') ∧
        (∃ text', d'.readText (Layout.ignoreFile root) = .ok text' ∧ (Text.lines text').getLast? = some ".pilot/") ∧
        (ensureIgnored root ".pilot/" (some "plans")).on d' = (.ok false, d') := by
  intro root d
  have hlocate : d.locate false (Layout.ignoreFile root) =
      .ok (.there [".gitignore"] (.file "build \r\ntarget".toUTF8 0o640 ⟨0, false⟩)) := rfl
  have hfile : Holds d root "build \r\ntarget" := Or.inl ⟨_, _, _, hlocate⟩
  have hserves : Serves d root true := by
    intro place c mode t h
    rw [hlocate] at h
    cases h
    decide
  have hm : mentions "build \r\ntarget" ".pilot/" = false := by decide
  have hend : ∀ c ∈ ".pilot/".toList.getLast?, Text.isBlank c = false := by
    rintro c ⟨⟩
    rfl
  obtain ⟨added, d', hrun, hadded, -, hnew, hagain⟩ := ensureIgnored_adds_entry_once d root _ ".pilot/" none (by decide)
    (by decide) hfile (by rw [hm]; exact hserves) (by decide) hend
  obtain rfl : added = true := hadded.mpr (mentions_eq_false_iff.mp hm)
  obtain ⟨_, text', -, hread, -, -, hlast, -⟩ := hnew rfl
  exact ⟨hfile, hserves, d', hrun, ⟨text', hread, hlast⟩, hagain (some "plans") d'.clock⟩

/-- A root that is spelled at such length that its ignore file has no path the system takes. -/
def farRoot : Path := ⟨"" :: List.replicate 2046 "."⟩

/-- An ignore file that may not be written, or whose path is too long, gains no entry. -/
theorem strict_files_gain_no_entry :
    (Holds (unfinished 0o444) (Path.ofText "/") "build \r\ntarget" ∧
      ((ensureIgnored (Path.ofText "/") ".pilot/" none).on (unfinished 0o444)).1.isOk = false) ∧
    let d : Disk := ⟨.dir ⟨0, false⟩ [], [], 7⟩
    d.isDir farRoot = true ∧ Holds d farRoot "" ∧ ((ensureIgnored farRoot ".pilot/" none).on d).1.isOk = false := by
  have hlong : takes (Layout.ignoreFile farRoot) = false := by decide +kernel
  obtain ⟨e, he⟩ := locate_of_not_takes hlong
  refine ⟨⟨Or.inl ⟨_, _, _, rfl⟩, by decide +kernel⟩, by decide +kernel, Or.inr ⟨?_, rfl⟩, by decide +kernel⟩
  simp [he]

end Outfitter.Files
