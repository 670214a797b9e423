import Outfitter.Proofs.Disk.Retain
import Outfitter.Proofs.Files
import Outfitter.Proofs.Layout
import Outfitter.Proofs.Lines

/-! # Ignored entries

A line that was added to an ignore file is found there the next time, so it is added once. Where
it could not be added, it cannot be added later, unless the file changes.
-/

namespace Outfitter

namespace Files

open Disk Action

variable {d a b : Disk} {root : Path} {text entry : String} {comment : Option String}

/-- A text has an entry on a line of its own. -/
def mentions (text entry : String) : Bool := (Text.lines text).any fun line => Text.trimEnd line = entry

/-- What parts a text from a line that is added to it. -/
def gap (text : String) : String := if Text.isClosed text then "" else "\n"

theorem isClosed_gap (text : String) : Text.isClosed (text ++ gap text) = true := by
  unfold gap
  split
  · next h => rwa [String.append_empty]
  · exact Text.isClosed_iff.mpr (Or.inr ⟨text, rfl⟩)

theorem trimmed_lines_gap (text : String) :
    (Text.lines (text ++ gap text)).map Text.trimEnd = (Text.lines text).map Text.trimEnd := by
  unfold gap
  split
  · rw [String.append_empty]
  · next h => exact Text.trimmed_lines_newline (Bool.eq_false_iff.mpr h)

/-- An entry is added after whole lines. -/
theorem addedLine_eq (text entry : String) (comment : Option String) :
    ∃ before, Text.isClosed before = true ∧ addedLine text entry comment = gap text ++ (before ++ (entry ++ "\n")) := by
  have hgap : (if text.isEmpty || text.toList.getLast? = some '\n' then "" else "\n") = gap text := rfl
  unfold addedLine
  rw [hgap]
  cases comment with
  | none =>
    refine ⟨"", rfl, ?_⟩
    rw [String.empty_append, ← String.append_assoc]
  | some c =>
    dsimp only
    split
    · next h =>
      have hclosed : Text.isClosed text = true := by rw [Text.isClosed, h, Bool.true_or]
      refine ⟨"# " ++ c ++ "\n", Text.isClosed_iff.mpr (Or.inr ⟨_, rfl⟩), ?_⟩
      rw [gap, if_pos hclosed, String.empty_append, ← String.append_assoc]
    · refine ⟨"\n# " ++ c ++ "\n", Text.isClosed_iff.mpr (Or.inr ⟨_, rfl⟩), ?_⟩
      simp only [String.append_assoc]

/-- The entry is the last line, and what was there before stays, up to blanks that end a line. -/
theorem lines_addedLine (text : String) (comment : Option String) (hline : '\n' ∉ entry.toList)
    (hend : ∀ c ∈ entry.toList.getLast?, Text.isBlank c = false) :
    ∃ between, Text.lines (text ++ addedLine text entry comment) =
      Text.lines (text ++ gap text) ++ between ++ [entry] := by
  obtain ⟨before, hbefore, heq⟩ := addedLine_eq text entry comment
  have hreturn : entry.toList.getLast? ≠ some '\r' := fun h => absurd (hend _ h) (by decide)
  refine ⟨Text.lines before, ?_⟩
  rw [heq, ← String.append_assoc, Text.lines_append (isClosed_gap text), Text.lines_append hbefore, 
    Text.lines_of_line hline hreturn, List.append_assoc]

theorem mentions_addedLine (text : String) (comment : Option String) (hline : '\n' ∉ entry.toList)
    (hend : ∀ c ∈ entry.toList.getLast?, Text.isBlank c = false) :
    mentions (text ++ addedLine text entry comment) entry = true := by
  obtain ⟨between, hlines⟩ := lines_addedLine text comment hline hend
  rw [mentions, hlines, List.any_eq_true]
  exact ⟨entry, by simp, decide_eq_true (Text.trimEnd_of_last hend)⟩

/-! ## The ignore file -/

theorem isName_ignore : ∀ s ∈ [Layout.ignoreName], isName s = true := by decide

theorem place_ignore : d.place (Layout.ignoreFile root) = d.place root ++ [Layout.ignoreName] :=
  place_join isName_ignore (List.cons_ne_nil _ _)

/-- An entry is in the ignore file, or that cannot be read or written. -/
def Heeds (d : Disk) (root : Path) (entry : String) : Prop :=
  ¬ d.Admits (Layout.ignoreFile root) ∨
    d.isThere (Layout.ignoreFile root) = true ∧ ∀ c mode t text,
      d.top.at? (d.place root ++ [Layout.ignoreName]) = some (.file c mode t) → isReadable mode = true →
        String.fromUTF8? c = some text → isWritable mode = true → mentions text entry = true

/-- The text of the ignore file, which is empty if there is none. -/
def ignored (d : Disk) (root : Path) : Except Fault String :=
  if d.isThere (Layout.ignoreFile root) then d.readText (Layout.ignoreFile root) else .ok ""

/-- Adds a line to the ignore file, which holds `text`, unless it is there. -/
def addLine (root : Path) (entry : String) (comment : Option String) (text : String) : Action Bool :=
  if mentions text entry then return false
  else do
    change (·.append (Layout.ignoreFile root) (addedLine text entry comment).toUTF8)
    return true

theorem ensureIgnored_eq (root : Path) (entry : String) (comment : Option String) :
    ensureIgnored root entry comment = ask (·.isThere (Layout.ignoreFile root)) >>= fun there =>
      if there then fetch (·.readText (Layout.ignoreFile root)) >>= addLine root entry comment
      else addLine root entry comment "" := rfl

/-- A line is looked for, and added if it is missing. -/
theorem ensureIgnored_cases (root : Path) (entry : String) (comment : Option String) (d : Disk) {d' : Disk}
    (h : ((ensureIgnored root entry comment).on d).2 = d') :
    (∃ e, ignored d root = .error e ∧ d' = d) ∨ ∃ text, ignored d root = .ok text ∧
      (mentions text entry = true ∧ d' = d ∨ mentions text entry = false ∧
        ((∃ e, d.append (Layout.ignoreFile root) (addedLine text entry comment).toUTF8 = .error e) ∧ d' = d ∨
          d.append (Layout.ignoreFile root) (addedLine text entry comment).toUTF8 = .ok d')) := by
  subst h
  have hadd (text : String) : mentions text entry = true ∧ ((addLine root entry comment text).on d).2 = d ∨
      mentions text entry = false ∧
        ((∃ e, d.append (Layout.ignoreFile root) (addedLine text entry comment).toUTF8 = .error e) ∧
          ((addLine root entry comment text).on d).2 = d ∨
        d.append (Layout.ignoreFile root) (addedLine text entry comment).toUTF8 =
          .ok ((addLine root entry comment text).on d).2) := by
    unfold addLine
    split
    · next hold => exact Or.inl ⟨hold, rfl⟩
    · next hnew =>
      refine Or.inr ⟨Bool.eq_false_iff.mpr hnew, ?_⟩
      cases happend : d.append (Layout.ignoreFile root) (addedLine text entry comment).toUTF8 with
      | error e =>
        rw [on_bind_error (on_change_error happend)]
        exact Or.inl ⟨⟨e, rfl⟩, rfl⟩
      | ok d' =>
        rw [on_bind_ok (on_change_ok happend)]
        exact Or.inr rfl
  rw [ensureIgnored_eq, on_bind_ask, ignored]
  cases d.isThere (Layout.ignoreFile root) with
  | false =>
    rw [if_neg Bool.false_ne_true, if_neg Bool.false_ne_true]
    exact Or.inr ⟨"", rfl, hadd ""⟩
  | true =>
    rw [if_pos rfl, if_pos rfl]
    cases hread : d.readText (Layout.ignoreFile root) with
    | error e =>
      rw [on_bind_error (on_fetch_error hread)]
      exact Or.inl ⟨e, rfl, rfl⟩
    | ok text =>
      rw [on_bind_ok (on_fetch_ok hread)]
      exact Or.inr ⟨text, rfl, hadd text⟩

theorem ensureIgnored_of_heeds (hl : d.top.LinkFree) (h : Heeds d root entry) (comment : Option String) :
    ((ensureIgnored root entry comment).on d).2 = d := by
  rcases ensureIgnored_cases root entry comment d rfl with
    ⟨e, -, hstay⟩ | ⟨text, htext, ⟨-, hstay⟩ | ⟨hnew, ⟨-, hstay⟩ | happend⟩⟩
  · exact hstay
  · exact hstay
  · exact hstay
  · -- nothing could be appended
    exfalso
    rw [append, edit] at happend
    rcases h with ha | ⟨hthere, hfile⟩
    · obtain ⟨e, he⟩ := locate_of_not_admits hl ha true
      rw [he] at happend
      cases happend
    · rw [ignored, if_pos hthere] at htext
      obtain ⟨place, c, mode, t, hfind, hmode, hc⟩ := readText_ok htext
      obtain ⟨rfl, hat⟩ := find_ok hl hfind
      rw [place_ignore] at hat
      have hsealed : ¬ isWritable mode = true := fun hw => by
        rw [hfile c mode t text hat hmode hc hw] at hnew
        cases hnew
      rw [find_ok_iff.mp hfind] at happend
      simp [hsealed] at happend

theorem toUTF8_of_fromUTF8? {c : ByteArray} (h : String.fromUTF8? c = some text) : c = text.toUTF8 := by
  unfold String.fromUTF8? at h
  split at h
  · cases h
    rfl
  · cases h

theorem locate_ignore (hl : d.top.LinkFree) (hroot : d.Leads root) (ha : d.Admits (Layout.ignoreFile root)) {n : Node}
    (hat : d.top.at? (d.place root ++ [Layout.ignoreName]) = some n) :
    d.locate true (Layout.ignoreFile root) = .ok (.there (d.place root ++ [Layout.ignoreName]) n) :=
  locate_join hl hroot isName_ignore (List.cons_ne_nil _ _) ha hat

section Admitted

variable (hl : d.top.LinkFree) (hroot : d.Leads root) (ha : d.Admits (Layout.ignoreFile root))

include hl hroot ha

theorem ignored_of_file {c : ByteArray} {mode : Nat} {t : Stamp}
    (hat : d.top.at? (d.place root ++ [Layout.ignoreName]) = some (.file c mode t)) (hmode : isReadable mode = true)
    (hc : String.fromUTF8? c = some text) : ignored d root = .ok text := by
  have hfind := find_ok_iff.mpr (locate_ignore hl hroot ha hat)
  rw [ignored, isThere, hfind, readText_of_find hfind hmode hc]
  rfl

theorem isThere_ignore : d.isThere (Layout.ignoreFile root) = true ↔
    d.top.at? (d.place root ++ [Layout.ignoreName]) ≠ none := by
  constructor
  · intro hthere hnone
    cases hfind : d.find (Layout.ignoreFile root) with
    | error e =>
      rw [isThere, hfind] at hthere
      cases hthere
    | ok found =>
      obtain ⟨hplace, hat⟩ := find_ok hl (n := found.2) hfind
      rw [hplace, place_ignore, hnone] at hat
      cases hat
  · intro hat
    obtain ⟨n, hn⟩ := Option.ne_none_iff_exists'.mp hat
    rw [isThere, find_ok_iff.mpr (locate_ignore hl hroot ha hn)]
    rfl

theorem append_ignore (hopen : ∀ n, d.top.at? (d.place root ++ [Layout.ignoreName]) = some n →
      ∃ c mode t, n = .file c mode t ∧ isWritable mode = true) (bytes : ByteArray) :
    ∃ d', d.append (Layout.ignoreFile root) bytes = .ok d' := by
  cases hat : d.top.at? (d.place root ++ [Layout.ignoreName]) with
  | some n =>
    obtain ⟨c, mode, t, rfl, hw⟩ := hopen n hat
    exact ⟨_, edit_of_file (locate_ignore hl hroot ha hat) hw⟩
  | none =>
    have hloc : d.locate true (root.join ⟨[] ++ [Layout.ignoreName]⟩) = _ :=
      locate_entry hl hroot isName_ignore ha ((List.append_nil _).symm ▸ hroot.dir hl)
    rw [List.nil_append, hat] at hloc
    exact ⟨_, edit_of_vacant hloc (Path.endsIdle_join (List.cons_ne_nil _ _) isName_ignore)⟩

theorem at?_of_append {line : String} {d' : Disk} (htext : ignored d root = .ok text)
    (h : d.append (Layout.ignoreFile root) line.toUTF8 = .ok d') :
    ∃ mode t, d'.top.at? (d.place root ++ [Layout.ignoreName]) = some (.file (text ++ line).toUTF8 mode t) := by
  have htoUTF8 : (text ++ line).toUTF8 = text.toUTF8 ++ line.toUTF8 := String.toByteArray_append
  rw [ignored] at htext
  rcases edit_ok hl h with ⟨c, mode, t, hat, -, hne, rfl⟩ | ⟨above, name, hplace, hvacant, -, rfl⟩
  · rw [place_ignore] at hat hne ⊢
    rw [if_pos ((isThere_ignore hl hroot ha).mpr (by simp [hat]))] at htext
    obtain ⟨_, c', _, _, hfind, -, hc⟩ := readText_ok htext
    obtain ⟨hplace, hat'⟩ := find_ok hl hfind
    rw [hplace, place_ignore, hat] at hat'
    cases hat'
    rw [at?_update hat hne, toUTF8_of_fromUTF8? hc, htoUTF8]
    exact ⟨_, _, rfl⟩
  · have hnone : d.top.shape? (d.place root ++ [Layout.ignoreName]) = none := by
      rw [← place_ignore, hplace]
      exact (vacant_iff.mp hvacant).2
    have hgone : ¬ d.isThere (Layout.ignoreFile root) = true := by
      rw [isThere_ignore hl hroot ha, not_not]
      simpa [Node.shape?] using hnone
    rw [if_neg hgone] at htext
    cases htext
    obtain ⟨t, es, habove, -⟩ := hvacant
    rw [← place_ignore, hplace, at?_put ⟨t, es, habove⟩, htoUTF8]
    exact ⟨_, _, rfl⟩

end Admitted

/-- After an entry was added, or could not be, there is nothing more to do. -/
theorem heeds_of_ensureIgnored (hp : d.top.isPlain = true) (hroot : d.Leads root) (hline : '\n' ∉ entry.toList)
    (hend : ∀ c ∈ entry.toList.getLast?, Text.isBlank c = false) (comment : Option String) :
    Heeds ((ensureIgnored root entry comment).on d).2 root entry := by
  have hl := Node.linkFree_of_isPlain hp
  by_cases ha : d.Admits (Layout.ignoreFile root)
  · generalize hrun : ((ensureIgnored root entry comment).on d).2 = d'
    rcases ensureIgnored_cases root entry comment d hrun with
      ⟨e, htext, rfl⟩ | ⟨text, htext, ⟨hold, rfl⟩ | ⟨-, ⟨⟨e, happend⟩, rfl⟩ | happend⟩⟩
    · refine Or.inr ⟨?_, fun c mode t text hat hmode hc _ => ?_⟩
      · by_contra hthere
        rw [ignored, if_neg hthere] at htext
        cases htext
      · rw [ignored_of_file hl hroot ha hat hmode hc] at htext
        cases htext
    · refine Or.inr ⟨?_, fun c mode t text' hat hmode hc _ => ?_⟩
      · by_contra hthere
        rw [ignored, if_neg hthere] at htext
        cases htext
        cases hold
      · rw [ignored_of_file hl hroot ha hat hmode hc] at htext
        rwa [Except.ok.inj htext]
    · have hclosed (hopen : ∀ n, d'.top.at? (d'.place root ++ [Layout.ignoreName]) = some n →
          ∃ c mode t, n = .file c mode t ∧ isWritable mode = true) : False := by
        obtain ⟨d₁, hd₁⟩ := append_ignore hl hroot ha hopen (addedLine text entry comment).toUTF8
        rw [hd₁] at happend
        cases happend
      refine Or.inr ⟨(isThere_ignore hl hroot ha).mpr fun hnone => hclosed ?_, fun c mode t text' hat _ _ hw => ?_⟩
      · rw [hnone]
        simp
      · refine (hclosed fun n hn => ?_).elim
        rw [hat] at hn
        exact ⟨c, mode, t, (Option.some.inj hn).symm, hw⟩
    · have hs : Steps (fun e _ => e ≠ .erase) d d' :=
        append_steps hp ((hroot.named hp).join isName_ignore) (by simp) (by simp) happend
      have hl' := Node.linkFree_of_isPlain (hs.isPlain hp)
      have hroot' : d'.Leads root := hs.leads hp (fun _ _ _ h => absurd rfl h) hroot
      have ha' : d'.Admits (Layout.ignoreFile root) := hs.admits_iff.mpr ha
      obtain ⟨mode, t, hat⟩ : ∃ mode t, d'.top.at? (d'.place root ++ [Layout.ignoreName]) =
          some (.file (text ++ addedLine text entry comment).toUTF8 mode t) := by
        rw [hs.place_eq]
        exact at?_of_append hl hroot ha htext happend
      refine Or.inr ⟨(isThere_ignore hl' hroot' ha').mpr (by simp [hat]), fun c mode' t' text' hat' _ hc _ => ?_⟩
      rw [hat] at hat'
      cases hat'
      rw [fromUTF8?_toUTF8] at hc
      rw [← Option.some.inj hc]
      exact mentions_addedLine text comment hline hend
  · -- a path that is not taken stays so
    rw [ensureIgnored_of_heeds hl (Or.inl ha)]
    exact Or.inl ha

theorem Heeds.retained (h : Heeds a root entry) (hr : Retains a b (a.place root ++ [Layout.ignoreName]))
    (hla : a.top.LinkFree) (hlb : b.top.LinkFree) (hcwd : b.cwd = a.cwd) (hb : b.Leads root) : Heeds b root entry := by
  rcases h with ha | ⟨hthere, hfile⟩
  · left
    rwa [Admits, trail_of_cwd hcwd]
  · right
    refine ⟨hr.outlasts.isThere hla hlb hcwd hb isName_ignore (by simp) hthere, fun c mode t text hat => ?_⟩
    rw [place_of_cwd hcwd] at hat
    obtain ⟨t', hat'⟩ := (hr.file c mode).mp ⟨t, hat⟩
    exact hfile c mode t' text hat'

end Files

end Outfitter
