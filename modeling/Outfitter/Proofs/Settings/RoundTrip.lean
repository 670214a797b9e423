import Outfitter.Proofs.Disk.Entry
import Outfitter.Proofs.Settings.Patch

/-! # Documents that are written and read back

A document without floating-point numbers that is not nested too deeply is written and then read
back as it was. One that is nested too deeply is found out before it takes the place of its file.
What the merges write is never nested too deeply, so they do not fail that way.
-/

namespace Outfitter

/-! ## Errors -/

namespace Action

variable {α β : Type} {P : Error → Prop} {x : Action α} {f : α → Action β}

/-- Every error of an action is of some kind. -/
def Fails (P : Error → Prop) (x : Action α) : Prop := ∀ d e d', x.on d = (.error e, d') → P e

namespace Fails

theorem pure (a : α) : Fails P (Pure.pure a : Action α) := by
  intro d e d' h
  cases h

theorem ask (g : Disk → α) : Fails P (Action.ask g) := by
  intro d e d' h
  cases h

theorem fail {e : Error} (he : P e) : Fails P (Action.fail e : Action α) := by
  intro d e' d' h
  cases h
  exact he

theorem ignore : Fails P (Action.ignore x) := by
  intro d e d' h
  cases h

theorem fetch {g : Disk → Except Fault α} (hio : ∀ fault, P (.io fault)) : Fails P (Action.fetch g) := by
  intro d e d' h
  cases hg : g d with
  | ok a =>
    rw [on_fetch_ok hg] at h
    cases h
  | error fault =>
    rw [on_fetch_error hg] at h
    cases h
    exact hio fault

theorem change {g : Disk → Except Fault Disk} (hio : ∀ fault, P (.io fault)) : Fails P (Action.change g) := by
  intro d e d' h
  cases hg : g d with
  | ok d₁ =>
    rw [on_change_ok hg] at h
    cases h
  | error fault =>
    rw [on_change_error hg] at h
    cases h
    exact hio fault

theorem bind_of {Q : α → Prop} (hx : Fails P x) (hq : ∀ d a d', x.on d = (.ok a, d') → Q a)
    (hf : ∀ a, Q a → Fails P (f a)) : Fails P (x >>= f) := by
  intro d e d' h
  obtain hfail | ⟨a, d₁, hok, hrest⟩ := of_on_bind_error h
  · exact hx d e d' hfail
  · exact hf a (hq d a d₁ hok) d₁ e d' hrest

theorem bind (hx : Fails P x) (hf : ∀ a, Fails P (f a)) : Fails P (x >>= f) :=
  hx.bind_of (fun _ _ _ _ => trivial) fun a _ => hf a

theorem bind_attempt {f : Except Error α → Action β} (hx : Fails P x) (hok : ∀ a, Fails P (f (.ok a)))
    (herror : ∀ e, P e → Fails P (f (.error e))) : Fails P (Action.attempt x >>= f) := by
  intro d e d' h
  rw [on_bind_attempt] at h
  cases hr : (x.on d).1 with
  | ok a =>
    rw [hr] at h
    exact hok a _ e d' h
  | error e₁ =>
    rw [hr] at h
    exact herror e₁ (hx d e₁ _ (Prod.ext hr rfl)) _ e d' h

theorem ite {c : Prop} [Decidable c] {y : Action α} (hx : c → Fails P x) (hy : ¬ c → Fails P y) :
    Fails P (if c then x else y) := by
  split
  · next hc => exact hx hc
  · next hc => exact hy hc

end Fails

end Action

namespace Settings

open Disk Action Files Json

/-- A failure that is not due to what was written. -/
def Benign (e : Error) : Prop := ∀ file reason, e ≠ .validationFailed file reason

theorem benign_io (fault : Fault) : Benign (.io fault) := by simp [Benign]

theorem fails_makeLast (p : Path) : Fails Benign (makeLast p) :=
  (Fails.change benign_io).bind_attempt (fun _ => .pure _)
    fun _ he => (Fails.ask _).bind fun _ => .ite (fun _ => .pure _) fun _ => .fail he

theorem fails_makeDirsFrom (ps : List Path) : Fails Benign (makeDirsFrom ps) := by
  induction ps with
  | nil => exact .fail (benign_io _)
  | cons p around ih =>
    refine .ite (fun _ => .pure _) fun _ => (Fails.change benign_io).bind_attempt (fun _ => .pure _) fun e he => ?_
    split
    · next h => cases h
    · exact ih.bind fun _ => fails_makeLast p
    · next h =>
      cases h
      exact (Fails.ask _).bind fun _ => .ite (fun _ => .pure _) fun _ => .fail he

theorem fails_read (file : Path) : Fails Benign (read file) := by
  refine (Fails.fetch benign_io).bind fun text => ?_
  unfold parse
  split
  · exact .pure _
  · next h =>
    split at h
    · cases h
      exact .fail (by simp [Benign])
    · cases h
    · cases h
      exact .fail (by simp [Benign])

variable {d d' : Disk} {file staging root : Path} {doc : Document} {backup : Option Path}

/-- The text that was written is the text that is read. -/
theorem readText_of_write {text text' : String} (h : d.write file text.toUTF8 = .ok d')
    (ht : d'.readText file = .ok text') : text' = text := by
  obtain ⟨place, mode, hfind⟩ := find_of_write h
  by_cases hr : isReadable mode = true
  · rw [readText_of_find hfind hr (fromUTF8?_toUTF8 text)] at ht
    cases ht
    rfl
  · rw [readText, readBytes, hfind] at ht
    simp only [if_neg hr] at ht
    cases ht

theorem fails_stage (hr : read? (render doc) ≠ none) : Fails Benign (stage file staging doc) := by
  intro d e d' h
  obtain hfail | ⟨_, d₁, hwrite, h⟩ := of_on_bind_error h
  · exact Fails.change benign_io _ _ _ hfail
  · obtain hfail | ⟨written, d₂, hread, h⟩ := of_on_bind_error h
    · exact Fails.fetch benign_io _ _ _ hfail
    · have htext := readText_of_write (of_on_change_ok hwrite) (of_on_fetch_ok hread).1
      rw [htext, if_neg (by simpa using hr)] at h
      exact Fails.change benign_io _ _ _ h

theorem fails_restore {P : Error → Prop} : Fails P (restore file staging backup) := by
  refine Fails.bind ((Fails.ask _).bind fun _ => .ite (fun _ => .ignore) fun _ => .pure _) fun _ => ?_
  cases backup with
  | none => exact .pure _
  | some b => exact (Fails.ask _).bind fun _ => .ite (fun _ => .ignore) fun _ => .pure _

theorem fails_write (hr : read? (render doc) ≠ none) : Fails Benign (write file doc backup) :=
  (fails_stage hr).bind_attempt (fun _ => .pure _) fun _ he => fails_restore.bind fun _ => .fail he

theorem fails_saveOver (hr : read? (render doc) ≠ none) : Fails Benign (saveOver file doc) := by
  refine Fails.bind ?_ fun _ => fails_write hr
  intro d e d' h
  unfold tryBackUp at h
  rw [on_bind_attempt] at h
  split at h <;> cases h

theorem holds_of_read_ok (d : Disk) (doc : Document) (d' : Disk) (h : (read file).on d = (.ok doc, d')) :
    Reader.Holds maxDepth 0 doc := by
  obtain ⟨-, text, -, hread⟩ := of_read_ok h
  exact holds_of_read hread

theorem fails_mergeStatusLine (root : Path) : Fails Benign (mergeStatusLine root) := by
  refine (fails_makeDirsFrom _).bind fun _ => (Fails.ask _).bind fun _ => .ite (fun _ => ?_) fun _ => ?_
  · refine (fails_read _).bind_of holds_of_read_ok fun doc hdoc => .ite (fun _ => .pure _) fun hnone => ?_
    have hadd : addStatusLine? doc = some (doc.set statusLineKey defaultStatusLine) := if_neg hnone
    exact (fails_saveOver (readable_of_holds (holds_addStatusLine hdoc hadd))).bind fun _ => .pure _
  · exact (fails_write (readable_of_holds holds_statusLine)).bind fun _ => .pure _

/-- What a merge of hooks does with a document. -/
def saveHooks (file : Path) (doc : Document) : Action Outcome :=
  match doc.get? hooksKey with
  | none => do
    saveOver file (doc.set hooksKey defaultHooks)
    return .added
  | some hooks =>
    match qualifyHooks hooks with
    | (_, 0) => return .unchanged
    | (hooks, n) => do
      saveOver file (doc.set hooksKey hooks)
      return .qualified n

theorem mergeHooks_eq (root : Path) :
    mergeHooks root = (ask (·.isThere (Layout.settings root)) >>= fun there =>
      if there then read (Layout.settings root) >>= saveHooks (Layout.settings root) else pure .skipped) := rfl

theorem saveHooks_cases (file : Path) (doc : Document) :
    (addHooks? doc = none ∧ saveHooks file doc = pure .unchanged) ∨
      ∃ doc' o, addHooks? doc = some doc' ∧ o ≠ .unchanged ∧
        saveHooks file doc = (saveOver file doc' >>= fun _ => pure o) := by
  unfold saveHooks addHooks?
  cases doc.get? hooksKey with
  | none => exact Or.inr ⟨_, .added, rfl, by decide, rfl⟩
  | some hooks =>
    rcases hq : qualifyHooks hooks with ⟨hooks', n⟩
    cases n with
    | zero => exact Or.inl ⟨by simp only [hq], by simp only [hq]⟩
    | succ n =>
      simp only [hq]
      exact Or.inr ⟨_, .qualified (n + 1), rfl, by simp, rfl⟩

theorem fails_mergeHooks (root : Path) : Fails Benign (mergeHooks root) := by
  rw [mergeHooks_eq]
  refine (Fails.ask _).bind fun _ => .ite (fun _ => ?_) fun _ => .pure _
  refine (fails_read _).bind_of holds_of_read_ok fun doc hdoc => ?_
  obtain ⟨-, heq⟩ | ⟨doc', o, hadd, -, heq⟩ := saveHooks_cases (Layout.settings root) doc
  · rw [heq]
    exact .pure _
  · rw [heq]
    exact (fails_saveOver (readable_of_holds (holds_addHooks hdoc hadd))).bind fun _ => .pure _

/-! ## Writing and reading back -/

theorem entry_of_settings {place : List String} {c : ByteArray} {mode : Nat} {t : Stamp}
    (h : d.locate false (Layout.settings root) = .ok (.there place (.file c mode t))) :
    ∃ above, Entry d (Layout.settings root) above "settings.json" ∧ place = above ++ ["settings.json"] :=
  entry_of_file [Layout.assetsDirName] "settings.json" Layout.isName_settings h

/-- A backup moves no directory and no link, and the settings are still a file. -/
theorem tryBackUp_agrees (d : Disk) (file : Path) :
    ∃ backup d₁, (tryBackUp file).on d = (.ok backup, d₁) ∧ Agrees d d₁ ∧
      ∀ q, (∃ c m t, d.top.at? q = some (.file c m t)) → ∃ c m t, d₁.top.at? q = some (.file c m t) := by
  unfold tryBackUp Snapshot.backUp Snapshot.name
  rw [on_bind_attempt, on_bind_ask]
  generalize file.withFileName _ = copied
  cases hcopy : d.copy file copied with
  | ok d₁ =>
    obtain ⟨place, c, mode, hr⟩ := copy_refiles hcopy
    rw [on_bind_ok (on_change_ok hcopy)]
    exact ⟨_, _, rfl, hr.agrees, fun q => hr.isFile⟩
  | error e =>
    rw [on_bind_error (on_change_error hcopy)]
    exact ⟨_, _, rfl, Agrees.refl d, fun q => id⟩

/-- A file and its staging sibling are entries of one directory, and a new version can pass from the one
to the other. -/
structure Passable (d : Disk) (file : Path) (above : List String) (name tmp : String) : Prop where
  entry : Entry d file above name
  loose : Shape.Loose (d.top.shape? (above ++ [name]))
  beside : Entry d (Layout.staging file) above tmp
  ne : tmp ≠ name
  usable : ∀ n, d.top.at? (above ++ [tmp]) = some n →
    ∃ c mode t, n = .file c mode t ∧ isReadable mode = true ∧ isWritable mode = true

theorem passable_of_receives {text : String} (hi : (Path.ofText text).endsIdle = false)
    (hfile : d.Receives (Path.ofText text)) (hstaging : d.Receives (Layout.staging (Path.ofText text)))
    (hmode : ∀ place c mode t,
      d.locate false (Layout.staging (Path.ofText text)) = .ok (.there place (.file c mode t)) →
        isReadable mode = true ∧ isWritable mode = true) :
    ∃ above name tmp, Passable d (Path.ofText text) above name tmp := by
  obtain ⟨above, name, e, hl⟩ := hfile.entry hi
  have hname : isName name = true := by
    obtain ⟨hup, hlast⟩ := Path.fileName?_some e.fileName?
    exact (Path.named_ofText text name (List.mem_of_getLast? hlast)).resolve_left hup
  have hstage : Layout.staging (Path.ofText text) = (Path.ofText text).withFileName (name ++ ".tmp") := by
    rw [Layout.staging, e.fileName?, Option.getD_some]
  obtain ⟨htrail, hi', -⟩ := e.trail_withFileName (Layout.isName_append_tmp hname)
  rw [← hstage] at htrail hi'
  obtain ⟨above', tmp, es, hl'⟩ := hstaging.entry hi'
  have htmp : tmp = name ++ ".tmp" := by
    have hlast := es.trail_eq.symm.trans htrail
    simpa using (List.append_inj' hlast rfl).2
  obtain rfl : above' = above := e.beside es (by rw [htrail, List.dropLast_concat])
  refine ⟨above', name, tmp, e, hl, es, ?_, ?_⟩
  · intro he
    have hlen := congrArg (·.toList.length) (htmp.symm.trans he)
    simp [String.toList_append] at hlen
  · intro n hat
    rcases Shape.loose_cases hl' with hnone | ⟨c, mode, t, hfile⟩
    · rw [Node.shape?, hat] at hnone
      cases hnone
    · have hat' := Node.shape?_eq_file.mp hfile
      rw [hat'] at hat
      cases hat
      exact ⟨c, mode, t, rfl, hmode _ c mode t (es.locate_there hat' (by simp))⟩

namespace Passable

variable {above : List String} {name tmp : String}

/-- The new version is prepared as a whole. -/
theorem stage (h : Passable d file above name tmp) (doc : Document) :
    ∃ d₁ mode, isReadable mode = true ∧ Refiles (above ++ [tmp]) (render doc).toUTF8 mode d d₁ ∧
      (Settings.stage file (Layout.staging file) doc).on d =
        (if (read? (render doc)).isNone then fail (.validationFailed (Layout.staging file) (some notJson))
          else change (·.rename (Layout.staging file) file)).on d₁ := by
  obtain ⟨d₁, mode, hwrite, hr, hre⟩ := h.beside.write (render doc).toUTF8 h.usable
  have htext : d₁.readText (Layout.staging file) = .ok (render doc) :=
    (h.beside.agrees hre.agrees).readText hre.file hr
  refine ⟨d₁, mode, hr, hre, ?_⟩
  unfold Settings.stage
  rw [on_bind_ok (on_change_ok hwrite), on_bind_ok (on_fetch_ok htext)]

theorem write (h : Passable d file above name tmp) (hr : read? (render doc) ≠ none) :
    ∃ d', (Settings.write file doc none).on d = (.ok (), d') ∧ d'.readText file = .ok (render doc) := by
  obtain ⟨d₁, mode, hmode, hre, hstage⟩ := h.stage doc
  have e₁ := h.entry.agrees hre.agrees
  have hl₁ := hre.agrees.loose h.loose
  have hrename := (h.beside.agrees hre.agrees).rename e₁ h.ne hre.file hl₁
  obtain ⟨hagree, hat⟩ := e₁.renamed hre.file hl₁
  rw [if_neg (by simpa using hr), on_change_ok hrename] at hstage
  refine ⟨_, ?_, (e₁.agrees hagree).readText hat hmode⟩
  unfold Settings.write
  rw [on_bind_attempt, hstage]
  rfl

/-- A document that cannot be read back is removed again, and its file has stayed. -/
theorem write_of_unreadable (h : Passable d file above name tmp) (hr : read? (render doc) = none) :
    ∃ d', (Settings.write file doc none).on d =
        (.error (.validationFailed (Layout.staging file) (some notJson)), d') ∧
      d'.locate false file = d.locate false file := by
  obtain ⟨d₁, mode, -, hre, hstage⟩ := h.stage doc
  have es₁ := h.beside.agrees hre.agrees
  rw [if_pos (by rw [hr]; rfl), on_fail] at hstage
  have hfound : d₁.isFile (Layout.staging file) = true := by
    rw [isFile, find_ok_iff.mpr (es₁.locate_there hre.file (by simp))]
    rfl
  have hclear : (clear (Layout.staging file)).on d₁ = (.ok (), d₁.erase (above ++ [tmp])) := by
    unfold clear
    rw [on_bind_ask, if_pos hfound, on_ignore, on_change_ok (es₁.removeFile hre.file)]
  obtain ⟨herase, hgone⟩ := differs_erase hre.file (by simp [Node.shape])
  have hagree := hre.agrees.trans (herase.agrees (Node.loose_of_file hre.file) (Node.loose_of_none hgone))
  refine ⟨d₁.erase (above ++ [tmp]), ?_, h.entry.locate_congr (h.entry.agrees hagree) h.loose ?_⟩
  · unfold Settings.write
    rw [on_bind_attempt, hstage]
    exact on_bind_ok (on_bind_ok hclear)
  · have hplace : above ++ [name] ≠ above ++ [tmp] := by simpa using h.ne.symm
    rw [herase.elsewhere _ hplace, hre.differs.elsewhere _ hplace]

end Passable

/-! ## The whole format -/

/-- Arrays in one another. -/
def nested : Nat → Json
  | 0 => .arr []
  | n + 1 => .arr [nested n]

/-- A directory that is reached through a link and holds an earlier attempt. -/
def linked : Disk :=
  ⟨.dir ⟨0, false⟩
    [ ("real", .dir ⟨0, false⟩ [("a.json.tmp", .file "x".toUTF8 0o600 ⟨0, false⟩)])
    , ("way", .link ⟨["real"]⟩) ], [], 0⟩

/-- A directory with at most an earlier attempt in it. -/
def attempted (earlier : Entries) : Disk := ⟨.dir ⟨0, false⟩ earlier, [], 0⟩

theorem write_of_stage_error {e : Error} (h : (stage file (Layout.staging file) doc).on d = (.error e, d')) :
    ((write file doc backup).on d).1.isOk = false := by
  unfold write
  rw [on_bind_attempt, h]
  cases hr : ((restore file (Layout.staging file) backup >>= fun _ => fail e : Action Unit).on d').1 with
  | error e => rfl
  | ok u =>
    obtain ⟨_, _, -, hfail⟩ := of_on_bind_ok (Prod.ext hr rfl : _ = (_, _))
    cases hfail

theorem utf8ByteSize_replicate (n : Nat) : (String.ofList (List.replicate n 'n')).utf8ByteSize = n := by
  induction n with
  | zero => rfl
  | succ n ih =>
    rw [List.replicate_succ', String.ofList_append, String.utf8ByteSize_append, ih]
    rfl

/-- A name may leave no room for a sibling. -/
theorem long_name_fails_write {name : String} (hn : isName name = true) (hz : '\x00' ∉ name.toList)
    (hsize : name.utf8ByteSize ≤ nameLimit) (hlong : nameLimit < (name ++ ".tmp").utf8ByteSize) :
    (attempted []).Receives (Path.ofText name) ∧
      ((attempted []).locate false (Layout.staging (Path.ofText name))).isOk = false ∧
      ((write (Path.ofText name) [] none).on (attempted [])).1.isOk = false := by
  have hpath : Path.ofText name = ⟨[name]⟩ := by rw [Path.ofText, Path.splitSlash_of_isName hn]
  obtain ⟨hempty, -, hup, -⟩ := isName_iff.mp hn
  have hsteps : (Path.mk [name]).steps = [name] :=
    (Path.steps_unique (n := 0) (by simp [Path.names, Path.isIdle_of_isName hn]) (fun _ => rfl) (by simp [hup])).2
  have htrail : (attempted []).trail ⟨[name]⟩ = [name] := by
    rw [trail, hsteps]
    simp [base, attempted]
  have htakes : takes ⟨[name]⟩ = true := by
    simp [takes, Path.isEmpty, hempty, hz, Path.byteSize, Path.bytes]
    exact le_trans hsize (by decide)
  have e : Entry (attempted []) ⟨[name]⟩ [] name :=
    ⟨⟨[], 0, htrail, Nat.zero_le _, .stay []⟩, rfl, hup, hsize, htakes, Path.isIdle_of_isName hn, by simp [hsteps]⟩
  have htmp := Layout.isName_append_tmp hn
  obtain ⟨htrail', hi, hsteps'⟩ := e.trail_withFileName htmp
  have hstaging : Layout.staging ⟨[name]⟩ = (Path.mk [name]).withFileName (name ++ ".tmp") := by
    rw [Layout.staging, e.fileName?, Option.getD_some]
  obtain ⟨fault, hlocate⟩ : ∃ fault, ∀ follow, (attempted []).locate follow (Layout.staging ⟨[name]⟩) = .error fault := by
    rw [hstaging]
    cases ht : takes ((Path.mk [name]).withFileName (name ++ ".tmp")) with
    | false =>
      obtain ⟨fault, hlocate⟩ := locate_of_not_takes ht
      exact ⟨fault, hlocate _⟩
    | true =>
      refine ⟨.tooLong, fun follow => ?_⟩
      rw [locate_eq_settle ht, settle_of_steps hsteps' hi, htrail', htrail]
      exact trace_tooLong (isName_iff.mp htmp).2.2.1 hlong
  have hstage : (stage ⟨[name]⟩ (Layout.staging ⟨[name]⟩) []).on (attempted []) =
      (.error (.io fault), attempted []) :=
    on_bind_error (on_change_error (by rw [Disk.write, edit, hlocate]))
  rw [hpath]
  exact ⟨Or.inr ⟨[], name, e.locate_vacant rfl⟩, by rw [hlocate]; rfl, write_of_stage_error hstage⟩

end Settings

end Outfitter
