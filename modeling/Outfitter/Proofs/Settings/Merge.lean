import Outfitter.Proofs.Settings.Write

/-! # What merges change

A merge reads the settings, backs them up beside themselves and writes them anew. Whatever
fails, the settings hold what they held.
-/

namespace Outfitter.Settings

open Disk Action Files

variable {allow : Edit → List String → Prop} {d₀ d d' : Disk} {root : Path} {doc : Document}
  {e : Error}

/-! ## The backup -/

/-- The name of a backup of the settings. -/
def backupName (clock : Nat) : String := "settings.json" ++ ".backup." ++ Calendar.timestamp clock

theorem toList_backupName (clock : Nat) :
    (backupName clock).toList = "settings.json.backup.".toList ++ (Calendar.timestamp clock).toList := by
  rw [backupName, String.toList_append]
  rfl

theorem isName_backupName (clock : Nat) : isName (backupName clock) = true := by
  have hmem : 's' ∈ (backupName clock).toList := by
    rw [toList_backupName]
    exact List.mem_append_left _ (by decide)
  rw [isName_iff]
  refine ⟨?_, ?_, ?_, ?_⟩
  · intro he
    rw [he] at hmem
    exact absurd hmem (by decide)
  · intro he
    rw [he] at hmem
    exact absurd hmem (by decide)
  · intro he
    rw [he] at hmem
    exact absurd hmem (by decide)
  · rw [toList_backupName, List.mem_append, not_or]
    exact ⟨by decide, (isName_iff.mp (Calendar.isName_timestamp clock)).2.2.2⟩

theorem backupName_ne {s : String} (clock : Nat) (hs : '_' ∉ s.toList) : backupName clock ≠ s := by
  rintro rfl
  rw [toList_backupName] at hs
  exact hs (List.mem_append_right _ (Calendar.underscore_mem_timestamp clock))

/-- The place of the backup that is made now. -/
def backupPlace (d : Disk) (root : Path) : List String :=
  d.place root ++ [Layout.assetsDirName, backupName d.clock]

theorem backupPlace_ne {name : String} (h : '_' ∉ name.toList) :
    backupPlace d root ≠ d.place root ++ [Layout.assetsDirName, name] := by
  intro heq
  exact backupName_ne d.clock h (by simpa [backupPlace] using heq)

theorem backUp_eq (d : Disk) :
    (Snapshot.backUp (Layout.settings root)).on d =
      (change (·.copy (Layout.settings root)
          ((Layout.settings root).withFileName (backupName d.clock))) >>= fun _ =>
        pure ((Layout.settings root).withFileName (backupName d.clock))).on d := by
  rw [Snapshot.backUp, Snapshot.name, on_bind_ask, Layout.fileName?_settings]
  rfl

/-- A backup is a copy of the settings, or there is none and nothing has changed. -/
theorem tryBackUp_cases (root : Path) (d : Disk) :
    let backup := (Layout.settings root).withFileName (backupName d.clock)
    (∃ d', d.copy (Layout.settings root) backup = .ok d' ∧
      (tryBackUp (Layout.settings root)).on d = (.ok (some backup), d')) ∨
    (∃ fault, d.copy (Layout.settings root) backup = .error fault ∧
      (tryBackUp (Layout.settings root)).on d = (.ok none, d)) := by
  intro backup
  unfold tryBackUp
  rw [on_bind_attempt, backUp_eq]
  cases hcopy : d.copy (Layout.settings root) backup with
  | ok d' =>
    rw [on_bind_ok (on_change_ok hcopy)]
    exact Or.inl ⟨d', rfl, rfl⟩
  | error fault =>
    rw [on_bind_error (on_change_error hcopy)]
    exact Or.inr ⟨fault, rfl, rfl⟩

/-- A backup that was made has the bytes and the mode of the settings. -/
theorem tryBackUp_ok (hp : d.top.isPlain = true) (hn : root.Named) :
    ∃ backup d₁, (tryBackUp (Layout.settings root)).on d = (.ok backup, d₁) ∧
      Steps (Writes (backupPlace d root)) d d₁ ∧
      ∀ b, backup = some b → d.place b = backupPlace d root ∧ ∃ c m t t',
        d₁.top.at? (d.place b) = some (.file c m t) ∧
        d₁.top.at? (d.place (Layout.settings root)) = some (.file c m t') := by
  have hl := Node.linkFree_of_isPlain hp
  have hname := isName_backupName d.clock
  have hpl : d.place ((Layout.settings root).withFileName (backupName d.clock)) =
      backupPlace d root := Layout.place_sibling hname
  have hne : d.place (Layout.settings root) ≠ backupPlace d root := by
    rw [Layout.place_settings]
    exact (backupPlace_ne (by decide)).symm
  obtain ⟨d₁, hc, hrun⟩ | ⟨fault, -, hrun⟩ := tryBackUp_cases root d
  · have hs : Steps (Writes (backupPlace d root)) d d₁ :=
      copy_steps hp (Layout.named_sibling hn hname) ⟨hpl, Or.inl rfl⟩ ⟨hpl, Or.inr rfl⟩ hc
    obtain ⟨c, m, t, hsource, htarget⟩ := copy_at hl (by rw [hpl]; exact Ne.symm hne) hc
    refine ⟨_, d₁, hrun, hs, ?_⟩
    rintro b ⟨⟩
    refine ⟨hpl, c, m, d.now, t, htarget, ?_⟩
    rw [← Node.shape?_eq_file, shape?_of_writes hs hne, Node.shape?_eq_file]
    exact hsource
  · exact ⟨none, d, hrun, .refl _, by simp⟩

/-! ## Edits of a merge -/

/-- What a merge may change, directories aside. -/
def Merges (d : Disk) (root : Path) (e : Edit) (q : List String) : Prop :=
  Swaps (d.place root ++ [Layout.assetsDirName, "settings.json.tmp"])
    (d.place root ++ [Layout.assetsDirName, "settings.json"]) e q ∨ Writes (backupPlace d root) e q

theorem place_staging_settings :
    d.place (Layout.staging (Layout.settings root)) =
      d.place root ++ [Layout.assetsDirName, "settings.json.tmp"] := by
  rw [Layout.staging, Layout.fileName?_settings]
  exact Layout.place_sibling (by decide)

theorem named_settings (hn : root.Named) : (Layout.settings root).Named :=
  hn.join Layout.isName_settings

theorem keeps_write {backup : Option Path} (hp : d₀.top.isPlain = true) (hn : root.Named)
    (ha : ∀ e q, Merges d₀ root e q → allow e q) :
    Keeps (Steps allow d₀) (write (Layout.settings root) doc backup) := by
  intro d hs
  have hw : Steps _ d ((write (Layout.settings root) doc backup).on d).2 :=
    write_steps (hs.isPlain hp) (named_settings hn)
  rw [place_staging_settings, Layout.place_settings, hs.place_eq] at hw
  exact hs.trans (hw.mono fun e q h => ha e q (Or.inl h))

theorem keeps_saveOver (hp : d₀.top.isPlain = true) (hn : root.Named)
    (ha : ∀ e q, Merges d₀ root e q → allow e q) :
    Keeps (Steps allow d₀) (saveOver (Layout.settings root) doc) := by
  refine Keeps.bind (fun d hs => ?_) fun _ => keeps_write hp hn ha
  obtain ⟨backup, d₁, hrun, hs₁, -⟩ := tryBackUp_ok (hs.isPlain hp) hn
  rw [hrun]
  refine hs.trans (hs₁.mono fun e q h => ha e q (Or.inr ?_))
  rw [backupPlace, hs.place_eq, hs.clock_eq] at h
  exact h

theorem keeps_read {P : Disk → Prop} {file : Path} : Keeps P (read file) := by
  unfold read
  refine (Keeps.fetch _).bind fun _ => ?_
  split
  · exact Keeps.pure _
  · exact Keeps.fail _

theorem read_stays {file : Path} {r : Except Error Document} (h : (read file).on d = (r, d')) :
    d' = d := by
  have hk : Keeps (· = d) (read file) := keeps_read
  have hd := hk d rfl
  rw [h] at hd
  exact hd

theorem keeps_mergeStatusLine (hp : d₀.top.isPlain = true) (hn : root.Named)
    (hm : MayMake allow (d₀.trail root ++ [Layout.assetsDirName]))
    (ha : ∀ e q, Merges d₀ root e q → allow e q) :
    Keeps (Steps allow d₀) (mergeStatusLine root) := by
  have hdir : Keeps (Steps allow d₀) (makeDirs (Layout.assetsDir root)) :=
    keeps_makeDirs hp (hn.join (by decide)) (by rw [Layout.assetsDir, trail_div (by decide)]; exact hm)
  refine hdir.bind fun _ => (Keeps.ask _).bind fun _ => Keeps.ite (keeps_read.bind fun _ => ?_) ?_
  · exact Keeps.ite (Keeps.pure _) ((keeps_saveOver hp hn ha).bind fun _ => Keeps.pure _)
  · exact (keeps_write hp hn ha).bind fun _ => Keeps.pure _

theorem keeps_mergeHooks (hp : d₀.top.isPlain = true) (hn : root.Named)
    (ha : ∀ e q, Merges d₀ root e q → allow e q) :
    Keeps (Steps allow d₀) (mergeHooks root) := by
  refine (Keeps.ask _).bind fun _ => Keeps.ite (keeps_read.bind fun _ => ?_) (Keeps.pure _)
  split
  · exact (keeps_saveOver hp hn ha).bind fun _ => Keeps.pure _
  · split
    · exact Keeps.pure _
    · exact (keeps_saveOver hp hn ha).bind fun _ => Keeps.pure _

/-! ## Failures -/

theorem saveOver_error (hp : d.top.isPlain = true) (hn : root.Named)
    (h : (saveOver (Layout.settings root) doc).on d = (.error e, d')) :
    d'.top.holds? (d.place (Layout.settings root)) = d.top.holds? (d.place (Layout.settings root)) := by
  obtain ⟨backup, d₁, hrun, hs, hb⟩ := tryBackUp_ok hp hn
  unfold saveOver at h
  rw [on_bind_ok hrun] at h
  have hw := (write_error (hs.isPlain hp) (named_settings hn) (fun b hbackup => ?_) h).1
  · rw [hs.place_eq] at hw
    rw [hw, Node.holds?, Node.holds?, shape?_of_writes hs]
    rw [Layout.place_settings]
    exact (backupPlace_ne (by decide)).symm
  · obtain ⟨hpl, c, m, t, t', hkept, hsame⟩ := hb b hbackup
    rw [hs.place_eq, hs.place_eq, hs.place_eq, place_staging_settings]
    refine ⟨?_, ?_, c, m, t, m, t', hkept, hsame⟩
    · rw [hpl, Layout.place_settings]
      exact backupPlace_ne (by decide)
    · rw [hpl]
      exact backupPlace_ne (by decide)

/-- The path of the root passes the settings only if something is there. -/
def Sound (d : Disk) (root : Path) : Prop :=
  d.Passes root (d.place (Layout.settings root)) →
    d.top.shape? (d.place (Layout.settings root)) ≠ none

theorem mergeStatusLine_error (hp : d.top.isPlain = true) (hn : root.Named) (hr : Sound d root)
    (h : (mergeStatusLine root).on d = (.error e, d')) :
    d'.top.holds? (d.place (Layout.settings root)) = d.top.holds? (d.place (Layout.settings root)) := by
  have hdn : (Layout.assetsDir root).Named := hn.join (by decide)
  have htrail : d.trail (Layout.assetsDir root) = d.trail root ++ [Layout.assetsDirName] :=
    trail_div (by decide)
  have hmade : ((makeDirs (Layout.assetsDir root)).on d).2.top.shape? (d.place (Layout.settings root)) =
      d.top.shape? (d.place (Layout.settings root)) := by
    refine shape?_makeDirs hp hdn ?_
    rintro ⟨ys, hys, hpl⟩
    rw [htrail, List.prefix_concat_iff] at hys
    rcases hys with rfl | hys
    · rw [Layout.place_settings, climb_below (by decide)] at hpl
      exact absurd (List.append_cancel_left hpl) (by decide)
    · exact hr ⟨ys, hys, hpl⟩
  have hs : Steps (fun _ _ => True) d ((makeDirs (Layout.assetsDir root)).on d).2 :=
    keeps_makeDirs hp hdn (fun _ _ => trivial) d (.refl _)
  have hholds : ∀ d₁, d₁ = ((makeDirs (Layout.assetsDir root)).on d).2 →
      d₁.top.holds? (d.place (Layout.settings root)) =
        d.top.holds? (d.place (Layout.settings root)) := by
    rintro d₁ rfl
    exact congrArg (Option.map Shape.bytes?) hmade
  unfold mergeStatusLine at h
  rcases of_on_bind_error h with hrun | ⟨⟨⟩, d₁, hrun, h⟩
  · exact hholds d' (by rw [hrun])
  rw [← hholds d₁ (by rw [hrun])]
  rw [hrun] at hs
  have hp₁ := hs.isPlain hp
  rw [← hs.place_eq]
  rw [on_bind_ask] at h
  split at h
  · rcases of_on_bind_error h with hread | ⟨doc, d₂, hread, h⟩
    · rw [read_stays hread]
    rw [read_stays hread] at h
    split at h
    · cases h
    · rcases of_on_bind_error h with hsave | ⟨⟨⟩, d₃, -, h⟩
      · exact saveOver_error hp₁ hn hsave
      · cases h
  · rcases of_on_bind_error h with hwrite | ⟨⟨⟩, d₃, -, h⟩
    · exact (write_error hp₁ (named_settings hn) (by simp) hwrite).1
    · cases h

theorem mergeHooks_error (hp : d.top.isPlain = true) (hn : root.Named)
    (h : (mergeHooks root).on d = (.error e, d')) :
    d'.top.holds? (d.place (Layout.settings root)) = d.top.holds? (d.place (Layout.settings root)) := by
  unfold mergeHooks at h
  rw [on_bind_ask] at h
  split at h
  · rcases of_on_bind_error h with hread | ⟨doc, d₁, hread, h⟩
    · rw [read_stays hread]
    rw [read_stays hread] at h
    split at h
    · rcases of_on_bind_error h with hsave | ⟨⟨⟩, d₂, -, h⟩
      · exact saveOver_error hp hn hsave
      · cases h
    · split at h
      · cases h
      · rcases of_on_bind_error h with hsave | ⟨⟨⟩, d₂, -, h⟩
        · exact saveOver_error hp hn hsave
        · cases h
  · cases h

/-! ## All or nothing -/

/-- Another file than a path and its sibling holds the bytes of the path. -/
def Doubles (d : Disk) (b file : Path) : Prop :=
  d.place b ≠ d.place file ∧ d.place b ≠ d.place (Layout.staging file) ∧
    ∃ c, d.top.holds? (d.place b) = some (some c) ∧ d.top.holds? (d.place file) = some (some c)

/-- A document is written as a whole or not at all, so a merge that fails has left the
settings as they were. -/
theorem write_all_or_nothing (d : Disk) (hp : d.top.isPlain = true) :
    (∀ (text : String) (doc : Document) (backup : Option Path),
      let file := Path.ofText text
      (∀ b, backup = some b → Doubles d b file) →
        (∀ d', (write file doc backup).on d = (.ok (), d') →
          d'.readBytes file = .ok (render doc).toUTF8 ∧
            d'.top.shape? (d.place (Layout.staging file)) = none) ∧
        (∀ e d', (write file doc backup).on d = (.error e, d') →
          d'.top.holds? (d.place file) = d.top.holds? (d.place file) ∧
            d'.isFile (Layout.staging file) = false) ∧
        ∀ q, q ≠ d.place file → q ≠ d.place (Layout.staging file) →
          ((write file doc backup).on d).2.top.shape? q = d.top.shape? q) ∧
    ∀ (text : String) (e : Error) (d' : Disk),
      let root := Path.ofText text
      ((mergeStatusLine root).on d = (.error e, d') ∧ Sound d root ∨
        (mergeHooks root).on d = (.error e, d')) →
      d'.top.holds? (d.place (Layout.settings root)) =
        d.top.holds? (d.place (Layout.settings root)) := by
  constructor
  · intro text doc backup file hb
    have hn : file.Named := Path.named_ofText text
    refine ⟨fun d' h => ?_, fun e d' h => ?_, fun q hf hs => ?_⟩
    · obtain ⟨⟨mode, hfind, hr⟩, hgone⟩ := write_ok hp hn h
      exact ⟨readBytes_of_find hfind hr, hgone⟩
    · refine write_error hp hn (fun b hbackup => ?_) h
      obtain ⟨hf, hs, c, hb, hc⟩ := hb b hbackup
      obtain ⟨m, t, hat⟩ := Node.holds?_eq_some.mp hb
      obtain ⟨m', t', hat'⟩ := Node.holds?_eq_some.mp hc
      exact ⟨hf, hs, c, m, t, m', t', hat, hat'⟩
    · exact shape?_of_swaps (write_steps hp hn) hs hf
  · rintro text e d' root (⟨h, hr⟩ | h)
    · exact mergeStatusLine_error hp (Path.named_ofText text) hr h
    · exact mergeHooks_error hp (Path.named_ofText text) h

/-- A project where a directory stands in the way of new settings. -/
def blocked : Disk :=
  ⟨.dir ⟨0, false⟩
    [ ("old.json", .file "\x7b\x7d".toUTF8 0o644 ⟨0, false⟩)
    , (".claude", .dir ⟨0, false⟩
        [ ("settings.json", .file "\x7b\x7d".toUTF8 0o644 ⟨0, false⟩)
        , ("settings.json.tmp", .dir ⟨0, false⟩ []) ]) ], [], 0⟩

theorem write_blocked :
    let file := Path.ofText "/.claude/settings.json"
    let r := (write file [] (some (Path.ofText "/old.json"))).on blocked
    let r' := (mergeStatusLine (Path.ofText "/")).on blocked
    blocked.top.isPlain = true ∧ Doubles blocked (Path.ofText "/old.json") file ∧
      Sound blocked (Path.ofText "/") ∧ r.1.isOk = false ∧ r'.1.isOk = false ∧
      r.2.top.holds? [".claude", "settings.json"] = some (some "\x7b\x7d".toUTF8) ∧
      r'.2.top.holds? [".claude", "settings.json"] = some (some "\x7b\x7d".toUTF8) := by
  intro file r r'
  have hp : blocked.top.isPlain = true := by decide +kernel
  have hd : Doubles blocked (Path.ofText "/old.json") file :=
    ⟨by decide +kernel, by decide +kernel, "\x7b\x7d".toUTF8, by decide +kernel, by decide +kernel⟩
  have hs : Sound blocked (Path.ofText "/") := fun _ => by decide +kernel
  have hr : r.1.isOk = false := by decide +kernel
  have hr' : r'.1.isOk = false := by decide +kernel
  obtain ⟨hwrite, hmerge⟩ := write_all_or_nothing blocked hp
  obtain ⟨e, he⟩ := eq_error_of_isOk hr
  obtain ⟨e', he'⟩ := eq_error_of_isOk hr'
  refine ⟨hp, hd, hs, hr, hr', ?_, ?_⟩
  · exact ((hwrite "/.claude/settings.json" [] _ (by rintro b ⟨⟩; exact hd)).2.1 e r.2 he).1
  · exact hmerge "/" e' r'.2 (Or.inl ⟨he', hs⟩)

/-- A project whose settings are missing. -/
def bare : Disk := ⟨.dir ⟨0, false⟩ [(".claude", .dir ⟨0, false⟩ [])], [], 0⟩

/-- A root that is spelled through missing settings makes them a directory. -/
theorem mergeStatusLine_makes_settings_dir :
    let root := Path.ofText "/.claude/settings.json/../.."
    let r := (mergeStatusLine root).on bare
    bare.top.isPlain = true ∧ r.1.isOk = false ∧
      bare.place (Layout.settings root) = [".claude", "settings.json"] ∧
      bare.top.holds? [".claude", "settings.json"] = none ∧
      r.2.top.holds? [".claude", "settings.json"] = some none := by
  decide +kernel

end Outfitter.Settings
