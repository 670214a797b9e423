import Outfitter.Proofs.Settings.Merge

/-! # Settings that can be saved

Settings are ready if nothing stands in the way of a new version of them. A document is then
saved as a whole, and the settings are ready again.
-/

namespace Outfitter.Settings

open Disk Action Files Json

variable {d d' : Disk} {root : Path} {doc : Document} {backup : Option Path} {text : String}

theorem isName_staging : ∀ s ∈ [Layout.assetsDirName, "settings.json.tmp"], isName s = true := by decide

/-- A new version of the settings can be prepared: its path is one that the system takes, and
nothing stands there, or a file that its owner may read and write. -/
structure Ready (d : Disk) (root : Path) : Prop where
  plain : d.top.isPlain = true
  leads : d.Leads root
  assets : d.top.shape? (d.place root ++ [Layout.assetsDirName]) = some .dir
  admits : d.Admits (Layout.staging (Layout.settings root))
  free : ∀ s, d.top.shape? (d.place root ++ [Layout.assetsDirName, "settings.json.tmp"]) = some s →
    ∃ c m t, s = .file c m t ∧ isReadable m = true ∧ isWritable m = true

namespace Ready

theorem admits_join (h : Ready d root) :
    d.Admits (root.join ⟨[Layout.assetsDirName, "settings.json.tmp"]⟩) := by
  rw [← Layout.staging_settings]
  exact h.admits

theorem admits_settings (h : Ready d root) : d.Admits (Layout.settings root) :=
  h.admits_join.of_join (by decide) (by simp) Layout.isName_settings isName_staging (by decide) (by decide)

theorem locate (h : Ready d root) (follow : Bool) {name : String} (hname : isName name = true)
    (ha : d.Admits (root.join ⟨[Layout.assetsDirName, name]⟩)) :
    d.locate follow (root.join ⟨[Layout.assetsDirName, name]⟩) =
      match d.top.at? (d.place root ++ [Layout.assetsDirName, name]) with
      | some n => .ok (.there (d.place root ++ [Layout.assetsDirName, name]) n)
      | none => .ok (.vacant (d.place root ++ [Layout.assetsDirName]) name) := by
  have hl := Node.linkFree_of_isPlain h.plain
  have hn : ∀ s ∈ [Layout.assetsDirName] ++ [name], isName s = true := Layout.isName_sibling hname
  exact locate_entry hl h.leads hn ha h.assets

theorem makeDirs (h : Ready d root) : (makeDirs (Layout.assetsDir root)).on d = (.ok (), d) := by
  have hl := Node.linkFree_of_isPlain h.plain
  have hone : ∀ s ∈ [Layout.assetsDirName], isName s = true := by decide
  obtain ⟨t, es, hat⟩ := Node.shape?_eq_dir.mp h.assets
  exact makeDirs_of_there hl (locate_join hl h.leads hone (by decide)
    (h.admits_join.of_join (by decide) (by simp) hone isName_staging (by decide) (by decide)) hat)

theorem steps {allow : Edit → List String → Prop} (h : Ready d root) (hs : Steps allow d d')
    (ha : ∀ p, ¬ allow .erase p)
    (hfree : ∀ s, d'.top.shape? (d.place root ++ [Layout.assetsDirName, "settings.json.tmp"]) = some s →
      ∃ c m t, s = .file c m t ∧ isReadable m = true ∧ isWritable m = true) : Ready d' root where
  plain := hs.isPlain h.plain
  leads := hs.leads h.plain (fun _ _ p hp => absurd hp (ha p)) h.leads
  assets := by
    rw [hs.place_eq]
    exact hs.dir (fun p hp => absurd hp (ha p)) h.assets
  admits := hs.admits_iff.mpr h.admits
  free := by
    rw [hs.place_eq]
    exact hfree

/-- The new version is written beside the settings, which leaves them ready. -/
theorem stages (h : Ready d root) (bytes : ByteArray) :
    ∃ d₁ mode, d.write (Layout.staging (Layout.settings root)) bytes = .ok d₁ ∧
      Steps (Writes (d.place root ++ [Layout.assetsDirName, "settings.json.tmp"])) d d₁ ∧
      Ready d₁ root ∧ isReadable mode = true ∧
      d₁.top.at? (d.place root ++ [Layout.assetsDirName, "settings.json.tmp"]) =
        some (.file bytes mode d.now) := by
  have hloc := h.locate true (by decide) h.admits_join
  rw [← Layout.staging_settings] at hloc
  obtain ⟨d₁, hw⟩ : ∃ d₁, d.write (Layout.staging (Layout.settings root)) bytes = .ok d₁ := by
    split at hloc
    · next n hat =>
      obtain ⟨c, m, t, hfile, -, hm⟩ := h.free n.shape (by rw [Node.shape?, hat, Option.map_some])
      cases n with
      | file c' m' t' =>
        cases hfile
        exact ⟨_, edit_of_file hloc hm⟩
      | link => cases hfile
      | dir => cases hfile
    · refine ⟨_, edit_of_vacant hloc ?_⟩
      rw [Layout.staging_settings]
      exact Path.endsIdle_join (by simp) isName_staging
  have hs : Steps (Writes (d.place root ++ [Layout.assetsDirName, "settings.json.tmp"])) d d₁ := by
    rw [← place_staging_settings]
    exact edit_steps h.plain (named_staging (named_settings (h.leads.named h.plain)))
      ⟨rfl, Or.inl rfl⟩ ⟨rfl, Or.inr rfl⟩ hw
  obtain ⟨mode, hat, -, hmode⟩ := Disk.write_ok (Node.linkFree_of_isPlain h.plain) hw
  rw [place_staging_settings] at hat hmode
  have hopen : isReadable mode = true ∧ isWritable mode = true := by
    rcases hmode with ⟨c, t, hold⟩ | ⟨-, rfl⟩
    · obtain ⟨_, _, _, hfile, hm⟩ := h.free _ (Node.shape?_eq_file.mpr hold)
      cases hfile
      exact hm
    · decide
  refine ⟨d₁, mode, hw, hs, ?_, hopen.1, hat⟩
  refine h.steps hs (fun p hp => by simp [Writes] at hp) fun s hshape => ?_
  rw [Node.shape?_eq_file.mpr hat] at hshape
  cases hshape
  exact ⟨bytes, mode, d.now, rfl, hopen⟩

/-- A new version that can be read back is put in place. -/
theorem write (h : Ready d root)
    (hdir : d.top.shape? (d.place root ++ [Layout.assetsDirName, "settings.json"]) ≠ some .dir)
    (hr : Json.read? (render doc) ≠ none) :
    ∃ d', (write (Layout.settings root) doc backup).on d = (.ok (), d') := by
  obtain ⟨d₁, mode, hw, hs, h₁, hmode, hat⟩ := h.stages (render doc).toUTF8
  rw [← hs.place_eq] at hat
  have hstaged : ∀ follow, d₁.locate follow (Layout.staging (Layout.settings root)) =
      .ok (.there (d₁.place root ++ [Layout.assetsDirName, "settings.json.tmp"])
        (.file (render doc).toUTF8 mode d.now)) := by
    intro follow
    rw [Layout.staging_settings, h₁.locate follow (by decide) h₁.admits_join, hat]
  have hread : d₁.readText (Layout.staging (Layout.settings root)) = .ok (render doc) :=
    readText_of_find (find_ok_iff.mpr (hstaged true)) hmode (fromUTF8?_toUTF8 _)
  have hplain : d₁.top.shape? (d₁.place root ++ [Layout.assetsDirName, "settings.json"]) ≠ some .dir := by
    rw [hs.place_eq, shape?_of_writes hs (by simp)]
    exact hdir
  obtain ⟨d', hm⟩ : ∃ d', d₁.rename (Layout.staging (Layout.settings root)) (Layout.settings root) = .ok d' := by
    have hname : isName "settings.json" = true := by decide
    have htarget := h₁.locate false hname h₁.admits_settings
    refine rename_of_file (hstaged false) (Path.endsIdle_join (by decide) Layout.isName_settings) ?_
    split at htarget
    · next n hold =>
      cases n with
      | file c m t => exact Or.inl ⟨_, c, m, t, htarget⟩
      | link target => exact absurd hold (Node.linkFree_of_isPlain h₁.plain _ _)
      | dir t es => exact absurd (Node.shape?_eq_dir.mpr ⟨t, es, hold⟩) hplain
    · exact Or.inr ⟨_, _, htarget⟩
  have hstage : (stage (Layout.settings root) (Layout.staging (Layout.settings root)) doc).on d =
      (.ok (), d') := by
    unfold stage
    rw [on_bind_ok (on_change_ok hw), on_bind_ok (on_fetch_ok hread), if_neg (by simpa using hr)]
    exact on_change_ok hm
  refine ⟨d', ?_⟩
  unfold Settings.write
  rw [on_bind_attempt, hstage]
  rfl

end Ready

/-! ## Saving -/

/-- The settings hold a document as it is written, and nothing is staged. -/
structure Saved (d : Disk) (root : Path) (doc : Document) : Prop where
  ready : Ready d root
  bytes : d.readBytes (Layout.settings root) = .ok (render doc).toUTF8
  gone : d.top.shape? (d.place root ++ [Layout.assetsDirName, "settings.json.tmp"]) = none

theorem Saved.readText (h : Saved d root doc) : d.readText (Layout.settings root) = .ok (render doc) := by
  rw [Disk.readText, h.bytes]
  dsimp only
  rw [fromUTF8?_toUTF8]

/-- A document that can be read back is saved. -/
theorem Ready.save (h : Ready d root)
    (hdir : d.top.shape? (d.place root ++ [Layout.assetsDirName, "settings.json"]) ≠ some .dir)
    (hr : Json.read? (render doc) ≠ none) :
    ∃ d', (Settings.write (Layout.settings root) doc backup).on d = (.ok (), d') ∧ Saved d' root doc := by
  have hn := h.leads.named h.plain
  obtain ⟨d', hw⟩ : ∃ d', (Settings.write (Layout.settings root) doc backup).on d = (.ok (), d') :=
    h.write hdir hr
  obtain ⟨⟨mode, hfind, hmode⟩, hgone⟩ := write_ok h.plain (named_settings hn) hw
  have hs : Steps _ d ((Settings.write (Layout.settings root) doc backup).on d).2 :=
    write_steps h.plain (named_settings hn)
  rw [hw] at hs
  rw [place_staging_settings] at hgone
  refine ⟨d', hw, ?_, readBytes_of_find hfind hmode, ?_⟩
  · refine h.steps hs (fun p hp => spared_swaps p hp (List.prefix_refl _)) fun s hshape => ?_
    rw [hgone] at hshape
    cases hshape
  · rw [hs.place_eq]
    exact hgone

theorem Ready.saveOver (h : Ready d root)
    (hdir : d.top.shape? (d.place root ++ [Layout.assetsDirName, "settings.json"]) ≠ some .dir)
    (hr : Json.read? (render doc) ≠ none) :
    ∃ d', (saveOver (Layout.settings root) doc).on d = (.ok (), d') ∧ Saved d' root doc := by
  obtain ⟨backup, d₁, hback, hs, -⟩ := tryBackUp_ok h.plain (h.leads.named h.plain)
  have h₁ : Ready d₁ root := by
    refine h.steps hs (fun p hp => by simp [Writes] at hp) fun s hshape => ?_
    rw [shape?_of_writes hs (backupPlace_ne (by decide)).symm] at hshape
    exact h.free s hshape
  have hdir₁ : d₁.top.shape? (d₁.place root ++ [Layout.assetsDirName, "settings.json"]) ≠ some .dir := by
    rw [hs.place_eq, shape?_of_writes hs (backupPlace_ne (by decide)).symm]
    exact hdir
  obtain ⟨d', hw, hsaved⟩ : ∃ d', (Settings.write (Layout.settings root) doc backup).on d₁ = (.ok (), d') ∧
    Saved d' root doc := h₁.save hdir₁ hr
  refine ⟨d', ?_, hsaved⟩
  unfold Settings.saveOver
  rw [on_bind_ok hback]
  exact hw

/-! ## Merges as patches -/

/-- The document that the status line is added to, if it is missing. -/
def addStatusLine? (doc : Document) : Option Document :=
  if doc.contains statusLineKey then none else some (doc.set statusLineKey defaultStatusLine)

/-- The document with hooks that are added or qualified, if that changes anything. -/
def addHooks? (doc : Document) : Option Document :=
  match doc.get? hooksKey with
  | none => some (doc.set hooksKey defaultHooks)
  | some hooks =>
    match qualifyHooks hooks with
    | (_, 0) => none
    | (hooks, _) => some (doc.set hooksKey hooks)

theorem read_of_text {file : Path} (ht : d.readText file = .ok text)
    (hd : Json.read? text = some (.obj doc)) : (read file).on d = (.ok doc, d) := by
  unfold read
  rw [on_bind_ok (on_fetch_ok ht), parse, hd]
  rfl

theorem isThere_of_readText {file : Path} (ht : d.readText file = .ok text) :
    d.isThere file = true := by
  obtain ⟨_, _, _, _, hf, -⟩ := readText_ok ht
  rw [isThere, hf]
  rfl

theorem not_dir_of_readText (hl : d.top.LinkFree) (ht : d.readText (Layout.settings root) = .ok text) :
    d.top.shape? (d.place root ++ [Layout.assetsDirName, "settings.json"]) ≠ some .dir := by
  obtain ⟨_, c, m, t, hf, -⟩ := readText_ok ht
  obtain ⟨rfl, hat⟩ := find_ok hl hf
  rw [← Layout.place_settings, Node.shape?_eq_file.mpr hat]
  simp

/-- A merge saves what a patch makes of the settings, and leaves them alone if that is nothing. -/
def Patches (x : Action Outcome) (f : Document → Option Document) (root : Path) : Prop :=
  ∀ (d : Disk) (text : String) (doc : Document), Ready d root → d.readText (Layout.settings root) = .ok text →
    Json.read? text = some (.obj doc) →
    match f doc with
    | none => ∃ o, x.on d = (.ok o, d)
    | some doc' => Json.read? (render doc') ≠ none → ∃ o d', x.on d = (.ok o, d') ∧ Saved d' root doc'

theorem patches_mergeStatusLine : Patches (mergeStatusLine root) addStatusLine? root := by
  intro d text doc h ht hd
  unfold mergeStatusLine addStatusLine?
  simp only [on_bind_ok h.makeDirs, on_bind_ask, if_pos (isThere_of_readText ht),
    on_bind_ok (read_of_text ht hd)]
  by_cases hc : doc.contains statusLineKey = true
  · simp only [if_pos hc]
    exact ⟨_, rfl⟩
  · simp only [if_neg hc]
    intro hr
    obtain ⟨d', hsave, hsaved⟩ :=
      h.saveOver (not_dir_of_readText (Node.linkFree_of_isPlain h.plain) ht) hr
    exact ⟨_, d', on_bind_ok hsave, hsaved⟩

theorem patches_mergeHooks : Patches (mergeHooks root) addHooks? root := by
  intro d text doc h ht hd
  have hsave : ∀ doc', Json.read? (render doc') ≠ none → ∃ d',
      (saveOver (Layout.settings root) doc').on d = (.ok (), d') ∧ Saved d' root doc' := fun _ =>
    h.saveOver (not_dir_of_readText (Node.linkFree_of_isPlain h.plain) ht)
  unfold mergeHooks addHooks?
  simp only [on_bind_ask, if_pos (isThere_of_readText ht), on_bind_ok (read_of_text ht hd)]
  cases hg : doc.get? hooksKey with
  | none =>
    intro hr
    obtain ⟨d', hrun, hsaved⟩ := hsave _ hr
    exact ⟨_, d', on_bind_ok hrun, hsaved⟩
  | some hooks =>
    rcases hq : qualifyHooks hooks with ⟨hooks', n⟩
    cases n with
    | zero =>
      simp only [hq]
      exact ⟨_, rfl⟩
    | succ n =>
      simp only [hq]
      intro hr
      obtain ⟨d', hrun, hsaved⟩ := hsave _ hr
      exact ⟨_, d', on_bind_ok hrun, hsaved⟩

end Outfitter.Settings
