import Outfitter.Proofs.Update.Failure
import Outfitter.Proofs.Update.Tidied

/-! # Updates that are repeated

An automatic update that succeeds leaves a project that the next one does not change. What the
bundle brings is there or cannot be put there, the settings and the ignore file leave nothing to
do, and the places where the next update writes in between, the stamp and the retired files, end
as they were. Only snapshots come and go.
-/

namespace Outfitter.Update

open Disk Action Files Install Snapshot

variable {k : Kit} {root : Path} {keep : Nat} {r : Report} {d e a a' : Disk} {version name : String} {q : List String}

/-! ## The same bundle once more -/

/-- Places where the next update writes, but that end as they were. -/
def Transient (e : Disk) (root : Path) (q : List String) : Prop :=
  q = spot e root Layout.stampName ∨ ∃ text ∈ Inventory.retired, q = spot e root text ∧ e.Admits (root / text)

section Again

variable {b : Bundle} {t₁ t₂ a₁ a₂ : Disk} {log₁ log₂ : List (String × Verdict)}
  (h₁ : Accounts b .curated root t₁ log₁ a₁) (h₂ : Accounts b .curated root t₂ log₂ a₂)
  (hnames : log₂.map Prod.fst = log₁.map Prod.fst)
  (hbundle : ∀ name ∈ log₁.map Prod.fst, isClean name = true ∧ Manifest.curated.includes name = true)
  (hread : ∀ name x y, Reads b .curated root t₁ (log₁.map Prod.fst) name x →
    Reads b .curated root t₂ (log₂.map Prod.fst) name y → ((b.read name).on x).1 = ((b.read name).on y).1)
  (hp₁ : t₁.top.isPlain = true) (hroot₁ : t₁.Leads root) (hroot₂ : t₂.Leads root)
  (hsave : ((Release.save root version).on (tidy root keep a₁).2).2 = e)
  (ht : Still e root (fun _ => False) t₂)

include h₁ h₂ hnames hbundle hread hp₁ hroot₁ hroot₂ hsave ht

/-- What is copied by the next update is there, unless it is the stamp or retired. -/
theorem brought_before {before after : List (String × Verdict)} {bytes : ByteArray}
    (hlog : log₂ = before ++ (name, .copied) :: after)
    (hbytes : ((b.read name).on (turn b .curated root t₂ (before.map Prod.fst))).1 = .ok bytes)
    (hx : ¬ Transient e root (spot e root (Inventory.destination name))) :
    ∃ t, e.top.at? (spot e root (Inventory.destination name)) =
      some (.file bytes (modeOf (Inventory.destination name)) t) := by
  have hn := hroot₁.named hp₁
  have hpa := h₁.steps.isPlain hp₁
  have hmap := map_of_log hlog
  have hmem : name ∈ log₁.map Prod.fst := by
    rw [← hnames, hmap]
    simp
  obtain ⟨hc, hi⟩ := hbundle name hmem
  have hd := isName_destination hc
  have hcloses : Steps (Closes a₁ root) a₁ ((Release.save root version).on (tidy root keep a₁).2).2 :=
    steps_closes hpa hn
  have hfinish : Steps (Finishes a₁ root) a₁ ((Release.save root version).on (tidy root keep a₁).2).2 :=
    steps_finish hpa hn
  rw [hsave] at hcloses hfinish
  have hplace : a₁.place root = t₁.place root := h₁.steps.place_eq root
  have hplace₂ : e.place root = t₁.place root := (hcloses.place_eq root).trans hplace
  have hcwd : t₂.cwd = t₁.cwd := ht.cwd.trans (hcloses.cwd_eq.trans h₁.steps.cwd_eq)
  -- the disk on which it is copied
  have hclean₂ : ∀ name ∈ log₂.map Prod.fst, isClean name = true := fun name hmem => (hbundle name (hnames ▸ hmem)).1
  have hs₂ : Steps Lasting t₂ (turn b .curated root t₂ (before.map Prod.fst)) :=
    steps_to_turn ht.plain hn (hmap ▸ hclean₂)
  obtain ⟨hwants, hcopy⟩ := of_verdict_copied (h₂.verdicts before name .copied after hlog)
  obtain ⟨hopen, -⟩ := open_of_copyOne (hs₂.isPlain ht.plain) hn hd hcopy
  have hretired : Inventory.destination name ∉ Inventory.retired := by
    intro hmem
    refine hx (Or.inr ⟨_, hmem, rfl, ?_⟩)
    rw [Admits, ← trail_of_cwd (hs₂.cwd_eq.trans ht.cwd)]
    exact hopen.admits
  have hout : ∀ zs, zs <+: splitSlash (Inventory.destination name) → Outlasts a₁ t₂ (t₁.place root ++ zs) := by
    intro zs hzs
    have hlast := outlasts_destination hcloses hc hi hretired hzs
    rw [hplace] at hlast
    refine hlast.trans (ht.retains (fun h => ?_) (by simp)).outlasts
    rw [← hplace₂] at h
    exact not_archived_destination hc hi (h.below ((List.prefix_append_right_inj _).mpr hzs))
  -- so it was copied before, with the same bytes
  have hcopied : (name, .copied) ∈ log₁ :=
    copied_before h₁ h₂ hlog hmem hp₁ ht.plain hroot₁ hroot₂ hcwd (fun name hmem => (hbundle name hmem).1) hclean₂
      (fun zs hzs _ => hout zs hzs) (hread name)
  obtain ⟨before₁, name₁, after₁, bytes₁, t, hlog₁, hdest, -, hbytes₁, hat⟩ :=
    h₁.copied (Inventory.destination name) (mem_copied.mpr ⟨_, hcopied, rfl, rfl⟩)
  have hmap₁ := map_of_log hlog₁
  obtain rfl : name = name₁ :=
    Manifest.destination_inj hi (hbundle name₁ (by rw [hmap₁]; simp)).2 hdest
  have hwants₁ := (of_verdict_copied (h₁.verdicts before₁ name .copied after₁ hlog₁)).1
  have hsame := hread name _ _ ⟨hwants₁, _, _, hmap₁, rfl⟩ ⟨hwants, _, _, hmap, rfl⟩
  rw [hbytes₁, hbytes] at hsame
  obtain rfl : bytes₁ = bytes := Except.ok.inj hsame
  -- and nothing has changed it since
  have hunsettled : Inventory.destination name ∉ unsettled := by
    intro hmem
    rcases List.mem_append.mp hmem with hmem | hmem
    · rcases List.mem_cons.mp hmem with hsettings | hstamp
      · have hfile := ((hout _ (List.prefix_refl _)).trans (outlasts_of_lasting hs₂ _)).file ⟨_, _, _, hat⟩
        rw [← place_of_cwd hcwd, ← hs₂.place_eq] at hfile
        refine not_wants_of_file (hs₂.isPlain ht.plain) (leads_of_lasting ht.plain hroot₂ hs₂) hc hopen.admits ?_ hfile
          hwants
        rw [hsettings]
        decide
      · exact hx (Or.inl (by rw [List.mem_singleton.mp hstamp]))
    · exact hretired hmem
  rw [spot, ← hplace] at hat
  refine ⟨t, ?_⟩
  rw [spot, hplace₂, ← hplace]
  exact (file_iff_destination hc hi hfinish hunsettled).mpr hat

theorem still_installed : Still e root (Transient e root) a₂ where
  plain := h₂.steps.isPlain ht.plain
  cwd := h₂.steps.cwd_eq.trans ht.cwd
  dirs q hq hd := h₂.steps.dir (fun _ he => absurd rfl he) (ht.dirs q hq hd)
  files q hq hx c m := by
    by_cases hcopied : ∃ dest ∈ (reported log₂).copied, q = spot t₂ root dest
    · obtain ⟨dest, hdest, rfl⟩ := hcopied
      obtain ⟨before, name, after, bytes, t, hlog, rfl, -, hbytes, hat⟩ := h₂.copied dest hdest
      rw [ht.spot_eq] at hx hat ⊢
      obtain ⟨t', hat'⟩ := brought_before h₁ h₂ hnames hbundle hread hp₁ hroot₁ hroot₂ hsave ht hlog hbytes hx
      simp [hat, hat']
    · rw [← ht.files q hq (by simp) c m]
      exact exists_congr fun t => h₂.others q (fun dest hdest hq => hcopied ⟨dest, hdest, hq⟩) c m t

end Again

/-! ## The same phases once more -/

theorem no_file_of_retired {text : String} (hp : a.top.isPlain = true) (hroot : a.Leads root)
    (htext : text ∈ Inventory.retired) (ha : a.Admits (root / text)) (hf : a.isFile (root / text) = false)
    (c : ByteArray) (m : Nat) (t : Stamp) : a.top.at? (spot a root text) ≠ some (.file c m t) := by
  intro hat
  have hname : ∀ text ∈ Inventory.retired, ∀ s ∈ splitSlash text, isName s = true := by decide
  have hfile := (isFile_join_iff (Node.linkFree_of_isPlain hp) (hname text htext) (Path.splitSlash_ne_nil _)).mpr
    ⟨ha, hroot, c, m, t, hat⟩
  exact absurd (hf.symm.trans hfile) (by simp)

section Tidied

variable (h : Tidied version root e)

include h

theorem still_without_retired (hroot : a.Leads root) (hs : Still e root (Transient e root) a) :
    Still e root (· = spot e root Layout.stampName) ((removeRetired root).on a).2 := by
  have hretires : Steps (Retires a root) a ((removeRetired root).on a).2 := steps_removeRetired hs.plain
  have hspared : ∀ q, Spared (Retires a root) q := fun q p he => by cases he.1
  refine ⟨hretires.isPlain hs.plain, hretires.cwd_eq.trans hs.cwd,
    fun q hq hd => hretires.dir (hspared q) (hs.dirs q hq hd), fun q hq hstamp c m => ?_⟩
  by_cases hx : Transient e root q
  · -- a retired file is on neither disk
    obtain ⟨text, htext, rfl, ha⟩ := hx.resolve_left hstamp
    have hno := no_file_of_retired h.plain h.leads htext ha (h.retired text htext)
    have hno' := no_file_of_retired (hretires.isPlain hs.plain) (hretires.leads hs.plain (fun _ _ => hspared _) hroot)
      htext ?_ (isFile_removeRetired hs.plain text htext)
    · rw [spot, place_of_cwd (hretires.cwd_eq.trans hs.cwd)] at hno'
      refine iff_of_false ?_ ?_
      · rintro ⟨t, hat⟩
        exact hno' c m t hat
      · rintro ⟨t, hat⟩
        exact hno c m t hat
    · rwa [Admits, trail_of_cwd (hretires.cwd_eq.trans hs.cwd)]
  · have hretains : Retains a ((removeRetired root).on a).2 q := by
      refine hretires.retains ?_ (hspared q)
      rintro edit ⟨-, text, htext, rfl, ha⟩
      refine absurd (Or.inr ⟨text, htext, hs.spot_eq text, ?_⟩) hx
      rwa [Admits, trail_of_cwd hs.cwd] at ha
    exact (hretains.file c m).trans (hs.files q hq hx c m)

/-- The merges and the ignore file have nothing to do. -/
theorem tended_again (hroot : a.Leads root) (hs : Still e root (· = spot e root Layout.stampName) a) :
    ((ensureIgnored root Layout.ignoredPlans (some ignoreComment)).on
      ((Settings.mergeHooks root).on ((Settings.mergeStatusLine root).on a).2).2).2 = a := by
  have hl := Node.linkFree_of_isPlain hs.plain
  have hle := Node.linkFree_of_isPlain h.plain
  have hquiet : Settings.Quiet a root := by
    have hretains : Retains e a (spot e root ".claude/settings.json") :=
      hs.retains (not_archived_spot (by decide)) fun h => absurd (spot_inj h) (by decide)
    exact h.quiet.retained hretains hle hl hs.cwd h.leads hroot
  have hheeds : Heeds a root Layout.ignoredPlans := by
    have hretains : Retains e a (spot e root Layout.ignoreName) :=
      hs.retains (not_archived_spot (by decide)) fun h => absurd (spot_inj h) (by decide)
    exact h.heeds.retained hretains hle hl hs.cwd hroot
  have hmake : (makeDirs (Layout.assetsDir root)).on a = (.ok (), a) := by
    obtain ⟨t, hat⟩ := h.stamp
    have hstamp : spot e root Layout.stampName = spot e root Layout.assetsDirName ++ [".pilot-version"] := by
      rw [spot, spot, List.append_assoc]
      rfl
    rw [hstamp] at hat
    have hdir := hs.dirs _ (not_archived_spot (by decide)) (Node.dir_above hat)
    rw [← hs.spot_eq] at hdir
    obtain ⟨t', es, hat'⟩ := Node.shape?_eq_dir.mp hdir
    have hadmits : a.Admits (Layout.stamp root) := by
      rw [Admits, trail_of_cwd hs.cwd]
      exact h.admits
    have hname : ∀ s ∈ splitSlash Layout.assetsDirName, isName s = true := by decide
    exact makeDirs_of_there hl (locate_join hl hroot hname (Path.splitSlash_ne_nil _)
      (hadmits.of_join (by decide) (by decide) hname isName_stamp (by decide) (by decide)) hat')
  rw [Settings.mergeStatusLine_of_quiet hl hmake hquiet, Settings.mergeHooks_of_quiet hl hquiet,
    ensureIgnored_of_heeds hl hheeds]

end Tidied

/-- An installation puts nothing where settings are staged. -/
theorem staging_free {b : Bundle} {log : List (String × Verdict)} (h : Accounts b .curated root d log a)
    (hp : d.top.isPlain = true) (hroot : d.Leads root)
    (hbundle : ∀ name ∈ log.map Prod.fst, isClean name = true ∧ Manifest.curated.includes name = true) :
    a.top.shape? (spot d root ".claude/settings.json.tmp") = d.top.shape? (spot d root ".claude/settings.json.tmp") := by
  have hno : ∀ name ∈ log.map Prod.fst,
      ¬ splitSlash ".claude/settings.json.tmp" <+: splitSlash (Inventory.destination name) := fun name hmem =>
    not_below_staging (hbundle name hmem).1 (hbundle name hmem).2
  have hfiles : ∀ c m t, a.top.at? (spot d root ".claude/settings.json.tmp") = some (.file c m t) ↔
      d.top.at? (spot d root ".claude/settings.json.tmp") = some (.file c m t) := by
    refine h.others _ fun dest hdest hspot => ?_
    obtain ⟨l, hmem, rfl⟩ := List.mem_map.mp hdest
    exact hno l.1 (List.mem_map_of_mem (List.mem_of_mem_filter hmem)) (spot_inj hspot ▸ List.prefix_refl _)
  have hdirs : a.top.shape? (spot d root ".claude/settings.json.tmp") = some .dir →
      d.top.shape? (spot d root ".claude/settings.json.tmp") = some .dir := by
    intro hd
    refine (h.dirs _ hd).elim id ?_
    rintro ⟨l, hmem, -, names, hpre, hplace⟩
    have hmem' : l.1 ∈ log.map Prod.fst := List.mem_map_of_mem hmem
    rcases List.prefix_or_prefix_of_prefix hpre (List.prefix_append (d.trail root) _) with hpre' | ⟨zs, rfl⟩
    · rw [← hplace]
      exact ((leads_iff (Node.linkFree_of_isPlain hp)).mp hroot).2 names hpre'
    · have hzs := ((List.prefix_append_right_inj _).mp hpre).trans (List.dropLast_prefix _)
      rw [climb_below fun s hs => isName_destination (hbundle l.1 hmem').1 s (hzs.subset hs)] at hplace
      rw [List.append_cancel_left hplace] at hzs
      exact absurd hzs (hno l.1 hmem')
  by_cases hf : ∃ c m t, a.top.at? (spot d root ".claude/settings.json.tmp") = some (.file c m t)
  · obtain ⟨c, m, t, hat⟩ := hf
    rw [Node.shape?_eq_file.mpr hat, Node.shape?_eq_file.mpr ((hfiles c m t).mp hat)]
  · have hfa : ∀ c m t, a.top.at? (spot d root ".claude/settings.json.tmp") ≠ some (.file c m t) :=
      fun c m t hat => hf ⟨c, m, t, hat⟩
    have hfd : ∀ c m t, d.top.at? (spot d root ".claude/settings.json.tmp") ≠ some (.file c m t) :=
      fun c m t hat => hf ⟨c, m, t, (hfiles c m t).mpr hat⟩
    rcases Node.shape?_of_not_file hp hfd with hd | hd
    · refine (Node.shape?_of_not_file (h.steps.isPlain hp) hfa).elim (fun ha => ha.trans hd.symm) fun ha => ?_
      rw [hdirs ha] at hd
      cases hd
    · rw [hd, h.steps.dir (fun _ he => absurd rfl he) hd]

/-! ## The update once more -/

theorem Homed.of_cwd (h : Homed d root) (hcwd : a.cwd = d.cwd) : Homed a root := by
  rw [Homed, base_of_cwd hcwd]
  intro ys hys
  rw [Archived, place_of_cwd hcwd]
  exact h ys hys

/-- On two disks the bundle of an update answers alike: it lists the same names, and gives the
same for a file whenever that is read. -/
structure Alike (k : Kit) (root : Path) (d d' : Disk) : Prop where
  files : (k.bundle.files.on ((take root).on d').2).1 = (k.bundle.files.on ((take root).on d).2).1
  read : ∀ name x y, Reads k.bundle k.manifest root ((take root).on d).2 (installs k root d) name x →
    Reads k.bundle k.manifest root ((take root).on d').2 (installs k root d') name y →
    ((k.bundle.read name).on x).1 = ((k.bundle.read name).on y).1

theorem install_alike {d₂ : Disk} {files : Install.Report} (h : Alike k root d d₂)
    (hinstall : (Install.run k.bundle k.manifest root).on ((take root).on d).2 = (.ok files, a)) :
    ∃ files₂ a₂, (Install.run k.bundle k.manifest root).on ((take root).on d₂).2 = (.ok files₂, a₂) := by
  have hlist := h.files
  rcases Install.run_cases k.bundle k.manifest root ((take root).on d).2 with ⟨e', -, hrun⟩ | ⟨_, _, hfiles, -, -⟩
  · rw [hrun] at hinstall
    cases hinstall
  · rw [hfiles] at hlist
    rcases Install.run_cases k.bundle k.manifest root ((take root).on d₂).2 with ⟨e', hfiles₂, -⟩ | ⟨files₂, a₂, -, -, hrun⟩
    · rw [hfiles₂] at hlist
      cases hlist
    · exact ⟨files₂, a₂, hrun⟩

/-- What follows the second installation restores the files that the first update left. -/
theorem files_again (h : Tidied version root e) (hroot : a.Leads root) (hs : Still e root (Transient e root) a)
    (hsave : (Release.save root version).on (tidy root keep a).2 = (.ok (), a')) (hq : ¬ Archived e root q)
    (c : ByteArray) (m : Nat) :
    (∃ t, a'.top.at? q = some (.file c m t)) ↔ ∃ t, e.top.at? q = some (.file c m t) := by
  have hn := hroot.named hs.plain
  have hretires : Steps (Retires a root) a ((removeRetired root).on a).2 := steps_removeRetired hs.plain
  have hstill := still_without_retired h hroot hs
  have htends := tended_again h (hretires.leads hs.plain (fun _ _ _ he => by cases he.1) hroot) hstill
  have htidy : (tidy root keep a).2 = ((prune root keep).on ((ensureIgnored root Layout.ignoredPlans
      (some ignoreComment)).on ((Settings.mergeHooks root).on ((Settings.mergeStatusLine root).on
        ((removeRetired root).on a).2).2).2).2).2 := rfl
  rw [htidy, htends] at hsave
  have hends := hstill.saved hn rfl hsave
  by_cases hstamp : q = spot e root Layout.stampName
  · obtain ⟨-, -, t', hat'⟩ := stamp_of_saved hstill.prune.plain hn hsave
    obtain ⟨t, hat⟩ := h.stamp
    rw [hends.spot_eq, ← hstamp] at hat'
    rw [← hstamp] at hat
    simp [hat, hat']
  · exact hends.files q hq hstamp c m

section Updated

variable (hp : d.top.isPlain = true) (hroot : d.Leads root) (hh : Homed d root) (hm : k.manifest = .curated)
  (hbundle : ∀ name ∈ installs k root d, isClean name = true ∧ Manifest.curated.includes name = true)
  (hupdated : (auto k root keep r d).1.status = .updated)

include hp hroot hh hm hbundle hupdated

theorem accounts_of_updated : ∃ log a, log.map Prod.fst = installs k root d ∧
    Accounts k.bundle .curated root ((take root).on d).2 log a ∧ a.top.isPlain = true ∧ a.Leads root ∧
    (Release.save root k.version).on (tidy root keep a).2 = (.ok (), (auto k root keep r d).2) := by
  have hp₁ := (steps_take hp (hroot.named hp)).isPlain hp
  obtain ⟨files, a, hinstall, hsave, -⟩ := auto_updated hupdated
  obtain ⟨log, hlog, -, h⟩ :=
    accounts_of_run hp₁ (hroot.named hp) (fun name hmem => (hbundle name hmem).1) hinstall
  rw [hm] at h
  exact ⟨log, a, hlog, h, h.steps.isPlain hp₁, leads_of_steps hp₁ (leads_after_take hp hroot hh) h.steps, hsave⟩

theorem tidied_of_updated (hfree : ∀ s, d.top.shape? (spot d root ".claude/settings.json.tmp") = some s →
      ∃ c m t, s = .file c m t ∧ isReadable m = true ∧ isWritable m = true) :
    Tidied k.version root (auto k root keep r d).2 := by
  obtain ⟨log, a, hlog, h, hpa, hroota, hsave⟩ := accounts_of_updated hp hroot hh hm hbundle hupdated
  have htake := steps_take hp (hroot.named hp)
  refine tidied_of_saved hpa hroota hsave fun s hs => hfree s ?_
  have hplace : a.place root = d.place root := (h.steps.place_eq root).trans (htake.place_eq root)
  have hstaging := staging_free h (htake.isPlain hp) (leads_after_take hp hroot hh) (hlog ▸ hbundle)
  rw [spot, htake.place_eq] at hstaging
  rw [spot, hplace, hstaging, shape?_take hp hroot] at hs
  · exact hs
  · intro hpre
    exact absurd ((List.prefix_append_right_inj _).mp hpre) (by decide)

/-- After an update that left nothing to do, the next one leaves the files as they are. -/
theorem auto_again {keep' : Nat} {r' : Report} {d₂ : Disk} (htidied : Tidied k.version root (auto k root keep r d).2)
    (hnext : Resumes (auto k root keep r d).2 d₂) (halike : Alike k root d d₂) (hq : ¬ Archived d root q)
    (c : ByteArray) (m : Nat) :
    (∃ t, (auto k root keep' r' d₂).2.top.at? q = some (.file c m t)) ↔
      ∃ t, (auto k root keep r d).2.top.at? q = some (.file c m t) := by
  have hn := hroot.named hp
  have htake := steps_take hp hn
  obtain ⟨log₁, a₁, hlog₁, h₁, hpa, hroota, hsave⟩ := accounts_of_updated hp hroot hh hm hbundle hupdated
  obtain ⟨files, _, hinstall, -⟩ := auto_updated hupdated
  generalize (auto k root keep r d).2 = e at htidied hnext hsave ⊢
  have hfinish : Steps (Finishes a₁ root) a₁ ((Release.save root k.version).on (tidy root keep a₁).2).2 :=
    steps_finish hpa hn
  rw [hsave] at hfinish
  have hcwd : e.cwd = d.cwd := hfinish.cwd_eq.trans (h₁.steps.cwd_eq.trans htake.cwd_eq)
  -- where the next update starts
  have hp₂ := hnext.plain
  have hroot₂ := hnext.leads htidied.plain htidied.leads
  have hh₂ : Homed d₂ root := hh.of_cwd (hnext.cwd.trans hcwd)
  have hstill : Still e root (fun _ => False) d₂ :=
    ⟨hp₂, hnext.cwd, fun q _ => (hnext.retains q).dir, fun q _ _ => (hnext.retains q).file⟩
  have ht : Still e root (fun _ => False) ((take root).on d₂).2 := hstill.take hn
  have hroott := leads_after_take hp₂ hroot₂ hh₂
  -- it installs the same bundle
  have hsame : installs k root d₂ = installs k root d := by
    rw [installs, installs, listed, listed, halike.files]
  have hclean₂ : ∀ name ∈ installs k root d₂, isClean name = true := by
    rw [hsame]
    exact fun name hmem => (hbundle name hmem).1
  obtain ⟨files₂, a₂, hinstall₂⟩ := install_alike halike hinstall
  obtain ⟨log₂, hlog₂, -, h₂⟩ := accounts_of_run ht.plain hn hclean₂ hinstall₂
  rw [hm] at h₂
  have hagain : Still e root (Transient e root) a₂ := by
    refine still_installed h₁ h₂ (hlog₂.trans (hsame.trans hlog₁.symm)) (hlog₁ ▸ hbundle) ?_ (htake.isPlain hp)
      (leads_after_take hp hroot hh) hroott (congrArg Prod.snd hsave) ht
    rw [hlog₁, hlog₂, ← hm]
    exact halike.read
  -- and can save the stamp
  obtain ⟨d₃, hsave₂⟩ : ∃ d₃, (Release.save root k.version).on (tidy root keep' a₂).2 = (.ok (), d₃) :=
    save_of_stamp hp₂ hroot₂ hh₂ hclean₂ hinstall₂
      (hnext.isFile htidied.plain isName_stamp (Path.splitSlash_ne_nil _) htidied.isFile_stamp)
  rw [(auto_ok (r := r') hinstall₂ hsave₂).2]
  refine files_again htidied (leads_of_steps ht.plain hroott h₂.steps) hagain hsave₂ ?_ c m
  rwa [Archived, place_of_cwd hcwd]

end Updated

/-- A bundle that is held answers alike on all disks. -/
theorem Alike.of_held {names : List String} {contents : List (String × ByteArray)} {manifest : Manifest} (d d' : Disk) :
    Alike ⟨.held names contents, manifest, version⟩ root d d' := by
  constructor
  · simp only [Bundle.files, on_pure]
  · intro name x y _ _
    simp only [Bundle.read]
    cases contents.lookup name <;> simp

/-- Settings without a status line, beside staged settings that were left over. -/
def worn : Disk :=
  ⟨.dir ⟨0, false⟩
    [ (".claude", .dir ⟨1, false⟩
        [ ("settings.json", .file "\x7b\"hooks\":0\x7d".toUTF8 0o644 ⟨2, false⟩)
        , ("settings.json.tmp", .file "left over".toUTF8 0o444 ⟨3, false⟩) ]) ],
    [], 100⟩

end Outfitter.Update
