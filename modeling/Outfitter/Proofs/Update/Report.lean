import Mathlib.Data.List.Nodup
import Outfitter.Proofs.Install.Report
import Outfitter.Proofs.Manifest
import Outfitter.Proofs.Update.Manual
import Outfitter.Proofs.Update.Phases

/-! # Reports that are true

The report of an automatic update is made when the bundle is installed, and five phases follow.
They edit the settings and their siblings, the stamp, the ignore file, retired files and old
snapshots, and none of these but the settings and the stamp is a destination of what ships; so
what the report says is still true at the end.
-/

namespace Outfitter.Update

open Disk Action Files Install Snapshot

variable {k : Kit} {root : Path} {keep : Nat} {r : Report} {d d' : Disk} {version name : String}
  {e : Edit} {p q : List String}

/-! ## The phases that follow -/

/-- Edits of the phases that follow an installation. -/
def Finishes (d : Disk) (root : Path) (e : Edit) (p : List String) : Prop :=
  (e = .make ∨ e = .touch) ∨ Archived d root p ∨
    e ≠ .erase ∧ (Maintained d root p ∨ p = spot d root Layout.ignoreName)

theorem finishes_merges (h : Settings.Merges d root e p) : Finishes d root e p := by
  obtain ⟨hm, he⟩ := maintained_of_merges h
  refine Or.inr (Or.inr ⟨?_, Or.inl hm⟩)
  rcases he with rfl | rfl | rfl <;> simp

theorem steps_finish (hp : d.top.isPlain = true) (hn : root.Named) :
    Steps (Finishes d root) d ((Release.save root version).on (tidy root keep d).2).2 := by
  have hignore : ∀ s ∈ splitSlash Layout.ignoreName, isName s = true := by decide
  have hput : ∀ e text, e ≠ .erase → text ∈ maintained d.clock → Finishes d root e (spot d root text) :=
    fun e text he htext => Or.inr (Or.inr ⟨he, Or.inl (maintained_spot text htext)⟩)
  have hlog : ∀ e, e ≠ .erase → Finishes d root e (d.place (Layout.ignoreFile root)) :=
    fun e he => Or.inr (Or.inr ⟨he, Or.inr (place_div hignore)⟩)
  have hsave : Keeps (Steps (Finishes d root) d) (Release.save root version) := by
    refine keeps_replace hp (named_stamp hn) (steps_div root isName_stamp) (fun _ _ => Or.inl (Or.inl rfl))
      (Or.inl (Or.inr rfl)) ?_ fun _ => ?_
    · rw [Layout.stamp, place_div isName_stamp]
      exact hput _ _ (by simp) (by simp [maintained])
    · rw [Layout.stamp, place_div isName_stamp]
      exact hput _ _ (by simp) (by simp [maintained])
  refine hsave _ (tidy_keeps (P := Steps (Finishes d root) d) (Q := Steps (Finishes d root) d) ?_ ?_ ?_ ?_ ?_
    (.refl d))
  · exact keeps_removeRetired hp fun text htext _ => hput _ _ (by simp) (List.mem_append_left _ htext)
  · exact Settings.keeps_mergeStatusLine hp hn (fun _ _ => Or.inl (Or.inl rfl)) fun _ _ => finishes_merges
  · exact Settings.keeps_mergeHooks hp hn fun _ _ => finishes_merges
  · exact keeps_ensureIgnored hp (named_div hn hignore) (hlog _ (by simp)) (hlog _ (by simp))
  · exact Snapshot.keeps_prune hp fun name => Or.inr (Or.inl ⟨name, [], rfl⟩)

theorem file_iff_finish (hs : Steps (Finishes d root) d d') (ha : ¬ Archived d root q)
    (hm : ¬ Maintained d root q) (hi : q ≠ spot d root Layout.ignoreName) {c : ByteArray} {m : Nat} {t : Stamp} :
    d'.top.at? q = some (.file c m t) ↔ d.top.at? q = some (.file c m t) := by
  refine hs.file_iff (fun e he => ?_) (spared_of_not_archived ?_ ha)
  · exact he.resolve_right fun h => h.elim ha fun h => h.2.elim hm hi
  · rintro p (he | ha | ⟨he, -⟩)
    · rcases he with he | he <;> cases he
    · exact ha
    · exact absurd rfl he

/-! ## Destinations -/

/-- Destinations that the phases after an installation write or remove. -/
def unsettled : List String := [".claude/settings.json", Layout.stampName] ++ Inventory.retired

section Destination

variable (hc : isClean name = true) (hi : Manifest.curated.includes name = true)

include hc hi

theorem not_maintained_destination (hx : Inventory.destination name ∉ unsettled) :
    ¬ Maintained d root (spot d root (Inventory.destination name)) := by
  intro h
  have hno := Manifest.destination_no_sibling hc hi
  have htext := text_of_maintained h
  rw [text_splitSlash] at htext
  generalize Inventory.destination name = dest at hx hno htext
  simp only [unsettled, maintained, List.mem_append, List.mem_cons, List.not_mem_nil, or_false, not_or] at hx htext
  rcases htext with hretired | hstamp | hsettings | rfl | rfl
  · exact hx.2 hretired
  · exact hx.1.2 hstamp
  · exact hx.1.1 hsettings
  · exact hno (by decide)
  · rw [String.toList_append] at hno
    exact hno ((show ".claude/settings.json.".toList <+: ".claude/settings.json.backup.".toList by decide).trans
      (List.prefix_append _ _))

theorem not_archived_destination : ¬ Archived d root (spot d root (Inventory.destination name)) := by
  rintro ⟨entry, rest, h⟩
  refine Manifest.destination_apart hc hi ⟨entry :: rest, ?_⟩
  rw [List.append_cancel_left h]
  rfl

theorem file_iff_take (hs : Steps (fun e p => e = .make ∨ Archived d root p) d d') {c : ByteArray} {m : Nat} {t : Stamp} :
    d'.top.at? (spot d root (Inventory.destination name)) = some (.file c m t) ↔
      d.top.at? (spot d root (Inventory.destination name)) = some (.file c m t) := by
  refine hs.file_iff (fun e he => ?_) (spared_of_not_archived ?_ (not_archived_destination hc hi))
  · exact Or.inl (he.resolve_right (not_archived_destination hc hi))
  · rintro p (he | ha)
    · cases he
    · exact ha

theorem file_iff_destination (hs : Steps (Finishes d root) d d')
    (hx : Inventory.destination name ∉ unsettled) {c : ByteArray} {m : Nat} {t : Stamp} :
    d'.top.at? (spot d root (Inventory.destination name)) = some (.file c m t) ↔
      d.top.at? (spot d root (Inventory.destination name)) = some (.file c m t) :=
  file_iff_finish hs (not_archived_destination hc hi) (not_maintained_destination hc hi hx)
    fun h => Manifest.destination_ne_ignore hc hi (spot_inj h)

end Destination

/-! ## Retired files -/

theorem prefix_of_merges {text : String} (h : Settings.Merges d root e (spot d root text)) :
    ".claude/settings.json".toList <+: text.toList := by
  have hsettings (h : spot d root text = spot d root ".claude/settings.json") :
      ".claude/settings.json".toList <+: text.toList :=
    spot_inj h ▸ List.prefix_refl _
  have hstaging (h : spot d root text = spot d root ".claude/settings.json.tmp") :
      ".claude/settings.json".toList <+: text.toList := by
    rw [spot_inj h]
    decide
  rcases h with (⟨h, -⟩ | ⟨h, -⟩ | ⟨h, -⟩) | ⟨h, -⟩
  · exact hstaging h
  · exact hsettings h
  · exact hstaging h
  · rw [← text_of_spot (h.symm : d.place root ++ _ = _), text_backup, String.toList_append]
    exact (show ".claude/settings.json".toList <+: ".claude/settings.json.backup.".toList by decide).trans
      (List.prefix_append _ _)

/-- A file that is there at the end, and that no later phase writes, was not removed. -/
theorem file_of_saved {text : String} {c : ByteArray} {mode : Nat} {t : Stamp} (hp : d.top.isPlain = true)
    (hn : root.Named) (hsave : (Release.save root version).on (tidy root keep d).2 = (.ok (), d'))
    (hsettings : ¬ ".claude/settings.json".toList <+: text.toList) (hignore : text ≠ Layout.ignoreName)
    (hstamp : text ≠ Layout.stampName) (hat : d'.top.at? (spot d root text) = some (.file c mode t)) :
    ((removeRetired root).on d).2.top.at? (spot d root text) = some (.file c mode t) := by
  have hretired : Steps (Retires d root) d ((removeRetired root).on d).2 := steps_removeRetired hp
  obtain ⟨b, htends, htidy⟩ : ∃ b, Steps (Tends d root) ((removeRetired root).on d).2 b ∧
      (tidy root keep d).2 = ((prune root keep).on b).2 := tidy_run hp hn
  have hpb := htends.isPlain (hretired.isPlain hp)
  have hcwd : b.cwd = d.cwd := htends.cwd_eq.trans hretired.cwd_eq
  have hprune : Steps (fun e p => e = .erase ∧ Archived d root p) b ((prune root keep).on b).2 :=
    prune_steps hpb hcwd
  rw [htidy] at hsave
  rw [← Node.shape?_eq_file] at hat
  have hpruned : ((prune root keep).on b).2.top.shape? (spot d root text) = some (.file c mode t) := by
    have hother : spot d root text ≠ ((prune root keep).on b).2.place (Layout.stamp root) := by
      rw [Layout.stamp, place_div isName_stamp, place_of_cwd (hprune.cwd_eq.trans hcwd)]
      exact fun h => hstamp (spot_inj h)
    rcases shape?_replace (hprune.isPlain hpb) (named_stamp hn) (steps_div root isName_stamp) hsave
      fun h => absurd h hother with hsame | ⟨-, -, hdir⟩
    · rw [← hsame, hat]
    · rw [hat] at hdir
      cases hdir
  have htended : b.top.shape? (spot d root text) = some (.file c mode t) := by
    rcases hprune.erased (fun _ _ h => Or.inl h.1) (spot d root text) with h | h
    · rw [← h, hpruned]
    · rw [h] at hpruned
      cases hpruned
  refine (htends.file_iff (fun e he => ?_) fun q hq => absurd hq not_erase_tends).mp
    (Node.shape?_eq_file.mp htended)
  rcases he with he | he | ⟨-, he⟩
  · exact Or.inl he
  · exact absurd (prefix_of_merges he) hsettings
  · exact absurd (spot_inj he) hignore

/-- No retired file is left at the end. -/
theorem no_retired_left (hp : d.top.isPlain = true) (hroot : d.Leads root)
    (hsave : (Release.save root version).on (tidy root keep d).2 = (.ok (), d')) :
    ∀ text ∈ Inventory.retired, d'.isFile (root / text) = false := by
  intro text htext
  have hn := hroot.named hp
  have hname : ∀ s ∈ splitSlash text, isName s = true := by
    revert text
    decide
  obtain ⟨hsettings, hignore, hstamp⟩ : ¬ ".claude/settings.json".toList <+: text.toList ∧
      text ≠ Layout.ignoreName ∧ text ≠ Layout.stampName := by
    revert text
    decide
  have hfinish : Steps (Finishes d root) d ((Release.save root version).on (tidy root keep d).2).2 :=
    steps_finish hp hn
  rw [hsave] at hfinish
  have hretired : Steps (Retires d root) d ((removeRetired root).on d).2 := steps_removeRetired hp
  rw [Bool.eq_false_iff]
  intro hf
  obtain ⟨hadmits, -, c, mode, t, hat⟩ := (isFile_join_iff (Node.linkFree_of_isPlain (hfinish.isPlain hp))
    hname (Path.splitSlash_ne_nil _)).mp hf
  rw [hfinish.place_eq] at hat
  have hfound : ((removeRetired root).on d).2.isFile (root / text) = true := by
    refine (isFile_join_iff (Node.linkFree_of_isPlain (hretired.isPlain hp)) hname
      (Path.splitSlash_ne_nil _)).mpr ⟨?_, ?_, c, mode, t, ?_⟩
    · exact hretired.admits_iff.mpr (hfinish.admits_iff.mp hadmits)
    · exact hretired.leads hp (fun _ _ p h => by cases h.1) hroot
    · rw [hretired.place_eq]
      exact file_of_saved hp hn hsave hsettings hignore hstamp hat
  rw [isFile_removeRetired hp text htext] at hfound
  cases hfound

/-- What the report of an automatic update that succeeds says is true when it ends: a file that was
copied has the bytes that the bundle gave at its turn, and is executable if it is a script; a file that
was kept, or failed, is as it was, and none is there if none was. The stamp reads the installed version,
and no retired file is left. -/
theorem report_is_true (k : Kit) (root : Path) (o : Options) (lookup : Except Error String)
    (upgrade : Except Error Unit) (d : Disk) (hp : d.top.isPlain = true) (hroot : d.Leads root)
    (ho : o.strategy = .auto) (hclean : ∀ name ∈ installs k root d, isClean name = true)
    (hships : ∀ name ∈ installs k root d, Manifest.curated.includes name = true)
    (hnodup : (installs k root d).Nodup) :
    let result := run k root o lookup upgrade d
    result.1.status = .updated → ∀ files, result.1.files = some files →
      (∀ dest ∈ files.copied, dest ∉ unsettled → ∃ before name after bytes place t,
        installs k root d = before ++ name :: after ∧ dest = Inventory.destination name ∧
        ((k.bundle.read name).on (turn k.bundle k.manifest root ((take root).on d).2 before)).1 = .ok bytes ∧
        result.2.find (root / dest) = .ok (place, .file bytes (modeOf dest) t)) ∧
      (∀ dest, dest ∈ files.kept ∨ dest ∈ files.failed.map Prod.fst → dest ∉ unsettled → ∀ c mode t,
        result.2.top.at? (spot d root dest) = some (.file c mode t) ↔
          d.top.at? (spot d root dest) = some (.file c mode t)) ∧
      Release.current root result.2 = Release.versionIn k.version ∧
      ∀ text ∈ Inventory.retired, result.2.isFile (root / text) = false := by
  intro result hupdated files hfiles
  obtain ⟨r, hrun⟩ := (run_cases k root o lookup upgrade d).resolve_left fun h => by
    rw [show result.1.status = _ from h.1] at hupdated
    cases hupdated
  rw [ho] at hrun
  replace hrun : result = auto k root o.keep r d := hrun
  rw [hrun] at hupdated hfiles ⊢
  obtain ⟨files', d₂, hinstall, hsave, hreport, -⟩ := auto_updated hupdated
  obtain rfl : files' = files := Option.some.inj (hreport.symm.trans hfiles)
  clear hrun hupdated hfiles hreport
  generalize (auto k root o.keep r d).2 = d₃ at hsave
  have hn := hroot.named hp
  have htake := steps_take hp hn
  have hp₁ := htake.isPlain hp
  have hv : Vouches k.bundle k.manifest root ((take root).on d).2 (installs k root d) files' d₂ := by
    have hdest : ((installs k root d).map Inventory.destination).Nodup :=
      hnodup.map_on fun a ha b hb => Manifest.destination_inj (hships a ha) (hships b hb)
    obtain ⟨log, hnames, rfl, h⟩ := accounts_of_run hp₁ hn hclean hinstall
    replace hnames : log.map Prod.fst = installs k root d := hnames
    rw [← hnames] at hclean hdest ⊢
    exact h.vouches hp₁ hn (fun l hl => hclean l.1 (List.mem_map_of_mem hl)) (by rwa [List.map_map] at hdest)
  have hp₂ := hv.steps.isPlain hp₁
  have hlead₁ := leads_of_saved hp hroot hclean hinstall hsave
  have hlead₂ : d₂.Leads root := hv.steps.leads hp₁ (fun _ _ p h => absurd rfl h) hlead₁
  have hfinish : Steps (Finishes d₂ root) d₂ d₃ := by
    have h : Steps (Finishes d₂ root) d₂ ((Release.save root k.version).on (tidy root o.keep d₂).2).2 :=
      steps_finish hp₂ hn
    rwa [hsave] at h
  have hp₃ := hfinish.isPlain hp₂
  have hspot : ∀ dest, spot ((take root).on d).2 root dest = spot d root dest := fun dest => by
    rw [spot, spot, htake.place_eq]
  have hspot₂ : ∀ dest, spot d₂ root dest = spot d root dest := fun dest => by
    rw [hv.spot_eq, hspot]
  have hlead₃ : d₃.Leads root :=
    leads_of_locate_join (Node.linkFree_of_isPlain hp₃) isName_stamp (Path.splitSlash_ne_nil _)
      (find_ok_iff.mp (find_of_replace (isPlain_tidy hp₂ hn) (named_stamp hn) (steps_div root isName_stamp) hsave))
  refine ⟨?_, ?_, current_of_save (isPlain_tidy hp₂ hn) hn hsave, no_retired_left hp₂ hlead₂ hsave⟩
  · intro dest hdest hx
    obtain ⟨before, name, after, bytes, t, hnames, rfl, hread, hadmits, hat⟩ := hv.copied dest hdest
    have hmem : name ∈ installs k root d := by simp [hnames]
    rw [← hv.spot_eq, ← file_iff_destination (hclean name hmem) (hships name hmem) hfinish hx, spot,
      ← hfinish.place_eq] at hat
    have hfound : d₃.locate true (root / Inventory.destination name) = .ok (.there _ (.file bytes _ t)) :=
      locate_join (Node.linkFree_of_isPlain hp₃) hlead₃ (isName_destination (hclean name hmem))
        (Path.splitSlash_ne_nil _) (hfinish.admits_iff.mpr (hv.steps.admits_iff.mpr hadmits)) hat
    exact ⟨before, name, after, bytes, _, t, hnames, rfl, hread, find_ok_iff.mpr hfound⟩
  · intro dest hdest hx c mode t
    obtain ⟨name, hmem, rfl⟩ := List.mem_map.mp (hv.named dest (Or.inr hdest))
    have hc := hclean name hmem
    have hi := hships name hmem
    have hapart : ∀ copied ∈ files'.copied, spot d root (Inventory.destination name) ≠
        spot ((take root).on d).2 root copied := by
      intro copied hcopied h
      rw [hspot] at h
      exact hv.apart _ hdest (spot_inj h ▸ hcopied)
    have hafter := file_iff_destination hc hi hfinish hx (c := c) (m := mode) (t := t)
    rw [hspot₂] at hafter
    rw [hafter, hv.others _ hapart, file_iff_take hc hi htake]

/-- A project with guidance of its own, a retired file, and a file where a directory should be. -/
def mixed : Disk :=
  ⟨.dir ⟨0, false⟩
    [ (".claude", .dir ⟨1, false⟩
        [ ("templates", .dir ⟨2, false⟩ [("PRP.md.template", .file "old".toUTF8 0o644 ⟨3, false⟩)])
        , ("guides", .file "not a directory".toUTF8 0o644 ⟨4, false⟩)
        , ("settings.json", .dir ⟨5, false⟩ []) ])
    , ("CLAUDE.md", .file "mine".toUTF8 0o600 ⟨6, false⟩) ],
    [], 100⟩

/-- A bundle of a script, a guide and guidance. -/
def medley : Kit :=
  { bundle := .held [".claude/scripts/hooks/lint.sh", ".claude/guides/start.md", "CLAUDE.md.template"]
      [ (".claude/scripts/hooks/lint.sh", "lint".toUTF8), (".claude/guides/start.md", "start".toUTF8)
      , ("CLAUDE.md.template", "theirs".toUTF8) ]
    manifest := .curated
    version := " 2.0.0\n" }

theorem installs_medley : installs medley (Path.ofText "/") mixed =
    [".claude/scripts/hooks/lint.sh", ".claude/guides/start.md", "CLAUDE.md.template"] := rfl

theorem ships_medley :
    ∀ name ∈ installs medley (Path.ofText "/") mixed, Manifest.curated.includes name = true := by
  simp only [installs_medley, List.forall_mem_cons, List.not_mem_nil, false_imp_iff, implies_true, and_true]
  refine ⟨Manifest.includes_of_accepts (s := ".claude/scripts/hooks/*.sh") (by decide) (by decide) ?_ ?_,
    Manifest.includes_of_accepts (s := ".claude/guides/*.md") (by decide) (by decide) ?_ ?_,
    Manifest.includes_of_accepts (s := "CLAUDE.md.template") (by decide) (by decide) ?_ ?_⟩ <;>
  · simp only [Manifest.curatedExcluded, List.forall_mem_cons, List.not_mem_nil, false_imp_iff, implies_true,
      and_true, Matcher.accepts_ofText rfl rfl]
    decide

theorem mixed_report_is_true :
    let root := Path.ofText "/"
    let result := run medley root {} (.ok "2.0.0") (.ok ()) mixed
    mixed.top.isPlain = true ∧ mixed.Leads root ∧ (installs medley root mixed).Nodup ∧
      result.1.status = .updated ∧ ∃ files, result.1.files = some files ∧
      files.copied = [".claude/scripts/hooks/lint.sh"] ∧ files.kept = ["CLAUDE.md"] ∧
      files.failed.map Prod.fst = [".claude/guides/start.md"] ∧
      (∃ place t, result.2.find (root / ".claude/scripts/hooks/lint.sh") =
        .ok (place, .file "lint".toUTF8 0o755 t)) ∧
      result.2.top.at? ["CLAUDE.md"] = some (.file "mine".toUTF8 0o600 ⟨6, false⟩) ∧
      (∀ c mode t, result.2.top.at? [".claude", "guides", "start.md"] ≠ some (.file c mode t)) ∧
      Release.current root result.2 = "2.0.0" ∧
      result.2.isFile (root / ".claude/templates/PRP.md.template") = false := by
  intro root
  have hp : mixed.top.isPlain = true := by decide +kernel
  have hplace : mixed.place root = [] := by decide +kernel
  have hroot : mixed.Leads root := ⟨⟨0, false⟩, _, by rw [hplace]; exact walk_nil _ _ _⟩
  have hnodup : (installs medley root mixed).Nodup := by
    rw [installs_medley]
    decide
  have hclean : ∀ name ∈ installs medley root mixed, isClean name = true := by
    rw [installs_medley]
    decide
  have hend : let result := run medley root {} (.ok "2.0.0") (.ok ()) mixed
      result.1.status = .updated ∧
        result.1.files.map (fun files => (files.copied, files.kept, files.failed.map Prod.fst)) =
          some ([".claude/scripts/hooks/lint.sh"], ["CLAUDE.md"], [".claude/guides/start.md"]) := by
    decide +kernel
  have htrue := report_is_true medley root {} (.ok "2.0.0") (.ok ()) mixed hp hroot rfl hclean ships_medley hnodup
  generalize run medley root {} (.ok "2.0.0") (.ok ()) mixed = result at hend htrue ⊢
  obtain ⟨hstatus, hreport⟩ := hend
  obtain ⟨files, hfiles, hparts⟩ := Option.map_eq_some_iff.mp hreport
  simp only [Prod.mk.injEq] at hparts
  obtain ⟨hcopied, hkept, hfailed⟩ := hparts
  obtain ⟨hdelivered, hsame, hversion, hretired⟩ := htrue hstatus files hfiles
  have hspot (dest : String) : spot mixed root dest = splitSlash dest := by rw [spot, hplace, List.nil_append]
  refine ⟨hp, hroot, hnodup, hstatus, files, hfiles, hcopied, hkept, hfailed, ?_, ?_, ?_, hversion, ?_⟩
  · obtain ⟨before, name, -, bytes, place, t, -, hdest, hread, hfind⟩ :=
      hdelivered ".claude/scripts/hooks/lint.sh" (by simp [hcopied]) (by decide)
    obtain rfl : ".claude/scripts/hooks/lint.sh" = name := by
      rcases Inventory.destination_cases name with ⟨-, hd⟩ | hd
      · exact absurd (hdest.trans hd) (by decide)
      · exact hdest.trans hd
    obtain rfl : "lint".toUTF8 = bytes := Except.ok.inj hread
    exact ⟨place, t, hfind⟩
  · have h := hsame "CLAUDE.md" (by simp [hkept]) (by decide) "mine".toUTF8 0o600 ⟨6, false⟩
    rw [hspot] at h
    exact h.mpr rfl
  · intro c mode t hat
    have h := hsame ".claude/guides/start.md" (by simp [hfailed]) (by decide) c mode t
    rw [hspot] at h
    cases h.mp hat
  · exact hretired ".claude/templates/PRP.md.template" (by decide)

end Outfitter.Update
