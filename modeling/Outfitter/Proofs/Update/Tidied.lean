import Outfitter.Proofs.Ignore
import Outfitter.Proofs.Install.Again
import Outfitter.Proofs.Manifest.Curated
import Outfitter.Proofs.Settings.Settle
import Outfitter.Proofs.Update.Report

/-! # Projects that are tidied

An update that succeeds leaves a project in which the phases that follow an installation have nothing
to do: no retired file is left, the merges and the ignore file leave everything as it is, and the
stamp holds the version. What the installation put in its place is still there.
-/

namespace Outfitter.Update

open Disk Action Files Install Snapshot

variable {k : Kit} {root : Path} {keep : Nat} {r : Report} {d e a a' : Disk} {version name : String}
  {p q : List String} {X : List String → Prop}

/-! ## Files that stay -/

/-- Beside the snapshots and some places `X`, a disk has the files of another, and its directories. -/
structure Still (d : Disk) (root : Path) (X : List String → Prop) (a : Disk) : Prop where
  plain : a.top.isPlain = true
  cwd : a.cwd = d.cwd
  dirs : ∀ q, ¬ Archived d root q → d.top.shape? q = some .dir → a.top.shape? q = some .dir
  files : ∀ q, ¬ Archived d root q → ¬ X q → ∀ c m,
    (∃ t, a.top.at? q = some (.file c m t)) ↔ ∃ t, d.top.at? q = some (.file c m t)

namespace Still

theorem refl (hp : d.top.isPlain = true) : Still d root X d :=
  ⟨hp, rfl, fun _ _ => id, fun _ _ _ _ _ => Iff.rfl⟩

theorem retains (h : Still d root X a) (hq : ¬ Archived d root q) (hx : ¬ X q) : Retains d a q :=
  ⟨h.files q hq hx, h.dirs q hq⟩

theorem steps {allow : Edit → List String → Prop} (h : Still d root X a) (hs : Steps allow a a')
    (ha : ∀ e q, allow e q → (e = .make ∨ e = .touch) ∨ Archived d root q ∨ e ≠ .erase ∧ X q) :
    Still d root X a' := by
  have hspared : ∀ q, ¬ Archived d root q → Spared allow q := by
    intro q hq p hp hpre
    rcases ha _ p hp with (he | he) | harch | ⟨he, -⟩
    · cases he
    · cases he
    · exact hq (harch.below hpre)
    · exact he rfl
  refine ⟨hs.isPlain h.plain, hs.cwd_eq.trans h.cwd, fun q hq hd => hs.dir (hspared q hq) (h.dirs q hq hd), ?_⟩
  intro q hq hx c m
  have hedit : ∀ e, allow e q → e = .make ∨ e = .touch := fun e he =>
    (ha e q he).resolve_right fun h => h.elim hq fun h => hx h.2
  exact ((hs.retains hedit (hspared q hq)).file c m).trans (h.files q hq hx c m)

theorem archived_iff (h : Still d root X a) : Archived a root q ↔ Archived d root q := by
  rw [Archived, Archived, place_of_cwd h.cwd]

theorem spot_eq (h : Still d root X a) (dest : String) : spot a root dest = spot d root dest := by
  rw [spot, spot, place_of_cwd h.cwd]

theorem take (h : Still d root X a) (hn : root.Named) : Still d root X ((take root).on a).2 := by
  refine h.steps (steps_take h.plain hn) fun e q he => ?_
  rcases he with he | harch
  · exact Or.inl (Or.inl he)
  · exact Or.inr (Or.inl (h.archived_iff.mp harch))

theorem prune (h : Still d root X a) : Still d root X ((prune root keep).on a).2 :=
  h.steps (prune_steps h.plain h.cwd) fun _ _ he => Or.inr (Or.inl he.2)

theorem save (h : Still d root X a) (hn : root.Named) (hx : X (spot d root Layout.stampName)) :
    Still d root X ((Release.save root version).on a).2 := by
  have hplace : a.place (Layout.stamp root) = spot d root Layout.stampName :=
    (place_div isName_stamp).trans (h.spot_eq _)
  have hs : Steps (fun e q => (e = .make ∨ e = .touch) ∨ e ≠ .erase ∧ q = spot d root Layout.stampName) a
      ((Release.save root version).on a).2 := by
    refine keeps_replace h.plain (named_stamp hn) (steps_div root isName_stamp) (fun _ _ => Or.inl (Or.inl rfl))
      (Or.inl (Or.inr rfl)) ?_ (fun _ => ?_) a (.refl a)
    · rw [hplace]
      exact Or.inr ⟨by simp, rfl⟩
    · rw [hplace]
      exact Or.inr ⟨by simp, rfl⟩
  refine h.steps hs fun e q he => he.imp_right fun he => Or.inr ⟨he.1, ?_⟩
  rw [he.2]
  exact hx

theorem saved (h : Still d root X a) (hn : root.Named) (hx : X (spot d root Layout.stampName))
    (hsave : (Release.save root version).on ((Snapshot.prune root keep).on a).2 = (.ok (), e)) : Still d root X e := by
  have hs : Still d root X ((Release.save root version).on ((Snapshot.prune root keep).on a).2).2 := h.prune.save hn hx
  rwa [hsave] at hs

theorem ignore (h : Still d root X a) (hn : root.Named) (hx : X (spot d root Layout.ignoreName)) (entry : String)
    (comment : Option String) : Still d root X ((ensureIgnored root entry comment).on a).2 := by
  have hignore : ∀ s ∈ splitSlash Layout.ignoreName, isName s = true := by decide
  have hplace : a.place (Layout.ignoreFile root) = spot d root Layout.ignoreName :=
    (place_div hignore).trans (h.spot_eq _)
  have hs : Steps (fun e q => e ≠ .erase ∧ q = spot d root Layout.ignoreName) a
      ((ensureIgnored root entry comment).on a).2 :=
    keeps_ensureIgnored h.plain (named_div hn hignore) ⟨by simp, hplace⟩ ⟨by simp, hplace⟩ a (.refl a)
  refine h.steps hs fun e q he => Or.inr (Or.inr ⟨he.1, ?_⟩)
  rw [he.2]
  exact hx

end Still

/-! ## What an update leaves -/

/-- Nothing is left to do for the phases that follow an installation, and the stamp is saved. -/
structure Tidied (version : String) (root : Path) (e : Disk) : Prop where
  plain : e.top.isPlain = true
  leads : e.Leads root
  admits : e.Admits (Layout.stamp root)
  stamp : ∃ t, e.top.at? (spot e root Layout.stampName) = some (.file version.toUTF8 defaultMode t)
  retired : ∀ text ∈ Inventory.retired, e.isFile (root / text) = false
  quiet : Settings.Quiet e root
  heeds : Heeds e root Layout.ignoredPlans

theorem Tidied.isFile_stamp (h : Tidied version root e) : e.isFile (Layout.stamp root) = true := by
  obtain ⟨t, hat⟩ := h.stamp
  exact (isFile_join_iff (Node.linkFree_of_isPlain h.plain) isName_stamp (Path.splitSlash_ne_nil _)).mpr
    ⟨h.admits, h.leads, _, _, t, hat⟩

theorem not_archived_spot {text : String} (h : ¬ [Layout.snapshotsDirName] <+: splitSlash text) :
    ¬ Archived d root (spot d root text) := by
  rintro ⟨name, rest, hspot⟩
  refine h ⟨name :: rest, ?_⟩
  rw [List.append_cancel_left hspot]
  rfl

section Merging

variable {y : Disk} (hp : y.top.isPlain = true) (hroot : y.Leads root)

include hp hroot

/-- Where the directory of assets can be made, the settings are ready once it is. -/
theorem ready_of_makeDirs (ha : y.Admits (Layout.staging (Layout.settings root)))
    (hassets : ∀ c m t, y.top.at? (y.place root ++ [Layout.assetsDirName]) ≠ some (.file c m t))
    (hfree : ∀ s, y.top.shape? (spot y root ".claude/settings.json.tmp") = some s →
      ∃ c m t, s = .file c m t ∧ isReadable m = true ∧ isWritable m = true) :
    ∃ y', (makeDirs (Layout.assetsDir root)).on y = (.ok (), y') ∧ Settings.Ready y' root := by
  have hl := Node.linkFree_of_isPlain hp
  have hn := hroot.named hp
  have hname : ∀ s ∈ [Layout.assetsDirName], isName s = true := by decide
  have hnamed : (Layout.assetsDir root).Named := hn.join hname
  have htrail : y.trail (Layout.assetsDir root) = y.trail root ++ [Layout.assetsDirName] :=
    trail_join hname (List.cons_ne_nil _ _)
  have hclear : y.Clear (y.trail (Layout.assetsDir root)) := by
    intro ys hys
    rw [htrail] at hys
    rcases List.prefix_concat_iff.mp hys with rfl | hys
    · rw [climb_below hname]
      exact (Node.shape?_of_not_file hp hassets).symm
    · exact Or.inl (((leads_iff hl).mp hroot).2 ys hys)
  have hadmits : y.Admits (Layout.assetsDir root) := by
    rw [Layout.staging_settings] at ha
    exact ha.of_join (by decide) (by simp) hname Settings.isName_staging (by decide) (by decide)
  have hground : Grounded y (Layout.assetsDir root) := by
    rw [Layout.assetsDir, grounded_div (by decide)]
    exact .of_leads hl hroot
  obtain ⟨y', hmake, hleads⟩ := makeDirs_of_clear hp hadmits hnamed
    (fun _ => Path.endsDotted_of_endsIdle (Path.endsIdle_join (List.cons_ne_nil _ _) hname)) hground hclear
  have hs : Steps (fun e _ => e ≠ .erase) y ((makeDirs (Layout.assetsDir root)).on y).2 := steps_makeDirs hp hnamed
  have hsame : ((makeDirs (Layout.assetsDir root)).on y).2.top.shape? (spot y root ".claude/settings.json.tmp") =
      y.top.shape? (spot y root ".claude/settings.json.tmp") := by
    -- the staged settings lie on no way that is made
    refine shape?_makeDirs hp hnamed ?_
    rintro ⟨ys, hys, hplace⟩
    rw [htrail] at hys
    rcases List.prefix_concat_iff.mp hys with rfl | hys
    · rw [climb_below hname] at hplace
      exact absurd (List.append_cancel_left hplace) (by decide)
    · rw [← hplace, ((leads_iff hl).mp hroot).2 ys hys]
      simp
  rw [hmake] at hs hsame
  refine ⟨y', hmake, hs.isPlain hp, leads_of_steps hp hroot hs, ?_, hs.admits_iff.mpr ha, fun s hs' => hfree s ?_⟩
  · have hdir := hleads.dir (Node.linkFree_of_isPlain (hs.isPlain hp))
    rwa [Layout.assetsDir, place_div (by decide)] at hdir
  · rw [← hsame, spot, ← hs.place_eq]
    exact hs'

/-- Both merges leave nothing to do, or can do nothing. -/
theorem quiet_after_merges
    (hassets : ∀ c m t, y.top.at? (y.place root ++ [Layout.assetsDirName]) ≠ some (.file c m t))
    (hfree : ∀ s, y.top.shape? (spot y root ".claude/settings.json.tmp") = some s →
      ∃ c m t, s = .file c m t ∧ isReadable m = true ∧ isWritable m = true) :
    Settings.Quiet ((Settings.mergeHooks root).on ((Settings.mergeStatusLine root).on y).2).2 root := by
  by_cases ha : y.Admits (Layout.staging (Layout.settings root))
  · obtain ⟨y', hmake, hready⟩ := ready_of_makeDirs hp hroot ha hassets hfree
    have hsame : (Settings.mergeStatusLine root).on y = (Settings.mergeStatusLine root).on y' := by
      unfold Settings.mergeStatusLine
      rw [on_bind_ok hmake, on_bind_ok hready.makeDirs]
    rw [hsame]
    exact Settings.quiet_of_merges hready
  · left
    have hn := hroot.named hp
    have hs : Steps (fun _ _ => True) y ((Settings.mergeHooks root).on ((Settings.mergeStatusLine root).on y).2).2 :=
      Settings.keeps_mergeHooks hp hn (fun _ _ _ => trivial) _
        (Settings.keeps_mergeStatusLine hp hn (fun _ _ => trivial) (fun _ _ _ => trivial) y (.refl y))
    rwa [hs.admits_iff]

end Merging

/-! ## From the installation to the end -/

/-- Edits of the phases that follow an installation, by what they take away. -/
def Closes (d : Disk) (root : Path) (e : Edit) (p : List String) : Prop :=
  Lasting e p ∨ Archived d root p ∨
    e = .unlink ∧ ∃ text ∈ ".claude/settings.json.tmp" :: Inventory.retired, p = spot d root text

theorem not_erase_of_merges {e : Edit} (h : Settings.Merges d root e p) : e ≠ .erase := by
  rintro rfl
  exact not_erase_tends (Or.inr (Or.inl h))

theorem closes_merges {e : Edit} (h : Settings.Merges d root e p) : Closes d root e p := by
  by_cases he : e = .unlink
  · subst he
    exact Or.inr (Or.inr ⟨rfl, _, List.mem_cons_self, unlink_tends (Or.inr (Or.inl h))⟩)
  · exact Or.inl ⟨not_erase_of_merges h, he⟩

theorem steps_closes (hp : a.top.isPlain = true) (hn : root.Named) :
    Steps (Closes a root) a ((Release.save root version).on (tidy root keep a).2).2 := by
  have hlasting : ∀ e p, e ≠ .erase → e ≠ .unlink → Closes a root e p := fun _ _ he hu => Or.inl ⟨he, hu⟩
  have hsave : Keeps (Steps (Closes a root) a) (Release.save root version) :=
    keeps_replace hp (named_stamp hn) (steps_div root isName_stamp) (fun _ _ => hlasting _ _ (by simp) (by simp))
      (hlasting _ _ (by simp) (by simp)) (hlasting _ _ (by simp) (by simp)) fun _ => hlasting _ _ (by simp) (by simp)
  refine hsave _ (tidy_keeps (P := Steps (Closes a root) a) (Q := Steps (Closes a root) a) ?_ ?_ ?_ ?_ ?_ (.refl a))
  · exact keeps_removeRetired hp fun text htext _ => Or.inr (Or.inr ⟨rfl, text, List.mem_cons_of_mem _ htext, rfl⟩)
  · exact Settings.keeps_mergeStatusLine hp hn (fun _ _ => hlasting _ _ (by simp) (by simp)) fun _ _ => closes_merges
  · exact Settings.keeps_mergeHooks hp hn fun _ _ => closes_merges
  · exact keeps_ensureIgnored hp (named_div hn (by decide)) (hlasting _ _ (by simp) (by simp))
      (hlasting _ _ (by simp) (by simp))
  · exact Snapshot.keeps_prune hp fun name => Or.inr (Or.inl ⟨name, [], rfl⟩)

theorem not_below_staging (hc : isClean name = true) (hi : Manifest.curated.includes name = true) :
    ¬ splitSlash ".claude/settings.json.tmp" <+: splitSlash (Inventory.destination name) := by
  intro h
  refine Manifest.destination_no_sibling hc hi ?_
  rcases Path.append_of_splitSlash h with h | ⟨rest, h⟩
  · rw [h]
    decide
  · rw [h, String.append_assoc, String.toList_append]
    exact (show ".claude/settings.json.".toList <+: ".claude/settings.json.tmp".toList by decide).trans
      (List.prefix_append _ _)

/-- What is at a destination, or above it, lasts to the end. -/
theorem outlasts_destination (hs : Steps (Closes a root) a e) (hc : isClean name = true)
    (hi : Manifest.curated.includes name = true) (hx : Inventory.destination name ∉ Inventory.retired)
    {zs : List String} (hzs : zs <+: splitSlash (Inventory.destination name)) : Outlasts a e (a.place root ++ zs) := by
  have harch : ¬ Archived a root (a.place root ++ zs) := by
    intro h
    exact not_archived_destination hc hi (h.below ((List.prefix_append_right_inj _).mpr hzs))
  refine hs.outlasts ?_ ?_
  · rintro p (⟨he, -⟩ | h | ⟨he, -⟩) hpre
    · exact he rfl
    · exact harch (h.below hpre)
    · cases he
  · rintro (⟨-, hu⟩ | h | ⟨-, text, htext, hspot⟩)
    · exact hu rfl
    · exact harch h
    · rw [List.append_cancel_left hspot] at hzs
      rcases List.mem_cons.mp htext with rfl | htext
      · exact not_below_staging hc hi hzs
      · rw [← Manifest.destination_of_retired hc hi htext hzs] at htext
        exact hx htext

/-- A stamp that was saved is there, with the version in it. -/
theorem stamp_of_saved (hp : a.top.isPlain = true) (hn : root.Named)
    (hsave : (Release.save root version).on a = (.ok (), e)) :
    e.Leads root ∧ e.Admits (Layout.stamp root) ∧
      ∃ t, e.top.at? (spot e root Layout.stampName) = some (.file version.toUTF8 defaultMode t) := by
  have hs : Steps (fun e _ => e ≠ .erase) a ((Release.save root version).on a).2 :=
    steps_replace hp (named_stamp hn) (steps_div root isName_stamp) _
  rw [hsave] at hs
  have hl := Node.linkFree_of_isPlain (hs.isPlain hp)
  have hfind := find_of_replace hp (named_stamp hn) (steps_div root isName_stamp) hsave
  have hlocate := find_ok_iff.mp hfind
  refine ⟨leads_of_locate_join hl isName_stamp (Path.splitSlash_ne_nil _) hlocate, locate_admits hl hlocate, a.now, ?_⟩
  rw [← (find_ok hl hfind).2, Layout.stamp, place_div isName_stamp, spot, hs.place_eq]

section Saving

variable (hp : a.top.isPlain = true) (hroot : a.Leads root)
  (hsave : (Release.save root version).on (tidy root keep a).2 = (.ok (), e))

include hp hroot hsave

/-- Where a stamp could be saved, no file stood in the way when the settings were merged. -/
theorem no_file_for_assets (c : ByteArray) (m : Nat) (t : Stamp) :
    ((removeRetired root).on a).2.top.at? (a.place root ++ [Layout.assetsDirName]) ≠ some (.file c m t) := by
  intro hat
  have hn := hroot.named hp
  have hretires : Steps (Retires a root) a ((removeRetired root).on a).2 := steps_removeRetired hp
  obtain ⟨b, htends, htidy⟩ : ∃ b, Steps (Tends a root) ((removeRetired root).on a).2 b ∧
      (tidy root keep a).2 = ((prune root keep).on b).2 := tidy_run hp hn
  have hpb := htends.isPlain (hretires.isPlain hp)
  have hcwd : b.cwd = a.cwd := htends.cwd_eq.trans hretires.cwd_eq
  have hprune : Steps (fun e p => e = .erase ∧ Archived a root p) b ((prune root keep).on b).2 := prune_steps hpb hcwd
  have hfile := htends.isFile (fun _ he => absurd he not_erase_tends)
    (fun hu => absurd (List.append_cancel_left (unlink_tends hu)) (by decide)) ⟨c, m, t, hat⟩
  have harch : ¬ Archived a root (spot a root Layout.assetsDirName) := not_archived_spot (by decide)
  have hfile' := hprune.isFile (spared_of_not_archived (fun _ h => h.2) harch) (fun hu => by cases hu.1) hfile
  rw [htidy] at hsave
  obtain ⟨hopen, -⟩ := replace_ok (hprune.isPlain hpb) (named_stamp hn) (steps_div root isName_stamp) hsave
  have hclear := hopen.clear _ (List.prefix_refl _)
  have hplace : (climb [] (((prune root keep).on b).2.trail (Layout.stamp root)).dropLast).reverse =
      spot a root Layout.assetsDirName := by
    rw [spot, ← place_of_cwd (hprune.cwd_eq.trans hcwd)]
    exact climb_dropLast isName_stamp
  obtain ⟨c', m', t', hat'⟩ := hfile'
  rw [hplace, Node.shape?, hat'] at hclear
  rcases hclear with h | h <;> cases h

/-- An update that succeeds leaves nothing to do, provided that the settings could be staged. -/
theorem tidied_of_saved (hfree : ∀ s, a.top.shape? (spot a root ".claude/settings.json.tmp") = some s →
      ∃ c m t, s = .file c m t ∧ isReadable m = true ∧ isWritable m = true) : Tidied version root e := by
  have hn := hroot.named hp
  have hassets := no_file_for_assets hp hroot hsave
  have hretired := no_retired_left hp hroot hsave
  have hretires : Steps (Retires a root) a ((removeRetired root).on a).2 := steps_removeRetired hp
  have hp₁ := hretires.isPlain hp
  have hroot₁ : ((removeRetired root).on a).2.Leads root :=
    hretires.leads hp (fun _ _ p he => by cases he.1) hroot
  have hstaging : ((removeRetired root).on a).2.top.shape? (spot a root ".claude/settings.json.tmp") =
      a.top.shape? (spot a root ".claude/settings.json.tmp") := by
    refine hretires.shape?_eq ?_ fun p he => by cases he.1
    rintro e ⟨-, text, htext, hspot, -⟩
    rw [← spot_inj hspot] at htext
    exact absurd htext (by decide)
  have hplace₁ := hretires.place_eq root
  rw [← hplace₁] at hassets
  rw [← hstaging, spot, ← hplace₁] at hfree
  have hquiet := quiet_after_merges hp₁ hroot₁ hassets hfree
  -- what follows the merges touches neither the settings nor, once it is written, the ignore file
  have hsave' : (Release.save root version).on ((prune root keep).on
      ((ensureIgnored root Layout.ignoredPlans (some ignoreComment)).on ((Settings.mergeHooks root).on
        ((Settings.mergeStatusLine root).on ((removeRetired root).on a).2).2).2).2).2 = (.ok (), e) := hsave
  have hmerges : Steps (fun e _ => e ≠ .erase) ((removeRetired root).on a).2 ((Settings.mergeHooks root).on
      ((Settings.mergeStatusLine root).on ((removeRetired root).on a).2).2).2 :=
    Settings.keeps_mergeHooks hp₁ hn (fun _ _ => not_erase_of_merges) _
      (Settings.keeps_mergeStatusLine hp₁ hn (fun _ _ => by simp) (fun _ _ => not_erase_of_merges) _ (.refl _))
  generalize ((Settings.mergeHooks root).on
    ((Settings.mergeStatusLine root).on ((removeRetired root).on a).2).2).2 = y at hquiet hsave' hmerges
  have hpy := hmerges.isPlain hp₁
  have hrooty := leads_of_steps hp₁ hroot₁ hmerges
  have hheeds : Heeds ((ensureIgnored root Layout.ignoredPlans (some ignoreComment)).on y).2 root Layout.ignoredPlans :=
    heeds_of_ensureIgnored hpy hrooty (by decide) (by rintro c ⟨⟩; rfl) (some ignoreComment)
  have hstill : Still y root (fun q => q = spot y root Layout.stampName ∨ q = spot y root Layout.ignoreName)
      ((ensureIgnored root Layout.ignoredPlans (some ignoreComment)).on y).2 :=
    (Still.refl hpy).ignore hn (Or.inr rfl) _ _
  generalize ((ensureIgnored root Layout.ignoredPlans (some ignoreComment)).on y).2 = z at hheeds hsave' hstill
  have hstill' : Still z root (· = spot z root Layout.stampName) z := Still.refl hstill.plain
  have hends := hstill.saved hn (Or.inl rfl) hsave'
  have hends' := hstill'.saved hn rfl hsave'
  have hl := Node.linkFree_of_isPlain hends.plain
  obtain ⟨hroote, hadmits, hstamp⟩ := stamp_of_saved hstill'.prune.plain hn hsave'
  refine ⟨hends.plain, hroote, hadmits, hstamp, hretired, ?_, ?_⟩
  · have hretains : Retains y e (spot y root ".claude/settings.json") := by
      refine hends.retains (not_archived_spot (by decide)) ?_
      rintro (h | h)
      · exact absurd (spot_inj h) (by decide)
      · exact absurd (spot_inj h) (by decide)
    exact hquiet.retained hretains (Node.linkFree_of_isPlain hpy) hl hends.cwd hrooty hroote
  · have hretains : Retains z e (spot z root Layout.ignoreName) :=
      hends'.retains (not_archived_spot (by decide)) fun h => absurd (spot_inj h) (by decide)
    exact hheeds.retained hretains (Node.linkFree_of_isPlain hstill.plain) hl hends'.cwd hroote

end Saving

end Outfitter.Update
