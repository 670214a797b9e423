import Outfitter.Proofs.Lockstep
import Outfitter.Proofs.Replace
import Outfitter.Proofs.Update.Rollback

/-! # Updates install what an installation does

An automatic update goes through the phases of a first installation, between a snapshot and
the pruning of old ones. Beside the snapshots the disks of both runs look alike all the way.
-/

namespace Outfitter.Update

open Disk Action Files Install Snapshot

variable {k : Kit} {root : Path} {keep : Nat} {r : Report} {d a b : Disk} {q rel : List String}

/-! ## Places that differ -/

/-- Places among the snapshots, but for those that the path of the root passes. -/
def Aside (d : Disk) (root : Path) (q : List String) : Prop :=
  d.place root ++ [Layout.snapshotsDirName] <+: q ∧ ¬ d.Passes root q

theorem misses_aside (hn : ∀ s ∈ rel, isName s = true) (hr : rel ≠ [])
    (hrel : ¬ [Layout.snapshotsDirName] <+: rel) : d.Misses (Aside d root) (root.join ⟨rel⟩) := by
  rintro ys hys ⟨hpre, hpass⟩
  rw [trail_join hn hr] at hys
  rcases List.prefix_or_prefix_of_prefix hys (List.prefix_append (d.trail root) rel) with h | ⟨zs, rfl⟩
  · exact hpass ⟨ys, h, rfl⟩
  · have hzs : zs <+: rel := (List.prefix_append_right_inj _).mp hys
    rw [climb_below fun s hs => hn s (hzs.subset hs), List.prefix_append_right_inj] at hpre
    exact hrel (hpre.trans hzs)

theorem misses_settings : Settings.Misses d (Aside d root) root := fun name hname =>
  misses_aside (Layout.isName_sibling hname) (by simp) fun h =>
    absurd (List.cons_prefix_cons.mp h).1 (by decide)

/-! ## The snapshot -/

/-- The steps of a root are not taken from within a snapshot. -/
def Homed (d : Disk) (root : Path) : Prop :=
  ∀ ys, ys <+: d.base root → ¬ Archived d root (climb [] ys).reverse

theorem homed_of_isAbsolute (h : root.isAbsolute = true) : Homed d root := by
  intro ys hys
  rw [base, if_pos h, List.prefix_nil] at hys
  rintro ⟨name, rest, hq⟩
  rw [hys] at hq
  simp at hq

theorem Archived.below {p : List String} (h : Archived d root p) (hq : p <+: q) : Archived d root q := by
  obtain ⟨name, rest, rfl⟩ := h
  obtain ⟨more, rfl⟩ := hq
  exact ⟨name, rest ++ more, by simp⟩

/-- The directory that the steps of a root are taken from survives what happens to the snapshots. -/
theorem Homed.grounded {allow : Edit → List String → Prop} (h : Homed d root) (hs : Steps allow a b)
    (hcwd : a.cwd = d.cwd) (ha : ∀ p, allow .erase p → Archived d root p) (hg : Grounded a root) :
    Grounded b root := by
  intro ys hys
  rw [base_of_cwd hs.cwd_eq] at hys
  refine hs.dir (fun p hp hpre => ?_) (hg ys hys)
  rw [base_of_cwd hcwd] at hys
  exact h ys hys ((ha p hp).below hpre)

theorem leads_after_take (hp : d.top.isPlain = true) (hroot : d.Leads root) (hh : Homed d root) :
    ((take root).on d).2.Leads root := by
  refine (leads_take hp hroot).resolve_right (not_not_intro ?_)
  refine hh.grounded (steps_take hp (hroot.named hp)) rfl (fun p hp => ?_)
    (.of_leads (Node.linkFree_of_isPlain hp) hroot)
  rcases hp with he | harch
  · cases he
  · exact harch

/-- The snapshot changes no place beside the snapshots. -/
theorem shape?_take (hp : d.top.isPlain = true) (hroot : d.Leads root)
    (hq : ¬ d.place root ++ [Layout.snapshotsDirName] <+: q) :
    ((take root).on d).2.top.shape? q = d.top.shape? q := by
  have hs : Steps (fun e p => e = .make ∧ d.Passes root p ∨
      d.place root ++ [Layout.snapshotsDirName] <+: p) d ((take root).on d).2 :=
    keeps_take hp (hroot.named hp) (fun q hq => Or.inl ⟨rfl, hq⟩) (Or.inr (List.prefix_refl _))
      (fun _ rest => Or.inr ⟨Calendar.timestamp d.clock :: rest, by simp⟩) d (.refl _)
  have hspared : Spared (fun e p => e = .make ∧ d.Passes root p ∨
      d.place root ++ [Layout.snapshotsDirName] <+: p) q := by
    rintro p (⟨he, -⟩ | hpre) hpq
    · cases he
    · exact hq (hpre.trans hpq)
  refine (hs.made (fun e he => Or.inl (he.resolve_right hq).1) hspared).resolve_right ?_
  rintro ⟨hmake, hnone, -⟩
  rw [dir_of_passes hp hroot (hmake.resolve_right hq).2] at hnone
  cases hnone

theorem twin_take (hp : d.top.isPlain = true) (hroot : d.Leads root) (hh : Homed d root) :
    Twin d (Aside d root) d ((take root).on d).2 := by
  have hs := steps_take hp (hroot.named hp)
  refine ⟨rfl, hs.cwd_eq, hs.clock_eq.symm, fun q hq => ?_, Node.linkFree_of_isPlain (hs.isPlain hp)⟩
  by_cases hpre : d.place root ++ [Layout.snapshotsDirName] <+: q
  · have hpass : d.Passes root q := not_not.mp fun h => hq ⟨hpre, h⟩
    rw [dir_of_passes hp hroot hpass, dir_of_passes (hs.isPlain hp) (leads_after_take hp hroot hh)]
    obtain ⟨ys, hys, he⟩ := hpass
    exact ⟨ys, by rw [hs.trail_eq]; exact hys, he⟩
  · exact (shape?_take hp hroot hpre).symm

/-! ## Phases -/

section Phases

variable {names : List String} {contents : List (String × ByteArray)} {m : Manifest}

theorem lockstep_install (hin : ∀ name ∈ names, isClean name = true ∧ Manifest.curated.includes name = true) :
    Lockstep (Twin d (Aside d root)) (Install.run (.held names contents) m root) := by
  refine lockstep_run (fun name hname => ?_) fun name hname => ?_
  · obtain ⟨hclean, hinc⟩ := hin name hname
    exact misses_aside (isName_destination hclean) (Path.splitSlash_ne_nil _)
      (Manifest.destination_apart hclean hinc)
  · exact steps_div root (isName_destination (hin name hname).1)

theorem lockstep_ignore {entry : String} {comment : Option String} :
    Lockstep (Twin d (Aside d root)) (ensureIgnored root entry comment) :=
  lockstep_ensureIgnored (misses_aside (by decide) (by decide) (by decide))

/-- The phases keep a disk plain. -/
theorem isPlain_phases (hp : d.top.isPlain = true) (hn : root.Named)
    (hclean : ∀ name ∈ names, isClean name = true)
    {rs : Except Error Install.Report} {os oh : Except Error Settings.Outcome} {oi : Except Error Bool}
    {d₁ d₂ d₃ d₄ : Disk} (h₁ : (Install.run (.held names contents) m root).on d = (rs, d₁))
    (h₂ : (Settings.mergeStatusLine root).on d₁ = (os, d₂)) (h₃ : (Settings.mergeHooks root).on d₂ = (oh, d₃))
    (h₄ : (ensureIgnored root Layout.ignoredPlans (some ignoreComment)).on d₃ = (oi, d₄)) :
    d₁.top.isPlain = true ∧ d₄.top.isPlain = true := by
  have hs₁ := steps_lays (b := .held names contents) (m := m) hp hn hclean
  rw [h₁] at hs₁
  have hp₁ := hs₁.isPlain hp
  refine ⟨hp₁, ?_⟩
  have hstatus : Keeps (Steps (fun _ _ => True) d₁) (Settings.mergeStatusLine root) :=
    Settings.keeps_mergeStatusLine hp₁ hn (fun _ _ => trivial) fun _ _ _ => trivial
  have hhooks : Keeps (Steps (fun _ _ => True) d₁) (Settings.mergeHooks root) :=
    Settings.keeps_mergeHooks hp₁ hn fun _ _ _ => trivial
  have hignore : Keeps (Steps (fun _ _ => True) d₁)
      (ensureIgnored root Layout.ignoredPlans (some ignoreComment)) :=
    keeps_ensureIgnored hp₁ (named_div hn (by decide)) trivial trivial
  have hs := hignore _ (hhooks _ (hstatus d₁ (.refl _)))
  rw [h₂, h₃, h₄] at hs
  exact hs.isPlain hp₁

end Phases

/-! ## Pruning and the stamp -/

theorem prune_steps (hp : b.top.isPlain = true) (hcwd : b.cwd = d.cwd) :
    Steps (fun e p => e = .erase ∧ Archived d root p) b ((prune root keep).on b).2 := by
  refine steps_prune hp fun _ _ _ s _ => ⟨rfl, s.2, [], ?_⟩
  rw [place_of_cwd hcwd]

theorem isName_stamp : ∀ s ∈ splitSlash Layout.stampName, isName s = true := by decide

theorem endsIdle_stamp : (Layout.stamp root).endsIdle = false :=
  Path.endsIdle_join (by decide) isName_stamp

theorem misses_stamp : d.Misses (Aside d root) (Layout.stamp root) :=
  misses_aside isName_stamp (by decide) (by decide)

/-- A stamp that can be saved on one of two twins can be saved on the other, also after pruning. -/
theorem open_stamp_prune (hp : b.top.isPlain = true) (hh : Homed d root) (ht : Twin d (Aside d root) a b)
    (ho : Open a (Layout.stamp root)) : Open ((prune root keep).on b).2 (Layout.stamp root) := by
  have hs : Steps (fun e p => e = .erase ∧ Archived d root p) b ((prune root keep).on b).2 :=
    prune_steps hp ht.right
  generalize ((prune root keep).on b).2 = b' at hs
  have htrail : ∀ p, b'.trail p = a.trail p := fun p => by
    rw [hs.trail_eq, trail_of_cwd ht.left, trail_of_cwd ht.right]
  have hbase : ∀ d : Disk, d.base (Layout.stamp root) = d.base root := fun _ =>
    base_join isName_stamp (Path.splitSlash_ne_nil _)
  -- the way to the stamp looks alike on both disks
  have hway : ∀ ys, ys <+: a.trail (Layout.stamp root) →
      a.top.shape? (climb [] ys).reverse = b.top.shape? (climb [] ys).reverse := fun ys hys => by
    refine ht.shape _ (misses_stamp ys ?_)
    rwa [trail_of_cwd ht.left] at hys
  have herased := hs.erased fun e p h => Or.inl h.1
  refine ⟨?_, ?_, fun ys hys => ?_, fun hdir => ?_, ?_⟩
  · rw [Admits, htrail]
    exact ho.admits
  · have hg : Grounded b root := by
      intro ys hys
      rw [base_of_cwd (ht.right.trans ht.left.symm), ← hbase] at hys
      rw [← hway ys (hys.trans (List.prefix_append _ _))]
      exact ho.grounded ys hys
    have hg' := hh.grounded hs ht.right (fun p hp => hp.2) hg
    rw [Grounded, hbase]
    exact hg'
  · rw [htrail] at hys
    rcases herased (climb [] ys).reverse with hsame | hnone
    · rw [hsame, ← hway ys (hys.trans (List.dropLast_prefix _))]
      exact ho.clear ys hys
    · exact Or.inr hnone
  · rw [place, htrail] at hdir
    rcases herased (a.place (Layout.stamp root)) with hsame | hnone
    · rw [place] at hsame
      rw [hsame, ← hway _ (List.prefix_refl _)] at hdir
      exact ho.free hdir
    · rw [place] at hnone
      rw [hnone] at hdir
      cases hdir
  · rw [OnWay, place, htrail]
    exact ho.apart

/-- The stamp is saved on twins, the second one pruned, and they look alike beside the snapshots. -/
theorem save_after_prune {version : String} {a' : Disk} (hpa : a.top.isPlain = true) (hpb : b.top.isPlain = true)
    (hn : root.Named) (hh : Homed d root) (ht : Twin d (Aside d root) a b)
    (h : (Release.save root version).on a = (.ok (), a')) :
    ∃ b', (Release.save root version).on ((prune root keep).on b).2 = (.ok (), b') ∧
      ∀ q, ¬ d.place root ++ [Layout.snapshotsDirName] <+: q → b'.top.shape? q = a'.top.shape? q := by
  have hnp : (Layout.stamp root).Named := named_div hn isName_stamp
  have hne := steps_div root isName_stamp
  obtain ⟨ho, -, hata, hwa⟩ := replace_ok hpa hnp hne h
  have hob : Open ((prune root keep).on b).2 (Layout.stamp root) := open_stamp_prune hpb hh ht ho
  have hs : Steps (fun e p => e = .erase ∧ Archived d root p) b ((prune root keep).on b).2 :=
    prune_steps hpb ht.right
  generalize ((prune root keep).on b).2 = c at hob hs
  have hpc := hs.isPlain hpb
  obtain ⟨b', hb'⟩ : ∃ b', (Release.save root version).on c = (.ok (), b') :=
    replace_of_open hpc hnp hne endsIdle_stamp hob
  obtain ⟨-, -, hatb, hwb⟩ := replace_ok hpc hnp hne hb'
  have hcwd : c.cwd = a.cwd := hs.cwd_eq.trans (ht.right.trans ht.left.symm)
  have hplace : c.place (Layout.stamp root) = a.place (Layout.stamp root) := by
    rw [place_of_cwd hcwd]
  refine ⟨b', hb', fun q hq => ?_⟩
  by_cases hstamp : q = a.place (Layout.stamp root)
  · rw [hplace, now, hs.clock_eq, ← ht.clock] at hatb
    rw [hstamp, Node.shape?, Node.shape?, hatb, hata]
    rfl
  have hnot : ∀ p, Archived d root p → ¬ p <+: q := by
    rintro p ⟨name, rest, rfl⟩ hpre
    exact hq (List.IsPrefix.trans ⟨name :: rest, by simp⟩ hpre)
  have hsame : c.top.shape? q = a.top.shape? q := by
    rw [hs.shape?_eq (fun e he => hnot q he.2 (List.prefix_refl _)) fun p hp => hnot p hp.2]
    exact (ht.shape q fun hx => hq hx.1).symm
  by_cases hon : OnWay a (Layout.stamp root) q
  · rw [hwa q hon, hwb q (by rwa [OnWay, trail_of_cwd hcwd])]
  · have honb : ¬ OnWay c (Layout.stamp root) q := by rwa [OnWay, trail_of_cwd hcwd]
    have hsa := (shape?_replace hpa hnp hne h fun h => absurd h hstamp).resolve_right fun h => hon h.1
    have hsb := (shape?_replace hpc hnp hne hb' fun h => absurd (h.trans hplace) hstamp).resolve_right
      fun h => honb h.1
    rw [hsa, hsb, hsame]

/-! ## All phases -/

section Whole

variable {names : List String} {contents : List (String × ByteArray)} {version : String}

/-- A bundle without retired files leaves no file in the place of one. -/
theorem isFile_retired (hp : b.top.isPlain = true) (hn : root.Named)
    (hclean : ∀ name ∈ names, isClean name = true) {rs : Except Error Install.Report}
    (h : (Install.run (.held names contents) .curated root).on b = (rs, a)) {text : String}
    (htext : text ∈ Inventory.retired) (hnot : text ∉ names) (hnone : b.top.shape? (spot b root text) = none) :
    a.isFile (root / text) = false := by
  have hs := steps_lays (b := .held names contents) (m := .curated) hp hn hclean
  rw [h] at hs
  obtain ⟨hname, hguide⟩ : (∀ s ∈ splitSlash text, isName s = true) ∧ text ≠ "CLAUDE.md" := by
    rw [Inventory.retired, List.mem_singleton] at htext
    rw [htext]
    decide
  have hother : ∀ name ∈ names, spot b root text ≠ spot b root (Inventory.destination name) := by
    intro name hmem he
    have hdest : text = Inventory.destination name :=
      (text_splitSlash text).symm.trans (text_of_spot he)
    rcases Inventory.destination_cases name with ⟨-, hd⟩ | hd
    · exact hguide (hdest.trans hd)
    · exact hnot (hdest.trans hd ▸ hmem)
  rw [Bool.eq_false_iff]
  intro hfile
  obtain ⟨-, -, c, mode, t, hat⟩ :=
    (isFile_join_iff (Node.linkFree_of_isPlain (hs.isPlain hp)) hname (Path.splitSlash_ne_nil _)).mp hfile
  rw [hs.place_eq, ← Node.shape?_eq_file] at hat
  have hmade := hs.made (q := spot b root text) ?_ ?_
  · rcases hmade with hsame | ⟨-, -, hdir⟩
    · rw [spot] at hsame hnone
      rw [hsame, hnone] at hat
      cases hat
    · rw [spot] at hdir
      rw [hdir] at hat
      cases hat
  · rintro e (he | ⟨-, name, hmem, he⟩)
    · exact he
    · exact absurd he (hother name hmem)
  · rintro p ((he | he) | ⟨he | he, -⟩) <;> cases he

/-- If a first installation gets through all phases, an automatic update of the same project gets
through them too, and leaves the same beside the snapshots. -/
theorem auto_follows {files : Install.Report} {os oh : Settings.Outcome} {oi : Bool} {a₁ a₂ a₃ a₄ a₅ : Disk}
    (hp : d.top.isPlain = true) (hroot : d.Leads root) (hh : Homed d root)
    (hin : ∀ name ∈ names, isClean name = true ∧ Manifest.curated.includes name = true)
    (hold : ∀ text ∈ Inventory.retired, text ∉ names ∧ d.top.shape? (spot d root text) = none)
    (h₁ : (Install.run (.held names contents) .curated root).on d = (.ok files, a₁))
    (h₂ : (Settings.mergeStatusLine root).on a₁ = (.ok os, a₂))
    (h₃ : (Settings.mergeHooks root).on a₂ = (.ok oh, a₃))
    (h₄ : (ensureIgnored root Layout.ignoredPlans (some ignoreComment)).on a₃ = (.ok oi, a₄))
    (h₅ : (Release.save root version).on a₄ = (.ok (), a₅)) (keep : Nat) (r : Report) :
    (auto ⟨.held names contents, .curated, version⟩ root keep r d).1.status = .updated ∧
      ∀ q, ¬ d.place root ++ [Layout.snapshotsDirName] <+: q →
        (auto ⟨.held names contents, .curated, version⟩ root keep r d).2.top.shape? q =
          a₅.top.shape? q := by
  have hn := hroot.named hp
  have hclean : ∀ name ∈ names, isClean name = true := fun name hname => (hin name hname).1
  have ht₀ := twin_take hp hroot hh
  have hpb := (steps_take hp hn).isPlain hp
  generalize htake : ((take root).on d).2 = b at ht₀ hpb
  -- the phases in lockstep
  have hinstall : Lockstep (Twin d (Aside d root)) (Install.run (.held names contents) .curated root) :=
    lockstep_install hin
  have hignore : Lockstep (Twin d (Aside d root))
      (ensureIgnored root Layout.ignoredPlans (some ignoreComment)) := lockstep_ignore
  obtain ⟨hout₁, ht₁⟩ := hinstall d b ht₀
  rcases hb₁ : (Install.run (.held names contents) .curated root).on b with ⟨r₁, b₁⟩
  rw [h₁, hb₁] at hout₁ ht₁
  obtain ⟨-, ht₂⟩ := misses_settings.lockstep_mergeStatusLine a₁ b₁ ht₁
  rcases hb₂ : (Settings.mergeStatusLine root).on b₁ with ⟨r₂, b₂⟩
  rw [h₂, hb₂] at ht₂
  obtain ⟨-, ht₃⟩ := misses_settings.lockstep_mergeHooks a₂ b₂ ht₂
  rcases hb₃ : (Settings.mergeHooks root).on b₂ with ⟨r₃, b₃⟩
  rw [h₃, hb₃] at ht₃
  obtain ⟨-, ht₄⟩ := hignore a₃ b₃ ht₃
  rcases hb₄ : (ensureIgnored root Layout.ignoredPlans (some ignoreComment)).on b₃ with ⟨r₄, b₄⟩
  rw [h₄, hb₄] at ht₄
  -- no retired file is there to be removed
  have hretired : (removeRetired root).on b₁ = (.ok [], b₁) := by
    refine removeRetired_idle fun text htext => isFile_retired hpb hn hclean hb₁ htext (hold text htext).1 ?_
    have hspot : spot b root text = spot d root text := by
      rw [spot, spot, place_of_cwd ht₀.right]
    rw [hspot, ← ht₀.shape _ fun hx => ?_]
    · exact (hold text htext).2
    · rw [Inventory.retired, List.mem_singleton] at htext
      subst htext
      exact absurd ((List.prefix_append_right_inj _).mp hx.1) (by decide)
  have htidy : (tidy root keep b₁).2 = ((prune root keep).on b₄).2 := by
    show ((prune root keep).on ((ensureIgnored root Layout.ignoredPlans (some ignoreComment)).on
      ((Settings.mergeHooks root).on ((Settings.mergeStatusLine root).on
        ((removeRetired root).on b₁).2).2).2).2).2 = _
    rw [hretired, hb₂, hb₃, hb₄]
  have hpa₄ := (isPlain_phases hp hn hclean h₁ h₂ h₃ h₄).2
  have hpb₄ := (isPlain_phases hpb hn hclean hb₁ hb₂ hb₃ hb₄).2
  obtain ⟨b₆, hsave, hsame⟩ := save_after_prune hpa₄ hpb₄ hn hh ht₄ h₅
  rw [← htidy] at hsave
  obtain rfl : Except.ok files = r₁ := hout₁
  obtain ⟨hstatus, hdisk⟩ :
      (auto ⟨.held names contents, .curated, version⟩ root keep r d).1.status = .updated ∧
        (auto ⟨.held names contents, .curated, version⟩ root keep r d).2 = b₆ :=
    auto_ok (htake ▸ hb₁) hsave
  rw [hdisk]
  exact ⟨hstatus, hsame⟩

end Whole

end Outfitter.Update
