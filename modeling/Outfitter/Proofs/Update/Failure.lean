import Outfitter.Proofs.Update.Manual
import Outfitter.Proofs.Update.Phases

/-! # Updates that fail

An update fails if its bundle cannot be listed, if its guide cannot be written, or at the very
end, if the stamp cannot be saved. A project that has a version has a stamp, which no phase
takes away, and such a stamp can be saved; so a failure never changes the version.
-/

namespace Outfitter.Update

open Disk Action Files Install Snapshot

variable {k : Kit} {root : Path} {keep : Nat} {r : Report} {d d₂ : Disk} {files : Install.Report}

/-- A stamp is there until old snapshots are pruned. -/
theorem isFile_stamp_tidied (hp : d.top.isPlain = true) (hn : root.Named)
    (hf : d.isFile (Layout.stamp root) = true) :
    ∃ b, b.top.isPlain = true ∧ b.cwd = d.cwd ∧ b.isFile (Layout.stamp root) = true ∧
      (tidy root keep d).2 = ((prune root keep).on b).2 := by
  have hplace : d.place (Layout.stamp root) = spot d root Layout.stampName := place_div isName_stamp
  have hne := steps_div root isName_stamp
  have hs : Steps (Retires d root) d ((removeRetired root).on d).2 := steps_removeRetired hp
  obtain ⟨b, htends, htidy⟩ := tidy_run hp hn
  have hretired : ((removeRetired root).on d).2.isFile (Layout.stamp root) = true := by
    refine isFile_of_steps hp hne hs (fun q hq => by cases hq.1) ?_ hf
    rintro ⟨-, text, htext, he, -⟩
    rw [hplace] at he
    rw [← spot_inj he] at htext
    exact absurd htext (by decide)
  refine ⟨b, htends.isPlain (hs.isPlain hp), htends.cwd_eq.trans hs.cwd_eq, ?_, htidy⟩
  refine isFile_of_steps (hs.isPlain hp) hne htends (fun q => not_erase_tends) ?_ hretired
  rw [hs.place_eq, hplace]
  intro hunlink
  exact absurd (spot_inj (unlink_tends hunlink)) (by decide)

/-- Where a project has a stamp, an automatic update that could list its bundle saves one. -/
theorem save_of_stamp (hp : d.top.isPlain = true) (hroot : d.Leads root) (hh : Homed d root)
    (hclean : ∀ name ∈ installs k root d, isClean name = true)
    (hinstall : (Install.run k.bundle k.manifest root).on ((take root).on d).2 = (.ok files, d₂))
    (hstamp : d.isFile (Layout.stamp root) = true) :
    ∃ d₃, (Release.save root k.version).on (tidy root keep d₂).2 = (.ok (), d₃) := by
  have hn := hroot.named hp
  have hne := steps_div root isName_stamp
  have htake := steps_take hp hn
  have hp₁ := htake.isPlain hp
  have hfile₁ : ((take root).on d).2.isFile (Layout.stamp root) = true := by
    rw [← (twin_take hp hroot hh).isFile misses_stamp]
    exact hstamp
  have hlays := steps_lays (b := k.bundle) (m := k.manifest) hp₁ hn hclean
  rw [hinstall] at hlays
  have hfile₂ : d₂.isFile (Layout.stamp root) = true := by
    refine isFile_of_steps hp₁ hne hlays ?_ ?_ hfile₁
    · rintro q ((he | he) | ⟨he | he, -⟩) <;> cases he
    · rintro ((he | he) | ⟨he | he, -⟩) <;> cases he
  have hp₂ := hlays.isPlain hp₁
  obtain ⟨b, hpb, hcwd, hfile, htidy⟩ := isFile_stamp_tidied hp₂ hn hfile₂
  have hcwd' : b.cwd = d.cwd := hcwd.trans (hlays.cwd_eq.trans htake.cwd_eq)
  have hprune : Steps (fun e p => e = .erase ∧ Archived d root p) b ((prune root keep).on b).2 :=
    prune_steps hpb hcwd'
  rw [htidy]
  refine replace_of_open (hprune.isPlain hpb) (named_stamp hn) hne endsIdle_stamp ?_
  exact open_stamp_prune hpb hh ⟨hcwd', hcwd', rfl, fun _ _ => rfl, Node.linkFree_of_isPlain hpb⟩
    (open_of_file hpb hne hfile).1

/-- Two projects: one has a directory in the place of its stamp, the other in that of its guide. -/
def barred : Disk :=
  ⟨.dir ⟨0, false⟩
    [ ("a", .dir ⟨1, false⟩ 
        [ (".claude", .dir ⟨2, false⟩
            [(".pilot-version", .dir ⟨3, false⟩ []), ("settings.json", .dir ⟨3, false⟩ [])]) ])
    , ("b", .dir ⟨4, false⟩
        [ (".claude", .dir ⟨5, false⟩ [(".pilot-version", .file "1.9.0\n".toUTF8 0o600 ⟨6, false⟩)])
        , (".claude-backups", .dir ⟨7, false⟩ [("MANUAL_MERGE_GUIDE.md", .dir ⟨8, false⟩ [])]) ]) ],
    [], 100⟩
/-- A bundle that brings a stamp of its own. -/
def stamped : Kit :=
  { bundle := .held [".claude/.pilot-version"] [(".claude/.pilot-version", "1.9.5".toUTF8)]
    manifest := .curated
    version := "2.0.0" }

end Outfitter.Update
