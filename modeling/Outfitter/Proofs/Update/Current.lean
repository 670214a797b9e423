import Outfitter.Proofs.Disk.Links
import Outfitter.Proofs.Update.Manual
import Outfitter.Proofs.Update.Phases

/-! # Projects that are up to date

After an automatic update the stamp of the project reads the installed version, whatever links
the tree has, as long as the way to the assets does not lead through the stamp itself. Whether a
later run has something to do is then a matter of the published version alone.
-/

namespace Outfitter.Update

open Disk Action Files Install Snapshot

variable {k : Kit} {root : Path} {o : Options} {lookup : Except Error String} {d d' : Disk} {version : String}

theorem trail_stamp : d.trail (Layout.stamp root) = d.trail (Layout.assetsDir root) ++ [".pilot-version"] := by
  rw [Layout.stamp, trail_div isName_stamp, Layout.assetsDir, trail_div (by decide), List.append_assoc]
  rfl

/-- A version that was saved is read back, if the assets are still found. -/
theorem current_of_saved (h : (Release.save root version).on d = (.ok (), d'))
    (hd : d'.isDir (Layout.assetsDir root) = true) :
    Release.current root d' = Release.versionIn version := by
  obtain ⟨d₁, -, hreplace⟩ := of_replace_ok h
  obtain ⟨place, hfind⟩ := find_of_replaced trail_stamp (by decide) (steps_div root isName_stamp) endsIdle_stamp
    hreplace hd
  rw [Release.current, readText_of_find hfind (by decide) (fromUTF8?_toUTF8 version)]

theorem current_later (root : Path) (d : Disk) (clock : Nat) :
    Release.current root (d.later clock) = Release.current root d := by
  rw [Release.current, Release.current, ← readText_settled (d := d)]
  rfl

theorem latest_begin (k : Kit) (lookup : Except Error String) :
    (begin k lookup).latest = Release.latestOr lookup k.version := rfl

theorem status_of_outdated (upgrade : Except Error Unit) (ho : o.checkOnly = false)
    (hv : Release.current root d ≠ (begin k lookup).latest) :
    (run k root o lookup upgrade d).1.status ≠ .alreadyCurrent := by
  obtain ⟨r, hrun⟩ := run_of_outdated upgrade ho hv
  rw [hrun]
  cases o.strategy with
  | auto =>
    rw [auto_run]
    rcases (Install.run k.bundle k.manifest root).on ((take root).on d).2 with ⟨e | files, d₂⟩
    · rintro ⟨⟩
    · rcases hsave : (Release.save root k.version).on (tidy root o.keep d₂).2 with ⟨e | u, d₃⟩ <;>
        simp [hsave]
  | manual =>
    unfold manual
    simp only [bind, StateT.bind, outcome, snapshot_run]
    rcases (writeGuide root k.version
      (((take root).on d).1.toOption.getD (Layout.snapshots root / "<timestamp>"))).on ((take root).on d).2 with
      ⟨e | guide, d₂⟩ <;> rintro ⟨⟩

/-- An automatic update that succeeds leaves the project at the installed version, provided that
its assets are still found. A later run then has nothing to do, and does nothing, if and only if
no other version is published. -/
theorem updated_project_is_current (k k' : Kit) (root : Path) (o o' : Options) (lookup : Except Error String)
    (upgrade upgrade' : Except Error Unit) (d : Disk) (clock : Nat) (hauto : o.strategy = .auto)
    (hsame : k'.version = k.version) (hne : k.version ≠ "") (htrim : Text.trim k.version = k.version)
    (hcheck : o'.checkOnly = false) :
    let first := run k root o lookup upgrade d
    first.1.status = .updated → first.2.isDir (Layout.assetsDir root) = true →
      Release.current root first.2 = k.version ∧ first.1.target = k.version ∧
        let between := first.2.later clock
        let second := run k' root o' lookup upgrade' between
        ((∀ published, lookup = .ok published → published = k.version) →
          Release.needsUpdate root lookup k.version between = false ∧
            second.1.status = .alreadyCurrent ∧ second.2 = between) ∧
        ∀ published, lookup = .ok published → published ≠ k.version →
          Release.needsUpdate root lookup k.version between = true ∧ second.1.status ≠ .alreadyCurrent := by
  intro first hupdated hd
  obtain ⟨r, hrun⟩ := (run_cases k root o lookup upgrade d).resolve_left fun h => by
    rw [show first.1.status = _ from h.1] at hupdated
    cases hupdated
  rw [hauto] at hrun
  replace hrun : first = auto k root o.keep r d := hrun
  rw [hrun] at hupdated hd ⊢
  obtain ⟨files, d₂, -, hsave, -, htarget⟩ := auto_updated hupdated
  have hcurrent : Release.current root (auto k root o.keep r d).2 = k.version := by
    rw [current_of_saved hsave hd, Release.versionIn, htrim]
    exact if_neg (by simpa using hne)
  refine ⟨hcurrent, htarget, ?_⟩
  rw [← current_later root _ clock] at hcurrent
  refine ⟨fun hpublished => ?_, fun published hlookup hother => ?_⟩
  · have hlatest : Release.latestOr lookup k.version = k.version := by
      cases lookup with
      | error e => rfl
      | ok published => exact hpublished published rfl
    refine ⟨?_, run_of_current upgrade' ?_⟩
    · simp [Release.needsUpdate, hcurrent, hlatest]
    · rw [latest_begin, hsame, hcurrent, hlatest]
  · have hlatest : Release.latestOr lookup k.version = published := by
      rw [hlookup]
      rfl
    refine ⟨?_, status_of_outdated upgrade' hcheck ?_⟩
    · simp [Release.needsUpdate, hcurrent, hlatest, Ne.symm hother]
    · rw [latest_begin, hsame, hcurrent, hlatest]
      exact Ne.symm hother

/-- A project whose assets are behind a link. -/
def linked : Disk :=
  ⟨.dir ⟨0, false⟩
    [ (".claude", .link (Path.ofText "real"))
    , ("real", .dir ⟨1, false⟩
        [ (".pilot-version", .link (Path.ofText "../elsewhere"))
        , ("settings.json", .dir ⟨2, false⟩ []) ])
    , ("elsewhere", .file "1.9.0".toUTF8 0o444 ⟨3, false⟩) ],
    [], 100⟩

theorem linked_project_is_current :
    let root := Path.ofText "/"
    let first := run planner root {} (.ok "3.0.0") (.ok ()) linked
    let between := first.2.later 200
    Release.current root linked = "1.9.0" ∧ first.1.status = .updated ∧
      first.2.isDir (Layout.assetsDir root) = true ∧ Release.current root first.2 = "2.0.0" ∧
      Release.needsUpdate root (.ok "3.0.0") "2.0.0" between = true ∧
      (run starter root { skipUpgrade := true } (.ok "3.0.0") (.ok ()) between).1.status ≠ .alreadyCurrent := by
  intro root
  have hbefore : Release.current root linked = "1.9.0" := by decide +kernel
  have hend : (run planner root {} (.ok "3.0.0") (.ok ()) linked).1.status = .updated ∧
      (run planner root {} (.ok "3.0.0") (.ok ()) linked).2.isDir (Layout.assetsDir root) = true := by
    decide +kernel
  have hcurrent := updated_project_is_current planner starter root {} { skipUpgrade := true } (.ok "3.0.0")
    (.ok ()) (.ok ()) linked 200 rfl rfl (by decide) (by decide) rfl
  generalize run planner root {} (.ok "3.0.0") (.ok ()) linked = first at hend hcurrent ⊢
  obtain ⟨hstatus, hd⟩ := hend
  obtain ⟨hversion, -, -, hother⟩ := hcurrent hstatus hd
  exact ⟨hbefore, hstatus, hd, hversion, hother "3.0.0" rfl (by decide)⟩

/-- A project that reaches its assets by a way through its stamp. -/
def knotted : Disk :=
  ⟨.dir ⟨0, false⟩
    [ (".claude", .link (Path.ofText "real/.pilot-version/../real"))
    , ("real", .dir ⟨1, false⟩
        [ (".pilot-version", .link (Path.ofText "../other"))
        , ("settings.json", .dir ⟨2, false⟩ []) ])
    , ("other", .dir ⟨3, false⟩ []) ],
    [], 100⟩

theorem knotted_project_loses_version :
    let root := Path.ofText "/"
    let result := run planner root {} (.ok "2.0.0") (.ok ()) knotted
    result.1.status = .updated ∧ result.1.target = "2.0.0" ∧ Release.current root result.2 = "none" := by
  decide +kernel

end Outfitter.Update
