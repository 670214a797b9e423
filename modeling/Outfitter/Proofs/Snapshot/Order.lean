import Outfitter.Proofs.Calendar.Order
import Outfitter.Proofs.Snapshot.Copy

/-! # Snapshots in the order of time

Snapshots have the names of the seconds in which they are taken, so a listing of their names shows
them in the order of time. Those of different seconds are different directories, and a later one
leaves an earlier one as it is.
-/

namespace Outfitter.Snapshot

open Disk Action Files

variable {d : Disk} {root p : Path} {name : String}

/-- A snapshot is in a directory of its time. -/
theorem eq_of_take (h : ((take root).on d).1 = .ok p) : p = Layout.snapshot root (Calendar.timestamp d.clock) := by
  have hrun : (take root).on d = (.ok p, ((take root).on d).2) := Prod.ext h rfl
  generalize ((take root).on d).2 = d' at hrun
  rw [take, Snapshot.name, on_bind_ask, Layout.snapshots_div (Calendar.isName_timestamp _)] at hrun
  obtain ⟨-, d₁, -, hrun⟩ := of_on_bind_ok hrun
  rw [on_bind_ask] at hrun
  split at hrun
  · rw [on_bind_ask] at hrun
    dsimp only at hrun
    split at hrun
    · obtain ⟨-, d₂, -, hrun⟩ := of_on_bind_ok hrun
      obtain ⟨-, d₃, -, hrun⟩ := of_on_bind_ok hrun
      cases hrun
      rfl
    · obtain ⟨-, d₂, -, hrun⟩ := of_on_bind_ok hrun
      cases hrun
      rfl
  · cases hrun
    rfl

theorem fileName?_snapshot (h : isName name = true) : (Layout.snapshot root name).fileName? = some name := by
  rw [Path.fileName?_eq, Layout.snapshot, Path.names_join_mk (Layout.isName_snapshot h), List.getLast?_append]
  exact if_neg (isName_iff.mp h).2.2.1

theorem fileName?_of_take (h : ((take root).on d).1 = .ok p) : p.fileName? = some (Calendar.timestamp d.clock) := by
  rw [eq_of_take h, fileName?_snapshot (Calendar.isName_timestamp d.clock)]

/-- What has another name among the snapshots is left as it is. -/
theorem at?_take (hp : d.top.isPlain = true) (hroot : d.Leads root) (hname : name ≠ Calendar.timestamp d.clock) :
    ((take root).on d).2.top.at? (archive d root name) = d.top.at? (archive d root name) := by
  refine (steps_takes hp hroot).at?_eq ?_ ?_
  · rintro e q (⟨-, rfl⟩ | ⟨rest, rfl⟩) hq
    · have hlen := hq.length_le
      simp [archive] at hlen
    · exact hname (archive_prefix_iff.mp hq)
  · rintro q (⟨he, -⟩ | hq) hpre
    · cases he
    · exact hname (archive_prefix_iff.mp ((hq.trans hpre).trans (List.prefix_append _ []))).symm

/-- Up to the last second of the year 9999 the names of snapshots sort by time and have one form.
Snapshots of different seconds, of one project or of two, are in directories of different names,
and the later one leaves the earlier one as it is. -/
theorem snapshot_names_sort_by_time (t₁ t₂ : Nat) (h : t₁ < t₂) (hend : t₂ ≤ 253402300799) :
    Calendar.timestamp t₁ < Calendar.timestamp t₂ ∧
      Calendar.isMomentName (Calendar.timestamp t₁) = true ∧ Calendar.isMomentName (Calendar.timestamp t₂) = true ∧
      (∀ root₁ root₂ d₁ d₂ p₁ p₂, d₁.clock = t₁ → d₂.clock = t₂ →
        ((take root₁).on d₁).1 = .ok p₁ → ((take root₂).on d₂).1 = .ok p₂ →
        p₁.fileName? = some (Calendar.timestamp t₁) ∧ p₂.fileName? = some (Calendar.timestamp t₂) ∧ p₁ ≠ p₂) ∧
      ∀ root d, d.clock = t₂ → d.top.isPlain = true → d.Leads root →
        ((take root).on d).2.top.at? (archive d root (Calendar.timestamp t₁)) =
          d.top.at? (archive d root (Calendar.timestamp t₁)) := by
  have hne : Calendar.timestamp t₁ ≠ Calendar.timestamp t₂ := fun he =>
    absurd (Calendar.timestamp_injective he) (Nat.ne_of_lt h)
  refine ⟨Calendar.timestamp_lt h hend, Calendar.isMomentName_timestamp (by omega),
    Calendar.isMomentName_timestamp hend, ?_, ?_⟩
  · rintro root₁ root₂ d₁ d₂ p₁ p₂ rfl rfl h₁ h₂
    have hname₁ := fileName?_of_take h₁
    have hname₂ := fileName?_of_take h₂
    refine ⟨hname₁, hname₂, ?_⟩
    rintro rfl
    exact hne (Option.some.inj (hname₁.symm.trans hname₂))
  · rintro root d rfl hp hroot
    exact at?_take hp hroot hne

/-- A project on the first of March 2000, with a snapshot of the second before, in which the leap
day of the century ended. -/
def leapt : Disk :=
  ⟨.dir ⟨0, false⟩
    [ (".claude", .dir ⟨1, false⟩ [("settings.json", .file "{}".toUTF8 0o644 ⟨5, false⟩)])
    , (".claude-backups", .dir ⟨3, false⟩
        [("20000229_235959", .dir ⟨4, false⟩ [("old", .file "old".toUTF8 0o600 ⟨2, false⟩)])]) ],
    [], 951868800⟩

theorem leapt_names_sort :
    let root := Path.ofText "/"
    let before := { leapt with clock := 951868799 }
    951868799 < 951868800 ∧ 951868800 ≤ 253402300799 ∧ leapt.top.isPlain = true ∧ leapt.Leads root ∧
      Calendar.timestamp 951868799 = "20000229_235959" ∧ Calendar.timestamp 951868800 = "20000301_000000" ∧
      "20000229_235959" < "20000301_000000" ∧ Calendar.isMomentName "20000229_235959" = true ∧
      Calendar.isMomentName "20000301_000000" = true ∧
      (∃ p₁ p₂, ((take root).on before).1 = .ok p₁ ∧ ((take root).on leapt).1 = .ok p₂ ∧
        p₁.fileName? = some "20000229_235959" ∧ p₂.fileName? = some "20000301_000000" ∧ p₁ ≠ p₂) ∧
      ((take root).on leapt).2.top.at? [".claude-backups", "20000229_235959"] =
        some (.dir ⟨4, false⟩ [("old", .file "old".toUTF8 0o600 ⟨2, false⟩)]) := by
  have hp : leapt.top.isPlain = true := by decide
  have hplace : leapt.place (Path.ofText "/") = [] := by decide
  have hroot : leapt.Leads (Path.ofText "/") := ⟨⟨0, false⟩, _, by rw [hplace]; exact walk_nil _ _ _⟩
  have hts₁ : Calendar.timestamp 951868799 = "20000229_235959" := by decide
  have hts₂ : Calendar.timestamp 951868800 = "20000301_000000" := by decide
  have hok₁ : ((take (Path.ofText "/")).on { leapt with clock := 951868799 }).1.isOk = true := by decide +kernel
  have hok₂ : ((take (Path.ofText "/")).on leapt).1.isOk = true := by decide +kernel
  have hgives : ∀ r : Except Error Path, r.isOk = true → ∃ p, r = .ok p := by
    rintro (e | p) h
    · cases h
    · exact ⟨p, rfl⟩
  obtain ⟨hlt, hform₁, hform₂, hapart, hkept⟩ :=
    snapshot_names_sort_by_time 951868799 951868800 (by decide) (by decide)
  rw [hts₁] at hlt hform₁ hapart hkept
  rw [hts₂] at hlt hform₂ hapart
  intro root before
  refine ⟨by decide, by decide, hp, hroot, hts₁, hts₂, hlt, hform₁, hform₂, ?_, ?_⟩
  · obtain ⟨p₁, h₁⟩ := hgives _ hok₁
    obtain ⟨p₂, h₂⟩ := hgives _ hok₂
    exact ⟨p₁, p₂, h₁, h₂, hapart root root before leapt p₁ p₂ rfl rfl h₁ h₂⟩
  · have hsame := hkept root leapt rfl hp hroot
    rw [archive, hplace] at hsame
    exact hsame.trans rfl

end Outfitter.Snapshot
