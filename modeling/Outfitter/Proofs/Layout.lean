import Outfitter.Inventory
import Outfitter.Proofs.Calendar
import Outfitter.Proofs.Disk.Lookup

/-! # Places of a project

The fixed paths of a project spell places below its root, and the names that are made from
the time are proper names.
-/

namespace Outfitter

namespace Calendar

/-- A time stamp can name an entry of a directory. -/
theorem isName_timestamp (t : Nat) : isName (timestamp t) = true := by
  have hmem := underscore_mem_timestamp t
  rw [isName_iff]
  refine ⟨?_, ?_, ?_, ?_⟩
  · intro he
    rw [he] at hmem
    exact absurd hmem (by decide)
  · intro he
    rw [he] at hmem
    exact absurd hmem (by decide)
  · intro he
    rw [he] at hmem
    exact absurd hmem (by decide)
  · intro hs
    rcases mem_timestamp hs with h | h | h
    · exact absurd h (by decide)
    · exact absurd h (by decide)
    · exact absurd h (by decide)

end Calendar

/-- A text that a path below a project can be: proper names between slashes, and no
backslash. -/
def isClean (s : String) : Bool := (splitSlash s).all isName && !s.toList.contains '\\'

theorem isName_of_isClean {s : String} (h : isClean s = true) :
    ∀ x ∈ splitSlash s, isName x = true := by
  simp only [isClean, Bool.and_eq_true, List.all_eq_true] at h
  exact h.1

/-- One file of a bundle goes to a place of another name. -/
theorem Inventory.destination_cases (bundled : String) :
    bundled = "CLAUDE.md.template" ∧ destination bundled = "CLAUDE.md" ∨ destination bundled = bundled := by
  rw [destination, renames, List.lookup_cons, List.lookup_nil]
  split
  · next h => exact Or.inl ⟨eq_of_beq h, rfl⟩
  · exact Or.inr rfl

namespace Disk

variable {d : Disk} {root : Path} {s : String}

theorem trail_div (h : ∀ x ∈ splitSlash s, isName x = true) :
    d.trail (root / s) = d.trail root ++ splitSlash s :=
  trail_join h (Path.splitSlash_ne_nil s)

theorem place_div (h : ∀ x ∈ splitSlash s, isName x = true) :
    d.place (root / s) = d.place root ++ splitSlash s :=
  place_join h (Path.splitSlash_ne_nil s)

theorem named_div (hn : root.Named) (h : ∀ x ∈ splitSlash s, isName x = true) :
    (root / s).Named :=
  hn.join h

end Disk

namespace Layout

open Disk

variable {d : Disk} {root : Path}

theorem isName_append_tmp {s : String} (h : isName s = true) : isName (s ++ ".tmp") = true := by
  obtain ⟨-, -, -, hs⟩ := isName_iff.mp h
  have hlast : (s ++ ".tmp").toList.getLast? = some 'p' := by
    simp [String.toList_append, List.getLast?_append]
  rw [isName_iff]
  refine ⟨?_, ?_, ?_, ?_⟩
  · intro he
    rw [he] at hlast
    exact absurd hlast (by decide)
  · intro he
    rw [he] at hlast
    exact absurd hlast (by decide)
  · intro he
    rw [he] at hlast
    exact absurd hlast (by decide)
  · rw [String.toList_append, List.mem_append, not_or]
    exact ⟨hs, by decide⟩

/-- The place of a snapshot. -/
def snapshot (root : Path) (name : String) : Path := root.join ⟨[snapshotsDirName, name]⟩

theorem snapshots_div {name : String} (h : isName name = true) :
    snapshots root / name = snapshot root name := by
  show (root.join ⟨[snapshotsDirName]⟩).join ⟨splitSlash name⟩ = _
  rw [Path.splitSlash_of_isName h, Path.join_join (by simp) (by decide) (by simpa using h)]
  rfl

theorem isName_snapshot {name : String} (h : isName name = true) :
    ∀ s ∈ [snapshotsDirName, name], isName s = true := by
  simp only [List.mem_cons, List.not_mem_nil, or_false, forall_eq_or_imp, forall_eq]
  exact ⟨by decide, h⟩

theorem place_snapshot {name : String} (h : isName name = true) :
    d.place (snapshot root name) = d.place root ++ [snapshotsDirName, name] :=
  place_join (isName_snapshot h) (by simp)

theorem trail_snapshot {name : String} (h : isName name = true) :
    d.trail (snapshot root name) = d.trail root ++ [snapshotsDirName, name] :=
  trail_join (isName_snapshot h) (by simp)

theorem isName_settings : ∀ s ∈ [assetsDirName, "settings.json"], isName s = true := by decide

theorem names_settings : (settings root).names = root.names ++ [assetsDirName, "settings.json"] :=
  Path.names_join rfl

theorem fileName?_settings : (settings root).fileName? = some "settings.json" := by
  rw [Path.fileName?_eq, names_settings, List.getLast?_append]
  rfl

theorem place_settings : d.place (settings root) = d.place root ++ [assetsDirName, "settings.json"] :=
  place_join isName_settings (by decide)

theorem parent?_settings : (settings root).parent? = some (assetsDir root) :=
  Path.parent?_join (List.cons_ne_nil assetsDirName []) isName_settings

/-- A sibling of the settings stands in the directory of assets. -/
theorem settings_sibling (root : Path) {name : String} (h : isName name = true) :
    (settings root).withFileName name = root.join ⟨[assetsDirName, name]⟩ := by
  rcases Path.withFileName_cases (settings root) name with ⟨hf, -⟩ | ⟨s, q, -, hq, hs⟩
  · rw [fileName?_settings] at hf
    cases hf
  · cases parent?_settings.symm.trans hq
    rw [hs]
    show (root.join ⟨[assetsDirName]⟩).join ⟨splitSlash name⟩ = _
    rw [Path.splitSlash_of_isName h, Path.join_join (by simp) (by decide) (by simpa using h)]
    rfl

theorem isName_sibling {name : String} (h : isName name = true) :
    ∀ s ∈ [assetsDirName, name], isName s = true := by
  simp only [List.mem_cons, List.not_mem_nil, or_false, forall_eq_or_imp, forall_eq]
  exact ⟨by decide, h⟩

theorem place_sibling {name : String} (h : isName name = true) :
    d.place ((settings root).withFileName name) = d.place root ++ [assetsDirName, name] := by
  rw [settings_sibling root h]
  exact place_join (isName_sibling h) (by simp)

theorem named_sibling {name : String} (hn : root.Named) (h : isName name = true) :
    ((settings root).withFileName name).Named := by
  rw [settings_sibling root h]
  exact hn.join (isName_sibling h)

/-- The sibling in which a new version is prepared has a name of its own. -/
theorem staging_eq {p : Path} (hn : p.Named) :
    ∃ base name, staging p = base.join ⟨[name]⟩ ∧ base.Named ∧ isName name = true ∧
      ∀ d : Disk, d.place p ≠ d.place base ++ [name] := by
  rcases Path.withFileName_cases p (p.fileName?.getD "" ++ ".tmp") with ⟨hf, hs⟩ | ⟨s, q, hf, hq, hs⟩
  · refine ⟨p, ".tmp", ?_, hn, by decide, fun d => by simp⟩
    rw [staging, hs, hf]
    rfl
  · obtain ⟨hu, hlast⟩ := Path.fileName?_some hf
    have hname : isName s = true := (hn s (List.mem_of_getLast? hlast)).resolve_left hu
    have htmp : isName (s ++ ".tmp") = true := isName_append_tmp hname
    refine ⟨q, s ++ ".tmp", ?_, hn.parent hq, htmp, fun d => ?_⟩
    · rw [staging, hs, hf, Option.getD_some]
      show q.join ⟨splitSlash (s ++ ".tmp")⟩ = _
      rw [Path.splitSlash_of_isName htmp]
    · have htrail : d.trail p = d.trail q ++ [s] := by
        obtain ⟨init, hinit⟩ := List.getLast?_eq_some_iff.mp (Path.getLast?_steps hlast hu)
        rw [trail_parent (by simp [hinit]) hq, trail, hinit, ← List.append_assoc, List.dropLast_concat]
      rw [place, htrail, climb_below (by simpa using hname)]
      intro he
      have hs' : s = s ++ ".tmp" := by simpa using List.append_cancel_left he
      have hlen := congrArg (·.toList.length) hs'
      simp [String.toList_append] at hlen

theorem staging_settings (root : Path) :
    staging (settings root) = root.join ⟨[assetsDirName, "settings.json.tmp"]⟩ := by
  rw [staging, fileName?_settings]
  exact settings_sibling root (by decide)

end Layout

end Outfitter
