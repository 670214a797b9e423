import Mathlib.Data.List.Nodup
import Outfitter.Proofs.Install.Again

/-! # What a report vouches for

A file that a report names as copied holds what the bundle gave when its turn came. Where a
report names a file as kept or failed, none was put. Both follow from the verdicts, as long as no
two names have one destination.
-/

namespace Outfitter.Install

open Disk Action Files

variable {b : Bundle} {m : Manifest} {root : Path} {dest : String} {d a : Disk} {names : List String} {r : Report}
  {log : List (String × Verdict)}

/-! ## The whole bundle -/

/-- What a report says of the names that were installed, and the disk that they left. -/
structure Vouches (b : Bundle) (m : Manifest) (root : Path) (d : Disk) (names : List String) (r : Report)
    (a : Disk) : Prop where
  run : (names.foldlM (installOne b m root) ⟨[], [], []⟩).on d = (.ok r, a)
  steps : Steps (fun e _ => e ≠ .erase) d a
  copied : ∀ dest ∈ r.copied, ∃ before name after bytes t, names = before ++ name :: after ∧
    dest = Inventory.destination name ∧ ((b.read name).on (turn b m root d before)).1 = .ok bytes ∧
    d.Admits (root / dest) ∧ a.top.at? (spot d root dest) = some (.file bytes (modeOf dest) t)
  others : ∀ q, (∀ dest ∈ r.copied, q ≠ spot d root dest) → ∀ c mode t,
    a.top.at? q = some (.file c mode t) ↔ d.top.at? q = some (.file c mode t)
  named : ∀ dest, dest ∈ r.copied ∨ dest ∈ r.kept ∨ dest ∈ r.failed.map Prod.fst →
    dest ∈ names.map Inventory.destination
  apart : ∀ dest, dest ∈ r.kept ∨ dest ∈ r.failed.map Prod.fst → dest ∉ r.copied

theorem Vouches.spot_eq (v : Vouches b m root d names r a) (dest : String) : spot a root dest = spot d root dest := by
  rw [spot, spot, v.steps.place_eq]

/-- A file that was copied has a path that was admitted from the start. -/
theorem Accounts.admits (h : Accounts b m root d log a) (hp : d.top.isPlain = true) (hn : root.Named)
    (hclean : ∀ l ∈ log, isClean l.1 = true) (hdest : dest ∈ (reported log).copied) : d.Admits (root / dest) := by
  obtain ⟨before, name, after, -, -, hlog, rfl, -, -, -⟩ := h.copied dest hdest
  have hsteps : Steps Lasting d (turn b m root d (before.map Prod.fst)) := by
    refine steps_installAll hp hn (fun name hname => ?_) _
    obtain ⟨l, hl, rfl⟩ := List.mem_map.mp hname
    exact hclean l (hlog ▸ List.mem_append_left _ hl)
  have hcopy := (of_verdict_copied (h.verdicts before name .copied after hlog)).2
  obtain ⟨-, -, hadmits, -⟩ := copyOne_ok (hsteps.isPlain hp) hn
    (isName_destination (hclean (name, .copied) (by simp [hlog]))) (Prod.ext hcopy rfl)
  exact hsteps.admits_iff.mp hadmits

/-- Verdicts on names with different destinations make a report that vouches for the names. -/
theorem Accounts.vouches (h : Accounts b m root d log a) (hp : d.top.isPlain = true) (hn : root.Named)
    (hclean : ∀ l ∈ log, isClean l.1 = true) (hnodup : (log.map fun l => Inventory.destination l.1).Nodup) :
    Vouches b m root d (log.map Prod.fst) (reported log) a where
  run := h.run
  steps := h.steps
  copied := by
    intro dest hdest
    obtain ⟨before, name, after, bytes, t, hlog, hd, -, hread, hat⟩ := h.copied dest hdest
    exact ⟨before.map Prod.fst, name, after.map Prod.fst, bytes, t, by simp [hlog], hd, hread,
      h.admits hp hn hclean hdest, hat⟩
  others := h.others
  named := by
    intro dest hdest
    obtain ⟨l, hl, -, rfl⟩ | ⟨l, hl, -, rfl⟩ := hdest.imp mem_copied.mp mem_uncopied.mp
    · exact List.mem_map_of_mem (List.mem_map_of_mem hl)
    · exact List.mem_map_of_mem (List.mem_map_of_mem hl)
  apart := by
    intro dest hdest hcopied
    obtain ⟨l, hl, hv, hd⟩ := mem_uncopied.mp hdest
    obtain ⟨l', hl', hv', hd'⟩ := mem_copied.mp hcopied
    rw [List.inj_on_of_nodup_map hnodup hl hl' (hd.trans hd'.symm)] at hv
    exact hv hv'

/-! ## Retired files -/

theorem removeFile_of_isFile {p : Path} (hp : d.top.isPlain = true) (hne : p.steps ≠ []) (hf : d.isFile p = true) :
    ∃ d', d.removeFile p = .ok d' ∧ d'.isFile p = false := by
  have hl := Node.linkFree_of_isPlain hp
  obtain ⟨ho, hi, hw, c, mode, t, hat⟩ := open_of_file hp hne hf
  have hloc := find_ok_iff.mp (hw.find hl hne hi ho.admits hat)
  rw [← locate_follow hl false] at hloc
  have hremove : d.removeFile p = .ok (d.erase (d.place p)) := by rw [removeFile, hloc]
  refine ⟨_, hremove, Bool.eq_false_iff.mpr fun hf' => ?_⟩
  have hs : Steps (fun _ _ => True) d (d.erase (d.place p)) := removeFile_steps hp (fun _ => trivial) hremove
  obtain ⟨-, -, -, c', mode', t', hat'⟩ := open_of_file (hs.isPlain hp) hne hf'
  rw [hs.place_eq, at?_erase hat (locate_file_ne_nil hl hloc)] at hat'
  cases hat'

/-- None of the files is left. -/
theorem isFile_removeFiles {ps : List (String × Path)} (hp : d.top.isPlain = true)
    (hne : ∀ p ∈ ps, p.2.steps ≠ []) : ∀ p ∈ ps, ((removeFiles ps).on d).2.isFile p.2 = false := by
  induction ps generalizing d with
  | nil => simp
  | cons p ps ih =>
    obtain ⟨hnep, hneps⟩ := List.forall_mem_cons.mp hne
    -- what is gone stays gone while the others are removed
    have hrest : ∀ a : Disk, a.top.isPlain = true → a.isFile p.2 = false →
        ∀ q ∈ p :: ps, ((removeFiles ps).on a).2.isFile q.2 = false := by
      intro a ha hgone
      have hs : Steps (fun e _ => e = .unlink) a ((removeFiles ps).on a).2 :=
        keeps_removeFiles ha (fun _ _ _ => rfl) a (.refl _)
      refine List.forall_mem_cons.mpr ⟨Bool.eq_false_iff.mpr fun hf => ?_, ih ha hneps⟩
      rw [isFile_of_erased ha hnep (fun _ _ he => Or.inr he) hs hf] at hgone
      cases hgone
    rw [removeFiles, on_bind_ask]
    cases hf : d.isFile p.2 with
    | false =>
      rw [if_neg Bool.false_ne_true]
      exact hrest d hp hf
    | true =>
      obtain ⟨a, hremove, hgone⟩ := removeFile_of_isFile hp hnep hf
      have hs : Steps (fun _ _ => True) d a := removeFile_steps hp (fun _ => trivial) hremove
      rw [if_pos rfl, on_bind_ok (on_change_ok hremove), snd_on_bind_pure]
      exact hrest a (hs.isPlain hp) hgone

theorem isFile_removeRetired (hp : d.top.isPlain = true) :
    ∀ text ∈ Inventory.retired, ((removeRetired root).on d).2.isFile (root / text) = false := by
  intro text htext
  have hname : ∀ text ∈ Inventory.retired, ∀ s ∈ splitSlash text, isName s = true := by decide
  refine isFile_removeFiles hp (fun p hmem => ?_) (text, root / text) (List.mem_map.mpr ⟨text, htext, rfl⟩)
  obtain ⟨text, htext, rfl⟩ := List.mem_map.mp hmem
  exact steps_div root (hname text htext)

end Outfitter.Install
