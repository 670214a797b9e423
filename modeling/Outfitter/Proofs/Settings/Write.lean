import Outfitter.Proofs.Directories
import Outfitter.Proofs.Layout
import Outfitter.Settings

/-! # Writing documents

A document is written beside its file and then renamed over it. Whichever step fails, the
file holds what it held, and nothing else is changed but the sibling.
-/

namespace Outfitter

/-- The bytes of what stands at a place, if it is a file. -/
def Shape.bytes? : Shape → Option ByteArray
  | .file content _ _ => some content
  | _ => none

/-- What a place holds: nothing, something that is no file, or a file with its bytes. -/
def Node.holds? (n : Node) (place : List String) : Option (Option ByteArray) :=
  (n.shape? place).map Shape.bytes?

theorem Node.holds?_eq_some {n : Node} {place : List String} {c : ByteArray} :
    n.holds? place = some (some c) ↔ ∃ mode t, n.at? place = some (.file c mode t) := by
  simp only [holds?, Option.map_eq_some_iff]
  constructor
  · rintro ⟨s, hs, hb⟩
    cases s with
    | file c' mode t =>
      cases hb
      exact ⟨mode, t, shape?_eq_file.mp hs⟩
    | link => cases hb
    | dir => cases hb
  · rintro ⟨mode, t, hat⟩
    exact ⟨_, shape?_eq_file.mpr hat, rfl⟩

namespace Settings

open Disk Action Files

variable {d d' : Disk} {file staging : Path} {doc : Document} {e : Error}

/-! ## Staging -/

/-- What writing beside a file may change. -/
def Writes (place : List String) (e : Edit) (q : List String) : Prop :=
  q = place ∧ (e = .create ∨ e = .rewrite)

/-- What putting a staged file in place may change. -/
def Swaps (source target : List String) (e : Edit) (q : List String) : Prop :=
  Writes source e q ∨ Writes target e q ∨ (q = source ∧ e = .unlink)

theorem spared_writes {place q : List String} : Spared (Writes place) q := by
  rintro p ⟨-, h | h⟩ <;> cases h

theorem spared_swaps {source target q : List String} : Spared (Swaps source target) q := by
  rintro p (⟨-, h | h⟩ | ⟨-, h | h⟩ | ⟨-, h⟩) <;> cases h

theorem shape?_of_writes {place q : List String} (h : Steps (Writes place) d d') (hq : q ≠ place) :
    d'.top.shape? q = d.top.shape? q :=
  h.shape?_eq (fun _ hw => hq hw.1) spared_writes

theorem shape?_of_swaps {source target q : List String} (h : Steps (Swaps source target) d d')
    (hs : q ≠ source) (ht : q ≠ target) : d'.top.shape? q = d.top.shape? q := by
  refine h.shape?_eq ?_ spared_swaps
  rintro e (hw | hw | hw)
  · exact hs hw.1
  · exact ht hw.1
  · exact hs hw.1

/-- A staging that fails has touched nothing but the sibling. -/
theorem stage_error (hp : d.top.isPlain = true) (hn : staging.Named)
    (h : (stage file staging doc).on d = (.error e, d')) :
    Steps (Writes (d.place staging)) d d' := by
  unfold stage at h
  cases hw : d.write staging (render doc).toUTF8 with
  | error f =>
    rw [on_bind_error (on_change_error hw)] at h
    cases h
    exact .refl _
  | ok d₁ =>
    have hs : Steps (Writes (d.place staging)) d d₁ :=
      edit_steps hp hn ⟨rfl, Or.inl rfl⟩ ⟨rfl, Or.inr rfl⟩ hw
    rw [on_bind_ok (on_change_ok hw)] at h
    have hstay : d' = d₁ := by
      cases hr : d₁.readText staging with
      | error f =>
        rw [on_bind_error (on_fetch_error hr)] at h
        cases h
        rfl
      | ok written =>
        rw [on_bind_ok (on_fetch_ok hr)] at h
        split at h
        · cases h
          rfl
        · cases hm : d₁.rename staging file with
          | error f =>
            rw [on_change_error hm] at h
            cases h
            rfl
          | ok d₂ =>
            rw [on_change_ok hm] at h
            cases h
    rw [hstay]
    exact hs

/-- A staging that succeeds has put the document in place. -/
theorem stage_ok (hp : d.top.isPlain = true) (hnf : file.Named) (hns : staging.Named)
    (hne : d.place staging ≠ d.place file) (h : (stage file staging doc).on d = (.ok (), d')) :
    Steps (Swaps (d.place staging) (d.place file)) d d' ∧
      (∃ mode, d'.find file = .ok (d.place file, .file (render doc).toUTF8 mode d.now) ∧
        isReadable mode = true) ∧ d'.top.shape? (d.place staging) = none := by
  unfold stage at h
  obtain ⟨⟨⟩, d₁, hw, h₁⟩ := of_on_bind_ok h
  have hw := of_on_change_ok hw
  obtain ⟨written, d₂, hr, h₂⟩ := of_on_bind_ok h₁
  obtain ⟨hread, rfl⟩ := of_on_fetch_ok hr
  split at h₂
  · cases h₂
  have hm : d₂.rename staging file = .ok d' := of_on_change_ok h₂
  have hs : Steps (Writes (d.place staging)) d d₂ :=
    edit_steps hp hns ⟨rfl, Or.inl rfl⟩ ⟨rfl, Or.inr rfl⟩ hw
  have hp₂ := hs.isPlain hp
  obtain ⟨mode, hat, hnil, -⟩ := write_ok (Node.linkFree_of_isPlain hp) hw
  rw [← hs.place_eq staging, ← hs.place_eq file] at *
  have hreadable : isReadable mode = true := by
    obtain ⟨place, c, mode', t, hf, hr', -⟩ := readText_ok hread
    obtain ⟨rfl, hat'⟩ := find_ok (Node.linkFree_of_isPlain hp₂) hf
    rw [hat] at hat'
    cases hat'
    exact hr'
  refine ⟨?_, ⟨mode, rename_find hp₂ hnf hat hnil hne hm, hreadable⟩, (rename_at hp₂ hat hnil hne hm).2⟩
  refine (hs.mono fun e q hw => Or.inl ?_).trans (rename_steps hp₂ hnf hat ?_ ?_ ?_ hm)
  · rw [hs.place_eq] at hw ⊢
    exact hw
  · exact Or.inr (Or.inr ⟨rfl, rfl⟩)
  · exact Or.inr (Or.inl ⟨rfl, Or.inl rfl⟩)
  · exact Or.inr (Or.inl ⟨rfl, Or.inr rfl⟩)

/-! ## Clearing up -/

theorem clear_ok (hp : d.top.isPlain = true) :
    ∃ d₁, (clear staging).on d = (.ok (), d₁) ∧
      Steps (fun e q => q = d.place staging ∧ e = .unlink) d d₁ := by
  unfold clear
  rw [on_bind_ask]
  split
  · exact ⟨_, rfl, keeps_removeFile hp (fun _ => ⟨rfl, rfl⟩) d (.refl _)⟩
  · exact ⟨d, rfl, .refl _⟩

/-- No staged file stays. -/
theorem isFile_clear {base : Path} {name : String} (hp : d.top.isPlain = true)
    (hn : isName name = true) :
    ((clear (base.join ⟨[name]⟩)).on d).2.isFile (base.join ⟨[name]⟩) = false := by
  have hl := Node.linkFree_of_isPlain hp
  have hns : ∀ s ∈ [name], isName s = true := by simpa using hn
  unfold clear
  rw [on_bind_ask]
  cases hf : d.isFile (base.join ⟨[name]⟩) with
  | false =>
    rw [if_neg Bool.false_ne_true]
    exact hf
  | true =>
    rw [if_pos rfl, on_ignore]
    obtain ⟨ha, hlead, c, mode, t, hat⟩ := (isFile_join_iff hl hns (by simp)).mp hf
    have hrm : d.removeFile (base.join ⟨[name]⟩) = .ok (d.erase (d.place base ++ [name])) := by
      rw [removeFile, locate_join hl hlead hns (by simp) ha hat]
    rw [on_change_ok hrm]
    have hs : Steps (fun _ _ => True) d (d.erase (d.place base ++ [name])) :=
      steps_unlink hp hat trivial
    rw [Bool.eq_false_iff]
    intro hf'
    obtain ⟨-, -, c', mode', t', hat'⟩ :=
      (isFile_join_iff (Node.linkFree_of_isPlain (hs.isPlain hp)) hns (by simp)).mp hf'
    rw [hs.place_eq, at?_erase hat (by simp)] at hat'
    cases hat'

/-- What copying a backup back may change. -/
def Rewrites (place : List String) (e : Edit) (q : List String) : Prop := q = place ∧ e = .rewrite

/-- A backup that holds the bytes of its file leaves these as they are. -/
theorem putBack_ok {backup : Option Path} (hp : d.top.isPlain = true)
    (hb : ∀ b, backup = some b → d.place b ≠ d.place file ∧ ∃ c m t m' t',
      d.top.at? (d.place b) = some (.file c m t) ∧
      d.top.at? (d.place file) = some (.file c m' t')) :
    ∃ d₁, (putBack file backup).on d = (.ok (), d₁) ∧ Steps (Rewrites (d.place file)) d d₁ ∧
      d₁.top.holds? (d.place file) = d.top.holds? (d.place file) := by
  cases backup with
  | none => exact ⟨d, rfl, .refl _, rfl⟩
  | some b =>
    have hl := Node.linkFree_of_isPlain hp
    obtain ⟨hne, c, m, t, m', t', hat, hat'⟩ := hb b rfl
    rw [putBack, on_bind_ask]
    split
    · rw [on_ignore]
      refine ⟨_, rfl, ?_⟩
      cases hc : d.copy b file with
      | error f =>
        rw [on_change_error hc]
        exact ⟨.refl _, rfl⟩
      | ok d₁ =>
        rw [on_change_ok hc]
        obtain ⟨c₁, mode₁, t₁, hsource, -, hcase⟩ := copy_ok hl hc
        obtain ⟨c₂, mode₂, t₂, hsource', htarget⟩ := copy_at hl (Ne.symm hne) hc
        rw [hat] at hsource hsource'
        cases hsource
        cases hsource'
        rcases hcase with ⟨_, _, _, hfile, -, -, rfl⟩ | ⟨above, name, hpl, hv, -, -⟩
        · refine ⟨steps_rewrite hp hfile ⟨rfl, rfl⟩ ⟨_, _, _, rfl⟩, ?_⟩
          show Option.map _ (Option.map _ _) = Option.map _ (Option.map _ _)
          rw [htarget, hat']
          rfl
        · have hnone := (vacant_iff.mp hv).2
          rw [← hpl, Node.shape?, hat'] at hnone
          cases hnone
    · exact ⟨d, rfl, .refl _, rfl⟩

theorem shape?_dir_of_rewrites {place q : List String} (h : Steps (Rewrites place) d d') :
    d'.top.shape? q = some .dir ↔ d.top.shape? q = some .dir := by
  refine h.keeps (P := fun a => a.top.shape? q = some .dir ↔ d.top.shape? q = some .dir) ?_ Iff.rfl
  intro a b hs ha
  obtain ⟨e, p, -, ⟨-, rfl⟩, hf, hsh, -⟩ := hs.effect
  by_cases hqp : q = p
  · obtain ⟨⟨c, m, t, hold⟩, c', m', t', hnew⟩ := hf
    rw [← ha, hqp, Node.shape?, Node.shape?, hold, hnew]
    simp [Node.shape]
  · rw [hsh q hqp (by simp)]
    exact ha

theorem isFile_of_rewrites {base : Path} {name : String} {place : List String}
    (hp : d.top.isPlain = true) (hn : isName name = true) (hne : d.place base ++ [name] ≠ place)
    (h : Steps (Rewrites place) d d') (hf : d.isFile (base.join ⟨[name]⟩) = false) :
    d'.isFile (base.join ⟨[name]⟩) = false := by
  have hl := Node.linkFree_of_isPlain hp
  have hl' := Node.linkFree_of_isPlain (h.isPlain hp)
  have hns : ∀ s ∈ [name], isName s = true := by simpa using hn
  rw [Bool.eq_false_iff] at hf ⊢
  intro hf'
  obtain ⟨ha, hlead, c, mode, t, hat⟩ := (isFile_join_iff hl' hns (by simp)).mp hf'
  refine hf ((isFile_join_iff hl hns (by simp)).mpr ⟨h.admits_iff.mp ha, ?_, c, mode, t, ?_⟩)
  · rw [leads_iff hl', h.trail_eq] at hlead
    rw [leads_iff hl]
    exact ⟨hlead.1, fun ys hys => (shape?_dir_of_rewrites h).mp (hlead.2 ys hys)⟩
  · rw [h.place_eq, ← Node.shape?_eq_file] at hat
    rw [← Node.shape?_eq_file, ← hat]
    refine (h.shape?_eq (fun e hr => hne hr.1) ?_).symm
    rintro p ⟨-, hr⟩
    cases hr

/-! ## Writing as a whole -/

theorem named_staging (hn : file.Named) : (Layout.staging file).Named := by
  obtain ⟨base, name, hs, hbn, hname, -⟩ := Layout.staging_eq hn
  rw [hs]
  exact hbn.join (by simpa using hname)

theorem place_staging (hn : file.Named) : d.place (Layout.staging file) ≠ d.place file := by
  obtain ⟨base, name, hs, -, hname, hne⟩ := Layout.staging_eq hn
  rw [hs, place_join (by simpa using hname) (by simp)]
  exact Ne.symm (hne d)

variable {backup : Option Path}

theorem of_write_ok (h : (write file doc backup).on d = (.ok (), d')) :
    (stage file (Layout.staging file) doc).on d = (.ok (), d') := by
  unfold write at h
  rw [on_bind_attempt] at h
  rcases hst : (stage file (Layout.staging file) doc).on d with ⟨r, d₁⟩
  rw [hst] at h
  cases r with
  | error e =>
    obtain ⟨⟨⟩, d₂, -, h⟩ := of_on_bind_ok h
    cases h
  | ok u =>
    cases h
    rfl

/-- Writing a document changes nothing but its file and the sibling. -/
theorem write_steps (hp : d.top.isPlain = true) (hn : file.Named) :
    Steps (Swaps (d.place (Layout.staging file)) (d.place file)) d
      ((write file doc backup).on d).2 := by
  have hclear : Keeps (Steps (Swaps (d.place (Layout.staging file)) (d.place file)) d)
      (clear (Layout.staging file)) :=
    (Keeps.ask _).bind fun _ =>
      Keeps.ite (keeps_removeFile hp fun _ => Or.inr (Or.inr ⟨rfl, rfl⟩)).ignore (Keeps.pure _)
  have hput : Keeps (Steps (Swaps (d.place (Layout.staging file)) (d.place file)) d)
      (putBack file backup) := by
    cases backup with
    | none => exact Keeps.pure _
    | some b =>
      refine (Keeps.ask _).bind fun _ => Keeps.ite (Keeps.ignore ?_) (Keeps.pure _)
      exact keeps_copy hp hn (Or.inr (Or.inl ⟨rfl, Or.inl rfl⟩)) (Or.inr (Or.inl ⟨rfl, Or.inr rfl⟩))
  unfold write
  rw [on_bind_attempt]
  rcases hst : (stage file (Layout.staging file) doc).on d with ⟨r, d₁⟩
  cases r with
  | ok u => exact (stage_ok hp hn (named_staging hn) (place_staging hn) hst).1
  | error e =>
    have hs₁ := stage_error hp (named_staging hn) hst
    exact (hclear.bind fun _ => hput).bind (fun _ => Keeps.fail e) d₁ (hs₁.mono fun _ _ => Or.inl)

theorem write_ok (hp : d.top.isPlain = true) (hn : file.Named)
    (h : (write file doc backup).on d = (.ok (), d')) :
    (∃ mode, d'.find file = .ok (d.place file, .file (render doc).toUTF8 mode d.now) ∧
      isReadable mode = true) ∧ d'.top.shape? (d.place (Layout.staging file)) = none :=
  (stage_ok hp hn (named_staging hn) (place_staging hn) (of_write_ok h)).2

/-- A document that could not be written leaves what its file held, and no staged file. -/
theorem write_error (hp : d.top.isPlain = true) (hn : file.Named)
    (hb : ∀ b, backup = some b →
      d.place b ≠ d.place file ∧ d.place b ≠ d.place (Layout.staging file) ∧ ∃ c m t m' t',
        d.top.at? (d.place b) = some (.file c m t) ∧
        d.top.at? (d.place file) = some (.file c m' t'))
    (h : (write file doc backup).on d = (.error e, d')) :
    d'.top.holds? (d.place file) = d.top.holds? (d.place file) ∧
      d'.isFile (Layout.staging file) = false := by
  obtain ⟨base, name, hs, -, hname, hne⟩ := Layout.staging_eq hn
  unfold write at h
  rw [on_bind_attempt] at h
  rcases hst : (stage file (Layout.staging file) doc).on d with ⟨r, d₁⟩
  rw [hst] at h
  cases r with
  | ok u => cases h
  | error e₁ =>
    have hs₁ := stage_error hp (named_staging hn) hst
    have hp₁ := hs₁.isPlain hp
    obtain ⟨d₂, hclear, hs₂⟩ : ∃ d₂, (clear (Layout.staging file)).on d₁ = (.ok (), d₂) ∧ _ :=
      clear_ok hp₁
    have hp₂ := hs₂.isPlain hp₁
    have hgone : d₂.isFile (Layout.staging file) = false := by
      have hc : ((clear (base.join ⟨[name]⟩)).on d₁).2.isFile (base.join ⟨[name]⟩) = false :=
        isFile_clear hp₁ hname
      rw [← hs, hclear] at hc
      exact hc
    have hframe : ∀ q, q ≠ d.place (Layout.staging file) → d₂.top.shape? q = d.top.shape? q := by
      intro q hq
      rw [hs₂.shape?_eq, shape?_of_writes hs₁ hq]
      · rintro _ ⟨hq', -⟩
        exact hq (hq'.trans (hs₁.place_eq _))
      · rintro _ ⟨-, hu⟩
        cases hu
    have hfile : d.place file ≠ d.place (Layout.staging file) := Ne.symm (place_staging hn)
    have hpl : ∀ p, d₂.place p = d.place p := fun p => (hs₂.place_eq p).trans (hs₁.place_eq p)
    obtain ⟨d₃, hput, hs₃, hholds⟩ : ∃ d₃, (putBack file backup).on d₂ = (.ok (), d₃) ∧ _ := by
      refine putBack_ok hp₂ fun b hbackup => ?_
      obtain ⟨hbf, hbs, c, m, t, m', t', hat, hat'⟩ := hb b hbackup
      rw [hpl, hpl]
      refine ⟨hbf, c, m, t, m', t', ?_, ?_⟩
      · rw [← Node.shape?_eq_file, hframe _ hbs, Node.shape?_eq_file]
        exact hat
      · rw [← Node.shape?_eq_file, hframe _ hfile, Node.shape?_eq_file]
        exact hat'
    have hrestore : (restore file (Layout.staging file) backup).on d₁ = (.ok (), d₃) :=
      (on_bind_ok hclear).trans hput
    have hd' : d' = d₃ := by
      have hfail := (on_bind_ok hrestore).symm.trans h
      rw [on_fail, Prod.mk.injEq] at hfail
      exact hfail.2.symm
    subst hd'
    rw [hpl] at hs₃ hholds
    constructor
    · rw [hholds, Node.holds?, hframe _ hfile]
      rfl
    · rw [hs] at hgone ⊢
      refine isFile_of_rewrites hp₂ hname ?_ hs₃ hgone
      rw [hpl]
      exact Ne.symm (hne d)

end Settings

end Outfitter
