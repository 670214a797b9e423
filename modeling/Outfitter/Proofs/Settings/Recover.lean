import Outfitter.Proofs.Calendar
import Outfitter.Proofs.Settings.Permissions

/-! # Settings that can be recovered

A merge that rewrites the settings first copies them to a sibling that is named by the second. Two
merges in different seconds therefore leave the first version of the settings in one of the two
siblings, or in its place. In one second the second copy takes the place of the first.
-/

namespace Outfitter

namespace Disk

variable {allow : Edit → List String → Prop} {d d' : Disk} {p source target : Path} {above above' : List String}
  {name name' : String} {c : ByteArray} {mode : Nat} {t : Stamp}

/-- The bytes of the file that a path leads to. -/
def content? (d : Disk) (p : Path) : Option ByteArray :=
  match d.locate false p with
  | .ok (.there _ (.file content _ _)) => some content
  | _ => none

/-- A path can be copied to: nothing is there, or a file that may be written. -/
def Accepts (d : Disk) (p : Path) : Prop :=
  ∃ spot, d.locate false p = .ok spot ∧
    ∀ n, d.top.at? spot.place = some n → ∃ c mode t, n = .file c mode t ∧ isWritable mode = true

/-- Edits of files leave directories where they are. -/
theorem Steps.agrees (ha : ∀ e q, allow e q → e ≠ .make ∧ e ≠ .erase) (hp : d.top.isPlain = true)
    (h : Steps allow d d') : Agrees d d' where
  cwd := h.cwd_eq
  dir := by
    intro q
    refine ⟨fun hd => ?_, h.dir fun p hp => absurd rfl (ha _ p hp).2⟩
    revert hd
    refine h.keeps (P := fun x => x.top.shape? q = some .dir → d.top.shape? q = some .dir) ?_ id
    intro x y hstep ih hy
    obtain ⟨e, p, -, hallow, hfits, helse, -, -⟩ := hstep.effect
    obtain ⟨hmake, herase⟩ := ha e p hallow
    by_cases hq : q = p
    · subst hq
      obtain ⟨t, es, hat⟩ := Node.shape?_eq_dir.mp hy
      rw [hat] at hfits
      cases e with
      | make => exact absurd rfl hmake
      | touch =>
        obtain ⟨_, _, _, hold, -⟩ := hfits
        exact ih (Node.shape?_eq_dir.mpr ⟨_, _, hold⟩)
      | create => simp [Edit.Fits] at hfits
      | rewrite => simp [Edit.Fits] at hfits
      | append => simp [Edit.Fits] at hfits
      | unlink => simp [Edit.Fits] at hfits
      | erase => exact absurd rfl herase
    · exact ih (helse q hq (fun he => absurd he herase) ▸ hy)
  link := by
    intro q target
    have hfree : ∀ x : Disk, x.top.isPlain = true → x.top.shape? q ≠ some (.link target) := fun x hx hlink =>
      Node.linkFree_of_isPlain hx q target (Node.shape?_eq_link.mp hlink)
    exact ⟨fun hl => absurd hl (hfree d' (h.isPlain hp)), fun hl => absurd hl (hfree d hp)⟩

theorem content?_eq_some : d.content? p = some c ↔
    ∃ place mode t, d.locate false p = .ok (.there place (.file c mode t)) := by
  unfold content?
  split
  · next hlocate => simp [hlocate]
  · next hnot =>
    refine ⟨(by rintro ⟨⟩), ?_⟩
    rintro ⟨place, mode, t, hlocate⟩
    exact absurd hlocate (hnot _ _ _ _)

theorem Entry.content?_of_file (e : Entry d p above name)
    (h : d.top.at? (above ++ [name]) = some (.file c mode t)) : d.content? p = some c := by
  rw [content?, e.locate_there h (by simp)]

/-- A file that may be read is copied to where it may be written. -/
theorem Entry.copy (es : Entry d source above name) (et : Entry d target above' name')
    (hs : d.top.at? (above ++ [name]) = some (.file c mode t)) (hr : isReadable mode = true)
    (ht : d.top.at? (above' ++ [name']) = none ∨
      ∃ c m t, d.top.at? (above' ++ [name']) = some (.file c m t) ∧ isWritable m = true) :
    ∃ d', d.copy source target = .ok d' := by
  rw [Disk.copy, find_ok_iff.mpr (es.locate_there hs (by simp))]
  simp only [hr, Bool.not_true, Bool.false_eq_true, if_false]
  rcases ht with hnone | ⟨c', m', t', hat, hw⟩
  · rw [et.locate_vacant hnone]
    simp only [et.ends, Bool.false_eq_true, if_false]
    exact ⟨_, rfl⟩
  · rw [et.locate_there hat (by simp)]
    simp only [hw, if_true]
    exact ⟨_, rfl⟩

end Disk

namespace Settings

open Disk Action Files

variable {d d' : Disk} {root : Path} {above : List String} {c : ByteArray} {mode clock : Nat} {t : Stamp}
  {x : Action Outcome} {doc : Document}

/-- The sibling that settings are copied to in a second. -/
def backupPath (root : Path) (clock : Nat) : Path := (Layout.settings root).withFileName (backupName clock)

theorem backupName_injective {a b : Nat} (h : backupName a = backupName b) : a = b := by
  have hlist := congrArg String.toList h
  rw [toList_backupName, toList_backupName] at hlist
  exact Calendar.timestamp_injective (String.toList_injective (List.append_cancel_left hlist))

/-! ## Entries beside the settings -/

theorem entry_of_backup {spot : Spot} (e : Entry d (Layout.settings root) above "settings.json")
    (h : d.locate false (backupPath root clock) = .ok spot) (hl : Shape.Loose (d.top.shape? spot.place)) :
    Entry d (backupPath root clock) above (backupName clock) ∧ spot.place = above ++ [backupName clock] := by
  have htrail := e.trail_withFileName (isName_backupName clock)
  obtain ⟨above', name, e', hplace⟩ := entry_of_loose htrail.2.1 h hl
  have hlast := e'.trail_eq
  rw [htrail.1, List.dropLast_concat, List.append_cancel_left_eq] at hlast
  cases hlast
  have habove := e.beside e' (by rw [htrail.1, List.dropLast_concat])
  subst habove
  exact ⟨e', hplace⟩

theorem entry_of_accepts (e : Entry d (Layout.settings root) above "settings.json")
    (h : d.Accepts (backupPath root clock)) :
    Entry d (backupPath root clock) above (backupName clock) ∧
      (d.top.at? (above ++ [backupName clock]) = none ∨
        ∃ c m t, d.top.at? (above ++ [backupName clock]) = some (.file c m t) ∧ isWritable m = true) := by
  obtain ⟨spot, hlocate, hfree⟩ := h
  cases hat : d.top.at? spot.place with
  | none =>
    obtain ⟨e', hplace⟩ := entry_of_backup e hlocate (Node.loose_of_none hat)
    exact ⟨e', Or.inl (hplace ▸ hat)⟩
  | some n =>
    obtain ⟨c, m, t, rfl, hw⟩ := hfree n hat
    obtain ⟨e', hplace⟩ := entry_of_backup e hlocate (Node.loose_of_file hat)
    exact ⟨e', Or.inr ⟨c, m, t, hplace ▸ hat, hw⟩⟩

theorem above_eq (hl : d.top.LinkFree) (e : Entry d (Layout.settings root) above "settings.json")
    (hfile : d.top.at? (above ++ ["settings.json"]) = some (.file c mode t)) :
    above = d.place root ++ [Layout.assetsDirName] := by
  obtain ⟨hplace, -⟩ := find_ok hl (find_ok_iff.mpr (e.locate_there hfile (by simp)))
  rw [Layout.place_settings] at hplace
  have hsplit : d.place root ++ [Layout.assetsDirName, "settings.json"] =
      (d.place root ++ [Layout.assetsDirName]) ++ ["settings.json"] := by simp
  rw [hsplit] at hplace
  exact (List.append_inj' hplace rfl).1

/-! ## One merge -/

theorem tryBackUp_none (h : (tryBackUp (Layout.settings root)).on d = (.ok none, d')) :
    d' = d ∧ ∃ fault, d.copy (Layout.settings root) (backupPath root d.clock) = .error fault := by
  obtain ⟨d₁, -, hrun⟩ | ⟨fault, hcopy, hrun⟩ := tryBackUp_cases root d
  · cases hrun.symm.trans h
  · cases hrun.symm.trans h
    exact ⟨rfl, fault, hcopy⟩

/-- Backing settings up leaves them in the sibling of the second, if they could be copied there or were
there already. A copy has their mode. -/
theorem tryBackUp_holds (hp : d.top.isPlain = true) (hn : root.Named)
    (e : Entry d (Layout.settings root) above "settings.json")
    (hfile : d.top.at? (above ++ ["settings.json"]) = some (.file c mode t)) (hr : isReadable mode = true)
    (hback : d.Accepts (backupPath root d.clock) ∨ d.top.holds? (backupPlace d root) = some (some c)) :
    ∃ backup d₁, (tryBackUp (Layout.settings root)).on d = (.ok backup, d₁) ∧
      Steps (Writes (backupPlace d root)) d d₁ ∧ ∃ m u, d₁.top.at? (backupPlace d root) = some (.file c m u) ∧
        (d.Accepts (backupPath root d.clock) → m = mode) := by
  obtain ⟨backup, d₁, hrun, hs, hb⟩ := tryBackUp_ok hp hn
  refine ⟨backup, d₁, hrun, hs, ?_⟩
  cases backup with
  | none =>
    obtain ⟨hidle, fault, hcopy⟩ := tryBackUp_none hrun
    have hrefused : ¬ d.Accepts (backupPath root d.clock) := fun haccepts => by
      obtain ⟨et, hfree⟩ := entry_of_accepts e haccepts
      obtain ⟨d₂, hok⟩ := e.copy et hfile hr hfree
      cases hcopy.symm.trans hok
    obtain ⟨m, u, hheld⟩ := Node.holds?_eq_some.mp (hback.resolve_left hrefused)
    exact ⟨m, u, hidle ▸ hheld, fun haccepts => absurd haccepts hrefused⟩
  | some b =>
    obtain ⟨hbplace, c', m, u, u', hkept, hsame⟩ := hb b rfl
    rw [above_eq (Node.linkFree_of_isPlain hp) e hfile, List.append_assoc] at hfile
    rw [Layout.place_settings, ← Node.shape?_eq_file, shape?_of_writes hs (backupPlace_ne (by decide)).symm,
      Node.shape?_eq_file] at hsame
    cases hsame.symm.trans hfile
    exact ⟨_, u, hbplace ▸ hkept, fun _ => rfl⟩

/-- Settings that are saved stay in the sibling of the second; if saving fails, they stay in place. -/
theorem saveOver_backs_up {r : Except Error Unit} (hp : d.top.isPlain = true)
    (e : Entry d (Layout.settings root) above "settings.json")
    (hfile : d.top.at? (above ++ ["settings.json"]) = some (.file c mode t)) (hr : isReadable mode = true)
    (h : (saveOver (Layout.settings root) doc).on d = (r, d')) :
    Steps (Merges d root) d d' ∧
      (d.Accepts (backupPath root d.clock) ∨ d.top.holds? (backupPlace d root) = some (some c) →
        ∃ m u, d'.top.at? (backupPlace d root) = some (.file c m u) ∧
          (d.Accepts (backupPath root d.clock) → m = mode)) ∧
      ∀ fault, r = .error fault → d'.top.holds? (d.place (Layout.settings root)) = some (some c) := by
  have hl := Node.linkFree_of_isPlain hp
  have hlocate : d.locate true (Layout.settings root) = .ok (.there (above ++ ["settings.json"]) (.file c mode t)) :=
    e.locate_there hfile (by simp)
  have hn : root.Named := (leads_of_locate_join hl Layout.isName_settings (by decide) hlocate).named hp
  refine ⟨?_, fun hback => ?_, ?_⟩
  · have hkeeps : Keeps (Steps (Merges d root) d) (saveOver (Layout.settings root) doc) :=
      keeps_saveOver hp hn fun _ _ hm => hm
    have hsteps := hkeeps d (.refl d)
    rwa [h] at hsteps
  · obtain ⟨backup, d₁, hrun, hs, m, u, hheld, hm⟩ := tryBackUp_holds hp hn e hfile hr hback
    have hwrite : Steps (Swaps (d₁.place (Layout.staging (Layout.settings root))) (d₁.place (Layout.settings root))) d₁
        ((write (Layout.settings root) doc backup).on d₁).2 :=
      write_steps (hs.isPlain hp) (named_settings hn)
    rw [saveOver, on_bind_ok hrun] at h
    rw [h, hs.place_eq, hs.place_eq, place_staging_settings, Layout.place_settings] at hwrite
    refine ⟨m, u, ?_, hm⟩
    rw [← Node.shape?_eq_file, shape?_of_swaps hwrite (backupPlace_ne (by decide)) (backupPlace_ne (by decide)),
      Node.shape?_eq_file]
    exact hheld
  · rintro fault rfl
    rw [saveOver_error hp hn h, (find_ok hl (find_ok_iff.mpr hlocate)).1.symm]
    exact Node.holds?_eq_some.mpr ⟨_, _, hfile⟩

theorem Merges.not_make {e : Edit} {q : List String} (h : Merges d root e q) : e ≠ .make ∧ e ≠ .erase := by
  rcases h with (⟨-, rfl | rfl⟩ | ⟨-, rfl | rfl⟩ | ⟨-, rfl⟩) | ⟨-, rfl | rfl⟩ <;> simp

theorem shape?_of_merges {name : String} (h : Steps (Merges d root) d d') (hs : name ≠ "settings.json")
    (ht : name ≠ "settings.json.tmp") (hb : name ≠ backupName d.clock) :
    d'.top.shape? (d.place root ++ [Layout.assetsDirName, name]) =
      d.top.shape? (d.place root ++ [Layout.assetsDirName, name]) := by
  refine h.shape?_eq ?_ fun q hq => absurd rfl (Merges.not_make hq).2
  rintro e ((⟨hq, -⟩ | ⟨hq, -⟩ | ⟨hq, -⟩) | ⟨hq, -⟩)
  · exact ht (by simpa using hq)
  · exact hs (by simpa using hq)
  · exact ht (by simpa using hq)
  · exact hb (by simpa [backupPlace] using hq)

theorem isFile_of_merges (h : Steps (Merges d root) d d')
    (hfile : ∃ c mode t, d.top.at? (d.place root ++ [Layout.assetsDirName, "settings.json"]) = some (.file c mode t)) :
    ∃ c mode t, d'.top.at? (d.place root ++ [Layout.assetsDirName, "settings.json"]) = some (.file c mode t) := by
  refine h.isFile (fun q hq => absurd rfl (Merges.not_make hq).2) ?_ hfile
  simp [Merges, Swaps, Writes]

/-- What a merge does that saves settings in the directory `above`, which were the bytes `c` and had a mode. -/
structure Saves (root : Path) (above : List String) (c : ByteArray) (mode : Nat) (d : Disk)
    (r : Except Error Outcome) (d' : Disk) : Prop where
  rewrites : r ≠ .ok .unchanged
  plain : d'.top.isPlain = true
  agrees : Agrees d d'
  file : ∃ c mode t, d'.top.at? (above ++ ["settings.json"]) = some (.file c mode t)
  others : ∀ name, name ≠ "settings.json" → name ≠ "settings.json.tmp" → name ≠ backupName d.clock →
    d'.top.shape? (above ++ [name]) = d.top.shape? (above ++ [name])
  held : d.Accepts (backupPath root d.clock) ∨ d.top.holds? (above ++ [backupName d.clock]) = some (some c) →
    ∃ m u, d'.top.at? (above ++ [backupName d.clock]) = some (.file c m u) ∧
      (d.Accepts (backupPath root d.clock) → m = mode)
  stays : ∀ fault, r = .error fault → d'.top.holds? (above ++ ["settings.json"]) = some (some c)

theorem merge_saves {r : Except Error Outcome} (hp : d.top.isPlain = true)
    (e : Entry d (Layout.settings root) above "settings.json")
    (hfile : d.top.at? (above ++ ["settings.json"]) = some (.file c mode t))
    (hx : x ∈ [mergeStatusLine root, mergeHooks root]) (h : x.on d = (r, d')) :
    d' = d ∨ Saves root above c mode d r d' := by
  obtain ⟨r', hrun, -⟩ | ⟨doc, o, hr, ho, hrun⟩ := merge_cases e hfile hx
  · cases hrun.symm.trans h
    exact Or.inl rfl
  · refine Or.inr ?_
    rcases hsave : (saveOver (Layout.settings root) doc).on d with ⟨saved, d₁⟩
    obtain ⟨hsteps, hheld, hstays⟩ := saveOver_backs_up hp e hfile hr hsave
    have hresult : d' = d₁ ∧ r = saved.map fun _ => o := by
      rw [hrun] at h
      cases saved with
      | error fault =>
        rw [on_bind_error hsave] at h
        cases h
        exact ⟨rfl, rfl⟩
      | ok u =>
        rw [on_bind_ok hsave, on_pure] at h
        cases h
        exact ⟨rfl, rfl⟩
    have habove := above_eq (Node.linkFree_of_isPlain hp) e hfile
    have hbeside : ∀ name, d.place root ++ [Layout.assetsDirName, name] = above ++ [name] := by
      intro name
      rw [habove, List.append_assoc]
      rfl
    rw [backupPlace, hbeside] at hheld
    rw [Layout.place_settings, hbeside] at hstays
    rw [hresult.1, hresult.2]
    refine ⟨?_, hsteps.isPlain hp, hsteps.agrees (fun _ _ => Merges.not_make) hp, ?_, ?_, hheld, ?_⟩
    · cases saved with
      | error fault => simp [Except.map]
      | ok u => simpa [Except.map] using ho
    · rw [← hbeside]
      exact isFile_of_merges hsteps ⟨_, _, _, by rw [hbeside]; exact hfile⟩
    · intro name hs ht hb
      rw [← hbeside]
      exact shape?_of_merges hsteps hs ht hb
    · intro fault hfault
      cases saved with
      | error other => exact hstays other rfl
      | ok u => cases hfault

/-! ## Two merges -/

theorem agrees_clock (d : Disk) (clock : Nat) : Agrees d { d with clock } :=
  ⟨rfl, fun _ => Iff.rfl, fun _ _ => Iff.rfl⟩

section Merges

variable {content : ByteArray} {t₁ t₂ : Nat} {d₁ d₂ : Disk} {r₁ r₂ : Except Error Outcome}

/-- The first version of the settings is in place, or in the sibling of one of some seconds. -/
def Survives (above : List String) (content : ByteArray) (seconds : List Nat) (d : Disk) : Prop :=
  d.top.holds? (above ++ ["settings.json"]) = some (some content) ∨
    ∃ t ∈ seconds, d.top.holds? (above ++ [backupName t]) = some (some content)

theorem survives_second (hp : d.top.isPlain = true) (e : Entry d (Layout.settings root) above "settings.json")
    (hfile : d.top.at? (above ++ ["settings.json"]) = some (.file content mode t))
    (hback : d.Accepts (backupPath root t₂)) (h₂ : (mergeHooks root).on { d with clock := t₂ } = (r₂, d₂)) :
    Agrees d d₂ ∧ Survives above content [t₁, t₂] d₂ := by
  have hagree := agrees_clock d t₂
  obtain rfl | hsaves := merge_saves (d := { d with clock := t₂ }) hp (e.agrees hagree) hfile
    (List.mem_cons_of_mem _ List.mem_cons_self) h₂
  · exact ⟨hagree, Or.inl (Node.holds?_eq_some.mpr ⟨_, _, hfile⟩)⟩
  · obtain ⟨m, u, hheld, -⟩ := hsaves.held (Or.inl hback)
    exact ⟨hagree.trans hsaves.agrees, Or.inr ⟨t₂, by simp, Node.holds?_eq_some.mpr ⟨m, u, hheld⟩⟩⟩

/-- Two merges leave the first version of the settings somewhere, unless both save in one second. -/
theorem merges_survive (hp : d.top.isPlain = true) (e : Entry d (Layout.settings root) above "settings.json")
    (hfile : d.top.at? (above ++ ["settings.json"]) = some (.file content mode t))
    (hback : ∀ t ∈ [t₁, t₂], d.Accepts (backupPath root t))
    (h₁ : (mergeStatusLine root).on { d with clock := t₁ } = (r₁, d₁))
    (h₂ : (mergeHooks root).on { d₁ with clock := t₂ } = (r₂, d₂))
    (hcond : ¬ (t₁ = t₂ ∧ (∃ o, r₁ = .ok o ∧ o ≠ .unchanged) ∧ r₂ ≠ .ok .unchanged)) :
    ∀ d' ∈ [d₁, d₂], Agrees d d' ∧ Survives above content [t₁, t₂] d' := by
  have hagree := agrees_clock d t₁
  simp only [List.mem_cons, List.not_mem_nil, or_false, forall_eq_or_imp, forall_eq]
  obtain rfl | hfirst := merge_saves (d := { d with clock := t₁ }) hp (e.agrees hagree) hfile List.mem_cons_self h₁
  · exact ⟨⟨hagree, Or.inl (Node.holds?_eq_some.mpr ⟨_, _, hfile⟩)⟩,
      survives_second hp e hfile (hback t₂ (by simp)) h₂⟩
  · obtain ⟨m₁, u₁, hheld, -⟩ := hfirst.held (Or.inl (hback t₁ (by simp)))
    have hheld := Node.holds?_eq_some.mpr ⟨m₁, u₁, hheld⟩
    have hagree₁ := hagree.trans hfirst.agrees
    have hagree₂ := hagree₁.trans (agrees_clock d₁ t₂)
    refine ⟨⟨hagree₁, Or.inr ⟨t₁, by simp, hheld⟩⟩, ?_⟩
    obtain ⟨c₂, mode₂, u₂, hfile₂⟩ := hfirst.file
    obtain rfl | hsecond := merge_saves (d := { d₁ with clock := t₂ }) hfirst.plain (e.agrees hagree₂) hfile₂
      (List.mem_cons_of_mem _ List.mem_cons_self) h₂
    · exact ⟨hagree₂, Or.inr ⟨t₁, by simp, hheld⟩⟩
    · refine ⟨hagree₂.trans hsecond.agrees, ?_⟩
      by_cases ht : t₁ = t₂
      · -- the first merge did not go through, so that the settings are copied once more
        subst ht
        obtain ⟨fault, rfl⟩ : ∃ fault, r₁ = .error fault := by
          cases r₁ with
          | error fault => exact ⟨fault, rfl⟩
          | ok o =>
            refine absurd ⟨rfl, ⟨o, rfl, ?_⟩, hsecond.rewrites⟩ hcond
            rintro rfl
            exact hfirst.rewrites rfl
        have hstays := hfirst.stays fault rfl
        obtain ⟨m, u, hsame⟩ := Node.holds?_eq_some.mp hstays
        cases hsame.symm.trans hfile₂
        obtain ⟨m₂, u₂, hheld₂, -⟩ := hsecond.held (Or.inr hheld)
        exact Or.inr ⟨t₁, by simp, Node.holds?_eq_some.mpr ⟨m₂, u₂, hheld₂⟩⟩
      · refine Or.inr ⟨t₁, by simp, ?_⟩
        rw [Node.holds?, hsecond.others (backupName t₁) (backupName_ne t₁ (by decide)) (backupName_ne t₁ (by decide))
          fun hname => ht (backupName_injective hname)]
        exact hheld

end Merges

theorem Survives.content? {content : ByteArray} {seconds : List Nat} (h : Survives above content seconds d')
    (e : Entry d (Layout.settings root) above "settings.json") (hagree : Agrees d d')
    (hback : ∀ t ∈ seconds, d.Accepts (backupPath root t)) :
    d'.content? (Layout.settings root) = some content ∨
      ∃ t ∈ seconds, d'.content? (backupPath root t) = some content := by
  rcases h with h | ⟨t, ht, h⟩
  · obtain ⟨m, u, hat⟩ := Node.holds?_eq_some.mp h
    exact Or.inl ((e.agrees hagree).content?_of_file hat)
  · obtain ⟨m, u, hat⟩ := Node.holds?_eq_some.mp h
    exact Or.inr ⟨t, ht, ((entry_of_accepts e (hback t ht)).1.agrees hagree).content?_of_file hat⟩

/-- A second save in one second leaves in the sibling what the first one made of the settings. -/
theorem one_second_overwrites {content c₁ : ByteArray} {m₁ : Nat} {d₁ d₂ : Disk} {r₁ r₂ : Except Error Outcome}
    (e : Entry d (Layout.settings root) above "settings.json") (hback : d.Accepts (backupPath root clock))
    (hmode : isWritable mode = true) (h₁ : Saves root above content mode { d with clock } r₁ d₁)
    (h₂ : Saves root above c₁ m₁ { d₁ with clock } r₂ d₂) :
    ∃ m u, d₂.top.at? (above ++ [backupName clock]) = some (.file c₁ m u) := by
  obtain ⟨m, u, hheld, hm⟩ := h₁.held (Or.inl hback)
  have eb := ((entry_of_accepts e hback).1.agrees ((agrees_clock d clock).trans h₁.agrees)).agrees (agrees_clock d₁ clock)
  have hback₁ : Disk.Accepts { d₁ with clock } (backupPath root clock) := by
    refine ⟨_, eb.locate_there hheld (by simp), fun n hat => ?_⟩
    cases hheld.symm.trans hat
    exact ⟨_, _, _, rfl, hm hback ▸ hmode⟩
  obtain ⟨m', u', hover, -⟩ := h₂.held (Or.inl hback₁)
  exact ⟨m', u', hover⟩

theorem render_ne (doc : Document) : (render doc).toUTF8 ≠ "\x7b\x7d".toUTF8 := by
  intro h
  have hlist := congrArg String.toList (String.toByteArray_inj.mp h)
  have hlast := congrArg List.getLast? hlist
  rw [render, String.toList_append, List.getLast?_append] at hlast
  simp at hlast

/-- A project that a first `init` finds with settings of its own. -/
def hurried : Disk :=
  ⟨.dir ⟨0, false⟩
    [(".claude", .dir ⟨0, false⟩ [("settings.json", .file "\x7b\x7d".toUTF8 0o644 ⟨0, false⟩)])], [], 0⟩

theorem hurried_settings :
    hurried.locate false (Layout.settings (Path.ofText "/")) =
      .ok (.there ([".claude"] ++ ["settings.json"]) (.file "\x7b\x7d".toUTF8 0o644 ⟨0, false⟩)) := by rfl

theorem hurried_shows : Shows hurried (Path.ofText "/") [] := shows_iff.mpr rfl

theorem hurried_accepts : ∀ t ∈ [0, 1], hurried.Accepts (backupPath (Path.ofText "/") t) := by
  have hvacant : ∀ t ∈ [0, 1], ∃ name, hurried.locate false (backupPath (Path.ofText "/") t) =
      .ok (.vacant [".claude"] name) ∧ hurried.top.at? [".claude", name] = none := by
    simp only [List.mem_cons, List.not_mem_nil, or_false, forall_eq_or_imp, forall_eq]
    exact ⟨⟨"settings.json.backup.19700101_000000", rfl, rfl⟩, ⟨"settings.json.backup.19700101_000001", rfl, rfl⟩⟩
  intro t ht
  obtain ⟨name, hlocate, hnone⟩ := hvacant t ht
  refine ⟨_, hlocate, fun n hn => ?_⟩
  cases hnone.symm.trans hn

theorem hurried_ready : Ready hurried (Path.ofText "/") := by
  refine ready_of_shows (by decide +kernel) ⟨⟨by decide, by decide⟩, fun s hs => ?_⟩ hurried_shows
  have hfile : hurried.top.shape? [".claude", "settings.json.tmp"] = none := rfl
  cases hfile.symm.trans hs

theorem Saved.at? {doc : Document} (h : Saved d' root doc) (e : Entry d' (Layout.settings root) above "settings.json")
    (hfile : ∃ c m u, d'.top.at? (above ++ ["settings.json"]) = some (.file c m u)) :
    ∃ m u, d'.top.at? (above ++ ["settings.json"]) = some (.file (render doc).toUTF8 m u) := by
  obtain ⟨c, m, u, hat⟩ := hfile
  have hbytes := h.bytes
  rw [readBytes, find_ok_iff.mpr (e.locate_there hat (by simp))] at hbytes
  dsimp only at hbytes
  split at hbytes
  · cases hbytes
    exact ⟨m, u, hat⟩
  · cases hbytes

theorem Shows.unique_of_top {doc doc' : Document} (h : Shows d root doc) (h' : Shows d root doc') : doc = doc' := by
  obtain ⟨text, ht, hd⟩ := h
  obtain ⟨text', ht', hd'⟩ := h'
  cases ht.symm.trans ht'
  cases hd.symm.trans hd'
  rfl

/-- Both merges save the settings of the project in one second. -/
theorem hurried_merges :
    ∃ o₁ d₁ o₂ d₂ m₁ doc₁ doc₂,
      (mergeStatusLine (Path.ofText "/")).on { hurried with clock := 0 } = (.ok o₁, d₁) ∧
      (mergeHooks (Path.ofText "/")).on { d₁ with clock := 0 } = (.ok o₂, d₂) ∧
      Saves (Path.ofText "/") [".claude"] "\x7b\x7d".toUTF8 0o644 { hurried with clock := 0 } (.ok o₁) d₁ ∧
      Saves (Path.ofText "/") [".claude"] (render doc₁).toUTF8 m₁ { d₁ with clock := 0 } (.ok o₂) d₂ ∧
      Saved d₂ (Path.ofText "/") doc₂ := by
  obtain ⟨above, e, hplace⟩ := entry_of_settings hurried_settings
  obtain rfl := (List.append_inj' hplace rfl).1
  have hfile := locate_sound hurried_settings
  have hsturdy : Sturdy [] := .of_read (rfl : Json.read? "\x7b\x7d" = some (.obj [])) rfl
  have hsturdy₁ : Sturdy [(statusLineKey, defaultStatusLine)] := hsturdy.addStatusLine rfl
  obtain ⟨o₁, d₁, hrun₁, hready₁, hshows₁, -, hsaved₁⟩ :=
    patches_mergeStatusLine.run hurried_ready hurried_shows fun _ h => (hsturdy.addStatusLine h).read
  have hsaves₁ := (merge_saves hurried_ready.plain e hfile List.mem_cons_self hrun₁).resolve_left fun hsame => by
    rw [hsame] at hshows₁
    cases hshows₁.unique_of_top hurried_shows
  have e₁ := e.agrees hsaves₁.agrees
  obtain ⟨m₁, u₁, hfile₁⟩ := (hsaved₁ _ rfl).at? e₁ hsaves₁.file
  have hready : Ready { d₁ with clock := 0 } (Path.ofText "/") :=
    ⟨hready₁.plain, hready₁.leads, hready₁.assets, hready₁.admits, hready₁.free⟩
  obtain ⟨o₂, d₂, hrun₂, -, hshows₂, -, hsaved₂⟩ :=
    patches_mergeHooks.run hready (show Shows { d₁ with clock := 0 } _ _ from hshows₁) fun _ h =>
      (hsturdy₁.addHooks h).read
  have hsaves₂ := (merge_saves hready.plain (e₁.agrees (agrees_clock d₁ 0)) hfile₁
      (List.mem_cons_of_mem _ List.mem_cons_self) hrun₂).resolve_left fun hsame => by
    rw [hsame] at hshows₂
    cases hshows₂.unique_of_top (show Shows { d₁ with clock := 0 } _ _ from hshows₁)
  exact ⟨o₁, d₁, o₂, d₂, m₁, _, _, hrun₁, hrun₂, hsaves₁, hsaves₂, hsaved₂ _ rfl⟩

end Settings

end Outfitter
