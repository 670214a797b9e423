import Outfitter.Proofs.Disk.Edit

/-! # The edits of each operation

For each operation on a disk, what it does when it succeeds, and the edits that this takes.
-/

namespace Outfitter.Disk

variable {allow : Edit → List String → Prop} {d d' : Disk} {p source target : Path}
  {place above : List String} {name : String} {n : Node} {c : ByteArray} {mode : Nat} {t : Stamp}

/-- A name is free in a directory that is there. -/
def Vacant (d : Disk) (above : List String) (name : String) : Prop :=
  ∃ t es, d.top.at? above = some (.dir t es) ∧ es.lookup name = none

theorem vacant_iff :
    d.Vacant above name ↔ d.top.shape? above = some .dir ∧ d.top.shape? (above ++ [name]) = none := by
  rw [Node.shape?_eq_dir, Node.shape?, Option.map_eq_none_iff, Node.at?_append]
  constructor
  · rintro ⟨t, es, hd, he⟩
    exact ⟨⟨t, es, hd⟩, by rw [hd, Option.bind_some, Node.at?_dir_cons, he]; rfl⟩
  · rintro ⟨⟨t, es, hd⟩, he⟩
    refine ⟨t, es, hd, ?_⟩
    rw [hd, Option.bind_some, Node.at?_dir_cons] at he
    cases hl : es.lookup name with
    | none => rfl
    | some n => rw [hl, Option.bind_some, Node.at?_nil] at he; cases he

/-! ## Single edits -/

theorem step_put_dir (hv : d.Vacant above name) (hn : isName name = true)
    (ha : allow .make (above ++ [name])) :
    Step allow d (d.put (above ++ [name]) (.dir t [])) := by
  obtain ⟨_, es, hd, he⟩ := hv
  exact .edit hd hn ha ⟨he, t, rfl⟩ (Or.inr rfl)

theorem step_put_file (hv : d.Vacant above name) (hn : isName name = true)
    (ha : allow .create (above ++ [name])) :
    Step allow d (d.put (above ++ [name]) (.file c mode t)) := by
  obtain ⟨_, es, hd, he⟩ := hv
  exact .edit hd hn ha ⟨he, c, mode, t, rfl⟩ (Or.inr rfl)

theorem update_nil (d : Disk) (f : Node → Node) : d.update [] f = d := by
  obtain ⟨top, cwd, clock⟩ := d
  cases top <;> rfl

theorem erase_nil (d : Disk) : d.erase [] = d := by
  obtain ⟨top, cwd, clock⟩ := d
  cases top <;> rfl

/-- A node that is there, as an entry of its directory; the top is no entry. -/
theorem exists_entry (hp : d.top.isPlain = true) (h : d.top.at? place = some n) :
    place = [] ∨ ∃ above name t es, place = above ++ [name] ∧ isName name = true ∧
      d.top.at? above = some (.dir t es) ∧ es.lookup name = some n := by
  rcases List.eq_nil_or_concat' place with rfl | ⟨above, name, rfl⟩
  · exact Or.inl rfl
  · obtain ⟨t, es, hd, he⟩ := (Node.at?_concat _ _ _).mp h
    exact Or.inr ⟨above, name, t, es, rfl, (Node.isPlain_of_at? hp h).1 name (by simp), hd, he⟩

theorem steps_update {e : Edit} {f : Node → Node} (hp : d.top.isPlain = true)
    (h : d.top.at? place = some n) (ha : allow e place) (hf : e.Fits (some n) (some (f n))) :
    Steps allow d (d.update place f) := by
  rcases exists_entry hp h with rfl | ⟨above, name, t, es, rfl, hn, hd, he⟩
  · rw [update_nil]
    exact .refl _
  · exact .of_step (.edit hd hn ha (by rw [he]; exact hf) (Or.inl rfl))

theorem steps_rewrite {f : Node → Node} (hp : d.top.isPlain = true)
    (h : d.top.at? place = some (.file c mode t)) (ha : allow .rewrite place)
    (hf : ∃ c' mode' t', f (.file c mode t) = .file c' mode' t') :
    Steps allow d (d.update place f) := by
  obtain ⟨c', mode', t', hf⟩ := hf
  exact steps_update hp h ha ⟨⟨c, mode, t, rfl⟩, c', mode', t', by rw [hf]⟩

theorem steps_put_over {c' : ByteArray} {mode' : Nat} {t' : Stamp} (hp : d.top.isPlain = true)
    (h : d.top.at? place = some (.file c mode t)) (ha : allow .rewrite place) :
    Steps allow d (d.put place (.file c' mode' t')) := by
  rcases exists_entry hp h with rfl | ⟨above, name, t₀, es, rfl, hn, hd, he⟩
  · obtain ⟨top, cwd, clock⟩ := d
    rw [Node.at?_nil, Option.some.injEq] at h
    subst h
    exact .refl _
  · refine .of_step (.edit hd hn ha ?_ (Or.inr rfl))
    rw [he]
    exact ⟨⟨c, mode, t, rfl⟩, c', mode', t', rfl⟩

theorem steps_remove {e : Edit} (hp : d.top.isPlain = true) (h : d.top.at? place = some n)
    (ha : allow e place) (hf : e.Fits (some n) none) : Steps allow d (d.erase place) := by
  rcases exists_entry hp h with rfl | ⟨above, name, t, es, rfl, hn, hd, he⟩
  · rw [erase_nil]
    exact .refl _
  · exact .of_step (.edit hd hn ha (by rw [he]; exact hf) (Or.inr rfl))

theorem steps_unlink (hp : d.top.isPlain = true) (h : d.top.at? place = some (.file c mode t))
    (ha : allow .unlink place) : Steps allow d (d.erase place) :=
  steps_remove hp h ha ⟨⟨c, mode, t, rfl⟩, rfl⟩

theorem steps_erase (hp : d.top.isPlain = true) (h : d.top.at? place = some n)
    (ha : allow .erase place) : Steps allow d (d.erase place) :=
  steps_remove hp h ha ⟨by simp, rfl⟩

/-! ## What stands there afterwards -/

theorem at?_put (hd : ∃ t es, d.top.at? above = some (.dir t es)) (n : Node) :
    (d.put (above ++ [name]) n).top.at? (above ++ [name]) = some n := by
  obtain ⟨t, es, hd⟩ := hd
  exact (Node.at?_alter_self hd).trans (Node.at?_nil n)

theorem at?_update {f : Node → Node} (h : d.top.at? place = some n) (hne : place ≠ []) :
    (d.update place f).top.at? place = some (f n) := by
  obtain ⟨above, name, rfl⟩ := (List.eq_nil_or_concat' place).resolve_left hne
  obtain ⟨t, es, hd, he⟩ := (Node.at?_concat _ _ _).mp h
  refine (Node.at?_alter_self hd).trans ?_
  rw [he, Option.map_some, Option.bind_some, Node.at?_nil]

theorem at?_erase (h : d.top.at? place = some n) (hne : place ≠ []) :
    (d.erase place).top.at? place = none := by
  obtain ⟨above, name, rfl⟩ := (List.eq_nil_or_concat' place).resolve_left hne
  obtain ⟨t, es, hd, -⟩ := (Node.at?_concat _ _ _).mp h
  exact Node.at?_alter_self hd

/-- A new stamp for a directory changes no shape. -/
theorem shape?_touch {f : Node → Node} {es : Entries} (h : d.top.at? place = some (.dir t es))
    (hf : ∃ t', f (.dir t es) = .dir t' es) (q : List String) :
    (d.update place f).top.shape? q = d.top.shape? q := by
  rcases List.eq_nil_or_concat' place with rfl | ⟨above, name, rfl⟩
  · rw [update_nil]
  · by_cases hpre : above ++ [name] <+: q
    · obtain ⟨rest, rfl⟩ := hpre
      obtain ⟨t', hf⟩ := hf
      rw [Node.shape?, Node.shape?, Node.at?_append, at?_update h (by simp), Node.at?_append, h,
        Option.bind_some, Option.bind_some, hf]
      cases rest <;> rfl
    · exact Node.shape?_alter hpre

/-! ## Writing -/

/-- Writing into a file that may be written keeps its mode; otherwise a file is made. -/
theorem edit_ok {f : ByteArray → ByteArray} (hl : d.top.LinkFree) (h : d.edit p f = .ok d') :
    (∃ c mode t, d.top.at? (d.place p) = some (.file c mode t) ∧ isWritable mode = true ∧
      d.place p ≠ [] ∧ d' = d.update (d.place p) fun _ => .file (f c) mode d.now) ∨
    (∃ above name, d.place p = above ++ [name] ∧ d.Vacant above name ∧
      (p.Named → isName name = true) ∧
      d' = d.put (d.place p) (.file (f ByteArray.empty) defaultMode d.now)) := by
  unfold edit at h
  split at h
  · next place c mode t hloc =>
    obtain ⟨rfl, hat⟩ := locate_there hl hloc
    split at h
    · next hw => cases h; exact Or.inl ⟨c, mode, t, hat, hw, locate_file_ne_nil hl hloc, rfl⟩
    · cases h
  · cases h
  · next above name hloc =>
    obtain ⟨hpl, hv, -, -⟩ := locate_vacant hl hloc
    split at h
    · cases h
    · cases h
      exact Or.inr ⟨above, name, hpl.symm, hv, fun hn => isName_of_vacant hl hn hloc, by rw [hpl]⟩
  · cases h

/-- What was written stands there, with the mode that the file had or that of a new one. -/
theorem write_ok {bytes : ByteArray} (hl : d.top.LinkFree) (h : d.write p bytes = .ok d') :
    ∃ mode, d'.top.at? (d.place p) = some (.file bytes mode d.now) ∧ d.place p ≠ [] ∧
      ((∃ c t, d.top.at? (d.place p) = some (.file c mode t)) ∨
        (d.top.shape? (d.place p) = none ∧ mode = defaultMode)) := by
  rcases edit_ok hl h with ⟨c, mode, t, hat, -, hne, rfl⟩ | ⟨above, name, hpl, hv, -, rfl⟩
  · exact ⟨mode, at?_update hat hne, hne, Or.inl ⟨c, t, hat⟩⟩
  · obtain ⟨hdir, hnone⟩ := vacant_iff.mp hv
    rw [hpl]
    exact ⟨defaultMode, at?_put (Node.shape?_eq_dir.mp hdir) _, by simp, Or.inr ⟨hnone, rfl⟩⟩

theorem edit_steps {f : ByteArray → ByteArray} (hp : d.top.isPlain = true) (hn : p.Named)
    (hc : allow .create (d.place p)) (hr : allow .rewrite (d.place p))
    (h : d.edit p f = .ok d') : Steps allow d d' := by
  rcases edit_ok (Node.linkFree_of_isPlain hp) h with
    ⟨c, mode, t, hat, -, -, rfl⟩ | ⟨above, name, hpl, hv, hname, rfl⟩
  · exact steps_rewrite hp hat hr ⟨_, _, _, rfl⟩
  · rw [hpl] at hc ⊢
    exact .of_step (step_put_file hv (hname hn) hc)

theorem append_steps {bytes : ByteArray} (hp : d.top.isPlain = true) (hn : p.Named)
    (hc : allow .create (d.place p)) (ha : allow .append (d.place p))
    (h : d.append p bytes = .ok d') : Steps allow d d' := by
  rcases edit_ok (Node.linkFree_of_isPlain hp) h with
    ⟨c, mode, t, hat, -, -, rfl⟩ | ⟨above, name, hpl, hv, hname, rfl⟩
  · exact steps_update hp hat ha ⟨c, bytes, mode, t, d.now, rfl, rfl⟩
  · rw [hpl] at hc ⊢
    exact .of_step (step_put_file hv (hname hn) hc)

theorem edit_of_file {f : ByteArray → ByteArray} (h : d.locate true p = .ok (.there place (.file c mode t)))
    (hw : isWritable mode = true) :
    d.edit p f = .ok (d.update place fun _ => .file (f c) mode d.now) := by
  rw [edit, h]
  exact if_pos hw

theorem edit_of_vacant {f : ByteArray → ByteArray} (h : d.locate true p = .ok (.vacant above name))
    (hi : p.endsIdle = false) :
    d.edit p f = .ok (d.put (above ++ [name]) (.file (f ByteArray.empty) defaultMode d.now)) := by
  rw [edit, h]
  exact if_neg (by rw [hi]; exact Bool.false_ne_true)

/-! ## Copying -/

theorem copy_ok (hl : d.top.LinkFree) (h : d.copy source target = .ok d') :
    ∃ c mode t, d.top.at? (d.place source) = some (.file c mode t) ∧ isReadable mode = true ∧
      ((∃ c' mode' t', d.top.at? (d.place target) = some (.file c' mode' t') ∧
        isWritable mode' = true ∧ d.place target ≠ [] ∧ d' = d.update (d.place target) fun _ =>
          .file (if d.place target = d.place source then ByteArray.empty else c) mode d.now) ∨
      (∃ above name, d.place target = above ++ [name] ∧ d.Vacant above name ∧
        (target.Named → isName name = true) ∧
        d' = d.put (d.place target) (.file c mode d.now))) := by
  unfold copy at h
  split at h
  · next from_ c mode t hfind =>
    obtain ⟨rfl, hat⟩ := find_ok hl hfind
    refine ⟨c, mode, t, hat, ?_⟩
    split at h
    · cases h
    · next hread =>
      refine ⟨by simpa using hread, ?_⟩
      split at h
      · next place c' mode' t' hloc =>
        obtain ⟨rfl, hat'⟩ := locate_there hl hloc
        split at h
        · next hw =>
          cases h
          exact Or.inl ⟨c', mode', t', hat', hw, locate_file_ne_nil hl hloc, rfl⟩
        · cases h
      · cases h
      · next above name hloc =>
        obtain ⟨hpl, hv, -, -⟩ := locate_vacant hl hloc
        split at h
        · cases h
        · cases h
          exact Or.inr ⟨above, name, hpl.symm, hv, fun hn => isName_of_vacant hl hn hloc,
            by rw [hpl]⟩
      · cases h
  · cases h
  · cases h

theorem copy_of_not_admits (hl : d.top.LinkFree) (ha : ¬ d.Admits target) (source : Path) :
    ∃ e, d.copy source target = .error e := by
  obtain ⟨e, he⟩ := locate_of_not_admits hl ha true
  unfold copy
  rw [he]
  split
  · split
    · exact ⟨_, rfl⟩
    · exact ⟨e, rfl⟩
  · exact ⟨_, rfl⟩
  · exact ⟨_, rfl⟩

/-- A copy onto another place has the content and the mode of its source. -/
theorem copy_at (hl : d.top.LinkFree) (hne : d.place target ≠ d.place source)
    (h : d.copy source target = .ok d') :
    ∃ c mode t, d.top.at? (d.place source) = some (.file c mode t) ∧
      d'.top.at? (d.place target) = some (.file c mode d.now) := by
  obtain ⟨c, mode, t, hat, -, hcase⟩ := copy_ok hl h
  refine ⟨c, mode, t, hat, ?_⟩
  rcases hcase with ⟨c', mode', t', hat', -, hnil, rfl⟩ | ⟨above, name, hpl, hv, -, rfl⟩
  · rw [at?_update hat' hnil, if_neg hne]
  · rw [hpl]
    exact at?_put (Node.shape?_eq_dir.mp (vacant_iff.mp hv).1) _

theorem copy_steps (hp : d.top.isPlain = true) (hn : target.Named)
    (hc : allow .create (d.place target)) (hr : allow .rewrite (d.place target))
    (h : d.copy source target = .ok d') : Steps allow d d' := by
  obtain ⟨c, mode, t, -, -, hcase⟩ := copy_ok (Node.linkFree_of_isPlain hp) h
  rcases hcase with ⟨c', mode', t', hat, -, -, rfl⟩ | ⟨above, name, hpl, hv, hname, rfl⟩
  · exact steps_rewrite hp hat hr ⟨_, _, _, rfl⟩
  · rw [hpl] at hc ⊢
    exact .of_step (step_put_file hv (hname hn) hc)

theorem setModified_ok {stamp : Stamp} (hl : d.top.LinkFree) (h : d.setModified p stamp = .ok d') :
    ∃ c mode t, d.top.at? (d.place p) = some (.file c mode t) ∧ isWritable mode = true ∧
      d' = d.update (d.place p) fun _ => .file c mode stamp := by
  unfold setModified at h
  split at h
  · next place c mode t hfind =>
    obtain ⟨rfl, hat⟩ := find_ok hl hfind
    split at h
    · next hw => cases h; exact ⟨c, mode, t, hat, hw, rfl⟩
    · cases h
  · cases h
  · cases h

theorem setModified_steps {stamp : Stamp} (hp : d.top.isPlain = true)
    (hr : allow .rewrite (d.place p)) (h : d.setModified p stamp = .ok d') : Steps allow d d' := by
  obtain ⟨c, mode, t, hat, -, rfl⟩ := setModified_ok (Node.linkFree_of_isPlain hp) h
  exact steps_rewrite hp hat hr ⟨_, _, _, rfl⟩

theorem changeMode_steps {f : Nat → Nat} (hp : d.top.isPlain = true)
    (hr : d.Admits p → allow .rewrite (d.place p)) (h : d.changeMode p f = .ok d') :
    Steps allow d d' := by
  have hl := Node.linkFree_of_isPlain hp
  unfold changeMode at h
  split at h
  · next place c mode t hfind =>
    obtain ⟨rfl, hat⟩ := find_ok hl hfind
    cases h
    exact steps_rewrite hp hat (hr (locate_admits hl (find_ok_iff.mp hfind))) ⟨_, _, _, rfl⟩
  · cases h; exact .refl _
  · cases h

/-! ## Directories -/

theorem makeDir_ok (hl : d.top.LinkFree) (h : d.makeDir p = .ok d') :
    ∃ above name, d.place p = above ++ [name] ∧ d.Vacant above name ∧
      (p.Named → isName name = true) ∧ d' = d.put (d.place p) (.dir d.now []) := by
  unfold makeDir at h
  split at h
  · cases h
  · next above name hloc =>
    obtain ⟨hpl, hv, -, -⟩ := locate_vacant hl hloc
    cases h
    exact ⟨above, name, hpl.symm, hv, fun hn => isName_of_vacant hl hn hloc, by rw [hpl]⟩
  · cases h

theorem makeDir_steps (hp : d.top.isPlain = true) (hn : p.Named)
    (hm : allow .make (d.place p)) (h : d.makeDir p = .ok d') : Steps allow d d' := by
  obtain ⟨above, name, hpl, hv, hname, rfl⟩ := makeDir_ok (Node.linkFree_of_isPlain hp) h
  rw [hpl] at hm ⊢
  exact .of_step (step_put_dir hv (hname hn) hm)

/-! ## Removing -/

theorem removeFile_ok (hl : d.top.LinkFree) (h : d.removeFile p = .ok d') :
    (∃ c mode t, d.top.at? (d.place p) = some (.file c mode t)) ∧ d' = d.erase (d.place p) := by
  unfold removeFile at h
  split at h
  · cases h
  · next place n hnd hloc =>
    obtain ⟨rfl, hat⟩ := locate_there hl hloc
    cases h
    refine ⟨?_, rfl⟩
    cases n with
    | file c mode t => exact ⟨c, mode, t, hat⟩
    | link target => exact absurd hat (hl _ _)
    | dir t es => exact absurd rfl (hnd _ _)
  · cases h
  · cases h

theorem removeFile_steps (hp : d.top.isPlain = true) (hu : d.Admits p → allow .unlink (d.place p))
    (h : d.removeFile p = .ok d') : Steps allow d d' := by
  have hl := Node.linkFree_of_isPlain hp
  have ha : d.Admits p := by
    by_contra ha
    obtain ⟨e, he⟩ := locate_of_not_admits hl ha false
    rw [removeFile, he] at h
    cases h
  obtain ⟨⟨c, mode, t, hat⟩, rfl⟩ := removeFile_ok hl h
  exact steps_unlink hp hat (hu ha)

theorem removeTree_ok (hl : d.top.LinkFree) (h : d.removeTree p = .ok d') :
    (∃ t es, d.top.at? (d.place p) = some (.dir t es)) ∧ d' = d.erase (d.place p) := by
  unfold removeTree at h
  split at h
  · cases h
  · next place n hnf hloc =>
    obtain ⟨rfl, hat⟩ := locate_there hl hloc
    cases h
    refine ⟨?_, rfl⟩
    cases n with
    | file c mode t => exact absurd rfl (hnf _ _ _)
    | link target => exact absurd hat (hl _ _)
    | dir t es => exact ⟨t, es, hat⟩
  · cases h
  · cases h

theorem removeTree_steps (hp : d.top.isPlain = true) (he : allow .erase (d.place p))
    (h : d.removeTree p = .ok d') : Steps allow d d' := by
  obtain ⟨⟨t, es, hat⟩, rfl⟩ := removeTree_ok (Node.linkFree_of_isPlain hp) h
  exact steps_erase hp hat he

/-! ## Renaming and replacing -/

/-- A file that is renamed goes over a file or into a vacant place. -/
theorem rename_ok (hl : d.top.LinkFree) (h : d.rename source target = .ok d') :
    ∃ n, d.top.at? (d.place source) = some n ∧
      ((d.place source = d.place target ∧ d' = d) ∨
        (d.place source ≠ d.place target ∧
          ((∃ c mode t c' mode' t', n = .file c mode t ∧
              d.top.at? (d.place target) = some (.file c' mode' t')) ∨
            (n.isDir = true ∧ ∃ t, d.top.at? (d.place target) = some (.dir t [])) ∨
            (∃ above name, d.place target = above ++ [name] ∧ d.Vacant above name ∧
              (target.Named → isName name = true))) ∧
          d' = (d.erase (d.place source)).put (d.place target) n)) := by
  unfold rename at h
  split at h
  · next old n new m hs ht =>
    obtain ⟨rfl, hat⟩ := locate_there hl hs
    obtain ⟨rfl, hat'⟩ := locate_there hl ht
    refine ⟨n, hat, ?_⟩
    split at h
    · next he => cases h; exact Or.inl ⟨he, rfl⟩
    next hne =>
    refine Or.inr ⟨hne, ?_⟩
    split at h
    · cases h; exact ⟨Or.inr (Or.inl ⟨rfl, _, hat'⟩), rfl⟩
    · cases h; exact ⟨Or.inl ⟨_, _, _, _, _, _, rfl, hat'⟩, rfl⟩
    · exact absurd hat' (hl _ _)
    · exact absurd hat (hl _ _)
    · exact absurd hat (hl _ _)
    · cases h
    · cases h
    · cases h
  · next old n above name hs ht =>
    obtain ⟨rfl, hat⟩ := locate_there hl hs
    obtain ⟨hpl, ⟨t, es, hd, he⟩, -, -⟩ := locate_vacant hl ht
    split at h
    · cases h
    · cases h
      have hname : target.Named → isName name = true := fun hn => isName_of_vacant hl hn ht
      have hne : d.place source ≠ d.place target := by
        intro hc
        rw [hc, ← hpl, Node.at?_append, hd, Option.bind_some, Node.at?_dir_cons, he] at hat
        cases hat
      exact ⟨n, hat, Or.inr ⟨hne, Or.inr (Or.inr ⟨above, name, hpl.symm, ⟨t, es, hd, he⟩, hname⟩),
        by rw [hpl]⟩⟩
  · cases h
  · cases h
  · cases h

theorem spared_unlink (place q : List String) :
    Spared (fun e p => e = .unlink ∧ p = place) q := by
  rintro p ⟨he, -⟩
  cases he

theorem rename_steps (hp : d.top.isPlain = true) (hn : target.Named)
    (hs : d.top.at? (d.place source) = some (.file c mode t))
    (hu : allow .unlink (d.place source)) (hc : allow .create (d.place target))
    (hr : allow .rewrite (d.place target)) (h : d.rename source target = .ok d') :
    Steps allow d d' := by
  obtain ⟨n, hat, ⟨-, rfl⟩ | ⟨hne, hcase, rfl⟩⟩ := rename_ok (Node.linkFree_of_isPlain hp) h
  · exact .refl _
  rw [hs, Option.some.injEq] at hat
  subst hat
  have hunlink : Steps allow d (d.erase (d.place source)) := steps_unlink hp hs hu
  -- only the source is unlinked, so the target is found as it was
  have honly : Steps (fun e p => e = .unlink ∧ p = d.place source) d (d.erase (d.place source)) :=
    steps_unlink hp hs ⟨rfl, rfl⟩
  refine hunlink.trans ?_
  rcases hcase with ⟨_, _, _, c', mode', t', -, ht⟩ | ⟨hd, -⟩ | ⟨above, name, hpl, hv, hname⟩
  · have ht' := honly.file (spared_unlink _ _) (by simp) (by simp) (fun hc => hne hc.2.symm) ht
    exact steps_put_over (honly.isPlain hp) ht' hr
  · cases hd
  · rw [hpl] at hc ⊢
    obtain ⟨hdir, hnone⟩ := vacant_iff.mp hv
    refine .of_step (step_put_file (vacant_iff.mpr ⟨honly.dir (spared_unlink _ _) hdir, ?_⟩)
      (hname hn) hc)
    rw [honly.shape?_eq (fun e he => hne (hpl ▸ he.2.symm)) (spared_unlink _ _)]
    exact hnone

/-- A file that was renamed stands at its target, and nothing at its source. -/
theorem rename_at (hp : d.top.isPlain = true)
    (hs : d.top.at? (d.place source) = some (.file c mode t)) (hnil : d.place source ≠ [])
    (hne : d.place source ≠ d.place target) (h : d.rename source target = .ok d') :
    d'.top.at? (d.place target) = some (.file c mode t) ∧ d'.top.shape? (d.place source) = none := by
  obtain ⟨n, hat, ⟨he, -⟩ | ⟨-, hcase, rfl⟩⟩ := rename_ok (Node.linkFree_of_isPlain hp) h
  · exact absurd he hne
  rw [hs, Option.some.injEq] at hat
  subst hat
  have hgone := at?_erase hs hnil
  have honly : Steps (fun e p => e = .unlink ∧ p = d.place source) d (d.erase (d.place source)) :=
    steps_unlink hp hs ⟨rfl, rfl⟩
  have hholds : ∃ above name, d.place target = above ++ [name] ∧ d.top.shape? above = some .dir := by
    rcases hcase with ⟨_, _, _, c', mode', t', -, ht⟩ | ⟨hd, -⟩ | ⟨above, name, hpl, hv, -⟩
    · rcases exists_entry hp ht with hnil' | ⟨above, name, t'', es, hpl, -, hd, -⟩
      · rw [hnil', Node.at?_nil, Option.some.injEq] at ht
        rw [ht] at hs
        obtain ⟨a, rest, he⟩ := List.exists_cons_of_ne_nil hnil
        rw [he] at hs
        cases hs
      · exact ⟨above, name, hpl, Node.shape?_eq_dir.mpr ⟨_, _, hd⟩⟩
    · cases hd
    · exact ⟨above, name, hpl, (vacant_iff.mp hv).1⟩
  obtain ⟨above, name, hpl, hdir⟩ := hholds
  have hdir' := honly.dir (spared_unlink _ _) hdir
  constructor
  · rw [hpl]
    exact at?_put (Node.shape?_eq_dir.mp hdir') _
  · have hpre : ¬ d.place target <+: d.place source := by
      rintro ⟨rest, hrest⟩
      have hr : rest ≠ [] := by
        rintro rfl
        exact hne (by rw [← hrest, List.append_nil])
      rw [← hrest] at hs
      obtain ⟨t', es', htd⟩ := Node.isDir_of_at?_append hr hs
      rcases hcase with ⟨_, _, _, c', mode', t', -, ht⟩ | ⟨hd, -⟩ | ⟨above', name', hpl', hv, -⟩
      · rw [htd] at ht; cases ht
      · cases hd
      · have hnone := (vacant_iff.mp hv).2
        rw [← hpl', Node.shape?, htd] at hnone
        cases hnone
    show Node.shape? (Node.alter _ _ _ _) _ = none
    rw [Node.shape?_alter hpre, Node.shape?, hgone]
    rfl

/-- A file can only be renamed to a path that leads somewhere and may stand for a file. -/
theorem rename_target (hl : d.top.LinkFree)
    (hs : d.top.at? (d.place source) = some (.file c mode t)) (h : d.rename source target = .ok d') :
    target.endsIdle = false ∧ target.steps ≠ [] ∧ ∃ spot, d.locate false target = .ok spot := by
  unfold rename at h
  split at h
  · next old n new m hsource ht =>
    obtain ⟨rfl, hat⟩ := locate_there hl hsource
    obtain ⟨rfl, hat'⟩ := locate_there hl ht
    rw [hs, Option.some.injEq] at hat
    subst hat
    have hm : m.isDir = false := by
      split at h
      · next he =>
        rw [← he, hs, Option.some.injEq] at hat'
        rw [← hat']
        rfl
      · cases m with
        | dir => cases h
        | file => rfl
        | link => rfl
    refine ⟨?_, fun hsteps => ?_, _, ht⟩
    · obtain ⟨htakes, hw⟩ := locate_ok hl ht
      rw [locate_of_takes hl htakes, hw, settle, hm] at ht
      cases hi : target.endsIdle with
      | false => rfl
      | true =>
        rw [hi] at ht
        cases ht
    · obtain ⟨_, _, _, hdir⟩ := locate_of_no_steps hsteps ht
      cases hdir
      cases hm
  · next old n above name hsource ht =>
    obtain ⟨rfl, hat⟩ := locate_there hl hsource
    rw [hs, Option.some.injEq] at hat
    subst hat
    refine ⟨?_, steps_of_vacant ht, _, ht⟩
    cases hi : target.endsIdle with
    | false => rfl
    | true =>
      rw [hi] at h
      cases h
  · cases h
  · cases h
  · cases h

/-- A path to which a file was renamed leads to that file. -/
theorem rename_find (hp : d.top.isPlain = true) (hn : target.Named)
    (hs : d.top.at? (d.place source) = some (.file c mode t)) (hnil : d.place source ≠ [])
    (hne : d.place source ≠ d.place target) (h : d.rename source target = .ok d') :
    d'.find target = .ok (d.place target, .file c mode t) := by
  have hl := Node.linkFree_of_isPlain hp
  obtain ⟨hidle, hne', spot, hspot⟩ := rename_target hl hs h
  have hsteps : Steps (fun e _ => e ≠ .erase) d d' :=
    rename_steps hp hn hs (by simp) (by simp) (by simp) h
  rw [find_ok_iff, ← hsteps.place_eq]
  refine locate_of_dirs (Node.linkFree_of_isPlain (hsteps.isPlain hp))
    (hsteps.admits_iff.mpr (locate_admits hl hspot)) ?_ ?_ ?_
  · intro ys hys hlt
    rw [hsteps.trail_eq] at hys hlt
    exact hsteps.dir (by rintro p he; exact absurd rfl he) (dirs_of_locate hl hspot ys hys hlt)
  · rw [hsteps.place_eq]
    exact (rename_at hp hs hnil hne h).1
  · simp [hidle, hne']

/-- A file is moved over another file or to a vacant name. -/
theorem rename_of_file (hs : d.locate false source = .ok (.there place (.file c mode t)))
    (hi : target.endsIdle = false)
    (ht : (∃ place' c' mode' t', d.locate false target = .ok (.there place' (.file c' mode' t'))) ∨
      ∃ above name, d.locate false target = .ok (.vacant above name)) :
    ∃ d', d.rename source target = .ok d' := by
  rcases ht with ⟨place', c', mode', t', ht⟩ | ⟨above, name, ht⟩
  · rw [rename, hs, ht]
    dsimp only
    split
    · exact ⟨d, rfl⟩
    · exact ⟨_, rfl⟩
  · rw [rename, hs, ht]
    exact ⟨_, if_neg (by rw [hi]; exact Bool.false_ne_true)⟩

/-- The directory beside which a file is replaced is the one that holds it. -/
theorem trail_beside {dir : Path} (hne : target.steps ≠ [])
    (hdir : dir = target.parent?.getD (Path.ofText ".")) :
    d.trail (if dir.isEmpty then Path.ofText "." else dir) = (d.trail target).dropLast := by
  obtain ⟨q, hq⟩ := Path.exists_parent? (Path.names_ne_nil_of_steps hne)
  rw [hq, Option.getD_some] at hdir
  subst hdir
  rw [← trail_parent hne hq]
  split
  · next he => exact trail_congr (Path.isAbsolute_of_isEmpty he).symm (Path.names_of_isEmpty he).symm
  · rfl

theorem replace_steps {bytes : ByteArray} (hp : d.top.isPlain = true) (hn : target.Named)
    (hne : target.steps ≠ []) (ht : allow .touch (climb [] (d.trail target).dropLast).reverse)
    (hc : allow .create (d.place target)) (hr : d.Admits target → allow .rewrite (d.place target)) :
    Steps allow d (d.replace target bytes).2 := by
  have hl := Node.linkFree_of_isPlain hp
  simp only [replace]
  split
  · next above t es hfind =>
    obtain ⟨rfl, hat⟩ := find_ok hl hfind
    rw [place, trail_beside hne rfl] at hat ⊢
    generalize hd : d.update _ _ = touched
    have hs : Steps allow d touched := by
      rw [← hd]
      exact steps_update hp hat ht ⟨_, _, _, rfl, rfl⟩
    refine hs.trans ?_
    have hp' := hs.isPlain hp
    have hl' := Node.linkFree_of_isPlain hp'
    rw [← hs.place_eq] at hc hr
    have hr' : touched.Admits target → allow .rewrite (touched.place target) := by
      rw [Admits, hs.trail_eq]
      exact hr
    split
    · exact .refl _
    · next spot n hnd hloc =>
      obtain ⟨rfl, hat'⟩ := locate_there hl' hloc
      cases n with
      | file => exact steps_put_over hp' hat' (hr' (locate_admits hl' hloc))
      | link => exact absurd hat' (hl' _ _)
      | dir => exact absurd rfl (hnd _ _)
    · next dir name hloc =>
      obtain ⟨hpl, hv, -, -⟩ := locate_vacant hl' hloc
      split
      · exact .refl _
      · rw [← hpl] at hc
        exact .of_step (step_put_file hv (isName_of_vacant hl' hn hloc) hc)
    · exact .refl _
  · exact .refl _
  · exact .refl _

end Outfitter.Disk
