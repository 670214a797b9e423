import Outfitter.Files
import Outfitter.Proofs.Directories
import Outfitter.Proofs.Disk.Entry

/-! # Directories that paths reach

On a tree with links a path reaches a directory if the names on its way lead there. Such a
directory is not made again, entries are looked up in it, and a file that is replaced is put into
it as an entry.
-/

namespace Outfitter

namespace Disk

/-- A path leads to the directory at a place, through whatever links. -/
structure Reaches (d : Disk) (p : Path) (place : List String) : Prop where
  way : ∃ used, used ≤ linkLimit ∧ Follows d.top used [] (d.trail p) place.reverse
  dir : d.top.shape? place = some .dir

variable {d d' : Disk} {p q : Path} {top n m : Node} {place above here there xs : List String} {name : String}
  {used links : Nat} {follow : Bool} {spot : Spot} {bytes : ByteArray} {t : Stamp} {es : Entries}

/-- Names that lead somewhere do so also if a link at their end is not followed. -/
theorem Follows.trace_false (h : Follows top used here xs there) (hn : top.at? here.reverse = some n)
    (hu : used ≤ links) : ∃ place m, trace top false links here n xs = .ok (.there place m) := by
  induction h generalizing n links with
  | stay => exact ⟨_, _, trace_nil ..⟩
  | @up _ here rest there hd _ ih =>
    obtain ⟨t, es, hat⟩ := Node.shape?_eq_dir.mp hd
    cases Option.some.inj (hat.symm.trans hn)
    obtain ⟨t', es', hup⟩ := Node.shape?_eq_dir.mp (shape?_tail hd)
    rw [trace_up hup]
    exact ih hup hu
  | @down _ name here rest there m hname hsize hm hl _ ih =>
    obtain ⟨t, es, hat⟩ := Node.shape?_eq_dir.mp (Node.dir_above (List.reverse_cons ▸ hm))
    cases Option.some.inj (hat.symm.trans hn)
    rw [trace_down hname hsize ((at?_child_reverse hn name).symm.trans hm) hl]
    exact ih hm hu
  | @link used name here rest there target hname hsize hm _ ih =>
    obtain ⟨t, es, hat⟩ := Node.shape?_eq_dir.mp (Node.dir_above (List.reverse_cons ▸ hm))
    cases Option.some.inj (hat.symm.trans hn)
    have hlookup := (at?_child_reverse hn name).symm.trans hm
    cases rest with
    | nil => exact ⟨_, _, trace_stay hname hsize hlookup⟩
    | cons a rest =>
      obtain ⟨left, rfl⟩ : ∃ left, links = left + 1 := ⟨links - 1, by omega⟩
      rw [trace_link hname hsize hlookup (Or.inl (List.cons_ne_nil a rest))]
      exact ih (at?_onward hn target) (Nat.le_of_succ_le_succ hu)

theorem reaches_of_isDir (h : d.isDir p = true) : ∃ place, Reaches d p place := by
  obtain ⟨used, there, hu, hf, hd⟩ := follows_of_isDir h
  exact ⟨there.reverse, ⟨used, hu, by rwa [List.reverse_reverse]⟩, hd⟩

theorem Entry.reaches (e : Entry d p above name) (hq : d.trail q = (d.trail p).dropLast) : Reaches d q above := by
  obtain ⟨xs, used, htrail, hu, hf⟩ := e.way
  rw [htrail, List.dropLast_concat] at hq
  exact ⟨⟨used, hu, hq ▸ hf⟩, e.dir⟩

/-- A last name is looked up in the directory that the others lead to. -/
theorem entry_of_locate (hp : d.trail p = xs ++ [name]) (hname : name ≠ "..") (hne : p.steps ≠ [])
    (hi : p.endsIdle = false) (h : d.locate false p = .ok spot) :
    ∃ above, Entry d p above name ∧ spot.place = above ++ [name] := by
  obtain ⟨used, there, t, es, hu, hf, hat, hsize, hend⟩ := locate_concat hp hname hi h
  refine ⟨there.reverse, ⟨⟨xs, used, hp, hu, by rwa [List.reverse_reverse]⟩, Node.shape?_eq_dir.mpr ⟨t, es, hat⟩,
    hname, hsize, takes_of_locate h, hi, hne⟩, ?_⟩
  rcases hend with ⟨n, rfl⟩ | rfl <;> rfl

/-- Names that lead somewhere, and one more. -/
theorem Follows.concat (h : Follows top used here xs there) (hname : name ≠ "..")
    (hsize : name.utf8ByteSize ≤ nameLimit) (hn : top.at? (name :: there).reverse = some n)
    (hl : ∀ target, n ≠ .link target) : Follows top used here (xs ++ [name]) (name :: there) := by
  induction h with
  | stay => exact .down hname hsize hn hl (.stay _)
  | up hd _ ih => exact .up hd (ih hn)
  | down hname' hsize' hn' hl' _ ih => exact .down hname' hsize' hn' hl' (ih hn)
  | @link _ _ _ _ _ target hname' hsize' hn' _ ih =>
    exact .link hname' hsize' hn' (List.append_assoc .. ▸ ih hn)

namespace Reaches

theorem unique {place' : List String} (h : Reaches d p place) (h' : Reaches d q place')
    (hq : d.trail q = d.trail p) : place' = place := by
  obtain ⟨_, -, hf⟩ := h.way
  obtain ⟨_, -, hf'⟩ := h'.way
  rw [hq] at hf'
  exact List.reverse_injective (hf'.unique hf)

theorem of_trail (h : Reaches d p place) (hq : d.trail q = d.trail p) : Reaches d q place :=
  ⟨by rw [hq]; exact h.way, h.dir⟩

/-- A name in a directory that is reached is an entry, unless the system refuses it. -/
theorem entry (h : Reaches d q place) (hp : d.trail p = d.trail q ++ [name]) (hname : name ≠ "..")
    (hne : p.steps ≠ []) (hi : p.endsIdle = false) :
    Entry d p place name ∨ ∀ follow, ∃ e, d.locate follow p = .error e := by
  obtain ⟨used, hu, hf⟩ := h.way
  by_cases ht : takes p = true
  · by_cases hsize : name.utf8ByteSize ≤ nameLimit
    · exact Or.inl ⟨⟨_, used, hp, hu, hf⟩, h.dir, hname, hsize, ht, hi, hne⟩
    · refine Or.inr fun follow => ⟨.tooLong, ?_⟩
      obtain ⟨t, es, hat⟩ := Node.shape?_eq_dir.mp h.dir
      obtain ⟨m, hm, htrace⟩ := hf.trace_append (Node.at?_nil _) hu [name] (Or.inl (by simp) : _ ∨ follow = true)
      rw [List.reverse_reverse, hat] at hm
      cases hm
      rw [locate_eq_settle ht, hi, Bool.or_false, hp, htrace, trace_tooLong hname (Nat.lt_of_not_le hsize)]
      rfl
  · obtain ⟨e, he⟩ := locate_of_not_takes (Bool.eq_false_iff.mpr ht)
    exact Or.inr fun follow => ⟨e, he d follow⟩

theorem entry_join {root : Path} (h : Reaches d root place) (hname : isName name = true)
    (hsize : name.utf8ByteSize ≤ nameLimit) (ht : takes (root.join ⟨[name]⟩) = true) :
    Entry d (root.join ⟨[name]⟩) place name := by
  have hn : ∀ s ∈ [name], isName s = true := List.forall_mem_singleton.mpr hname
  have hne : [name] ≠ [] := List.cons_ne_nil _ _
  obtain ⟨used, hu, hf⟩ := h.way
  exact
    { way := ⟨d.trail root, used, trail_join hn hne, hu, hf⟩
      dir := h.dir
      proper := (isName_iff.mp hname).2.2.1
      size := hsize
      takes := ht
      ends := Path.endsIdle_join hne hn
      steps := steps_join_ne_nil hn hne }

theorem locate (h : Reaches d p place) (ht : takes p = true) :
    ∃ t es, d.locate true p = .ok (.there place (.dir t es)) := by
  obtain ⟨used, hu, hf⟩ := h.way
  obtain ⟨t, es, hat⟩ := Node.shape?_eq_dir.mp h.dir
  obtain ⟨m, hm, htrace⟩ := hf.trace_append (Node.at?_nil _) hu [] (Or.inr rfl : _ ∨ true = true)
  rw [List.reverse_reverse, hat] at hm
  cases hm
  rw [List.append_nil, trace_nil, List.reverse_reverse] at htrace
  refine ⟨t, es, ?_⟩
  rw [locate_eq_settle ht, Bool.true_or, htrace, settle_dir]

theorem find (h : Reaches d p place) (ht : takes p = true) : ∃ t es, d.find p = .ok (place, .dir t es) := by
  obtain ⟨t, es, hlocate⟩ := h.locate ht
  exact ⟨t, es, find_ok_iff.mpr hlocate⟩

theorem isDir (h : Reaches d p place) (ht : takes p = true) : d.isDir p = true := by
  obtain ⟨t, es, hfind⟩ := h.find ht
  rw [Disk.isDir, hfind]
  rfl

/-- The directory cannot be made, since something is there. -/
theorem makeDir (h : Reaches d p place) (ht : takes p = true) :
    ∃ e, d.makeDir p = .error e ∧ e ≠ .notFound := by
  obtain ⟨used, hu, hf⟩ := h.way
  obtain ⟨q, m, htrace⟩ : ∃ q m, trace d.top (false || p.endsIdle) linkLimit [] d.top (d.trail p) =
      .ok (.there q m) := by
    cases p.endsIdle with
    | false => exact hf.trace_false (Node.at?_nil _) hu
    | true =>
      obtain ⟨m, -, htrace⟩ := hf.trace_append (Node.at?_nil _) hu [] (Or.inr rfl : _ ∨ true = true)
      rw [List.append_nil, trace_nil] at htrace
      exact ⟨_, _, htrace⟩
  rw [Disk.makeDir, locate_eq_settle ht, htrace, settle]
  split
  · next heq => split at heq <;> cases heq; exact ⟨_, rfl, by decide⟩
  · next heq => split at heq <;> cases heq
  · next heq => split at heq <;> cases heq; exact ⟨_, rfl, by decide⟩

end Reaches

/-! ## Entries that are replaced -/

namespace Entry

/-- The directory that an entry is looked up in, by the path that `replace` takes. -/
theorem find_beside {dir : Path} (e : Entry d p above name) (hdir : dir = p.parent?.getD (Path.ofText ".")) :
    ∃ t es, d.find (if dir.isEmpty then Path.ofText "." else dir) = .ok (above, .dir t es) := by
  refine (e.reaches (trail_beside e.steps hdir)).find ?_
  split
  · decide
  · next hempty =>
    obtain ⟨q, hq⟩ := Path.exists_parent? (Path.names_ne_nil_of_steps e.steps)
    rw [hq, Option.getD_some] at hdir
    exact Files.takes_parent e.takes (hdir ▸ hq) (by simpa using hempty)

/-- An entry is replaced by a file unless it is a directory; only the directory's time changes besides. -/
theorem replace (e : Entry d p above name) (bytes : ByteArray) :
    ∃ d₁, (d₁.cwd = d.cwd ∧ ∀ q, d₁.top.shape? q = d.top.shape? q) ∧
      (d.top.shape? (above ++ [name]) = some .dir ∧ d.replace p bytes = (.error .isADirectory, d₁) ∨
        d.top.shape? (above ++ [name]) ≠ some .dir ∧
          d.replace p bytes = (.ok (), d₁.put (above ++ [name]) (.file bytes defaultMode d.now))) := by
  obtain ⟨t, es, hfind⟩ := e.find_beside rfl
  have hdir : d.top.at? above = some (.dir t es) := locate_sound (find_ok_iff.mp hfind)
  simp only [Disk.replace, hfind]
  generalize htouch : d.update above _ = d₁
  have hcwd : d₁.cwd = d.cwd := by rw [← htouch]; rfl
  have hshape : ∀ q, d₁.top.shape? q = d.top.shape? q := by
    rw [← htouch]
    exact shape?_touch hdir ⟨d.now, rfl⟩
  have e₁ : Entry d₁ p above name :=
    e.agrees ⟨hcwd, fun q => by rw [hshape q], fun q target => by rw [hshape q]⟩
  refine ⟨d₁, ⟨hcwd, hshape⟩, ?_⟩
  rw [← hshape]
  cases hat : d₁.top.at? (above ++ [name]) with
  | none => exact Or.inr ⟨by simp [Node.shape?, hat], by simp [e₁.locate_vacant hat, e.ends]⟩
  | some n =>
    cases n with
    | file => exact Or.inr ⟨by simp [Node.shape?, hat, Node.shape], by rw [e₁.locate_there hat (by simp)]⟩
    | link => exact Or.inr ⟨by simp [Node.shape?, hat, Node.shape], by rw [e₁.locate_link hat]⟩
    | dir => exact Or.inl ⟨by simp [Node.shape?, hat, Node.shape], by rw [e₁.locate_there hat (by simp)]⟩

/-- A file that takes the place of an entry. -/
theorem replaced (e : Entry d p above name) (h : d.replace p bytes = (.ok (), d')) :
    d.top.shape? (above ++ [name]) ≠ some .dir ∧ Differs (above ++ [name]) d d' ∧
      d'.top.at? (above ++ [name]) = some (.file bytes defaultMode d.now) := by
  obtain ⟨d₁, ⟨hcwd, hshape⟩, ⟨-, heq⟩ | ⟨hnot, heq⟩⟩ := e.replace bytes
  · rw [heq] at h
    cases h
  · rw [heq] at h
    cases h
    obtain ⟨hput, hat⟩ := differs_put (d := d₁) (by rw [hshape]; exact e.dir) (by rwa [hshape])
      (by simp [Node.shape] : (Node.file bytes defaultMode d.now).shape ≠ .dir)
    exact ⟨hnot, ⟨hput.cwd.trans hcwd, fun q hq => (hput.elsewhere q hq).trans (hshape q)⟩, hat⟩

end Entry

end Disk

/-! ## Directories that are not made again -/

namespace Files

open Action Disk

variable {d : Disk} {p q : Path} {place above : List String} {name : String}

theorem makeDirs_of_reaches (h : Reaches d p place) (ht : takes p = true) : (makeDirs p).on d = (.ok (), d) := by
  obtain ⟨around, heq⟩ := ancestorsUpTo_cons p.segments.length p
  obtain ⟨e, hmake, he⟩ := h.makeDir ht
  rw [makeDirs, Path.ancestors, heq, makeDirsFrom]
  split
  · rfl
  · rw [on_bind_attempt, on_change_error hmake]
    split
    · next h => cases h
    · next h => cases h; exact absurd rfl he
    · rw [on_bind_ask, if_pos (h.isDir ht)]
      rfl

theorem makeParents_of_entry (e : Entry d p above name) : (makeParents p).on d = (.ok (), d) := by
  obtain ⟨q, hq⟩ := Path.exists_parent? (Path.names_ne_nil_of_steps e.steps)
  rw [makeParents, hq]
  by_cases hempty : q.isEmpty = true
  · obtain ⟨around, heq⟩ := ancestorsUpTo_cons q.segments.length q
    obtain ⟨hbare, hsize⟩ := Path.isBare_of_isEmpty hempty
    simp only [makeDirs, Path.ancestors, heq, makeDirsFrom, hbare, hsize, Nat.zero_le, decide_true, Bool.and_self,
      if_true, on_pure]
  · exact makeDirs_of_reaches (e.reaches (trail_parent e.steps hq))
      (takes_parent e.takes hq (Bool.eq_false_iff.mpr hempty))

end Files

end Outfitter
