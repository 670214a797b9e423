import Mathlib.Data.List.Induction
import Outfitter.Proofs.Disk.Reach

/-! # Trees that grow

Directories that are made add to a tree and take nothing away, also where links lead through it. A
directory that was made holds nothing, so an entry that was there before is found by the same path
only if no directory had to be made. A file that is replaced takes one entry, and all others stay.
-/

namespace Outfitter

namespace Disk

variable {d d' d'' : Disk} {p q root : Path} {top n : Node} {place above here there xs rel : List String}
  {name : String} {used links : Nat} {follow : Bool} {bytes : ByteArray}

/-- Everything that is on a disk is on another too. -/
structure Grows (d d' : Disk) : Prop where
  cwd : d'.cwd = d.cwd
  shape : ∀ q s, d.top.shape? q = some s → d'.top.shape? q = some s

namespace Grows

theorem refl (d : Disk) : Grows d d := ⟨rfl, fun _ _ h => h⟩

theorem trans (h : Grows d d') (h' : Grows d' d'') : Grows d d'' :=
  ⟨h'.cwd.trans h.cwd, fun q s hq => h'.shape q s (h.shape q s hq)⟩

theorem follows (h : Grows d d') (hf : Follows d.top used here xs there)
    (hd : d.top.shape? there.reverse = some .dir) : Follows d'.top used here xs there :=
  hf.mono (fun q => h.shape q _) (fun q _ => h.shape q _) hd

theorem put (hv : d.top.at? (above ++ [name]) = none) (n : Node) : Grows d (d.put (above ++ [name]) n) := by
  refine ⟨rfl, fun q s hq => ?_⟩
  by_cases hpre : above ++ [name] <+: q
  · obtain ⟨rest, rfl⟩ := hpre
    rw [Node.shape?, Node.at?_append, hv] at hq
    cases hq
  · rw [← hq]
    exact Node.shape?_alter hpre

theorem reaches (h : Grows d d') (hr : Reaches d p place) : Reaches d' p place := by
  obtain ⟨used, hu, hf⟩ := hr.way
  refine ⟨⟨used, hu, ?_⟩, h.shape _ _ hr.dir⟩
  rw [trail_of_cwd h.cwd]
  exact h.follows hf (by rw [List.reverse_reverse]; exact hr.dir)

end Grows

theorem vacant_of_makeDir (h : d.makeDir p = .ok d') : ∃ above name, d.locate false p = .ok (.vacant above name) ∧
    d' = d.put (above ++ [name]) (.dir d.now []) := by
  unfold makeDir at h
  split at h
  · cases h
  · next above name hloc =>
    cases h
    exact ⟨above, name, hloc, rfl⟩
  · cases h

/-- A path that the system refuses is not reported as missing. -/
theorem makeDir_of_not_takes (ht : takes p = false) (he : p.isEmpty = false) :
    ∃ e, d.makeDir p = .error e ∧ e ≠ .notFound := by
  unfold makeDir locate
  rw [he, if_neg Bool.false_ne_true]
  by_cases hz : p.segments.any (·.toList.contains '\x00') = true
  · exact ⟨.zeroByte, by rw [if_pos hz], by decide⟩
  · by_cases hs : pathLimit < p.byteSize
    · exact ⟨.tooLong, by rw [if_neg hz, if_pos hs], by decide⟩
    · rw [Bool.not_eq_true] at hz
      rw [takes, he, hz] at ht
      simp at ht
      omega

theorem grows_makeDir (h : d.makeDir p = .ok d') : Grows d d' := by
  obtain ⟨above, name, hloc, rfl⟩ := vacant_of_makeDir h
  exact .put (locate_sound hloc).2 _

/-! ## Directories that hold nothing -/

/-- A path leads to a directory that holds nothing. -/
def Hollow (d : Disk) (p : Path) : Prop :=
  ∃ place, Reaches d p place ∧ ∀ name, d.top.at? (place ++ [name]) = none

theorem hollow_of_makeDir (hp : d.trail p = xs ++ [name]) (hname : name ≠ "..") (hne : p.steps ≠ [])
    (hi : p.endsIdle = false) (h : d.makeDir p = .ok d') : Hollow d' p := by
  have hgrows := grows_makeDir h
  obtain ⟨above, last, hloc, hd'⟩ := vacant_of_makeDir h
  obtain ⟨above', e, heq⟩ := entry_of_locate hp hname hne hi hloc
  obtain ⟨rfl, rfl⟩ : above = above' ∧ last = name := by simpa [Spot.place] using heq
  obtain ⟨t, es, hat⟩ := Node.shape?_eq_dir.mp e.dir
  have hnew (rest : List String) : d'.top.at? (above ++ last :: rest) = (Node.dir d.now []).at? rest := by
    rw [hd']
    exact Node.at?_alter_self hat
  obtain ⟨ys, used, hys, hu, hf⟩ := e.way
  have hat' : d'.top.at? (last :: above.reverse).reverse = some (.dir d.now []) := by
    rw [List.reverse_cons, List.reverse_reverse]
    exact hnew []
  refine ⟨above ++ [last], ⟨⟨used, hu, ?_⟩, Node.shape?_eq_dir.mpr ⟨d.now, [], hnew []⟩⟩, fun x => ?_⟩
  · rw [trail_of_cwd hgrows.cwd, hys, List.reverse_append, List.reverse_singleton, List.singleton_append]
    refine (hgrows.follows hf ?_).concat e.proper e.size hat' (by simp)
    rw [List.reverse_reverse]
    exact e.dir
  · rw [List.append_assoc]
    exact hnew [x]

/-- Nothing is found in a directory that holds nothing. -/
theorem Hollow.isDir (h : Hollow d q) (hp : d.trail p = d.trail q ++ [name]) (hname : name ≠ "..")
    (hne : p.steps ≠ []) (hi : p.endsIdle = false) : d.isDir p = false := by
  obtain ⟨place, hreach, hnone⟩ := h
  rw [Disk.isDir, find]
  rcases hreach.entry hp hname hne hi with e | he
  · rw [e.locate_vacant (hnone name)]
  · obtain ⟨err, herr⟩ := he true
    rw [herr]

/-! ## Files that are replaced -/

theorem Entry.exists_locate (e : Entry d p above name) : ∃ spot, d.locate false p = .ok spot := by
  cases hat : d.top.at? (above ++ [name]) with
  | none => exact ⟨_, e.locate_vacant hat⟩
  | some n =>
    cases n with
    | link => exact ⟨_, e.locate_link hat⟩
    | file => exact ⟨_, e.locate_there hat (by simp)⟩
    | dir => exact ⟨_, e.locate_there hat (by simp)⟩

/-- A file cannot be replaced, or it becomes an entry of the directory that its path leads to. -/
theorem replace_or_entry (hp : d.trail p = xs ++ [name]) (hname : name ≠ "..") (hne : p.steps ≠ [])
    (hi : p.endsIdle = false) (bytes : ByteArray) :
    (∃ e d', d.replace p bytes = (.error e, d') ∧ Grows d d') ∨
      ∃ above d', Entry d p above name ∧ d.replace p bytes = (.ok (), d') := by
  cases hfind : d.find (if (p.parent?.getD (Path.ofText ".")).isEmpty then Path.ofText "."
      else p.parent?.getD (Path.ofText ".")) with
  | error e => exact Or.inl ⟨e, d, by simp only [replace, hfind], .refl d⟩
  | ok found =>
    obtain ⟨place, n⟩ := found
    cases n with
    | file => exact Or.inl ⟨.notADirectory, d, by simp only [replace, hfind], .refl d⟩
    | link => exact Or.inl ⟨.notADirectory, d, by simp only [replace, hfind], .refl d⟩
    | dir t es =>
      obtain ⟨place', hreach⟩ := reaches_of_isDir (by rw [isDir, hfind]; rfl)
      have htrail := trail_beside (d := d) hne rfl
      rw [hp, List.dropLast_concat] at htrail
      rcases hreach.entry (by rw [htrail, hp]) hname hne hi with e | herr
      · obtain ⟨d₁, ⟨hcwd, hshape⟩, ⟨-, heq⟩ | ⟨-, heq⟩⟩ := e.replace bytes
        · exact Or.inl ⟨_, d₁, heq, hcwd, fun q s hq => by rw [hshape, hq]⟩
        · exact Or.inr ⟨_, _, e, heq⟩
      · refine Or.inl ?_
        simp only [replace, hfind]
        generalize htouch : d.update place _ = touched
        have hcwd : touched.cwd = d.cwd := by rw [← htouch]; rfl
        have hshape : ∀ q, touched.top.shape? q = d.top.shape? q := by
          rw [← htouch]
          exact shape?_touch (locate_sound (find_ok_iff.mp hfind)) ⟨d.now, rfl⟩
        cases hloc : touched.locate false p with
        | error e => exact ⟨e, touched, rfl, hcwd, fun q s hq => by rw [hshape, hq]⟩
        | ok spot =>
          -- the touched directory has the same entries
          obtain ⟨above, e, -⟩ := entry_of_locate (by rw [trail_of_cwd hcwd, hp]) hname hne hi hloc
          obtain ⟨spot', hspot⟩ := (e.agrees ⟨hcwd.symm, fun q => by rw [hshape], fun q _ => by rw [hshape]⟩).exists_locate
          obtain ⟨err, herr⟩ := herr false
          rw [hspot] at herr
          cases herr

/-- A file that was replaced is found where it was put, if it is found. -/
theorem Entry.place_of_replaced (e : Entry d p above name) (h : d.replace p bytes = (.ok (), d'))
    (hf : d'.find p = .ok (place, n)) : place = above ++ [name] := by
  obtain ⟨hnot, hdiffers, hfile⟩ := e.replaced h
  obtain ⟨xs, used, hxs, -, hway⟩ := e.way
  have hfind := find_ok_iff.mp hf
  rw [locate_eq_settle e.takes, trail_of_cwd hdiffers.cwd, hxs] at hfind
  obtain ⟨used', there, m, -, hway', hm, hlast⟩ := trace_append (Node.at?_nil _) (settle_ok hfind).1 (by simp)
  obtain ⟨t, es, rfl, ⟨hup, -⟩ | ⟨-, -, hcases⟩⟩ := trace_cons_ok hlast
  · exact absurd hup e.proper
  -- a new file is no directory and no link, so the way was there before
  have hback {q : List String} {s : Shape} (hs : d'.top.shape? q = some s) (hnew : s ≠ .file bytes defaultMode d.now) :
      d.top.shape? q = some s := by
    by_cases hq : q = above ++ [name]
    · rw [hq, Node.shape?_eq_file.mpr hfile] at hs
      exact absurd (Option.some.inj hs).symm hnew
    · rw [← hdiffers.elsewhere q hq, hs]
  have hthere : there = above.reverse :=
    (hway'.mono (fun q hq => hback hq (by simp)) (fun q target hq => hback hq (by simp))
      (Node.shape?_eq_dir.mpr ⟨t, es, hm⟩)).unique hway
  subst hthere
  rw [List.reverse_reverse] at hm
  rw [Node.at?_child hm] at hfile
  rcases hcases with ⟨k, hk, -, hstay⟩ | ⟨target, left, hk, -⟩ | ⟨target, hk, -⟩ | ⟨hk, -⟩
  · rw [trace_nil, List.reverse_cons, List.reverse_reverse] at hstay
    cases hstay
    rfl
  all_goals
    rw [hfile] at hk
    cases hk

/-! ## Ways that are cut -/

/-- A way through a tree is one in a later tree, if at most links on it gave way to files; if one
did, nothing is found by going on from there, also in a tree that grew further. -/
theorem Follows.or_blocked {a a' : Node}
    (hdir : ∀ q, top.shape? q = some .dir → a.shape? q = some .dir)
    (hlink : ∀ q target, top.shape? q = some (.link target) →
      a.shape? q = some (.link target) ∨ ∃ c m t, a.shape? q = some (.file c m t))
    (hgrows : ∀ q s, a.shape? q = some s → a'.shape? q = some s)
    (h : Follows top used here xs there) (hd : top.shape? there.reverse = some .dir) :
    Follows a used here xs there ∨
      ∀ follow links n ys spot, ys ≠ [] → a'.at? here.reverse = some n →
        trace a' follow links here n (xs ++ ys) ≠ .ok spot := by
  induction h with
  | stay => exact Or.inl (.stay _)
  | @up _ here rest there hup _ ih =>
    refine (ih hd).imp (.up (hdir _ hup)) fun hblock follow links n ys spot hy hn hok => ?_
    obtain ⟨t, es, -, ⟨-, m, hm, hok⟩ | ⟨hname, -⟩⟩ := trace_cons_ok hok
    · exact hblock follow links m ys spot hy hm hok
    · exact hname rfl
  | @down _ name here rest there n hname hsize hn hl h ih =>
    have hstart := hdir _ (h.start hd)
    obtain ⟨t, es, hat⟩ := Node.shape?_eq_dir.mp hstart
    obtain ⟨t', es', hat'⟩ := Node.shape?_eq_dir.mp (hgrows _ _ hstart)
    refine (ih hd).imp (.down hname hsize hat (by simp)) fun hblock follow links n ys spot hy hn hok => ?_
    obtain ⟨t, es, rfl, ⟨hup, -⟩ | ⟨-, -, hcases⟩⟩ := trace_cons_ok hok
    · exact hname hup
    rw [at?_child_reverse hn] at hat'
    rcases hcases with ⟨m, hm, -, hok⟩ | ⟨target, left, hm, -⟩ | ⟨target, hm, -⟩ | ⟨hm, -⟩
    · exact hblock follow links m ys spot hy (by rw [at?_child_reverse hn, hm]) hok
    all_goals
      rw [hm] at hat'
      cases hat'
  | @link _ name here rest there target hname hsize hn _ ih =>
    rcases hlink _ target (Node.shape?_eq_link.mpr hn) with hstay | ⟨c, m, t, hfile⟩
    · have hat' := Node.shape?_eq_link.mp (hgrows _ _ hstay)
      refine (ih hd).imp (.link hname hsize (Node.shape?_eq_link.mp hstay)) fun hblock follow links n ys spot hy hn hok => ?_
      rw [List.cons_append] at hok
      obtain ⟨t, es, rfl, ⟨hup, -⟩ | ⟨-, -, hcases⟩⟩ := trace_cons_ok hok
      · exact hname hup
      rw [at?_child_reverse hn] at hat'
      rcases hcases with ⟨m, hm, hl, -⟩ | ⟨target', left, hm, -, -, hok⟩ | ⟨-, -, hrest, -⟩ | ⟨hm, -⟩
      · rw [hm] at hat'
        exact hl target (Option.some.inj hat')
      · rw [hm] at hat'
        cases hat'
        rw [← List.append_assoc] at hok
        exact hblock follow left _ ys spot hy (at?_onward hn target) hok
      · exact hy (List.append_eq_nil_iff.mp hrest).2
      · rw [hm] at hat'
        cases hat'
    · -- nothing is below a file
      have hat' := Node.shape?_eq_file.mp (hgrows _ _ hfile)
      refine Or.inr fun follow links n ys spot hy hn hok => ?_
      rw [List.cons_append] at hok
      obtain ⟨t, es, rfl, ⟨hup, -⟩ | ⟨-, -, hcases⟩⟩ := trace_cons_ok hok
      · exact hname hup
      rw [at?_child_reverse hn] at hat'
      obtain ⟨x, more, hmore⟩ : ∃ x more, rest ++ ys = x :: more := List.exists_cons_of_ne_nil (by simp [hy])
      rcases hcases with ⟨k, hk, -, hok⟩ | ⟨target', left, hk, -⟩ | ⟨target', hk, -⟩ | ⟨hk, -⟩
      · rw [hk] at hat'
        cases hat'
        rw [hmore] at hok
        obtain ⟨t, es, hdir, -⟩ := trace_cons_ok hok
        cases hdir
      all_goals
        rw [hk] at hat'
        cases hat'

end Disk

/-! ## Directories that are made -/

namespace Files

open Action Disk

variable {d d' : Disk} {p q root : Path} {place above rel : List String} {name : String} {fuel : Nat}

theorem keeps_grows_makeDirs {d₀ : Disk} (p : Path) : Keeps (Grows d₀) (makeDirs p) :=
  keeps_makeDirsFrom fun _ _ => Keeps.change fun _ _ h hmake => h.trans (grows_makeDir hmake)

theorem grows_makeParents (d : Disk) (p : Path) : Grows d ((makeParents p).on d).2 := by
  unfold makeParents
  split
  · exact keeps_grows_makeDirs _ d (.refl d)
  · exact .refl d

/-- Where a path leads to a directory nothing is made. -/
theorem makeDirsFrom_of_reaches (h : Reaches d p place)
    (hrun : (makeDirsFrom (p.ancestorsUpTo fuel)).on d = (.ok (), d')) : d' = d := by
  obtain ⟨around, heq⟩ := ancestorsUpTo_cons fuel p
  rw [heq, makeDirsFrom] at hrun
  split at hrun
  · cases hrun
    rfl
  · next hbare =>
    have hempty : p.isEmpty = false := by
      rw [Bool.eq_false_iff]
      intro hempty
      obtain ⟨hb, hs⟩ := Path.isBare_of_isEmpty hempty
      exact hbare (by simp [hb, hs])
    obtain ⟨e, hmake, he⟩ : ∃ e, d.makeDir p = .error e ∧ e ≠ .notFound := by
      by_cases ht : takes p = true
      · exact h.makeDir ht
      · exact makeDir_of_not_takes (Bool.eq_false_iff.mpr ht) hempty
    rw [on_bind_attempt, on_change_error hmake] at hrun
    split at hrun
    · next h => cases h
    · next h => cases h; exact absurd rfl he
    · rw [on_bind_ask] at hrun
      split at hrun
      · cases hrun
        rfl
      · cases hrun

/-- Below a directory that is reached nothing has to be made, or what is made holds nothing. -/
theorem makeDirsFrom_cases (hroot : Reaches d root place) (hn : ∀ s ∈ rel, isName s = true) (hr : rel ≠ [])
    (h : (makeDirsFrom ((root.join ⟨rel⟩).ancestorsUpTo fuel)).on d = (.ok (), d')) :
    d' = d ∨ Hollow d' (root.join ⟨rel⟩) := by
  induction rel using List.reverseRecOn generalizing fuel d' with
  | nil => exact absurd rfl hr
  | append_singleton rel name ih =>
    have hne : (root.join ⟨rel ++ [name]⟩).steps ≠ [] := steps_join_ne_nil hn hr
    have hi : (root.join ⟨rel ++ [name]⟩).endsIdle = false := Path.endsIdle_join hr hn
    have hname : name ≠ ".." := (isName_iff.mp (hn name (by simp))).2.2.1
    have htrail (d : Disk) : d.trail (root.join ⟨rel ++ [name]⟩) = (d.trail root ++ rel) ++ [name] := by
      rw [trail_join hn hr, List.append_assoc]
    obtain ⟨q, hq⟩ := Path.exists_parent? (Path.names_ne_nil_of_steps hne)
    have hqtrail (d : Disk) : d.trail q = d.trail root ++ rel := by
      rw [trail_parent hne hq, htrail, List.dropLast_concat]
    -- what is made around it, if anything has to be
    obtain ⟨around, heq, haround⟩ : ∃ around, (root.join ⟨rel ++ [name]⟩).ancestorsUpTo fuel =
        root.join ⟨rel ++ [name]⟩ :: around ∧
          ∀ d₁, (makeDirsFrom around).on d = (.ok (), d₁) → d₁ = d ∨ Hollow d₁ q := by
      cases fuel with
      | zero => exact ⟨[], rfl, fun d₁ hmade => by cases hmade⟩
      | succ fuel =>
        refine ⟨q.ancestorsUpTo fuel, by rw [Path.ancestorsUpTo, hq], fun d₁ hmade => ?_⟩
        by_cases hrel : rel = []
        · subst hrel
          exact Or.inl (makeDirsFrom_of_reaches (hroot.of_trail (by rw [hqtrail, List.append_nil])) hmade)
        · rw [Path.parent?_join hrel hn] at hq
          cases hq
          exact ih (fun s hs => hn s (List.mem_append_left _ hs)) hrel hmade
    have hbare : (root.join ⟨rel ++ [name]⟩).isBare = false :=
      Bool.eq_false_iff.mpr fun hb => hne (Path.steps_of_isBare hb)
    rw [heq, makeDirsFrom, hbare, Bool.false_and, if_neg Bool.false_ne_true, on_bind_attempt] at h
    cases hmake : d.makeDir (root.join ⟨rel ++ [name]⟩) with
    | ok d₁ =>
      rw [on_change_ok hmake] at h
      cases h
      exact Or.inr (hollow_of_makeDir (htrail d) hname hne hi hmake)
    | error e =>
      rw [on_change_error hmake] at h
      split at h
      · next hok => cases hok
      · obtain ⟨_, d₁, hmade, hlast⟩ := of_on_bind_ok h
        have hd₁ := haround d₁ hmade
        rw [makeLast, on_bind_attempt] at hlast
        cases hmake₁ : d₁.makeDir (root.join ⟨rel ++ [name]⟩) with
        | ok d₂ =>
          rw [on_change_ok hmake₁] at hlast
          cases hlast
          exact Or.inr (hollow_of_makeDir (htrail d₁) hname hne hi hmake₁)
        | error e₁ =>
          rw [on_change_error hmake₁, on_bind_ask] at hlast
          split at hlast
          · next hdir =>
            cases hlast
            refine hd₁.imp_right fun hollow => ?_
            rw [hollow.isDir (by rw [htrail, hqtrail]) hname hne hi] at hdir
            cases hdir
          · cases hlast
      · rw [on_bind_ask] at h
        split at h
        · cases h
          exact Or.inl rfl
        · cases h

/-- What is found, once its directories are made, where something was before is found without making
any. -/
theorem makeParents_of_found (hroot : Reaches d root place) (hn : ∀ s ∈ rel, isName s = true) (hr : rel ≠ [])
    (h : (makeParents (root.join ⟨rel⟩)).on d = (.ok (), d')) (e : Entry d' (root.join ⟨rel⟩) above name)
    (hat : d'.top.at? (above ++ [name]) ≠ none) : d' = d := by
  have hne : (root.join ⟨rel⟩).steps ≠ [] := steps_join_ne_nil hn hr
  obtain ⟨q, hq⟩ := Path.exists_parent? (Path.names_ne_nil_of_steps hne)
  rw [makeParents, hq] at h
  obtain ⟨dirs, last, rfl⟩ : ∃ dirs last, rel = dirs ++ [last] := ⟨_, _, (List.dropLast_append_getLast hr).symm⟩
  by_cases hdirs : dirs = []
  · refine makeDirsFrom_of_reaches (hroot.of_trail ?_) h
    rw [trail_parent hne hq, trail_join hn hr, hdirs, List.nil_append, List.dropLast_concat]
  · rw [Path.parent?_join hdirs hn] at hq
    cases hq
    refine (makeDirsFrom_cases hroot (fun s hs => hn s (List.mem_append_left _ hs)) hdirs h).resolve_right ?_
    rintro ⟨place', hreach, hnone⟩
    have hplace : above = place' := hreach.unique (e.reaches (trail_parent hne (Path.parent?_join hdirs hn))) rfl
    exact hat (hplace ▸ hnone name)

end Files

end Outfitter
