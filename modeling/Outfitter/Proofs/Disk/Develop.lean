import Outfitter.Proofs.Disk.Growth
import Outfitter.Proofs.Tree.Proper

/-! # Trees that develop

Where nothing is removed, directories and links stay as they are and a file stays a file, whatever
becomes of its content. A path that leads somewhere goes on leading there. Directories that are made
are all that is new; a copy changes one more place, and the file that is there has what was copied
unless it was copied onto itself.
-/

namespace Outfitter

namespace Disk

variable {d d' d'' : Disk} {p q source target : Path} {top n : Node} {place above here there xs rel : List String}
  {name : String} {used links : Nat} {follow : Bool} {c : ByteArray} {mode : Nat} {t : Stamp}

/-- Directories and links stay, and files stay files. -/
structure Develops (d d' : Disk) : Prop where
  cwd : d'.cwd = d.cwd
  dir : ∀ q, d.top.shape? q = some .dir → d'.top.shape? q = some .dir
  link : ∀ q target, d.top.shape? q = some (.link target) → d'.top.shape? q = some (.link target)
  file : ∀ q, (∃ c m t, d.top.at? q = some (.file c m t)) → ∃ c m t, d'.top.at? q = some (.file c m t)

/-- Nothing is new but directories, and nothing else changes. -/
structure Widens (d d' : Disk) : Prop where
  cwd : d'.cwd = d.cwd
  shape : ∀ q, d'.top.shape? q = d.top.shape? q ∨ d.top.shape? q = none ∧ d'.top.shape? q = some .dir

namespace Develops

theorem refl (d : Disk) : Develops d d := ⟨rfl, fun _ h => h, fun _ _ h => h, fun _ h => h⟩

theorem trans (h : Develops d d') (h' : Develops d' d'') : Develops d d'' where
  cwd := h'.cwd.trans h.cwd
  dir := fun q hq => h'.dir q (h.dir q hq)
  link := fun q target hq => h'.link q target (h.link q target hq)
  file := fun q hq => h'.file q (h.file q hq)

theorem of_differs (h : Differs place d d') (hold : Shape.Loose (d.top.shape? place))
    (hnew : d'.top.at? place = some (.file c mode t)) : Develops d d' where
  cwd := h.cwd
  dir := by
    intro q hq
    rw [h.elsewhere q, hq]
    rintro rfl
    exact hold.1 hq
  link := by
    intro q target hq
    rw [h.elsewhere q, hq]
    rintro rfl
    exact hold.2 target hq
  file := by
    rintro q ⟨c', m', t', hq⟩
    by_cases hplace : q = place
    · subst hplace
      exact ⟨c, mode, t, hnew⟩
    · refine ⟨c', m', t', ?_⟩
      rw [← Node.shape?_eq_file, h.elsewhere q hplace, Node.shape?_eq_file, hq]

/-- What is somewhere stays there, with another content at most. -/
theorem node (h : Develops d d') (hn : d.top.at? place = some n) :
    ∃ n', d'.top.at? place = some n' ∧ n'.isDir = n.isDir ∧ n'.isFile = n.isFile ∧
      ∀ target, n' = .link target ↔ n = .link target := by
  cases n with
  | file c m t =>
    obtain ⟨c', m', t', h'⟩ := h.file place ⟨c, m, t, hn⟩
    exact ⟨_, h', rfl, rfl, by simp⟩
  | dir t es =>
    obtain ⟨t', es', h'⟩ := Node.shape?_eq_dir.mp (h.dir place (Node.shape?_eq_dir.mpr ⟨t, es, hn⟩))
    exact ⟨_, h', rfl, rfl, by simp⟩
  | link target =>
    have h' := Node.shape?_eq_link.mp (h.link place target (Node.shape?_eq_link.mpr hn))
    exact ⟨_, h', rfl, rfl, fun _ => Iff.rfl⟩

theorem follows (h : Develops d d') (hf : Follows d.top used here xs there) : Follows d'.top used here xs there := by
  induction hf with
  | stay here => exact .stay here
  | up hd _ ih => exact .up (h.dir _ hd) ih
  | down hname hsize hn hl _ ih =>
    obtain ⟨n', hn', -, -, hlink⟩ := h.node hn
    exact .down hname hsize hn' (fun target ht => hl target ((hlink target).mp ht)) ih
  | link hname hsize hn _ ih => exact .link hname hsize (Node.shape?_eq_link.mp (h.link _ _ (Node.shape?_eq_link.mpr hn))) ih

theorem reaches (h : Develops d d') (hr : Reaches d p place) : Reaches d' p place := by
  obtain ⟨used, hu, hf⟩ := hr.way
  exact ⟨⟨used, hu, trail_of_cwd h.cwd p ▸ h.follows hf⟩, h.dir _ hr.dir⟩

end Develops

/-! ## Where paths lead -/

theorem follows_of_find (h : d.find p = .ok (place, n)) :
    ∃ used, used ≤ linkLimit ∧ Follows d.top used [] (d.trail p) place.reverse := by
  have hloc := find_ok_iff.mp h
  rw [locate_eq_settle (takes_of_locate hloc), ← List.append_nil (d.trail p)] at hloc
  obtain ⟨used, there, m, hu, hf, -, hrest⟩ :=
    trace_append (Node.at?_nil _) (settle_ok hloc).1 fun _ => ⟨rfl, place, n, rfl⟩
  rw [trace_nil] at hrest
  cases hrest
  rw [List.reverse_reverse]
  exact ⟨used, hu, hf⟩

theorem find_of_follows (hu : used ≤ linkLimit) (hf : Follows d.top used [] (d.trail p) place.reverse)
    (hn : d.top.at? place = some n) (ht : takes p = true)
    (hs : (p.endsIdle || p.steps.isEmpty) = true → n.isDir = true) : d.find p = .ok (place, n) := by
  rw [find_ok_iff, locate_eq_settle ht, ← List.append_nil (d.trail p)]
  obtain ⟨m, hm, htrace⟩ := hf.trace_append (Node.at?_nil d.top) hu [] (Or.inr rfl : _ ∨ true = true)
  rw [List.reverse_reverse, hn, Option.some.injEq] at hm
  rw [Bool.true_or, htrace, trace_nil, List.reverse_reverse, ← hm, settle, if_neg]
  intro hbad
  rw [Bool.and_eq_true, Bool.not_eq_true'] at hbad
  rw [hs hbad.1] at hbad
  exact Bool.noConfusion hbad.2

theorem Develops.find (h : Develops d d') (hf : d.find p = .ok (place, n)) :
    ∃ n', d'.find p = .ok (place, n') ∧ n'.isDir = n.isDir ∧ n'.isFile = n.isFile := by
  obtain ⟨used, hu, hway⟩ := follows_of_find hf
  have hloc := find_ok_iff.mp hf
  obtain ⟨n', hn', hdir, hfile, -⟩ := h.node (locate_sound hloc)
  refine ⟨n', find_of_follows hu (trail_of_cwd h.cwd p ▸ h.follows hway) hn' (takes_of_locate hloc) ?_, hdir, hfile⟩
  intro hs
  rw [hdir]
  rw [locate_eq_settle (takes_of_locate hloc)] at hloc
  unfold settle at hloc
  split at hloc
  · split at hloc
    · cases hloc
    · next hok =>
      cases hloc
      rw [hs] at hok
      simpa using hok
  · split at hloc <;> cases hloc
  · cases hloc

/-- Names of entries lead down from a directory, past no link. -/
theorem Follows.descend (hf : Follows top used here xs place.reverse) (hn : ∀ s ∈ rel, isName s = true)
    (hsize : ∀ s ∈ rel, s.utf8ByteSize ≤ nameLimit) (hat : top.at? (place ++ rel) = some n)
    (hl : ∀ target, n ≠ .link target) : Follows top used here (xs ++ rel) (place ++ rel).reverse := by
  induction rel using List.reverseRecOn generalizing n with
  | nil => simpa using hf
  | append_singleton rel name ih =>
    rw [← List.append_assoc] at hat
    obtain ⟨t, es, hdir, -⟩ := (Node.at?_concat _ _ _).mp hat
    have hway := ih (fun s hs => hn s (List.mem_append_left _ hs)) (fun s hs => hsize s (List.mem_append_left _ hs))
      hdir (by simp)
    rw [← List.append_assoc, ← List.append_assoc, List.reverse_concat]
    apply hway.concat (isName_iff.mp (hn name (by simp))).2.2.1 (hsize name (by simp)) _ hl
    rwa [List.reverse_cons, List.reverse_reverse]

/-- A way leads by names within the limit. -/
theorem Follows.size (h : Follows top used here xs there) :
    ∀ s ∈ xs, s ≠ ".." → s.utf8ByteSize ≤ nameLimit := by
  induction h with
  | stay => simp
  | up _ _ ih => exact fun s hs hup => ih s ((List.mem_cons.mp hs).resolve_left hup) hup
  | down _ hsize _ _ _ ih =>
    rintro s hs hup
    rcases List.mem_cons.mp hs with rfl | hs
    · exact hsize
    · exact ih s hs hup
  | link _ hsize _ _ ih =>
    rintro s hs hup
    rcases List.mem_cons.mp hs with rfl | hs
    · exact hsize
    · exact ih s (List.mem_append_right _ hs) hup

namespace Reaches

/-- What is below a directory that a path reaches is found by the names that lead there. -/
theorem find_below (h : Reaches d p place) (hn : ∀ s ∈ rel, isName s = true) (hr : rel ≠ [])
    (hsize : ∀ s ∈ rel, s.utf8ByteSize ≤ nameLimit) (hat : d.top.at? (place ++ rel) = some n)
    (hl : ∀ target, n ≠ .link target) (ht : takes (p.join ⟨rel⟩) = true) :
    d.find (p.join ⟨rel⟩) = .ok (place ++ rel, n) := by
  obtain ⟨used, hu, hf⟩ := h.way
  apply find_of_follows hu _ hat ht
  · intro hs
    simp [Path.endsIdle_join hr hn, steps_join_ne_nil hn hr] at hs
  · rw [trail_join hn hr]
    exact hf.descend hn hsize hat hl

/-- A path that finds something below a directory found it there all along. -/
theorem find_before (h : Reaches d p place) (hdev : Develops d d') (hn : ∀ s ∈ rel, isName s = true) (hr : rel ≠ [])
    (hat : d.top.at? (place ++ rel) = some n) (hl : ∀ target, n ≠ .link target) {place' : List String} {n' : Node}
    (hf : d'.find (p.join ⟨rel⟩) = .ok (place', n')) :
    d.find (p.join ⟨rel⟩) = .ok (place ++ rel, n) ∧ place' = place ++ rel := by
  obtain ⟨used, -, hway⟩ := follows_of_find hf
  rw [trail_join hn hr] at hway
  have hsize : ∀ s ∈ rel, s.utf8ByteSize ≤ nameLimit :=
    fun s hs => hway.size s (List.mem_append_right _ hs) (isName_iff.mp (hn s hs)).2.2.1
  have hbefore := h.find_below hn hr hsize hat hl (takes_of_locate (find_ok_iff.mp hf))
  obtain ⟨m, hafter, -⟩ := hdev.find hbefore
  cases hf.symm.trans hafter
  exact ⟨hbefore, rfl⟩

end Reaches

/-! ## Directories that are made -/

namespace Widens

theorem refl (d : Disk) : Widens d d := ⟨rfl, fun _ => Or.inl rfl⟩

theorem trans (h : Widens d d') (h' : Widens d' d'') : Widens d d'' := by
  refine ⟨h'.cwd.trans h.cwd, fun q => ?_⟩
  rcases h.shape q with hq | ⟨hq, hnew⟩
  · rw [← hq]
    exact h'.shape q
  · rcases h'.shape q with hq' | ⟨hq', -⟩
    · exact Or.inr ⟨hq, hq'.trans hnew⟩
    · exact Or.inr ⟨hq, by simp [hq'] at hnew⟩

theorem shape_of_some (h : Widens d d') {s : Shape} (hs : d.top.shape? place = some s) :
    d'.top.shape? place = some s := by
  rcases h.shape place with hq | ⟨hq, -⟩
  · rw [hq, hs]
  · simp [hq] at hs

theorem file_iff (h : Widens d d') :
    d'.top.at? place = some (.file c mode t) ↔ d.top.at? place = some (.file c mode t) := by
  rw [← Node.shape?_eq_file, ← Node.shape?_eq_file]
  rcases h.shape place with hq | ⟨hq, hnew⟩
  · rw [hq]
  · simp [hq, hnew]

theorem develops (h : Widens d d') : Develops d d' where
  cwd := h.cwd
  dir := fun _ hq => h.shape_of_some hq
  link := fun _ _ hq => h.shape_of_some hq
  file := fun _ ⟨c, m, t, hq⟩ => ⟨c, m, t, h.file_iff.mpr hq⟩

end Widens

theorem widens_makeDir (h : d.makeDir p = .ok d') : Widens d d' := by
  obtain ⟨above, name, hloc, rfl⟩ := vacant_of_makeDir h
  obtain ⟨hdir, hnone⟩ := locate_sound hloc
  obtain ⟨t, es, hat⟩ := Node.shape?_eq_dir.mp hdir
  refine ⟨rfl, fun q => ?_⟩
  by_cases hpre : above ++ [name] <+: q
  · obtain ⟨rest, rfl⟩ := hpre
    have hnew : (d.put (above ++ [name]) (.dir d.now [])).top.at? (above ++ [name] ++ rest) =
        (Node.dir d.now []).at? rest := by
      rw [List.append_assoc]
      exact Node.at?_alter_self hat
    have hold : d.top.at? (above ++ [name] ++ rest) = none := by rw [Node.at?_append, hnone]; rfl
    rw [Node.shape?, hnew, Node.shape?, hold]
    cases rest with
    | nil => exact Or.inr ⟨rfl, rfl⟩
    | cons => exact Or.inl rfl
  · exact Or.inl (Node.shape?_alter hpre)

/-- The name of an entry that is missing is a name. -/
theorem isName_of_trace {names : List String} (hp : top.isProper = true) (hn : top.at? here.reverse = some n)
    (hlast : ∀ s, names.getLast? = some s → s = ".." ∨ isName s = true)
    (h : trace top follow links here n names = .ok (.vacant above name)) : isName name = true := by
  -- a link leaves fewer links to follow, any other name fewer names
  induction links using Nat.strongRecOn generalizing here n names with
  | _ links ihlinks =>
  induction names generalizing here n with
  | nil =>
    rw [trace_nil] at h
    cases h
  | cons x names ih =>
    have hrest : ∀ s, names.getLast? = some s → s = ".." ∨ isName s = true := by
      intro s hs
      apply hlast
      rw [List.getLast?_cons, hs]
      rfl
    obtain ⟨t, es, rfl, ⟨-, m, hm, hgo⟩ | ⟨hname, -, hcases⟩⟩ := trace_cons_ok h
    · exact ih hm hrest hgo
    · have hchild := at?_child_reverse hn x
      obtain ⟨m, hm, -, hgo⟩ | ⟨target, left, hm, rfl, -, hgo⟩ | ⟨target, -, -, -, hspot⟩ | ⟨-, rfl, hspot⟩ := hcases
      · exact ih (hchild.trans hm) hrest hgo
      · have htarget := Node.named_of_isProper (Node.hereditary_isProper.of_at? hp (hchild.trans hm)).2
        refine ihlinks left (Nat.lt_succ_self left) (at?_onward hn target) ?_ hgo
        intro s hs
        rw [List.getLast?_append] at hs
        cases hnames : names.getLast? with
        | none =>
          rw [hnames, Option.none_or] at hs
          exact htarget s (List.mem_of_getLast? hs)
        | some last =>
          rw [hnames] at hs
          cases hs
          exact hrest _ hnames
      · cases hspot
      · cases hspot
        exact (hlast _ rfl).resolve_left hname

theorem isName_of_missing (hp : d.top.isProper = true) (hn : p.Named)
    (h : d.locate follow p = .ok (.vacant above name)) : isName name = true := by
  rw [locate_eq_settle (takes_of_locate h)] at h
  obtain ⟨htrace, hsteps⟩ := settle_ok h
  refine isName_of_trace hp (Node.at?_nil _) (fun s hs => ?_) htrace
  have hne : p.steps ≠ [] := by
    intro hno
    obtain ⟨place, t, es, hspot⟩ := hsteps hno
    cases hspot
  rw [trail, List.getLast?_append_of_ne_nil _ hne] at hs
  exact hn s (Path.mem_names_of_steps (List.mem_of_getLast? hs))

theorem isProper_put (hp : d.top.isProper = true) (hname : isName name = true) (hn : n.isProper = true) :
    (d.put (above ++ [name]) n).top.isProper = true := by
  apply Node.hereditary_isProper.alter hp hname
  rintro m ⟨⟩
  exact hn

theorem isProper_update {f : Node → Node} (hp : d.top.isProper = true) (hat : d.top.at? (above ++ [name]) = some n)
    (hf : (f n).isProper = true) : (d.update (above ++ [name]) f).top.isProper = true := by
  have hname := (Node.hereditary_isProper.of_at? hp hat).1 name (by simp)
  apply Node.hereditary_isProper.alter hp hname
  rw [hat]
  rintro m ⟨⟩
  exact hf

theorem isProper_makeDir (hp : d.top.isProper = true) (hn : p.Named) (h : d.makeDir p = .ok d') :
    d'.top.isProper = true := by
  obtain ⟨above, name, hloc, rfl⟩ := vacant_of_makeDir h
  exact isProper_put hp (isName_of_missing hp hn hloc) rfl

/-! ## Copies -/

/-- A copy needs a file that may be read, and leaves its content at the target unless that is the file
itself. -/
theorem refiles_of_copy (h : d.copy source target = .ok d') :
    ∃ from_ spot c mode t, d.find source = .ok (from_, .file c mode t) ∧ isReadable mode = true ∧
      d.locate true target = .ok spot ∧ target.endsIdle = false ∧
      Refiles spot.place (if spot.place = from_ then ByteArray.empty else c) mode d d' := by
  unfold copy at h
  split at h
  · next from_ c mode t hs =>
    split at h
    · cases h
    · next hr =>
      rw [Bool.not_eq_true, Bool.not_eq_false'] at hr
      split at h
      · next place _ old _ hspot =>
        split at h
        · cases h
          exact ⟨from_, _, c, mode, t, hs, hr, hspot, endsIdle_of_file hspot, refiles_update hspot⟩
        · cases h
      · cases h
      · next above name hspot =>
        split at h
        · cases h
        · next hi =>
          cases h
          have hne : above ++ [name] ≠ from_ := by
            rintro rfl
            cases (locate_sound hspot).2.symm.trans (locate_sound (find_ok_iff.mp hs))
          refine ⟨from_, _, c, mode, t, hs, hr, hspot, Bool.eq_false_iff.mpr hi, ?_⟩
          rw [if_neg (show Spot.place (.vacant above name) ≠ from_ from hne)]
          exact refiles_put hspot
      · cases h
  · cases h
  · cases h

theorem isProper_copy (hp : d.top.isProper = true) (hn : target.Named) (h : d.copy source target = .ok d') :
    d'.top.isProper = true := by
  unfold copy at h
  split at h
  · split at h
    · cases h
    · split at h
      · next hspot =>
        split at h
        · cases h
          obtain ⟨above, name, rfl⟩ := concat_of_file hspot
          exact isProper_update hp (locate_sound hspot) rfl
        · cases h
      · cases h
      · next hspot =>
        split at h
        · cases h
        · cases h
          exact isProper_put hp (isName_of_missing hp hn hspot) rfl
      · cases h
  · cases h
  · cases h

/-- One file differs from a disk before, and is what a path leads to. -/
structure Written (before : Disk) (place : List String) (c : ByteArray) (target : Path) (d : Disk) : Prop where
  proper : d.top.isProper = true
  differs : Differs place before d
  file : ∃ mode t, d.find target = .ok (place, .file c mode t)

theorem Written.update {before : Disk} {mode' : Nat} {t' : Stamp} (h : Written before place c target d)
    (hf : d.find target = .ok (place, .file c mode t)) :
    Written before place c target (d.update place fun _ => .file c mode' t') := by
  have hloc := find_ok_iff.mp hf
  obtain ⟨above, name, rfl⟩ := concat_of_file hloc
  have hat : d.top.at? (above ++ [name]) = some (.file c mode t) := locate_sound hloc
  obtain ⟨hdiffers, hfile⟩ : Differs (above ++ [name]) d (d.update (above ++ [name]) fun _ => .file c mode' t') ∧ _ :=
    differs_update hat
  have hloose := Node.loose_of_file hat
  have hagrees := hdiffers.agrees hloose (Node.loose_of_file hfile)
  refine ⟨isProper_update h.proper hat rfl, ⟨hdiffers.cwd.trans h.differs.cwd, fun q hq => ?_⟩, mode', t', ?_⟩
  · rw [hdiffers.elsewhere q hq, h.differs.elsewhere q hq]
  · exact find_ok_iff.mpr (hagrees.locate hloc hloose (endsIdle_of_file hloc) hfile)

theorem Written.setModified {before : Disk} {stamp : Stamp} (h : Written before place c target d)
    (hset : d.setModified target stamp = .ok d') : Written before place c target d' := by
  obtain ⟨mode, t, hf⟩ := h.file
  rw [Disk.setModified, hf] at hset
  dsimp only at hset
  split at hset
  · cases hset
    exact h.update hf
  · cases hset

theorem changeMode_of_find (hf : d.find p = .ok (place, .file c mode t)) (f : Nat → Nat) :
    d.changeMode p f = .ok (d.update place fun _ => .file c (f mode) t) := by
  have hat : d.top.at? place = some (.file c mode t) := locate_sound (find_ok_iff.mp hf)
  rw [changeMode, hf]
  refine congrArg Except.ok (congrArg (fun top => { d with top }) (Node.alter_congr ?_))
  rw [hat]
  rfl

theorem Written.changeMode {before : Disk} {f : Nat → Nat} (h : Written before place c target d)
    (hset : d.changeMode target f = .ok d') : Written before place c target d' := by
  obtain ⟨mode, t, hf⟩ := h.file
  rw [changeMode_of_find hf] at hset
  cases hset
  exact h.update hf

end Disk

namespace Files

open Action Disk

variable {d d' : Disk} {p : Path}

theorem widens_makeParents (d : Disk) (p : Path) : Widens d ((makeParents p).on d).2 := by
  unfold makeParents
  split
  · exact keeps_makeDirsFrom (P := Widens d)
      (fun _ _ => Keeps.change fun _ _ h hmake => h.trans (widens_makeDir hmake)) d (.refl d)
  · exact .refl d

theorem isProper_makeDirs (hp : d.top.isProper = true) (hn : p.Named) :
    ((makeDirs p).on d).2.top.isProper = true := by
  refine keeps_makeDirsFrom (P := fun d => d.top.isProper = true) (fun r hr => ?_) d hp
  exact Keeps.change fun _ _ h hmake => isProper_makeDir h (hn.ancestors hr) hmake

theorem isProper_makeParents (hp : d.top.isProper = true) (hn : p.Named) :
    ((makeParents p).on d).2.top.isProper = true := by
  unfold makeParents
  split
  · next q hq => exact isProper_makeDirs hp (hn.parent hq)
  · exact hp

end Files

end Outfitter
