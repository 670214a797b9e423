import Outfitter.Packaging
import Outfitter.Proofs.Walk.Met

/-! # What packaging does to content

Wherever a bundle is made, a file that counts as copied has the content that its source had before,
unless two files met: the target of some file was a source, or the target of two files was one. A
file that is copied onto itself is emptied, and counts as copied all the same.
-/

namespace Outfitter.Packaging

open Disk Action Files Walk

variable {d d₀ d' : Disk} {source target p q : Path} {place rel : List String} {log : List (List String × Bool)}
  {item : Item} {m : Manifest} {name : String}

/-! ## Copies -/

/-- Copying makes directories at most, or writes one file, whatever comes of it. -/
theorem copy_cases (hp : d.top.isProper = true) (hn : target.Named) (source : Path) :
    ∃ d₁, Widens d d₁ ∧ d₁.top.isProper = true ∧
      ((((Files.copy source target).on d).1.isOk = false ∧ ((Files.copy source target).on d).2 = d₁) ∨
        ∃ from_ place c mode t, d₁.find source = .ok (from_, .file c mode t) ∧ Shape.Loose (d₁.top.shape? place) ∧
          Written d₁ place (if place = from_ then ByteArray.empty else c) target
            ((Files.copy source target).on d).2) := by
  have hwide := widens_makeParents d target
  have hproper := isProper_makeParents hp hn
  unfold Files.copy
  cases hmake : (makeParents target).on d with
  | mk r d₁ =>
  rw [hmake] at hwide hproper
  refine ⟨d₁, hwide, hproper, ?_⟩
  cases r with
  | error e =>
    rw [on_bind_error hmake]
    exact Or.inl ⟨rfl, rfl⟩
  | ok =>
  rw [on_bind_ok hmake]
  cases hcopy : d₁.copy source target with
  | error e =>
    rw [on_bind_error (on_change_error hcopy)]
    exact Or.inl ⟨rfl, rfl⟩
  | ok d₂ =>
  rw [on_bind_ok (on_change_ok hcopy)]
  obtain ⟨from_, spot, c, mode, t, hfind, -, hspot, hi, hr⟩ := refiles_of_copy hcopy
  refine Or.inr ⟨from_, spot.place, c, mode, t, hfind, hr.loose, ?_⟩
  have hstamp : Keeps (Written d₁ spot.place (if spot.place = from_ then ByteArray.empty else c) target)
      (fetch (·.modified source) >>= fun stamp => change (·.setModified target stamp)) :=
    (Keeps.fetch _).bind fun _ => Keeps.change fun _ _ h hset => h.setModified hset
  apply hstamp
  exact ⟨isProper_copy hproper hn hcopy, hr.differs, _, _, find_ok_iff.mpr (hr.agrees.locate hspot hr.loose hi hr.file)⟩

theorem copyAsset_cases (hp : d.top.isProper = true) (hn : target.Named) (source : Path) (name : String) :
    ∃ d₁, Widens d d₁ ∧ d₁.top.isProper = true ∧
      ((((copyAsset source target name).on d).1.isOk = false ∧ ((copyAsset source target name).on d).2 = d₁) ∨
        ∃ from_ place c mode t, d₁.find source = .ok (from_, .file c mode t) ∧ Shape.Loose (d₁.top.shape? place) ∧
          Written d₁ place (if place = from_ then ByteArray.empty else c) target
            ((copyAsset source target name).on d).2) := by
  obtain ⟨d₁, hwide, hproper, hcases⟩ := copy_cases hp hn source
  refine ⟨d₁, hwide, hproper, ?_⟩
  unfold copyAsset
  cases hcopy : (Files.copy source target).on d with
  | mk r d₂ =>
  rw [hcopy] at hcases
  rcases hcases with ⟨hr, rfl⟩ | ⟨from_, place, c, mode, t, hfind, hloose, hwritten⟩
  · cases r with
    | ok => cases hr
    | error e =>
      rw [on_bind_error hcopy]
      exact Or.inl ⟨rfl, rfl⟩
  · refine Or.inr ⟨from_, place, c, mode, t, hfind, hloose, ?_⟩
    cases r with
    | error e =>
      rw [on_bind_error hcopy]
      exact hwritten
    | ok =>
      rw [on_bind_ok hcopy]
      have hexec : Keeps (Written d₁ place (if place = from_ then ByteArray.empty else c) target)
          (if Inventory.isShellScript name then makeExecutable target else pure ()) :=
        (Keeps.change fun _ _ h hset => h.changeMode hset).ite (Keeps.pure ())
      exact hexec d₂ hwritten

/-! ## The log of a run -/

/-- The name of a file of a source, by the names that lead to it. -/
def nameOf (rel : List String) : String := Path.slashed (Path.text ⟨rel⟩)

/-- Copies an included file as packaging does, and notes whether it counts. -/
def logItem (m : Manifest) (target : Path) (log : List (List String × Bool)) :
    Except Fault Item → Action (List (List String × Bool))
  | .error _ => return log
  | .ok item => do
    if item.kind = .file && !item.below.isEmpty && m.includes (nameOf item.below) then
      let r ← attempt (copyAsset item.path (target / nameOf item.below) (nameOf item.below))
      return log ++ [(item.below, r.isOk)]
    else return log

/-- The included files of a source in the order in which they are copied, and whether each counts. -/
def generateLog (source target : Path) (m : Manifest) : Action (List (List String × Bool)) :=
  Walk.fold ⟨false, true⟩ (logItem m target) [] source

/-- How many files of a log count. -/
def counted (log : List (List String × Bool)) : Nat := (log.filter (·.2)).length

/-- The bytes of the file that a path leads to. -/
def content? (d : Disk) (p : Path) : Option ByteArray :=
  match d.find p with
  | .ok (_, .file c _ _) => some c
  | _ => none

/-- Two paths lead to one file. -/
def SameFile (d : Disk) (p q : Path) : Prop := ∃ place n, d.find p = .ok (place, n) ∧ d.find q = .ok (place, n)

/-- Two files met: what some file was copied to is the source of this one, or what this one was
copied to. -/
def Clash (source target : Path) (log : List (List String × Bool)) (d : Disk) (rel : List String) : Prop :=
  ∃ r ∈ log, SameFile d (target / nameOf r.1) (source.join ⟨rel⟩) ∨
    r.1 ≠ rel ∧ SameFile d (target / nameOf r.1) (target / nameOf rel)

/-- A file has at its target what it had at its source before. -/
def Delivered (d₀ : Disk) (source target : Path) (d : Disk) (rel : List String) : Prop :=
  ∃ c, content? d₀ (source.join ⟨rel⟩) = some c ∧ content? d (target / nameOf rel) = some c

theorem SameFile.develops (h : SameFile d p q) (hdev : Develops d d') : SameFile d' p q := by
  obtain ⟨place, n, hp, hq⟩ := h
  obtain ⟨n', hp', -⟩ := hdev.find hp
  obtain ⟨n'', hq', -⟩ := hdev.find hq
  have hp'' := locate_sound (find_ok_iff.mp hp')
  cases hp''.symm.trans (locate_sound (find_ok_iff.mp hq'))
  exact ⟨place, n', hp', hq'⟩

theorem Clash.develops {more : List (List String × Bool)} (h : Clash source target log d rel) (hdev : Develops d d') :
    Clash source target (log ++ more) d' rel := by
  obtain ⟨r, hr, hsame⟩ := h
  refine ⟨r, List.mem_append_left _ hr, ?_⟩
  exact hsame.imp (·.develops hdev) fun ⟨hne, hsame⟩ => ⟨hne, hsame.develops hdev⟩

theorem content?_of_find {c : ByteArray} {mode : Nat} {t : Stamp} (h : d.find p = .ok (place, .file c mode t)) :
    content? d p = some c := by
  rw [content?, h]

theorem find_of_content? {c : ByteArray} (h : content? d p = some c) :
    ∃ place mode t, d.find p = .ok (place, .file c mode t) := by
  unfold content? at h
  split at h
  · next place c' mode t hf =>
    cases h
    exact ⟨place, mode, t, hf⟩
  · cases h

/-! ## What holds all along -/

/-- What a run has done so far: a file that is not as it was is what some file was copied to, and each
file that counts was delivered or met another. -/
structure Sound (d₀ : Disk) (source target : Path) (log : List (List String × Bool)) (d : Disk) : Prop where
  develops : Develops d₀ d
  proper : d.top.isProper = true
  origin : ∀ q c mode t, d.top.at? q = some (.file c mode t) →
    (∃ mode t, d₀.top.at? q = some (.file c mode t)) ∨ ∃ r ∈ log, ∃ n, d.find (target / nameOf r.1) = .ok (q, n)
  copied : ∀ rel, (rel, true) ∈ log → Delivered d₀ source target d rel ∨ Clash source target log d rel

theorem sound_nil (hp : d.top.isProper = true) : Sound d source target [] d :=
  ⟨.refl d, hp, fun _ _ mode t h => Or.inl ⟨mode, t, h⟩, by simp⟩

/-- Directories that are made change nothing. -/
theorem Sound.widens (h : Sound d₀ source target log d) (hwide : Widens d d') (hp : d'.top.isProper = true)
    (rel : List String) : Sound d₀ source target (log ++ [(rel, false)]) d' where
  develops := h.develops.trans hwide.develops
  proper := hp
  origin := by
    intro q c mode t hq
    refine (h.origin q c mode t (hwide.file_iff.mp hq)).imp_right ?_
    rintro ⟨r, hr, n, hf⟩
    obtain ⟨n', hf', -⟩ := hwide.develops.find hf
    exact ⟨r, List.mem_append_left _ hr, n', hf'⟩
  copied := by
    intro rel' hrel'
    have hmem : (rel', true) ∈ log := by simpa using hrel'
    refine (h.copied rel' hmem).imp ?_ (·.develops hwide.develops)
    rintro ⟨c, hsource, htarget⟩
    obtain ⟨place, mode, t, hf⟩ := find_of_content? htarget
    obtain ⟨n', hf', -⟩ := hwide.develops.find hf
    cases (locate_sound (find_ok_iff.mp hf')).symm.trans
      (hwide.file_iff.mpr (locate_sound (find_ok_iff.mp hf)))
    exact ⟨c, hsource, content?_of_find hf'⟩

/-- Paths that lead to one place lead to one file. -/
theorem sameFile_of_find {n n' : Node} (hp : d.find p = .ok (place, n)) (hq : d.find q = .ok (place, n')) :
    SameFile d p q := by
  have hn := locate_sound (find_ok_iff.mp hp)
  cases hn.symm.trans (locate_sound (find_ok_iff.mp hq))
  exact ⟨place, n, hp, hq⟩

section Written

variable {d₁ : Disk} {from_ spot : List String} {c : ByteArray} {mode : Nat} {t : Stamp}

/-- A file that was written has what its source had before, or its source is what some file was copied to. -/
theorem Sound.delivered (h : Sound d₀ source target log d) (hr : Reaches d₀ source place)
    (hn : ∀ s ∈ rel, isName s = true) (hb : rel ≠ []) {n : Node} (hat : d.top.at? (place ++ rel) = some n)
    (hl : ∀ link, n ≠ .link link) (hwide : Widens d d₁)
    (hfind : d₁.find (source.join ⟨rel⟩) = .ok (from_, .file c mode t)) (hdev : Develops d₁ d')
    (hw : Written d₁ spot (if spot = from_ then ByteArray.empty else c) (target / nameOf rel) d') (b : Bool) :
    Delivered d₀ source target d' rel ∨ Clash source target (log ++ [(rel, b)]) d' rel := by
  have hdev₁ := hwide.develops
  obtain ⟨mode', t', htarget⟩ := hw.file
  obtain ⟨n', hsource, -⟩ := hdev.find hfind
  by_cases hself : spot = from_
  · subst hself
    exact Or.inr ⟨(rel, b), by simp, Or.inl (sameFile_of_find htarget hsource)⟩
  rw [if_neg hself] at htarget
  have hold : d.top.at? from_ = some (.file c mode t) := hwide.file_iff.mp (locate_sound (find_ok_iff.mp hfind))
  rcases h.origin from_ c mode t hold with ⟨mode₀, t₀, hat₀⟩ | ⟨r, hmem, n, hf⟩
  · obtain ⟨-, rfl⟩ := (h.develops.reaches hr).find_before hdev₁ hn hb hat hl hfind
    obtain ⟨hbefore, -⟩ := hr.find_before (h.develops.trans hdev₁) hn hb hat₀ (by simp) hfind
    exact Or.inl ⟨c, content?_of_find hbefore, content?_of_find htarget⟩
  · obtain ⟨n'', hf', -⟩ := (hdev₁.trans hdev).find hf
    exact Or.inr ⟨r, List.mem_append_left _ hmem, Or.inl (sameFile_of_find hf' hsource)⟩

/-- A file that was delivered stays so, unless another is copied over it. -/
theorem Delivered.written {rel' : List String} (h : Delivered d₀ source target d rel') (hne : rel ≠ rel')
    (hwide : Widens d d₁) (hdev : Develops d₁ d') (hw : Written d₁ spot c (target / nameOf rel) d') (b : Bool) :
    Delivered d₀ source target d' rel' ∨ Clash source target (log ++ [(rel, b)]) d' rel' := by
  obtain ⟨c', hsource, htarget⟩ := h
  obtain ⟨place', mode, t, hf⟩ := find_of_content? htarget
  obtain ⟨n', hf', -⟩ := (hwide.develops.trans hdev).find hf
  by_cases hplace : place' = spot
  · subst hplace
    obtain ⟨mode', t', htarget⟩ := hw.file
    exact Or.inr ⟨(rel, b), by simp, Or.inr ⟨hne, sameFile_of_find htarget hf'⟩⟩
  · have hat : d'.top.at? place' = some (.file c' mode t) := by
      rw [← Node.shape?_eq_file, hw.differs.elsewhere place' hplace, Node.shape?_eq_file]
      exact hwide.file_iff.mpr (locate_sound (find_ok_iff.mp hf))
    cases hat.symm.trans (locate_sound (find_ok_iff.mp hf'))
    exact Or.inl ⟨c', hsource, content?_of_find hf'⟩

theorem Sound.written (h : Sound d₀ source target log d) (hr : Reaches d₀ source place)
    (hn : ∀ s ∈ rel, isName s = true) (hb : rel ≠ []) {n : Node} (hat : d.top.at? (place ++ rel) = some n)
    (hl : ∀ link, n ≠ .link link) (hwide : Widens d d₁)
    (hfind : d₁.find (source.join ⟨rel⟩) = .ok (from_, .file c mode t)) (hloose : Shape.Loose (d₁.top.shape? spot))
    (hw : Written d₁ spot (if spot = from_ then ByteArray.empty else c) (target / nameOf rel) d') (b : Bool) :
    Sound d₀ source target (log ++ [(rel, b)]) d' := by
  obtain ⟨mode', t', htarget⟩ := hw.file
  have hdev : Develops d₁ d' := .of_differs hw.differs hloose (locate_sound (find_ok_iff.mp htarget))
  have hdev' := hwide.develops.trans hdev
  refine ⟨h.develops.trans hdev', hw.proper, ?_, ?_⟩
  · intro q c mode t hq
    by_cases hplace : q = spot
    · subst hplace
      exact Or.inr ⟨(rel, b), by simp, _, htarget⟩
    · rw [← Node.shape?_eq_file, hw.differs.elsewhere q hplace, Node.shape?_eq_file, hwide.file_iff] at hq
      refine (h.origin q c mode t hq).imp_right ?_
      rintro ⟨r, hmem, n, hf⟩
      obtain ⟨n', hf', -⟩ := hdev'.find hf
      exact ⟨r, List.mem_append_left _ hmem, n', hf'⟩
  · intro rel' hmem
    by_cases hsame : rel' = rel
    · subst hsame
      exact h.delivered hr hn hb hat hl hwide hfind hdev hw b
    · have hmem : (rel', true) ∈ log := by simpa [hsame] using hmem
      rcases h.copied rel' hmem with hdel | hclash
      · exact hdel.written (Ne.symm hsame) hwide hdev hw b
      · exact Or.inr (hclash.develops hdev')

end Written

theorem named_join {p q : Path} (hp : p.Named) (hq : q.Named) : (p.join q).Named := by
  by_cases ha : q.isAbsolute = true
  · rwa [Path.join, if_pos ha]
  · intro s hs
    rw [Path.names_join (Bool.eq_false_iff.mpr ha), List.mem_append] at hs
    exact hs.elim (hp s) (hq s)

/-- One turn of a run. -/
theorem goes_logItem (hr : Reaches d₀ source place) (hn : target.Named) (hs : Sound d₀ source target log d)
    (hm : Meets d source place item) : Goes (Sound d₀ source target) (logItem m target log (.ok item)) d := by
  rw [logItem]
  split
  · next hif =>
    simp only [Bool.and_eq_true, decide_eq_true_eq, Bool.not_eq_true', List.isEmpty_eq_false_iff] at hif
    obtain ⟨⟨hk, hb⟩, -⟩ := hif
    have hpath : item.path = source.join ⟨item.below⟩ := hm.path.trans (if_neg hb)
    obtain ⟨n, hat, hkind⟩ := hm.node
    have hl : ∀ link, n ≠ .link link := by
      rintro link rfl
      rw [hk] at hkind
      cases hkind
    have htarget : (target / nameOf item.below).Named := named_join hn (Path.named_ofText (nameOf item.below))
    obtain ⟨d₁, hwide, hproper, hcases⟩ :=
      copyAsset_cases hs.proper htarget (source.join ⟨item.below⟩) (nameOf item.below)
    rw [hpath]
    refine ⟨_, _, on_bind_attempt _ _ _, ?_⟩
    rcases hcases with ⟨hfail, rfl⟩ | ⟨from_, spot, c, mode, t, hfind, hloose, hw⟩
    · rw [hfail]
      exact ⟨hs.widens hwide hproper _, hwide.develops⟩
    · obtain ⟨mode', t', hfound⟩ := hw.file
      refine ⟨hs.written hr hm.names hb hat hl hwide hfind hloose hw _, hwide.develops.trans ?_⟩
      exact .of_differs hw.differs hloose (locate_sound (find_ok_iff.mp hfound))
  · exact .pure hs

theorem slashed_relative {item : Item} (hb : item.below ≠ []) : Path.slashed item.relative.text = nameOf item.below := by
  unfold Item.relative
  split
  · next h => exact absurd h hb
  · rfl

/-- A run counts what its log counts. -/
theorem maps_packItem (m : Manifest) (target : Path) (log : List (List String × Bool)) (r : Except Fault Item) :
    Maps counted (logItem m target log r) (packItem m target (counted log) r) := by
  cases r with
  | error e => exact fun _ => rfl
  | ok item =>
    intro d
    rw [logItem, packItem]
    by_cases hb : item.below = []
    · simp [hb, Except.map]
    · rw [slashed_relative hb]
      split
      · rw [on_bind_attempt, on_bind_attempt, on_pure]
        cases (copyAsset item.path (target / nameOf item.below) (nameOf item.below)).on d with
        | mk r d₁ => cases r <;> simp [counted, Except.isOk, Except.toBool, Except.map]
      · rfl

theorem generate_of_log {d' : Disk} (hs : d.isDir source = true)
    (h : (generateLog source target m).on d = (.ok log, d')) :
    (generate source target m).on d = (.ok (counted log), d') := by
  have hmaps := maps_fold (o := ⟨false, true⟩) (maps_packItem m target) [] source d
  rw [show (Walk.fold _ _ _ _).on d = _ from h] at hmaps
  rw [generate, on_bind_ask, if_pos hs]
  exact hmaps

theorem takes_of_isDir (h : d.isDir p = true) : takes p = true := by
  unfold Disk.isDir at h
  split at h
  · next hf => exact takes_of_locate (find_ok_iff.mp hf)
  · cases h

/-- A run goes through whatever it meets. -/
theorem generateLog_sound (hp : d.top.isProper = true) (hn : target.Named) (hs : d.isDir source = true) (m : Manifest) :
    ∃ log d', (generateLog source target m).on d = (.ok log, d') ∧ Sound d source target log d' := by
  obtain ⟨place, hr⟩ := reaches_of_isDir hs
  have hbase : ∀ log d', Sound d source target log d' → Reaches d' source place ∧ d'.top.isProper = true :=
    fun _ _ h => ⟨h.develops.reaches hr, h.proper⟩
  have herror : ∀ log d' e, Sound d source target log d' →
      Goes (Sound d source target) (logItem m target log (.error e)) d' := fun _ _ _ h => .pure h
  have hitem : ∀ log d' item, Sound d source target log d' → Meets d' source place item →
      Goes (Sound d source target) (logItem m target log (.ok item)) d' := fun _ _ _ h hm => goes_logItem hr hn h hm
  obtain ⟨t, es, hfind⟩ := hr.find (takes_of_isDir hs)
  have hat : d.top.at? place = some (.dir t es) := locate_sound (find_ok_iff.mp hfind)
  have hstart : Meets d source place ⟨source, [], .dir⟩ := ⟨rfl, by simp, .dir t es, by rwa [List.append_nil], rfl⟩
  have hgoes : Goes (Sound d source target) (generateLog source target m) d := by
    apply Goes.ask_bind
    rw [hfind]
    exact goes_foldFrom rfl hbase herror hitem maxDepth [] [] _ d (sound_nil hp) hstart
  obtain ⟨log, d', hrun, hsound, -⟩ := hgoes
  exact ⟨log, d', hrun, hsound⟩

/-- Wherever a bundle is made, each file that counts as copied has at its target the content that its
source had before the run, unless it met another file. -/
theorem generate_delivers_unless_files_meet (d : Disk) (source target : Path) (m : Manifest)
    (hp : d.top.isProper = true) (hn : target.Named) (hs : d.isDir source = true) :
    ∃ log d', (generateLog source target m).on d = (.ok log, d') ∧
      (generate source target m).on d = (.ok (counted log), d') ∧
      ∀ rel, (rel, true) ∈ log → Delivered d source target d' rel ∨ Clash source target log d' rel := by
  obtain ⟨log, d', hrun, hsound⟩ := generateLog_sound hp hn hs m
  exact ⟨log, d', hrun, generate_of_log hs hrun, hsound.copied⟩

/-- A project with one file, and an empty directory beside it. -/
def shared : Disk :=
  ⟨.dir ⟨0, false⟩
    [("p", .dir ⟨0, false⟩ [("x", .file "a".toUTF8 0o644 ⟨0, false⟩)]), ("q", .dir ⟨0, false⟩ [])], [], 0⟩

/-- A manifest that includes that file. -/
def sharedManifest : Manifest := ⟨[.literal "x"], [], []⟩

/-- What becomes of it. -/
def sharedRun (target : Path) : Except Error (List (List String × Bool)) × Disk :=
  (logItem sharedManifest target [] (.ok ⟨Path.ofText "/p/x", ["x"], .file⟩)).on shared

theorem shared_log (target : Path) :
    (generateLog (Path.ofText "/p") target sharedManifest).on shared = sharedRun target := by
  have hfind : shared.find (Path.ofText "/p") =
      .ok (["p"], .dir ⟨0, false⟩ [("x", .file "a".toUTF8 0o644 ⟨0, false⟩)]) := rfl
  have hlist : shared.list (Path.ofText "/p") = .ok [("x", .file "a".toUTF8 0o644 ⟨0, false⟩)] := rfl
  have horder : inOrder ⟨false, true⟩ [("x", .file "a".toUTF8 0o644 ⟨0, false⟩)] = [("x", .file)] :=
    List.mergeSort_singleton _
  have hvisit : (logItem sharedManifest target [] (.ok ⟨Path.ofText "/p", [], .dir⟩)).on shared = (.ok [], shared) := rfl
  obtain ⟨around, hwalk⟩ := on_foldFrom_dir (o := ⟨false, true⟩) rfl Disk.pathLimit [] rfl hlist hvisit hlist
  rw [generateLog, Walk.fold, on_bind_ask, hfind]
  refine hwalk.trans ?_
  have hpath : Path.ofText "/p" / "x" = Path.ofText "/p/x" := by decide
  rw [horder, List.foldlM_cons, foldFrom_of_file rfl, hpath]
  simp only [List.foldlM_nil, bind_pure]
  rfl

theorem sharedRun_ok : ∀ text ∈ ["/p", "/q"], (sharedRun (Path.ofText text)).1.toOption = some [(["x"], true)] := by
  decide +kernel

theorem sharedRun_content : content? (sharedRun (Path.ofText "/p")).2 (Path.ofText "/p/x") = some ByteArray.empty := by
  decide +kernel

theorem shared_log_ok (text : String) (h : text ∈ ["/p", "/q"]) :
    (generateLog (Path.ofText "/p") (Path.ofText text) sharedManifest).on shared =
      (.ok [(["x"], true)], (sharedRun (Path.ofText text)).2) := by
  have hok := sharedRun_ok text h
  rw [shared_log]
  cases hrun : sharedRun (Path.ofText text) with
  | mk r d =>
  rw [hrun] at hok
  cases r with
  | error e => cases hok
  | ok log =>
    cases hok
    rfl

theorem shared_is_delivered :
    let source := Path.ofText "/p"
    let target := Path.ofText "/q"
    shared.top.isProper = true ∧ shared.isDir source = true ∧ target.Named ∧
      ∃ log d', (generate source target sharedManifest).on shared = (.ok (counted log), d') ∧ log = [(["x"], true)] ∧
        (Delivered shared source target d' ["x"] ∨ Clash source target log d' ["x"]) := by
  intro source target
  have hn : target.Named := Path.named_ofText "/q"
  obtain ⟨log, d', hlog, hrun, hcopied⟩ :=
    generate_delivers_unless_files_meet shared source target sharedManifest (by decide) hn (by decide)
  cases hlog.symm.trans (shared_log_ok "/q" (by simp))
  exact ⟨by decide, by decide, hn, _, _, hrun, rfl, hcopied _ (by simp)⟩

/-- A bundle that is made of a project in place counts the files that it empties. -/
theorem shared_onto_itself_is_emptied :
    let source := Path.ofText "/p"
    content? shared (Path.ofText "/p/x") = some "a".toUTF8 ∧
      ∃ d', (generate source source sharedManifest).on shared = (.ok 1, d') ∧
        content? d' (Path.ofText "/p/x") = some ByteArray.empty := by
  intro source
  have hrun := generate_of_log (by decide) (shared_log_ok "/p" (by simp))
  exact ⟨rfl, _, hrun, sharedRun_content⟩

end Outfitter.Packaging
