import Outfitter.Proofs.Disk.Below
import Outfitter.Proofs.Layout
import Outfitter.Proofs.Packaging.Content
import Outfitter.Proofs.Walk.Tour

/-! # Bundles that mirror their source

Where source and target are apart, each included file comes to the place that mirrors its own, with
its content, mode and time, unless a file or a directory is in its way or a mode forbids it. All else
stays as it is, and a second run changes no file.
-/

namespace Outfitter.Packaging

open Disk Action Files Walk

/-! ## Names of a source -/

section Names

variable {rel : List String} {target : Path}

/-- Names of a source tree: proper ones, without a backslash. -/
def Plain (rel : List String) : Prop := ∀ s ∈ rel, isName s = true ∧ '\\' ∉ s.toList

theorem Plain.names (h : Plain rel) : ∀ s ∈ rel, isName s = true := fun s hs => (h s hs).1

theorem mem_intercalate {c x : Char} {ls : List (List Char)} (h : c ∈ [x].intercalate ls) :
    c = x ∨ ∃ l ∈ ls, c ∈ l := by
  induction ls with
  | nil => cases h
  | cons l ls ih =>
    by_cases hls : ls = []
    · subst hls
      exact Or.inr ⟨l, List.mem_singleton_self l, by simpa using h⟩
    · rw [List.intercalate_cons_of_ne_nil hls, List.append_assoc, List.mem_append, List.mem_append, List.mem_singleton] at h
      rcases h with hl | rfl | hrest
      · exact Or.inr ⟨l, List.mem_cons_self, hl⟩
      · exact Or.inl rfl
      · exact (ih hrest).imp_right fun ⟨l, hl, hc⟩ => ⟨l, List.mem_cons_of_mem _ hl, hc⟩

theorem backslash_text (h : Plain rel) : '\\' ∉ (Path.text ⟨rel⟩).toList := by
  intro hc
  rw [Path.text, String.toList_intercalate] at hc
  rcases mem_intercalate hc with hslash | ⟨l, hl, hc⟩
  · exact absurd hslash (by decide)
  · obtain ⟨s, hs, rfl⟩ := List.mem_map.mp hl
    exact (h s hs).2 hc

theorem splitSlash_nameOf (h : Plain rel) (hr : rel ≠ []) : splitSlash (nameOf rel) = rel := by
  have htext : nameOf rel = Path.text ⟨rel⟩ := by
    rw [nameOf, Path.slashed, List.map_congr_left (g := id), List.map_id, String.ofList_toList]
    intro c hc
    rw [if_neg, id]
    rintro rfl
    exact backslash_text h hc
  have hslash : ∀ l ∈ rel.map String.toList, '/' ∉ l := by
    intro l hl
    obtain ⟨s, hs, rfl⟩ := List.mem_map.mp hl
    exact (isName_iff.mp (h s hs).1).2.2.2
  rw [htext, Path.text, splitSlash, String.toList_intercalate]
  show (List.splitOn '/' (['/'].intercalate (rel.map String.toList))).map String.ofList = rel
  rw [List.splitOn_intercalate '/' hslash (by simpa using hr), List.map_map]
  simp

theorem isClean_nameOf (h : Plain rel) (hr : rel ≠ []) : isClean (nameOf rel) = true := by
  have hno : '\\' ∉ (nameOf rel).toList := by
    rw [nameOf, Path.slashed, String.toList_ofList, List.mem_map]
    rintro ⟨c, -, hc⟩
    split at hc
    · exact absurd hc (by decide)
    · contradiction
  simpa [isClean, splitSlash_nameOf h hr, hno] using h.names

theorem div_nameOf (h : Plain rel) (hr : rel ≠ []) : target / nameOf rel = target.join ⟨rel⟩ :=
  congrArg (fun segs => target.join ⟨segs⟩) (splitSlash_nameOf h hr)

end Names

/-! ## One copy -/

section Copies

variable {d d₀ d₁ : Disk} {source target : Path} {from_ above : List String} {name : String} {c : ByteArray}
  {mode : Nat} {t : Stamp}

/-- Nothing is there, or a file that its owner may write. -/
def accepts : Option Node → Bool
  | none => true
  | some (.file _ mode _) => isWritable mode
  | some _ => false

/-- What a copy of a file leaves where `old` was, and whether it counts. A copy that may not be
written stays as it came to be, and does not count. -/
def carried (now : Stamp) (script : Bool) (c : ByteArray) (mode : Nat) (t : Stamp) (old : Option Node) :
    Option Node × Bool :=
  if isReadable mode && accepts old then
    if isWritable mode then (some (.file c (if script then mode ||| 0o111 else mode) t), true)
    else (some (.file c mode now), false)
  else (old, false)

section Carried

variable {now : Stamp} {script : Bool} {old : Option Node}

theorem carried_of_writable (hok : (isReadable mode && accepts old) = true) (hw : isWritable mode = true) :
    carried now script c mode t old = (some (.file c (if script then mode ||| 0o111 else mode) t), true) := by
  rw [carried, if_pos hok, if_pos hw]

theorem carried_of_not_writable (hok : (isReadable mode && accepts old) = true) (hw : ¬ isWritable mode = true) :
    carried now script c mode t old = (some (.file c mode now), false) := by
  rw [carried, if_pos hok, if_neg hw]

theorem carried_of_refused (hno : ¬ (isReadable mode && accepts old) = true) :
    carried now script c mode t old = (old, false) := by
  rw [carried, if_neg hno]

end Carried

theorem loose_of_accepts {place : List String} (h : accepts (d.top.at? place) = true) :
    Shape.Loose (d.top.shape? place) := by
  cases hat : d.top.at? place with
  | none => exact Node.loose_of_none hat
  | some n =>
    rw [hat] at h
    cases n with
    | file => exact Node.loose_of_file hat
    | dir => cases h
    | link => cases h

theorem copy_of_entry (e : Entry d target above name) (hf : d.find source = .ok (from_, .file c mode t))
    (hne : above ++ [name] ≠ from_) (hr : isReadable mode = true) (ha : accepts (d.top.at? (above ++ [name])) = true)
    (hs : Sets (above ++ [name]) (d.top.at? (above ++ [name])) d₀ d) :
    ∃ d', d.copy source target = .ok d' ∧ Entry d' target above name ∧
      Sets (above ++ [name]) (some (.file c mode d.now)) d₀ d' := by
  cases hat : d.top.at? (above ++ [name]) with
  | none =>
    have hloc : d.locate true target = .ok (.vacant above name) := e.locate_vacant hat
    refine ⟨_, ?_, e.agrees (refiles_put hloc).agrees, hs.put e.dir (Node.loose_of_none hat)⟩
    rw [Disk.copy, hf]
    simp [hr, hloc, e.ends]
  | some n =>
    rw [hat] at ha hs
    cases n with
    | dir => cases ha
    | link => cases ha
    | file c' mode' t' =>
      have hloc : d.locate true target = .ok (.there (above ++ [name]) (.file c' mode' t')) :=
        e.locate_there hat (by simp)
      refine ⟨_, ?_, e.agrees (refiles_update hloc).agrees, hs.update⟩
      rw [Disk.copy, hf]
      simp [hr, hloc, hne, show isWritable mode' = true from ha]

theorem copy_fails (e : Entry d target above name) (hf : d.find source = .ok (from_, .file c mode t))
    (hl : ∀ link, d.top.at? (above ++ [name]) ≠ some (.link link))
    (hbad : (isReadable mode && accepts (d.top.at? (above ++ [name]))) = false) :
    ∃ fault, d.copy source target = .error fault := by
  rw [Disk.copy, hf]
  dsimp only
  split
  · exact ⟨_, rfl⟩
  · next hr =>
    rw [Bool.not_eq_true, Bool.not_eq_false'] at hr
    rw [hr, Bool.true_and] at hbad
    cases hat : d.top.at? (above ++ [name]) with
    | none =>
      rw [hat] at hbad
      cases hbad
    | some n =>
      rw [hat] at hbad
      rw [e.locate_there hat fun link hn => hl link (hat.trans (congrArg some hn))]
      cases n with
      | file c' mode' t' => exact ⟨_, if_neg (Bool.eq_false_iff.mp hbad)⟩
      | dir => exact ⟨_, rfl⟩
      | link => exact ⟨_, rfl⟩

/-- What comes of a copy once its directory is there. -/
theorem on_copyAsset (hmake : (makeParents target).on d = (.ok (), d₁)) (hp : Paves above d d₁)
    (e : Entry d₁ target above name) (hl : ∀ link, d.top.at? (above ++ [name]) ≠ some (.link link))
    (hne : ¬ from_ <+: above ++ [name])
    (hfind : ∀ d', Develops d d' → d'.top.at? from_ = d.top.at? from_ → d'.find source = .ok (from_, .file c mode t))
    (label : String) :
    let out := carried d.now (Inventory.isShellScript label) c mode t (d.top.at? (above ++ [name]))
    ∃ r d', (copyAsset source target label).on d = (r, d') ∧ r.isOk = out.2 ∧ Sets (above ++ [name]) out.1 d d' := by
  intro out
  have hs := hp.sets name
  have hthere := hs.there
  have hnow : d₁.now = d.now := by rw [Disk.now, Disk.now, hp.clock]
  have hf := hfind d₁ hp.widens.develops (hs.aside from_ hne)
  by_cases hok : (isReadable mode && accepts (d.top.at? (above ++ [name]))) = true
  · obtain ⟨hr, ha⟩ := Bool.and_eq_true_iff.mp hok
    have hloose : Shape.Loose (d.top.shape? (above ++ [name])) := loose_of_accepts ha
    rw [← hthere] at hs ha
    have hdiff : above ++ [name] ≠ from_ := fun heq => hne (heq ▸ List.prefix_refl _)
    obtain ⟨d₂, hcopy, e₂, hs₂⟩ := copy_of_entry e hf hdiff hr ha hs
    have hmodified : d₂.modified source = .ok t := by
      rw [Disk.modified, hfind d₂ (hs₂.develops (Or.inr ⟨hloose, _, _, _, rfl⟩)) (hs₂.aside from_ hne)]
    have htarget : d₂.find target = .ok (above ++ [name], .file c mode d₁.now) :=
      find_ok_iff.mpr (e₂.locate_there hs₂.there (by simp))
    by_cases hw : isWritable mode = true
    · have hset : d₂.setModified target t = .ok (d₂.update (above ++ [name]) fun _ => .file c mode t) := by
        rw [setModified, htarget]
        exact if_pos hw
      have hrun : (Files.copy source target).on d = (.ok (), d₂.update (above ++ [name]) fun _ => .file c mode t) := by
        rw [Files.copy, on_bind_ok hmake, on_bind_ok (on_change_ok hcopy), on_bind_ok (on_fetch_ok hmodified),
          on_change_ok hset]
      have hout : out = (some (.file c (if Inventory.isShellScript label then mode ||| 0o111 else mode) t), true) :=
        carried_of_writable hok hw
      have hs₃ : Sets (above ++ [name]) (some (.file c mode t)) d (d₂.update (above ++ [name]) fun _ => .file c mode t) :=
        hs₂.update
      rw [hout, copyAsset, on_bind_ok hrun]
      split
      · have hfound := find_ok_iff.mpr ((e₂.update hs₂.there).locate_there hs₃.there (by simp))
        exact ⟨_, _, on_change_ok (changeMode_of_find hfound _), rfl, hs₃.update⟩
      · exact ⟨_, _, rfl, rfl, hs₃⟩
    · have hset : d₂.setModified target t = .error .permissionDenied := by
        rw [setModified, htarget]
        exact if_neg hw
      have hrun : (Files.copy source target).on d = (.error (.io .permissionDenied), d₂) := by
        rw [Files.copy, on_bind_ok hmake, on_bind_ok (on_change_ok hcopy), on_bind_ok (on_fetch_ok hmodified),
          on_change_error hset]
      have hout : out = (some (.file c mode d.now), false) := carried_of_not_writable hok hw
      rw [hout, copyAsset, on_bind_error hrun, ← hnow]
      exact ⟨_, _, rfl, rfl, hs₂⟩
  · have hout : out = (d.top.at? (above ++ [name]), false) := carried_of_refused hok
    rw [Bool.not_eq_true, ← hthere] at hok
    rw [← hthere] at hl
    obtain ⟨fault, hcopy⟩ := copy_fails e hf hl hok
    have hrun : (Files.copy source target).on d = (.error (.io fault), d₁) := by
      rw [Files.copy, on_bind_ok hmake, on_bind_error (on_change_error hcopy)]
    rw [hout, copyAsset, on_bind_error hrun]
    exact ⟨_, _, rfl, rfl, hs⟩

end Copies

/-! ## Where files go -/

/-- A file is among what is above a place. -/
def blocked (d : Disk) (place : List String) : Bool :=
  (List.range place.length).any fun i => (d.top.at? (place.take i)).any Node.isFile

/-- What comes to the place that mirrors a file of the source, and whether the file counts. -/
def deliver (d : Disk) (src dst rel : List String) : Option Node × Bool :=
  match d.top.at? (src ++ rel) with
  | some (.file c mode t) =>
    if blocked d (dst ++ rel) then (d.top.at? (dst ++ rel), false)
    else carried d.now (Inventory.isShellScript (nameOf rel)) c mode t (d.top.at? (dst ++ rel))
  | _ => (d.top.at? (dst ++ rel), false)

/-- A path stands for a place, there or not: names lead to it from a directory that is reached, past no link. -/
def Aims (d : Disk) (target : Path) (dst : List String) : Prop :=
  ∃ base top below, Reaches d base top ∧ dst = top ++ below ∧ Fits below ∧
    (∀ rel, rel ≠ [] → (∀ s ∈ rel, isName s = true) → target.join ⟨rel⟩ = base.join ⟨below ++ rel⟩) ∧
    ∀ pre link, pre <+: below → d.top.at? (top ++ pre) ≠ some (.link link)

/-- A source directory and a target apart from it, without links at the target, and with all paths
within the limits. -/
structure Packable (d : Disk) (source target : Path) (src dst : List String) : Prop where
  proper : d.top.isProper = true
  named : target.Named
  takes : takes source = true
  reaches : Reaches d source src
  aims : Aims d target dst
  apart : ¬ src <+: dst ∧ ¬ dst <+: src
  linkless : ∀ q link, dst <+: q → d.top.at? q ≠ some (.link link)
  limits : ∀ rel n, rel ≠ [] → d.top.at? (src ++ rel) = some n →
    Plain rel ∧ Fits rel ∧ Disk.takes (source.join ⟨rel⟩) = true ∧ Disk.takes (target.join ⟨rel⟩) = true

/-- What a run has done so far to the disk that it began with. -/
structure Mirrored (d : Disk) (src dst : List String) (done : List (List String)) (e : Disk) : Prop where
  clock : e.clock = d.clock
  proper : e.top.isProper = true
  develops : Develops d e
  files : ∀ rel ∈ done, ∃ c mode t, d.top.at? (src ++ rel) = some (.file c mode t)
  source : e.top.at? src = d.top.at? src
  there : ∀ rel ∈ done, e.top.at? (dst ++ rel) = (deliver d src dst rel).1
  aside : ∀ q, (∀ rel ∈ done, ¬ q <+: dst ++ rel) → e.top.at? q = d.top.at? q
  elsewhere : ∀ q, (∀ rel ∈ done, q ≠ dst ++ rel) →
    e.top.shape? q = d.top.shape? q ∨ d.top.shape? q = none ∧ e.top.shape? q = some .dir

section Runs

variable {d e e' : Disk} {source target : Path} {src dst rel rel' place : List String} {done : List (List String)}
  {m : Manifest} {c : ByteArray} {mode : Nat} {t : Stamp}

theorem blocked_iff :
    blocked d place = true ↔ ∃ pre, pre <+: place ∧ pre ≠ place ∧ ∃ c mode t, d.top.at? pre = some (.file c mode t) := by
  simp only [blocked, List.any_eq_true, List.mem_range]
  constructor
  · rintro ⟨i, hi, hfile⟩
    refine ⟨place.take i, List.take_prefix i place, fun heq => ?_, ?_⟩
    · have hlen := congrArg List.length heq
      rw [List.length_take] at hlen
      omega
    · cases hat : d.top.at? (place.take i) with
      | none =>
        rw [hat] at hfile
        cases hfile
      | some n =>
        rw [hat] at hfile
        cases n with
        | file c mode t => exact ⟨c, mode, t, rfl⟩
        | dir => cases hfile
        | link => cases hfile
  · rintro ⟨pre, hpre, hne, c, mode, t, hat⟩
    have hlen : pre.length < place.length := by
      have hle := hpre.length_le
      have hlt : pre.length ≠ place.length := fun heq => hne (hpre.eq_of_length heq)
      omega
    refine ⟨pre.length, hlen, ?_⟩
    rw [← List.prefix_iff_eq_take.mp hpre, hat]
    rfl

/-- Above a place that is not blocked, what is no link is a directory or missing. -/
theorem open_of_not_blocked {q : List String} (hopen : ¬ blocked d place = true) (hq : q <+: place) (hne : q ≠ place)
    (hlink : ∀ link, d.top.at? q ≠ some (.link link)) : d.top.shape? q = none ∨ d.top.shape? q = some .dir := by
  cases hshape : d.top.shape? q with
  | none => exact Or.inl rfl
  | some s =>
    cases s with
    | dir => exact Or.inr rfl
    | link link => exact absurd (Node.shape?_eq_link.mp hshape) (hlink link)
    | file c mode t => exact absurd (blocked_iff.mpr ⟨q, hq, hne, c, mode, t, Node.shape?_eq_file.mp hshape⟩) hopen

/-- No file of a source is below another. -/
theorem files_apart (hfile : ∃ c mode t, d.top.at? (src ++ rel) = some (.file c mode t))
    (hfile' : ∃ c mode t, d.top.at? (src ++ rel') = some (.file c mode t)) (hpre : rel <+: rel') : rel = rel' := by
  obtain ⟨rest, rfl⟩ := hpre
  by_contra hne
  have hrest : rest ≠ [] := by
    rintro rfl
    exact hne (List.append_nil rel).symm
  obtain ⟨c, mode, t, hat⟩ := hfile
  obtain ⟨c', mode', t', hat'⟩ := hfile'
  rw [← List.append_assoc] at hat'
  obtain ⟨t'', es, hdir⟩ := Node.isDir_of_at?_append hrest hat'
  cases hat.symm.trans hdir

theorem Mirrored.incomparable (h : Mirrored d src dst done e)
    (hfile : ∃ c mode t, d.top.at? (src ++ rel) = some (.file c mode t)) (hnew : rel ∉ done) :
    ∀ rel' ∈ done, ¬ dst ++ rel <+: dst ++ rel' ∧ ¬ dst ++ rel' <+: dst ++ rel := by
  intro rel' hmem
  have hne : rel ≠ rel' := by
    rintro rfl
    exact hnew hmem
  rw [List.prefix_append_right_inj, List.prefix_append_right_inj]
  exact ⟨fun hpre => hne (files_apart hfile (h.files rel' hmem) hpre),
    fun hpre => hne (files_apart (h.files rel' hmem) hfile hpre).symm⟩

theorem mirrored_nil (hp : d.top.isProper = true) : Mirrored d src dst [] d :=
  ⟨rfl, hp, .refl d, by simp, rfl, by simp, fun _ _ => rfl, fun _ _ => Or.inl rfl⟩

/-- One place more. -/
theorem Mirrored.extend (h : Mirrored d src dst done e) (hp : e'.top.isProper = true) (hdev : Develops e e')
    (hfile : ∃ c mode t, d.top.at? (src ++ rel) = some (.file c mode t)) (hnew : rel ∉ done)
    (hapart : ¬ src <+: dst ++ rel) (hs : Sets (dst ++ rel) (deliver d src dst rel).1 e e') :
    Mirrored d src dst (done ++ [rel]) e' where
  clock := hs.clock.trans h.clock
  proper := hp
  develops := h.develops.trans hdev
  files := by
    intro rel' hmem
    rcases List.mem_append.mp hmem with hmem | hmem
    · exact h.files rel' hmem
    · rwa [List.mem_singleton.mp hmem]
  source := (hs.aside src hapart).trans h.source
  there := by
    intro rel' hmem
    rcases List.mem_append.mp hmem with hmem | hmem
    · rw [hs.aside _ (h.incomparable hfile hnew rel' hmem).2, h.there rel' hmem]
    · rw [List.mem_singleton.mp hmem, hs.there]
  aside := by
    intro q hq
    rw [hs.aside q (hq rel (by simp)), h.aside q fun rel' hmem => hq rel' (List.mem_append_left _ hmem)]
  elsewhere := by
    intro q hq
    have hold := h.elsewhere q fun rel' hmem => hq rel' (List.mem_append_left _ hmem)
    rcases hs.widens_elsewhere q (hq rel (by simp)) with heq | ⟨hnone, hdir⟩
    · rwa [heq]
    · rcases hold with heq | ⟨-, hdir'⟩
      · exact Or.inr ⟨heq ▸ hnone, hdir⟩
      · rw [hnone] at hdir'
        cases hdir'

theorem isProper_copyAsset (hp : d.top.isProper = true) (hn : target.Named) (source : Path) (label : String) :
    ((copyAsset source target label).on d).2.top.isProper = true := by
  obtain ⟨d₁, -, hproper, ⟨-, rfl⟩ | ⟨_, _, _, _, _, -, -, hw⟩⟩ := copyAsset_cases hp hn source label
  · exact hproper
  · exact hw.proper

theorem deliver_of_file (hat : d.top.at? (src ++ rel) = some (.file c mode t)) :
    deliver d src dst rel =
      if blocked d (dst ++ rel) then (d.top.at? (dst ++ rel), false)
      else carried d.now (Inventory.isShellScript (nameOf rel)) c mode t (d.top.at? (dst ++ rel)) := by
  rw [deliver, hat]

/-- A place holds what it held, or a file where a file may come to be. -/
theorem deliver_cases (d : Disk) (src dst rel : List String) :
    (deliver d src dst rel).1 = d.top.at? (dst ++ rel) ∨
      Shape.Loose (d.top.shape? (dst ++ rel)) ∧ ∃ c mode t, (deliver d src dst rel).1 = some (.file c mode t) := by
  unfold deliver
  split
  · split
    · exact Or.inl rfl
    · unfold carried
      split
      · next hok =>
        have hloose := loose_of_accepts (Bool.and_eq_true_iff.mp hok).2
        split
        · exact Or.inr ⟨hloose, _, _, _, rfl⟩
        · exact Or.inr ⟨hloose, _, _, _, rfl⟩
      · exact Or.inl rfl
  · exact Or.inl rfl

namespace Packable

theorem rel_ne_nil (hk : Packable d source target src dst) (hat : d.top.at? (src ++ rel) = some (.file c mode t)) :
    rel ≠ [] :=
  hk.reaches.ne_nil_of_file hat

theorem not_prefix (hk : Packable d source target src dst) (rel : List String) : ¬ src <+: dst ++ rel := fun hpre =>
  (List.prefix_or_prefix_of_prefix hpre (List.prefix_append dst rel)).elim hk.apart.1 hk.apart.2

end Packable

/-- The path of a source file goes on leading to it. -/
theorem Mirrored.find_source (hk : Packable d source target src dst) (h : Mirrored d src dst done e)
    (hat : d.top.at? (src ++ rel) = some (.file c mode t)) (hdev : Develops e e')
    (hsame : e'.top.at? (src ++ rel) = e.top.at? (src ++ rel)) :
    e'.find (source.join ⟨rel⟩) = .ok (src ++ rel, .file c mode t) := by
  obtain ⟨-, hfits, htakes, -⟩ := hk.limits rel _ (hk.rel_ne_nil hat) hat
  have hat' : e'.top.at? (src ++ rel) = some (.file c mode t) := by
    rw [hsame, Node.at?_append, h.source, ← Node.at?_append, hat]
  exact ((h.develops.trans hdev).reaches hk.reaches).find_below hfits.names (hk.rel_ne_nil hat) hfits.sizes hat'
    (by simp) htakes

/-- A file above a place that is below a directory is below that directory too. -/
theorem blocked_split {top dirs : List String} {last : String} (hd : d.top.shape? top = some .dir)
    (h : blocked d (top ++ dirs ++ [last]) = true) :
    ∃ mid post, dirs = mid ++ post ∧ ∃ c mode t, d.top.at? (top ++ mid) = some (.file c mode t) := by
  obtain ⟨pre, hpre, hne, c, mode, t, hat⟩ := blocked_iff.mp h
  have hup : pre <+: top ++ dirs := (List.prefix_concat_iff.mp hpre).resolve_left hne
  rcases List.prefix_or_prefix_of_prefix hup (List.prefix_append top dirs) with ⟨rest, rfl⟩ | ⟨mid, rfl⟩
  · obtain ⟨t', es, hdir⟩ := Node.shape?_eq_dir.mp hd
    rw [Node.at?_append, hat] at hdir
    cases rest <;> cases hdir
  · obtain ⟨post, hpost⟩ := (List.prefix_append_right_inj top).mp hup
    exact ⟨mid, post, hpost.symm, c, mode, t, hat⟩

/-- What is above the place of a file that is still to come is as it was, or a directory that was made. -/
theorem Mirrored.above (h : Mirrored d src dst done e)
    (hfile : ∃ c mode t, d.top.at? (src ++ rel) = some (.file c mode t)) (hnew : rel ∉ done) (hpre : place <+: dst ++ rel) :
    e.top.shape? place = d.top.shape? place ∨ d.top.shape? place = none ∧ e.top.shape? place = some .dir := by
  apply h.elsewhere
  rintro rel' hmem rfl
  exact (h.incomparable hfile hnew rel' hmem).2 hpre

/-- Nothing but directories is on the way to a place that nothing blocks. -/
theorem Mirrored.free {top below up : List String} {last : String} (h : Mirrored d src (top ++ below) done e)
    (hfile : ∃ c mode t, d.top.at? (src ++ (up ++ [last])) = some (.file c mode t)) (hnew : up ++ [last] ∉ done)
    (hlinks : ∀ pre link, pre <+: below → d.top.at? (top ++ pre) ≠ some (.link link))
    (hlinkless : ∀ q link, top ++ below <+: q → d.top.at? q ≠ some (.link link))
    (hopen : ¬ blocked d (top ++ (below ++ up) ++ [last]) = true) : Free e top (below ++ up) := by
  intro pre hpre
  have hup : top ++ pre <+: top ++ (below ++ up) := (List.prefix_append_right_inj top).mpr hpre
  have hplace : top ++ pre <+: top ++ below ++ (up ++ [last]) := by
    refine hup.trans ?_
    rw [← List.append_assoc, ← List.append_assoc]
    exact List.prefix_append _ _
  rcases h.above hfile hnew hplace with heq | ⟨-, hdir⟩
  · rw [heq]
    apply open_of_not_blocked hopen (hup.trans (List.prefix_append _ _))
    · intro heq
      have hlen := hup.length_le
      rw [heq, List.length_append, List.length_singleton] at hlen
      omega
    · intro link
      rcases List.prefix_or_prefix_of_prefix hpre (List.prefix_append below up) with hpre | hpre
      · exact hlinks pre link hpre
      · exact hlinkless _ link ((List.prefix_append_right_inj top).mpr hpre)
  · exact Or.inr hdir

/-- One turn of a run. -/
theorem Mirrored.step (hk : Packable d source target src dst) (h : Mirrored d src dst done e)
    (hat : d.top.at? (src ++ rel) = some (.file c mode t)) (hnew : rel ∉ done) :
    ∃ r e', (copyAsset (source.join ⟨rel⟩) (target / nameOf rel) (nameOf rel)).on e = (r, e') ∧
      r.isOk = (deliver d src dst rel).2 ∧ Mirrored d src dst (done ++ [rel]) e' := by
  have hne := hk.rel_ne_nil hat
  have hfile : ∃ c mode t, d.top.at? (src ++ rel) = some (.file c mode t) := ⟨c, mode, t, hat⟩
  obtain ⟨hplain, hfits, -, htakes⟩ := hk.limits rel _ hne hat
  have hproper := isProper_copyAsset h.proper (named_join hk.named (Path.named_ofText (nameOf rel)))
    (source.join ⟨rel⟩) (nameOf rel)
  rw [show target.join (Path.ofText (nameOf rel)) = target.join ⟨rel⟩ from div_nameOf hplain hne] at hproper
  have hsame : e.top.at? (dst ++ rel) = d.top.at? (dst ++ rel) :=
    h.aside _ fun rel' hmem => (h.incomparable hfile hnew rel' hmem).1
  -- it is enough to say what comes to the one place
  suffices hgoal : ∃ r e', (copyAsset (source.join ⟨rel⟩) (target.join ⟨rel⟩) (nameOf rel)).on e = (r, e') ∧
      r.isOk = (deliver d src dst rel).2 ∧ Sets (dst ++ rel) (deliver d src dst rel).1 e e' by
    obtain ⟨r, e', hrun, hr, hs⟩ := hgoal
    rw [hrun] at hproper
    refine ⟨r, e', by rw [div_nameOf hplain hne, hrun], hr, ?_⟩
    refine h.extend hproper (hs.develops ?_) hfile hnew (hk.not_prefix rel) hs
    rw [Node.shape?, hsame]
    exact deliver_cases d src dst rel
  obtain ⟨base, top, below, hreach, rfl, hbelow, hjoin, hlinks⟩ := hk.aims
  obtain ⟨up, last, rfl⟩ : ∃ up last, rel = up ++ [last] := ⟨_, _, (List.dropLast_append_getLast hne).symm⟩
  have hfits' : Fits (below ++ up ++ [last]) := by
    intro s hs
    rw [List.append_assoc] at hs
    exact (List.mem_append.mp hs).elim (hbelow s) (hfits s)
  have hplace : top ++ below ++ (up ++ [last]) = top ++ (below ++ up) ++ [last] := by simp
  rw [hjoin _ hne hplain.names, ← List.append_assoc] at htakes ⊢
  by_cases hblocked : blocked d (top ++ below ++ (up ++ [last])) = true
  · rw [deliver_of_file hat, if_pos hblocked]
    rw [hplace] at hblocked
    obtain ⟨mid, post, hsplit, c', mode', t', hmid⟩ := blocked_split hreach.dir hblocked
    have hpre : top ++ mid <+: top ++ below ++ (up ++ [last]) := by simp [hplace, hsplit]
    have hmid : e.top.at? (top ++ mid) = some (.file c' mode' t') := by
      rw [← Node.shape?_eq_file] at hmid ⊢
      rcases h.above hfile hnew hpre with heq | ⟨hnone, -⟩
      · rw [heq, hmid]
      · rw [hnone] at hmid
        cases hmid
    rw [hsplit] at hfits' htakes ⊢
    obtain ⟨fault, hmake⟩ := makeParents_blocked (h.develops.reaches hreach) hfits' htakes hmid
    refine ⟨.error fault, e, ?_, rfl, ?_⟩
    · rw [copyAsset, on_bind_error]
      rw [Files.copy, on_bind_error hmake]
    · rw [← hsame]
      exact .refl _ e
  · rw [deliver_of_file hat, if_neg hblocked]
    have hlast := hk.linkless (top ++ below ++ (up ++ [last]))
    have hsource := hk.not_prefix (up ++ [last])
    rw [hplace] at hblocked hsame hlast hsource ⊢
    obtain ⟨e₁, hmake, hpaves, hentry⟩ := makeParents_below (h.develops.reaches hreach) hfits' htakes
      (h.free hfile hnew hlinks hk.linkless hblocked)
    have hout := on_copyAsset hmake hpaves hentry
      (fun link => by rw [hsame]; exact hlast link (by simp))
      (fun hpre => hsource ((List.prefix_append _ _).trans hpre))
      (fun e' hdev hsame => h.find_source hk hat hdev hsame) (nameOf (up ++ [last]))
    rw [hsame, show e.now = d.now by rw [Disk.now, Disk.now, h.clock]] at hout
    exact hout

/-! ## Whole runs -/

/-- A file of the source that the manifest includes. -/
def Included (d : Disk) (src : List String) (m : Manifest) (rel : List String) : Prop :=
  (∃ c mode t, d.top.at? (src ++ rel) = some (.file c mode t)) ∧ m.includes (nameOf rel) = true

/-- Whether packaging copies what a walk met. -/
def isChosen (m : Manifest) (i : List String × Kind) : Bool :=
  i.2 = .file && !i.1.isEmpty && m.includes (nameOf i.1)

/-- What packaging copies of what a walk met. -/
def chosen (m : Manifest) (met : List (List String × Kind)) : List (List String) := filesOf (isChosen m) met

theorem logItem_ok (m : Manifest) (target p : Path) (log : List (List String × Bool)) (rel : List String) (k : Kind) :
    logItem m target log (.ok ⟨p, rel, k⟩) =
      if isChosen m (rel, k) then do
        let r ← attempt (copyAsset p (target / nameOf rel) (nameOf rel))
        return log ++ [(rel, r.isOk)]
      else return log := rfl

theorem isChosen_iff {i : List String × Kind} :
    isChosen m i = true ↔ i.2 = .file ∧ i.1 ≠ [] ∧ m.includes (nameOf i.1) = true := by
  simp [isChosen, and_assoc]

theorem chosen_concat (met : List (List String × Kind)) (i : List String × Kind) :
    chosen m (met ++ [i]) = if isChosen m i then chosen m met ++ [i.1] else chosen m met :=
  filesOf_concat met i

theorem mem_chosen {met : List (List String × Kind)} : rel ∈ chosen m met ↔ (rel, .file) ∈ met ∧ isChosen m (rel, .file) = true :=
  mem_filesOf fun _ h => (isChosen_iff.mp h).1

theorem nodup_chosen {met : List (List String × Kind)} (h : met.Nodup) : (chosen m met).Nodup :=
  nodup_filesOf (fun _ h => (isChosen_iff.mp h).1) h

/-- The log of a run, from what comes of each file. -/
def entries (d : Disk) (src dst : List String) (files : List (List String)) : List (List String × Bool) :=
  files.map fun rel => (rel, (deliver d src dst rel).2)

theorem counted_entries (d : Disk) (src dst : List String) (files : List (List String)) :
    counted (entries d src dst files) = (files.filter fun rel => (deliver d src dst rel).2).length := by
  simp [counted, entries, List.filter_map, Function.comp_def]

theorem length_le_bytes (hn : ∀ s ∈ rel, isName s = true) : rel.length ≤ Path.bytes rel := by
  induction rel with
  | nil => exact Nat.le_refl 0
  | cons s rel ih =>
    have hs : s.utf8ByteSize ≠ 0 := by
      rw [ne_eq, String.utf8ByteSize_eq_zero_iff]
      exact (isName_iff.mp (hn s List.mem_cons_self)).1
    have hrest := ih fun s hs => hn s (List.mem_cons_of_mem _ hs)
    rw [List.length_cons, Path.bytes]
    omega

/-- What the system takes is not too deep for a walk. -/
theorem shallow_of_limits {p : Path} {place : List String} {n : Node} (hn : d.top.at? place = some n)
    (hin : ∀ rel t es, rel ≠ [] → d.top.at? (place ++ rel) = some (.dir t es) → Fits rel ∧ takes (p.join ⟨rel⟩) = true) :
    Shallow maxDepth n := by
  intro rel t es hat
  by_cases hr : rel = []
  · subst hr
    exact Nat.succ_pos _
  obtain ⟨hfits, htakes⟩ := hin rel t es hr (by rw [Node.at?_append, hn]; exact hat)
  obtain ⟨base, hbase⟩ := Path.join_base p
  rw [hbase rel hfits.names] at htakes
  have hsize : Path.byteSize ⟨base ++ rel⟩ ≤ pathLimit := by
    simp only [Disk.takes, Bool.and_eq_true, decide_eq_true_eq] at htakes
    exact htakes.2
  have hlen := length_le_bytes hfits.names
  rw [Path.byteSize_mk, Path.bytes_append] at hsize
  unfold maxDepth
  omega

theorem list_pathBelow {p : Path} {place below : List String} {es : Entries} (hr : Reaches e p place)
    (ht : takes p = true) (hin : below ≠ [] → Fits below ∧ takes (p.join ⟨below⟩) = true)
    (hat : e.top.at? (place ++ below) = some (.dir t es)) : e.list (pathBelow p below) = .ok es := by
  unfold pathBelow
  split
  · next hb =>
    subst hb
    obtain ⟨t', es', hfind⟩ := hr.find ht
    rw [List.append_nil] at hat
    cases hat.symm.trans (locate_sound (find_ok_iff.mp hfind))
    rw [Disk.list, hfind]
  · next hb =>
    obtain ⟨hfits, htakes⟩ := hin hb
    rw [Disk.list, hr.find_below hfits.names hb hfits.sizes hat (by simp) htakes]

theorem Packable.within (hk : Packable d source target src dst) {n : Node} (hr : rel ≠ [])
    (hat : d.top.at? (src ++ rel) = some n) : Fits rel ∧ Disk.takes (source.join ⟨rel⟩) = true := by
  obtain ⟨-, hfits, htakes, -⟩ := hk.limits rel n hr hat
  exact ⟨hfits, htakes⟩

/-- What a walk through the source lists is what was there before the run. -/
theorem Mirrored.list_source (hk : Packable d source target src dst) (h : Mirrored d src dst done e) {n : Node}
    (hn : d.top.at? src = some n) {below : List String} {es : Entries} (hat : n.at? below = some (.dir t es)) :
    e.list (pathBelow source below) = .ok es := by
  have hold : d.top.at? (src ++ below) = some (.dir t es) := by rw [Node.at?_append, hn]; exact hat
  apply list_pathBelow (h.develops.reaches hk.reaches) hk.takes fun hb => hk.within hb hold
  rw [Node.at?_append, h.source, hn]
  exact hat

/-- What one visit of the walk does. -/
theorem Mirrored.visit (hk : Packable d source target src dst) {met : List (List String × Kind)} {n : Node}
    (h : Mirrored d src dst (chosen m met) e) (hn : d.top.at? (src ++ rel) = some n) (hnew : (rel, kindOf n) ∉ met) :
    ∃ log e', (logItem m target (entries d src dst (chosen m met)) (.ok ⟨pathBelow source rel, rel, kindOf n⟩)).on e =
        (.ok log, e') ∧ Mirrored d src dst (chosen m (met ++ [(rel, kindOf n)])) e' ∧
      log = entries d src dst (chosen m (met ++ [(rel, kindOf n)])) := by
  rw [chosen_concat, logItem_ok]
  by_cases hi : isChosen m (rel, kindOf n) = true
  · rw [if_pos hi, if_pos hi]
    obtain ⟨hk', hr, -⟩ := isChosen_iff.mp hi
    cases n with
    | dir => cases hk'
    | link => cases hk'
    | file c mode t =>
      obtain ⟨r, e', hrun, hr', h'⟩ := h.step hk hn fun hmem => hnew (mem_chosen.mp hmem).1
      refine ⟨entries d src dst (chosen m met) ++ [(rel, r.isOk)], e', ?_, h', ?_⟩
      · rw [on_bind_attempt, show pathBelow source rel = source.join ⟨rel⟩ from if_neg hr, hrun]
        rfl
      · simp [entries, hr']
  · rw [if_neg hi, if_neg hi]
    exact ⟨_, _, rfl, h, rfl⟩

/-- A run mirrors the included files, each once. -/
theorem generate_mirrored (hk : Packable d source target src dst) (m : Manifest) :
    ∃ files e, files.Nodup ∧ (∀ rel, rel ∈ files ↔ Included d src m rel) ∧ Mirrored d src dst files e ∧
      (generate source target m).on d = (.ok (counted (entries d src dst files)), e) := by
  obtain ⟨t, es, hfind⟩ := hk.reaches.find hk.takes
  have hn : d.top.at? src = some (.dir t es) := locate_sound (find_ok_iff.mp hfind)
  obtain ⟨-, hp⟩ := Node.hereditary_isProper.of_at? hk.proper hn
  have hs : Shallow maxDepth (.dir t es) := shallow_of_limits hn fun _ _ _ hr hat => hk.within hr hat
  have hmem {rel : List String} {k : Kind} : (rel, k) ∈ tour ⟨false, true⟩ maxDepth [] (.dir t es) ↔
      ∃ n, d.top.at? (src ++ rel) = some n ∧ k = kindOf n := by
    rw [mem_tour hp hs]
    simp [Node.at?_append, hn]
  have hnodup : (tour ⟨false, true⟩ maxDepth [] (.dir t es)).Nodup := nodup_tour hp hs
  have hwalk : ∃ log e, (foldFrom ⟨false, true⟩ (logItem m target) maxDepth [] [] ⟨source, [], .dir⟩).on d = (.ok log, e) ∧
      Mirrored d src dst (chosen m (tour ⟨false, true⟩ maxDepth [] (.dir t es))) e ∧
      log = entries d src dst (chosen m (tour ⟨false, true⟩ maxDepth [] (.dir t es))) := by
    have hstart : Mirrored d src dst (chosen m []) d ∧ [] = entries d src dst (chosen m []) :=
      ⟨mirrored_nil hk.proper, rfl⟩
    refine runs_tour (I := fun met log e => Mirrored d src dst (chosen m met) e ∧ log = entries d src dst (chosen m met))
      rfl hp (fun _ _ _ h _ _ _ hat => h.1.list_source hk hn hat) ?_ [] (Node.at?_nil _) hs hstart (List.prefix_refl _)
    rintro met log e ⟨rel, k⟩ ⟨h, rfl⟩ hwhole
    obtain ⟨n, hat, rfl⟩ := hmem.mp (hwhole.subset (List.mem_append_right met (List.mem_singleton_self _)))
    have hnew := List.nodup_append.mp (hnodup.sublist hwhole.sublist)
    exact h.visit hk hat fun hmet => hnew.2.2 _ hmet _ (List.mem_singleton_self _) rfl
  obtain ⟨log, e, hrun, hmirrored, rfl⟩ := hwalk
  refine ⟨_, e, nodup_chosen hnodup, ?_, hmirrored, ?_⟩
  · intro rel
    rw [mem_chosen, hmem, isChosen_iff]
    constructor
    · rintro ⟨⟨n, hat, hkind⟩, -, -, hincludes⟩
      cases n with
      | file c mode t => exact ⟨⟨c, mode, t, hat⟩, hincludes⟩
      | dir => cases hkind
      | link => cases hkind
    · rintro ⟨⟨c, mode, t, hat⟩, hincludes⟩
      exact ⟨⟨_, hat, rfl⟩, rfl, hk.rel_ne_nil hat, hincludes⟩
  · apply generate_of_log (hk.reaches.isDir hk.takes)
    rw [generateLog, Walk.fold, on_bind_ask, hfind]
    exact hrun

/-! ## Another run -/

theorem isWritable_executable (mode : Nat) : isWritable (mode ||| 0o111) = isWritable mode := by
  have hbit (mode : Nat) : isWritable mode = mode.testBit 7 := by
    rw [isWritable, Nat.testBit_eq_decide_div_mod_eq]
  rw [hbit, hbit, Nat.testBit_or]
  exact Bool.or_false _

/-- A second copy changes nothing, and counts as the first did. -/
theorem carried_carried (now now' : Stamp) (script : Bool) (c : ByteArray) (mode : Nat) (t : Stamp) (old : Option Node) :
    carried now' script c mode t (carried now script c mode t old).1 = carried now script c mode t old := by
  by_cases hok : (isReadable mode && accepts old) = true
  · have hr := (Bool.and_eq_true_iff.mp hok).1
    by_cases hw : isWritable mode = true
    · have hagain : isWritable (if script then mode ||| 0o111 else mode) = true := by
        split
        · rw [isWritable_executable, hw]
        · exact hw
      rw [carried_of_writable hok hw]
      exact carried_of_writable (Bool.and_eq_true_iff.mpr ⟨hr, hagain⟩) hw
    · rw [carried_of_not_writable hok hw]
      exact carried_of_refused fun hagain => hw (Bool.and_eq_true_iff.mp hagain).2
  · rw [carried_of_refused hok]
    exact carried_of_refused hok

/-- A link that is there was there before. -/
theorem Mirrored.link_before (h : Mirrored d src dst done e) {link : Path} (hat : e.top.at? place = some (.link link)) :
    d.top.at? place = some (.link link) := by
  by_cases hplace : ∃ rel ∈ done, place = dst ++ rel
  · obtain ⟨rel, hmem, rfl⟩ := hplace
    rw [h.there rel hmem] at hat
    rcases deliver_cases d src dst rel with hold | ⟨-, c, mode, t, hnew⟩
    · rw [← hold, hat]
    · rw [hnew] at hat
      cases hat
  · rw [← Node.shape?_eq_link] at hat ⊢
    rcases h.elsewhere place (fun rel hmem heq => hplace ⟨rel, hmem, heq⟩) with heq | ⟨-, hdir⟩
    · rw [← heq, hat]
    · rw [hat] at hdir
      cases hdir

/-- What a run left can be packaged again. -/
theorem Mirrored.packable (hk : Packable d source target src dst) (h : Mirrored d src dst done e) (clock : Nat) :
    Packable { e with clock } source target src dst where
  proper := h.proper
  named := hk.named
  takes := hk.takes
  reaches := by
    have hdev : Develops d { e with clock } := ⟨h.develops.cwd, h.develops.dir, h.develops.link, h.develops.file⟩
    exact hdev.reaches hk.reaches
  aims := by
    have hdev : Develops d { e with clock } := ⟨h.develops.cwd, h.develops.dir, h.develops.link, h.develops.file⟩
    obtain ⟨base, top, below, hreach, hdst, hfits, hjoin, hlinks⟩ := hk.aims
    exact ⟨base, top, below, hdev.reaches hreach, hdst, hfits, hjoin,
      fun pre link hpre hat => hlinks pre link hpre (h.link_before hat)⟩
  apart := hk.apart
  linkless := fun q link hq hat => hk.linkless q link hq (h.link_before hat)
  limits := by
    intro rel n hr hat
    apply hk.limits rel n hr
    rwa [Node.at?_append, ← h.source, ← Node.at?_append]

theorem Mirrored.blocked_iff (h : Mirrored d src dst done e) (hmem : rel ∈ done) :
    blocked e (dst ++ rel) = true ↔ blocked d (dst ++ rel) = true := by
  rw [Packaging.blocked_iff, Packaging.blocked_iff]
  refine exists_congr fun pre => and_congr_right fun hpre => and_congr_right fun hne => ?_
  have hbetween : ∀ rel' ∈ done, pre ≠ dst ++ rel' := by
    rintro rel' hmem' rfl
    rw [List.prefix_append_right_inj] at hpre
    exact hne (congrArg (dst ++ ·) (files_apart (h.files rel' hmem') (h.files rel hmem) hpre))
  simp only [← Node.shape?_eq_file]
  rcases h.elsewhere pre hbetween with heq | ⟨hnone, hdir⟩
  · rw [heq]
  · simp [hnone, hdir]

/-- What comes of a file in a second run: its place stays as it is, and it counts as before. -/
theorem Mirrored.deliver_again (h : Mirrored d src dst done e) (hmem : rel ∈ done) (clock : Nat) :
    deliver { e with clock } src dst rel = (e.top.at? (dst ++ rel), (deliver d src dst rel).2) := by
  obtain ⟨c, mode, t, hat⟩ := h.files rel hmem
  have hat' : e.top.at? (src ++ rel) = some (.file c mode t) := by
    rw [Node.at?_append, h.source, ← Node.at?_append, hat]
  have hthere := h.there rel hmem
  rw [deliver_of_file hat] at hthere ⊢
  rw [deliver_of_file (d := { e with clock }) hat']
  by_cases hb : blocked d (dst ++ rel) = true
  · rw [if_pos hb, if_pos (show blocked { e with clock } (dst ++ rel) = true from (h.blocked_iff hmem).mpr hb)]
  · rw [if_neg hb] at hthere ⊢
    rw [if_neg (show ¬ blocked { e with clock } (dst ++ rel) = true from fun hb' => hb ((h.blocked_iff hmem).mp hb')),
      hthere, carried_carried]

/-- Where source and target are apart, a run copies each included file to the place that mirrors its
own, and counts those that came whole; it changes nothing else. A second run counts as many, and
leaves all files as they are. -/
theorem generate_mirrors_source (d : Disk) (source target : Path) (src dst : List String) (m : Manifest)
    (hk : Packable d source target src dst) :
    ∃ (files : List (List String)) (n : Nat) (e : Disk), files.Nodup ∧ (∀ rel, rel ∈ files ↔ Included d src m rel) ∧
      (generate source target m).on d = (.ok n, e) ∧
      n = (files.filter fun rel => (deliver d src dst rel).2).length ∧
      (∀ rel ∈ files, e.top.at? (dst ++ rel) = (deliver d src dst rel).1) ∧
      (∀ q, (∀ rel ∈ files, q ≠ dst ++ rel) →
        e.top.shape? q = d.top.shape? q ∨ d.top.shape? q = none ∧ e.top.shape? q = some .dir) ∧
      e.top.at? src = d.top.at? src ∧
      ∀ clock, ∃ e', (generate source target m).on { e with clock } = (.ok n, e') ∧
        ∀ q c mode t, e'.top.at? q = some (.file c mode t) ↔ e.top.at? q = some (.file c mode t) := by
  obtain ⟨files, e, hnodup, hmem, h, hrun⟩ := generate_mirrored hk m
  refine ⟨files, _, e, hnodup, hmem, hrun, counted_entries d src dst files, h.there, h.elsewhere, h.source, fun clock => ?_⟩
  obtain ⟨files', e', hnodup', hmem', h', hrun'⟩ := generate_mirrored (h.packable hk clock) m
  have hperm : files'.Perm files := by
    rw [List.perm_ext_iff_of_nodup hnodup' hnodup]
    intro rel
    rw [hmem, hmem', Included, Included]
    dsimp only
    rw [Node.at?_append, h.source, ← Node.at?_append]
  refine ⟨e', ?_, fun q c mode t => ?_⟩
  · rw [hrun', counted_entries, counted_entries, (hperm.filter _).length_eq]
    congr 3
    exact List.filter_congr fun rel hrel => by rw [h.deliver_again hrel]
  · by_cases hq : ∃ rel ∈ files', q = dst ++ rel
    · obtain ⟨rel, hrel, rfl⟩ := hq
      rw [h'.there rel hrel, h.deliver_again (hperm.mem_iff.mp hrel)]
    · simp only [← Node.shape?_eq_file]
      rcases h'.elsewhere q (fun rel hrel heq => hq ⟨rel, hrel, heq⟩) with heq | ⟨hnone, hdir⟩
      · rw [heq]
      · simp [hdir, show e.top.shape? q = none from hnone]

end Runs

/-! ## A workshop -/

/-- A source with a script and a note, and a target with an older note that may not be written. -/
def workshop : Disk :=
  ⟨.dir ⟨0, false⟩
    [("p", .dir ⟨0, false⟩ [("run.sh", .file "a".toUTF8 0o644 ⟨5, false⟩), ("note", .file "b".toUTF8 0o644 ⟨6, false⟩)]),
      ("q", .dir ⟨0, false⟩ [("keep", .file "c".toUTF8 0o644 ⟨7, false⟩),
        ("out", .dir ⟨0, false⟩ [("note", .file "d".toUTF8 0o444 ⟨8, false⟩)])])], [], 9⟩

/-- A manifest that includes both files. -/
def workshopManifest : Manifest := ⟨[.literal "run.sh", .literal "note"], [], []⟩

theorem workshop_source {rel : List String} {n : Node} (hr : rel ≠ []) (h : workshop.top.at? (["p"] ++ rel) = some n) :
    (rel = ["run.sh"] ∧ n = .file "a".toUTF8 0o644 ⟨5, false⟩) ∨ rel = ["note"] ∧ n = .file "b".toUTF8 0o644 ⟨6, false⟩ := by
  obtain ⟨name, rest, rfl⟩ := List.exists_cons_of_ne_nil hr
  obtain ⟨dir, hdir, h⟩ := Option.bind_eq_some_iff.mp h
  cases hdir
  obtain ⟨m, hl, hm⟩ := Option.bind_eq_some_iff.mp h
  have hmem := Entries.mem_of_lookup hl
  simp only [List.mem_cons, List.not_mem_nil, or_false, Prod.mk.injEq] at hmem
  rcases hmem with ⟨rfl, rfl⟩ | ⟨rfl, rfl⟩
  · obtain ⟨rfl, rfl⟩ := (at?_of_leaf (by simp)).mp hm
    exact Or.inl ⟨rfl, rfl⟩
  · obtain ⟨rfl, rfl⟩ := (at?_of_leaf (by simp)).mp hm
    exact Or.inr ⟨rfl, rfl⟩

theorem workshop_included (rel : List String) :
    Included workshop ["p"] workshopManifest rel ↔ rel ∈ [["run.sh"], ["note"]] := by
  constructor
  · rintro ⟨⟨c, mode, t, hat⟩, -⟩
    have hr : rel ≠ [] := by
      rintro rfl
      cases hat
    rcases workshop_source hr hat with ⟨rfl, -⟩ | ⟨rfl, -⟩ <;> simp
  · intro hmem
    have hnames : ∀ rel ∈ [["run.sh"], ["note"]], workshopManifest.includes (nameOf rel) = true := by decide +kernel
    refine ⟨?_, hnames rel hmem⟩
    simp only [List.mem_cons, List.not_mem_nil, or_false] at hmem
    rcases hmem with rfl | rfl
    · exact ⟨_, _, _, rfl⟩
    · exact ⟨_, _, _, rfl⟩

theorem workshop_packable : Packable workshop (Path.ofText "/p") (Path.ofText "/q/out") ["p"] ["q", "out"] where
  proper := by decide
  named := Path.named_ofText _
  takes := by decide
  reaches := reaches_of_find (d := workshop) (p := Path.ofText "/p") rfl
  aims := by
    have hout : Path.ofText "/q/out" = (Path.ofText "/q").join ⟨["out"]⟩ := by decide
    refine ⟨Path.ofText "/q", ["q"], ["out"], reaches_of_find (d := workshop) (p := Path.ofText "/q") rfl, rfl,
      by unfold Fits; decide, fun rel hr hn => ?_, fun pre link hpre => ?_⟩
    · rw [hout, Path.join_join (by simp) (by decide) hn]
    · rcases List.prefix_concat_iff.mp (show pre <+: [] ++ ["out"] from hpre) with rfl | hpre
      · intro hat
        cases hat
      · rw [List.prefix_nil.mp hpre]
        intro hat
        cases hat
  apart := by decide
  linkless := by
    rintro q link ⟨rest, rfl⟩ hat
    rw [Node.at?_append] at hat
    obtain ⟨dir, hdir, hat⟩ := Option.bind_eq_some_iff.mp hat
    cases hdir
    cases rest with
    | nil => cases hat
    | cons name rest =>
      obtain ⟨n, hl, hn⟩ := Option.bind_eq_some_iff.mp hat
      have hmem := Entries.mem_of_lookup hl
      simp only [List.mem_cons, List.not_mem_nil, or_false, Prod.mk.injEq] at hmem
      obtain ⟨-, rfl⟩ := hmem
      cases ((at?_of_leaf (by simp)).mp hn).2
  limits := by
    intro rel n hr hat
    rcases workshop_source hr hat with ⟨rfl, -⟩ | ⟨rfl, -⟩
    · unfold Plain Fits
      decide
    · unfold Plain Fits
      decide

theorem workshop_script : deliver workshop ["p"] ["q", "out"] ["run.sh"] =
    (some (.file "a".toUTF8 0o755 ⟨5, false⟩), true) := by
  rfl

theorem workshop_note : deliver workshop ["p"] ["q", "out"] ["note"] =
    (some (.file "d".toUTF8 0o444 ⟨8, false⟩), false) := by
  rfl

theorem workshop_files {files : List (List String)} (hnodup : files.Nodup)
    (hmem : ∀ rel, rel ∈ files ↔ Included workshop ["p"] workshopManifest rel) : files.Perm [["run.sh"], ["note"]] := by
  rw [List.perm_ext_iff_of_nodup hnodup (by decide)]
  exact fun rel => (hmem rel).trans (workshop_included rel)

theorem workshop_count {files : List (List String)} (h : files.Perm [["run.sh"], ["note"]]) :
    (files.filter fun rel => (deliver workshop ["p"] ["q", "out"] rel).2).length = 1 := by
  rw [(h.filter _).length_eq]
  simp [workshop_script, workshop_note]

/-- The script comes to its place, with its time and made executable, and what is beside the target stays. -/
theorem workshop_is_mirrored :
    let source := Path.ofText "/p"
    let target := Path.ofText "/q/out"
    Packable workshop source target ["p"] ["q", "out"] ∧
      ∃ e, (generate source target workshopManifest).on workshop = (.ok 1, e) ∧
        e.top.at? ["q", "out", "run.sh"] = some (.file "a".toUTF8 0o755 ⟨5, false⟩) ∧
        e.top.at? ["q", "keep"] = some (.file "c".toUTF8 0o644 ⟨7, false⟩) ∧
        ∀ clock, ∃ e', (generate source target workshopManifest).on { e with clock } = (.ok 1, e') ∧
          e'.top.at? ["q", "out", "run.sh"] = some (.file "a".toUTF8 0o755 ⟨5, false⟩) := by
  intro source target
  obtain ⟨files, n, e, hnodup, hmem, hrun, hn, hthere, helsewhere, -, hagain⟩ :=
    generate_mirrors_source workshop source target ["p"] ["q", "out"] workshopManifest workshop_packable
  have hfiles := workshop_files hnodup hmem
  obtain rfl : n = 1 := hn.trans (workshop_count hfiles)
  have hscript : e.top.at? ["q", "out", "run.sh"] = some (.file "a".toUTF8 0o755 ⟨5, false⟩) := by
    rw [show ["q", "out", "run.sh"] = ["q", "out"] ++ ["run.sh"] from rfl, hthere _ (hfiles.mem_iff.mpr (by simp)),
      workshop_script]
  refine ⟨workshop_packable, e, hrun, hscript, ?_, fun clock => ?_⟩
  · rw [← Node.shape?_eq_file]
    rcases helsewhere ["q", "keep"] (by simp) with heq | ⟨hnone, -⟩
    · exact heq
    · cases hnone
  · obtain ⟨e', hrun', hsame⟩ := hagain clock
    exact ⟨e', hrun', (hsame _ _ _ _).mpr hscript⟩

/-- A file is passed over, and does not count, if its place is taken by one that may not be written. -/
theorem workshop_note_is_passed_over :
    Included workshop ["p"] workshopManifest ["run.sh"] ∧ Included workshop ["p"] workshopManifest ["note"] ∧
      workshop.top.at? ["p", "note"] = some (.file "b".toUTF8 0o644 ⟨6, false⟩) ∧
      ∃ e, (generate (Path.ofText "/p") (Path.ofText "/q/out") workshopManifest).on workshop = (.ok 1, e) ∧
        e.top.at? ["q", "out", "note"] = some (.file "d".toUTF8 0o444 ⟨8, false⟩) := by
  refine ⟨(workshop_included _).mpr (by simp), (workshop_included _).mpr (by simp), rfl, ?_⟩
  obtain ⟨files, e, hnodup, hmem, h, hrun⟩ := generate_mirrored workshop_packable workshopManifest
  have hfiles := workshop_files hnodup hmem
  rw [counted_entries, workshop_count hfiles] at hrun
  refine ⟨e, hrun, ?_⟩
  rw [show ["q", "out", "note"] = ["q", "out"] ++ ["note"] from rfl, h.there _ (hfiles.mem_iff.mpr (by simp)),
    workshop_note]

end Outfitter.Packaging
