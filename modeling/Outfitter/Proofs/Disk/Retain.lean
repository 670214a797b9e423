import Outfitter.Proofs.Disk.Edit
import Outfitter.Proofs.Disk.Links

/-! # Disks that retain files

A disk retains what another has at a place if it has the same file there, whatever its time, or a
directory where the other has one. What paths show of files then stays the same. A disk from which
a later run goes on retains everything.
-/

namespace Outfitter

namespace Node

mutual

theorem isPlain_settled : (n : Node) → n.settled.isPlain = n.isPlain
  | .file .. => by rw [settled_file]; rfl
  | .link _ => by rw [settled_link]
  | .dir _ es => by
    rw [settled_dir]
    exact isPlainEntries_settled es

theorem isPlainEntries_settled : (es : Entries) → isPlainEntries (settledEntries es) = isPlainEntries es
  | [] => by rw [settledEntries]
  | (name, n) :: es => by
    have hnames : ∀ es : Entries, (settledEntries es).any (·.1 == name) = es.any (·.1 == name) := by
      intro es
      induction es with
      | nil => rw [settledEntries]
      | cons e es ih => rw [settledEntries, List.any_cons, List.any_cons, ih]
    rw [settledEntries, isPlainEntries, isPlainEntries, hnames, isPlain_settled n, isPlainEntries_settled es]

end

end Node

namespace Disk

variable {allow : Edit → List String → Prop} {a b c : Disk} {q rel : List String} {root : Path} {text : String}

/-- Where one disk has a file or a directory, another has one too. -/
structure Outlasts (a b : Disk) (q : List String) : Prop where
  file : (∃ c m t, a.top.at? q = some (.file c m t)) → ∃ c m t, b.top.at? q = some (.file c m t)
  dir : a.top.shape? q = some .dir → b.top.shape? q = some .dir

/-- A text that is read from a file can be read from each disk with the same file. -/
theorem readText_of_file (hlb : b.top.LinkFree) (hla : a.top.LinkFree) (hcwd : b.cwd = a.cwd) (ha : a.Leads root)
    (hn : ∀ s ∈ rel, isName s = true) (hr : rel ≠ [])
    (h : ∀ c m, (∃ t, b.top.at? (a.place root ++ rel) = some (.file c m t)) →
      ∃ t, a.top.at? (a.place root ++ rel) = some (.file c m t))
    (hb : b.readText (root.join ⟨rel⟩) = .ok text) : a.readText (root.join ⟨rel⟩) = .ok text := by
  obtain ⟨place, c, mode, t, hfind, hmode, htext⟩ := readText_ok hb
  obtain ⟨rfl, hat⟩ := find_ok hlb hfind
  rw [place_join hn hr, place_of_cwd hcwd] at hat
  obtain ⟨t', hat'⟩ := h c mode ⟨t, hat⟩
  have hadmits : a.Admits (root.join ⟨rel⟩) := by
    rw [Admits, ← trail_of_cwd hcwd]
    exact locate_admits hlb (find_ok_iff.mp hfind)
  exact readText_of_find (find_ok_iff.mpr (locate_join hla ha hn hr hadmits hat')) hmode htext

/-- What one disk has at a place, another retains. -/
structure Retains (a b : Disk) (q : List String) : Prop where
  file : ∀ c m, (∃ t, b.top.at? q = some (.file c m t)) ↔ ∃ t, a.top.at? q = some (.file c m t)
  dir : a.top.shape? q = some .dir → b.top.shape? q = some .dir

namespace Outlasts

theorem trans (h : Outlasts a b q) (h' : Outlasts b c q) : Outlasts a c q :=
  ⟨fun hf => h'.file (h.file hf), fun hd => h'.dir (h.dir hd)⟩

theorem there (h : Outlasts a b q) (hl : a.top.LinkFree) (hat : a.top.at? q ≠ none) : b.top.at? q ≠ none := by
  obtain ⟨n, hn⟩ := Option.ne_none_iff_exists'.mp hat
  cases n with
  | file c m t =>
    obtain ⟨c', m', t', hb⟩ := h.file ⟨c, m, t, hn⟩
    simp [hb]
  | link target => exact absurd hn (hl _ _)
  | dir t es =>
    obtain ⟨t', es', hb⟩ := Node.shape?_eq_dir.mp (h.dir (Node.shape?_eq_dir.mpr ⟨t, es, hn⟩))
    simp [hb]

theorem isThere (h : Outlasts a b (a.place root ++ rel)) (hla : a.top.LinkFree) (hlb : b.top.LinkFree)
    (hcwd : b.cwd = a.cwd) (hb : b.Leads root) (hn : ∀ s ∈ rel, isName s = true) (hr : rel ≠ [])
    (ha : a.isThere (root.join ⟨rel⟩) = true) : b.isThere (root.join ⟨rel⟩) = true := by
  cases hfind : a.find (root.join ⟨rel⟩) with
  | error e => simp [Disk.isThere, hfind, Except.isOk, Except.toBool] at ha
  | ok found =>
    obtain ⟨place, n⟩ := found
    obtain ⟨rfl, hat⟩ := find_ok hla hfind
    rw [place_join hn hr] at hat
    obtain ⟨m, hm⟩ := Option.ne_none_iff_exists'.mp (h.there hla (by simp [hat]))
    have hadmits : b.Admits (root.join ⟨rel⟩) := by
      rw [Admits, trail_of_cwd hcwd]
      exact locate_admits hla (find_ok_iff.mp hfind)
    rw [← place_of_cwd hcwd] at hm
    have hfind' := find_ok_iff.mpr (locate_join hlb hb hn hr hadmits hm)
    rw [Disk.isThere, hfind']
    rfl

end Outlasts

namespace Retains

theorem outlasts (h : Retains a b q) : Outlasts a b q where
  file := by
    rintro ⟨c, m, hf⟩
    exact ⟨c, m, (h.file c m).mpr hf⟩
  dir := h.dir

theorem later (a : Disk) (clock : Nat) (q : List String) : Retains a (a.later clock) q := by
  have hat : (a.later clock).top.at? q = (a.top.at? q).map Node.settled := Node.at?_settled a.top q
  constructor
  · intro c m
    rw [hat]
    cases a.top.at? q with
    | none => simp
    | some n => cases n <;> simp [Node.settled]
  · simp only [Node.shape?_eq_dir, hat]
    rintro ⟨t, es, hd⟩
    exact ⟨_, _, by rw [hd, Option.map_some, Node.settled_dir]⟩

/-- The text of a file is retained. -/
theorem readText (h : Retains a b (a.place root ++ rel)) (hlb : b.top.LinkFree) (hla : a.top.LinkFree)
    (hcwd : b.cwd = a.cwd) (ha : a.Leads root) (hn : ∀ s ∈ rel, isName s = true) (hr : rel ≠ [])
    (hb : b.readText (root.join ⟨rel⟩) = .ok text) : a.readText (root.join ⟨rel⟩) = .ok text :=
  readText_of_file hlb hla hcwd ha hn hr (fun c m => (h.file c m).mp) hb

end Retains

/-- Edits that at most make or touch a directory at a place. -/
theorem Steps.retains (hq : ∀ e, allow e q → e = .make ∨ e = .touch) (hs : Spared allow q) (h : Steps allow a b) :
    Retains a b q where
  file := fun _ _ => exists_congr fun _ => h.file_iff hq hs
  dir := h.dir hs

theorem Steps.outlasts (hs : Spared allow q) (hu : ¬ allow .unlink q) (h : Steps allow a b) : Outlasts a b q :=
  ⟨h.isFile hs hu, h.dir hs⟩

/-- A run on the disk `b` goes on from the disk `a`. -/
structure Resumes (a b : Disk) : Prop where
  plain : b.top.isPlain = true
  cwd : b.cwd = a.cwd
  retains : ∀ q, Retains a b q

namespace Resumes

/-- The next run starts at another time, at once or when the disk has settled. -/
theorem of_mem {clock : Nat} (hp : a.top.isPlain = true) (h : b ∈ [{ a with clock }, a.later clock]) : Resumes a b := by
  rcases List.mem_cons.mp h with rfl | h
  · exact ⟨hp, rfl, fun _ => ⟨fun _ _ => Iff.rfl, id⟩⟩
  · rw [List.mem_singleton] at h
    subst h
    exact ⟨(Node.isPlain_settled a.top).trans hp, rfl, Retains.later a clock⟩

theorem leads (h : Resumes a b) (hp : a.top.isPlain = true) (ha : a.Leads root) : b.Leads root := by
  rw [leads_iff (Node.linkFree_of_isPlain h.plain), trail_of_cwd h.cwd]
  obtain ⟨htakes, hdirs⟩ := (leads_iff (Node.linkFree_of_isPlain hp)).mp ha
  exact ⟨htakes, fun ys hys => (h.retains _).dir (hdirs ys hys)⟩

theorem isFile (h : Resumes a b) (hp : a.top.isPlain = true) (hn : ∀ s ∈ rel, isName s = true) (hr : rel ≠ [])
    (ha : a.isFile (root.join ⟨rel⟩) = true) : b.isFile (root.join ⟨rel⟩) = true := by
  rw [isFile_join_iff (Node.linkFree_of_isPlain hp) hn hr] at ha
  obtain ⟨hadmits, hroot, hfile⟩ := ha
  rw [isFile_join_iff (Node.linkFree_of_isPlain h.plain) hn hr, place_of_cwd h.cwd, Admits, trail_of_cwd h.cwd]
  exact ⟨hadmits, h.leads hp hroot, (h.retains _).outlasts.file hfile⟩

end Resumes

end Disk

end Outfitter
