import Outfitter.Proofs.Disk.Links
import Outfitter.Proofs.Disk.Operations

/-! # Entries behind links

A path whose last name is looked up in a directory names an entry of it, whatever links the way
to the directory passes. Files can come, change and go without moving directories and links: the
path then names the same entry as before.
-/

namespace Outfitter

/-- Neither a directory nor a link: nothing, or a file. -/
def Shape.Loose (s : Option Shape) : Prop := s ≠ some .dir ∧ ∀ target, s ≠ some (.link target)

theorem Shape.loose_none : Loose none := by simp [Loose]

theorem Shape.loose_file (c : ByteArray) (mode : Nat) (t : Stamp) : Loose (some (.file c mode t)) := by simp [Loose]

theorem Shape.loose_cases {s : Option Shape} (h : Loose s) : s = none ∨ ∃ c mode t, s = some (.file c mode t) := by
  rcases s with _ | s
  · exact Or.inl rfl
  · cases s with
    | file c mode t => exact Or.inr ⟨c, mode, t, rfl⟩
    | link target => exact absurd rfl (h.2 target)
    | dir => exact absurd rfl h.1

theorem Node.loose_of_file {n : Node} {q : List String} {c : ByteArray} {mode : Nat} {t : Stamp}
    (h : n.at? q = some (.file c mode t)) : Shape.Loose (n.shape? q) := by
  rw [shape?, h]
  exact Shape.loose_file _ _ _

theorem Node.loose_of_none {n : Node} {q : List String} (h : n.at? q = none) : Shape.Loose (n.shape? q) := by
  rw [shape?, h]
  exact Shape.loose_none

/-- The place of what is there, or could be put there. -/
def Spot.place : Spot → List String
  | .there place _ => place
  | .vacant above name => above ++ [name]

/-- A spot is as the tree has it. -/
def Spot.Sound (top : Node) : Spot → Prop
  | .there place n => top.at? place = some n
  | .vacant above name => top.shape? above = some .dir ∧ top.at? (above ++ [name]) = none

namespace Disk

variable {d d' d'' : Disk} {p source target : Path} {place above : List String} {name : String} {n : Node}
  {top : Node} {here names : List String} {links : Nat} {spot : Spot} {c c' : ByteArray} {mode mode' : Nat} {t t' : Stamp} {es : Entries} {follow : Bool}

/-! ## Files that come and go -/

/-- Two disks have the same directories and links. -/
structure Agrees (d d' : Disk) : Prop where
  cwd : d'.cwd = d.cwd
  dir : ∀ q, d'.top.shape? q = some .dir ↔ d.top.shape? q = some .dir
  link : ∀ q target, d'.top.shape? q = some (.link target) ↔ d.top.shape? q = some (.link target)

theorem Agrees.refl (d : Disk) : Agrees d d := ⟨rfl, fun _ => Iff.rfl, fun _ _ => Iff.rfl⟩

theorem Agrees.trans (h : Agrees d d') (h' : Agrees d' d'') : Agrees d d'' where
  cwd := h'.cwd.trans h.cwd
  dir := fun q => (h'.dir q).trans (h.dir q)
  link := fun q target => (h'.link q target).trans (h.link q target)

theorem Agrees.loose {q : List String} (h : Agrees d d') (hq : Shape.Loose (d.top.shape? q)) :
    Shape.Loose (d'.top.shape? q) :=
  ⟨fun hd => hq.1 ((h.dir q).mp hd), fun target hl => hq.2 target ((h.link q target).mp hl)⟩

/-- Two disks have the same shapes but at one place. -/
structure Differs (place : List String) (d d' : Disk) : Prop where
  cwd : d'.cwd = d.cwd
  elsewhere : ∀ q, q ≠ place → d'.top.shape? q = d.top.shape? q

theorem Differs.agrees (h : Differs place d d') (hold : Shape.Loose (d.top.shape? place))
    (hnew : Shape.Loose (d'.top.shape? place)) : Agrees d d' where
  cwd := h.cwd
  dir := by
    intro q
    by_cases hq : q = place
    · rw [hq]
      exact ⟨fun hd => absurd hd hnew.1, fun hd => absurd hd hold.1⟩
    · rw [h.elsewhere q hq]
  link := by
    intro q target
    by_cases hq : q = place
    · rw [hq]
      exact ⟨fun hl => absurd hl (hnew.2 target), fun hl => absurd hl (hold.2 target)⟩
    · rw [h.elsewhere q hq]

/-- A change of an entry below which nothing lies. -/
theorem differs_alter {touch : Option Stamp} {f : Option Node → Option Node} {es : Entries}
    (hd : d.top.at? above = some (.dir t es)) (hold : (es.lookup name).map Node.shape ≠ some .dir)
    (hnew : (f (es.lookup name)).map Node.shape ≠ some .dir) :
    Differs (above ++ [name]) d { d with top := d.top.alter touch f (above ++ [name]) } := by
  have hbelow {o : Option Node} (ho : o.map Node.shape ≠ some .dir) {rest : List String} (hr : rest ≠ []) :
      o.bind (·.at? rest) = none := by
    obtain ⟨a, rest, rfl⟩ := List.exists_cons_of_ne_nil hr
    rcases o with _ | n
    · rfl
    · cases n with
      | file => rfl
      | link => rfl
      | dir => exact absurd rfl ho
  refine ⟨rfl, fun q hq => ?_⟩
  by_cases hpre : above ++ [name] <+: q
  · obtain ⟨rest, rfl⟩ := hpre
    have hr : rest ≠ [] := by
      rintro rfl
      exact hq (List.append_nil _)
    have hafter : (d.top.alter touch f (above ++ [name])).at? (above ++ name :: rest) = none :=
      (Node.at?_alter_self hd).trans (hbelow hnew hr)
    have hbefore : d.top.at? (above ++ name :: rest) = none := by
      rw [Node.at?_append, hd, Option.bind_some, Node.at?_dir_cons]
      exact hbelow hold hr
    rw [List.append_assoc, List.singleton_append, Node.shape?, Node.shape?, hafter, hbefore]
  · exact Node.shape?_alter hpre

/-- What is no directory is put where no directory is. -/
theorem differs_put (hd : d.top.shape? above = some .dir) (hold : d.top.shape? (above ++ [name]) ≠ some .dir)
    (hn : n.shape ≠ .dir) :
    Differs (above ++ [name]) d (d.put (above ++ [name]) n) ∧
      (d.put (above ++ [name]) n).top.at? (above ++ [name]) = some n := by
  obtain ⟨t, es, hat⟩ := Node.shape?_eq_dir.mp hd
  rw [Node.shape?, Node.at?_child hat] at hold
  exact ⟨differs_alter hat hold (by simpa using hn), at?_put ⟨t, es, hat⟩ _⟩

theorem differs_update (h : d.top.at? (above ++ [name]) = some (.file c mode t)) :
    Differs (above ++ [name]) d (d.update (above ++ [name]) fun _ => .file c' mode' t') ∧
      (d.update (above ++ [name]) fun _ => .file c' mode' t').top.at? (above ++ [name]) =
        some (.file c' mode' t') := by
  obtain ⟨_, es, hat, hlookup⟩ := (Node.at?_concat _ _ _).mp h
  refine ⟨differs_alter hat ?_ ?_, at?_update h (by simp)⟩
  · simp [hlookup, Node.shape]
  · simp [hlookup, Node.shape]

theorem differs_erase (h : d.top.at? (above ++ [name]) = some n) (hn : n.shape ≠ .dir) :
    Differs (above ++ [name]) d (d.erase (above ++ [name])) ∧
      (d.erase (above ++ [name])).top.at? (above ++ [name]) = none := by
  obtain ⟨_, es, hat, hlookup⟩ := (Node.at?_concat _ _ _).mp h
  refine ⟨differs_alter hat ?_ (by simp), at?_erase h (by simp)⟩
  simpa [hlookup] using hn

/-! ## Spots -/

theorem trace_vacant (hname : name ≠ "..") (hsize : name.utf8ByteSize ≤ nameLimit)
    (h : es.lookup name = none) :
    trace top follow links here (.dir t es) [name] = .ok (.vacant here.reverse name) := by
  cases links <;> rw [trace, descend, if_neg hname, if_neg (by omega), h] <;> rfl

theorem trace_tooLong (hname : name ≠ "..") (hsize : nameLimit < name.utf8ByteSize) :
    trace top follow links here (.dir t es) [name] = .error .tooLong := by
  cases links <;> rw [trace, descend, if_neg hname, if_pos hsize]

/-- A last link that is not to be followed. -/
theorem trace_stay {target : Path} (hname : name ≠ "..") (hsize : name.utf8ByteSize ≤ nameLimit)
    (h : es.lookup name = some (.link target)) :
    trace top false links here (.dir t es) [name] = .ok (.there (name :: here).reverse (.link target)) := by
  cases links <;> rw [trace, descend, if_neg hname, if_neg (by omega), h] <;> rfl

/-- Above a directory there are directories. -/
theorem shape?_tail (h : top.shape? here.reverse = some .dir) :
    top.shape? here.tail.reverse = some .dir := by
  cases here with
  | nil => exact h
  | cons a here =>
    obtain ⟨t, es, hat⟩ := Node.shape?_eq_dir.mp h
    rw [List.reverse_cons] at hat
    exact Node.dir_above hat

theorem trace_sound (hn : top.at? here.reverse = some n) (h : trace top follow links here n names = .ok spot) :
    spot.Sound top := by
  -- a link leaves fewer links to follow, any other name fewer names
  induction links using Nat.strongRecOn generalizing here n names with
  | _ links ihlinks =>
  induction names generalizing here n with
  | nil =>
    rw [trace_nil] at h
    cases h
    exact hn
  | cons name names ih =>
    obtain ⟨t, es, rfl, ⟨rfl, m, hm, hrest⟩ | ⟨hname, hsize, hcases⟩⟩ := trace_cons_ok h
    · exact ih hm hrest
    · have hchild := at?_child_reverse hn name
      obtain ⟨m, hm, hl, hrest⟩ | ⟨target, left, hm, rfl, -, hrest⟩ | ⟨target, hm, -, -, rfl⟩ | ⟨hm, -, rfl⟩ :=
        hcases
      · exact ih (hchild.trans hm) hrest
      · exact ihlinks left (Nat.lt_succ_self left) (at?_onward hn target) hrest
      · exact hchild.trans hm
      · rw [List.reverse_cons] at hchild
        exact ⟨Node.shape?_eq_dir.mpr ⟨t, es, hn⟩, hchild.trans hm⟩

theorem locate_sound (h : d.locate follow p = .ok spot) : spot.Sound d.top := by
  rw [locate_eq_settle (takes_of_locate h)] at h
  exact trace_sound (Node.at?_nil _) (settle_ok h).1

theorem steps_of_loose (h : d.locate follow p = .ok spot) (hl : Shape.Loose (d.top.shape? spot.place)) :
    p.steps ≠ [] := by
  intro hno
  obtain ⟨place, t, es, rfl⟩ := locate_of_no_steps hno h
  exact hl.1 (Node.shape?_eq_dir.mpr ⟨t, es, locate_sound h⟩)

/-- A way to a file that leads over the same directories and links. -/
theorem Agrees.trace {n' : Node} (h : Agrees d d') (hn : d.top.at? here.reverse = some n)
    (hn' : d'.top.at? here.reverse = some n') (ht : trace d.top follow links here n names = .ok spot)
    (hl : Shape.Loose (d.top.shape? spot.place)) (hm : d'.top.at? spot.place = some (.file c mode t)) :
    Disk.trace d'.top follow links here n' names = .ok (.there spot.place (.file c mode t)) := by
  induction links using Nat.strongRecOn generalizing here n n' names with
  | _ links ihlinks =>
  induction names generalizing here n n' with
  | nil =>
    rw [trace_nil] at ht
    cases ht
    rw [Spot.place, hn'] at hm
    cases hm
    exact trace_nil ..
  | cons name names ih =>
    obtain ⟨t₀, es, rfl, hcases⟩ := trace_cons_ok ht
    obtain ⟨t', es', hdir⟩ := Node.shape?_eq_dir.mp ((h.dir _).mpr (Node.shape?_eq_dir.mpr ⟨t₀, es, hn⟩))
    rw [hn'] at hdir
    cases hdir
    obtain ⟨rfl, m, hup, hrest⟩ | ⟨hname, hsize, hcases⟩ := hcases
    · obtain ⟨t', es', hup'⟩ :=
        Node.shape?_eq_dir.mp ((h.dir _).mpr (shape?_tail (Node.shape?_eq_dir.mpr ⟨_, _, hn⟩)))
      rw [trace_up hup']
      exact ih hup hup' hrest
    · have hchild := at?_child_reverse hn name
      have hchild' := at?_child_reverse hn' name
      obtain ⟨m, hk, hlink, hrest⟩ | ⟨target, left, hk, rfl, hr, hrest⟩ | ⟨target, hk, -, -, rfl⟩ | ⟨hk, rfl, rfl⟩ :=
        hcases
      · obtain ⟨k, hk', hlink'⟩ : ∃ k, d'.top.at? (name :: here).reverse = some k ∧ ∀ target, k ≠ .link target := by
          cases names with
          | nil =>
            rw [trace_nil] at hrest
            cases hrest
            exact ⟨_, hm, by simp⟩
          | cons a names =>
            obtain ⟨t₁, es₁, rfl, -⟩ := trace_cons_ok hrest
            obtain ⟨t₂, es₂, hdir⟩ :=
              Node.shape?_eq_dir.mp ((h.dir _).mpr (Node.shape?_eq_dir.mpr ⟨t₁, es₁, hchild.trans hk⟩))
            exact ⟨_, hdir, by simp⟩
        rw [trace_down hname hsize (hchild'.symm.trans hk') hlink']
        exact ih (hchild.trans hk) hk' hrest
      · have hk' := Node.shape?_eq_link.mp ((h.link _ _).mpr (Node.shape?_eq_link.mpr (hchild.trans hk)))
        rw [trace_link hname hsize (hchild'.symm.trans hk') hr]
        exact ihlinks left (Nat.lt_succ_self left) (at?_onward hn target) (at?_onward hn' target) hrest
      · exact absurd (Node.shape?_eq_link.mpr (hchild.trans hk)) (hl.2 target)
      · have hk' : d'.top.at? (name :: here).reverse = some (.file c mode t) := by rwa [List.reverse_cons]
        rw [trace_down hname hsize (hchild'.symm.trans hk') (by simp), trace_nil, List.reverse_cons]
        rfl

/-- A path to a file, or to nothing yet, leads to the file that is there later. -/
theorem Agrees.locate (h : Agrees d d') (hs : d.locate follow p = .ok spot)
    (hl : Shape.Loose (d.top.shape? spot.place)) (hi : p.endsIdle = false)
    (hm : d'.top.at? spot.place = some (.file c mode t)) :
    d'.locate follow p = .ok (.there spot.place (.file c mode t)) := by
  have ht := takes_of_locate hs
  have hne := steps_of_loose hs hl
  rw [locate_eq_settle ht, settle_of_steps hne hi] at hs ⊢
  rw [trail_of_cwd h.cwd]
  exact h.trace (Node.at?_nil _) (Node.at?_nil _) hs hl hm

/-- A file is no top: a path that leads to one ends at an entry. -/
theorem concat_of_file (h : d.locate follow p = .ok (.there place (.file c mode t))) :
    ∃ above name, place = above ++ [name] := by
  have hne : d.trail p ≠ [] := by simp [trail, steps_of_file h]
  have hat : d.top.at? place = some (.file c mode t) := locate_sound h
  have hplace : place ≠ [] := by
    rintro rfl
    rw [locate_eq_settle (takes_of_locate h)] at h
    obtain ⟨name, rest, htrail⟩ := List.exists_cons_of_ne_nil hne
    have htrace := (settle_ok h).1
    rw [htrail] at htrace
    obtain ⟨t', es, htop, -⟩ := trace_cons_ok htrace
    rw [Node.at?_nil, htop] at hat
    cases hat
  exact ⟨_, _, (List.dropLast_append_getLast hplace).symm⟩

/-! ## Files that are written -/

/-- One file came, or changed. -/
structure Refiles (place : List String) (c : ByteArray) (mode : Nat) (d d' : Disk) : Prop where
  differs : Differs place d d'
  loose : Shape.Loose (d.top.shape? place)
  file : d'.top.at? place = some (.file c mode d.now)

namespace Refiles

theorem agrees (h : Refiles place c mode d d') : Agrees d d' :=
  h.differs.agrees h.loose (Node.loose_of_file h.file)

theorem isFile {q : List String} (h : Refiles place c mode d d')
    (hq : ∃ c mode t, d.top.at? q = some (.file c mode t)) : ∃ c mode t, d'.top.at? q = some (.file c mode t) := by
  by_cases hqp : q = place
  · exact ⟨_, _, _, hqp ▸ h.file⟩
  · obtain ⟨c, mode, t, hq⟩ := hq
    exact ⟨c, mode, t, Node.shape?_eq_file.mp ((h.differs.elsewhere q hqp).trans (Node.shape?_eq_file.mpr hq))⟩

end Refiles

theorem refiles_put (hv : d.locate true p = .ok (.vacant above name)) :
    Refiles (above ++ [name]) c mode d (d.put (above ++ [name]) (.file c mode d.now)) := by
  obtain ⟨hdir, hnone⟩ : d.top.shape? above = some .dir ∧ d.top.at? (above ++ [name]) = none := locate_sound hv
  have hl := Node.loose_of_none hnone
  obtain ⟨hput, hat⟩ := differs_put hdir hl.1 (by simp [Node.shape] : (Node.file c mode d.now).shape ≠ .dir)
  exact ⟨hput, hl, hat⟩

theorem refiles_update (h : d.locate true p = .ok (.there place (.file c mode t))) :
    Refiles place c' mode' d (d.update place fun _ => .file c' mode' d.now) := by
  obtain ⟨above, name, rfl⟩ := concat_of_file h
  have hat : d.top.at? (above ++ [name]) = some (.file c mode t) := locate_sound h
  exact ⟨(differs_update hat).1, Node.loose_of_file hat, (differs_update hat).2⟩

theorem write_refiles {bytes : ByteArray} (h : d.write p bytes = .ok d') :
    ∃ spot mode, d.locate true p = .ok spot ∧ p.endsIdle = false ∧ Refiles spot.place bytes mode d d' := by
  unfold write edit at h
  split at h
  · next place c mode t hs =>
    split at h
    · cases h
      exact ⟨_, mode, hs, endsIdle_of_file hs, refiles_update hs⟩
    · cases h
  · cases h
  · next above name hs =>
    split at h
    · cases h
    · next hi =>
      cases h
      exact ⟨_, defaultMode, hs, by simpa using hi, refiles_put hs⟩
  · cases h

theorem copy_refiles (h : d.copy source target = .ok d') : ∃ place c mode, Refiles place c mode d d' := by
  unfold copy at h
  split at h
  · split at h
    · cases h
    · split at h
      · next hs =>
        split at h
        · cases h
          exact ⟨_, _, _, refiles_update hs⟩
        · cases h
      · cases h
      · next hs =>
        split at h
        · cases h
        · cases h
          exact ⟨_, _, _, refiles_put hs⟩
      · cases h
  · cases h
  · cases h

/-- What was written is what is found. -/
theorem find_of_write {bytes : ByteArray} (h : d.write p bytes = .ok d') :
    ∃ place mode, d'.find p = .ok (place, .file bytes mode d.now) := by
  obtain ⟨spot, mode, hs, hi, hr⟩ := write_refiles h
  exact ⟨spot.place, mode, find_ok_iff.mpr (hr.agrees.locate hs hr.loose hi hr.file)⟩

/-! ## Entries -/

/-- A path names an entry of the directory at a place. -/
structure Entry (d : Disk) (p : Path) (above : List String) (name : String) : Prop where
  way : ∃ xs used, d.trail p = xs ++ [name] ∧ used ≤ linkLimit ∧ Follows d.top used [] xs above.reverse
  dir : d.top.shape? above = some .dir
  proper : name ≠ ".."
  size : name.utf8ByteSize ≤ nameLimit
  takes : takes p = true
  ends : p.endsIdle = false
  steps : p.steps ≠ []

namespace Entry

/-- The last step of a path to an entry. -/
theorem locate_eq (e : Entry d p above name) (hd : d.top.at? above = some (.dir t es)) (follow : Bool) :
    ∃ left, d.locate follow p = trace d.top follow left above.reverse (.dir t es) [name] := by
  obtain ⟨xs, used, htrail, hu, hf⟩ := e.way
  obtain ⟨m, hm, htrace⟩ :=
    hf.trace_append (Node.at?_nil _) hu [name] (Or.inl (List.cons_ne_nil name []) : _ ∨ follow = true)
  rw [List.reverse_reverse, hd] at hm
  cases hm
  refine ⟨linkLimit - used, ?_⟩
  rw [locate_eq_settle e.takes, settle_of_steps e.steps e.ends, e.ends, Bool.or_false, ← htrace, ← htrail]

theorem locate_there (e : Entry d p above name) (h : d.top.at? (above ++ [name]) = some n)
    (hl : ∀ target, n ≠ .link target) : d.locate follow p = .ok (.there (above ++ [name]) n) := by
  obtain ⟨t, es, hd, hlookup⟩ := (Node.at?_concat _ _ _).mp h
  obtain ⟨left, hlocate⟩ := e.locate_eq hd follow
  rw [hlocate, trace_down e.proper e.size hlookup hl, trace_nil, List.reverse_cons, List.reverse_reverse]

theorem locate_link {target : Path} (e : Entry d p above name)
    (h : d.top.at? (above ++ [name]) = some (.link target)) :
    d.locate false p = .ok (.there (above ++ [name]) (.link target)) := by
  obtain ⟨t, es, hd, hlookup⟩ := (Node.at?_concat _ _ _).mp h
  obtain ⟨left, hlocate⟩ := e.locate_eq hd false
  rw [hlocate, trace_stay e.proper e.size hlookup, List.reverse_cons, List.reverse_reverse]

theorem locate_vacant (e : Entry d p above name) (h : d.top.at? (above ++ [name]) = none) :
    d.locate follow p = .ok (.vacant above name) := by
  obtain ⟨t, es, hd⟩ := Node.shape?_eq_dir.mp e.dir
  obtain ⟨left, hlocate⟩ := e.locate_eq hd follow
  rw [Node.at?_child hd] at h
  rw [hlocate, trace_vacant e.proper e.size h, List.reverse_reverse]

theorem locate_self {n : Node} (e : Entry d p above name) (h : d.top.at? (above ++ [name]) = some n) :
    d.locate false p = .ok (.there (above ++ [name]) n) := by
  cases n with
  | link target => exact e.locate_link h
  | file => exact e.locate_there h (by simp)
  | dir => exact e.locate_there h (by simp)

theorem agrees (e : Entry d p above name) (h : Agrees d d') : Entry d' p above name := by
  obtain ⟨xs, used, htrail, hu, hf⟩ := e.way
  refine ⟨⟨xs, used, (trail_of_cwd h.cwd p).trans htrail, hu, ?_⟩, (h.dir above).mpr e.dir, e.proper, e.size,
    e.takes, e.ends, e.steps⟩
  refine hf.mono (fun q => (h.dir q).mpr) (fun q target => (h.link q target).mpr) ?_
  rw [List.reverse_reverse]
  exact e.dir

/-- The same file, or nothing, stands at the entry. -/
theorem locate_congr (e : Entry d p above name) (e' : Entry d' p above name)
    (hl : Shape.Loose (d.top.shape? (above ++ [name])))
    (h : d'.top.shape? (above ++ [name]) = d.top.shape? (above ++ [name])) :
    d'.locate follow p = d.locate follow p := by
  rcases Shape.loose_cases hl with hnone | ⟨c, mode, t, hfile⟩
  · rw [e.locate_vacant (Option.map_eq_none_iff.mp hnone),
      e'.locate_vacant (Option.map_eq_none_iff.mp (h.trans hnone))]
  · rw [e.locate_there (Node.shape?_eq_file.mp hfile) (by simp),
      e'.locate_there (Node.shape?_eq_file.mp (h.trans hfile)) (by simp)]

theorem trail_eq (e : Entry d p above name) : d.trail p = (d.trail p).dropLast ++ [name] := by
  obtain ⟨xs, used, htrail, hu, hf⟩ := e.way
  rw [htrail, List.dropLast_concat]

theorem fileName? (e : Entry d p above name) : p.fileName? = some name := by
  obtain ⟨init, hinit⟩ : ∃ init, p.steps = init ++ [name] := by
    have hlast := congrArg List.getLast? e.trail_eq
    rw [trail, List.getLast?_append_of_ne_nil _ e.steps, List.getLast?_concat] at hlast
    exact List.getLast?_eq_some_iff.mp hlast
  rw [Path.fileName?_eq, Path.names_eq_steps, hinit, ← List.append_assoc, List.getLast?_concat]
  exact if_neg e.proper

theorem trail_withFileName {other : String} (e : Entry d p above name) (h : isName other = true) :
    d.trail (p.withFileName other) = (d.trail p).dropLast ++ [other] ∧ (p.withFileName other).endsIdle = false ∧
      (p.withFileName other).steps ≠ [] := by
  obtain ⟨hf, -⟩ | ⟨s, q, -, hq, heq⟩ := Path.withFileName_cases p other
  · rw [e.fileName?] at hf
    cases hf
  · have hjoin : p.withFileName other = q.join ⟨[other]⟩ := by
      rw [heq, ← Path.splitSlash_of_isName h]
      rfl
    have hn : ∀ x ∈ [other], isName x = true := by simpa using h
    rw [hjoin, ← trail_parent e.steps hq]
    exact ⟨trail_join hn (by simp), Path.endsIdle_join (by simp) hn, steps_join_ne_nil hn (by simp)⟩

/-- The path with another file name names another entry of the same directory. -/
theorem withFileName {other : String} (e : Entry d p above name) (h : isName other = true)
    (hsize : other.utf8ByteSize ≤ nameLimit) (ht : Disk.takes (p.withFileName other) = true) :
    Entry d (p.withFileName other) above other := by
  obtain ⟨xs, used, htrail, hu, hf⟩ := e.way
  obtain ⟨htrail', hi, hne⟩ := e.trail_withFileName h
  rw [htrail, List.dropLast_concat] at htrail'
  exact ⟨⟨xs, used, htrail', hu, hf⟩, e.dir, (isName_iff.mp h).2.2.1, hsize, ht, hi, hne⟩

/-- Paths that differ in the last name alone name entries of one directory. -/
theorem beside {q : Path} {above' : List String} {name' : String} (e : Entry d p above name)
    (e' : Entry d q above' name') (h : (d.trail q).dropLast = (d.trail p).dropLast) : above' = above := by
  obtain ⟨xs, used, htrail, -, hf⟩ := e.way
  obtain ⟨xs', used', htrail', -, hf'⟩ := e'.way
  rw [htrail, htrail', List.dropLast_concat, List.dropLast_concat] at h
  rw [h] at hf'
  exact List.reverse_injective (hf'.unique hf)

/-! ## Operations on entries -/

theorem readText {text : String} (e : Entry d p above name)
    (h : d.top.at? (above ++ [name]) = some (.file text.toUTF8 mode t)) (hr : isReadable mode = true) :
    d.readText p = .ok text :=
  readText_of_find (find_ok_iff.mpr (e.locate_there h (by simp))) hr (fromUTF8?_toUTF8 text)

theorem readable_of_readText {text : String} (e : Entry d p above name)
    (h : d.top.at? (above ++ [name]) = some (.file c mode t)) (hr : d.readText p = .ok text) :
    isReadable mode = true := by
  have hfind := find_ok_iff.mpr (e.locate_there h (by simp))
  by_contra hm
  rw [Disk.readText, readBytes, hfind] at hr
  simp only [if_neg hm] at hr
  cases hr

/-- A file that its owner may read and write takes new content, as does a place where nothing is. -/
theorem write (e : Entry d p above name) (bytes : ByteArray)
    (h : ∀ n, d.top.at? (above ++ [name]) = some n →
      ∃ c mode t, n = .file c mode t ∧ isReadable mode = true ∧ isWritable mode = true) :
    ∃ d' mode, d.write p bytes = .ok d' ∧ isReadable mode = true ∧ Refiles (above ++ [name]) bytes mode d d' := by
  cases hat : d.top.at? (above ++ [name]) with
  | none =>
    have hs : d.locate true p = .ok (.vacant above name) := e.locate_vacant hat
    exact ⟨_, defaultMode, edit_of_vacant hs e.ends, by decide, refiles_put hs⟩
  | some n =>
    obtain ⟨c, mode, t, rfl, hr, hw⟩ := h n hat
    have hs : d.locate true p = .ok (.there (above ++ [name]) (.file c mode t)) := e.locate_there hat (by simp)
    exact ⟨_, mode, edit_of_file hs hw, hr, refiles_update hs⟩

theorem removeFile (e : Entry d p above name) (h : d.top.at? (above ++ [name]) = some (.file c mode t)) :
    d.removeFile p = .ok (d.erase (above ++ [name])) := by
  rw [Disk.removeFile, e.locate_there h (by simp)]

theorem ne_of_name {other : String} (h : name ≠ other) : above ++ [name] ≠ above ++ [other] := by
  simpa using h

theorem rename {tmp : String} (es : Entry d source above tmp) (e : Entry d target above name) (hne : tmp ≠ name)
    (hs : d.top.at? (above ++ [tmp]) = some (.file c mode t))
    (hl : Shape.Loose (d.top.shape? (above ++ [name]))) :
    d.rename source target = .ok ((d.erase (above ++ [tmp])).put (above ++ [name]) (.file c mode t)) := by
  have hsource : d.locate false source = .ok (.there (above ++ [tmp]) (.file c mode t)) :=
    es.locate_there hs (by simp)
  rcases Shape.loose_cases hl with hnone | ⟨c', mode', t', hfile⟩
  · have hnone : d.top.at? (above ++ [name]) = none := Option.map_eq_none_iff.mp hnone
    rw [Disk.rename, hsource, e.locate_vacant hnone]
    simp only [e.ends, Bool.false_and, Bool.false_eq_true, if_false]
  · rw [Disk.rename, hsource, e.locate_there (Node.shape?_eq_file.mp hfile) (by simp)]
    simp only [if_neg (ne_of_name hne)]

/-- A file that is renamed over another, or to where nothing is. -/
theorem renamed {tmp : String} (e : Entry d p above name)
    (hs : d.top.at? (above ++ [tmp]) = some (.file c mode t)) (hl : Shape.Loose (d.top.shape? (above ++ [name]))) :
    let d' := (d.erase (above ++ [tmp])).put (above ++ [name]) (.file c mode t)
    Agrees d d' ∧ d'.top.at? (above ++ [name]) = some (.file c mode t) := by
  obtain ⟨herase, hgone⟩ := differs_erase hs (by simp [Node.shape])
  have hagree := herase.agrees (Node.loose_of_file hs) (Node.loose_of_none hgone)
  have hl' := hagree.loose hl
  obtain ⟨hput, hat⟩ :=
    differs_put ((hagree.dir above).mpr e.dir) hl'.1 (by simp [Node.shape] : (Node.file c mode t).shape ≠ .dir)
  exact ⟨hagree.trans (hput.agrees hl' (Node.loose_of_file hat)), hat⟩

end Entry

/-- A path to a file, or to nothing yet, names an entry. -/
theorem entry_of_loose (hi : p.endsIdle = false) (h : d.locate false p = .ok spot)
    (hl : Shape.Loose (d.top.shape? spot.place)) :
    ∃ above name, Entry d p above name ∧ spot.place = above ++ [name] := by
  have hne := steps_of_loose h hl
  have ht := takes_of_locate h
  obtain ⟨xs, name, hxs⟩ : ∃ xs name, d.trail p = xs ++ [name] := by
    refine ⟨_, _, (List.dropLast_append_getLast ?_).symm⟩
    simp [trail, hne]
  rw [locate_eq_settle ht, settle_of_steps hne hi, hi, Bool.or_false, hxs] at h
  obtain ⟨used, there, m, hu, hf, hm, hlast⟩ := trace_append (Node.at?_nil _) h (by simp)
  obtain ⟨t, es, rfl, ⟨rfl, k, hk, hstay⟩ | ⟨hname, hsize, hend⟩⟩ := trace_cons_ok hlast
  · -- a step up ends at a directory
    rw [trace_nil] at hstay
    cases hstay
    exact absurd (shape?_tail (Node.shape?_eq_dir.mpr ⟨t, es, hm⟩)) hl.1
  · refine ⟨there.reverse, name, ⟨⟨xs, used, hxs, hu, by rwa [List.reverse_reverse]⟩,
      Node.shape?_eq_dir.mpr ⟨t, es, hm⟩, hname, hsize, ht, hi, hne⟩, ?_⟩
    rcases hend with ⟨k, hk, -, hstay⟩ | ⟨target, left, hk, -, hr, -⟩ | ⟨target, hk, -, -, rfl⟩ | ⟨hk, -, rfl⟩
    · rw [trace_nil, List.reverse_cons] at hstay
      cases hstay
      rfl
    · simp at hr
    · exact List.reverse_cons
    · rfl

/-- A path below another that leads to a file names an entry. -/
theorem entry_of_file {root : Path} {c : ByteArray} {mode : Nat} {t : Stamp} (rel : List String) (name : String)
    (hn : ∀ s ∈ rel ++ [name], isName s = true)
    (h : d.locate false (root.join ⟨rel ++ [name]⟩) = .ok (.there place (.file c mode t))) :
    ∃ above, Entry d (root.join ⟨rel ++ [name]⟩) above name ∧ place = above ++ [name] := by
  obtain ⟨above, other, e, hplace⟩ := entry_of_loose (endsIdle_of_file h) h (Node.loose_of_file (locate_sound h))
  obtain rfl : name = other := by
    have htrail := e.trail_eq
    rw [trail_join hn (by simp), ← List.append_assoc, List.dropLast_concat] at htrail
    simpa using htrail
  exact ⟨above, e, hplace⟩

/-- A path leads to a regular file, or to a place in a directory where nothing is. -/
def Receives (d : Disk) (p : Path) : Prop :=
  (∃ place c mode t, d.locate false p = .ok (.there place (.file c mode t))) ∨
    ∃ above name, d.locate false p = .ok (.vacant above name)

theorem Receives.entry (h : d.Receives p) (hi : p.endsIdle = false) :
    ∃ above name, Entry d p above name ∧ Shape.Loose (d.top.shape? (above ++ [name])) := by
  obtain ⟨spot, hs, hl⟩ : ∃ spot, d.locate false p = .ok spot ∧ Shape.Loose (d.top.shape? spot.place) := by
    rcases h with ⟨place, c, mode, t, hs⟩ | ⟨above, name, hs⟩
    · exact ⟨_, hs, Node.loose_of_file (locate_sound hs)⟩
    · exact ⟨_, hs, Node.loose_of_none (locate_sound hs).2⟩
  obtain ⟨above, name, e, hplace⟩ := entry_of_loose hi hs hl
  exact ⟨above, name, e, hplace ▸ hl⟩

end Disk

end Outfitter
