import Mathlib.Data.List.Sort
import Outfitter.Proofs.Disk.Growth
import Outfitter.Proofs.Snapshot
import Outfitter.Proofs.Tree.Proper

/-! # The newest snapshots are kept

Pruning takes the oldest snapshots out of the list of their directory and changes nothing else, as
long as the directory can be reached without them. Pruning again finds nothing to remove, and of two
prunings the stricter one decides.
-/

namespace Outfitter

namespace Disk

variable {d : Disk} {p : Path} {place above : List String} {name : String} {t t' : Stamp} {es es' below : Entries}

/-- The disk with another list of entries for the directory at a place. -/
def relist (d : Disk) (place : List String) (t : Stamp) (es : Entries) : Disk :=
  d.update place fun _ => .dir t es

theorem relist_eq (h : d.top.at? place ≠ none) (t : Stamp) (es : Entries) :
    d.relist place t es = { d with top := d.top.alter none (fun _ => some (.dir t es)) place } := by
  obtain ⟨n, hn⟩ := Option.ne_none_iff_exists'.mp h
  rw [relist, update, Node.update, Node.alter_congr (g := fun _ => some (.dir t es)) (by rw [hn]; rfl)]

theorem at?_relist (h : d.top.at? (above ++ [name]) ≠ none) (t : Stamp) (es : Entries) (rest : List String) :
    (d.relist (above ++ [name]) t es).top.at? (above ++ [name] ++ rest) = (Node.dir t es).at? rest := by
  obtain ⟨n, hn⟩ := Option.ne_none_iff_exists'.mp h
  obtain ⟨t₀, es₀, hdir, hlookup⟩ := (Node.at?_concat _ _ _).mp hn
  rw [relist, update, Node.update, List.append_assoc, List.singleton_append, Node.at?_alter_self hdir, hlookup]
  rfl

theorem at?_relist_self (h : d.top.at? (above ++ [name]) ≠ none) (t : Stamp) (es : Entries) :
    (d.relist (above ++ [name]) t es).top.at? (above ++ [name]) = some (.dir t es) := by
  simpa using at?_relist h t es []

theorem relist_self (hp : d.top.isProper = true) (h : d.top.at? (above ++ [name]) = some (.dir t es)) :
    d.relist (above ++ [name]) t es = d := by
  rw [relist_eq (by simp [h]), Node.alter_self hp (by simp) h]

/-- An entry that is erased is taken out of the list of its directory. -/
theorem erase_relist (h : d.top.at? (above ++ [name]) ≠ none) (t : Stamp) (es : Entries) (other : String) :
    (d.relist (above ++ [name]) t es).erase (above ++ [name] ++ [other]) =
      d.relist (above ++ [name]) d.now (Entries.erase es other) := by
  have hat := at?_relist_self h t es
  rw [erase, Node.erase, Node.alter_concat (by simp) hat, relist_eq h, relist_eq h, Node.alter_alter]
  rfl

/-- A directory that lists more entries only adds to a disk. -/
theorem grows_relist (h : d.top.at? (above ++ [name]) ≠ none)
    (hes : ∀ x n, es.lookup x = some n → es'.lookup x = some n) :
    Grows (d.relist (above ++ [name]) t es) (d.relist (above ++ [name]) t' es') := by
  refine ⟨rfl, ?_⟩
  intro q s hq
  by_cases hpre : above ++ [name] <+: q
  · obtain ⟨rest, rfl⟩ := hpre
    rw [Node.shape?, at?_relist h] at hq ⊢
    cases rest with
    | nil => exact hq
    | cons x rest =>
      rw [Node.at?_dir_cons] at hq ⊢
      cases hx : es.lookup x with
      | none => rw [hx] at hq; cases hq
      | some n => rwa [hes x n hx, ← hx]
  · rw [relist, update, Node.update, Node.shape?_alter hpre] at hq ⊢
    exact hq

theorem Entry.reaches_self (e : Entry d p above name) (h : d.top.at? (above ++ [name]) = some (.dir t es)) :
    Reaches d p (above ++ [name]) := by
  obtain ⟨xs, used, htrail, hu, hf⟩ := e.way
  refine ⟨⟨used, hu, ?_⟩, Node.shape?_eq_dir.mpr ⟨t, es, h⟩⟩
  rw [htrail, List.reverse_append, List.reverse_singleton, List.singleton_append]
  apply hf.concat e.proper e.size _ (by simp : ∀ target, Node.dir t es ≠ .link target)
  rwa [List.reverse_cons, List.reverse_reverse]

theorem Entry.removeTree (e : Entry d p above name) (h : d.top.at? (above ++ [name]) = some (.dir t es)) :
    d.removeTree p = .ok (d.erase (above ++ [name])) := by
  rw [Disk.removeTree, e.locate_there h (by simp)]

end Disk

namespace Snapshot

open Disk Action Files

variable {d : Disk} {root : Path} {above : List String} {t : Stamp} {es : Entries}

/-! ## The directory of snapshots -/

/-- The place of the directory of snapshots in a project. -/
def shelf (project : List String) : List String := project ++ [Layout.snapshotsDirName]

/-- The entries of a directory of snapshots which the root leads to even if the snapshots are gone, and
which can be removed one by one. -/
structure Prunable (d : Disk) (root : Path) (project : List String) (es : Entries) : Prop where
  there : d.top.at? (shelf project) ≠ none
  takes : takes (Layout.snapshots root) = true
  nodup : (es.map Prod.fst).Nodup
  names : ∀ e ∈ es, isName e.1 = true
  fits : ∀ e ∈ es, e.2.isDir = true →
    Disk.takes (Layout.snapshots root / e.1) = true ∧ e.1.utf8ByteSize ≤ nameLimit
  way : ∃ t, Reaches (d.relist (shelf project) t (es.filter fun e => !e.2.isDir)) (Layout.snapshots root)
    (shelf project)

namespace Prunable

variable {project : List String}

theorem filter {keeps : String × Node → Bool} (h : Prunable d root project es)
    (hk : ∀ e ∈ es, e.2.isDir = false → keeps e = true) : Prunable d root project (es.filter keeps) where
  there := h.there
  takes := h.takes
  nodup := h.nodup.sublist (List.filter_sublist.map _)
  names := fun e he => h.names e (List.mem_of_mem_filter he)
  fits := fun e he => h.fits e (List.mem_of_mem_filter he)
  way := by
    obtain ⟨t, hr⟩ := h.way
    have heq : (es.filter keeps).filter (fun e => !e.2.isDir) = es.filter fun e => !e.2.isDir := by
      rw [List.filter_filter]
      apply List.filter_congr
      intro e he
      cases hdir : e.2.isDir with
      | true => simp
      | false => simp [hk e he hdir]
    exact ⟨t, heq.symm ▸ hr⟩

theorem reaches (h : Prunable d root project es) (t : Stamp) :
    Reaches (d.relist (shelf project) t es) (Layout.snapshots root) (shelf project) := by
  obtain ⟨t', hr⟩ := h.way
  refine (grows_relist h.there ?_).reaches hr
  intro x n hx
  exact Entries.lookup_of_mem h.nodup (List.mem_of_mem_filter (Entries.mem_of_lookup hx))

theorem list (h : Prunable d root project es) (t : Stamp) :
    (d.relist (shelf project) t es).list (Layout.snapshots root) = .ok es := by
  obtain ⟨t', es', hfind⟩ := (h.reaches t).find h.takes
  have hat : (d.relist (shelf project) t es).top.at? (shelf project) = some (.dir t' es') :=
    locate_sound (find_ok_iff.mp hfind)
  cases hat.symm.trans (at?_relist_self h.there t es)
  rw [Disk.list, hfind]

/-- A snapshot that is removed is taken out of the list. -/
theorem removeTree (h : Prunable d root project es) {name : String} {s : Stamp} {below : Entries}
    (he : (name, Node.dir s below) ∈ es) (t : Stamp) :
    (d.relist (shelf project) t es).removeTree (Layout.snapshots root / name) =
      .ok (d.relist (shelf project) d.now (Entries.erase es name)) := by
  obtain ⟨htakes, hsize⟩ := h.fits _ he rfl
  have hname : isName name = true := h.names _ he
  have hnames : ∀ x ∈ [name], isName x = true := by simpa using hname
  have hpath : Layout.snapshots root / name = (Layout.snapshots root).join ⟨[name]⟩ :=
    congrArg (fun segs => (Layout.snapshots root).join ⟨segs⟩) (Path.splitSlash_of_isName hname)
  rw [hpath] at htakes ⊢
  obtain ⟨used, hu, hf⟩ := (h.reaches t).way
  have entry : Entry (d.relist (shelf project) t es) ((Layout.snapshots root).join ⟨[name]⟩) (shelf project) name :=
    { way := ⟨_, used, trail_join hnames (by simp), hu, hf⟩
      dir := (h.reaches t).dir
      proper := (isName_iff.mp hname).2.2.1
      size := hsize
      takes := htakes
      ends := Path.endsIdle_join (by simp) hnames
      steps := steps_join_ne_nil hnames (by simp) }
  have hat := at?_relist h.there t es [name]
  rw [Node.at?_dir_cons, Entries.lookup_of_mem h.nodup he] at hat
  rw [entry.removeTree hat]
  exact congrArg Except.ok (erase_relist h.there t es name)

end Prunable

/-! ## Removing -/

variable {project : List String}

/-- The entries that are left when some snapshots are gone. -/
def without (es : Entries) (gone : List (Stamp × String)) : Entries :=
  es.filter fun e => e.1 ∉ gone.map Prod.snd

/-- Snapshots of a directory, none of them named twice. -/
def Listed (es : Entries) (gone : List (Stamp × String)) : Prop :=
  (∀ s ∈ gone, ∃ below, (s.2, Node.dir s.1 below) ∈ es) ∧ (gone.map Prod.snd).Nodup

theorem Prunable.without {gone : List (Stamp × String)} (h : Prunable d root project es) (hg : Listed es gone) :
    Prunable d root project (without es gone) := by
  apply h.filter
  intro e he hfile
  simp only [decide_eq_true_eq, List.mem_map, not_exists, not_and]
  intro s hs hname
  obtain ⟨below, hdir⟩ := hg.1 s hs
  have hlookup : es.lookup e.1 = some (.dir s.1 below) := hname ▸ Entries.lookup_of_mem h.nodup hdir
  rw [Entries.lookup_of_mem h.nodup he, Option.some.injEq] at hlookup
  rw [hlookup] at hfile
  cases hfile

theorem removeAll_listed {gone : List (Stamp × String)} (h : Prunable d root project es) (hg : Listed es gone)
    (t : Stamp) :
    (removeAll (gone.map fun s => Layout.snapshots root / s.2)).on (d.relist (shelf project) t es) =
      (.ok (gone.map fun s => Layout.snapshots root / s.2),
        d.relist (shelf project) (if gone = [] then t else d.now) (without es gone)) := by
  induction gone generalizing es t with
  | nil =>
    have hnil : without es [] = es := by simp [without]
    rw [hnil]
    rfl
  | cons s gone ih =>
    obtain ⟨hmem, hnodup⟩ := hg
    obtain ⟨⟨below, hs⟩, hgone⟩ := List.forall_mem_cons.mp hmem
    rw [List.map_cons, List.nodup_cons] at hnodup
    have hlisted : Listed (Entries.erase es s.2) gone := by
      refine ⟨?_, hnodup.2⟩
      intro r hr
      obtain ⟨below', hr'⟩ := hgone r hr
      refine ⟨below', List.mem_filter.mpr ⟨hr', ?_⟩⟩
      have hne : r.2 ≠ s.2 := fun heq => hnodup.1 (heq ▸ List.mem_map_of_mem hr)
      simpa using hne
    have hwithout : without (Entries.erase es s.2) gone = without es (s :: gone) := by
      rw [without, without, Entries.erase, List.filter_filter]
      apply List.filter_congr
      intro e _
      simp only [List.map_cons, List.mem_cons, not_or, Bool.decide_and, Bool.and_comm, ne_eq]
    have hprunable : Prunable d root project (Entries.erase es s.2) := by
      have heq : Entries.erase es s.2 = without es [s] := by simp [Entries.erase, without]
      rw [heq]
      exact h.without ⟨by simpa using ⟨below, hs⟩, by simp⟩
    rw [List.map_cons, removeAll, on_bind_ok (on_change_ok (h.removeTree hs t)),
      on_bind_ok (ih hprunable hlisted d.now), hwithout, ite_self, if_neg (by simp)]
    rfl

theorem listed_drop (hd : (es.map Prod.fst).Nodup) (keep : Nat) : Listed es ((newestFirst es).drop keep) := by
  constructor
  · intro s hs
    exact mem_newestFirst.mp (List.mem_of_mem_drop hs)
  · exact List.pairwise_map.mpr ((newestFirst_distinct hd).sublist (List.drop_sublist ..))

/-- Pruning takes all but the newest snapshots out of the list of their directory. -/
theorem prune_relist (h : Prunable d root project es) (t : Stamp) (keep : Nat) :
    (prune root keep).on (d.relist (shelf project) t es) =
      (.ok (((newestFirst es).drop keep).map fun s => Layout.snapshots root / s.2),
        d.relist (shelf project) (if (newestFirst es).drop keep = [] then t else d.now)
          (without es ((newestFirst es).drop keep))) := by
  rw [prune, on_bind_ask, if_pos ((h.reaches t).isDir h.takes), on_bind_ok (on_fetch_ok (h.list t))]
  exact removeAll_listed h (listed_drop h.nodup keep) t

/-! ## The order of snapshots -/

theorem length_newestFirst (es : Entries) : (newestFirst es).length = (es.filter fun e => e.2.isDir).length := by
  rw [newestFirst, List.length_mergeSort, List.length_filterMap_eq_countP, List.countP_eq_length_filter]
  congr 1
  apply List.filter_congr
  rintro ⟨name, n⟩ _
  cases n <;> rfl

theorem mem_take_newestFirst (hd : (es.map Prod.fst).Nodup) (keep : Nat) (s : Stamp × String) :
    s ∈ (newestFirst es).take keep ↔
      s ∈ newestFirst es ∧ s.2 ∉ ((newestFirst es).drop keep).map Prod.snd := by
  have hsplit := newestFirst_distinct hd
  rw [← List.take_append_drop keep (newestFirst es), List.pairwise_append] at hsplit
  constructor
  · intro hs
    refine ⟨List.mem_of_mem_take hs, ?_⟩
    intro hmem
    obtain ⟨r, hr, heq⟩ := List.mem_map.mp hmem
    exact hsplit.2.2 s hs r hr heq.symm
  · rintro ⟨hs, hnot⟩
    rw [← List.take_append_drop keep (newestFirst es), List.mem_append] at hs
    rcases hs with hs | hs
    · exact hs
    · exact absurd (List.mem_map_of_mem hs) hnot

/-- No two snapshots were modified at the same time. -/
def Distinct (es : Entries) : Prop :=
  ∀ name name' s below below', (name, Node.dir s below) ∈ es → (name', Node.dir s below') ∈ es → name = name'

theorem newestFirst_without_perm (hd : (es.map Prod.fst).Nodup) (keep : Nat) :
    (newestFirst (without es ((newestFirst es).drop keep))).Perm ((newestFirst es).take keep) := by
  have hd' : ((without es ((newestFirst es).drop keep)).map Prod.fst).Nodup :=
    hd.sublist (List.filter_sublist.map _)
  have hnodup {fs : Entries} (h : (fs.map Prod.fst).Nodup) : (newestFirst fs).Nodup :=
    (newestFirst_distinct h).imp fun hne heq => hne (congrArg Prod.snd heq)
  refine (List.perm_ext_iff_of_nodup (hnodup hd') ((hnodup hd).sublist (List.take_sublist ..))).mpr ?_
  intro s
  rw [mem_take_newestFirst hd, mem_newestFirst, mem_newestFirst, ← exists_and_right]
  simp only [without, List.mem_filter, decide_eq_true_eq]

/-- Those that are left come in the same order, unless two are equally new. -/
theorem newestFirst_without (hd : (es.map Prod.fst).Nodup) (hs : Distinct es) (keep : Nat) :
    newestFirst (without es ((newestFirst es).drop keep)) = (newestFirst es).take keep := by
  have hperm := newestFirst_without_perm hd keep
  refine hperm.eq_of_pairwise ?_ (newestFirst_sorted _) ((newestFirst_sorted es).sublist (List.take_sublist ..))
  intro a b ha hb hab hba
  obtain ⟨below, ha⟩ := mem_newestFirst.mp (List.mem_of_mem_take (hperm.mem_iff.mp ha))
  obtain ⟨below', hb⟩ := mem_newestFirst.mp (List.mem_of_mem_take hb)
  have heq : a.1 = b.1 := Stamp.le_antisymm hba hab
  rw [heq] at ha
  exact Prod.ext heq (hs _ _ _ _ _ ha hb)

/-- What is dropped by the stricter of two bounds is dropped by one after the other. -/
theorem drop_min {α : Type} (xs : List α) (k k' : Nat) :
    xs.drop (min k k') = (xs.take k).drop k' ++ xs.drop k := by
  rcases Nat.le_total k k' with h | h
  · rw [Nat.min_eq_left h, List.drop_eq_nil_of_le ((List.length_take_le k xs).trans h), List.nil_append]
  · rw [Nat.min_eq_right h, List.drop_take]
    conv_lhs => rw [← List.take_append_drop (k - k') (xs.drop k'), List.drop_drop, Nat.add_sub_cancel' h]

theorem without_without (es : Entries) (gone gone' : List (Stamp × String)) :
    without (without es gone) gone' = without es (gone' ++ gone) := by
  rw [without, without, without, List.filter_filter]
  apply List.filter_congr
  intro e _
  simp only [List.map_append, List.mem_append, not_or, Bool.decide_and]

/-! ## What pruning leaves -/

theorem prunable_of_isDir {place : List String} (hp : d.top.isProper = true)
    (hdir : d.locate false (Layout.snapshots root) = .ok (.there place (.dir t es)))
    (hfits : ∀ e ∈ es, e.2.isDir = true →
      takes (Layout.snapshots root / e.1) = true ∧ e.1.utf8ByteSize ≤ nameLimit)
    (hway : (d.relist place t (es.filter fun e => !e.2.isDir)).isDir (Layout.snapshots root) = true) :
    ∃ project, place = shelf project ∧ Prunable d root project es ∧ d.relist place t es = d := by
  have hname : ∀ s ∈ [Layout.snapshotsDirName], isName s = true := by decide
  have htrail : d.trail (Layout.snapshots root) = d.trail root ++ [Layout.snapshotsDirName] :=
    trail_join hname (List.cons_ne_nil _ _)
  obtain ⟨project, entry, hplace⟩ := entry_of_locate htrail (by decide)
    (steps_join_ne_nil hname (List.cons_ne_nil _ _)) (Path.endsIdle_join (List.cons_ne_nil _ _) hname) hdir
  obtain rfl : place = shelf project := hplace
  have hat : d.top.at? (shelf project) = some (.dir t es) := locate_sound hdir
  have hthere : d.top.at? (shelf project) ≠ none := by simp [hat]
  obtain ⟨hnodup, hes⟩ := Node.isProper_dir_iff.mp (Node.hereditary_isProper.of_at? hp hat).2
  have hself : d.relist (shelf project) t es = d := relist_self hp hat
  refine ⟨project, rfl, ⟨hthere, entry.takes, hnodup, fun e he => (hes e he).1, hfits, t, ?_⟩, hself⟩
  obtain ⟨place, hr⟩ := reaches_of_isDir hway
  have hgrows : Grows (d.relist (shelf project) t (es.filter fun e => !e.2.isDir)) d := by
    have hlonger : ∀ x n, (es.filter fun e => !e.2.isDir).lookup x = some n → es.lookup x = some n :=
      fun x n hx => Entries.lookup_of_mem hnodup (List.mem_of_mem_filter (Entries.mem_of_lookup hx))
    have hgrows : Grows (d.relist (shelf project) t (es.filter fun e => !e.2.isDir)) (d.relist (shelf project) t es) :=
      grows_relist hthere hlonger
    rwa [hself] at hgrows
  rwa [(entry.reaches_self hat).unique (hgrows.reaches hr) rfl] at hr

/-- Pruning removes exactly the snapshots beyond the number that is kept, none newer than one that stays,
and gives them in the order of their times, the newest first. All else stays as it is. Pruning again removes
nothing. If no two snapshots are equally new, two prunings leave what the stricter one leaves. -/
theorem prune_keeps_newest (d : Disk) (root : Path) (place : List String) (t : Stamp) (es : Entries) (keep : Nat)
    (hp : d.top.isProper = true)
    (hdir : d.locate false (Layout.snapshots root) = .ok (.there place (.dir t es)))
    (hfits : ∀ e ∈ es, e.2.isDir = true →
      takes (Layout.snapshots root / e.1) = true ∧ e.1.utf8ByteSize ≤ nameLimit)
    (hway : (d.relist place t (es.filter fun e => !e.2.isDir)).isDir (Layout.snapshots root) = true) :
    ∃ removed : List (Stamp × String),
      Listed es removed ∧
      removed.length = (es.filter fun e => e.2.isDir).length - keep ∧
      removed.Pairwise (fun a b => b.1.le a.1 = true) ∧
      (∀ name s below, (name, Node.dir s below) ∈ es → (s, name) ∉ removed → ∀ r ∈ removed, r.1.le s = true) ∧
      (prune root keep).on d = (.ok (removed.map fun s => Layout.snapshots root / s.2),
        d.relist place (if removed = [] then t else d.now) (without es removed)) ∧
      (prune root keep).on ((prune root keep).on d).2 = (.ok [], ((prune root keep).on d).2) ∧
      (Distinct es → ∀ keep',
        ((prune root keep').on ((prune root keep).on d).2).2 = ((prune root (min keep keep')).on d).2) := by
  obtain ⟨project, rfl, h, hself⟩ := prunable_of_isDir hp hdir hfits hway
  have hprune (k : Nat) := hself ▸ prune_relist h t k
  have hleft := h.without (listed_drop h.nodup keep)
  refine ⟨(newestFirst es).drop keep, listed_drop h.nodup keep, ?_, ?_, ?_, hprune keep, ?_, ?_⟩
  · rw [List.length_drop, length_newestFirst]
  · exact (newestFirst_sorted es).sublist (List.drop_sublist ..)
  · intro name s below he hstays r hr
    have hs : (s, name) ∈ newestFirst es := mem_newestFirst.mpr ⟨below, he⟩
    have hsorted := newestFirst_sorted es
    rw [← List.take_append_drop keep (newestFirst es)] at hs hsorted
    exact (List.pairwise_append.mp hsorted).2.2 _ ((List.mem_append.mp hs).resolve_right hstays) r hr
  · rw [hprune keep, prune_relist hleft]
    have hnone : (newestFirst (without es ((newestFirst es).drop keep))).drop keep = [] := by
      apply List.drop_eq_nil_of_le
      rw [(newestFirst_without_perm h.nodup keep).length_eq]
      exact List.length_take_le ..
    rw [hnone, without_without, List.nil_append, if_pos rfl]
    rfl
  · intro hdistinct keep'
    rw [hprune keep, hprune (min keep keep'), prune_relist hleft, newestFirst_without h.nodup hdistinct,
      without_without, drop_min]
    by_cases hlater : ((newestFirst es).take keep).drop keep' = []
    · rw [hlater, List.nil_append, if_pos rfl]
    · rw [if_neg hlater, if_neg (by simp [hlater])]

/-- A project with three snapshots, which is reached through a link. -/
def stocked : Disk :=
  ⟨.dir ⟨0, false⟩
    [ ("home", .link (Path.ofText "project"))
    , ("project", .dir ⟨0, false⟩
        [ (".claude-backups", .dir ⟨9, false⟩
            [ ("a", .dir ⟨1, false⟩ [("notes.md", .file "n".toUTF8 0o444 ⟨1, false⟩)])
            , ("b", .dir ⟨3, false⟩ [])
            , ("latest", .link (Path.ofText "b"))
            , ("MANUAL_MERGE_GUIDE.md", .file "g".toUTF8 0o644 ⟨5, false⟩)
            , ("c", .dir ⟨2, false⟩ []) ]) ]) ],
    [], 100⟩

theorem stocked_keeps_newest :
    stocked.top.isProper = true ∧
      ∃ removed : List (Stamp × String), removed.length = 2 ∧
        ∃ left, (prune (Path.ofText "/home") 1).on stocked =
            (.ok (removed.map fun s => Layout.snapshots (Path.ofText "/home") / s.2), left) ∧
          (prune (Path.ofText "/home") 1).on left = (.ok [], left) := by
  obtain ⟨removed, -, hlength, -, -, hprune, hagain, -⟩ := prune_keeps_newest stocked (Path.ofText "/home")
    ["project", ".claude-backups"] ⟨9, false⟩ _ 1 (by decide) rfl (by decide) (by decide)
  rw [hprune] at hagain
  exact ⟨by decide, removed, hlength, _, hprune, hagain⟩

/-- A project without anything but two snapshots. -/
def twisted : Disk :=
  ⟨.dir ⟨0, false⟩
    [(".claude-backups", .dir ⟨0, false⟩ [("a", .dir ⟨2, false⟩ []), ("b", .dir ⟨1, false⟩ [])])], [], 100⟩

/-- A root that leads through a snapshot is lost with it, and the snapshots after that one stay. -/
theorem twisted_root_stops_pruning :
    twisted.top.isProper = true ∧
      twisted.isDir (Layout.snapshots (Path.ofText "/.claude-backups/a/../..")) = true ∧
      ((prune (Path.ofText "/.claude-backups/a/../..") 0).on twisted).1.isOk = false ∧
      ((prune (Path.ofText "/.claude-backups/a/../..") 0).on twisted).2.isDir (Path.ofText "/.claude-backups/b") =
        true := by
  have hsorted : newestFirst [("a", .dir ⟨2, false⟩ []), ("b", .dir ⟨1, false⟩ [])] =
      [(⟨2, false⟩, "a"), (⟨1, false⟩, "b")] := List.mergeSort_of_pairwise (by decide)
  have hprune : (prune (Path.ofText "/.claude-backups/a/../..") 0).on twisted =
      (removeAll (([(⟨2, false⟩, "a"), (⟨1, false⟩, "b")] : List (Stamp × String)).map fun s =>
        Layout.snapshots (Path.ofText "/.claude-backups/a/../..") / s.2)).on twisted := by
    have hlist : twisted.list (Layout.snapshots (Path.ofText "/.claude-backups/a/../..")) =
        .ok [("a", .dir ⟨2, false⟩ []), ("b", .dir ⟨1, false⟩ [])] := rfl
    rw [prune, on_bind_ask, if_pos (by decide), on_bind_ok (on_fetch_ok hlist), hsorted]
    rfl
  rw [hprune]
  exact ⟨by decide, by decide, by decide +kernel, by decide +kernel⟩

end Snapshot

end Outfitter
