import Outfitter.Command
import Outfitter.Proofs.Disk.Develop
import Outfitter.Proofs.Session

/-! # The root of a project stays

The root of a project is searched for upwards, by directories of assets first and by version control
second. Assets that are added to the root that was found change the first search for every directory
below it, but it finds the same root, or still nothing if that is the home directory. A link that led
nowhere is the exception: it may come to lead to the new assets.
-/

namespace Outfitter

/-! ## Ancestors -/

namespace Path

variable {p q : Path} {fuel : Nat}

theorem parent?_of_no_names (habs : p.isAbsolute = true) (h : p.names = []) : p.parent? = none := by
  obtain ⟨-, hnone | ⟨-, hrel⟩⟩ | ⟨init, s, rest, -, -, -, -, hnames⟩ := parent?_cases p
  · exact hnone
  · rw [habs] at hrel
    cases hrel
  · rw [h] at hnames
    cases (List.append_eq_nil_iff.mp hnames.symm).2

theorem length_names_parent? (habs : p.isAbsolute = true) (h : p.parent? = some q) :
    q.names.length + 1 = p.names.length := by
  rw [names_parent? h, List.length_dropLast]
  have hne : p.names ≠ [] := fun hnil => by
    rw [parent?_of_no_names habs hnil] at h
    cases h
  have := List.length_pos_iff.mpr hne
  omega

/-- There are as many ancestors as names, and no fuel beyond that finds more. -/
theorem ancestorsUpTo_eq {more : Nat} (habs : p.isAbsolute = true) (h : p.names.length ≤ fuel)
    (h' : p.names.length ≤ more) : p.ancestorsUpTo fuel = p.ancestorsUpTo more := by
  induction fuel generalizing p more with
  | zero =>
    have hnone := parent?_of_no_names habs (List.length_eq_zero_iff.mp (Nat.le_zero.mp h))
    cases more with
    | zero => rfl
    | succ more => rw [ancestorsUpTo, ancestorsUpTo, hnone]
  | succ fuel ih =>
    cases hq : p.parent? with
    | none =>
      cases more with
      | zero => rw [ancestorsUpTo, ancestorsUpTo, hq]
      | succ more => rw [ancestorsUpTo, ancestorsUpTo, hq]
    | some q =>
      have hlen := length_names_parent? habs hq
      cases more with
      | zero => omega
      | succ more =>
        rw [ancestorsUpTo, ancestorsUpTo, hq]
        exact congrArg _ (ih ((isAbsolute_parent? hq).trans habs) (by omega) (by omega))

theorem length_names_le (p : Path) : p.names.length ≤ p.segments.length := List.length_filter_le _ _

theorem ancestors_eq (habs : p.isAbsolute = true) : p.ancestors = p :: (p.parent?.map ancestors).getD [] := by
  rw [ancestors, ancestorsUpTo_eq habs p.length_names_le (Nat.le_succ_of_le p.length_names_le), ancestorsUpTo]
  cases hq : p.parent? with
  | none => rfl
  | some q =>
    have hlen := length_names_parent? habs hq
    refine congrArg _ (ancestorsUpTo_eq ((isAbsolute_parent? hq).trans habs) ?_ q.length_names_le)
    have := p.length_names_le
    omega

/-- Induction from the top down to an absolute path. -/
theorem upward {motive : Path → Prop} (habs : p.isAbsolute = true)
    (step : ∀ p : Path, p.isAbsolute = true → (∀ q, p.parent? = some q → motive q) → motive p) : motive p := by
  induction hn : p.names.length generalizing p with
  | zero =>
    refine step p habs fun q hq => ?_
    rw [parent?_of_no_names habs (List.length_eq_zero_iff.mp hn)] at hq
    cases hq
  | succ n ih =>
    refine step p habs fun q hq => ih ((isAbsolute_parent? hq).trans habs) ?_
    have := length_names_parent? habs hq
    omega

theorem mem_ancestors_iff (habs : p.isAbsolute = true) :
    q ∈ p.ancestors ↔ q = p ∨ ∃ above, p.parent? = some above ∧ q ∈ above.ancestors := by
  rw [ancestors_eq habs, List.mem_cons]
  cases p.parent? with
  | none => simp
  | some above => simp

theorem ancestors_suffix (habs : p.isAbsolute = true) (hq : q ∈ p.ancestors) : q.ancestors <:+ p.ancestors := by
  revert hq
  refine upward (motive := fun p => q ∈ p.ancestors → q.ancestors <:+ p.ancestors) habs fun p habs ih hq => ?_
  obtain rfl | ⟨above, hparent, hq⟩ := (mem_ancestors_iff habs).mp hq
  · exact List.suffix_refl _
  · rw [ancestors_eq habs, hparent]
    exact (ih above hparent hq).trans (List.suffix_cons _ _)

theorem length_names_ancestors (habs : p.isAbsolute = true) (hq : q ∈ p.ancestors) :
    q.names.length ≤ p.names.length := by
  revert hq
  refine upward (motive := fun p => q ∈ p.ancestors → q.names.length ≤ p.names.length) habs fun p habs ih hq => ?_
  obtain rfl | ⟨above, hparent, hq⟩ := (mem_ancestors_iff habs).mp hq
  · exact Nat.le_refl _
  · have := ih above hparent hq
    have := length_names_parent? habs hparent
    omega

theorem nodup_ancestors (habs : p.isAbsolute = true) : p.ancestors.Nodup := by
  refine upward (motive := fun p => p.ancestors.Nodup) habs fun p habs ih => ?_
  rw [ancestors_eq habs]
  cases hparent : p.parent? with
  | none => simp
  | some above =>
    refine List.nodup_cons.mpr ⟨fun hmem => ?_, ih above hparent⟩
    have := length_names_ancestors ((isAbsolute_parent? hparent).trans habs) hmem
    have := length_names_parent? habs hparent
    omega

theorem eq_of_mem_ancestors (habs : p.isAbsolute = true) (hq : q ∈ p.ancestors) (hp : p ∈ q.ancestors) : q = p := by
  obtain rfl | ⟨above, hparent, hq⟩ := (mem_ancestors_iff habs).mp hq
  · rfl
  · have habove := (isAbsolute_parent? hparent).trans habs
    have := length_names_parent? habs hparent
    have := length_names_ancestors habove hq
    have := length_names_ancestors ((isAbsolute_ancestors hq).trans habove) hp
    omega

theorem comparable_of_mem_ancestors {r : Path} (habs : p.isAbsolute = true) (hq : q ∈ p.ancestors)
    (hr : r ∈ p.ancestors) : q ∈ r.ancestors ∨ r ∈ q.ancestors := by
  obtain h | h := List.suffix_or_suffix_of_suffix (ancestors_suffix habs hq) (ancestors_suffix habs hr)
  · exact Or.inl (h.subset (Files.mem_ancestors_self q))
  · exact Or.inr (h.subset (Files.mem_ancestors_self r))

end Path

/-! ## Searches -/

/-- What is found first in a list is found first in its end, if it is there. -/
theorem find?_suffix {α : Type} {l l' : List α} {f : α → Bool} {x : α} (hn : l.Nodup) (hs : l' <:+ l) (hx : x ∈ l')
    (h : l.find? f = some x) : l'.find? f = some x := by
  obtain ⟨before, rfl⟩ := hs
  rw [List.find?_append, Option.or_eq_some_iff] at h
  obtain hbefore | ⟨-, h⟩ := h
  · exact absurd rfl ((List.nodup_append.mp hn).2.2 x (List.mem_of_find?_eq_some hbefore) x hx)
  · exact h

theorem find?_suffix_eq_none {α : Type} {l l' : List α} {f : α → Bool} (hs : l' <:+ l) (h : l.find? f = none) :
    l'.find? f = none :=
  List.find?_eq_none.mpr fun x hx => List.find?_eq_none.mp h x (hs.subset hx)

/-! ## Directories that come to be there -/

namespace Disk

variable {d d' : Disk} {p q : Path} {place above : List String} {name : String}

theorem Grows.develops (h : Grows d d') : Develops d d' where
  cwd := h.cwd
  dir := fun q => h.shape q _
  link := fun q _ => h.shape q _
  file := by
    rintro q ⟨c, m, t, hq⟩
    exact ⟨c, m, t, Node.shape?_eq_file.mp (h.shape q _ (Node.shape?_eq_file.mpr hq))⟩

/-- What a path reaches a directory through are directories that are reached. -/
theorem Reaches.of_prefix (h : Reaches d p place) (hq : d.trail q <+: d.trail p) : ∃ above, Reaches d q above := by
  obtain ⟨rest, hrest⟩ := hq
  obtain ⟨used, hu, hf⟩ := h.way
  obtain ⟨n, hn, htrace⟩ := hf.trace_append (Node.at?_nil _) hu [] (Or.inr rfl : _ ∨ true = true)
  rw [List.append_nil, trace_nil, ← hrest] at htrace
  obtain ⟨used, there, m, hu, hfollows, hm, hon⟩ := Disk.trace_append (Node.at?_nil _) htrace fun _ => ⟨rfl, _, _, rfl⟩
  refine ⟨there.reverse, ⟨used, hu, by rwa [List.reverse_reverse]⟩, ?_⟩
  cases rest with
  | nil =>
    rw [trace_nil, Except.ok.injEq, Spot.there.injEq, List.reverse_reverse] at hon
    exact hon.1 ▸ h.dir
  | cons name rest =>
    obtain ⟨t, es, rfl, -⟩ := trace_cons_ok hon
    exact Node.shape?_eq_dir.mpr ⟨t, es, hm⟩

/-- The path, if it ends at a symbolic link, leads to something. -/
def isFirm (d : Disk) (p : Path) : Bool :=
  match d.locate false p with
  | .ok (.there _ (.link _)) => d.isThere p
  | _ => true

theorem isThere_of_isFirm {target : Path} (h : d.isFirm p = true)
    (hl : d.locate false p = .ok (.there place (.link target))) : d.isThere p = true := by
  rw [isFirm, hl] at h
  exact h

theorem isDir_iff : d.isDir p = true ↔ ∃ place n, d.find p = .ok (place, n) ∧ n.isDir = true := by
  unfold isDir
  constructor
  · intro h
    split at h
    · next place n hf => exact ⟨place, n, hf, h⟩
    · cases h
  · rintro ⟨place, n, hf, hn⟩
    rw [hf]
    exact hn

/-- Of the entries that stay as they are, only a link that led nowhere may come to lead to a directory. -/
theorem isDir_of_grown (hr : Reaches d q above) (hg : Grows d d') (hname : isName name = true)
    (hsize : name.utf8ByteSize ≤ nameLimit) (hfirm : d.isFirm (q.join ⟨[name]⟩) = true)
    (hsame : d'.top.shape? (above ++ [name]) = d.top.shape? (above ++ [name]))
    (h : d'.isDir (q.join ⟨[name]⟩) = true) : d.isDir (q.join ⟨[name]⟩) = true := by
  obtain ⟨place, n', hfind, hdir⟩ := isDir_iff.mp h
  have ht := takes_of_locate (find_ok_iff.mp hfind)
  have e := hr.entry_join hname hsize ht
  have e' := (hg.reaches hr).entry_join hname hsize ht
  cases hat : d.top.at? (above ++ [name]) with
  | none =>
    have hat' : d'.top.at? (above ++ [name]) = none := by
      simpa [Node.shape?, hat] using hsame
    rw [find_ok_iff, show d'.locate true _ = _ from e'.locate_vacant hat'] at hfind
    cases hfind
  | some n =>
    cases n with
    | file c mode t =>
      rw [Node.shape?_eq_file.mpr hat, Node.shape?_eq_file] at hsame
      rw [find_ok_iff, show d'.locate true _ = _ from e'.locate_there hsame (by simp)] at hfind
      cases hfind
      cases hdir
    | dir t es => exact isDir_iff.mpr ⟨_, _, find_ok_iff.mpr (e.locate_there hat (by simp)), rfl⟩
    | link target =>
      -- The link leads somewhere, and what it leads to is still what it was.
      have hthere := isThere_of_isFirm hfirm (e.locate_link hat)
      rw [isThere] at hthere
      cases hf : d.find (q.join ⟨[name]⟩) with
      | error fault =>
        rw [hf] at hthere
        cases hthere
      | ok found =>
        obtain ⟨m, hfind', hm, -⟩ := hg.develops.find (n := found.2) hf
        rw [hfind, Except.ok.injEq, Prod.mk.injEq] at hfind'
        exact isDir_iff.mpr ⟨_, _, hf, by rw [← hm, ← hfind'.2, hdir]⟩

end Disk

/-! ## Assets that are added -/

namespace Command

open Disk

variable {d d' : Disk} {start root p q : Path} {home : Option Path} {place above : List String} {name : String}
  {t : Stamp} {es : Entries}

/-- The tree with a directory of assets at a root. It is the tree itself if there is one. -/
inductive Furnishes (root : Path) (d : Disk) : Disk → Prop
  | stays (h : d.isDir (Layout.assetsDir root) = true) : Furnishes root d d
  | adds {place : List String} {t : Stamp} {es : Entries} (hroot : d.find root = .ok (place, .dir t es))
      (hnew : es.lookup Layout.assetsDirName = none) (new : Stamp) (held : Entries) :
      Furnishes root d (d.put (place ++ [Layout.assetsDirName]) (.dir new held))

theorem reaches_of_find_dir (h : d.find p = .ok (place, .dir t es)) :
    Reaches d p place ∧ d.top.at? place = some (.dir t es) := by
  have hat : d.top.at? place = some (.dir t es) := locate_sound (find_ok_iff.mp h)
  exact ⟨⟨follows_of_find h, Node.shape?_eq_dir.mpr ⟨t, es, hat⟩⟩, hat⟩

/-- No entry of a directory but the new one changes its shape. -/
theorem shape?_put_of_ne (hv : d.top.at? (place ++ [name]) = none) (n : Node) {other : String}
    (hd : d.top.shape? above = some .dir) (hne : above ++ [other] ≠ place ++ [name]) :
    (d.put (place ++ [name]) n).top.shape? (above ++ [other]) = d.top.shape? (above ++ [other]) := by
  refine Node.shape?_alter fun hbelow => ?_
  obtain heq | hbelow := List.prefix_concat_iff.mp hbelow
  · exact hne heq.symm
  · -- Nothing stood below the new entry.
    obtain ⟨rest, rfl⟩ := hbelow
    obtain ⟨t, es, hat⟩ := Node.shape?_eq_dir.mp hd
    rw [Node.at?_append, hv] at hat
    cases hat

theorem reaches_of_ancestor (habs : start.isAbsolute = true) (hstart : d.isDir start = true)
    (hq : q ∈ start.ancestors) : ∃ above, Reaches d q above := by
  obtain ⟨place, hr⟩ := reaches_of_isDir hstart
  refine hr.of_prefix ((Files.ancestors_cases hq).resolve_left fun hbare => ?_).2
  rw [Path.isBare, Path.isAbsolute_ancestors hq, habs] at hbare
  cases hbare

/-! ## The search -/

/-- The directory has assets, and is not the home directory. -/
def houses (home : Option Path) (d : Disk) (p : Path) : Bool :=
  home.map Path.components != some p.components && d.isDir (Layout.assetsDir p)

theorem houses_iff : houses home d p = true ↔
    home.map Path.components ≠ some p.components ∧ d.isDir (Layout.assetsDir p) = true := by
  rw [houses, Bool.and_eq_true, bne_iff_ne]

theorem findRoot_eq (start : Path) (home : Option Path) (d : Disk) :
    findRoot start home d = (start.ancestors.find? (houses home d)).getD
      ((start.ancestors.find? fun p => d.isDir (p / ".git")).getD start) := by
  unfold findRoot houses
  dsimp only
  split
  · next hfind => rw [hfind, Option.getD_some]
  · next hfind => rw [hfind, Option.getD_none]

/-- A search upwards finds the same from every directory on its way. -/
theorem search_from_ancestor {f : Path → Bool} (habs : start.isAbsolute = true) (hp : p ∈ start.ancestors)
    (hroot : root ∈ p.ancestors) (h : (start.ancestors.find? f).getD start = root) :
    (p.ancestors.find? f).getD p = root := by
  have hs := Path.ancestors_suffix habs hp
  cases hfind : start.ancestors.find? f with
  | some q =>
    rw [hfind, Option.getD_some] at h
    rw [find?_suffix (Path.nodup_ancestors habs) hs (h ▸ hroot) hfind, Option.getD_some, h]
  | none =>
    rw [hfind, Option.getD_none] at h
    rw [find?_suffix_eq_none hs hfind, Option.getD_none]
    subst h
    exact Path.eq_of_mem_ancestors habs hp hroot

theorem findRoot_from_ancestor (habs : start.isAbsolute = true) (hp : p ∈ start.ancestors)
    (hroot : findRoot start home d ∈ p.ancestors) : findRoot p home d = findRoot start home d := by
  have hs := Path.ancestors_suffix habs hp
  rw [findRoot_eq] at hroot
  rw [findRoot_eq, findRoot_eq]
  cases hfind : start.ancestors.find? (houses home d) with
  | some q =>
    rw [hfind, Option.getD_some] at hroot
    rw [find?_suffix (Path.nodup_ancestors habs) hs hroot hfind, Option.getD_some, Option.getD_some]
  | none =>
    rw [hfind, Option.getD_none] at hroot
    rw [find?_suffix_eq_none hs hfind, Option.getD_none, Option.getD_none]
    exact search_from_ancestor habs hp hroot rfl

/-- What is found is found no later than anything else that would do. -/
theorem mem_ancestors_of_find? {f : Path → Bool} (habs : p.isAbsolute = true) (hfind : p.ancestors.find? f = some q)
    (hroot : root ∈ p.ancestors) (hf : f root = true) : root ∈ q.ancestors := by
  obtain hq | hq := Path.comparable_of_mem_ancestors habs (List.mem_of_find?_eq_some hfind) hroot
  · have hfirst := find?_suffix (Path.nodup_ancestors habs) (Path.ancestors_suffix habs hroot) hq hfind
    rw [Path.ancestors_eq ((Path.isAbsolute_ancestors hroot).trans habs), List.find?_cons_of_pos hf,
      Option.some.injEq] at hfirst
    exact hfirst ▸ Files.mem_ancestors_self root
  · exact hq

/-! ## The root stays -/

section

variable {new : Stamp} {held : Entries}

theorem not_isDir_assets (hr : Reaches d root place) (hv : d.top.at? (place ++ [Layout.assetsDirName]) = none) :
    d.isDir (Layout.assetsDir root) = false := by
  by_contra h
  obtain ⟨_, _, hfind, -⟩ := isDir_iff.mp (Bool.not_eq_false _ ▸ h)
  have hloc := find_ok_iff.mp hfind
  have e : Entry d (Layout.assetsDir root) place Layout.assetsDirName :=
    hr.entry_join (by decide) (by decide) (takes_of_locate hloc)
  rw [e.locate_vacant hv] at hloc
  cases hloc

/-- Whatever directory comes to have assets is the root. -/
theorem reaches_of_houses (hv : d.top.at? (place ++ [Layout.assetsDirName]) = none)
    (hq : ∃ above, Reaches d q above) (hfirm : d.isFirm (Layout.assetsDir q) = true) (hbefore : houses home d q = false)
    (h : houses home (d.put (place ++ [Layout.assetsDirName]) (.dir new held)) q = true) : Reaches d q place := by
  obtain ⟨above, hq⟩ := hq
  obtain ⟨hhome, hdir⟩ := houses_iff.mp h
  by_cases heq : above = place
  · exact heq ▸ hq
  · have hne : above ++ [Layout.assetsDirName] ≠ place ++ [Layout.assetsDirName] := fun h =>
      heq (List.append_cancel_right h)
    have hsame := shape?_put_of_ne hv (.dir new held) hq.dir hne
    have hdir := isDir_of_grown hq (Grows.put hv _) (by decide) (by decide) hfirm hsame hdir
    rw [houses_iff.mpr ⟨hhome, hdir⟩] at hbefore
    cases hbefore

theorem isDir_git_put (hv : d.top.at? (place ++ [Layout.assetsDirName]) = none) (hq : ∃ above, Reaches d q above)
    (hfirm : d.isFirm (q / ".git") = true) :
    (d.put (place ++ [Layout.assetsDirName]) (.dir new held)).isDir (q / ".git") = d.isDir (q / ".git") := by
  obtain ⟨above, hq⟩ := hq
  have hne : above ++ [".git"] ≠ place ++ [Layout.assetsDirName] := fun heq =>
    absurd (List.append_inj_right' heq rfl) (by decide)
  have hsame := shape?_put_of_ne hv (.dir new held) hq.dir hne
  refine Bool.eq_iff_iff.mpr ⟨isDir_of_grown hq (Grows.put hv _) (by decide) (by decide) hfirm hsame, fun h => ?_⟩
  obtain ⟨spot, n, hfind, hn⟩ := isDir_iff.mp h
  obtain ⟨n', hfind', hdir, -⟩ := (Grows.put hv _).develops.find hfind
  exact isDir_iff.mpr ⟨spot, n', hfind', hdir.trans hn⟩

theorem houses_root_put (hr : Reaches d root place) (hv : d.top.at? (place ++ [Layout.assetsDirName]) = none)
    (hhome : home.map Path.components ≠ some root.components) (ht : takes (Layout.assetsDir root) = true) :
    houses home (d.put (place ++ [Layout.assetsDirName]) (.dir new held)) root = true := by
  have e : Entry _ (Layout.assetsDir root) place Layout.assetsDirName :=
    ((Grows.put hv (.dir new held)).reaches hr).entry_join (by decide) (by decide) ht
  have hfind := find_ok_iff.mpr (e.locate_there (at?_put (Node.shape?_eq_dir.mp hr.dir) (.dir new held)) (by simp))
  exact houses_iff.mpr ⟨hhome, isDir_iff.mpr ⟨_, _, hfind, rfl⟩⟩

theorem find?_houses (hroot : findRoot start home d = root) (hn : houses home d root = false) :
    start.ancestors.find? (houses home d) = none := by
  rw [findRoot_eq] at hroot
  cases hfind : start.ancestors.find? (houses home d) with
  | none => rfl
  | some q =>
    rw [hfind, Option.getD_some] at hroot
    rw [← hroot, List.find?_some hfind] at hn
    cases hn

theorem find?_git_put (hv : d.top.at? (place ++ [Layout.assetsDirName]) = none)
    (hq : ∀ q ∈ p.ancestors, (∃ above, Reaches d q above) ∧ d.isFirm (q / ".git") = true) :
    (p.ancestors.find? fun q => (d.put (place ++ [Layout.assetsDirName]) (.dir new held)).isDir (q / ".git")) =
      p.ancestors.find? fun q => d.isDir (q / ".git") := by
  rw [← List.head?_filter, ← List.head?_filter]
  exact congrArg _ (List.filter_congr fun q hmem => isDir_git_put hv (hq q hmem).1 (hq q hmem).2)

/-- The directory that a search finds once its root has assets is still the root. -/
theorem reaches_findRoot_put (habs : start.isAbsolute = true) (hstart : d.isDir start = true)
    (hroot : findRoot start home d = root) (hr : Reaches d root place)
    (hv : d.top.at? (place ++ [Layout.assetsDirName]) = none)
    (hway : ∀ q ∈ start.ancestors, root ∈ q.ancestors → d.isFirm (Layout.assetsDir q) = true)
    (hpast : home.map Path.components = some root.components ∨ takes (Layout.assetsDir root) = false →
      ∀ q ∈ start.ancestors, d.isFirm (Layout.assetsDir q) = true ∧ d.isFirm (q / ".git") = true)
    (hp : p ∈ start.ancestors) (hrp : root ∈ p.ancestors) :
    Reaches d (findRoot p home (d.put (place ++ [Layout.assetsDirName]) (.dir new held))) place := by
  have hsub := (Path.ancestors_suffix habs hp).subset
  have hnone := find?_houses hroot (Bool.and_eq_false_imp.mpr fun _ => not_isDir_assets hr hv)
  -- Unless something hides them, the new assets end the search at the root at the latest.
  have hseen (h : ¬ (home.map Path.components = some root.components ∨ takes (Layout.assetsDir root) = false)) :
      houses home (d.put (place ++ [Layout.assetsDirName]) (.dir new held)) root = true :=
    houses_root_put hr hv (fun hhome => h (Or.inl hhome)) (Bool.not_eq_false _ ▸ fun ht => h (Or.inr ht))
  rw [findRoot_eq]
  cases hfind : p.ancestors.find? (houses home (d.put (place ++ [Layout.assetsDirName]) (.dir new held))) with
  | some q =>
    have hq := hsub (List.mem_of_find?_eq_some hfind)
    refine reaches_of_houses hv (reaches_of_ancestor habs hstart hq) ?_
      (Bool.eq_false_iff.mpr (List.find?_eq_none.mp hnone q hq)) (List.find?_some hfind)
    by_cases hhidden : home.map Path.components = some root.components ∨ takes (Layout.assetsDir root) = false
    · exact (hpast hhidden q hq).1
    · exact hway q hq (mem_ancestors_of_find? ((Path.isAbsolute_ancestors hp).trans habs) hfind hrp (hseen hhidden))
  | none =>
    have hhidden : home.map Path.components = some root.components ∨ takes (Layout.assetsDir root) = false := by
      by_contra h
      exact List.find?_eq_none.mp hfind root hrp (hseen h)
    rw [findRoot_eq, hnone, Option.getD_none] at hroot
    rw [Option.getD_none, find?_git_put hv fun q hq =>
      ⟨reaches_of_ancestor habs hstart (hsub hq), (hpast hhidden q (hsub hq)).2⟩,
      search_from_ancestor habs hp hrp hroot]
    exact hr

end

/-- Assets that are added to the root do not move it. -/
theorem root_stays_with_assets (d d' : Disk) (start root : Path) (home : Option Path)
    (habs : start.isAbsolute = true) (hstart : d.isDir start = true) (hroot : findRoot start home d = root) :
    root ∈ start.ancestors ∧
      (Furnishes root d d' →
        (∀ p ∈ start.ancestors, root ∈ p.ancestors → d.isFirm (Layout.assetsDir p) = true) →
        (home.map Path.components = some root.components ∨ takes (Layout.assetsDir root) = false →
          ∀ p ∈ start.ancestors, d.isFirm (Layout.assetsDir p) = true ∧ d.isFirm (p / ".git") = true) →
        ∀ p ∈ start.ancestors, root ∈ p.ancestors →
          ∃ place, Reaches d root place ∧ Reaches d (findRoot p home d') place ∧
            ((∀ q ∈ start.ancestors, Reaches d q place → q = root) → findRoot p home d' = root)) := by
  have hmem : root ∈ start.ancestors := hroot ▸ Session.mem_ancestors_findRoot start home d
  refine ⟨hmem, fun hf hway hpast p hp hrp => ?_⟩
  have hafter : findRoot p home d' ∈ start.ancestors :=
    (Path.ancestors_suffix habs hp).subset (Session.mem_ancestors_findRoot p home d')
  suffices ∃ place, Reaches d root place ∧ Reaches d (findRoot p home d') place by
    obtain ⟨place, hr, hafter'⟩ := this
    exact ⟨place, hr, hafter', fun honly => honly _ hafter hafter'⟩
  cases hf with
  | stays =>
    obtain ⟨place, hr⟩ := reaches_of_ancestor habs hstart hmem
    rw [findRoot_from_ancestor habs hp (hroot ▸ hrp), hroot]
    exact ⟨place, hr, hr⟩
  | adds hfind hnew new held =>
    obtain ⟨hr, hat⟩ := reaches_of_find_dir hfind
    have hv := (Node.at?_child hat).trans hnew
    exact ⟨_, hr, reaches_findRoot_put habs hstart hroot hr hv hway hpast hp hrp⟩

/-- A home directory under version control, and a project in it whose assets are a link to a file. -/
def homestead : Disk :=
  ⟨.dir ⟨0, false⟩
    [ ("home", .dir ⟨0, false⟩
        [ (".git", .dir ⟨0, false⟩ [])
        , ("notes", .file "".toUTF8 0o644 ⟨0, false⟩)
        , ("src", .dir ⟨0, false⟩ [(".claude", .link (.ofText "../notes")), ("deep", .dir ⟨0, false⟩ [])]) ]) ],
    [], 0⟩

/-- The home directory stays the root of what is in it, though its assets do not count. -/
theorem homestead_root_stays :
    let home := Path.ofText "/home"
    let d' := homestead.put ["home", ".claude"] (.dir ⟨1, false⟩ [])
    findRoot (.ofText "/home/src/deep") (some home) homestead = home ∧ Furnishes home homestead d' ∧
      findRoot (.ofText "/home/src") (some home) d' = home := by
  intro home d'
  have hroot : findRoot (.ofText "/home/src/deep") (some home) homestead = home := by decide +kernel
  have hf : Furnishes home homestead d' := .adds (show _ = Except.ok (["home"], Node.dir _ _) from rfl) rfl _ _
  have hfirm : ∀ p ∈ (Path.ofText "/home/src/deep").ancestors,
      homestead.isFirm (Layout.assetsDir p) = true ∧ homestead.isFirm (p / ".git") = true := by decide +kernel
  have honly : ∀ q ∈ (Path.ofText "/home/src/deep").ancestors, takes q = true ∧
      ((homestead.find q).toOption.map Prod.fst = some ["home"] → q = home) := by decide +kernel
  obtain ⟨place, hr, -, hsame⟩ := (root_stays_with_assets homestead d' _ home _ (by decide) (by decide +kernel) hroot).2
    hf (fun p hp _ => (hfirm p hp).1) (fun _ => hfirm) (.ofText "/home/src") (by decide +kernel) (by decide +kernel)
  obtain rfl : place = ["home"] := (reaches_of_find_dir (p := home) rfl).1.unique hr rfl
  refine ⟨hroot, hf, hsame fun q hq hreach => (honly q hq).2 ?_⟩
  obtain ⟨t, es, hfind⟩ := hreach.find (honly q hq).1
  rw [hfind]
  rfl

/-- A link in the start directory that comes to lead to the new assets makes it a root of its own, and
a home directory that is spelled in a roundabout way counts as a root under its plain name. -/
theorem assets_may_move_root :
    (let d : Disk := ⟨.dir ⟨0, false⟩ [("project", .dir ⟨0, false⟩
        [ (".git", .dir ⟨0, false⟩ [])
        , ("sub", .dir ⟨0, false⟩ [(".claude", .link (.ofText "../.claude"))]) ])], [], 0⟩
      let sub := Path.ofText "/project/sub"
      let d' := d.put ["project", ".claude"] (.dir ⟨1, false⟩ [])
      findRoot sub none d = .ofText "/project" ∧ Furnishes (.ofText "/project") d d' ∧ findRoot sub none d' = sub) ∧
    (let d : Disk := ⟨.dir ⟨0, false⟩ [("a", .dir ⟨0, false⟩ [])], [], 0⟩
      let home := Path.ofText "/a/../a"
      let d' := d.put ["a", ".claude"] (.dir ⟨1, false⟩ [])
      findRoot home (some home) d = home ∧ Furnishes home d d' ∧
        findRoot home (some home) d' = .ofText "/a") := by
  refine ⟨⟨by decide +kernel, ?_, by decide +kernel⟩, ⟨by decide +kernel, ?_, by decide +kernel⟩⟩
  · exact .adds (show _ = Except.ok (["project"], Node.dir _ _) from rfl) rfl _ _
  · exact .adds (show _ = Except.ok (["a"], Node.dir _ _) from rfl) rfl _ _

end Command

end Outfitter
