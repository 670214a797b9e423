import Outfitter.Proofs.Disk.Growth
import Outfitter.Proofs.Install
import Outfitter.Proofs.Replace

/-! # Entries that an installation leaves alone

On a tree with links, an installation changes what is there only where the destination of a file
leads at its turn. A destination that belongs to the user is passed over if something is found
there. A link that leads nowhere is not found: it is taken for a free place and replaced.
-/

namespace Outfitter.Install

open Disk Action Files

variable {b : Bundle} {m : Manifest} {root : Path} {d a a' : Disk} {bundled dest : String} {place : List String}
  {s : Shape} {r : Report} {names : List String}

/-! ## One file -/

/-- A file is put at an entry: its destination leads there once its directories are made, and no
directory is there. -/
structure Lands (a a' : Disk) (p : Path) (above : List String) (name : String) : Prop where
  entry : Entry ((makeParents p).on a).2 p above name
  made : ((makeParents p).on a).1 = .ok ()
  free : ((makeParents p).on a).2.top.shape? (above ++ [name]) ≠ some .dir
  differs : Differs (above ++ [name]) ((makeParents p).on a).2 a'
  file : ∃ c mode t, a'.top.at? (above ++ [name]) = some (.file c mode t)

/-- Where a file was put, its mode can be changed, and nothing else is. -/
theorem makeExecutable_replaced {p : Path} {above : List String} {name : String} {bytes : ByteArray}
    (e : Entry d p above name) (h : d.replace p bytes = (.ok (), a)) :
    Differs (above ++ [name]) d ((makeExecutable p).on a).2 ∧
      ∃ c mode t, ((makeExecutable p).on a).2.top.at? (above ++ [name]) = some (.file c mode t) := by
  obtain ⟨-, hdiffers, hfile⟩ := e.replaced h
  cases hfind : a.find p with
  | error err =>
    rw [makeExecutable, on_change_error (by rw [changeMode, hfind])]
    exact ⟨hdiffers, _, _, _, hfile⟩
  | ok found =>
    obtain ⟨place, n⟩ := found
    obtain rfl : place = above ++ [name] := e.place_of_replaced h hfind
    have hat : a.top.at? (above ++ [name]) = some n := locate_sound (find_ok_iff.mp hfind)
    cases Option.some.inj (hat.symm.trans hfile)
    obtain ⟨hmode, hnew⟩ : Differs (above ++ [name]) a
        (a.update (above ++ [name]) fun _ => .file bytes (defaultMode ||| 0o111) d.now) ∧ _ := differs_update hfile
    have hchange : a.changeMode p (· ||| 0o111) =
        .ok (a.update (above ++ [name]) fun _ => .file bytes (defaultMode ||| 0o111) d.now) := by
      rw [changeMode, hfind]
      refine congrArg Except.ok (congrArg (fun top => { a with top }) (Node.alter_congr ?_))
      rw [hfile]
      rfl
    rw [makeExecutable, on_change_ok hchange]
    exact ⟨⟨hmode.cwd.trans hdiffers.cwd, fun q hq => (hmode.elsewhere q hq).trans (hdiffers.elsewhere q hq)⟩,
      _, _, _, hnew⟩

/-- Copying a file adds to the tree at most, or puts the file at an entry. -/
theorem copyOne_cases (hd : ∀ s ∈ splitSlash dest, isName s = true) (a : Disk) :
    Grows a ((copyOne b bundled dest (root / dest)).on a).2 ∨
      ∃ above name, Lands a ((copyOne b bundled dest (root / dest)).on a).2 (root / dest) above name := by
  have hgrows := grows_makeParents a (root / dest)
  rcases hread : (b.read bundled).on a with ⟨r, a₀⟩
  obtain rfl : a₀ = a := by
    have hstay := Bundle.keeps_read (P := (· = a)) (b := b) bundled a rfl
    rwa [hread] at hstay
  cases r with
  | error e =>
    rw [copyOne, on_bind_error hread]
    exact Or.inl (.refl _)
  | ok bytes =>
    rw [copyOne, on_bind_ok hread]
    rcases hmake : (makeParents (root / dest)).on a₀ with ⟨e | ⟨⟩, a₁⟩
    · rw [hmake] at hgrows
      rw [on_bind_error (show (Files.replace (root / dest) bytes).on a₀ = _ from on_bind_error hmake)]
      exact Or.inl hgrows
    · rw [hmake] at hgrows
      have htrail : a₁.trail (root / dest) = (a₁.trail root ++ (splitSlash dest).dropLast) ++
          [(splitSlash dest).getLast (Path.splitSlash_ne_nil dest)] := by
        rw [trail_div hd, List.append_assoc, List.dropLast_append_getLast]
      have hlast := (isName_iff.mp (hd _ (List.getLast_mem (Path.splitSlash_ne_nil dest)))).2.2.1
      have hidle : (root / dest).endsIdle = false := Path.endsIdle_join (Path.splitSlash_ne_nil dest) hd
      have hreplace : (Files.replace (root / dest) bytes).on a₀ = _ := on_replace_ok hmake
      rcases replace_or_entry htrail hlast (steps_div root hd) hidle bytes with
        ⟨e, a₂, hrep, hgrows₂⟩ | ⟨above, a₂, entry, hrep⟩
      · rw [hrep] at hreplace
        rw [on_bind_error hreplace]
        exact Or.inl (hgrows.trans hgrows₂)
      · rw [hrep] at hreplace
        obtain ⟨hfree, hdiffers, hfile⟩ := entry.replaced hrep
        rw [on_bind_ok hreplace]
        refine Or.inr ⟨above, _, by rw [hmake]; exact entry, by rw [hmake], by rw [hmake]; exact hfree, ?_, ?_⟩
        · rw [hmake]
          split
          · exact (makeExecutable_replaced entry hrep).1
          · exact hdiffers
        · split
          · exact (makeExecutable_replaced entry hrep).2
          · exact ⟨_, _, _, hfile⟩

/-! ## What becomes of a tree -/

/-- Of what was on a disk, directories are still there, and links at most gave way to files. -/
structure Evolves (d a : Disk) : Prop where
  cwd : a.cwd = d.cwd
  dir : ∀ q, d.top.shape? q = some .dir → a.top.shape? q = some .dir
  link : ∀ q target, d.top.shape? q = some (.link target) →
    a.top.shape? q = some (.link target) ∨ ∃ c mode t, a.top.shape? q = some (.file c mode t)

namespace Evolves

theorem refl (d : Disk) : Evolves d d := ⟨rfl, fun _ h => h, fun _ _ h => Or.inl h⟩

theorem grows (h : Evolves d a) (hg : Grows a a') : Evolves d a' where
  cwd := hg.cwd.trans h.cwd
  dir := fun q hq => hg.shape q _ (h.dir q hq)
  link := fun q target hq => (h.link q target hq).imp (hg.shape q _) fun ⟨c, mode, t, hf⟩ =>
    ⟨c, mode, t, hg.shape q _ hf⟩

theorem lands {p : Path} {above : List String} {name : String} (h : Evolves d a) (hl : Lands a a' p above name) :
    Evolves d a' := by
  have hmade := h.grows (grows_makeParents a p)
  obtain ⟨c, mode, t, hfile⟩ := hl.file
  refine ⟨hl.differs.cwd.trans hmade.cwd, fun q hq => ?_, fun q target hq => ?_⟩
  · by_cases heq : q = above ++ [name]
    · exact absurd (hmade.dir _ (heq ▸ hq)) hl.free
    · rw [hl.differs.elsewhere q heq]
      exact hmade.dir q hq
  · by_cases heq : q = above ++ [name]
    · exact Or.inr ⟨c, mode, t, by rw [heq]; exact Node.shape?_eq_file.mpr hfile⟩
    · rw [hl.differs.elsewhere q heq]
      exact hmade.link q target hq

theorem step (h : Evolves d a) (hclean : isClean bundled = true) (r : Report) :
    Evolves d ((installOne b m root r bundled).on a).2 := by
  refine keeps_installOne (P := Evolves d) (fun a ha _ => ?_) a h
  exact (copyOne_cases (isName_destination hclean) a).elim ha.grows fun ⟨_, _, hl⟩ => ha.lands hl

end Evolves

/-- A file that is put where something was leads there without new directories, if the root led to a
directory from the start. -/
theorem Lands.entry_of_there {above : List String} {name : String} (hroot : d.isDir root = true) (h : Evolves d a)
    (hd : ∀ s ∈ splitSlash dest, isName s = true) (hl : Lands a a' (root / dest) above name)
    (hthere : a.top.at? (above ++ [name]) ≠ none) : Entry a (root / dest) above name := by
  obtain ⟨start, hreach⟩ := reaches_of_isDir hroot
  obtain ⟨used, hu, hway⟩ := hreach.way
  have hgrows := grows_makeParents a (root / dest)
  have hne := Path.splitSlash_ne_nil dest
  have hstart : d.top.shape? start.reverse.reverse = some .dir := by
    rw [List.reverse_reverse]
    exact hreach.dir
  rcases hway.or_blocked h.dir h.link hgrows.shape hstart with hway | hblock
  · have hreach' : Reaches a root start :=
      ⟨⟨used, hu, by rwa [trail_of_cwd h.cwd]⟩, h.dir _ hreach.dir⟩
    obtain ⟨n, hn⟩ := Option.ne_none_iff_exists'.mp hthere
    have hfound : ((makeParents (root / dest)).on a).2.top.shape? (above ++ [name]) = some n.shape :=
      hgrows.shape _ _ (by rw [Node.shape?, hn]; rfl)
    have heq : ((makeParents (root / dest)).on a).2 = a :=
      makeParents_of_found hreach' hd hne (Prod.ext hl.made rfl) hl.entry fun hnone => by
        simp [Node.shape?, hnone] at hfound
    rw [← heq]
    exact hl.entry
  · -- the way to the root is cut, so nothing was found below it
    obtain ⟨spot, hspot⟩ := hl.entry.exists_locate
    rw [locate_eq_settle hl.entry.takes, trail_div hd, trail_of_cwd (hgrows.cwd.trans h.cwd)] at hspot
    exact absurd (settle_ok hspot).1 (hblock _ _ _ _ _ hne (Node.at?_nil _))

theorem installOne_disk (b : Bundle) (m : Manifest) (root : Path) (r : Report) (bundled : String) (d : Disk) :
    ((installOne b m root r bundled).on d).2 = d ∨
      keeps m bundled (Inventory.destination bundled) (d.isThere (root / Inventory.destination bundled)) = false ∧
        ((installOne b m root r bundled).on d).2 =
          ((copyOne b bundled (Inventory.destination bundled) (root / Inventory.destination bundled)).on d).2 := by
  rcases installOne_cases b m root r bundled d with ⟨-, h⟩ | ⟨hk, ⟨d', hc, h⟩ | ⟨e, d', hc, h⟩⟩
  · exact Or.inl (by rw [h])
  · exact Or.inr ⟨hk, by rw [h, hc]⟩
  · exact Or.inr ⟨hk, by rw [h, hc]⟩

/-- Installing one file leaves an entry as it is, unless the file's destination leads there at its
turn; a destination of the user must then be a link that leads nowhere. -/
theorem installOne_stays {n : Node} (hroot : d.isDir root = true) (h : Evolves d a) (hclean : isClean bundled = true)
    (hn : a.top.shape? place = some n.shape) :
    ((installOne b .curated root r bundled).on a).2.top.shape? place = some n.shape ∨
      a.locate false (root / Inventory.destination bundled) = .ok (.there place n) ∧ n.isDir = false ∧
        (Inventory.isUserOwned (Inventory.destination bundled) = true →
          (∃ target, n = .link target) ∧ a.isThere (root / Inventory.destination bundled) = false) := by
  have hd := isName_destination hclean
  rcases installOne_disk b .curated root r bundled a with hrun | ⟨hcopy, hrun⟩
  · rw [hrun]
    exact Or.inl hn
  rw [hrun]
  rcases copyOne_cases hd a with hgrows | ⟨above, name, hl⟩
  · exact Or.inl (hgrows.shape _ _ hn)
  have hn₁ := (grows_makeParents a (root / Inventory.destination bundled)).shape _ _ hn
  by_cases heq : place = above ++ [name]
  · subst heq
    have e := hl.entry_of_there hroot h hd fun hnone => by simp [Node.shape?, hnone] at hn
    cases n with
    | dir => exact absurd hn₁ hl.free
    | file c mode t =>
      have hfound : a.locate true _ = _ := e.locate_there (Node.shape?_eq_file.mp hn) (by simp)
      refine Or.inr ⟨e.locate_there (Node.shape?_eq_file.mp hn) (by simp), rfl, fun howned => ?_⟩
      rw [isThere, find_ok_iff.mpr hfound] at hcopy
      exact absurd ((keeps_curated howned).symm.trans hcopy) (by decide)
    | link target =>
      refine Or.inr ⟨e.locate_link (Node.shape?_eq_link.mp hn), rfl, fun howned => ⟨⟨target, rfl⟩, ?_⟩⟩
      rw [Bool.eq_false_iff]
      intro hthere
      rw [hthere] at hcopy
      exact absurd ((keeps_curated howned).symm.trans hcopy) (by decide)
  · rw [hl.differs.elsewhere place heq]
    exact Or.inl hn₁

/-! ## The whole bundle -/

/-- A file of the bundle comes to lie on an entry: at its turn its destination leads there. If that is
the user's, the entry is a link that leads nowhere. -/
def Overlays (b : Bundle) (root : Path) (d : Disk) (names : List String) (r : Report) (place : List String)
    (n : Node) : Prop :=
  ∃ before bundled after r' a, names = before ++ bundled :: after ∧
    (before.foldlM (installOne b .curated root) r).on d = (.ok r', a) ∧
    a.locate false (root / Inventory.destination bundled) = .ok (.there place n) ∧ n.isDir = false ∧
    (Inventory.isUserOwned (Inventory.destination bundled) = true →
      (∃ target, n = .link target) ∧ a.isThere (root / Inventory.destination bundled) = false)

theorem installAll_stays {n : Node} (hroot : d.isDir root = true) (h : Evolves d a)
    (hclean : ∀ name ∈ names, isClean name = true) (hn : a.top.shape? place = some n.shape) (r : Report) :
    ((names.foldlM (installOne b .curated root) r).on a).2.top.shape? place = some n.shape ∨
      Overlays b root a names r place n := by
  induction names generalizing a r with
  | nil => exact Or.inl hn
  | cons name names ih =>
    have hname := hclean name List.mem_cons_self
    obtain ⟨r₁, a₁, h₁⟩ := installOne_ok b .curated root r name a
    have hevolves : Evolves d ((installOne b .curated root r name).on a).2 := h.step hname r
    rw [h₁] at hevolves
    rw [List.foldlM_cons, on_bind_ok h₁]
    rcases installOne_stays (b := b) (r := r) hroot h hname hn with hstay | hlands
    · rw [h₁] at hstay
      refine (ih hevolves (fun other hmem => hclean other (List.mem_cons_of_mem _ hmem)) hstay r₁).imp_right ?_
      rintro ⟨before, bundled, after, r', a', rfl, hrun, hrest⟩
      exact ⟨name :: before, bundled, after, r', a', rfl, by rw [List.foldlM_cons, on_bind_ok h₁, hrun], hrest⟩
    · exact Or.inr ⟨[], name, names, r, a, rfl, rfl, hlands⟩

/-- Whatever is in a project stays through an installation, unless a file comes to lie on it; at a
destination of the user that happens to links that lead nowhere only. -/
theorem entries_stay_unless_overlaid (b : Bundle) (root : Path) (d : Disk) (place : List String) (n : Node)
    (hroot : d.isDir root = true) (hclean : ∀ name ∈ listed b d, isClean name = true)
    (hthere : d.top.at? place = some n) :
    ((run b .curated root).on d).2.top.shape? place = d.top.shape? place ∨
      Overlays b root d (listed b d) ⟨[], [], []⟩ place n := by
  have hn : d.top.shape? place = some n.shape := by rw [Node.shape?, hthere]; rfl
  rw [hn]
  rcases run_cases b .curated root d with ⟨e, -, hrun⟩ | ⟨r, d', -, hfold, hrun⟩
  · rw [hrun]
    exact Or.inl hn
  · rw [hrun]
    have hstay := installAll_stays (b := b) hroot (.refl d) hclean hn ⟨[], [], []⟩
    rwa [hfold] at hstay

/-- A project whose guide is a link to a file, and whose list of agents is a link to nothing. -/
def borrowed : Disk :=
  ⟨.dir ⟨0, false⟩
    [ ("project", .dir ⟨1, false⟩
        [ ("AGENTS.md", .link (Path.ofText "../shared/agents.md"))
        , ("CLAUDE.md", .link (Path.ofText "docs/guide.md"))
        , ("docs", .dir ⟨2, false⟩ [("guide.md", .file "mine".toUTF8 0o600 ⟨3, false⟩)]) ]) ],
    [], 100⟩

/-- A bundle with a guide and a list of agents. -/
def guides : Bundle :=
  .held ["AGENTS.md", "CLAUDE.md.template"] [("AGENTS.md", "agents".toUTF8), ("CLAUDE.md.template", "guide".toUTF8)]

/-- The link to nothing is replaced by a file, although its path is the user's. -/
theorem borrowed_link_is_replaced :
    Inventory.isUserOwned (Inventory.destination "AGENTS.md") = true ∧
      (borrowed.top.at? ["project", "AGENTS.md"]).map Node.isFile = some false ∧
      (((run guides .curated (Path.ofText "/project")).on borrowed).2.top.at? ["project", "AGENTS.md"]).map
        Node.isFile = some true := by
  decide +kernel

/-- The link to a file stays. -/
theorem borrowed_guide_stays :
    ((run guides .curated (Path.ofText "/project")).on borrowed).2.top.shape? ["project", "CLAUDE.md"] =
      some (.link (Path.ofText "docs/guide.md")) := by
  have hfirst : (borrowed.locate false (Path.ofText "/project" / Inventory.destination "AGENTS.md")).toOption.map
      Spot.place = some ["project", "AGENTS.md"] := by decide +kernel
  have hsecond : ((["AGENTS.md"].foldlM (installOne guides .curated (Path.ofText "/project")) ⟨[], [], []⟩).on
      borrowed).2.isThere (Path.ofText "/project" / Inventory.destination "CLAUDE.md.template") = true := by
    decide +kernel
  rcases entries_stay_unless_overlaid guides (Path.ofText "/project") borrowed ["project", "CLAUDE.md"]
      (.link (Path.ofText "docs/guide.md")) (by decide +kernel) (by decide) rfl with
    hstay | ⟨before, bundled, after, r, a, hnames, hrun, hleads, -, howned⟩
  · exact hstay
  -- no file comes to lie on the link: the first has another place, and the second finds what it leads to
  replace hnames : ["AGENTS.md", "CLAUDE.md.template"] = before ++ bundled :: after := hnames
  exfalso
  rcases before with _ | ⟨first, _ | ⟨second, before⟩⟩
  · cases hnames
    cases hrun
    rw [hleads] at hfirst
    exact absurd hfirst (by decide)
  · cases hnames
    rw [hrun, (howned (by decide)).2] at hsecond
    cases hsecond
  · simp at hnames

end Outfitter.Install
