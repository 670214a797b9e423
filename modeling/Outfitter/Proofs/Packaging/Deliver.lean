import Outfitter.Proofs.Install.Deliver
import Outfitter.Proofs.Packaging.Audit

/-! # From a source to a project

A bundle that was made anew lists the files that ship, in the order of their names, and an
installation puts each of them where it belongs in a project. So a project that was empty has just
those files, unless the bundle itself is inside it.
-/

namespace Outfitter

namespace Manifest

/-- Nothing that ships is at, or below, the guide of a project. -/
theorem not_guide {name : String} (hc : isClean name = true) (hi : curated.includes name = true) :
    ¬ ["CLAUDE.md"] <+: splitSlash name := by
  intro hpre
  have hguide : splitSlash "CLAUDE.md" = ["CLAUDE.md"] := by decide
  rw [← hguide] at hpre
  rcases Path.append_of_splitSlash hpre with rfl | ⟨rest, rfl⟩
  · exact absurd (prefix_of_includes hc hi) (by decide)
  · have hbegins : "CLAUDE.md/".toList <+: ("CLAUDE.md" ++ "/" ++ rest).toList := ⟨rest.toList, by simp⟩
    rcases prefix_of_includes hc hi with h | h
    · exact absurd (List.prefix_or_prefix_of_prefix hbegins h) (by decide)
    · exact absurd (List.prefix_or_prefix_of_prefix hbegins h) (by decide)

end Manifest

namespace Packaging

open Disk Action Files Walk Install

variable {d e : Disk} {source target root : Path} {src dst place rel below : List String} {c : ByteArray}
  {mode : Nat} {t : Stamp}

/-! ## The list of a bundle -/

/-- Whether a bundle lists what a walk met. -/
def isListed (i : List String × Kind) : Bool := i.2 = .file && !i.1.isEmpty

theorem isListed_iff {i : List String × Kind} : isListed i = true ↔ i.2 = .file ∧ i.1 ≠ [] := by
  simp [isListed]

theorem on_collect (found : List String) (p : Path) (i : List String × Kind) :
    (Bundle.collect found (.ok ⟨p, i.1, i.2⟩)).on e =
      (.ok (if isListed i then nameOf i.1 :: found else found), e) := by
  show (if isListed i then pure (Path.slashed (Item.relative ⟨p, i.1, i.2⟩).text :: found) else pure found : Action _).on e = _
  split
  · next h => rw [slashed_relative (isListed_iff.mp h).2, on_pure]
  · rfl

/-- The order of names is total. -/
theorem sorted_names (names : List String) (h : names.Nodup) :
    (names.mergeSort fun a b => !(b < a)).Pairwise (· < ·) := by
  have hle : (names.mergeSort fun a b => !(b < a)).Pairwise fun a b => !(b < a) := by
    apply List.pairwise_mergeSort
    · intro a b c hab hbc
      simp only [Bool.not_eq_true', decide_eq_false_iff_not, String.not_lt] at hab hbc ⊢
      exact String.le_trans hab hbc
    · intro a b
      simp only [Bool.or_eq_true, Bool.not_eq_true', decide_eq_false_iff_not, String.not_lt]
      exact String.le_total a b
  have hne : (names.mergeSort fun a b => !(b < a)).Nodup := (List.mergeSort_perm _ _).nodup_iff.mpr h
  refine (hle.and hne).imp ?_
  rintro a b ⟨hab, hne⟩
  simp only [Bool.not_eq_true', decide_eq_false_iff_not, String.not_lt] at hab
  by_contra hba
  exact hne (String.le_antisymm hab (String.not_lt.mp hba))

/-- A walk collects the files below a directory, each once. -/
theorem collect_of_dir (hp : e.top.isProper = true) (hr : Reaches e target dst) (ht : takes target = true)
    (hin : ∀ below t es, below ≠ [] → e.top.at? (dst ++ below) = some (.dir t es) →
      Fits below ∧ takes (target.join ⟨below⟩) = true) :
    ∃ files : List (List String), (Walk.fold ⟨false, false⟩ Bundle.collect [] target).on e = (.ok (files.map nameOf).reverse, e) ∧
      files.Nodup ∧ ∀ rel, rel ∈ files ↔ ∃ c mode t, e.top.at? (dst ++ rel) = some (.file c mode t) := by
  obtain ⟨t, es, hfind⟩ := hr.find ht
  have hn : e.top.at? dst = some (.dir t es) := locate_sound (find_ok_iff.mp hfind)
  obtain ⟨-, hproper⟩ := Node.hereditary_isProper.of_at? hp hn
  have hs : Shallow maxDepth (.dir t es) := shallow_of_limits hn hin
  have hmem {rel : List String} {k : Kind} : (rel, k) ∈ tour ⟨false, false⟩ maxDepth [] (.dir t es) ↔
      ∃ n, e.top.at? (dst ++ rel) = some n ∧ k = kindOf n := by
    rw [mem_tour hproper hs]
    simp [Node.at?_append, hn]
  have hwalk : ∃ found e', (foldFrom ⟨false, false⟩ Bundle.collect maxDepth [] [] ⟨target, [], .dir⟩).on e = (.ok found, e') ∧
      e = e' ∧ found = ((filesOf isListed (tour ⟨false, false⟩ maxDepth [] (.dir t es))).map nameOf).reverse := by
    have hstart : e = e ∧ [] = ((filesOf isListed []).map nameOf).reverse := ⟨rfl, rfl⟩
    refine runs_tour (I := fun met found e' => e = e' ∧ found = ((filesOf isListed met).map nameOf).reverse)
      rfl hproper ?_ ?_ [] (Node.at?_nil _) hs hstart (List.prefix_refl _)
    · rintro met found _ ⟨rfl, -⟩ below t' es' hat
      have hat' : e.top.at? (dst ++ below) = some (.dir t' es') := by rw [Node.at?_append, hn]; exact hat
      exact list_pathBelow hr ht (fun hb => hin below _ _ hb hat') hat'
    · rintro met _ _ i ⟨rfl, rfl⟩ -
      refine ⟨_, _, on_collect _ _ i, rfl, ?_⟩
      rw [filesOf_concat]
      split <;> simp
  obtain ⟨_, _, hrun, rfl, rfl⟩ := hwalk
  refine ⟨filesOf isListed (tour ⟨false, false⟩ maxDepth [] (.dir t es)), ?_,
    nodup_filesOf (fun _ h => (isListed_iff.mp h).1) (nodup_tour hproper hs), fun rel => ?_⟩
  · rw [Walk.fold, on_bind_ask, hfind]
    exact hrun
  · rw [mem_filesOf fun _ h => (isListed_iff.mp h).1, hmem, isListed_iff]
    constructor
    · rintro ⟨⟨n, hat, hkind⟩, -⟩
      cases n with
      | file c mode t => exact ⟨c, mode, t, hat⟩
      | dir => cases hkind
      | link => cases hkind
    · rintro ⟨c, mode, t, hat⟩
      refine ⟨⟨_, hat, rfl⟩, rfl, ?_⟩
      rintro rfl
      rw [List.append_nil, hn] at hat
      cases hat

/-- A bundle lists the files below its directory, in the order of their names. -/
theorem files_of_dir (hp : e.top.isProper = true) (hr : Reaches e target dst) (ht : takes target = true)
    (hin : ∀ below n, below ≠ [] → e.top.at? (dst ++ below) = some n →
      Plain below ∧ Fits below ∧ takes (target.join ⟨below⟩) = true) :
    ∃ names, (Bundle.dir target).files.on e = (.ok names, e) ∧ names.Pairwise (· < ·) ∧
      ∀ name, name ∈ names ↔ ∃ rel, (∃ c mode t, e.top.at? (dst ++ rel) = some (.file c mode t)) ∧ name = nameOf rel := by
  obtain ⟨files, hwalk, hnodup, hmem⟩ := collect_of_dir hp hr ht fun below _ _ hb hat => (hin below _ hb hat).2
  have hsplit : ∀ rel ∈ files, splitSlash (nameOf rel) = rel := by
    intro rel hrel
    obtain ⟨c, mode, t, hat⟩ := (hmem rel).mp hrel
    have hb := hr.ne_nil_of_file hat
    exact splitSlash_nameOf (hin rel _ hb hat).1 hb
  have hnames : (files.map nameOf).Nodup := by
    refine hnodup.map_on fun rel hrel rel' hrel' heq => ?_
    rw [← hsplit rel hrel, heq, hsplit rel' hrel']
  refine ⟨_, ?_, sorted_names _ (List.nodup_reverse.mpr hnames), fun name => ?_⟩
  · rw [Bundle.files, on_bind_ask, if_pos (hr.isDir ht), on_bind_ok hwalk, on_pure]
  · rw [List.mem_mergeSort, List.mem_reverse, List.mem_map]
    exact exists_congr fun rel => and_congr (hmem rel) eq_comm

/-! ## Where files go -/

/-- A file that ships goes where it was, or to the guide of a project. -/
theorem landing_cases (hk : Packable d source target src dst) (hi : Included d src .curated rel) :
    nameOf rel = "CLAUDE.md.template" ∧ landing (nameOf rel) = ["CLAUDE.md"] ∨
      landing (nameOf rel) = rel ∧ ¬ ["CLAUDE.md"] <+: rel := by
  obtain ⟨⟨c, mode, t, hat⟩, hincludes⟩ := hi
  have hr := hk.rel_ne_nil hat
  have hplain := (hk.limits rel _ hr hat).1
  have hsplit := splitSlash_nameOf hplain hr
  rcases Inventory.destination_cases (nameOf rel) with ⟨hname, hdest⟩ | hdest
  · refine Or.inl ⟨hname, ?_⟩
    rw [landing, hdest]
    decide
  · refine Or.inr ⟨by rw [landing, hdest, hsplit], ?_⟩
    have hguide := Manifest.not_guide (isClean_nameOf hplain hr) hincludes
    rwa [hsplit] at hguide

/-- No two files that ship go to one place, nor does one go below another. -/
theorem landing_separate (hk : Packable d source target src dst) {rel' : List String} (hi : Included d src .curated rel)
    (hi' : Included d src .curated rel') (hpre : landing (nameOf rel) <+: landing (nameOf rel')) :
    nameOf rel = nameOf rel' := by
  obtain ⟨c, mode, t, hat⟩ := hi.1
  have hr := hk.rel_ne_nil hat
  rcases landing_cases hk hi with ⟨hname, hland⟩ | ⟨hland, hguide⟩ <;>
    rcases landing_cases hk hi' with ⟨hname', hland'⟩ | ⟨hland', hguide'⟩ <;> rw [hland, hland'] at hpre
  · rw [hname, hname']
  · exact absurd hpre hguide'
  · -- the guide is not below what ships
    obtain ⟨x, more, rfl⟩ := List.exists_cons_of_ne_nil hr
    obtain ⟨rfl, hmore⟩ := List.cons_prefix_cons.mp hpre
    exact absurd ⟨more, rfl⟩ hguide
  · rw [files_apart hi.1 hi'.1 hpre]

theorem fits_landing (hk : Packable d source target src dst) (hi : Included d src .curated rel) :
    Fits (landing (nameOf rel)) := by
  rcases landing_cases hk hi with ⟨-, hland⟩ | ⟨hland, -⟩ <;> rw [hland]
  · unfold Fits
    decide
  · obtain ⟨c, mode, t, hat⟩ := hi.1
    exact (hk.limits rel _ (hk.rel_ne_nil hat) hat).2.1

/-! ## From a bundle that was made anew -/

namespace Packed

/-- The bundle stays as time goes by. -/
theorem later (h : Packed d target src dst e) (clock : Nat) : Packed d target src dst { e with clock } :=
  ⟨h.proper, ⟨h.develops.cwd, h.develops.dir, h.develops.link, h.develops.file⟩, ⟨h.reaches.way, h.reaches.dir⟩, h.file,
    h.only, h.aside⟩

theorem limits (h : Packed d target src dst e) (hk : Packable d source target src dst) {n : Node} (hb : below ≠ [])
    (hat : e.top.at? (dst ++ below) = some n) : Plain below ∧ Fits below ∧ takes (target.join ⟨below⟩) = true := by
  obtain ⟨rel, hi, ⟨rest, rfl⟩⟩ := h.only below n hb hat
  obtain ⟨c, mode, t, hsource⟩ := hi.1
  obtain ⟨hplain, hfits, -, htakes⟩ := hk.limits _ _ (hk.rel_ne_nil hsource) hsource
  exact ⟨fun s hs => hplain s (List.mem_append_left _ hs), hfits.of_append.1, takes_join_append hfits.names hb htakes⟩

/-- The files of the bundle are those that ship. -/
theorem file_iff (h : Packed d target src dst e) :
    (∃ c mode t, e.top.at? (dst ++ rel) = some (.file c mode t)) ↔ Included d src .curated rel := by
  constructor
  · rintro ⟨c, mode, t, hat⟩
    obtain ⟨rel', hi, hpre⟩ := h.only rel _ (h.reaches.ne_nil_of_file hat) hat
    obtain ⟨c', mode', t', hsource⟩ := hi.1
    obtain ⟨mode'', t'', -, hfile⟩ := h.file rel' c' mode' t' hi hsource
    exact files_apart ⟨c, mode, t, hat⟩ ⟨c', mode'', t'', hfile⟩ hpre ▸ hi
  · intro hi
    obtain ⟨c, mode, t, hsource⟩ := hi.1
    obtain ⟨mode', t', -, hfile⟩ := h.file rel c mode t hi hsource
    exact ⟨c, mode', t', hfile⟩

/-- What is ready to be installed where nothing is in the way. -/
theorem stock (h : Packed d target src dst e) (hk : Packable d source target src dst) (hr : Reaches d root place)
    (hin : ∀ rel, Included d src .curated rel → takes (root / Inventory.destination (nameOf rel)) = true)
    (hbare : ∀ rel, Included d src .curated rel → ∀ pre, pre ≠ [] → pre <+: landing (nameOf rel) →
      e.top.at? (place ++ pre) = none) {names : List String}
    (hnames : ∀ name, name ∈ names ↔ ∃ rel, Included d src .curated rel ∧ name = nameOf rel) :
    Stock e target root dst place names where
  bundle := h.reaches
  project := h.develops.reaches hr
  file := by
    intro name hname
    obtain ⟨rel, hi, rfl⟩ := (hnames name).mp hname
    obtain ⟨c, mode, t, hsource⟩ := hi.1
    have hne := hk.rel_ne_nil hsource
    obtain ⟨hplain, hfits, -, htakes⟩ := hk.limits rel _ hne hsource
    obtain ⟨mode', t', hreadable, hfile⟩ := h.file rel c mode t hi hsource
    rw [splitSlash_nameOf hplain hne, div_nameOf hplain hne]
    exact ⟨hfits, htakes, c, mode', t', hreadable, hfile⟩
  limits := by
    intro name hname
    obtain ⟨rel, hi, rfl⟩ := (hnames name).mp hname
    exact ⟨fits_landing hk hi, hin rel hi⟩
  vacant := by
    intro name hname
    obtain ⟨rel, hi, rfl⟩ := (hnames name).mp hname
    exact hbare rel hi _ (Path.splitSlash_ne_nil _) (List.prefix_refl _)
  free := by
    intro name hname pre hpre
    obtain ⟨rel, hi, rfl⟩ := (hnames name).mp hname
    by_cases hnil : pre = []
    · rw [hnil, List.append_nil]
      exact Or.inr (h.develops.reaches hr).dir
    · rw [Node.shape?, hbare rel hi pre hnil hpre]
      exact Or.inl rfl
  separate := by
    intro name hname other hother hpre
    obtain ⟨rel, hi, rfl⟩ := (hnames name).mp hname
    obtain ⟨rel', hi', rfl⟩ := (hnames other).mp hother
    exact landing_separate hk hi hi' hpre

/-- An installation copies all that ships, and leaves other files as they are. -/
theorem run_delivers (h : Packed d target src dst e) (hk : Packable d source target src dst) (ht : takes target = true)
    (hr : Reaches d root place)
    (hin : ∀ rel, Included d src .curated rel → takes (root / Inventory.destination (nameOf rel)) = true)
    (hbare : ∀ rel, Included d src .curated rel → ∀ pre, pre ≠ [] → pre <+: landing (nameOf rel) →
      e.top.at? (place ++ pre) = none) :
    ∃ names a, names.Pairwise (· < ·) ∧ (∀ name, name ∈ names ↔ ∃ rel, Included d src .curated rel ∧ name = nameOf rel) ∧
      (Install.run (.dir target) .curated root).on e = (.ok ⟨names.map Inventory.destination, [], []⟩, a) ∧
      Stock e target root dst place names ∧ Supplied e dst place names a := by
  obtain ⟨names, hfiles, hsorted, hmem⟩ := files_of_dir h.proper h.reaches ht fun below n hb hat => h.limits hk hb hat
  have hnames (name : String) : name ∈ names ↔ ∃ rel, Included d src .curated rel ∧ name = nameOf rel := by
    rw [hmem]
    exact exists_congr fun rel => and_congr_left fun _ => h.file_iff
  have hstock := h.stock hk hr hin hbare hnames
  have hnodup : names.Nodup := hsorted.imp fun {a b} (hlt : a < b) (heq : a = b) => String.lt_irrefl b (heq ▸ hlt)
  obtain ⟨a, hrun, hsupplied⟩ := run_supplies hstock hfiles hnodup
  exact ⟨names, a, hsorted, hnames, hrun, hstock, hsupplied⟩

end Packed

theorem depot_guide : Included depot ["p"] .curated ["CLAUDE.md.template"] := by
  refine ⟨⟨_, _, _, rfl⟩, Manifest.includes_iff.mpr ?_⟩
  have hname : Manifest.normalize (nameOf ["CLAUDE.md.template"]) = "CLAUDE.md.template" := by decide
  rw [hname]
  exact ⟨Or.inl ⟨"CLAUDE.md.template", by decide, by decide, rfl⟩, by decide⟩

theorem depot_fresh_top : Fresh depot (Path.ofText "/out") ["out"] :=
  fresh_entry (reaches_of_find (d := depot) (p := Path.ofText "/") rfl) (by unfold Fits; decide) (by decide) (by decide) rfl

theorem depot_packs_top : Packable depot (Path.ofText "/p") (Path.ofText "/out") ["p"] ["out"] :=
  depot_packable depot_fresh_top (Path.named_ofText _) (by decide) (by decide)

theorem depot_included (hi : Included depot ["p"] .curated rel) : rel ∈ depotPlaces := by
  obtain ⟨c, mode, t, hat⟩ := hi.1
  exact (depot_source (depot_packs.rel_ne_nil hat) hat).1

theorem depot_takes (hi : Included depot ["p"] .curated rel) :
    takes (Path.ofText "/q" / Inventory.destination (nameOf rel)) = true := by
  have hall : ∀ rel ∈ depotPlaces, takes (Path.ofText "/q" / Inventory.destination (nameOf rel)) = true := by decide
  exact hall rel (depot_included hi)

end Packaging

end Outfitter
