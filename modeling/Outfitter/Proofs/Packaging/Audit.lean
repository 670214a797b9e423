import Outfitter.Proofs.Manifest.Curated
import Outfitter.Proofs.Packaging.Mirror

/-! # Bundles that are made anew

A bundle that is made where nothing was holds the files of its source that ship, and the directories
around them, and nothing else. So it never has what is forbidden, and what is found missing is just
what no file that ships could give.
-/

namespace Outfitter.Packaging

open Disk Action Files Walk

variable {d d₁ e : Disk} {source target : Path} {src dst rel below : List String} {c : ByteArray} {mode : Nat} {t : Stamp}

/-- A target that is missing: names lead to it from a directory that is reached, past no link. -/
def Fresh (d : Disk) (target : Path) (dst : List String) : Prop :=
  ∃ base top below, below ≠ [] ∧ Reaches d base top ∧ dst = top ++ below ∧ Fits below ∧ target = base.join ⟨below⟩ ∧
    takes target = true ∧ d.top.at? dst = none ∧
    ∀ pre link, pre <+: below → d.top.at? (top ++ pre) ≠ some (.link link)

/-- What is left of a bundle that was made anew. -/
structure Packed (d : Disk) (target : Path) (src dst : List String) (e : Disk) : Prop where
  proper : e.top.isProper = true
  develops : Develops d e
  reaches : Reaches e target dst
  file : ∀ rel c mode t, Included d src .curated rel → d.top.at? (src ++ rel) = some (.file c mode t) →
    ∃ mode' t', isReadable mode' = true ∧ e.top.at? (dst ++ rel) = some (.file c mode' t')
  only : ∀ below n, below ≠ [] → e.top.at? (dst ++ below) = some n → ∃ rel, Included d src .curated rel ∧ below <+: rel
  aside : ∀ q, ¬ q <+: dst → ¬ dst <+: q → e.top.at? q = d.top.at? q

/-! ## The directory of the bundle -/

theorem Fresh.absent (h : Fresh d target dst) : d.top.at? dst = none := by
  obtain ⟨_, _, _, -, -, -, -, -, -, habsent, -⟩ := h
  exact habsent

theorem Fresh.takes (h : Fresh d target dst) : Disk.takes target = true := by
  obtain ⟨_, _, _, -, -, -, -, -, htakes, -⟩ := h
  exact htakes

theorem Fresh.aims (h : Fresh d target dst) : Aims d target dst := by
  obtain ⟨base, top, below, hne, hreach, hdst, hfits, rfl, -, -, hlinks⟩ := h
  exact ⟨base, top, below, hreach, hdst, hfits, fun rel _ hn => Path.join_join hne hfits.names hn, hlinks⟩

theorem Fresh.linkless (h : Fresh d target dst) (q : List String) (link : Path) (hq : dst <+: q) :
    d.top.at? q ≠ some (.link link) := by
  obtain ⟨rest, rfl⟩ := hq
  rw [Node.at?_append, h.absent]
  simp

/-- It is made unless a file is in its way. -/
theorem Fresh.makeDirs (h : Fresh d target dst) :
    blocked d dst = false ∧ (∃ d₁, (makeDirs target).on d = (.ok (), d₁) ∧ Paves dst d d₁ ∧ Reaches d₁ target dst) ∨
      blocked d dst = true ∧ ∃ fault, (Files.makeDirs target).on d = (.error fault, d) := by
  obtain ⟨base, top, below, hne, hreach, rfl, hfits, rfl, htakes, habsent, hlinks⟩ := h
  cases hblocked : blocked d (top ++ below) with
  | false =>
    refine Or.inl ⟨rfl, ?_⟩
    have hfree : Free d top below := by
      intro pre hpre
      by_cases heq : pre = below
      · rw [heq, Node.shape?, habsent]
        exact Or.inl rfl
      · apply open_of_not_blocked (Bool.eq_false_iff.mp hblocked) ((List.prefix_append_right_inj top).mpr hpre)
        · exact fun hsame => heq (List.append_cancel_left hsame)
        · exact fun link => hlinks pre link hpre
    obtain ⟨d₁, hmake, hpaves, hdir⟩ := makeDirs_below hreach hfits hne htakes hfree
    exact ⟨d₁, hmake, hpaves, (hpaves.widens.develops.reaches hreach).join hfits hne hdir⟩
  | true =>
    obtain ⟨dirs, last, rfl⟩ : ∃ dirs last, below = dirs ++ [last] := ⟨_, _, (List.dropLast_append_getLast hne).symm⟩
    rw [← List.append_assoc] at hblocked
    obtain ⟨mid, post, rfl, c, mode, t, hat⟩ := blocked_split hreach.dir hblocked
    rw [List.append_assoc] at hfits htakes ⊢
    exact Or.inr ⟨rfl, makeDirs_blocked hreach hfits htakes hat⟩

theorem Packable.paved (hk : Packable d source target src dst) (hp : Paves dst d d₁)
    (hproper : d₁.top.isProper = true) : Packable d₁ source target src dst := by
  have hlink (q : List String) (link : Path) (hat : d₁.top.at? q = some (.link link)) :
      d.top.at? q = some (.link link) := by
    rw [← Node.shape?_eq_link] at hat ⊢
    rcases hp.widens.shape q with heq | ⟨-, hdir⟩
    · rw [← heq, hat]
    · rw [hat] at hdir
      cases hdir
  have hdev := hp.widens.develops
  obtain ⟨base, top, below, hreach, hdst, hfits, hjoin, hlinks⟩ := hk.aims
  exact
    { proper := hproper
      named := hk.named
      takes := hk.takes
      reaches := hdev.reaches hk.reaches
      aims := ⟨base, top, below, hdev.reaches hreach, hdst, hfits, hjoin,
        fun pre link hpre hat => hlinks pre link hpre (hlink _ _ hat)⟩
      apart := hk.apart
      linkless := fun q link hq hat => hk.linkless q link hq (hlink _ _ hat)
      limits := by
        intro rel n hr hat
        apply hk.limits rel n hr
        rwa [← hp.aside _ fun hpre => hk.apart.1 ((List.prefix_append _ _).trans hpre)] }

/-! ## What is in the bundle -/

theorem isReadable_executable (mode : Nat) : isReadable (mode ||| 0o111) = isReadable mode := by
  have hbit (mode : Nat) : isReadable mode = mode.testBit 8 := by
    rw [isReadable, Nat.testBit_eq_decide_div_mod_eq]
  rw [hbit, hbit, Nat.testBit_or]
  exact Bool.or_false _

/-- Where nothing was, a file that may be read comes with its content. -/
theorem carried_none {now : Stamp} {script : Bool} (hr : isReadable mode = true) :
    ∃ mode' t', isReadable mode' = true ∧ (carried now script c mode t none).1 = some (.file c mode' t') := by
  have hok : (isReadable mode && accepts none) = true := by rw [hr]; rfl
  by_cases hw : isWritable mode = true
  · refine ⟨_, _, ?_, congrArg Prod.fst (carried_of_writable hok hw)⟩
    split
    · rw [isReadable_executable, hr]
    · exact hr
  · exact ⟨_, _, hr, congrArg Prod.fst (carried_of_not_writable hok hw)⟩

/-- Below a directory that is empty, nothing is in the way. -/
theorem not_blocked_of_empty (hdir : d.top.shape? dst = some .dir)
    (hempty : ∀ below, below ≠ [] → d.top.at? (dst ++ below) = none) (rel : List String) :
    ¬ blocked d (dst ++ rel) = true := by
  intro hblocked
  obtain ⟨pre, hpre, -, c, mode, t, hat⟩ := blocked_iff.mp hblocked
  obtain ⟨t', es, hdst⟩ := Node.shape?_eq_dir.mp hdir
  rcases List.prefix_or_prefix_of_prefix hpre (List.prefix_append dst rel) with ⟨rest, rfl⟩ | ⟨below, rfl⟩
  · rw [Node.at?_append, hat] at hdst
    cases rest <;> cases hdst
  · by_cases hb : below = []
    · rw [hb, List.append_nil, hdst] at hat
      cases hat
    · rw [hempty below hb] at hat
      cases hat

/-- All that ships may be read. -/
def Legible (d : Disk) (src : List String) : Prop :=
  ∀ rel c mode t, Included d src .curated rel → d.top.at? (src ++ rel) = some (.file c mode t) → isReadable mode = true

theorem generateCurated_packed (hk : Packable d source target src dst) (hf : Fresh d target dst) (hl : Legible d src) :
    blocked d dst = false ∧ (∃ n e, (generateCurated source target).on d = (.ok n, e) ∧ Packed d target src dst e) ∨
      blocked d dst = true ∧ ∃ fault, (generateCurated source target).on d = (.error fault, d) := by
  have hsource : d.isThere source = true := by
    obtain ⟨t, es, hfind⟩ := hk.reaches.find hk.takes
    rw [Disk.isThere, hfind]
    rfl
  rcases hf.makeDirs with ⟨hopen, d₁, hmake, hpaves, hreach⟩ | ⟨hblocked, fault, hmake⟩
  · refine Or.inl ⟨hopen, ?_⟩
    have hproper := isProper_makeDirs hk.proper hk.named
    rw [hmake] at hproper
    have hk₁ := hk.paved hpaves hproper
    have hempty : ∀ below, below ≠ [] → d₁.top.at? (dst ++ below) = none := by
      intro below hb
      have hpast : ¬ dst ++ below <+: dst := by
        intro hpre
        have hlen := hpre.length_le
        rw [List.length_append] at hlen
        exact hb (List.eq_nil_of_length_eq_zero (by omega))
      rw [hpaves.aside _ hpast, Node.at?_append, hf.absent]
      rfl
    have hsame (rel : List String) : d₁.top.at? (src ++ rel) = d.top.at? (src ++ rel) :=
      hpaves.aside _ fun hpre => hk.apart.1 ((List.prefix_append _ _).trans hpre)
    have hincluded (rel : List String) : Included d₁ src .curated rel ↔ Included d src .curated rel := by
      rw [Included, Included, hsame]
    obtain ⟨files, e, -, hmem, h, hrun⟩ := generate_mirrored hk₁ .curated
    refine ⟨counted (entries d₁ src dst files), e, ?_, ?_⟩
    · rw [generateCurated, on_bind_ask, if_pos hsource, on_bind_ok hmake, hrun]
    · exact
        { proper := h.proper
          develops := hpaves.widens.develops.trans h.develops
          reaches := h.develops.reaches hreach
          file := by
            intro rel c mode t hi hat
            have hr := hk.rel_ne_nil hat
            rw [h.there rel ((hmem rel).mpr ((hincluded rel).mpr hi)), deliver_of_file ((hsame rel).trans hat),
              if_neg (not_blocked_of_empty hreach.dir hempty rel), hempty rel hr]
            exact carried_none (hl rel c mode t hi hat)
          only := by
            intro below n hb hat
            by_contra hno
            rw [h.aside _ fun rel hrel hpre => hno ⟨rel, (hincluded rel).mp ((hmem rel).mp hrel),
              (List.prefix_append_right_inj dst).mp hpre⟩, hempty below hb] at hat
            cases hat
          aside := by
            intro q hq hq'
            rw [h.aside q fun rel _ hpre =>
              (List.prefix_or_prefix_of_prefix hpre (List.prefix_append dst rel)).elim hq hq', hpaves.aside q hq] }
  · refine Or.inr ⟨hblocked, fault, ?_⟩
    rw [generateCurated, on_bind_ask, if_pos hsource, on_bind_error hmake]

namespace Packed

/-- What is in the bundle is a file, or a directory with more below it. -/
theorem not_link (h : Packed d target src dst e) (hb : below ≠ []) (link : Path) :
    e.top.at? (dst ++ below) ≠ some (.link link) := by
  intro hat
  obtain ⟨rel, hi, ⟨rest, rfl⟩⟩ := h.only below _ hb hat
  obtain ⟨c, mode, t, hsource⟩ := hi.1
  obtain ⟨mode', t', -, hfile⟩ := h.file _ c mode t hi hsource
  rw [← List.append_assoc, Node.at?_append, hat] at hfile
  cases rest <;> cases hfile

/-- A path is there if it stands for a file that ships, or for what is around one. -/
theorem isThere_iff (h : Packed d target src dst e) (hk : Packable d source target src dst) {text : String}
    (hfits : Fits (splitSlash text)) :
    e.isThere (target / text) = true ↔ ∃ rel, Included d src .curated rel ∧ splitSlash text <+: rel := by
  have hne := Path.splitSlash_ne_nil text
  have hpath : target / text = target.join ⟨splitSlash text⟩ := rfl
  rw [hpath, Disk.isThere]
  constructor
  · intro hthere
    cases hat : e.top.at? (dst ++ splitSlash text) with
    | some n => exact h.only _ n hne hat
    | none =>
      have hlinks (pre : List String) (link : Path) (_ : pre <+: splitSlash text) :
          e.top.at? (dst ++ pre) ≠ some (.link link) := by
        by_cases hpre : pre = []
        · obtain ⟨t, es, hdir⟩ := Node.shape?_eq_dir.mp h.reaches.dir
          rw [hpre, List.append_nil, hdir]
          simp
        · exact h.not_link hpre link
      obtain ⟨fault, hfind⟩ := h.reaches.find_missing hfits hne hlinks hat
      rw [hfind] at hthere
      cases hthere
  · rintro ⟨rel, hi, ⟨rest, rfl⟩⟩
    obtain ⟨c, mode, t, hsource⟩ := hi.1
    obtain ⟨mode', t', -, hfile⟩ := h.file _ c mode t hi hsource
    obtain ⟨-, hrel, -, htakes⟩ := hk.limits _ _ (hk.rel_ne_nil hsource) hsource
    obtain ⟨n, hat⟩ : ∃ n, e.top.at? (dst ++ splitSlash text) = some n := by
      rw [← List.append_assoc, Node.at?_append] at hfile
      obtain ⟨n, hat, -⟩ := Option.bind_eq_some_iff.mp hfile
      exact ⟨n, hat⟩
    rw [h.reaches.find_below hfits.names hne hfits.sizes hat
      (fun link hn => h.not_link hne link (hat.trans (congrArg some hn))) (takes_join_append hrel.names hne htakes)]
    rfl

end Packed

/-! ## The audit -/

/-- What a forbidden path stands for. -/
def barred (text : String) : String := (directory? text).getD text

theorem fits_required : ∀ text ∈ required, Fits (splitSlash text) := by
  unfold Fits
  decide +kernel

theorem fits_barred : ∀ text ∈ forbidden, Fits (splitSlash (barred text)) := by
  unfold Fits
  decide +kernel

/-- What is forbidden is off limits. -/
theorem barred_offLimits : ∀ text ∈ forbidden, (∃ limit ∈ Manifest.offLimits, limit.toList <+: (barred text).toList) ∧
    ¬ (barred text).toList <+: ".claude/local/.gitkeep".toList := by
  decide +kernel

/-- Nothing that ships is forbidden, or below what is. -/
theorem included_not_barred (hk : Packable d source target src dst) (hi : Included d src .curated rel) {text : String}
    (htext : text ∈ forbidden) : ¬ splitSlash (barred text) <+: rel := by
  intro hpre
  obtain ⟨⟨c, mode, t, hat⟩, hincludes⟩ := hi
  have hr := hk.rel_ne_nil hat
  have hplain := (hk.limits rel _ hr hat).1
  obtain ⟨⟨limit, hlimit, hname⟩, hkeep⟩ := barred_offLimits text htext
  have hoffered := (Manifest.includes_iff.mp hincludes).1
  rw [Manifest.normalize_of_isClean (isClean_nameOf hplain hr)] at hoffered
  have hbegins : (barred text).toList <+: (nameOf rel).toList := by
    rw [← splitSlash_nameOf hplain hr] at hpre
    rcases Path.append_of_splitSlash hpre with heq | ⟨rest, heq⟩
    · exact heq ▸ List.prefix_refl _
    · rw [heq, String.toList_append, String.toList_append, List.append_assoc]
      exact List.prefix_append _ _
  rw [Manifest.offered_offLimits hoffered hlimit (hname.trans hbegins)] at hbegins
  exact hkeep hbegins

theorem checkForbidden_none (text : String) (h : e.isThere (target / barred text) = false) :
    checkForbidden target e text = none := by
  unfold barred at h
  unfold checkForbidden
  cases hdir : directory? text with
  | none =>
    rw [hdir] at h
    simp [show e.isThere (target / text) = false from h]
  | some name =>
    rw [hdir] at h
    have hfind : e.isDir (target / name) = false := by
      have hfind : (e.find (target / name)).isOk = false := h
      cases hf : e.find (target / name) with
      | ok found =>
        rw [hf] at hfind
        cases hfind
      | error fault => rw [Disk.isDir, hf]
    simp [hfind]

theorem filterMap_checkRequired (texts : List String) : texts.filterMap (checkRequired target e) =
    (texts.filter fun text => !e.isThere (target / text)).map .missingRequired := by
  induction texts with
  | nil => rfl
  | cons text texts ih =>
    rw [List.filterMap_cons, List.filter_cons, checkRequired, ih]
    cases e.isThere (target / text) <;> rfl

/-- An audit of a new bundle finds nothing forbidden, and misses, in their order, the required paths
that no file that ships stands for. -/
theorem audit_of_new_bundle (d : Disk) (source target : Path) (src dst : List String)
    (hk : Packable d source target src dst) (hf : Fresh d target dst) (hl : Legible d src) :
    (blocked d dst = false → ∃ n e, (generateCurated source target).on d = (.ok n, e)) ∧
      ∀ n e, (generateCurated source target).on d = (.ok n, e) →
        ∃ missing : List String, audit target e = missing.map .missingRequired ∧ missing.Sublist required ∧
          ∀ text ∈ required, text ∈ missing ↔ ¬ ∃ rel, Included d src .curated rel ∧ splitSlash text <+: rel := by
  rcases generateCurated_packed hk hf hl with ⟨-, n, e, hrun, h⟩ | ⟨hblocked, fault, hrun⟩
  · refine ⟨fun _ => ⟨n, e, hrun⟩, fun n' e' hrun' => ?_⟩
    cases hrun.symm.trans hrun'
    refine ⟨required.filter fun text => !e.isThere (target / text), ?_, List.filter_sublist, fun text htext => ?_⟩
    · have hforbidden : forbidden.filterMap (checkForbidden target e) = [] := by
        rw [List.filterMap_eq_nil_iff]
        intro text htext
        apply checkForbidden_none
        rw [Bool.eq_false_iff, ne_eq, h.isThere_iff hk (fits_barred text htext)]
        rintro ⟨rel, hi, hpre⟩
        exact included_not_barred hk hi htext hpre
      rw [audit, auditAgainst, hforbidden, List.append_nil, filterMap_checkRequired]
    · rw [List.mem_filter, Bool.not_eq_true', Bool.eq_false_iff, ne_eq, h.isThere_iff hk (fits_required text htext)]
      exact and_iff_right htext
  · refine ⟨fun hopen => ?_, fun n e hrun' => ?_⟩
    · rw [hblocked] at hopen
      cases hopen
    · cases hrun.symm.trans hrun'

/-! ## A depot -/

/-- A source with a guide, settings and a command that is not for others, and a directory beside it. -/
def depot : Disk :=
  ⟨.dir ⟨0, false⟩
    [("p", .dir ⟨0, false⟩
        [("CLAUDE.md.template", .file "t".toUTF8 0o600 ⟨4, false⟩),
          (".claude", .dir ⟨0, false⟩
            [("settings.json", .file "{}".toUTF8 0o644 ⟨5, false⟩),
              ("commands", .dir ⟨0, false⟩ [("999_publish.md", .file "x".toUTF8 0o644 ⟨6, false⟩)])])]),
      ("q", .dir ⟨0, false⟩ [])], [], 9⟩

/-- The places of the source. -/
def depotPlaces : List (List String) :=
  [["CLAUDE.md.template"], [".claude"], [".claude", "settings.json"], [".claude", "commands"],
    [".claude", "commands", "999_publish.md"]]

theorem at?_cons_mem {es : Entries} {name : String} {rest : List String} {n : Node}
    (h : (Node.dir t es).at? (name :: rest) = some n) : ∃ m, (name, m) ∈ es ∧ m.at? rest = some n := by
  obtain ⟨m, hl, hm⟩ := Option.bind_eq_some_iff.mp h
  exact ⟨m, Entries.mem_of_lookup hl, hm⟩

theorem depot_source {n : Node} (hr : rel ≠ []) (h : depot.top.at? (["p"] ++ rel) = some n) :
    rel ∈ depotPlaces ∧ ∀ c mode t, n = .file c mode t → isReadable mode = true := by
  obtain ⟨name, rest, rfl⟩ := List.exists_cons_of_ne_nil hr
  obtain ⟨dir, hdir, h⟩ := Option.bind_eq_some_iff.mp h
  cases hdir
  obtain ⟨m, hmem, h⟩ := at?_cons_mem h
  simp only [List.mem_cons, List.not_mem_nil, or_false, Prod.mk.injEq] at hmem
  rcases hmem with ⟨rfl, rfl⟩ | ⟨rfl, rfl⟩
  · obtain ⟨rfl, rfl⟩ := (at?_of_leaf (by simp)).mp h
    refine ⟨by decide, ?_⟩
    rintro c mode t ⟨⟩
    decide
  cases rest with
  | nil =>
    cases h
    exact ⟨by decide, by simp⟩
  | cons name rest =>
    obtain ⟨m, hmem, h⟩ := at?_cons_mem h
    simp only [List.mem_cons, List.not_mem_nil, or_false, Prod.mk.injEq] at hmem
    rcases hmem with ⟨rfl, rfl⟩ | ⟨rfl, rfl⟩
    · obtain ⟨rfl, rfl⟩ := (at?_of_leaf (by simp)).mp h
      refine ⟨by decide, ?_⟩
      rintro c mode t ⟨⟩
      decide
    · cases rest with
      | nil =>
        cases h
        exact ⟨by decide, by simp⟩
      | cons name rest =>
        obtain ⟨m, hmem, h⟩ := at?_cons_mem h
        cases List.mem_singleton.mp hmem
        obtain ⟨rfl, rfl⟩ := (at?_of_leaf (by simp)).mp h
        refine ⟨by decide, ?_⟩
        rintro c mode t ⟨⟩
        decide

/-- An entry that a directory does not have. -/
theorem fresh_entry {base : Path} {top : List String} {name : String} (hr : Reaches d base top) (hf : Fits [name])
    (htarget : target = base.join ⟨[name]⟩) (ht : takes target = true) (hnone : d.top.at? (top ++ [name]) = none) :
    Fresh d target (top ++ [name]) := by
  refine ⟨base, top, [name], by simp, hr, rfl, hf, htarget, ht, hnone, fun pre link hpre => ?_⟩
  rcases List.prefix_concat_iff.mp (show pre <+: [] ++ [name] from hpre) with rfl | hpre
  · rw [List.nil_append, hnone]
    simp
  · obtain ⟨t, es, hdir⟩ := Node.shape?_eq_dir.mp hr.dir
    rw [List.prefix_nil.mp hpre, List.append_nil, hdir]
    simp

/-- A bundle of the depot can be made wherever its names are taken. -/
theorem depot_packable (hf : Fresh depot target dst) (hn : target.Named) (hapart : ¬ ["p"] <+: dst ∧ ¬ dst <+: ["p"])
    (hin : ∀ rel ∈ depotPlaces, takes (target.join ⟨rel⟩) = true) :
    Packable depot (Path.ofText "/p") target ["p"] dst where
  proper := by decide
  named := hn
  takes := by decide
  reaches := reaches_of_find (d := depot) (p := Path.ofText "/p") rfl
  aims := hf.aims
  apart := hapart
  linkless := hf.linkless
  limits := by
    have hall : ∀ rel ∈ depotPlaces, Plain rel ∧ Fits rel ∧ takes ((Path.ofText "/p").join ⟨rel⟩) = true := by
      unfold Plain Fits
      decide
    intro rel n hr hat
    have hrel := (depot_source hr hat).1
    obtain ⟨hplain, hfits, htakes⟩ := hall rel hrel
    exact ⟨hplain, hfits, htakes, hin rel hrel⟩

theorem depot_beside : Reaches depot (Path.ofText "/q") ["q"] :=
  reaches_of_find (d := depot) (p := Path.ofText "/q") rfl

theorem depot_fresh : Fresh depot (Path.ofText "/q/out") ["q", "out"] :=
  fresh_entry depot_beside (by unfold Fits; decide) (by decide) (by decide) rfl

theorem depot_packs : Packable depot (Path.ofText "/p") (Path.ofText "/q/out") ["p"] ["q", "out"] :=
  depot_packable depot_fresh (Path.named_ofText _) (by decide) (by decide)

theorem depot_legible : Legible depot ["p"] := by
  intro rel c mode t _ hat
  exact (depot_source (depot_packs.rel_ne_nil hat) hat).2 c mode t rfl

theorem depot_settings : Included depot ["p"] .curated [".claude", "settings.json"] := by
  refine ⟨⟨_, _, _, rfl⟩, Manifest.includes_iff.mpr ?_⟩
  have hname : Manifest.normalize (nameOf [".claude", "settings.json"]) = ".claude/settings.json" := by decide
  rw [hname]
  exact ⟨Or.inl ⟨".claude/settings.json", by decide, by decide, rfl⟩, by decide⟩

/-- A bundle of the depot has its settings, and misses a plan; the command is not in it. -/
theorem depot_is_audited :
    let source := Path.ofText "/p"
    let target := Path.ofText "/q/out"
    Packable depot source target ["p"] ["q", "out"] ∧ Fresh depot target ["q", "out"] ∧ Legible depot ["p"] ∧
      ∃ n e, (generateCurated source target).on depot = (.ok n, e) ∧
        .missingRequired ".claude/settings.json" ∉ audit target e ∧
        .missingRequired ".claude/commands/00_plan.md" ∈ audit target e ∧
        .forbiddenFile ".claude/commands/999_publish.md" ∉ audit target e := by
  intro source target
  obtain ⟨hruns, haudit⟩ := audit_of_new_bundle depot source target ["p"] ["q", "out"] depot_packs depot_fresh depot_legible
  obtain ⟨n, e, hrun⟩ := hruns (by decide)
  obtain ⟨missing, haudit, -, hmissing⟩ := haudit n e hrun
  refine ⟨depot_packs, depot_fresh, depot_legible, n, e, hrun, ?_⟩
  rw [haudit]
  refine ⟨?_, ?_, by simp⟩
  · simp only [List.mem_map, Violation.missingRequired.injEq, exists_eq_right]
    rw [hmissing _ (by decide), not_not]
    exact ⟨_, depot_settings, by decide⟩
  · simp only [List.mem_map, Violation.missingRequired.injEq, exists_eq_right]
    rw [hmissing _ (by decide)]
    rintro ⟨rel, ⟨⟨c, mode, t, hat⟩, -⟩, hpre⟩
    have hnone : ∀ rel ∈ depotPlaces, ¬ splitSlash ".claude/commands/00_plan.md" <+: rel := by decide
    exact hnone rel (depot_source (depot_packs.rel_ne_nil hat) hat).1 hpre

/-! ## Where the limit is met -/

/-- A long way to a directory beside the source. -/
def farAway : Path := ⟨["", "q"] ++ List.replicate 2034 "."⟩

theorem farAway_takes : takes (farAway.join ⟨["out"]⟩) = true ∧
    takes (farAway.join ⟨["out"]⟩ / ".claude/settings.json") = false := by
  decide +kernel

theorem farAway_trail : depot.trail farAway = depot.trail (Path.ofText "/q") := by
  decide +kernel

theorem farAway_named : (farAway.join ⟨["out"]⟩).Named := by
  unfold Path.Named
  decide +kernel

/-- What the system does not take is missing. -/
theorem missing_of_not_takes {text : String} (htext : text ∈ required) (ht : takes (target / text) = false) (e : Disk) :
    .missingRequired text ∈ audit target e := by
  have hthere : e.isThere (target / text) = false := by
    obtain ⟨fault, hfault⟩ := locate_of_not_takes ht
    rw [Disk.isThere, Disk.find, hfault]
    rfl
  rw [audit, auditAgainst, filterMap_checkRequired]
  exact List.mem_append_left _ (List.mem_map_of_mem (List.mem_filter.mpr ⟨htext, by rw [hthere]; rfl⟩))

/-- A bundle that is made at the end of a path near the limit misses what its source has. -/
theorem far_bundle_misses_settings :
    let target := farAway.join ⟨["out"]⟩
    Included depot ["p"] .curated [".claude", "settings.json"] ∧ depot.top.at? ["q", "out"] = none ∧
      ∃ n e, (generateCurated (Path.ofText "/p") target).on depot = (.ok n, e) ∧
        .missingRequired ".claude/settings.json" ∈ audit target e := by
  intro target
  have hfresh : Fresh depot (farAway.join ⟨["out"]⟩) ["q", "out"] :=
    fresh_entry (depot_beside.of_trail farAway_trail) (by unfold Fits; decide) rfl farAway_takes.1 rfl
  obtain ⟨-, d₁, hmake, hpaves, -⟩ := hfresh.makeDirs.resolve_right fun hblocked => absurd hblocked.1 (by decide)
  have hproper := isProper_makeDirs depot_packs.proper farAway_named
  rw [hmake] at hproper
  have hsource := (hpaves.widens.develops.reaches depot_packs.reaches).isDir depot_packs.takes
  obtain ⟨log, e, hlog, -⟩ := generateLog_sound hproper farAway_named hsource .curated
  refine ⟨depot_settings, rfl, counted log, e, ?_, missing_of_not_takes (by decide) farAway_takes.2 e⟩
  rw [generateCurated, on_bind_ask, if_pos (by decide), on_bind_ok hmake, generate_of_log hsource hlog]

end Outfitter.Packaging
