import Outfitter.Proofs.Snapshot

/-! # Snapshots are copies

The walk that takes a snapshot meets each directory before what it holds, so each item finds
the place of its directory made and its own place free. The copy has the same directories
and the same files, with content, mode and time.
-/

namespace Outfitter.Snapshot

open Disk Action Files

/-- The place of an item of a walk below its start. -/
def below : List String → Path
  | [] => ⟨[""]⟩
  | q => ⟨q⟩

/-- Where the assets of a project are. -/
def assets (d : Disk) (root : Path) : List String := d.place root ++ [Layout.assetsDirName]

/-- Where a snapshot of a project is. -/
def archive (d : Disk) (root : Path) (ts : String) : List String :=
  d.place root ++ [Layout.snapshotsDirName, ts]

/-- The assets of a project can be copied to a snapshot: the system takes the paths of the
copies, and files may be read and, as the copies have their modes, written. -/
structure Copiable (d : Disk) (root : Path) (ts : String) : Prop where
  plain : d.top.isPlain = true
  leads : d.Leads root
  name : isName ts = true
  fits : ∀ q n, d.top.at? (assets d root ++ q) = some n →
    d.Admits ((Layout.snapshot root ts).join (below q))
  free : ∀ q c m t, d.top.at? (assets d root ++ q) = some (.file c m t) →
    isReadable m = true ∧ isWritable m = true

/-- Edits at a place or below it that erase nothing. -/
def Fills (place : List String) (e : Edit) (p : List String) : Prop := e ≠ .erase ∧ place <+: p

/-- Edits below a place that erase nothing. -/
def Within (place : List String) (e : Edit) (p : List String) : Prop :=
  e ≠ .erase ∧ ∃ name rest, p = place ++ name :: rest

variable {d d' : Disk} {root : Path} {ts name : String} {q above rest place z : List String} {n n' : Node}
  {c : ByteArray} {m count : Nat} {t : Stamp} {es : Entries}

theorem spared_fills : Spared (Fills place) z := by
  rintro p ⟨he, -⟩
  exact absurd rfl he

theorem Fills.mono (h : place <+: z) {e : Edit} {p : List String} (hf : Fills z e p) :
    Fills place e p :=
  ⟨hf.1, h.trans hf.2⟩

theorem spared_within : Spared (Within place) z := by
  rintro p ⟨he, -⟩
  exact absurd rfl he

theorem Within.fills {e : Edit} {p : List String} (h : Within place e p) : Fills place e p := by
  obtain ⟨he, name, rest, rfl⟩ := h
  exact ⟨he, List.prefix_append _ _⟩

theorem Fills.within {e : Edit} {p : List String} (h : Fills (place ++ [name]) e p) :
    Within place e p := by
  obtain ⟨he, rest, rfl⟩ := h
  exact ⟨he, name, rest, by simp⟩

theorem not_prefix_assets (h : archive d root ts <+: z) : ¬ assets d root ++ q <+: z := by
  intro hp
  rcases List.prefix_or_prefix_of_prefix h hp with hc | hc
  all_goals
    rw [assets, archive, List.append_assoc, List.prefix_append_right_inj] at hc
    exact absurd (List.cons_prefix_cons.mp hc).1 (by decide)

theorem assets_steps (h : Steps (Fills place) d d') : assets d' root = assets d root := by
  rw [assets, assets, h.place_eq]

theorem archive_steps (h : Steps (Fills place) d d') : archive d' root ts = archive d root ts := by
  rw [archive, archive, h.place_eq]

/-- Filling a snapshot leaves the assets alone. -/
theorem at?_assets (h : Steps (Fills (archive d root ts)) d d') (q : List String) :
    d'.top.at? (assets d root ++ q) = d.top.at? (assets d root ++ q) :=
  h.at?_eq (fun _ _ hf => not_prefix_assets hf.2) spared_fills

theorem Copiable.steps (hc : Copiable d root ts) (h : Steps (Fills (archive d root ts)) d d') :
    Copiable d' root ts where
  plain := h.isPlain hc.plain
  leads := h.leads hc.plain (fun _ _ => spared_fills) hc.leads
  name := hc.name
  fits q n hat := by
    rw [assets_steps h, at?_assets h] at hat
    exact h.admits_iff.mpr (hc.fits q n hat)
  free q c m t hat := by
    rw [assets_steps h, at?_assets h] at hat
    exact hc.free q c m t hat

/-! ## Paths of items -/

theorem isName_below (hc : Copiable d root ts) (hat : d.top.at? (assets d root ++ q) = some n) :
    ∀ s ∈ q, isName s = true :=
  fun s hs => (Node.isPlain_of_at? hc.plain hat).1 s (List.mem_append_right _ hs)

theorem isName_source (hq : ∀ s ∈ q, isName s = true) :
    ∀ s ∈ Layout.assetsDirName :: q, isName s = true :=
  List.forall_mem_cons.mpr ⟨by decide, hq⟩

theorem isName_target (hts : isName ts = true) (hq : ∀ s ∈ q, isName s = true) :
    ∀ s ∈ [Layout.snapshotsDirName, ts] ++ q, isName s = true := by
  intro s hs
  rcases List.mem_append.mp hs with hs | hs
  · exact Layout.isName_snapshot hts s hs
  · exact hq s hs

theorem target_eq (hts : isName ts = true) (hq : ∀ s ∈ q, isName s = true) (hne : q ≠ []) :
    (Layout.snapshot root ts).join (below q) =
      root.join ⟨[Layout.snapshotsDirName, ts] ++ q⟩ := by
  obtain ⟨a, q, rfl⟩ := List.exists_cons_of_ne_nil hne
  exact Path.join_join (by simp) (Layout.isName_snapshot hts) hq

theorem admits_target (hc : Copiable d root ts) (hat : d.top.at? (assets d root ++ q) = some n) :
    d.Admits (root.join ⟨[Layout.snapshotsDirName, ts] ++ q⟩) := by
  have hq := isName_below hc hat
  have hfits := hc.fits q n hat
  by_cases hne : q = []
  · subst hne
    exact Admits.of_slash hfits (by simp) (Layout.isName_snapshot hc.name)
  · rw [target_eq hc.name hq hne] at hfits
    exact hfits

theorem admits_source (hc : Copiable d root ts) (hat : d.top.at? (assets d root ++ q) = some n) :
    d.Admits (root.join ⟨Layout.assetsDirName :: q⟩) := by
  have hq := isName_below hc hat
  refine Admits.of_join (admits_target hc hat) (by simp) (by simp) (isName_source hq)
    (isName_target hc.name hq) ?_ ?_
  · have hsize : Layout.assetsDirName.utf8ByteSize ≤ Layout.snapshotsDirName.utf8ByteSize := by decide
    simp only [Path.bytes_append, Path.bytes, List.length_append, List.length_cons, List.length_nil]
    omega
  · intro s hs
    rcases List.mem_cons.mp hs with rfl | hs
    · exact Or.inr (by decide)
    · exact Or.inl (List.mem_append_right _ hs)

/-- No item lies so deep that the walk gives up. -/
theorem length_lt_maxDepth (hc : Copiable d root ts)
    (hat : d.top.at? (assets d root ++ q) = some n) : q.length < Walk.maxDepth := by
  have ht := (admits_target hc hat).1
  obtain ⟨base, hbase⟩ := Path.join_base root
  rw [hbase _ (isName_target hc.name (isName_below hc hat))] at ht
  simp only [takes, Bool.and_eq_true, decide_eq_true_eq, Path.byteSize_mk, List.length_append,
    List.length_cons] at ht
  rw [Walk.maxDepth]
  omega

/-! ## Items -/

theorem relative_eq (i : Walk.Item) : i.relative = below i.below := by
  unfold Walk.Item.relative below
  cases i.below <;> rfl

theorem find_source (hc : Copiable d root ts) (hat : d.top.at? (assets d root ++ q) = some n) :
    d.find (root.join ⟨Layout.assetsDirName :: q⟩) = .ok (assets d root ++ q, n) := by
  have hpl : d.place root ++ Layout.assetsDirName :: q = assets d root ++ q := by
    rw [assets, List.append_assoc]
    rfl
  rw [find_ok_iff, ← hpl]
  exact locate_join (Node.linkFree_of_isPlain hc.plain) hc.leads (isName_source (isName_below hc hat))
    (by simp) (admits_source hc hat) (by rw [hpl]; exact hat)

/-- The path of a copy leads to its free place in the copy of its directory. -/
theorem locate_target {follow : Bool} (hc : Copiable d root ts)
    (hat : d.top.at? (assets d root ++ (above ++ [name])) = some n)
    (hdir : d.top.shape? (archive d root ts ++ above) = some .dir)
    (hnone : d.top.shape? (archive d root ts ++ (above ++ [name])) = none) :
    d.locate follow ((Layout.snapshot root ts).join (below (above ++ [name]))) =
      .ok (.vacant (archive d root ts ++ above) name) := by
  have hq := isName_below hc hat
  have hpl : d.place root ++ ([Layout.snapshotsDirName, ts] ++ above) = archive d root ts ++ above := by
    rw [archive, List.append_assoc]
  rw [← List.append_assoc] at hnone
  obtain ⟨t, es, hd, he⟩ := vacant_iff.mpr ⟨hdir, hnone⟩
  have hadmits := admits_target hc hat
  have hnames := isName_target hc.name hq
  rw [← List.append_assoc] at hadmits hnames
  rw [target_eq hc.name hq (by simp), ← List.append_assoc, ← hpl]
  exact locate_join_vacant (Node.linkFree_of_isPlain hc.plain) hc.leads hnames hadmits
    (by rw [hpl]; exact hd) he

theorem makeDirs_target (hc : Copiable d root ts)
    (hat : d.top.at? (assets d root ++ (above ++ [name])) = some n)
    (hdir : d.top.shape? (archive d root ts ++ above) = some .dir)
    (hnone : d.top.shape? (archive d root ts ++ (above ++ [name])) = none) :
    (makeDirs ((Layout.snapshot root ts).join (below (above ++ [name])))).on d =
      (.ok (), d.put (archive d root ts ++ (above ++ [name])) (.dir d.now [])) := by
  rw [← List.append_assoc]
  exact makeDirs_of_vacant (locate_target hc hat hdir hnone)

/-- The directory of a copy is there, so none is made for it. -/
theorem makeParents_target (hc : Copiable d root ts)
    (hat : d.top.at? (assets d root ++ (above ++ [name])) = some n)
    (hdir : d.top.shape? (archive d root ts ++ above) = some .dir) :
    (makeParents ((Layout.snapshot root ts).join (below (above ++ [name])))).on d = (.ok (), d) := by
  have hl := Node.linkFree_of_isPlain hc.plain
  have hq := isName_below hc hat
  have hadmits := admits_target hc hat
  have hnames := isName_target hc.name hq
  rw [target_eq hc.name hq (by simp)]
  have hrel : [Layout.snapshotsDirName, ts] ++ (above ++ [name]) =
      ([Layout.snapshotsDirName, ts] ++ above) ++ [name] := by rw [List.append_assoc]
  rw [hrel] at hadmits hnames ⊢
  generalize hp : root.join ⟨([Layout.snapshotsDirName, ts] ++ above) ++ [name]⟩ = p at hadmits
  have htrail : d.trail p = d.trail root ++ ([Layout.snapshotsDirName, ts] ++ above) ++ [name] := by
    rw [← hp, trail_join hnames (by simp)]
    simp only [List.append_assoc]
  have hpn : p.names = root.names ++ ([Layout.snapshotsDirName, ts] ++ above) ++ [name] := by
    rw [← hp, Path.names_join_mk hnames]
    simp only [List.append_assoc]
  have hpne : p.names ≠ [] := by
    rw [hpn]
    simp
  obtain ⟨dir, hparent⟩ := Path.exists_parent? hpne
  have hdirtrail : d.trail dir = d.trail root ++ ([Layout.snapshotsDirName, ts] ++ above) := by
    rw [trail_parent (hp ▸ steps_join_ne_nil hnames (by simp)) hparent, htrail, List.dropLast_concat]
  have habove : ∀ s ∈ [Layout.snapshotsDirName, ts] ++ above, isName s = true :=
    fun s hs => hnames s (List.mem_append_left _ hs)
  have hlead : d.Leads dir := by
    rw [leads_congr (q := root.join ⟨[Layout.snapshotsDirName, ts] ++ above⟩)
      (by rw [hdirtrail, trail_join habove (by simp)])]
    refine leads_join hl hc.leads habove (by simp) (fun s hs => hadmits.2 s ?_) ?_
    · rw [htrail]
      exact List.mem_append_left _ (List.mem_append_right _ hs)
    · rw [← List.append_assoc]
      exact hdir
  have hempty : dir.isEmpty = false := by
    rw [Bool.eq_false_iff]
    intro he
    have hnil := Path.names_of_isEmpty he
    rw [Path.names_parent? hparent, hpn, List.dropLast_concat] at hnil
    simp at hnil
  obtain ⟨t, es, hloc⟩ : ∃ t es, d.locate false dir = .ok (.there (d.place dir) (.dir t es)) := by
    refine locate_of_leads hl ⟨takes_parent hadmits.1 hparent hempty, fun s hs => hadmits.2 s ?_⟩ hlead
    rw [htrail, ← hdirtrail]
    exact List.mem_append_left _ hs
  rw [makeParents, hparent]
  exact makeDirs_of_there hl hloc

theorem find_target (hc : Copiable d root ts) (hne : q ≠ [])
    (hat : d.top.at? (assets d root ++ q) = some n)
    (hcopy : d.top.at? (archive d root ts ++ q) = some n') :
    d.find ((Layout.snapshot root ts).join (below q)) = .ok (archive d root ts ++ q, n') := by
  have hq := isName_below hc hat
  have hpl : d.place root ++ ([Layout.snapshotsDirName, ts] ++ q) = archive d root ts ++ q := by
    rw [archive, List.append_assoc]
  rw [find_ok_iff, target_eq hc.name hq hne, ← hpl]
  exact locate_join (Node.linkFree_of_isPlain hc.plain) hc.leads (isName_target hc.name hq) (by simp)
    (admits_target hc hat) (by rw [hpl]; exact hcopy)

/-- A file is copied with its content, mode and time. -/
theorem copy_target (hc : Copiable d root ts)
    (hat : d.top.at? (assets d root ++ (above ++ [name])) = some (.file c m t))
    (hdir : d.top.shape? (archive d root ts ++ above) = some .dir)
    (hnone : d.top.shape? (archive d root ts ++ (above ++ [name])) = none) :
    ∃ d', (Files.copy (root.join ⟨Layout.assetsDirName :: (above ++ [name])⟩)
        ((Layout.snapshot root ts).join (below (above ++ [name])))).on d = (.ok (), d') ∧
      Steps (Fills (archive d root ts ++ (above ++ [name]))) d d' ∧
      d'.top.at? (archive d root ts ++ (above ++ [name])) = some (.file c m t) := by
  obtain ⟨hreadable, hwritable⟩ := hc.free _ _ _ _ hat
  have hq := isName_below hc hat
  have hidle : ((Layout.snapshot root ts).join (below (above ++ [name]))).endsIdle = false := by
    rw [target_eq hc.name hq (by simp)]
    exact Path.endsIdle_join (by simp) (isName_target hc.name hq)
  have hv : d.Vacant (archive d root ts ++ above) name := by
    rw [vacant_iff, List.append_assoc]
    exact ⟨hdir, hnone⟩
  have hcopy : d.copy (root.join ⟨Layout.assetsDirName :: (above ++ [name])⟩)
      ((Layout.snapshot root ts).join (below (above ++ [name]))) =
        .ok (d.put (archive d root ts ++ above ++ [name]) (.file c m d.now)) := by
    rw [Disk.copy, find_source hc hat, locate_target hc hat hdir hnone]
    simp [hreadable, hidle]
  have hs₁ : Steps (Fills (archive d root ts ++ (above ++ [name]))) d
      (d.put (archive d root ts ++ above ++ [name]) (.file c m d.now)) := by
    refine .of_step (step_put_file hv (hq name (by simp)) ⟨by simp, ?_⟩)
    simp only [List.append_assoc, List.prefix_rfl]
  have hput : (d.put (archive d root ts ++ above ++ [name]) (.file c m d.now)).top.at?
      (archive d root ts ++ (above ++ [name])) = some (.file c m d.now) := by
    rw [← List.append_assoc]
    exact at?_put (Node.shape?_eq_dir.mp hdir) _
  generalize d.put (archive d root ts ++ above ++ [name]) (.file c m d.now) = d₁ at hcopy hs₁ hput
  have hwide : Steps (Fills (archive d root ts)) d d₁ :=
    hs₁.mono fun _ _ => Fills.mono (List.prefix_append _ _)
  have hc₁ := hc.steps hwide
  have hat₁ : d₁.top.at? (assets d₁ root ++ (above ++ [name])) = some (.file c m t) := by
    rw [assets_steps hwide, at?_assets hwide]
    exact hat
  rw [← archive_steps hwide] at hput
  have hmodified : d₁.modified (root.join ⟨Layout.assetsDirName :: (above ++ [name])⟩) = .ok t := by
    rw [modified, find_source hc₁ hat₁]
  have hset : d₁.setModified ((Layout.snapshot root ts).join (below (above ++ [name]))) t =
      .ok (d₁.update (archive d₁ root ts ++ (above ++ [name])) fun _ => .file c m t) := by
    rw [setModified, find_target hc₁ (by simp) hat₁ hput]
    simp [hwritable]
  refine ⟨d₁.update (archive d₁ root ts ++ (above ++ [name])) fun _ => .file c m t, ?_,
    hs₁.trans ?_, ?_⟩
  · rw [Files.copy, on_bind_ok (makeParents_target hc hat hdir), on_bind_ok (on_change_ok hcopy),
      on_bind_ok (on_fetch_ok hmodified)]
    exact on_change_ok hset
  · refine steps_rewrite hc₁.plain hput ⟨by simp, ?_⟩ ⟨_, _, _, rfl⟩
    simp only [archive_steps hwide, List.prefix_rfl]
  · have hup := at?_update (f := fun _ => Node.file c m t) hput (by simp)
    rw [archive_steps hwide] at hup ⊢
    exact hup

/-! ## The walk -/

theorem list_source (hc : Copiable d root ts)
    (hat : d.top.at? (assets d root ++ q) = some (.dir t es)) :
    d.list (root.join ⟨Layout.assetsDirName :: q⟩) = .ok es := by
  rw [Disk.list, find_source hc hat]

theorem source_div (hq : ∀ s ∈ q, isName s = true) (hname : isName name = true) :
    root.join ⟨Layout.assetsDirName :: q⟩ / name =
      root.join ⟨Layout.assetsDirName :: (q ++ [name])⟩ := by
  show (root.join ⟨_⟩).join ⟨splitSlash name⟩ = _
  rw [Path.splitSlash_of_isName hname,
    Path.join_join (by simp) (isName_source hq) (by simpa using hname), List.cons_append]

theorem kindOf_ne_link (h : n.isPlain = true) : Walk.kindOf n ≠ .link := by
  cases n with
  | file => simp [Walk.kindOf]
  | link => cases h
  | dir => simp [Walk.kindOf]

/-- From any item on whose place is free, a walk with some room copies what it meets. -/
def Copies (root : Path) (ts : String) (room : Nat) : Prop :=
  ∀ (above : List String) (name : String) (n : Node) (around : List (List String)) (count : Nat)
    (d : Disk), Copiable d root ts → d.top.at? (assets d root ++ (above ++ [name])) = some n →
    d.top.shape? (archive d root ts ++ above) = some .dir →
    d.top.shape? (archive d root ts ++ (above ++ [name])) = none →
    Walk.maxDepth ≤ room + (above ++ [name]).length →
    ∃ count' d', (Walk.foldFrom ⟨true, false⟩ (copyItem (Layout.snapshot root ts)) room around count
        ⟨root.join ⟨Layout.assetsDirName :: (above ++ [name])⟩, above ++ [name], Walk.kindOf n⟩).on d =
          (.ok count', d') ∧
      Steps (Fills (archive d root ts ++ (above ++ [name]))) d d' ∧
      ∀ rest, d'.top.shape? (archive d root ts ++ (above ++ [name]) ++ rest) =
        d.top.shape? (assets d root ++ (above ++ [name]) ++ rest)

/-- Edits at one entry of a directory leave the others alone. -/
theorem shape?_sibling {other : String} (h : Steps (Fills (place ++ [name])) d d') (hne : other ≠ name) :
    d'.top.shape? (place ++ [other] ++ rest) = d.top.shape? (place ++ [other] ++ rest) := by
  refine h.shape?_eq (fun e hf => hne ?_) spared_fills
  have hp := hf.2
  rw [List.append_assoc, List.prefix_append_right_inj] at hp
  exact ((List.cons_prefix_cons.mp hp).1).symm

/-- The entries of a directory are copied one after the other. -/
theorem entries_copied {room : Nat} (hroom : Copies root ts room) {around : List (List String)}
    {f : Nat → String × Walk.Kind → Action Nat} (count : Nat)
    (hf : ∀ s name kind, kind ≠ .link → f s (name, kind) =
      Walk.foldFrom ⟨true, false⟩ (copyItem (Layout.snapshot root ts)) room around s
        ⟨root.join ⟨Layout.assetsDirName :: q⟩ / name, q ++ [name], kind⟩)
    (hdepth : Walk.maxDepth ≤ room + (q.length + 1)) (hc : Copiable d root ts)
    (hdir : d.top.shape? (archive d root ts ++ q) = some .dir) (hnodup : (es.map Prod.fst).Nodup)
    (hat : ∀ e ∈ es, d.top.at? (assets d root ++ (q ++ [e.1])) = some e.2)
    (hnone : ∀ e ∈ es, d.top.shape? (archive d root ts ++ (q ++ [e.1])) = none) :
    ∃ count' d', ((es.map fun e => (e.1, Walk.kindOf e.2)).foldlM f count).on d = (.ok count', d') ∧
      Steps (Within (archive d root ts ++ q)) d d' ∧
      (∀ e ∈ es, ∀ rest, d'.top.shape? (archive d root ts ++ (q ++ [e.1]) ++ rest) =
        d.top.shape? (assets d root ++ (q ++ [e.1]) ++ rest)) ∧
      ∀ other, other ∉ es.map Prod.fst → ∀ rest,
        d'.top.shape? (archive d root ts ++ (q ++ [other]) ++ rest) =
          d.top.shape? (archive d root ts ++ (q ++ [other]) ++ rest) := by
  induction es generalizing d count with
  | nil => exact ⟨count, d, rfl, .refl _, by simp, fun _ _ _ => rfl⟩
  | cons e es ih =>
    obtain ⟨hate, hats⟩ := List.forall_mem_cons.mp hat
    obtain ⟨hnonee, hnones⟩ := List.forall_mem_cons.mp hnone
    rw [List.map_cons, List.nodup_cons] at hnodup
    have hplain := (Node.isPlain_of_at? hc.plain hate).2
    have hnames := isName_below hc hate
    have hq : ∀ s ∈ q, isName s = true := fun s hs => hnames s (List.mem_append_left _ hs)
    obtain ⟨count₁, d₁, hrun, hs₁, hshape₁⟩ := hroom q e.1 e.2 around count d hc hate hdir hnonee
      (by rw [List.length_append]; exact hdepth)
    have hwide : Steps (Fills (archive d root ts)) d d₁ :=
      hs₁.mono fun _ _ => Fills.mono (List.prefix_append _ _)
    have hside : ∀ other, other ≠ e.1 → ∀ rest,
        d₁.top.shape? (archive d root ts ++ (q ++ [other]) ++ rest) =
          d.top.shape? (archive d root ts ++ (q ++ [other]) ++ rest) := by
      intro other hne rest
      rw [← List.append_assoc] at hs₁ ⊢
      exact shape?_sibling hs₁ hne
    have hother : ∀ x ∈ es, x.1 ≠ e.1 := fun x hx he => hnodup.1 (he ▸ List.mem_map_of_mem hx)
    have hassets : ∀ z, d₁.top.shape? (assets d root ++ z) = d.top.shape? (assets d root ++ z) := by
      intro z
      rw [Node.shape?, at?_assets hwide]
      rfl
    obtain ⟨count', d', hrun', hs', hdone, hrest⟩ := ih count₁ (hc.steps hwide)
      (by rw [archive_steps hwide]; exact hs₁.dir spared_fills hdir) hnodup.2
      (fun x hx => by rw [assets_steps hwide, at?_assets hwide]; exact hats x hx)
      (fun x hx => by
        have hkeep := hside x.1 (hother x hx) []
        rw [List.append_nil] at hkeep
        rw [archive_steps hwide, hkeep]
        exact hnones x hx)
    rw [archive_steps hwide] at hs' hdone hrest
    rw [assets_steps hwide] at hdone
    refine ⟨count', d', ?_, ?_, ?_, ?_⟩
    · rw [List.map_cons, List.foldlM_cons, hf _ _ _ (kindOf_ne_link hplain),
        source_div hq (hnames e.1 (by simp)), on_bind_ok hrun]
      exact hrun'
    · rw [← List.append_assoc] at hs₁
      exact (hs₁.mono fun _ _ => Fills.within).trans hs'
    · refine List.forall_mem_cons.mpr ⟨fun rest => ?_, fun x hx rest => ?_⟩
      · rw [hrest e.1 hnodup.1]
        exact hshape₁ rest
      · rw [hdone x hx, List.append_assoc, hassets, List.append_assoc]
    · intro other hnot rest
      rw [List.map_cons, List.mem_cons, not_or] at hnot
      rw [hrest other hnot.2]
      exact hside other hnot.1 rest

theorem shape?_below_none (h : d.top.shape? place = none) (rest : List String) :
    d.top.shape? (place ++ rest) = none := by
  rw [Node.shape?, Option.map_eq_none_iff] at h ⊢
  rw [Node.at?_append, h]
  rfl

/-- A directory is visited by making its copy, which is empty. -/
theorem visit_dir (hc : Copiable d root ts) (count : Nat)
    (hat : d.top.at? (assets d root ++ (above ++ [name])) = some n)
    (hdir : d.top.shape? (archive d root ts ++ above) = some .dir)
    (hnone : d.top.shape? (archive d root ts ++ (above ++ [name])) = none) :
    ∃ d₁, (copyItem (Layout.snapshot root ts) count
        (.ok ⟨root.join ⟨Layout.assetsDirName :: (above ++ [name])⟩, above ++ [name], .dir⟩)).on d =
          (.ok count, d₁) ∧
      Steps (Fills (archive d root ts ++ (above ++ [name]))) d d₁ ∧
      d₁.top.shape? (archive d root ts ++ (above ++ [name])) = some .dir ∧
      ∀ rest, rest ≠ [] → d₁.top.shape? (archive d root ts ++ (above ++ [name]) ++ rest) = none := by
  have hv : d.Vacant (archive d root ts ++ above) name := by
    rw [vacant_iff, List.append_assoc]
    exact ⟨hdir, hnone⟩
  obtain ⟨t, es, hd, he⟩ := hv
  have hself : ∀ rest, (d.put (archive d root ts ++ (above ++ [name])) (.dir d.now [])).top.at?
      (archive d root ts ++ (above ++ [name]) ++ rest) = (Node.dir d.now []).at? rest := by
    intro rest
    rw [← List.append_assoc, List.append_assoc _ [name] rest, List.singleton_append]
    exact Node.at?_alter_self hd
  refine ⟨d.put (archive d root ts ++ (above ++ [name])) (.dir d.now []), ?_, ?_, ?_, ?_⟩
  · unfold copyItem
    dsimp only
    rw [relative_eq]
    exact on_bind_ok (makeDirs_target hc hat hdir hnone)
  · rw [← List.append_assoc]
    exact .of_step (step_put_dir ⟨t, es, hd, he⟩ (isName_below hc hat name (by simp))
      ⟨by simp, List.prefix_refl _⟩)
  · have hnil := hself []
    rw [List.append_nil] at hnil
    rw [Node.shape?, hnil]
    rfl
  · intro rest hne
    obtain ⟨a, rest, rfl⟩ := List.exists_cons_of_ne_nil hne
    rw [Node.shape?, hself]
    rfl

theorem visit_file (hc : Copiable d root ts) (count : Nat)
    (hat : d.top.at? (assets d root ++ (above ++ [name])) = some (.file c m t))
    (hdir : d.top.shape? (archive d root ts ++ above) = some .dir)
    (hnone : d.top.shape? (archive d root ts ++ (above ++ [name])) = none) :
    ∃ d₁, (copyItem (Layout.snapshot root ts) count
        (.ok ⟨root.join ⟨Layout.assetsDirName :: (above ++ [name])⟩, above ++ [name], .file⟩)).on d =
          (.ok (count + 1), d₁) ∧
      Steps (Fills (archive d root ts ++ (above ++ [name]))) d d₁ ∧
      d₁.top.at? (archive d root ts ++ (above ++ [name])) = some (.file c m t) := by
  obtain ⟨d₁, hrun, hs, hcopy⟩ := copy_target hc hat hdir hnone
  refine ⟨d₁, ?_, hs, hcopy⟩
  unfold copyItem
  dsimp only
  rw [relative_eq]
  exact on_bind_ok hrun

/-- What is at the entries of a directory of assets. -/
theorem at?_entry (hc : Copiable d root ts)
    (hat : d.top.at? (assets d root ++ q) = some (.dir t es)) {e : String × Node} (he : e ∈ es) :
    d.top.at? (assets d root ++ (q ++ [e.1])) = some e.2 := by
  have hnodup := (Node.isPlain_dir_iff.mp (Node.isPlain_of_at? hc.plain hat).2).1
  rw [← List.append_assoc]
  exact (Node.at?_concat _ _ _).mpr ⟨t, es, hat, Entries.lookup_of_mem hnodup he⟩

/-- Below a directory whose entries are copied, all is copied. -/
theorem shape?_copied (hat : d.top.at? (assets d root ++ q) = some (.dir t es))
    (hdir : d'.top.shape? (archive d root ts ++ q) = some .dir)
    (hdone : ∀ e ∈ es, ∀ rest, d'.top.shape? (archive d root ts ++ (q ++ [e.1]) ++ rest) =
      d.top.shape? (assets d root ++ (q ++ [e.1]) ++ rest))
    (hrest : ∀ other, other ∉ es.map Prod.fst → ∀ rest,
      d'.top.shape? (archive d root ts ++ (q ++ [other]) ++ rest) = none) (rest : List String) :
    d'.top.shape? (archive d root ts ++ q ++ rest) = d.top.shape? (assets d root ++ q ++ rest) := by
  cases rest with
  | nil =>
    rw [List.append_nil, List.append_nil, hdir, Node.shape?, hat]
    rfl
  | cons x rest =>
    have hcons : ∀ z : List String, z ++ q ++ x :: rest = z ++ (q ++ [x]) ++ rest := by simp
    rw [hcons, hcons]
    by_cases hx : x ∈ es.map Prod.fst
    · obtain ⟨e, he, rfl⟩ := List.mem_map.mp hx
      exact hdone e he rest
    · rw [hrest x hx, ← List.append_assoc, List.append_assoc _ [x], Node.shape?, Node.at?_append, hat,
        Option.bind_some, List.singleton_append, Node.at?_dir_cons,
        List.lookup_eq_none_iff.mpr fun e he => ?_]
      · rfl
      · simp only [bne_iff_ne]
        rintro rfl
        exact hx (List.mem_map_of_mem he)

theorem copies (root : Path) (ts : String) (room : Nat) : Copies root ts room := by
  induction room with
  | zero =>
    intro above name n around count d hc hat hdir hnone hdepth
    have hlen := length_lt_maxDepth hc hat
    omega
  | succ room ih =>
    intro above name n around count d hc hat hdir hnone hdepth
    cases n with
    | link => cases (Node.isPlain_of_at? hc.plain hat).2
    | file c m t =>
      obtain ⟨d', hrun, hs, hcopy⟩ := visit_file hc count hat hdir hnone
      refine ⟨count + 1, d', ?_, hs, fun rest => ?_⟩
      · rw [Walk.foldFrom_of_file rfl]
        exact hrun
      · rw [Node.shape?, Node.shape?, Node.at?_append, Node.at?_append _ (assets d root ++ _), hcopy,
          hat]
    | dir t es =>
      obtain ⟨d₁, hvisit, hs₁, hdir₁, hnone₁⟩ := visit_dir hc count hat hdir hnone
      have hwide : Steps (Fills (archive d root ts)) d d₁ :=
        hs₁.mono fun _ _ => Fills.mono (List.prefix_append _ _)
      have hc₁ := hc.steps hwide
      have hassets := at?_assets hwide
      have hat₁ : d₁.top.at? (assets d₁ root ++ (above ++ [name])) = some (.dir t es) := by
        rw [assets_steps hwide, hassets]
        exact hat
      obtain ⟨around', f, hf, hrun⟩ := Walk.foldFrom_of_dir (o := ⟨true, false⟩) room around rfl
        rfl hvisit (list_source hc₁ hat₁)
      obtain ⟨count', d', hfold, hs', hdone, hrest⟩ := entries_copied ih count hf
        (by rw [List.length_append, List.length_singleton] at *; omega) hc₁
        (by rw [archive_steps hwide]; exact hdir₁)
        (Node.isPlain_dir_iff.mp (Node.isPlain_of_at? hc.plain hat).2).1
        (fun e he => at?_entry hc₁ hat₁ he)
        (fun e he => by
          rw [archive_steps hwide, ← List.append_assoc]
          exact hnone₁ [e.1] (by simp))
      rw [archive_steps hwide] at hs' hdone hrest
      rw [assets_steps hwide] at hdone
      refine ⟨count', d', hrun.trans hfold, hs₁.trans (hs'.mono fun _ _ => Within.fills), ?_⟩
      refine shape?_copied hat (hs'.dir spared_within hdir₁) (fun e he rest => ?_)
        fun other hother rest => ?_
      · rw [hdone e he rest, Node.shape?, List.append_assoc, hassets, ← List.append_assoc]
        rfl
      · rw [hrest other hother rest, ← List.append_assoc, List.append_assoc _ [other]]
        exact hnone₁ _ (by simp)

/-! ## The whole copy -/

theorem archive_eq (d : Disk) (root : Path) (ts : String) :
    archive d root ts = d.place root ++ [Layout.snapshotsDirName] ++ [ts] := by
  rw [archive, List.append_assoc]
  rfl

theorem archive_prefix_iff {other : String} :
    archive d root name <+: archive d root other ++ rest ↔ name = other := by
  rw [archive, archive, List.append_assoc, List.prefix_append_right_inj]
  simp

theorem at?_assets_nil (h : d.top.shape? (assets d root) = some .dir) :
    ∃ t es, d.top.at? (assets d root ++ []) = some (.dir t es) := by
  rw [List.append_nil]
  exact Node.shape?_eq_dir.mp h

/-- The start of the walk is visited without a change. -/
theorem visit_start (hc : Copiable d root ts) (count : Nat)
    (hat : d.top.at? (assets d root ++ []) = some n)
    (hdir : d.top.shape? (archive d root ts) = some .dir) :
    (copyItem (Layout.snapshot root ts) count
      (.ok ⟨root.join ⟨[Layout.assetsDirName]⟩, [], .dir⟩)).on d = (.ok count, d) := by
  have hl := Node.linkFree_of_isPlain hc.plain
  have hadmits := hc.fits [] n hat
  have htrail : d.trail ((Layout.snapshot root ts).join (below [])) = d.trail (Layout.snapshot root ts) := by
    refine trail_congr (Path.isAbsolute_join (by decide) (by simp [below])) ?_
    rw [Path.names_join (by decide)]
    simp [below, Path.names, Path.isIdle]
  have hlead : d.Leads ((Layout.snapshot root ts).join (below [])) := by
    rw [leads_congr htrail]
    refine leads_join hl hc.leads (Layout.isName_snapshot hc.name) (by simp) (fun s hs => ?_) hdir
    refine hadmits.2 s ?_
    rw [htrail, Layout.trail_snapshot hc.name]
    exact List.mem_append_right _ hs
  obtain ⟨t, es, hloc⟩ : ∃ t es, d.locate false _ = .ok (.there _ (.dir t es)) :=
    locate_of_leads hl hadmits hlead
  unfold copyItem
  dsimp only
  rw [relative_eq]
  exact on_bind_ok (makeDirs_of_there hl hloc)

/-- A tree is copied to a free place. -/
theorem copyTree_ok (hc : Copiable d root ts) (hassets : d.top.shape? (assets d root) = some .dir)
    (hdir : d.top.shape? (d.place root ++ [Layout.snapshotsDirName]) = some .dir)
    (hnone : d.top.shape? (archive d root ts) = none) :
    ∃ count d', (copyTree (Layout.assetsDir root) (Layout.snapshot root ts)).on d = (.ok count, d') ∧
      Steps (Fills (archive d root ts)) d d' ∧
      (∃ es, d'.top.at? (archive d root ts) = some (.dir d.now es)) ∧
      ∀ q, d'.top.shape? (archive d root ts ++ q) = d.top.shape? (assets d root ++ q) := by
  have hl := Node.linkFree_of_isPlain hc.plain
  obtain ⟨t, es, hat⟩ := at?_assets_nil hassets
  have hpl := archive_eq d root ts
  have hv : d.Vacant (d.place root ++ [Layout.snapshotsDirName]) ts := by
    rw [vacant_iff, ← hpl]
    exact ⟨hdir, hnone⟩
  have hmake : (makeDirs (Layout.snapshot root ts)).on d =
      (.ok (), d.put (archive d root ts) (.dir d.now [])) := by
    obtain ⟨t', es', hd, he⟩ := hv
    have hadmits : d.Admits (root.join ⟨[Layout.snapshotsDirName] ++ [ts]⟩) := by
      simpa using admits_target hc hat
    rw [hpl]
    exact makeDirs_of_vacant (locate_join_vacant hl hc.leads (Layout.isName_snapshot hc.name)
      hadmits hd he)
  have hs₁ : Steps (Fills (archive d root ts)) d (d.put (archive d root ts) (.dir d.now [])) := by
    rw [hpl]
    exact .of_step (step_put_dir hv hc.name ⟨by simp, List.prefix_refl _⟩)
  have hself : ∀ rest, (d.put (archive d root ts) (.dir d.now [])).top.at? (archive d root ts ++ rest) =
      (Node.dir d.now []).at? rest := by
    intro rest
    obtain ⟨t', es', hd, -⟩ := hv
    rw [hpl, List.append_assoc _ [ts] rest, List.singleton_append]
    exact Node.at?_alter_self hd
  generalize d.put (archive d root ts) (.dir d.now []) = d₁ at hmake hs₁ hself
  have hc₁ := hc.steps hs₁
  have hat₁ : d₁.top.at? (assets d₁ root ++ []) = some (.dir t es) := by
    rw [assets_steps hs₁, at?_assets hs₁]
    exact hat
  have hnow : d₁.top.at? (archive d root ts) = some (.dir d.now []) := by
    have hnil := hself []
    rw [List.append_nil] at hnil
    exact hnil
  have hdir₁ : d₁.top.shape? (archive d root ts) = some .dir := Node.shape?_eq_dir.mpr ⟨_, _, hnow⟩
  have hfree : ∀ rest, rest ≠ [] → d₁.top.shape? (archive d root ts ++ rest) = none := by
    intro rest hne
    obtain ⟨a, rest, rfl⟩ := List.exists_cons_of_ne_nil hne
    rw [Node.shape?, hself]
    rfl
  obtain ⟨around, f, hf, hrun⟩ := Walk.foldFrom_of_dir (o := ⟨true, false⟩) pathLimit [] rfl rfl
    (visit_start hc₁ 0 hat₁ (by rw [archive_steps hs₁]; exact hdir₁)) (list_source hc₁ hat₁)
  obtain ⟨count, d', hfold, hs', hdone, hrest⟩ := entries_copied (q := []) (copies root ts pathLimit) 0
    hf (Nat.le_refl _) hc₁ (by rw [archive_steps hs₁, List.append_nil]; exact hdir₁)
    (Node.isPlain_dir_iff.mp (Node.isPlain_of_at? hc.plain hat).2).1
    (fun e he => at?_entry hc₁ hat₁ he)
    (fun e he => by rw [archive_steps hs₁]; exact hfree _ (by simp))
  rw [archive_steps hs₁] at hs' hdone hrest
  rw [assets_steps hs₁] at hdone
  rw [List.append_nil] at hs'
  refine ⟨count, d', ?_, hs₁.trans (hs'.mono fun _ _ => Within.fills), ?_, fun q => ?_⟩
  · have hfind : d₁.find (Layout.assetsDir root) = .ok (assets d₁ root ++ [], .dir t es) :=
      find_source hc₁ hat₁
    rw [copyTree, on_bind_ok hmake, Walk.fold, on_bind_ask, hfind]
    exact hrun.trans hfold
  · have hclock : d₁.now = d.now := by rw [now, hs₁.clock_eq, now]
    rw [← hclock] at hnow ⊢
    refine hs'.dir_now spared_within ?_ ⟨_, hnow⟩
    rintro ⟨-, name, rest, he⟩
    simp at he
  · have hall : d'.top.shape? (archive d root ts ++ [] ++ q) =
        d.top.shape? (assets d root ++ [] ++ q) :=
      shape?_copied hat (by rw [List.append_nil]; exact hs'.dir spared_within hdir₁)
        (fun e he rest => ?_) (fun other hother rest => ?_) q
    · simpa using hall
    · rw [hdone e he rest, Node.shape?, List.append_assoc, at?_assets hs₁, ← List.append_assoc]
      rfl
    · rw [hrest other hother rest, List.append_assoc]
      exact hfree _ (by simp)

/-! ## Taking a snapshot -/

/-- What taking a snapshot does: it makes the directory of snapshots, and all else is in the
snapshot. -/
def Takes (d : Disk) (root : Path) (ts : String) (e : Edit) (p : List String) : Prop :=
  (e = .make ∧ p = d.place root ++ [Layout.snapshotsDirName]) ∨ archive d root ts <+: p

theorem at?_assets_takes (h : Steps (Takes d root ts) d d') (q : List String) :
    d'.top.at? (assets d root ++ q) = d.top.at? (assets d root ++ q) := by
  refine h.at?_eq ?_ ?_
  · rintro e p (⟨-, rfl⟩ | hp) hpre
    · rw [assets, List.append_assoc, List.prefix_append_right_inj] at hpre
      exact absurd (List.cons_prefix_cons.mp hpre).1 (by decide)
    · exact not_prefix_assets hp hpre
  · rintro p (⟨he, -⟩ | hp) hpre
    · cases he
    · have hlong := hp.trans hpre
      rw [assets, archive, List.append_assoc, List.prefix_append_right_inj] at hlong
      exact absurd (List.cons_prefix_cons.mp hlong).1 (by decide)

/-- Of the directories on the way to the root only those in the snapshot can be missing, so
others are not made. -/
theorem steps_of_passes {allow : Edit → List String → Prop} (hp : d.top.isPlain = true) (hroot : d.Leads root)
    (herase : ∀ p, allow .erase p → archive d root ts <+: p) (hmake : ∀ p, archive d root ts <+: p → allow .make p)
    (h : Steps (fun e p => e = .make ∧ d.Passes root p ∨ allow e p) d d') : Steps allow d d' := by
  have hdrop := h.drop_makes (Q := fun p => d.Passes root p ∧ ¬ archive d root ts <+: p)
    (fun p hQ => dir_of_passes hp hroot hQ.1) ?_
  · refine hdrop.mono ?_
    rintro e p ⟨⟨rfl, hpass⟩ | hallow, hout⟩
    · exact hmake p (not_not.mp fun hin => hout rfl ⟨hpass, hin⟩)
    · exact hallow
  · rintro q ⟨-, hq⟩ p (⟨he, -⟩ | hallow) hpq
    · cases he
    · exact hq ((herase p hallow).trans hpq)

/-- A snapshot of a project that is there changes nothing but itself. -/
theorem steps_takes (hp : d.top.isPlain = true) (hroot : d.Leads root) :
    Steps (Takes d root (Calendar.timestamp d.clock)) d ((take root).on d).2 := by
  refine steps_of_passes hp hroot ?_ (fun _ => Or.inr) ?_
  · rintro p (⟨he, -⟩ | hin)
    · cases he
    · exact hin
  · refine keeps_take hp (hroot.named hp) (fun q hq => Or.inl ⟨rfl, hq⟩) (Or.inr (Or.inl ⟨rfl, rfl⟩)) ?_ d (.refl _)
    exact fun e rest => Or.inr (Or.inr ⟨rest, by simp [archive]⟩)

/-- The path of the root stays clear of a snapshot. -/
def Avoids (d : Disk) (root : Path) (ts : String) : Prop :=
  ∀ q, ¬ d.Passes root (archive d root ts ++ q)

theorem leads_takes (hp : d.top.isPlain = true) (hlead : d.Leads root) (hpass : Avoids d root ts)
    (h : Steps (Takes d root ts) d d') : d'.Leads root := by
  refine h.leads hp (fun ys hys => ?_) hlead
  rintro p (⟨he, -⟩ | harchive) hpre
  · cases he
  · obtain ⟨q, hq⟩ := harchive.trans hpre
    exact hpass q ⟨ys, hys, hq.symm⟩

theorem Copiable.takes (hc : Copiable d root ts) (hpass : Avoids d root ts)
    (h : Steps (Takes d root ts) d d') : Copiable d' root ts where
  plain := h.isPlain hc.plain
  leads := leads_takes hc.plain hc.leads hpass h
  name := hc.name
  fits q n hat := by
    rw [assets, h.place_eq, ← assets, at?_assets_takes h] at hat
    exact h.admits_iff.mpr (hc.fits q n hat)
  free q c m t hat := by
    rw [assets, h.place_eq, ← assets, at?_assets_takes h] at hat
    exact hc.free q c m t hat

/-- The directory of snapshots is there once it is made. -/
theorem makeSnapshots_ok (hc : Copiable d root ts)
    (hat : d.top.at? (assets d root ++ []) = some n)
    (hdir : d.top.shape? (d.place root ++ [Layout.snapshotsDirName]) = none ∨
      d.top.shape? (d.place root ++ [Layout.snapshotsDirName]) = some .dir) :
    ∃ d', (makeDirs (Layout.snapshots root)).on d = (.ok (), d') ∧ Steps (Takes d root ts) d d' ∧
      d'.top.shape? (d.place root ++ [Layout.snapshotsDirName]) = some .dir ∧
      d'.top.shape? (archive d root ts) = d.top.shape? (archive d root ts) := by
  have hl := Node.linkFree_of_isPlain hc.plain
  have hadmits : d.Admits (root.join ⟨[Layout.snapshotsDirName]⟩) := by
    refine Admits.of_join (admits_target hc hat) (by simp) (by simp) (by decide)
      (isName_target hc.name (by simp)) ?_ (fun s hs => Or.inl ?_)
    · simp only [List.append_nil, Path.bytes, List.length_cons, List.length_nil]
      omega
    · simp only [List.mem_singleton] at hs
      simp [hs]
  have hpath : Layout.snapshots root = root.join ⟨[Layout.snapshotsDirName]⟩ := rfl
  rw [hpath]
  rcases hdir with hnone | hdir
  · have hv : d.Vacant (d.place root) Layout.snapshotsDirName :=
      vacant_iff.mpr ⟨hc.leads.dir hl, hnone⟩
    have hs : Steps (Takes d root ts) d
        (d.put (d.place root ++ [Layout.snapshotsDirName]) (.dir d.now [])) :=
      .of_step (step_put_dir hv (by decide) (Or.inl ⟨rfl, rfl⟩))
    obtain ⟨t, es, hd, he⟩ := hv
    have hself : (d.put (d.place root ++ [Layout.snapshotsDirName]) (.dir d.now [])).top.at?
        (d.place root ++ [Layout.snapshotsDirName]) = some (.dir d.now []) :=
      at?_put ⟨t, es, hd⟩ _
    have hloc : d.locate false (root.join ⟨[] ++ [Layout.snapshotsDirName]⟩) =
        .ok (.vacant (d.place root ++ []) Layout.snapshotsDirName) :=
      locate_join_vacant hl hc.leads (by decide) hadmits (by rw [List.append_nil]; exact hd) he
    rw [List.append_nil, List.nil_append] at hloc
    refine ⟨_, makeDirs_of_vacant hloc, hs, Node.shape?_eq_dir.mpr ⟨_, _, hself⟩, ?_⟩
    rw [archive_eq, shape?_below_none hnone, Node.shape?, Node.at?_append, hself]
    rfl
  · obtain ⟨t, es, hat'⟩ := Node.shape?_eq_dir.mp hdir
    have hloc : d.locate false (root.join ⟨[Layout.snapshotsDirName]⟩) = .ok (.there _ (.dir t es)) :=
      locate_join hl hc.leads (by decide) (by simp) hadmits hat'
    exact ⟨d, makeDirs_of_there hl hloc, .refl _, hdir, rfl⟩

theorem isThere_archive (hc : Copiable d root ts) (hnone : d.top.shape? (archive d root ts) = none) :
    d.isThere (Layout.snapshot root ts) = false := by
  rw [isThere]
  cases hf : d.find (Layout.snapshot root ts) with
  | error e => rfl
  | ok r =>
    obtain ⟨place, n⟩ := r
    obtain ⟨rfl, hat⟩ := find_ok (Node.linkFree_of_isPlain hc.plain) hf
    rw [Layout.place_snapshot hc.name, ← archive] at hat
    rw [Node.shape?, hat] at hnone
    cases hnone

/-- A snapshot that has the name of a new one can be removed as a whole. -/
theorem remove_archive (hc : Copiable d root ts) (hat : d.top.at? (assets d root ++ []) = some n)
    (hdir : d.top.shape? (archive d root ts) = some .dir) :
    d.isThere (Layout.snapshot root ts) = true ∧
      d.removeTree (Layout.snapshot root ts) = .ok (d.erase (archive d root ts)) ∧
      Steps (Takes d root ts) d (d.erase (archive d root ts)) ∧
      (d.erase (archive d root ts)).top.shape? (archive d root ts) = none := by
  obtain ⟨t, es, hold⟩ := Node.shape?_eq_dir.mp hdir
  have hadmits : d.Admits (Layout.snapshot root ts) := by
    simpa [Layout.snapshot] using admits_target hc hat
  have hloc : ∀ follow, d.locate follow (Layout.snapshot root ts) =
      .ok (.there (archive d root ts) (.dir t es)) := fun follow =>
    locate_join (Node.linkFree_of_isPlain hc.plain) hc.leads (Layout.isName_snapshot hc.name) (by simp)
      hadmits hold
  refine ⟨?_, ?_, ?_, ?_⟩
  · rw [isThere, find_ok_iff.mpr (hloc true)]
    rfl
  · rw [removeTree, hloc false]
  · exact steps_erase hc.plain hold (Or.inr (List.prefix_refl _))
  · rw [Node.shape?, at?_erase hold (by simp [archive])]
    rfl

theorem isDir_assets (hc : Copiable d root ts) (h : d.top.shape? (assets d root) = some .dir) :
    d.isDir (Layout.assetsDir root) = true := by
  obtain ⟨t, es, hat⟩ := at?_assets_nil h
  have hfind : d.find (Layout.assetsDir root) = .ok (assets d root ++ [], .dir t es) :=
    find_source hc hat
  rw [isDir, hfind]
  rfl

/-- A snapshot is a copy of the assets, and the newest directory of all. -/
theorem take_ok (hc : Copiable d root (Calendar.timestamp d.clock))
    (hassets : d.top.shape? (assets d root) = some .dir)
    (hsnapshots : d.top.shape? (d.place root ++ [Layout.snapshotsDirName]) = none ∨
      d.top.shape? (d.place root ++ [Layout.snapshotsDirName]) = some .dir)
    (hdir : d.top.shape? (archive d root (Calendar.timestamp d.clock)) = none ∨
      d.top.shape? (archive d root (Calendar.timestamp d.clock)) = some .dir)
    (hpass : Avoids d root (Calendar.timestamp d.clock)) :
    ∃ d', (take root).on d = (.ok (Layout.snapshot root (Calendar.timestamp d.clock)), d') ∧
      Steps (Takes d root (Calendar.timestamp d.clock)) d d' ∧
      (∃ es, d'.top.at? (archive d root (Calendar.timestamp d.clock)) = some (.dir d.now es)) ∧
      ∀ q, d'.top.shape? (archive d root (Calendar.timestamp d.clock) ++ q) =
        d.top.shape? (assets d root ++ q) := by
  unfold take
  rw [name, on_bind_ask, Layout.snapshots_div hc.name]
  generalize Calendar.timestamp d.clock = ts at hc hdir hpass
  obtain ⟨t, es, hat⟩ := at?_assets_nil hassets
  obtain ⟨d₁, hmake, hs₁, hdir₁, harchive⟩ := makeSnapshots_ok hc hat hsnapshots
  have hc₁ := hc.takes hpass hs₁
  have hpl : ∀ {a : Disk}, Steps (Takes d root ts) d a → assets a root = assets d root ∧
      archive a root ts = archive d root ts ∧ a.place root = d.place root := by
    intro a hs
    rw [assets, archive, hs.place_eq]
    exact ⟨rfl, rfl, rfl⟩
  have hkeep : ∀ {a : Disk}, Steps (Takes d root ts) d a → ∀ q,
      a.top.shape? (assets d root ++ q) = d.top.shape? (assets d root ++ q) := by
    intro a hs q
    rw [Node.shape?, at?_assets_takes hs, Node.shape?]
  -- the place of the snapshot is free once what had its name is removed
  obtain ⟨d₂, hs₂, hdir₂, hnone₂, hclear⟩ : ∃ d₂, Steps (Takes d root ts) d d₂ ∧
      d₂.top.shape? (d.place root ++ [Layout.snapshotsDirName]) = some .dir ∧
      d₂.top.shape? (archive d root ts) = none ∧
      ((d₁.isThere (Layout.snapshot root ts) = false ∧ d₂ = d₁) ∨
        (d₁.isThere (Layout.snapshot root ts) = true ∧
          d₁.removeTree (Layout.snapshot root ts) = .ok d₂)) := by
    rw [← harchive, ← (hpl hs₁).2.1] at hdir
    rcases hdir with hnone | hold
    · exact ⟨d₁, hs₁, hdir₁, (hpl hs₁).2.1 ▸ hnone, Or.inl ⟨isThere_archive hc₁ hnone, rfl⟩⟩
    · obtain ⟨hthere, hrm, hs, hnone⟩ := remove_archive hc₁
        (n := .dir t es) (by rw [(hpl hs₁).1, at?_assets_takes hs₁]; exact hat) hold
      refine ⟨_, hs₁.trans (hs.mono fun e p hT => ?_), hs.dir ?_ hdir₁, (hpl hs₁).2.1 ▸ hnone,
        Or.inr ⟨hthere, hrm⟩⟩
      · rw [Takes, (hpl hs₁).2.1, (hpl hs₁).2.2] at hT
        exact hT
      · rintro p (⟨he, -⟩ | hp) hpre
        · cases he
        · have hlen := (hp.trans hpre).length_le
          rw [(hpl hs₁).2.1, archive, List.length_append, List.length_append] at hlen
          simp at hlen
  have hc₂ := hc.takes hpass hs₂
  obtain ⟨hpa, hpr, hpp⟩ := hpl hs₂
  obtain ⟨count, d₃, hcopy, hs₃, hnow, hshape⟩ := copyTree_ok hc₂
    (by rw [hpa, ← List.append_nil (assets d root), hkeep hs₂, List.append_nil]; exact hassets)
    (by rw [hpp]; exact hdir₂) (by rw [hpr]; exact hnone₂)
  rw [hpr] at hs₃ hnow hshape
  refine ⟨d₃, ?_, hs₂.trans (hs₃.mono fun e p hf => Or.inr hf.2), ?_, fun q => ?_⟩
  · have hassets₁ : d₁.top.shape? (assets d₁ root) = some .dir := by
      rw [(hpl hs₁).1, ← List.append_nil (assets d root), hkeep hs₁, List.append_nil]
      exact hassets
    rw [on_bind_ok hmake, on_bind_ask, isDir_assets hc₁ hassets₁, if_pos rfl, on_bind_ask]
    rcases hclear with ⟨hthere, rfl⟩ | ⟨hthere, hrm⟩
    · rw [hthere, if_neg Bool.false_ne_true]
      exact on_bind_ok hcopy
    · rw [hthere, if_pos rfl, on_bind_ok (on_change_ok hrm)]
      exact on_bind_ok hcopy
  · have hclock : d₂.now = d.now := by rw [now, hs₂.clock_eq, now]
    rw [← hclock]
    exact hnow
  · rw [hshape q, hpa, hkeep hs₂]

end Outfitter.Snapshot
