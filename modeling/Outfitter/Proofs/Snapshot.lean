import Outfitter.Proofs.Directories
import Outfitter.Proofs.Layout
import Outfitter.Proofs.Walk
import Outfitter.Snapshot

/-! # What snapshots change

Taking and pruning snapshots makes directories and changes what lies in the directory of
snapshots, and nothing else.
-/

namespace Outfitter

namespace Stamp

theorem le_total (a b : Stamp) : (a.le b || b.le a) = true := by
  obtain ⟨s, f⟩ := a
  obtain ⟨s', f'⟩ := b
  cases f <;> cases f' <;> simp [Stamp.le] <;> omega

theorem le_trans {a b c : Stamp} (h : a.le b = true) (h' : b.le c = true) : a.le c = true := by
  obtain ⟨s, f⟩ := a
  obtain ⟨s', f'⟩ := b
  obtain ⟨s'', f''⟩ := c
  cases f <;> cases f' <;> cases f'' <;> simp_all [Stamp.le] <;> omega

theorem le_antisymm {a b : Stamp} (h : a.le b = true) (h' : b.le a = true) : a = b := by
  obtain ⟨s, f⟩ := a
  obtain ⟨s', f'⟩ := b
  cases f <;> cases f' <;> simp_all [Stamp.le] <;> omega

end Stamp

namespace Snapshot

open Disk Action Files

variable {allow : Edit → List String → Prop} {d₀ : Disk} {root target : Path}

theorem isName_relative {i : Walk.Item} (h : ∀ s ∈ i.below, isName s = true) :
    i.relative.isAbsolute = false ∧ i.relative.segments ≠ [] ∧ i.relative.names = i.below := by
  unfold Walk.Item.relative
  split
  · next he => exact ⟨rfl, by simp, by rw [he]; rfl⟩
  · next names hne => exact ⟨Path.isAbsolute_of_isName h, hne, Path.filter_names h⟩

theorem trail_relative {d : Disk} {i : Walk.Item} (h : ∀ s ∈ i.below, isName s = true) :
    d.trail (target.join i.relative) = d.trail target ++ i.below := by
  obtain ⟨ha, hne, hn⟩ := isName_relative h
  by_cases hb : i.below = []
  · rw [hb, List.append_nil]
    exact trail_congr (Path.isAbsolute_join ha hne) (by rw [Path.names_join ha, hn, hb, List.append_nil])
  · have hrel : i.relative = ⟨i.below⟩ := by
      unfold Walk.Item.relative
      split
      · next he => exact absurd he hb
      · rfl
    rw [hrel, trail_join h hb]

theorem place_relative {d : Disk} {i : Walk.Item} (h : ∀ s ∈ i.below, isName s = true) :
    d.place (target.join i.relative) = d.place target ++ i.below := by
  rw [place, trail_relative h, climb_below h]

theorem keeps_copyItem (hp : d₀.top.isPlain = true) (hn : target.Named)
    (hm : ∀ rest, (∀ s ∈ rest, isName s = true) → MayMake allow (d₀.trail target ++ rest))
    (hc : ∀ rest, allow .create (d₀.place target ++ rest))
    (hw : ∀ rest, allow .rewrite (d₀.place target ++ rest)) (count : Nat)
    (r : Except Fault Walk.Item) (hr : Walk.Proper r) :
    Keeps (Steps allow d₀) (copyItem target count r) := by
  cases r with
  | error e => exact Keeps.fail _
  | ok item =>
    have hi := hr item rfl
    have hn' : (target.join item.relative).Named := by
      obtain ⟨ha, -, hnames⟩ := isName_relative hi
      intro s hs
      rw [Path.names_join ha, hnames, List.mem_append] at hs
      exact hs.elim (hn s) fun hs => Or.inr (hi s hs)
    have hpl : d₀.place (target.join item.relative) = d₀.place target ++ item.below :=
      place_relative hi
    have hm' := hm item.below hi
    rw [← trail_relative hi] at hm'
    unfold copyItem
    dsimp only
    split
    · exact (keeps_makeDirs hp hn' hm').bind fun _ => Keeps.pure _
    · exact (Files.keeps_copy hp hn' hm' (by rw [hpl]; exact hc _)
        (by rw [hpl]; exact hw _)).bind fun _ => Keeps.pure _
    · exact Keeps.pure _

theorem keeps_copyTree {source : Path} (hp : d₀.top.isPlain = true) (hn : target.Named)
    (hm : ∀ rest, (∀ s ∈ rest, isName s = true) → MayMake allow (d₀.trail target ++ rest))
    (hc : ∀ rest, allow .create (d₀.place target ++ rest))
    (hw : ∀ rest, allow .rewrite (d₀.place target ++ rest)) :
    Keeps (Steps allow d₀) (copyTree source target) :=
  (keeps_makeDirs hp hn (by simpa using hm [])).bind fun _ =>
    Walk.keeps_fold (fun _ hs => hs.isPlain hp) (keeps_copyItem hp hn hm hc hw) _ _

theorem keeps_take (hp : d₀.top.isPlain = true) (hn : root.Named)
    (hm : ∀ q, d₀.Passes root q → allow .make q)
    (hs : allow .make (d₀.place root ++ [Layout.snapshotsDirName]))
    (ha : ∀ e rest,
      allow e (d₀.place root ++ Layout.snapshotsDirName :: Calendar.timestamp d₀.clock :: rest)) :
    Keeps (Steps allow d₀) (take root) := by
  unfold take
  refine (Keeps.ask _).bind_of (Q := fun ts => ts = Calendar.timestamp d₀.clock) ?_ fun ts hts => ?_
  · intro d ts d' hd h
    rw [name, on_ask, Prod.mk.injEq, Except.ok.injEq] at h
    rw [← h.1, hd.clock_eq]
  rw [← hts] at ha
  replace hts : isName ts = true := hts ▸ Calendar.isName_timestamp _
  rw [Layout.snapshots_div hts]
  have hdir : (Layout.snapshot root ts).Named := hn.join (Layout.isName_snapshot hts)
  have ha' : ∀ e rest, allow e (d₀.place (Layout.snapshot root ts) ++ rest) := by
    intro e rest
    rw [Layout.place_snapshot hts, List.append_assoc]
    exact ha e rest
  have hbelow : ∀ rest, (∀ s ∈ rest, isName s = true) → (∀ s ∈ rest.head?, s = ts) →
      MayMake allow (d₀.trail root ++ Layout.snapshotsDirName :: rest) := by
    intro rest hrest hhead
    refine mayMake_below (List.forall_mem_cons.mpr ⟨by decide, hrest⟩) hm fun zs hzs => ?_
    rcases List.prefix_cons_iff.mp hzs with rfl | ⟨ys, rfl, hys⟩
    · rw [List.append_nil]
      exact hm _ ⟨_, List.prefix_refl _, rfl⟩
    · cases ys with
      | nil => exact hs
      | cons name ys =>
        obtain ⟨more, rfl⟩ := hys
        obtain rfl : name = ts := hhead name rfl
        exact ha .make ys
  have hcopy : Keeps (Steps allow d₀) (copyTree (Layout.assetsDir root) (Layout.snapshot root ts)) := by
    refine keeps_copyTree hp hdir (fun rest hrest => ?_) (ha' _) (ha' _)
    rw [Layout.trail_snapshot hts, List.append_assoc]
    exact hbelow (ts :: rest) (List.forall_mem_cons.mpr ⟨hts, hrest⟩) (by simp)
  have herase : Keeps (Steps allow d₀) (change (·.removeTree (Layout.snapshot root ts))) :=
    keeps_removeTree hp (by simpa using ha' .erase [])
  have hmake : Keeps (Steps allow d₀) (makeDirs (Layout.snapshots root)) := by
    refine keeps_makeDirs hp (named_div hn (by decide)) ?_
    rw [Layout.snapshots, trail_div (by decide)]
    exact hbelow [] (by simp) (by simp)
  refine hmake.bind fun _ => (Keeps.ask _).bind fun _ => Keeps.ite ((Keeps.ask _).bind fun _ =>
      Keeps.ite (herase.bind fun _ => ?_) ?_) (Keeps.pure _)
  · exact hcopy.bind fun _ => Keeps.pure _
  · exact hcopy.bind fun _ => Keeps.pure _

/-! ## Where the root leads

The root of a project may lead through the snapshot that is replaced. It is erased and made
again, and the root leads where it led, unless the run itself started from inside it.
-/

theorem clear_erase {d : Disk} {p : Path} (hp : d.top.isPlain = true) (h : d.Leads p)
    (hat : ∃ t es, d.top.at? (d.place p) = some (.dir t es)) :
    (d.erase (d.place p)).Clear (d.trail p) := by
  obtain ⟨t, es, hat⟩ := hat
  have hl := Node.linkFree_of_isPlain hp
  have hs : Steps (fun e q => e = .erase ∧ q = d.place p) d (d.erase (d.place p)) :=
    steps_erase hp hat ⟨rfl, rfl⟩
  intro ys hys
  have hdir := ((leads_iff hl).mp h).2 ys hys
  by_cases hin : d.place p <+: (climb [] ys).reverse
  · rcases exists_entry hp hat with he | ⟨above, name, t', es', he, -, hd, -⟩
    · rw [he, erase_nil]
      exact Or.inl hdir
    · right
      obtain ⟨rest, hrest⟩ := hin
      rw [← hrest, he, Node.shape?, List.append_assoc, List.singleton_append]
      show Option.map _ ((d.top.alter _ _ _).at? _) = none
      rw [Node.at?_alter_self hd]
      rfl
  · left
    rw [hs.shape?_eq]
    · exact hdir
    · rintro e ⟨-, hq⟩
      exact hin (hq ▸ List.prefix_refl _)
    · rintro q ⟨-, rfl⟩
      exact hin

/-- What erases nothing leaves a path where it leads. -/
theorem leads_of_steps {d d' : Disk} {p : Path} (hp : d.top.isPlain = true) (h : d.Leads p)
    (hs : Steps (fun e _ => e ≠ .erase) d d') : d'.Leads p :=
  hs.leads hp (fun _ _ _ he => absurd rfl he) h

theorem steps_makeDirs {d : Disk} {p : Path} (hp : d.top.isPlain = true) (hn : p.Named) :
    Steps (fun e _ => e ≠ .erase) d ((makeDirs p).on d).2 :=
  keeps_makeDirs hp hn (fun _ _ => by simp) d (.refl _)

theorem steps_copyItems {d : Disk} {source : Path} {o : Walk.Options} (hp : d.top.isPlain = true)
    (hn : target.Named) :
    Steps (fun e _ => e ≠ .erase) d ((Walk.fold o (copyItem target) 0 source).on d).2 :=
  Walk.keeps_fold (fun _ hs => hs.isPlain hp)
    (keeps_copyItem hp hn (by simp [MayMake]) (by simp) (by simp)) 0 source d (.refl _)

theorem steps_copyTree {d : Disk} {source : Path} (hp : d.top.isPlain = true)
    (hn : target.Named) :
    Steps (fun e _ => e ≠ .erase) d ((copyTree source target).on d).2 :=
  keeps_copyTree hp hn (by simp [MayMake]) (by simp) (by simp) d (.refl _)

theorem leads_copyTree_erase {d : Disk} {source : Path} {ts : String} (hp : d.top.isPlain = true)
    (h : d.Leads (Layout.snapshot root ts)) (ha : d.Admits (Layout.snapshot root ts))
    (hts : isName ts = true) :
    let d' := ((copyTree source (Layout.snapshot root ts)).on
      (d.erase (d.place (Layout.snapshot root ts)))).2
    d'.Leads root ∨ ¬ Grounded d' root := by
  have hl := Node.linkFree_of_isPlain hp
  have hat := Node.shape?_eq_dir.mp (h.dir hl)
  have hclear := clear_erase hp h hat
  have hs : Steps (fun _ _ => True) d (d.erase (d.place (Layout.snapshot root ts))) := by
    obtain ⟨t, es, hat⟩ := hat
    exact steps_erase hp hat trivial
  generalize d.erase (d.place (Layout.snapshot root ts)) = d₂ at hclear hs
  have hp₂ := hs.isPlain hp
  have hl₂ := Node.linkFree_of_isPlain hp₂
  have hn₂ : (Layout.snapshot root ts).Named := h.named hp
  have hbase : d₂.base (Layout.snapshot root ts) = d₂.base root :=
    base_join (Layout.isName_snapshot hts) (by simp)
  have hroot : ∀ {a : Disk}, a.Leads (Layout.snapshot root ts) → a.top.isPlain = true →
      a.Leads root := fun hlead hpa =>
    hlead.of_prefix (Node.linkFree_of_isPlain hpa)
      (by rw [Layout.trail_snapshot hts]; exact List.prefix_append _ _)
  by_cases hg : Grounded d₂ root
  · left
    obtain ⟨d₃, hrun, hlead⟩ := makeDirs_of_clear hp₂ (hs.admits_iff.mpr ha) hn₂
      (fun _ => Path.endsDotted_of_endsIdle (Path.endsIdle_join (by simp) (Layout.isName_snapshot hts)))
      (by rw [Grounded, hbase]; exact hg) (by rw [hs.trail_eq]; exact hclear)
    have hs₃ := steps_makeDirs hp₂ hn₂
    rw [hrun] at hs₃
    have hp₃ := hs₃.isPlain hp₂
    rw [copyTree, on_bind_ok hrun]
    exact leads_of_steps hp₃ (hroot hlead hp₃) (steps_copyItems hp₃ hn₂)
  · right
    have hstay : ((makeDirs (Layout.snapshot root ts)).on d₂).2 = d₂ :=
      makeDirs_of_not_grounded hl₂ (by rw [Grounded, hbase]; exact hg) d₂ rfl
    rcases hrun : (makeDirs (Layout.snapshot root ts)).on d₂ with ⟨r, d₃⟩
    rw [hrun] at hstay
    cases r with
    | error e =>
      rw [copyTree, on_bind_error hrun]
      exact hstay ▸ hg
    | ok u =>
      have hlead := leads_of_makeDirs hp₂ hn₂ (steps_join_ne_nil (Layout.isName_snapshot hts) (by simp)) hrun
      rw [show d₃ = d₂ from hstay] at hlead
      exact absurd (.of_leads hl₂ (hroot hlead hp₂)) hg

theorem leads_take {d : Disk} (hp : d.top.isPlain = true) (h : d.Leads root) :
    ((take root).on d).2.Leads root ∨ ¬ Grounded ((take root).on d).2 root := by
  have hts := Calendar.isName_timestamp d.clock
  unfold take
  rw [name, on_bind_ask, Layout.snapshots_div hts]
  generalize Calendar.timestamp d.clock = ts at hts
  have hs₁ : Steps (fun e _ => e ≠ .erase) d ((makeDirs (Layout.snapshots root)).on d).2 :=
    steps_makeDirs hp (named_div (h.named hp) (by decide))
  rcases hrun : (makeDirs (Layout.snapshots root)).on d with ⟨r, d₁⟩
  rw [hrun] at hs₁
  have hp₁ := hs₁.isPlain hp
  have hl₁ := Node.linkFree_of_isPlain hp₁
  have hlead₁ := leads_of_steps hp h hs₁
  have hn₁ : (Layout.snapshot root ts).Named :=
    (hlead₁.named hp₁).join (Layout.isName_snapshot hts)
  cases r with
  | error e =>
    rw [on_bind_error hrun]
    exact Or.inl hlead₁
  | ok u =>
    rw [on_bind_ok hrun, on_bind_ask]
    split
    · rw [on_bind_ask]
      split
      · next hthere =>
        cases hrm : d₁.removeTree (Layout.snapshot root ts) with
        | error e =>
          rw [on_bind_error (on_change_error hrm)]
          exact Or.inl hlead₁
        | ok d₂ =>
          obtain ⟨hdir, rfl⟩ := removeTree_ok hl₁ hrm
          obtain ⟨hlead, hadmits⟩ := leads_of_removeTree hl₁ hrm
          rw [on_bind_ok (on_change_ok hrm)]
          dsimp only
          rw [snd_on_bind_pure]
          exact leads_copyTree_erase hp₁ hlead hadmits hts
      · dsimp only
        rw [snd_on_bind_pure]
        exact Or.inl (leads_of_steps hp₁ hlead₁ (steps_copyTree hp₁ hn₁))
    · exact Or.inl hlead₁

/-! ## Pruning -/

theorem keeps_removeAll (hp : d₀.top.isPlain = true) {ps : List Path}
    (ha : ∀ p ∈ ps, allow .erase (d₀.place p)) : Keeps (Steps allow d₀) (removeAll ps) := by
  induction ps with
  | nil => exact Keeps.pure _
  | cons p ps ih =>
    obtain ⟨ha, has⟩ := List.forall_mem_cons.mp ha
    exact (keeps_removeTree hp ha).bind fun _ => (ih has).bind fun _ => Keeps.pure _

theorem mem_newestFirst {es : Entries} {s : Stamp × String} :
    s ∈ newestFirst es ↔ ∃ below, (s.2, Node.dir s.1 below) ∈ es := by
  rw [newestFirst, List.mem_mergeSort, List.mem_filterMap]
  constructor
  · rintro ⟨⟨name, n⟩, he, hs⟩
    cases n with
    | file => cases hs
    | link => cases hs
    | dir stamp below => cases hs; exact ⟨below, he⟩
  · rintro ⟨below, he⟩
    exact ⟨_, he, rfl⟩

/-- Pruning erases snapshots, and none that is among the newest. -/
theorem steps_prune {d : Disk} {keep : Nat} (hp : d.top.isPlain = true)
    (ha : ∀ t es, d.top.at? (d.place root ++ [Layout.snapshotsDirName]) = some (.dir t es) →
      ∀ s ∈ (newestFirst es).drop keep,
        allow .erase (d.place root ++ [Layout.snapshotsDirName, s.2])) :
    Steps allow d ((prune root keep).on d).2 := by
  have hl := Node.linkFree_of_isPlain hp
  unfold prune
  rw [on_bind_ask]
  split
  · cases hlist : d.list (Layout.snapshots root) with
    | error e =>
      rw [on_bind_error (on_fetch_error hlist)]
      exact .refl _
    | ok es =>
      rw [on_bind_ok (on_fetch_ok hlist)]
      obtain ⟨place, t, hfind⟩ := list_ok hlist
      obtain ⟨rfl, hat⟩ := find_ok hl hfind
      rw [Layout.snapshots, place_div (by decide)] at hat
      refine keeps_removeAll hp (fun p hmem => ?_) d (.refl _)
      obtain ⟨s, hs, rfl⟩ := List.mem_map.mp hmem
      obtain ⟨below, he⟩ := mem_newestFirst.mp (List.mem_of_mem_drop hs)
      have hname : isName s.2 = true := Walk.isName_of_list hp hlist _ he
      rw [Layout.snapshots_div hname, Layout.place_snapshot hname]
      exact ha t es hat s hs
  · exact .refl _

theorem keeps_prune {keep : Nat} (hp : d₀.top.isPlain = true)
    (ha : ∀ name, allow .erase (d₀.place root ++ [Layout.snapshotsDirName, name])) :
    Keeps (Steps allow d₀) (prune root keep) := by
  intro d hs
  refine hs.trans (steps_prune (hs.isPlain hp) fun _ _ _ s _ => ?_)
  rw [hs.place_eq]
  exact ha s.2

theorem newestFirst_sorted (es : Entries) :
    (newestFirst es).Pairwise fun a b : Stamp × String => b.1.le a.1 = true := by
  apply List.pairwise_mergeSort
  · exact fun _ _ _ h h' => Stamp.le_trans h' h
  · exact fun a b => Stamp.le_total b.1 a.1

theorem newestFirst_distinct {es : Entries} (hd : (es.map Prod.fst).Nodup) :
    (newestFirst es).Pairwise fun a b : Stamp × String => a.2 ≠ b.2 := by
  refine ((List.mergeSort_perm _ _).pairwise_iff fun h => h.symm).mpr
    (List.Pairwise.filterMap _ ?_ (List.pairwise_map.mp hd))
  rintro ⟨a, n⟩ ⟨a', n'⟩ hne b hb b' hb'
  cases n <;> cases n' <;> cases hb <;> cases hb'
  exact hne

/-- A directory that is newer than all others comes first, and only once. -/
theorem newestFirst_eq_cons {es below : Entries} {name : String} {t : Stamp}
    (hd : (es.map Prod.fst).Nodup) (hmem : (name, Node.dir t below) ∈ es)
    (hnew : ∀ other s es', (other, Node.dir s es') ∈ es → other ≠ name → t.le s = false) :
    ∃ rest, newestFirst es = (t, name) :: rest ∧ ∀ s ∈ rest, s.2 ≠ name := by
  have honly : ∀ s ∈ newestFirst es, s.2 = name → s = (t, name) := by
    rintro ⟨s, other⟩ hs hname
    obtain ⟨es', he⟩ := mem_newestFirst.mp hs
    have hlookup : es.lookup name = some (.dir s es') := hname ▸ Entries.lookup_of_mem hd he
    have hlookup' : es.lookup name = some (.dir t below) := Entries.lookup_of_mem hd hmem
    rw [hlookup', Option.some.injEq, Node.dir.injEq] at hlookup
    exact Prod.ext hlookup.1.symm hname
  have hsorted := newestFirst_sorted es
  have hdistinct := newestFirst_distinct hd
  have hin : (t, name) ∈ newestFirst es := mem_newestFirst.mpr ⟨below, hmem⟩
  obtain ⟨x, rest, hx⟩ := List.exists_cons_of_ne_nil (List.ne_nil_of_mem hin)
  rw [hx] at honly hsorted hdistinct hin
  have hfirst : x = (t, name) := by
    rcases List.mem_cons.mp hin with h | h
    · exact h.symm
    · have hle := List.rel_of_pairwise_cons hsorted h
      by_contra hne
      obtain ⟨es', he⟩ := mem_newestFirst.mp (hx ▸ List.mem_cons_self)
      rw [hnew x.2 x.1 es' he fun h => hne (honly x List.mem_cons_self h)] at hle
      cases hle
  refine ⟨rest, by rw [hx, hfirst], fun s hs he => ?_⟩
  rw [hfirst] at hdistinct
  exact List.rel_of_pairwise_cons hdistinct hs he.symm

end Snapshot

end Outfitter
