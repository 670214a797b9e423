import Outfitter.Proofs.Disk.Retain
import Outfitter.Proofs.Install.Account

/-! # Installing again

A bundle that is installed once more copies only what it copied before: what was kept is still
there, and what stood in the way of a copy still does. This needs no more than that files and
directories on the way to a destination outlast what happens in between.
-/

namespace Outfitter.Install

open Disk Action Files

variable {b : Bundle} {m : Manifest} {root : Path} {name dest : String} {d a t₁ t₂ a₁ a₂ x₁ x₂ : Disk}
  {names before after q : List String}

/-! ## What lasts -/

/-- Edits that leave files and directories where they are. -/
def Lasting (e : Edit) (_ : List String) : Prop := e ≠ .erase ∧ e ≠ .unlink

theorem outlasts_of_lasting (h : Steps Lasting a d) (q : List String) : Outlasts a d q :=
  h.outlasts (fun _ he => absurd rfl he.1) fun hu => hu.2 rfl

theorem steps_installAll (hp : a.top.isPlain = true) (hn : root.Named) (hclean : ∀ name ∈ names, isClean name = true)
    (r : Report) : Steps Lasting a ((names.foldlM (installOne b m root) r).on a).2 := by
  have hone : ∀ r, ∀ name ∈ names, Keeps (Steps Lasting a) (installOne b m root r name) := by
    intro r name hname
    refine keeps_installOne fun x hx _ => hx.trans ?_
    refine (steps_copyOne b name (hx.isPlain hp) hn (isName_destination (hclean name hname))).mono ?_
    rintro e p ((rfl | rfl) | ⟨rfl | rfl, -⟩) <;> exact ⟨by simp, by simp⟩
  exact Keeps.foldlM hone r a (.refl a)

theorem turn_append (b : Bundle) (m : Manifest) (root : Path) (d : Disk) (before after : List String) :
    ∃ r, turn b m root d (before ++ after) =
      ((after.foldlM (installOne b m root) r).on (turn b m root d before)).2 := by
  obtain ⟨r, x, hrun⟩ := installAll_ok b m root before ⟨[], [], []⟩ d
  refine ⟨r, ?_⟩
  rw [turn, turn, List.foldlM_append, on_bind_ok hrun, hrun]

theorem steps_turn (hp : d.top.isPlain = true) (hn : root.Named)
    (hclean : ∀ name ∈ before ++ after, isClean name = true) :
    Steps Lasting (turn b m root d before) (turn b m root d (before ++ after)) := by
  have hbefore : Steps Lasting d (turn b m root d before) :=
    steps_installAll hp hn (fun name hname => hclean name (List.mem_append_left _ hname)) _
  obtain ⟨r, hr⟩ := turn_append b m root d before after
  rw [hr]
  exact steps_installAll (hbefore.isPlain hp) hn (fun name hname => hclean name (List.mem_append_right _ hname)) r

/-! ## One file -/

/-- A file whose way is open is copied, if the bundle gives it. -/
theorem copyOne_of_open {bytes : ByteArray} (hp : a.top.isPlain = true) (hn : root.Named)
    (hd : ∀ s ∈ splitSlash dest, isName s = true) (hread : ((b.read name).on a).1 = .ok bytes)
    (ho : Open a (root / dest)) : ((copyOne b name dest (root / dest)).on a).1 = .ok () := by
  have hread' : (b.read name).on a = (.ok bytes, a) := Prod.ext hread (Bundle.keeps_read (P := (· = a)) name a rfl)
  have hi : (root / dest).endsIdle = false := Path.endsIdle_join (Path.splitSlash_ne_nil dest) hd
  obtain ⟨a', hreplace⟩ : ∃ a', (replace (root / dest) bytes).on a = (.ok (), a') :=
    replace_of_open hp (named_div hn hd) (steps_div root hd) hi ho
  have hfind := find_of_replace hp (named_div hn hd) (steps_div root hd) hreplace
  unfold copyOne
  rw [on_bind_ok hread', on_bind_ok hreplace]
  split
  · rw [makeExecutable, on_change_ok (by rw [changeMode, hfind])]
  · rfl

/-- What outlasts on the way to a file that is copied was no obstacle. -/
theorem open_of_outlasts (hp : x₁.top.isPlain = true) (hd : ∀ s ∈ splitSlash dest, isName s = true)
    (hroot : x₁.Leads root) (hcwd : x₂.cwd = x₁.cwd)
    (hout : ∀ zs, zs <+: splitSlash dest → zs ≠ [] → Outlasts x₁ x₂ (x₁.place root ++ zs))
    (ho : Open x₂ (root / dest)) : Open x₁ (root / dest) := by
  have hl := Node.linkFree_of_isPlain hp
  have hne : splitSlash dest ≠ [] := Path.splitSlash_ne_nil dest
  have htrail : x₁.trail (root / dest) = x₁.trail root ++ splitSlash dest := trail_div hd
  have hplace : x₁.place (root / dest) = x₁.place root ++ splitSlash dest := place_div hd
  have hclear := ho.clear
  have hfree := ho.free
  have hapart := ho.apart
  rw [Clear, trail_of_cwd hcwd] at hclear
  rw [place_of_cwd hcwd, hplace] at hfree
  rw [OnWay, trail_of_cwd hcwd, place_of_cwd hcwd] at hapart
  refine ⟨?_, (grounded_div hd).mpr (.of_leads hl hroot), fun ys hys => ?_, fun hdir => ?_, hapart⟩
  · rw [Admits, ← trail_of_cwd hcwd]
    exact ho.admits
  · have hys' := hys
    rw [htrail, List.dropLast_append_of_ne_nil hne] at hys
    rcases List.prefix_or_prefix_of_prefix hys (List.prefix_append (x₁.trail root) _) with hroot' | ⟨zs, rfl⟩
    · exact Or.inl (((leads_iff hl).mp hroot).2 ys hroot')
    · have hzs : zs <+: splitSlash dest :=
        ((List.prefix_append_right_inj _).mp hys).trans (List.dropLast_prefix _)
      have hat : (climb [] (x₁.trail root ++ zs)).reverse = x₁.place root ++ zs :=
        climb_below fun s hs => hd s (hzs.subset hs)
      have hway := hclear _ hys'
      rw [hat] at hway ⊢
      by_cases hnil : zs = []
      · rw [hnil, List.append_nil]
        exact Or.inl (hroot.dir hl)
      · refine (Node.shape?_of_not_file hp fun c m t hfile => ?_).symm
        obtain ⟨c', m', t', hfile'⟩ := (hout zs hzs hnil).file ⟨c, m, t, hfile⟩
        rw [Node.shape?_eq_file.mpr hfile'] at hway
        rcases hway with h | h <;> cases h
  · exact hfree ((hout _ (List.prefix_refl _) hne).dir (hplace ▸ hdir))

theorem open_of_copyOne (hp : a.top.isPlain = true) (hn : root.Named) (hd : ∀ s ∈ splitSlash dest, isName s = true)
    (h : ((copyOne b name dest (root / dest)).on a).1 = .ok ()) :
    Open a (root / dest) ∧ ∃ bytes, ((b.read name).on a).1 = .ok bytes := by
  obtain ⟨bytes, x, hread, hput⟩ := of_on_bind_ok (Prod.ext h rfl : (copyOne b name dest (root / dest)).on a = (.ok (), _))
  obtain rfl : x = a := by
    have hstay : ((b.read name).on a).2 = a := Bundle.keeps_read (P := (· = a)) name a rfl
    rwa [hread] at hstay
  obtain ⟨u, y, hreplace, -⟩ := of_on_bind_ok hput
  exact ⟨(replace_ok hp (named_div hn hd) (steps_div root hd) hreplace).1, bytes, by rw [hread]⟩

/-- What is kept stays kept when more is taken. -/
theorem keeps_mono {taken taken' : Bool} (ht : taken = true → taken' = true) (h : keeps m name dest taken = true) :
    keeps m name dest taken' = true := by
  unfold keeps at h ⊢
  split at h
  · rfl
  · cases h
  · exact ht h
  · rw [Bool.and_eq_true] at h ⊢
    exact ⟨ht h.1, h.2⟩

/-- A name whose file is not kept. -/
def Wants (m : Manifest) (root : Path) (name : String) (a : Disk) : Prop :=
  keeps m name (Inventory.destination name) (a.isThere (root / Inventory.destination name)) = false

theorem of_verdict_copied (h : .copied = verdict b m root name a) :
    Wants m root name a ∧
      ((copyOne b name (Inventory.destination name) (root / Inventory.destination name)).on a).1 = .ok () := by
  unfold verdict at h
  dsimp only at h
  split at h
  · cases h
  · next hkeep =>
    split at h
    · next hcopy => exact ⟨Bool.eq_false_iff.mpr hkeep, hcopy⟩
    · cases h

/-- A file of the user that is there is kept. -/
theorem not_wants_of_file (hp : a.top.isPlain = true) (hroot : a.Leads root) (hclean : isClean name = true)
    (ha : a.Admits (root / Inventory.destination name)) (ho : Inventory.isUserOwned (Inventory.destination name) = true)
    (hat : ∃ c m t, a.top.at? (spot a root (Inventory.destination name)) = some (.file c m t)) :
    ¬ Wants .curated root name a := by
  obtain ⟨c, m, t, hat⟩ := hat
  have hfind := find_ok_iff.mpr (locate_join (Node.linkFree_of_isPlain hp) hroot (isName_destination hclean)
    (Path.splitSlash_ne_nil _) ha hat)
  have hthere : a.isThere (root / Inventory.destination name) = true := by
    rw [isThere, show a.find (root / Inventory.destination name) = _ from hfind]
    rfl
  rw [Wants, hthere, keeps_curated ho]
  simp

/-- What is copied once more would have been copied the first time, if nothing went away. -/
theorem verdict_of_outlasts (hp₁ : x₁.top.isPlain = true) (hp₂ : x₂.top.isPlain = true) (hroot₁ : x₁.Leads root)
    (hroot₂ : x₂.Leads root) (hcwd : x₂.cwd = x₁.cwd) (hclean : isClean name = true)
    (hout : ∀ zs, zs <+: splitSlash (Inventory.destination name) → zs ≠ [] → Outlasts x₁ x₂ (x₁.place root ++ zs))
    (hread : Wants m root name x₁ → Wants m root name x₂ → ((b.read name).on x₁).1 = ((b.read name).on x₂).1)
    (h : .copied = verdict b m root name x₂) : verdict b m root name x₁ = .copied := by
  have hn := hroot₁.named hp₁
  have hd := isName_destination hclean
  have hne := Path.splitSlash_ne_nil (Inventory.destination name)
  obtain ⟨hwants, hcopy⟩ := of_verdict_copied h
  obtain ⟨hopen, bytes, hbytes⟩ := open_of_copyOne hp₂ hn hd hcopy
  have hwants₁ : Wants m root name x₁ := by
    refine Bool.eq_false_iff.mpr fun hkept => Bool.eq_false_iff.mp hwants (keeps_mono ?_ hkept)
    exact (hout _ (List.prefix_refl _) hne).isThere (Node.linkFree_of_isPlain hp₁) (Node.linkFree_of_isPlain hp₂) hcwd
      hroot₂ hd hne
  have hcopy₁ := copyOne_of_open hp₁ hn hd ((hread hwants₁ hwants).trans hbytes)
    (open_of_outlasts hp₁ hd hroot₁ hcwd hout hopen)
  rw [verdict, if_neg (Bool.eq_false_iff.mp hwants₁), hcopy₁]

/-! ## The whole bundle -/

/-- An installation of `names` reads the file `name` of its bundle on the disk `x`. -/
def Reads (b : Bundle) (m : Manifest) (root : Path) (d : Disk) (names : List String) (name : String) (x : Disk) : Prop :=
  Wants m root name x ∧ ∃ before after, names = before ++ name :: after ∧ x = turn b m root d before

theorem steps_to_turn (hp : d.top.isPlain = true) (hn : root.Named)
    (hclean : ∀ name ∈ before ++ after, isClean name = true) : Steps Lasting d (turn b m root d before) :=
  steps_installAll hp hn (fun name hmem => hclean name (List.mem_append_left _ hmem)) _

theorem leads_of_lasting (hp : d.top.isPlain = true) (h : d.Leads root) (hs : Steps Lasting d a) : a.Leads root :=
  hs.leads hp (fun _ _ _ he => absurd rfl he.1) h

theorem map_of_log {log before after : List (String × Verdict)} {v : Verdict} (h : log = before ++ (name, v) :: after) :
    log.map Prod.fst = before.map Prod.fst ++ name :: after.map Prod.fst := by
  rw [h, List.map_append, List.map_cons]

/-- A name that is copied again was copied before. -/
theorem copied_before {log₁ log₂ before after : List (String × Verdict)} (h₁ : Accounts b m root t₁ log₁ a₁)
    (h₂ : Accounts b m root t₂ log₂ a₂) (hlog : log₂ = before ++ (name, .copied) :: after)
    (hname : name ∈ log₁.map Prod.fst) (hp₁ : t₁.top.isPlain = true) (hp₂ : t₂.top.isPlain = true)
    (hroot₁ : t₁.Leads root) (hroot₂ : t₂.Leads root) (hcwd : t₂.cwd = t₁.cwd)
    (hclean₁ : ∀ name ∈ log₁.map Prod.fst, isClean name = true)
    (hclean₂ : ∀ name ∈ log₂.map Prod.fst, isClean name = true)
    (hout : ∀ zs, zs <+: splitSlash (Inventory.destination name) → zs ≠ [] → Outlasts a₁ t₂ (t₁.place root ++ zs))
    (hread : ∀ x₁ x₂, Reads b m root t₁ (log₁.map Prod.fst) name x₁ → Reads b m root t₂ (log₂.map Prod.fst) name x₂ →
      ((b.read name).on x₁).1 = ((b.read name).on x₂).1) :
    (name, .copied) ∈ log₁ := by
  obtain ⟨⟨name, v⟩, hmem, rfl⟩ := List.mem_map.mp hname
  obtain ⟨before₁, after₁, hlog₁⟩ := List.append_of_mem hmem
  have hn := hroot₁.named hp₁
  have hv₁ := h₁.verdicts before₁ name v after₁ hlog₁
  have hv₂ := h₂.verdicts before name .copied after hlog
  have hmap₁ := map_of_log hlog₁
  have hmap₂ := map_of_log hlog
  -- the disks on which the name had its turn
  have hs₁ := steps_to_turn (b := b) (m := m) hp₁ hn (hmap₁ ▸ hclean₁)
  have hs := steps_turn (b := b) (m := m) hp₁ hn (hmap₁ ▸ hclean₁)
  have hs₂ := steps_to_turn (b := b) (m := m) hp₂ hn (hmap₂ ▸ hclean₂)
  rw [← hmap₁, h₁.turn_eq] at hs
  have hcopied : verdict b m root name (turn b m root t₁ (before₁.map Prod.fst)) = .copied := by
    refine verdict_of_outlasts (hs₁.isPlain hp₁) (hs₂.isPlain hp₂) (leads_of_lasting hp₁ hroot₁ hs₁)
      (leads_of_lasting hp₂ hroot₂ hs₂) (hs₂.cwd_eq.trans (hcwd.trans hs₁.cwd_eq.symm)) (hclean₁ name hname)
      (fun zs hzs hnil => ?_)
      (fun hw₁ hw₂ => hread _ _ ⟨hw₁, _, _, hmap₁, rfl⟩ ⟨hw₂, _, _, hmap₂, rfl⟩) hv₂
    rw [hs₁.place_eq]
    exact ((outlasts_of_lasting hs _).trans (hout zs hzs hnil)).trans (outlasts_of_lasting hs₂ _)
  rw [← hcopied, ← hv₁]
  exact hmem

end Outfitter.Install
