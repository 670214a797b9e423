import Outfitter.Proofs.Install
import Outfitter.Proofs.Replace

/-! # Every file is accounted for

Each name of a bundle gets one verdict in its turn, and the report is made of the verdicts in their
order. Names may repeat, and so may destinations: a file holds what was copied there last. All other
files stay as they are, and directories are made only on the way to a destination.
-/

namespace Outfitter.Install

open Disk Action Files

variable {b : Bundle} {m : Manifest} {root : Path} {bundled dest name : String} {d a a' : Disk}
  {r r' : Report} {q : List String}

/-! ## One file -/

/-- The mode of a file that was copied. -/
def modeOf (dest : String) : Nat := if Inventory.isShellScript dest then 0o755 else 0o644

theorem steps_copyOne (b : Bundle) (bundled : String) (hp : a.top.isPlain = true) (hn : root.Named)
    (hd : ∀ s ∈ splitSlash dest, isName s = true) :
    Steps (fun e p => (e = .make ∨ e = .touch) ∨ (e = .create ∨ e = .rewrite) ∧ p = spot a root dest) a
      ((copyOne b bundled dest (root / dest)).on a).2 :=
  keeps_copyOne hp hn hd (fun _ _ => Or.inl (Or.inl rfl)) (Or.inl (Or.inr rfl))
    (Or.inr ⟨Or.inl rfl, rfl⟩) (fun _ => Or.inr ⟨Or.inr rfl, rfl⟩) a (.refl _)

theorem copyOne_elsewhere (b : Bundle) (bundled : String) (hp : a.top.isPlain = true) (hn : root.Named)
    (hd : ∀ s ∈ splitSlash dest, isName s = true) (hq : q ≠ spot a root dest) (c : ByteArray) (mode : Nat)
    (t : Stamp) :
    ((copyOne b bundled dest (root / dest)).on a).2.top.at? q = some (.file c mode t) ↔
      a.top.at? q = some (.file c mode t) := by
  refine (steps_copyOne b bundled hp hn hd).file_iff (fun e he => ?_) ?_
  · exact he.resolve_right fun h => hq h.2
  · rintro p ((he | he) | ⟨he | he, -⟩) <;> cases he

/-- A file that was copied has the bytes that the bundle gave. -/
theorem copyOne_ok (hp : a.top.isPlain = true) (hn : root.Named)
    (hd : ∀ s ∈ splitSlash dest, isName s = true)
    (h : (copyOne b bundled dest (root / dest)).on a = (.ok (), a')) :
    ∃ bytes, (b.read bundled).on a = (.ok bytes, a) ∧ a.Admits (root / dest) ∧
      a'.top.at? (spot a root dest) = some (.file bytes (modeOf dest) a.now) := by
  have hne := steps_div root hd
  have hplace : a.place (root / dest) = spot a root dest := place_div hd
  obtain ⟨bytes, a₁, hread, hput⟩ := of_on_bind_ok h
  obtain rfl : a₁ = a := by
    have hstay : ((b.read bundled).on a).2 = a := Bundle.keeps_read (P := (· = a)) bundled a rfl
    rwa [hread] at hstay
  obtain ⟨u, a₂, hreplace, hend⟩ := of_on_bind_ok hput
  obtain ⟨ho, -, hat, -⟩ := replace_ok hp (named_div hn hd) hne hreplace
  refine ⟨bytes, hread, ho.admits, ?_⟩
  rw [hplace] at hat
  rw [modeOf]
  split at hend
  · next hscript =>
    have hfind := find_of_replace hp (named_div hn hd) hne hreplace
    have hmode := of_on_change_ok hend
    rw [changeMode, hfind, hplace] at hmode
    rw [if_pos hscript, ← Except.ok.inj hmode, at?_update hat (by simp [spot, Path.splitSlash_ne_nil])]
    rfl
  · next hscript =>
    rw [if_neg hscript, ← (Prod.mk.inj hend).2]
    exact hat

/-- A file that could not be copied left no trace but directories. -/
theorem copyOne_error {e : Error} (hp : a.top.isPlain = true) (hn : root.Named)
    (hd : ∀ s ∈ splitSlash dest, isName s = true)
    (h : (copyOne b bundled dest (root / dest)).on a = (.error e, a')) {c : ByteArray} {mode : Nat} {t : Stamp} :
    a'.top.at? q = some (.file c mode t) ↔ a.top.at? q = some (.file c mode t) := by
  have hne := steps_div root hd
  have hstay : ((b.read bundled).on a).2 = a := Bundle.keeps_read (P := (· = a)) bundled a rfl
  rcases of_on_bind_error h with hread | ⟨bytes, a₁, hread, hput⟩
  · rw [hread] at hstay
    rw [show a' = a from hstay]
  · rw [hread] at hstay
    obtain rfl : a₁ = a := hstay
    rcases of_on_bind_error hput with hreplace | ⟨u, a₂, hreplace, hend⟩
    · rw [← Node.shape?_eq_file, ← Node.shape?_eq_file]
      rcases shape?_replace (q := q) hp (named_div hn hd) hne hreplace fun _ => rfl with hs | ⟨-, hnone, hdir⟩
      · rw [hs]
      · simp [hnone, hdir]
    · -- the mode of a file that was just put can be changed
      have hfind := find_of_replace hp (named_div hn hd) hne hreplace
      split at hend
      · rw [makeExecutable, on_change_ok (by rw [changeMode, hfind])] at hend
        cases hend
      · cases hend

/-! ## Verdicts -/

/-- What became of a name. -/
inductive Verdict where
  | copied
  | kept
  | failed (e : Error)
  deriving DecidableEq

/-- The verdict on a name that meets a disk. -/
def verdict (b : Bundle) (m : Manifest) (root : Path) (name : String) (a : Disk) : Verdict :=
  let dest := Inventory.destination name
  if keeps m name dest (a.isThere (root / dest)) then .kept
  else
    match ((copyOne b name dest (root / dest)).on a).1 with
    | .ok () => .copied
    | .error e => .failed e

/-- The report of some verdicts. -/
def reported (log : List (String × Verdict)) : Report where
  copied := (log.filter (·.2 = .copied)).map fun l => Inventory.destination l.1
  kept := (log.filter (·.2 = .kept)).map fun l => Inventory.destination l.1
  failed := log.filterMap fun l =>
    match l.2 with
    | .failed e => some (Inventory.destination l.1, e)
    | _ => none

variable {log : List (String × Verdict)}

theorem reported_copied (log : List (String × Verdict)) (name : String) :
    reported (log ++ [(name, .copied)]) =
      { reported log with copied := (reported log).copied ++ [Inventory.destination name] } := by
  simp [reported]

theorem reported_kept (log : List (String × Verdict)) (name : String) :
    reported (log ++ [(name, .kept)]) =
      { reported log with kept := (reported log).kept ++ [Inventory.destination name] } := by
  simp [reported]

theorem reported_failed (log : List (String × Verdict)) (name : String) (e : Error) :
    reported (log ++ [(name, .failed e)]) =
      { reported log with failed := (reported log).failed ++ [(Inventory.destination name, e)] } := by
  simp [reported]

theorem mem_copied : dest ∈ (reported log).copied ↔ ∃ l ∈ log, l.2 = .copied ∧ Inventory.destination l.1 = dest := by
  simp [reported, and_assoc]

theorem mem_uncopied :
    dest ∈ (reported log).kept ∨ dest ∈ (reported log).failed.map Prod.fst ↔
      ∃ l ∈ log, l.2 ≠ .copied ∧ Inventory.destination l.1 = dest := by
  simp only [reported, List.mem_map, List.mem_filter, List.mem_filterMap]
  constructor
  · rintro (⟨⟨name, v⟩, ⟨hl, hv⟩, rfl⟩ | ⟨_, ⟨⟨name, v⟩, hl, hv⟩, rfl⟩)
    · obtain rfl : v = .kept := of_decide_eq_true hv
      exact ⟨_, hl, by simp, rfl⟩
    · cases v with
      | copied => cases hv
      | kept => cases hv
      | failed e =>
        cases hv
        exact ⟨_, hl, by simp, rfl⟩
  · rintro ⟨⟨name, v⟩, hl, hv, rfl⟩
    cases v with
    | copied => exact absurd rfl hv
    | kept => exact Or.inl ⟨_, ⟨hl, by simp⟩, rfl⟩
    | failed e => exact Or.inr ⟨_, ⟨_, hl, rfl⟩, rfl⟩

/-! ## Directories -/

/-- A place that the way to a destination passes. -/
def Above (d : Disk) (root : Path) (dest : String) (q : List String) : Prop :=
  ∃ names, names <+: d.trail root ++ (splitSlash dest).dropLast ∧ (climb [] names).reverse = q

theorem dir_of_copyOne (b : Bundle) (bundled : String) (hp : a.top.isPlain = true) (hn : root.Named)
    (hd : ∀ s ∈ splitSlash dest, isName s = true)
    (h : ((copyOne b bundled dest (root / dest)).on a).2.top.shape? q = some .dir) :
    a.top.shape? q = some .dir ∨ Above a root dest q := by
  let allow : Edit → List String → Prop := fun e p =>
    (e = .make ∧ Above a root dest p ∨ e = .touch) ∨ e = .create ∨ e = .rewrite
  have hsteps : Steps allow a ((copyOne b bundled dest (root / dest)).on a).2 :=
    keeps_copyOne_below hp hn hd (fun names hnames => Or.inl (Or.inl ⟨rfl, names, hnames, rfl⟩)) (Or.inl (Or.inr rfl))
      (Or.inr (Or.inl rfl)) (fun _ => Or.inr (Or.inr rfl)) a (.refl _)
  refine hsteps.keeps (P := fun x => x.top.shape? q = some .dir → a.top.shape? q = some .dir ∨ Above a root dest q)
    ?_ Or.inl h
  intro x y hstep hx hy
  obtain ⟨e, p, -, hallow, hf, hsh, -⟩ := hstep.effect
  by_cases hqp : q = p
  · subst hqp
    obtain ⟨t, es, hat⟩ := Node.shape?_eq_dir.mp hy
    rcases hallow with (⟨rfl, habove⟩ | rfl) | rfl | rfl
    · exact Or.inr habove
    · obtain ⟨t, t', es, hold, -⟩ := hf
      exact hx (Node.shape?_eq_dir.mpr ⟨t, es, hold⟩)
    · obtain ⟨-, c, mode, t, hnew⟩ := hf
      rw [hat] at hnew
      cases hnew
    · obtain ⟨-, c, mode, t, hnew⟩ := hf
      rw [hat] at hnew
      cases hnew
  · refine hx ((hsh q hqp ?_).symm.trans hy)
    rintro rfl
    rcases hallow with (⟨he, -⟩ | he) | he | he <;> cases he

/-! ## Accounts -/

/-- The disk when the turn comes to the next name. -/
def turn (b : Bundle) (m : Manifest) (root : Path) (d : Disk) (names : List String) : Disk :=
  ((names.foldlM (installOne b m root) ⟨[], [], []⟩).on d).2

/-- A log of verdicts accounts for what an installation reported and left. -/
structure Accounts (b : Bundle) (m : Manifest) (root : Path) (d : Disk) (log : List (String × Verdict)) (a : Disk) :
    Prop where
  run : ((log.map Prod.fst).foldlM (installOne b m root) ⟨[], [], []⟩).on d = (.ok (reported log), a)
  steps : Steps (fun e _ => e ≠ .erase) d a
  verdicts : ∀ before name v after, log = before ++ (name, v) :: after →
    v = verdict b m root name (turn b m root d (before.map Prod.fst))
  copied : ∀ dest ∈ (reported log).copied, ∃ before name after bytes t, log = before ++ (name, .copied) :: after ∧
    dest = Inventory.destination name ∧ (∀ l ∈ after, l.2 = .copied → Inventory.destination l.1 ≠ dest) ∧
    ((b.read name).on (turn b m root d (before.map Prod.fst))).1 = .ok bytes ∧
    a.top.at? (spot d root dest) = some (.file bytes (modeOf dest) t)
  others : ∀ q, (∀ dest ∈ (reported log).copied, q ≠ spot d root dest) → ∀ c mode t,
    a.top.at? q = some (.file c mode t) ↔ d.top.at? q = some (.file c mode t)
  dirs : ∀ q, a.top.shape? q = some .dir → d.top.shape? q = some .dir ∨
    ∃ l ∈ log, l.2 ≠ .kept ∧ Above d root (Inventory.destination l.1) q

namespace Accounts

theorem start (b : Bundle) (m : Manifest) (root : Path) (d : Disk) : Accounts b m root d [] d where
  run := rfl
  steps := .refl d
  verdicts := by simp
  copied := by simp [reported]
  others := fun _ _ _ _ _ => Iff.rfl
  dirs := fun _ => Or.inl

theorem run_concat {v : Verdict} (h : Accounts b m root d log a)
    (hone : (installOne b m root (reported log) name).on a = (.ok (reported (log ++ [(name, v)])), a')) :
    (((log ++ [(name, v)]).map Prod.fst).foldlM (installOne b m root) ⟨[], [], []⟩).on d =
      (.ok (reported (log ++ [(name, v)])), a') := by
  rw [List.map_append, List.foldlM_append, on_bind_ok h.run, List.map_singleton, List.foldlM_cons, on_bind_ok hone]
  rfl

theorem turn_eq (h : Accounts b m root d log a) : turn b m root d (log.map Prod.fst) = a := by rw [turn, h.run]

theorem verdicts_concat (h : Accounts b m root d log a) {bundled : String} {v : Verdict}
    {before after : List (String × Verdict)}
    (hlog : log ++ [(name, verdict b m root name a)] = before ++ (bundled, v) :: after) :
    v = verdict b m root bundled (turn b m root d (before.map Prod.fst)) := by
  rcases List.eq_nil_or_concat after with rfl | ⟨after, last, rfl⟩
  · obtain ⟨rfl, hlast⟩ := List.append_inj' hlog rfl
    cases hlast
    rw [h.turn_eq]
  · rw [List.concat_eq_append, ← List.cons_append, ← List.append_assoc] at hlog
    exact h.verdicts before bundled v after (List.append_inj' hlog rfl).1

/-- A destination that was copied to before, and not again. -/
theorem copied_concat {v : Verdict} (h : Accounts b m root d log a) (hdest : dest ∈ (reported log).copied)
    (hnew : v = .copied → Inventory.destination name ≠ dest)
    (hfiles : ∀ c mode t, a.top.at? (spot d root dest) = some (.file c mode t) →
      a'.top.at? (spot d root dest) = some (.file c mode t)) :
    ∃ before bundled after bytes t, log ++ [(name, v)] = before ++ (bundled, .copied) :: after ∧
      dest = Inventory.destination bundled ∧ (∀ l ∈ after, l.2 = .copied → Inventory.destination l.1 ≠ dest) ∧
      ((b.read bundled).on (turn b m root d (before.map Prod.fst))).1 = .ok bytes ∧
      a'.top.at? (spot d root dest) = some (.file bytes (modeOf dest) t) := by
  obtain ⟨before, bundled, after, bytes, t, hlog, hd, hafter, hread, hat⟩ := h.copied dest hdest
  refine ⟨before, bundled, after ++ [(name, v)], bytes, t, ?_, hd, ?_, hread, hfiles _ _ _ hat⟩
  · rw [hlog, List.append_assoc, List.cons_append]
  · intro l hl hcopied
    rcases List.mem_append.mp hl with hold | hl
    · exact hafter l hold hcopied
    · obtain rfl := List.mem_singleton.mp hl
      exact hnew hcopied

theorem dirs_concat {v : Verdict} (h : Accounts b m root d log a)
    (hdirs : ∀ q, a'.top.shape? q = some .dir →
      a.top.shape? q = some .dir ∨ v ≠ .kept ∧ Above a root (Inventory.destination name) q) :
    ∀ q, a'.top.shape? q = some .dir → d.top.shape? q = some .dir ∨
      ∃ l ∈ log ++ [(name, v)], l.2 ≠ .kept ∧ Above d root (Inventory.destination l.1) q := by
  intro q hq
  rcases hdirs q hq with hold | ⟨hv, names, hnames, hplace⟩
  · rcases h.dirs q hold with hd | ⟨l, hl, hkept, habove⟩
    · exact Or.inl hd
    · exact Or.inr ⟨l, List.mem_append_left _ hl, hkept, habove⟩
  · rw [h.steps.trail_eq] at hnames
    exact Or.inr ⟨(name, v), by simp, hv, names, hnames, hplace⟩

/-- A name that is kept, or fails. -/
theorem pass {v : Verdict} (h : Accounts b m root d log a) (hv : v ≠ .copied) (hverdict : verdict b m root name a = v)
    (hone : (installOne b m root (reported log) name).on a = (.ok (reported (log ++ [(name, v)])), a'))
    (hsteps : Steps (fun e _ => e ≠ .erase) a a')
    (hfiles : ∀ q c mode t, a'.top.at? q = some (.file c mode t) ↔ a.top.at? q = some (.file c mode t))
    (hdirs : ∀ q, a'.top.shape? q = some .dir →
      a.top.shape? q = some .dir ∨ v ≠ .kept ∧ Above a root (Inventory.destination name) q) :
    Accounts b m root d (log ++ [(name, v)]) a' := by
  have hcopied : (reported (log ++ [(name, v)])).copied = (reported log).copied := by simp [reported, hv]
  refine ⟨h.run_concat hone, h.steps.trans hsteps, fun before bundled v' after hlog => ?_, fun dest hdest => ?_,
    fun q hq c mode t => ?_, h.dirs_concat hdirs⟩
  · rw [← hverdict] at hlog
    exact h.verdicts_concat hlog
  · exact h.copied_concat (hcopied ▸ hdest) (fun he => absurd he hv) fun c mode t => (hfiles _ c mode t).mpr
  · rw [hfiles, h.others q (hcopied ▸ hq)]

theorem steps_of_copyOne (hp : a.top.isPlain = true) (hn : root.Named)
    (hd : ∀ s ∈ splitSlash dest, isName s = true) {result : Except Error Unit}
    (hcopy : (copyOne b bundled dest (root / dest)).on a = (result, a')) : Steps (fun e _ => e ≠ .erase) a a' := by
  have h := steps_copyOne b bundled hp hn hd
  rw [hcopy] at h
  refine h.mono ?_
  rintro e p ((rfl | rfl) | ⟨rfl | rfl, -⟩) <;> simp

/-- A name that is copied. -/
theorem copy (h : Accounts b m root d log a) (hp : d.top.isPlain = true) (hn : root.Named)
    (hclean : isClean name = true)
    (hcopy : (copyOne b name (Inventory.destination name) (root / Inventory.destination name)).on a = (.ok (), a'))
    (hverdict : verdict b m root name a = .copied)
    (hone : (installOne b m root (reported log) name).on a = (.ok (reported (log ++ [(name, .copied)])), a')) :
    Accounts b m root d (log ++ [(name, .copied)]) a' := by
  have hpa := h.steps.isPlain hp
  have hd := isName_destination hclean
  have hspot : ∀ dest, spot a root dest = spot d root dest := fun dest => by rw [spot, spot, h.steps.place_eq]
  obtain ⟨bytes, hread, -, hat⟩ := copyOne_ok hpa hn hd hcopy
  have helse : ∀ q, q ≠ spot d root (Inventory.destination name) → ∀ c mode t,
      a'.top.at? q = some (.file c mode t) ↔ a.top.at? q = some (.file c mode t) := by
    intro q hq c mode t
    have h := copyOne_elsewhere b name hpa hn hd (hspot _ ▸ hq) c mode t
    rwa [hcopy] at h
  have hdirs : ∀ q, a'.top.shape? q = some .dir →
      a.top.shape? q = some .dir ∨ Verdict.copied ≠ .kept ∧ Above a root (Inventory.destination name) q := by
    intro q hq
    rw [show a' = ((copyOne b name _ _).on a).2 from (congrArg Prod.snd hcopy).symm] at hq
    exact (dir_of_copyOne b name hpa hn hd hq).imp_right fun habove => ⟨by simp, habove⟩
  refine ⟨h.run_concat hone, h.steps.trans (steps_of_copyOne hpa hn hd hcopy), fun before bundled v after hlog => ?_,
    fun dest hdest => ?_, fun q hq c mode t => ?_, h.dirs_concat hdirs⟩
  · rw [← hverdict] at hlog
    exact h.verdicts_concat hlog
  · by_cases hsame : dest = Inventory.destination name
    · subst hsame
      refine ⟨log, name, [], bytes, a.now, rfl, rfl, by simp, ?_, hspot _ ▸ hat⟩
      rw [h.turn_eq, hread]
    · rw [reported_copied] at hdest
      have hold : dest ∈ (reported log).copied := by simpa [hsame] using hdest
      exact h.copied_concat hold (fun _ => Ne.symm hsame) fun c mode t =>
        (helse _ (fun he => hsame (spot_inj he)) c mode t).mpr
  · rw [reported_copied] at hq
    rw [helse q (hq _ (by simp)), h.others q fun dest hdest => hq dest (by simp [hdest])]

/-- What a log accounts for, it accounts for after one more name. -/
theorem step (h : Accounts b m root d log a) (hp : d.top.isPlain = true) (hn : root.Named)
    (hclean : isClean name = true) : ∃ v a', Accounts b m root d (log ++ [(name, v)]) a' := by
  have hpa := h.steps.isPlain hp
  have hd := isName_destination hclean
  rcases installOne_cases b m root (reported log) name a with
    ⟨hkeep, hone⟩ | ⟨hkeep, ⟨a', hcopy, hone⟩ | ⟨e, a', hcopy, hone⟩⟩
  · rw [← reported_kept] at hone
    exact ⟨.kept, a, h.pass (by simp) (by simp [verdict, hkeep]) hone (.refl _) (fun _ _ _ _ => Iff.rfl) fun _ => Or.inl⟩
  · rw [← reported_copied] at hone
    exact ⟨.copied, a', h.copy hp hn hclean hcopy (by simp [verdict, hkeep, hcopy]) hone⟩
  · rw [← reported_failed] at hone
    refine ⟨.failed e, a', h.pass (by simp) (by simp [verdict, hkeep, hcopy]) hone (steps_of_copyOne hpa hn hd hcopy)
      (fun q c mode t => copyOne_error hpa hn hd hcopy) fun q hq => ?_⟩
    rw [show a' = ((copyOne b name _ _).on a).2 from (congrArg Prod.snd hcopy).symm] at hq
    exact (dir_of_copyOne b name hpa hn hd hq).imp_right fun habove => ⟨by simp, habove⟩

/-- What a whole installation does is accounted for. -/
theorem installAll (h : Accounts b m root d log a) (hp : d.top.isPlain = true) (hn : root.Named) {rest : List String}
    (hclean : ∀ name ∈ rest, isClean name = true) :
    ∃ log' a', log'.map Prod.fst = log.map Prod.fst ++ rest ∧ Accounts b m root d log' a' := by
  induction rest generalizing log a with
  | nil => exact ⟨log, a, (List.append_nil _).symm, h⟩
  | cons name rest ih =>
    obtain ⟨hname, hrest⟩ := List.forall_mem_cons.mp hclean
    obtain ⟨v, a₁, h₁⟩ := h.step hp hn hname
    obtain ⟨log', a', hnames, h'⟩ := ih h₁ hrest
    exact ⟨log', a', by rw [hnames]; simp, h'⟩

end Accounts

/-- An installation that goes well is accounted for. -/
theorem accounts_of_run {files : Report} (hp : d.top.isPlain = true) (hn : root.Named)
    (hclean : ∀ name ∈ listed b d, isClean name = true) (hrun : (run b m root).on d = (.ok files, a)) :
    ∃ log, log.map Prod.fst = listed b d ∧ files = reported log ∧ Accounts b m root d log a := by
  rcases run_cases b m root d with ⟨e, -, herror⟩ | ⟨_, _, -, hfold, hok⟩
  · cases herror.symm.trans hrun
  · cases hok.symm.trans hrun
    obtain ⟨log, a', hlog, h⟩ := (Accounts.start b m root d).installAll hp hn hclean
    rw [List.map_nil, List.nil_append] at hlog
    have hsame := h.run
    rw [hlog] at hsame
    cases hsame.symm.trans hfold
    exact ⟨log, hlog, rfl, h⟩

/-- An installation of clean names succeeds, and its report and the disk that it leaves are accounted
for by one verdict on each name. -/
theorem installation_is_accounted_for (b : Bundle) (m : Manifest) (text : String) {names : List String}
    (hp : d.top.isPlain = true) (hfiles : (b.files.on d).1 = .ok names)
    (hclean : ∀ name ∈ names, isClean name = true) :
    ∃ log a, log.map Prod.fst = names ∧ (run b m (Path.ofText text)).on d = (.ok (reported log), a) ∧
      Accounts b m (Path.ofText text) d log a := by
  obtain ⟨log, a, hnames, h⟩ :=
    (Accounts.start b m (Path.ofText text) d).installAll hp (Path.named_ofText text) hclean
  have hlist : b.files.on d = (.ok names, d) := Prod.ext hfiles (files_stays b d)
  refine ⟨log, a, hnames, ?_, h⟩
  rw [run, on_bind_ok hlist, ← h.run, hnames]
  rfl

/-- An empty disk. -/
def bare : Disk := ⟨.dir ⟨0, false⟩ [], [], 0⟩

/-- A bundle with two names for one destination, and with a file below another. -/
def crowded : Bundle :=
  .held ["CLAUDE.md.template", "CLAUDE.md", "run.sh", "run.sh/x"]
    [ ("CLAUDE.md.template", "t".toUTF8), ("CLAUDE.md", "c".toUTF8), ("run.sh", "r".toUTF8), ("run.sh/x", "x".toUTF8) ]

theorem crowded_is_accounted_for :
    bare.top.isPlain = true ∧
      (∀ name ∈ ["CLAUDE.md.template", "CLAUDE.md", "run.sh", "run.sh/x"], isClean name = true) ∧
      ∃ log a, log.map Prod.fst = ["CLAUDE.md.template", "CLAUDE.md", "run.sh", "run.sh/x"] ∧
        (run crowded (.ofTexts [] [] []) (Path.ofText "/")).on bare = (.ok (reported log), a) ∧
        Accounts crowded (.ofTexts [] [] []) (Path.ofText "/") bare log a ∧
        (reported log).copied = ["CLAUDE.md", "run.sh"] ∧ (reported log).kept = ["CLAUDE.md"] ∧
        (reported log).failed.map Prod.fst = ["run.sh/x"] := by
  have hclean : ∀ name ∈ ["CLAUDE.md.template", "CLAUDE.md", "run.sh", "run.sh/x"], isClean name = true := by
    decide +kernel
  have hreport : ((run crowded (.ofTexts [] [] []) (Path.ofText "/")).on bare).1.toOption.map
      (fun r => (r.copied, r.kept, r.failed.map Prod.fst)) =
      some (["CLAUDE.md", "run.sh"], ["CLAUDE.md"], ["run.sh/x"]) := by decide +kernel
  obtain ⟨log, a, hnames, hrun, h⟩ :=
    installation_is_accounted_for (d := bare) crowded (.ofTexts [] [] []) "/" rfl rfl hclean
  rw [hrun] at hreport
  obtain ⟨hcopied, hrest⟩ := Prod.mk.inj (Option.some.inj hreport)
  obtain ⟨hkept, hfailed⟩ := Prod.mk.inj hrest
  exact ⟨rfl, hclean, log, a, hnames, hrun, h, hcopied, hkept, hfailed⟩

/-- A bundle with a name that no file can have. -/
def thwarted : Bundle := .held ["a/\x00"] [("a/\x00", "1".toUTF8)]

/-- A failed copy can leave a directory, though nothing was copied. -/
theorem failed_copy_leaves_directory :
    bare.top.isPlain = true ∧ isClean "a/\x00" = true ∧ bare.isThere (Path.ofText "/a") = false ∧
      ∃ r a, (run thwarted (.ofTexts [] [] []) (Path.ofText "/")).on bare = (.ok r, a) ∧
        r.copied = [] ∧ a.isDir (Path.ofText "/a") = true := by
  have hclean : isClean "a/\x00" = true := by decide +kernel
  have hgone : bare.isThere (Path.ofText "/a") = false := by decide +kernel
  have hcopied : ((run thwarted (.ofTexts [] [] []) (Path.ofText "/")).on bare).1.toOption.map (·.copied) = some [] := by
    decide +kernel
  have hdir : ((run thwarted (.ofTexts [] [] []) (Path.ofText "/")).on bare).2.isDir (Path.ofText "/a") = true := by
    decide +kernel
  rcases hrun : (run thwarted (.ofTexts [] [] []) (Path.ofText "/")).on bare with ⟨e | r, a⟩
  · rw [hrun] at hcopied
    cases hcopied
  · rw [hrun] at hcopied hdir
    exact ⟨rfl, hclean, hgone, r, a, rfl, Option.some.inj hcopied, hdir⟩

end Outfitter.Install
