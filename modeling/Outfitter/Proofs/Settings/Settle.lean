import Outfitter.Proofs.Disk.Retain
import Outfitter.Proofs.Settings.Patch

/-! # Merges settle

What both merges have made of the settings leaves nothing to do for the next ones. A document
that was saved is read back but for its floating-point numbers, which no merge looks at. Where
no new version can be prepared, the merges leave the disk as it is.
-/

namespace Outfitter.Settings

open Disk Action Files Json

/-! ## Qualified hooks stay qualified -/

section Maps

variable {f : Json → Json × Nat} {α : Type}

/-- A map that finds nothing to change in what it made. -/
def Settles (f : α → α × Nat) : Prop := ∀ x, (f (f x).1).2 = 0

/-- A map that counts the same changes in a value that was written and read back. -/
def Deaf (f : Json → Json × Nat) : Prop := ∀ v, (f v.echo).2 = (f v).2

theorem settles_sumMap {g : α → α × Nat} (hg : Settles g) : Settles (sumMap g) := by
  intro xs
  induction xs with
  | nil => rfl
  | cons x xs ih =>
    simp only [sumMap, List.map_cons, List.foldr_cons] at ih ⊢
    rw [hg x, ih]

theorem settles_atItems (hf : Settles f) : Settles (atItems f) := by
  intro v
  cases v with
  | arr items => exact settles_sumMap hf items
  | _ => rfl

theorem settles_atValues (hf : Settles f) : Settles (atValues f) := by
  intro v
  cases v with
  | obj ms => exact settles_sumMap (fun m => hf m.2) ms
  | _ => rfl

theorem settles_atKey (key : String) (hf : Settles f) : Settles (atKey key f) := by
  intro v
  cases v with
  | obj ms =>
    refine settles_sumMap (fun m => ?_) ms
    by_cases hk : m.1 = key
    · simp only [if_pos hk]
      exact hf m.2
    · simp only [if_neg hk]
  | _ => rfl

theorem isInfix_iff {part text : List Char} : isInfix part text = true ↔ part <:+: text := by
  induction text with
  | nil => simp [isInfix, List.isEmpty_iff]
  | cons c text ih =>
    rw [isInfix, Bool.or_eq_true, List.isPrefixOf_iff_prefix, ih, List.infix_cons_iff]

/-- A command that was qualified names the variable. -/
theorem qualify?_qualified {c q : String} (h : qualify? c = some q) : qualify? q = none := by
  have hq : q = projectPrefix ++ c := by
    rw [qualify?] at h
    split at h
    · cases h
    · exact (Option.some.inj h).symm
  have hin : occursIn projectVariable q = true := by
    refine isInfix_iff.mpr ⟨['"'], ['"', '/'] ++ c.toList, ?_⟩
    rw [hq, String.toList_append, List.append_assoc, ← List.append_assoc projectVariable.toList, ← List.append_assoc]
    rfl
  rw [qualify?, if_pos (by rw [hin, Bool.true_or])]

theorem settles_qualifyString : Settles qualifyString := by
  intro v
  cases v with
  | str c =>
    cases hc : qualify? c with
    | none => simp only [qualifyString, hc]
    | some q => simp only [qualifyString, hc, qualify?_qualified hc]
  | _ => rfl

theorem settles_qualifyHooks : Settles qualifyHooks :=
  settles_atValues (settles_atItems (settles_atKey _ (settles_atItems (settles_atKey _ settles_qualifyString))))

theorem sumMap_count {g : α → α × Nat} {e : α → α} (h : ∀ x, (g (e x)).2 = (g x).2) (xs : List α) :
    (sumMap g (xs.map e)).2 = (sumMap g xs).2 := by
  induction xs with
  | nil => rfl
  | cons x xs ih =>
    simp only [sumMap, List.map_cons, List.foldr_cons] at ih ⊢
    rw [h x, ih]

theorem deaf_atItems (hf : Deaf f) : Deaf (atItems f) := by
  intro v
  cases v with
  | arr items =>
    rw [echo, echoItems_eq]
    exact sumMap_count hf items
  | _ => rfl

theorem deaf_atValues (hf : Deaf f) : Deaf (atValues f) := by
  intro v
  cases v with
  | obj ms =>
    rw [echo, echoMembers_eq]
    exact sumMap_count (fun m => hf m.2) ms
  | _ => rfl

theorem deaf_atKey (key : String) (hf : Deaf f) : Deaf (atKey key f) := by
  intro v
  cases v with
  | obj ms =>
    rw [echo, echoMembers_eq]
    refine sumMap_count (fun m => ?_) ms
    by_cases hk : m.1 = key
    · simp only [if_pos hk]
      exact hf m.2
    · simp only [if_neg hk]
  | _ => rfl

theorem deaf_qualifyString : Deaf qualifyString := by
  intro v
  cases v <;> rfl

theorem deaf_qualifyHooks : Deaf qualifyHooks :=
  deaf_atValues (deaf_atItems (deaf_atKey _ (deaf_atItems (deaf_atKey _ deaf_qualifyString))))

end Maps

/-! ## Documents that leave nothing to do -/

variable {doc doc' : Document} {k k' : String} {v : Json}

theorem get?_set : (doc.set k v).get? k' = if k' = k then some v else doc.get? k' := by
  induction doc with
  | nil => rw [Members.set, get?_cons]
  | cons m doc ih =>
    rw [Members.set]
    by_cases hm : m.1 = k
    · rw [if_pos hm, get?_cons, get?_cons, hm]
      split <;> rfl
    · rw [if_neg hm, get?_cons, get?_cons, ih]
      by_cases hk : k' = m.1
      · rw [if_pos hk, if_neg (hk ▸ hm), if_pos hk]
      · rw [if_neg hk, if_neg hk]

theorem get?_echoMembers : Members.get? (echoMembers doc) k = (doc.get? k).map echo := by
  induction doc with
  | nil => rfl
  | cons m doc ih =>
    rw [echoMembers, get?_cons, get?_cons, ih]
    split <;> rfl

theorem contains_echoMembers : Members.contains (echoMembers doc) k = doc.contains k := by
  rw [Members.contains, Members.contains, get?_echoMembers, Option.isSome_map]

theorem contains_addStatusLine : ((addStatusLine? doc).getD doc).contains statusLineKey = true := by
  rw [addStatusLine?]
  split
  · assumption
  · rw [Option.getD_some, Members.contains, get?_set, if_pos rfl]
    rfl

theorem isCurrent_echoMembers : isCurrent (echoMembers doc) = isCurrent doc := by
  rw [isCurrent, isCurrent, contains_echoMembers, get?_echoMembers]
  cases doc.get? hooksKey with
  | none => rfl
  | some hooks => simp only [Option.map_some, Option.any_some, deaf_qualifyHooks hooks]

theorem addHooks?_eq_none : addHooks? doc = none ↔
    ∃ hooks, doc.get? hooksKey = some hooks ∧ (qualifyHooks hooks).2 = 0 := by
  unfold addHooks?
  cases doc.get? hooksKey with
  | none => simp
  | some hooks =>
    rcases hq : qualifyHooks hooks with ⟨hooks', n⟩
    cases n <;> simp [hq]

theorem addHooks?_some (h : addHooks? doc = some doc') :
    ∃ hooks, doc' = doc.set hooksKey hooks ∧ (qualifyHooks hooks).2 = 0 := by
  unfold addHooks? at h
  split at h
  · cases h
    exact ⟨defaultHooks, rfl, by decide⟩
  · next hooks hg =>
    split at h
    · cases h
    · next hooks' n _ hq =>
      cases h
      have hsettled := settles_qualifyHooks hooks
      rw [hq] at hsettled
      exact ⟨hooks', rfl, hsettled⟩

/-- The hooks that a merge has written leave nothing to do. -/
theorem addHooks?_settled (h : addHooks? doc = some doc') : addHooks? (echoMembers doc') = none := by
  obtain ⟨hooks, rfl, hzero⟩ := addHooks?_some h
  refine addHooks?_eq_none.mpr ⟨hooks.echo, ?_, (deaf_qualifyHooks hooks).trans hzero⟩
  rw [get?_echoMembers, get?_set, if_pos rfl, Option.map_some]

/-- With a status line, the hooks that a merge leaves are all that there is to do. -/
theorem isCurrent_addHooks (hs : doc.contains statusLineKey = true) :
    isCurrent ((addHooks? doc).getD doc) = true := by
  cases hd : addHooks? doc with
  | none =>
    rw [Option.getD_none, isCurrent_iff]
    exact ⟨by rw [addStatusLine?, if_pos hs], hd⟩
  | some doc' =>
    obtain ⟨hooks, rfl, hzero⟩ := addHooks?_some hd
    have hline : (doc.set hooksKey hooks).contains statusLineKey = true := by
      rw [Members.contains, get?_set, if_neg (by decide)]
      exact hs
    rw [Option.getD_some, isCurrent, hline, get?_set, if_pos rfl, Option.any_some, hzero]
    rfl

/-! ## Settings that merges leave alone -/

variable {d d' d₁ : Disk} {root : Path} {backup : Option Path}

/-- The merges have nothing to do, or no new version of the settings can be prepared. -/
def Quiet (d : Disk) (root : Path) : Prop :=
  ¬ d.Admits (Layout.staging (Layout.settings root)) ∨
    d.isThere (Layout.settings root) = true ∧ ∀ doc, Shows d root doc → isCurrent doc = true

theorem write_of_not_admits (hl : d.top.LinkFree) (ha : ¬ d.Admits (Layout.staging (Layout.settings root)))
    (doc : Document) :
    ∃ e, (write (Layout.settings root) doc none).on d = (.error e, d) := by
  obtain ⟨e, he⟩ := locate_of_not_admits hl ha true
  have hstage : (stage (Layout.settings root) (Layout.staging (Layout.settings root)) doc).on d =
      (.error (.io e), d) := on_bind_error (on_change_error (by rw [Disk.write, edit, he]))
  refine ⟨.io e, ?_⟩
  have hfile : d.isFile (Layout.staging (Layout.settings root)) = false := by rw [isFile, find, he]
  have hclear : (clear (Layout.staging (Layout.settings root))).on d = (.ok (), d) := by
    unfold clear
    rw [on_bind_ask, hfile]
    rfl
  unfold write
  rw [on_bind_attempt, hstage]
  exact on_bind_ok (on_bind_ok hclear)

/-- The name of a backup is longer than that of a new version. -/
theorem not_admits_backup (ha : ¬ d.Admits (Layout.staging (Layout.settings root))) (clock : Nat) :
    ¬ d.Admits ((Layout.settings root).withFileName (backupName clock)) := by
  have hplain : ∀ s ∈ [Layout.assetsDirName, "settings.json.tmp"],
      s.toList.contains '\x00' = false ∧ takesName s = true := by decide
  have hname := isName_backupName clock
  rw [Layout.settings_sibling root hname]
  intro h
  refine ha ?_
  rw [Layout.staging_settings]
  refine h.of_join (by simp) (by simp) isName_staging (Layout.isName_sibling hname) ?_
    fun s hs => Or.inr (hplain s hs)
  have hsize : "settings.json.tmp".utf8ByteSize ≤ (backupName clock).utf8ByteSize := by
    rw [backupName, String.utf8ByteSize_append]
    exact Nat.le_add_right_of_le (by decide)
  simp only [Path.bytes, List.length_cons, List.length_nil]
  omega

theorem saveOver_of_not_admits (hl : d.top.LinkFree) (ha : ¬ d.Admits (Layout.staging (Layout.settings root)))
    (doc : Document) :
    ∃ e, (saveOver (Layout.settings root) doc).on d = (.error e, d) := by
  obtain ⟨e, he⟩ := copy_of_not_admits hl (not_admits_backup ha d.clock) (Layout.settings root)
  have hback : (tryBackUp (Layout.settings root)).on d = (.ok none, d) := by
    obtain ⟨d₁, hcopy, -⟩ | ⟨_, -, hrun⟩ := tryBackUp_cases root d
    · cases he.symm.trans hcopy
    · exact hrun
  obtain ⟨e', hw⟩ := write_of_not_admits hl ha doc
  refine ⟨e', ?_⟩
  unfold saveOver
  rw [on_bind_ok hback, hw]

theorem mergeStatusLine_of_quiet (hl : d.top.LinkFree) (hmake : (makeDirs (Layout.assetsDir root)).on d = (.ok (), d))
    (hq : Quiet d root) : ((mergeStatusLine root).on d).2 = d := by
  unfold mergeStatusLine
  rw [on_bind_ok hmake, on_bind_ask]
  cases hthere : d.isThere (Layout.settings root) with
  | false =>
    have ha : ¬ d.Admits (Layout.staging (Layout.settings root)) := hq.resolve_right fun h => by
      rw [hthere] at h
      cases h.1
    obtain ⟨e, hw⟩ := write_of_not_admits hl ha [(statusLineKey, defaultStatusLine)]
    rw [if_neg Bool.false_ne_true, on_bind_error hw]
  | true =>
    rw [if_pos rfl]
    rcases hread : (read (Layout.settings root)).on d with ⟨e | doc, d₁⟩
    · rw [on_bind_error hread]
      exact read_stays hread
    · obtain ⟨rfl, hshows⟩ := of_read_ok hread
      rw [on_bind_ok hread]
      split
      · rfl
      · next hnew =>
        rcases hq with ha | ⟨-, hcurrent⟩
        · obtain ⟨e, hsave⟩ := saveOver_of_not_admits hl ha (doc.set statusLineKey defaultStatusLine)
          rw [on_bind_error hsave]
        · have hline := (isCurrent_iff.mp (hcurrent doc hshows)).1
          rw [addStatusLine?, if_neg hnew] at hline
          cases hline

theorem mergeHooks_of_quiet (hl : d.top.LinkFree) (hq : Quiet d root) : ((mergeHooks root).on d).2 = d := by
  unfold mergeHooks
  rw [on_bind_ask]
  split
  · rcases hread : (read (Layout.settings root)).on d with ⟨e | doc, d₁⟩
    · rw [on_bind_error hread]
      exact read_stays hread
    · obtain ⟨rfl, hshows⟩ := of_read_ok hread
      rw [on_bind_ok hread]
      rcases hq with ha | ⟨-, hcurrent⟩
      · have hsave (doc : Document) (o : Outcome) :
            ((saveOver (Layout.settings root) doc >>= fun _ => pure o).on d₁).2 = d₁ := by
          obtain ⟨e, hsave⟩ := saveOver_of_not_admits hl ha doc
          rw [on_bind_error hsave]
        split
        · exact hsave _ _
        · split
          · rfl
          · exact hsave _ _
      · obtain ⟨hooks, hg, hzero⟩ := addHooks?_eq_none.mp (isCurrent_iff.mp (hcurrent doc hshows)).2
        rcases hqual : qualifyHooks hooks with ⟨hooks', n⟩
        rw [hqual] at hzero
        obtain rfl : n = 0 := hzero
        simp only [hg, hqual]
        rfl
  · rfl

/-- What merges leave alone, they leave alone as long as the settings stay. -/
theorem Quiet.retained {a b : Disk} (h : Quiet a root)
    (hr : Retains a b (a.place root ++ [Layout.assetsDirName, "settings.json"])) (hla : a.top.LinkFree)
    (hlb : b.top.LinkFree) (hcwd : b.cwd = a.cwd) (ha : a.Leads root) (hb : b.Leads root) : Quiet b root := by
  have hne : [Layout.assetsDirName, "settings.json"] ≠ [] := List.cons_ne_nil _ _
  rcases h with hadmits | ⟨hthere, hcurrent⟩
  · left
    rwa [Admits, trail_of_cwd hcwd]
  · right
    refine ⟨hr.outlasts.isThere hla hlb hcwd hb Layout.isName_settings hne hthere, fun doc hshows => hcurrent doc ?_⟩
    obtain ⟨text, htext, hdoc⟩ := hshows
    exact ⟨text, hr.readText hlb hla hcwd ha Layout.isName_settings hne htext, hdoc⟩

/-! ## Merges make settings that merges leave alone -/

theorem Shows.unique (h : Shows d root doc) (h' : Shows d root doc') : doc = doc' := by
  rw [shows_iff] at h h'
  exact Except.ok.inj (h.symm.trans h')

theorem Shows.holds (h : Shows d root doc) : Reader.Holds maxDepth 0 doc := by
  obtain ⟨text, -, htext⟩ := h
  exact holds_of_read htext

theorem Saved.shows (h : Saved d root doc) (hd : Reader.Holds maxDepth 0 doc) : Shows d root (echoMembers doc) :=
  ⟨_, h.readText, read_render hd⟩

theorem quiet_of_shows (h : Shows d root doc) (hc : isCurrent doc = true) : Quiet d root := by
  refine Or.inr ⟨?_, fun doc' h' => h.unique h' ▸ hc⟩
  obtain ⟨text, htext, -⟩ := h
  exact isThere_of_readText htext

/-- After settings with a status line, hooks are all that is to be merged. -/
theorem quiet_of_mergeHooks (h : Ready d root) (hd : Shows d root doc) (hs : doc.contains statusLineKey = true) :
    Quiet ((mergeHooks root).on d).2 root := by
  have hholds : ∀ doc', addHooks? doc = some doc' → Reader.Holds maxDepth 0 doc' := fun doc' =>
    holds_addHooks hd.holds
  obtain ⟨o, d', hrun, -, hnone, hsaved⟩ := patches_mergeHooks.saved h hd fun doc' hdoc' =>
    readable_of_holds (hholds doc' hdoc')
  have hcurrent := isCurrent_addHooks hs
  rw [hrun]
  cases hdoc : addHooks? doc with
  | none =>
    rw [hdoc] at hcurrent
    rw [hnone hdoc]
    exact quiet_of_shows hd hcurrent
  | some doc' =>
    rw [hdoc] at hcurrent
    exact quiet_of_shows ((hsaved doc' hdoc).shows (hholds doc' hdoc)) (isCurrent_echoMembers.trans hcurrent)

theorem not_dir_of_not_there (h : Ready d root) (hthere : d.isThere (Layout.settings root) = false) :
    d.top.shape? (d.place root ++ [Layout.assetsDirName, "settings.json"]) ≠ some .dir := by
  intro hdir
  obtain ⟨t, es, hat⟩ := Node.shape?_eq_dir.mp hdir
  have hloc := h.locate true (by decide : isName "settings.json" = true) h.admits_settings
  rw [hat] at hloc
  have hfind : d.find (Layout.settings root) = .ok (_, .dir t es) := find_ok_iff.mpr hloc
  rw [isThere, hfind] at hthere
  cases hthere

/-- Both merges leave nothing to do for the next ones. -/
theorem quiet_of_merges (h : Ready d root) :
    Quiet ((mergeHooks root).on ((mergeStatusLine root).on d).2).2 root := by
  cases hthere : d.isThere (Layout.settings root) with
  | false =>
    obtain ⟨d₁, hw, hsaved⟩ : ∃ d₁, (write (Layout.settings root) [(statusLineKey, defaultStatusLine)] none).on d =
        (.ok (), d₁) ∧ Saved d₁ root [(statusLineKey, defaultStatusLine)] :=
      h.save (not_dir_of_not_there h hthere) (readable_of_holds holds_statusLine)
    have hrun : ((mergeStatusLine root).on d).2 = d₁ := by
      unfold mergeStatusLine
      rw [on_bind_ok h.makeDirs, on_bind_ask, hthere, if_neg Bool.false_ne_true, on_bind_ok hw]
      rfl
    rw [hrun]
    exact quiet_of_mergeHooks hsaved.ready (hsaved.shows holds_statusLine) rfl
  | true =>
    by_cases hshows : ∃ doc, Shows d root doc
    · obtain ⟨doc, hd⟩ := hshows
      have hholds : ∀ doc', addStatusLine? doc = some doc' → Reader.Holds maxDepth 0 doc' := fun doc' =>
        holds_addStatusLine hd.holds
      obtain ⟨o, d₁, hrun, h₁, hnone, hsaved⟩ := patches_mergeStatusLine.saved h hd fun doc' hdoc' =>
        readable_of_holds (hholds doc' hdoc')
      have hline : ((addStatusLine? doc).getD doc).contains statusLineKey = true := contains_addStatusLine
      rw [hrun]
      cases hdoc : addStatusLine? doc with
      | none =>
        rw [hdoc] at hline
        obtain rfl := hnone hdoc
        exact quiet_of_mergeHooks h₁ hd hline
      | some doc' =>
        rw [hdoc] at hline
        exact quiet_of_mergeHooks h₁ ((hsaved doc' hdoc).shows (hholds doc' hdoc)) (contains_echoMembers.trans hline)
    · have hq : Quiet d root := Or.inr ⟨hthere, fun doc hd => absurd ⟨doc, hd⟩ hshows⟩
      have hl := Node.linkFree_of_isPlain h.plain
      rw [mergeStatusLine_of_quiet hl h.makeDirs hq, mergeHooks_of_quiet hl hq]
      exact hq

end Outfitter.Settings
