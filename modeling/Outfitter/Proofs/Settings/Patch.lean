import Outfitter.Proofs.Json.Reader
import Outfitter.Proofs.Settings.Ready

/-! # Merges are exact patches

After both merges the settings hold the members they held, in order, and at the end what was
missing. Only the commands of hooks are rewritten. What the first merge writes, the second
reads back as it was.
-/

namespace Outfitter.Settings

open Disk Action Files Json

/-! ## Qualified hooks -/

section Maps

variable {f : Json → Json × Nat}

/-- A map that counts no change makes none. -/
def Idle {α : Type} (f : α → α × Nat) : Prop := ∀ x, (f x).2 = 0 → (f x).1 = x

theorem idle_sumMap {α : Type} {f : α → α × Nat} (hf : Idle f) : Idle (sumMap f) := by
  intro xs hz
  induction xs with
  | nil => rfl
  | cons x xs ih =>
    simp only [sumMap, List.map_cons, List.foldr_cons, Nat.add_eq_zero_iff] at hz ih ⊢
    rw [hf x hz.1, ih hz.2]

theorem idle_atItems (hf : Idle f) : Idle (atItems f) := by
  intro v hz
  cases v with
  | arr items => exact congrArg arr (idle_sumMap hf items hz)
  | _ => rfl

theorem idle_atValues (hf : Idle f) : Idle (atValues f) := by
  intro v hz
  cases v with
  | obj ms =>
    refine congrArg obj (idle_sumMap (fun m hm => ?_) ms hz)
    exact Prod.ext rfl (hf m.2 hm)
  | _ => rfl

theorem idle_atKey (key : String) (hf : Idle f) : Idle (atKey key f) := by
  intro v hz
  cases v with
  | obj ms =>
    refine congrArg obj (idle_sumMap (fun m hm => ?_) ms hz)
    dsimp only at hm ⊢
    split
    · next hk =>
      rw [if_pos hk] at hm
      exact Prod.ext rfl (hf m.2 hm)
    · rfl
  | _ => rfl

theorem idle_qualifyString : Idle qualifyString := by
  intro v hz
  cases v with
  | str c =>
    simp only [qualifyString] at hz ⊢
    split
    · next q hq =>
      rw [hq] at hz
      cases hz
    · rfl
  | _ => rfl

theorem idle_qualifyHooks : Idle qualifyHooks :=
  idle_atValues (idle_atItems (idle_atKey _ (idle_atItems (idle_atKey _ idle_qualifyString))))

/-- A property that looks at no item, at no text and at no value of a member. -/
structure Shallow (p : Json → Bool) : Prop where
  arr : ∀ items, p (.arr items) = true
  str : ∀ s, p (.str s) = true
  obj : ∀ ms ms' : Members, ms.map Prod.fst = ms'.map Prod.fst → p (.obj ms) = p (.obj ms')

theorem shallow_isFloatFree : Shallow isFloatFree := ⟨fun _ => rfl, fun _ => rfl, fun _ _ _ => rfl⟩

theorem shallow_isRegular : Shallow isRegular :=
  ⟨fun _ => rfl, fun _ => rfl, fun _ _ h => by simp only [isRegular, h]⟩

/-- A map that keeps depths and all shallow properties. -/
def Tame (f : Json → Json × Nat) : Prop :=
  ∀ v, (f v).1.depth = v.depth ∧ ∀ p, Shallow p → v.every p = true → (f v).1.every p = true

theorem tame_atItems (hf : Tame f) : Tame (atItems f) := by
  intro v
  cases v with
  | arr items =>
    have hrun : (atItems f (.arr items)).1 = .arr (items.map fun x => (f x).1) := rfl
    rw [hrun]
    refine ⟨?_, fun p hp h => ?_⟩
    · have hdepth : depthList (items.map fun x => (f x).1) = depthList items := by
        induction items with
        | nil => rfl
        | cons x items ih => rw [List.map_cons, depthList, depthList, (hf x).1, ih rfl]
      rw [depth, depth, hdepth]
    · rw [every, hp.arr, Bool.true_and, everyItem_iff] at h ⊢
      intro w hw
      obtain ⟨x, hx, rfl⟩ := List.mem_map.mp hw
      exact (hf x).2 p hp (h x hx)
  | _ => exact ⟨rfl, fun _ _ h => h⟩

/-- Members whose values are mapped by a map that may look at their keys. -/
theorem tame_members {g : String → Json → Json} (ms : Members)
    (hg : ∀ k v, (g k v).depth = v.depth ∧ ∀ p, Shallow p → v.every p = true → (g k v).every p = true) :
    (Json.obj (ms.map fun m => (m.1, g m.1 m.2))).depth = (Json.obj ms).depth ∧
      ∀ p, Shallow p → (Json.obj ms).every p = true →
        (Json.obj (ms.map fun m => (m.1, g m.1 m.2))).every p = true := by
  refine ⟨?_, fun p hp h => ?_⟩
  · have hdepth : depthMembers (ms.map fun m => (m.1, g m.1 m.2)) = depthMembers ms := by
      induction ms with
      | nil => rfl
      | cons m ms ih => rw [List.map_cons, depthMembers, depthMembers, (hg m.1 m.2).1, ih]
    rw [depth, depth, hdepth]
  · have hkeys : (ms.map fun m => (m.1, g m.1 m.2)).map Prod.fst = ms.map Prod.fst := by
      rw [List.map_map]
      rfl
    rw [every, Bool.and_eq_true, everyMember_iff] at h ⊢
    refine ⟨hp.obj _ _ hkeys ▸ h.1, fun w hw => ?_⟩
    obtain ⟨m, hm, rfl⟩ := List.mem_map.mp hw
    exact (hg m.1 m.2).2 p hp (h.2 m hm)

theorem tame_atValues (hf : Tame f) : Tame (atValues f) := by
  intro v
  cases v with
  | obj ms => exact tame_members ms fun _ v => hf v
  | _ => exact ⟨rfl, fun _ _ h => h⟩

theorem tame_atKey (key : String) (hf : Tame f) : Tame (atKey key f) := by
  intro v
  cases v with
  | obj ms =>
    have hrun : (atKey key f (.obj ms)).1 =
        .obj (ms.map fun m => (m.1, if m.1 = key then (f m.2).1 else m.2)) := by
      refine congrArg Json.obj (List.map_congr_left fun m _ => ?_)
      dsimp only
      split <;> rfl
    rw [hrun]
    refine tame_members (g := fun k v => if k = key then (f v).1 else v) ms fun k v => ?_
    split
    · exact hf v
    · exact ⟨rfl, fun _ _ h => h⟩
  | _ => exact ⟨rfl, fun _ _ h => h⟩

theorem tame_qualifyString : Tame qualifyString := by
  intro v
  cases v with
  | str c =>
    simp only [qualifyString]
    split
    · exact ⟨rfl, fun p hp _ => hp.str _⟩
    · exact ⟨rfl, fun _ _ h => h⟩
  | _ => exact ⟨rfl, fun _ _ h => h⟩

theorem tame_qualifyHooks : Tame qualifyHooks :=
  tame_atValues (tame_atItems (tame_atKey _ (tame_atItems (tame_atKey _ tame_qualifyString))))

end Maps

/-! ## The document after both merges -/

variable {doc : Document} {k : String} {v w : Json}

/-- The members with their hooks qualified. -/
def qualified (doc : Document) : Document :=
  doc.map fun m => (m.1, if m.1 = hooksKey then (qualifyHooks m.2).1 else m.2)

/-- What both merges make of a document. -/
def patched (doc : Document) : Document :=
  qualified doc ++ (if doc.contains statusLineKey then [] else [(statusLineKey, defaultStatusLine)]) ++
    if doc.contains hooksKey then [] else [(hooksKey, defaultHooks)]

/-- The merges have nothing to do. -/
def isCurrent (doc : Document) : Bool :=
  doc.contains statusLineKey && (doc.get? hooksKey).any fun hooks => (qualifyHooks hooks).2 = 0

theorem get?_cons (m : String × Json) (doc : Document) (k : String) :
    Members.get? (m :: doc) k = if k = m.1 then some m.2 else Members.get? doc k := by
  by_cases hk : k = m.1
  · rw [if_pos hk, Members.get?, List.lookup_cons, beq_iff_eq.mpr hk]
  · rw [if_neg hk, Members.get?, List.lookup_cons, beq_eq_false_iff_ne.mpr hk]
    rfl

theorem contains_iff : doc.contains k = true ↔ k ∈ doc.map Prod.fst := by
  induction doc with
  | nil => simp [Members.contains, Members.get?]
  | cons m doc ih =>
    rw [Members.contains, get?_cons, List.map_cons, List.mem_cons, ← ih]
    by_cases hk : k = m.1
    · simp [hk]
    · simp [hk, Members.contains]

theorem get?_of_mem (hn : (doc.map Prod.fst).Nodup) {m : String × Json} (hm : m ∈ doc) :
    doc.get? m.1 = some m.2 := by
  induction doc with
  | nil => cases hm
  | cons a doc ih =>
    rw [List.map_cons, List.nodup_cons] at hn
    rw [get?_cons]
    rcases List.mem_cons.mp hm with rfl | hm
    · rw [if_pos rfl]
    · rw [if_neg, ih hn.2 hm]
      rintro he
      exact hn.1 (he ▸ List.mem_map_of_mem hm)

theorem mem_of_get? (h : doc.get? k = some v) : (k, v) ∈ doc := by
  induction doc with
  | nil => cases h
  | cons m doc ih =>
    rw [get?_cons] at h
    split at h
    · next hk =>
      cases h
      rw [hk]
      exact List.mem_cons_self
    · exact List.mem_cons_of_mem _ (ih h)

/-- A key that is there keeps its place. -/
theorem set_of_mem (hn : (doc.map Prod.fst).Nodup) (hk : k ∈ doc.map Prod.fst) :
    doc.set k w = doc.map fun m => (m.1, if m.1 = k then w else m.2) := by
  induction doc with
  | nil => cases hk
  | cons m doc ih =>
    obtain ⟨k', v⟩ := m
    rw [List.map_cons, List.nodup_cons] at hn
    rw [Members.set, List.map_cons]
    by_cases he : k' = k
    · subst he
      have hrest : doc.map (fun m => (m.1, if m.1 = k' then w else m.2)) = doc.map id := by
        refine List.map_congr_left fun m hm => ?_
        rw [if_neg]
        · rfl
        · intro he
          exact hn.1 (List.mem_map.mpr ⟨m, hm, he⟩)
      rw [if_pos rfl, hrest, List.map_id]
      simp
    · rw [if_neg he, ih hn.2 ((List.mem_cons.mp hk).resolve_left (Ne.symm he))]
      simp [he]

/-- A map of the values that keeps the one of a key and all others makes no change. -/
theorem map_eq_self (hn : (doc.map Prod.fst).Nodup) (hv : ∀ v, doc.get? k = some v → w = v) :
    (doc.map fun m => (m.1, if m.1 = k then w else m.2)) = doc := by
  conv_rhs => rw [← List.map_id doc]
  refine List.map_congr_left fun m hm => ?_
  by_cases hk : m.1 = k
  · rw [if_pos hk, hv m.2 (hk ▸ get?_of_mem hn hm)]
    rfl
  · rw [if_neg hk]
    rfl

theorem qualified_of_get? (hn : (doc.map Prod.fst).Nodup) {hooks : Json}
    (hg : doc.get? hooksKey = some hooks) :
    qualified doc = doc.map fun m => (m.1, if m.1 = hooksKey then (qualifyHooks hooks).1 else m.2) := by
  refine List.map_congr_left fun m hm => ?_
  by_cases hk : m.1 = hooksKey
  · have hm := get?_of_mem hn hm
    rw [hk, hg, Option.some.injEq] at hm
    rw [if_pos hk, if_pos hk, hm]
  · rw [if_neg hk, if_neg hk]

theorem patchHooks_eq (hn : (doc.map Prod.fst).Nodup) :
    (addHooks? doc).getD doc =
      qualified doc ++ if doc.contains hooksKey then [] else [(hooksKey, defaultHooks)] := by
  cases hg : doc.get? hooksKey with
  | none =>
    have hc : ¬ doc.contains hooksKey = true := by simp [Members.contains, hg]
    have hq : qualified doc = doc.map id := by
      refine List.map_congr_left fun m hm => ?_
      rw [if_neg]
      · rfl
      · intro hk
        exact hc (contains_iff.mpr (hk ▸ List.mem_map_of_mem hm))
    rw [if_neg hc, hq, List.map_id, addHooks?, hg]
    exact Members.set_of_not_mem (mt contains_iff.mpr hc)
  | some hooks =>
    have hc : doc.contains hooksKey = true := by simp [Members.contains, hg]
    rw [if_pos hc, List.append_nil, qualified_of_get? hn hg]
    rcases hq : qualifyHooks hooks with ⟨hooks', n⟩
    cases n with
    | zero =>
      have hid := idle_qualifyHooks hooks (by rw [hq])
      rw [hq] at hid
      simp only [addHooks?, hg, hq]
      exact (map_eq_self hn fun v hv => by
        rw [hg, Option.some.injEq] at hv
        exact hid.trans hv).symm
    | succ n =>
      simp only [addHooks?, hg, hq]
      exact set_of_mem hn (contains_iff.mp hc)

theorem patch_eq (hn : (doc.map Prod.fst).Nodup) :
    (addHooks? ((addStatusLine? doc).getD doc)).getD ((addStatusLine? doc).getD doc) = patched doc := by
  by_cases hc : doc.contains statusLineKey = true
  · have hd : (addStatusLine? doc).getD doc = doc := by rw [addStatusLine?, if_pos hc]; rfl
    rw [hd, patchHooks_eq hn, patched, if_pos hc, List.append_nil]
  · have hd : (addStatusLine? doc).getD doc = doc ++ [(statusLineKey, defaultStatusLine)] := by
      rw [addStatusLine?, if_neg hc]
      exact Members.set_of_not_mem (mt contains_iff.mpr hc)
    have hkeys : hooksKey ∈ (doc ++ [(statusLineKey, defaultStatusLine)]).map Prod.fst ↔
        hooksKey ∈ doc.map Prod.fst := by simp [hooksKey, statusLineKey]
    have hcontains : Members.contains (doc ++ [(statusLineKey, defaultStatusLine)]) hooksKey =
        doc.contains hooksKey := by
      rw [Bool.eq_iff_iff, contains_iff, contains_iff, hkeys]
    rw [hd, patchHooks_eq, patched, if_neg hc, hcontains]
    · simp [qualified, hooksKey, statusLineKey]
    · have := Members.nodup_set (k := statusLineKey) (v := defaultStatusLine) hn
      rwa [Members.set_of_not_mem (mt contains_iff.mpr hc)] at this

theorem isCurrent_iff :
    isCurrent doc = true ↔ addStatusLine? doc = none ∧ addHooks? doc = none := by
  have hstatus : addStatusLine? doc = none ↔ doc.contains statusLineKey = true := by
    rw [addStatusLine?]
    split <;> simp [*]
  have hhooks : addHooks? doc = none ↔
      ((doc.get? hooksKey).any fun hooks => (qualifyHooks hooks).2 = 0) = true := by
    unfold addHooks?
    cases doc.get? hooksKey with
    | none => simp
    | some hooks =>
      rcases hq : qualifyHooks hooks with ⟨hooks', n⟩
      cases n <;> simp [hq]
  rw [hstatus, hhooks, isCurrent, Bool.and_eq_true]

/-! ## What both merges write is read back -/

theorem holds_of_read {text : String} (h : Json.read? text = some (.obj doc)) : Reader.Holds maxDepth 0 doc :=
  Reader.holds_of_sits (sits_of_read? h)

/-- A document that has room is read back, but for its floating-point numbers. -/
theorem read_render (h : Reader.Holds maxDepth 0 doc) :
    Json.read? (render doc) = some (.obj (echoMembers doc)) :=
  read?_pretty h.sits.1 h.sits.2

theorem readable_of_holds (h : Reader.Holds maxDepth 0 doc) : Json.read? (render doc) ≠ none := by
  rw [read_render h]
  exact Option.some_ne_none _

theorem holds_addStatusLine {doc' : Document} (h : Reader.Holds maxDepth 0 doc)
    (hd : addStatusLine? doc = some doc') : Reader.Holds maxDepth 0 doc' := by
  rw [addStatusLine?] at hd
  split at hd
  · cases hd
  · cases hd
    exact h.set ⟨by decide, by decide⟩

theorem holds_statusLine : Reader.Holds maxDepth 0 [(statusLineKey, defaultStatusLine)] :=
  have hempty : Reader.Holds maxDepth 0 [] := ⟨by decide, List.nodup_nil, by simp⟩
  holds_addStatusLine hempty rfl

theorem holds_addHooks {doc' : Document} (h : Reader.Holds maxDepth 0 doc)
    (hd : addHooks? doc = some doc') : Reader.Holds maxDepth 0 doc' := by
  unfold addHooks? at hd
  split at hd
  · cases hd
    exact h.set ⟨by decide, by decide⟩
  · next hooks hg =>
    split at hd
    · cases hd
    · next hooks' n _ hq =>
      cases hd
      obtain ⟨hdepth, hkept⟩ := tame_qualifyHooks hooks
      rw [hq] at hdepth hkept
      obtain ⟨hr, hd⟩ := h.2.2 _ (mem_of_get? hg)
      refine h.set ⟨hkept _ shallow_isRegular hr, ?_⟩
      rw [hdepth]
      exact hd

theorem floatFree_set (h : (Json.obj doc).every isFloatFree = true) (hv : v.every isFloatFree = true) :
    (Json.obj (doc.set k v)).every isFloatFree = true := by
  rw [every, Bool.and_eq_true, everyMember_iff] at h ⊢
  refine ⟨rfl, fun m hm => ?_⟩
  rcases Members.mem_set hm with rfl | hm
  · exact hv
  · exact h.2 m hm

/-- A document without floating-point numbers that can be written and read back. -/
def Sturdy (doc : Document) : Prop :=
  (Json.obj doc).every isFloatFree = true ∧ Reader.Holds maxDepth 0 doc

theorem Sturdy.read (h : Sturdy doc) : Json.read? (render doc) = some (.obj doc) := by
  rw [read_render h.2]
  exact congrArg some (echo_of_floatFree (.obj doc) h.1 h.2.sits.1)

theorem Sturdy.of_read {text : String} (h : Json.read? text = some (.obj doc))
    (hf : (Json.obj doc).every isFloatFree = true) : Sturdy doc :=
  ⟨hf, holds_of_read h⟩

theorem Sturdy.addStatusLine {doc' : Document} (h : Sturdy doc) (hd : addStatusLine? doc = some doc') :
    Sturdy doc' := by
  refine ⟨?_, holds_addStatusLine h.2 hd⟩
  rw [addStatusLine?] at hd
  split at hd
  · cases hd
  · cases hd
    exact floatFree_set h.1 (by decide)

theorem Sturdy.addHooks {doc' : Document} (h : Sturdy doc) (hd : addHooks? doc = some doc') :
    Sturdy doc' := by
  refine ⟨?_, holds_addHooks h.2 hd⟩
  unfold addHooks? at hd
  split at hd
  · cases hd
    exact floatFree_set h.1 (by decide)
  · next hooks hg =>
    split at hd
    · cases hd
    · next hooks' n _ hq =>
      cases hd
      obtain ⟨-, hkept⟩ := tame_qualifyHooks hooks
      rw [hq] at hkept
      have hdoc := h.1
      rw [every, Bool.and_eq_true, everyMember_iff] at hdoc
      exact floatFree_set h.1 (hkept _ shallow_isFloatFree (hdoc.2 _ (mem_of_get? hg)))

/-! ## Both merges -/

/-- A new version of the settings can be prepared beside them: its path is one that the system
takes, and nothing stands there but perhaps a file that its owner may read and write. -/
def Unobstructed (d : Disk) (root : Path) : Prop :=
  d.Admits (Layout.staging (Layout.settings root)) ∧
    ∀ s, d.top.shape? (d.place (Layout.staging (Layout.settings root))) = some s →
      ∃ c m t, s = .file c m t ∧ isReadable m = true ∧ isWritable m = true

variable {d : Disk} {root : Path}

/-- The settings are read as a document. -/
def Shows (d : Disk) (root : Path) (doc : Document) : Prop :=
  ∃ text, d.readText (Layout.settings root) = .ok text ∧ Json.read? text = some (.obj doc)

theorem of_read_ok {file : Path} {d' : Disk} (h : (read file).on d = (.ok doc, d')) :
    d' = d ∧ ∃ text, d.readText file = .ok text ∧ Json.read? text = some (.obj doc) := by
  unfold read at h
  obtain ⟨text, d₁, ht, hparse⟩ := of_on_bind_ok h
  obtain ⟨ht, rfl⟩ := of_on_fetch_ok ht
  unfold parse at hparse
  split at hparse
  · next hd =>
    split at hd
    · cases hd
    · next hread =>
      cases hd
      cases hparse
      exact ⟨rfl, text, ht, hread⟩
    · cases hd
  · cases hparse

theorem shows_iff : Shows d root doc ↔ ((read (Layout.settings root)).on d).1 = .ok doc := by
  constructor
  · rintro ⟨text, ht, hd⟩
    rw [read_of_text ht hd]
  · intro h
    exact (of_read_ok (Prod.ext h rfl)).2

theorem ready_of_shows (hp : d.top.isPlain = true) (hu : Unobstructed d root) (hd : Shows d root doc) :
    Ready d root := by
  have hl := Node.linkFree_of_isPlain hp
  obtain ⟨text, ht, -⟩ := hd
  obtain ⟨_, _, _, _, hf, -⟩ := readText_ok ht
  have hloc := find_ok_iff.mp hf
  have hname : ∀ s ∈ [Layout.assetsDirName], isName s = true := by decide
  refine ⟨hp, leads_of_locate_join hl Layout.isName_settings (by decide) hloc, ?_, hu.1, ?_⟩
  · have hdirs := dirs_of_locate hl hloc
    rw [show d.trail (Layout.settings root) = d.trail root ++ [Layout.assetsDirName, "settings.json"] from
      trail_join Layout.isName_settings (by decide)] at hdirs
    have hdir := hdirs (d.trail root ++ [Layout.assetsDirName]) (by simp) (by simp)
    rwa [climb_below hname] at hdir
  · rw [← place_staging_settings]
    exact hu.2

/-- One merge: the settings are saved if the patch makes another document of them. -/
theorem Patches.saved {x : Action Outcome} {f : Document → Option Document} (hx : Patches x f root)
    (h : Ready d root) (hd : Shows d root doc)
    (hf : ∀ doc', f doc = some doc' → Json.read? (render doc') ≠ none) :
    ∃ o d', x.on d = (.ok o, d') ∧ Ready d' root ∧ (f doc = none → d' = d) ∧
      ∀ doc', f doc = some doc' → Saved d' root doc' := by
  obtain ⟨text, ht, hread⟩ := hd
  have hrun := hx d text doc h ht hread
  cases hdoc : f doc with
  | none =>
    rw [hdoc] at hrun
    obtain ⟨o, hrun⟩ := hrun
    exact ⟨o, d, hrun, h, fun _ => rfl, by simp⟩
  | some doc' =>
    rw [hdoc] at hrun
    obtain ⟨o, d', hrun, hs⟩ := hrun (hf doc' hdoc)
    refine ⟨o, d', hrun, hs.ready, by simp, ?_⟩
    rintro _ ⟨⟩
    exact hs

/-- The settings show the patched document, if that is read back as it was. -/
theorem Patches.run {x : Action Outcome} {f : Document → Option Document} (hx : Patches x f root)
    (h : Ready d root) (hd : Shows d root doc)
    (hf : ∀ doc', f doc = some doc' → Json.read? (render doc') = some (.obj doc')) :
    ∃ o d', x.on d = (.ok o, d') ∧ Ready d' root ∧ Shows d' root ((f doc).getD doc) ∧
      (f doc = none → d' = d) ∧ ∀ doc', f doc = some doc' → Saved d' root doc' := by
  obtain ⟨o, d', hrun, hr, hidle, hsaved⟩ := hx.saved h hd fun doc' hdoc => by simp [hf doc' hdoc]
  refine ⟨o, d', hrun, hr, ?_, hidle, hsaved⟩
  cases hdoc : f doc with
  | none => exact hidle hdoc ▸ hd
  | some doc' => exact ⟨_, (hsaved doc' hdoc).readText, hf doc' hdoc⟩

/-- Both merges succeed and make of the settings what `patched` says, which is read back. If
there was nothing to do, the settings are as they were; otherwise they are written anew. -/
theorem merges_patch_settings (d : Disk) (root : Path) (doc : Document) (clock : Nat)
    (hp : d.top.isPlain = true) (hread : ((read (Layout.settings root)).on d).1 = .ok doc)
    (hfloat : (Json.obj doc).every isFloatFree = true) (hu : Unobstructed d root) :
    ∃ s h d₁ d₂, (mergeStatusLine root).on d = (.ok s, d₁) ∧
      (mergeHooks root).on { d₁ with clock := clock } = (.ok h, d₂) ∧
      ((read (Layout.settings root)).on d₂).1 = .ok (patched doc) ∧
      if isCurrent doc then d₂.top = d.top
      else d₂.readBytes (Layout.settings root) = .ok (render (patched doc)).toUTF8 ∧
        d₂.top.shape? (d₂.place (Layout.staging (Layout.settings root))) = none := by
  have hshows := shows_iff.mpr hread
  have hsturdy : Sturdy doc := by
    obtain ⟨text, -, hd⟩ := hshows
    exact .of_read hd hfloat
  obtain ⟨s, d₁, hrun₁, hready₁, hshows₁, hidle₁, hsaved₁⟩ :=
    patches_mergeStatusLine.run (ready_of_shows hp hu hshows) hshows fun _ h => (hsturdy.addStatusLine h).read
  -- The clock is read for the name of the backup only.
  have hready : Ready { d₁ with clock := clock } root :=
    ⟨hready₁.plain, hready₁.leads, hready₁.assets, hready₁.admits, hready₁.free⟩
  have hsturdy₁ : Sturdy ((addStatusLine? doc).getD doc) := by
    cases hdoc : addStatusLine? doc with
    | none => exact hsturdy
    | some doc' => exact hsturdy.addStatusLine hdoc
  obtain ⟨h, d₂, hrun₂, -, hshows₂, hidle₂, hsaved₂⟩ :=
    patches_mergeHooks.run hready hshows₁ fun _ h => (hsturdy₁.addHooks h).read
  refine ⟨s, h, d₁, d₂, hrun₁, hrun₂, ?_, ?_⟩
  · rw [← patch_eq hsturdy.2.2.1]
    exact shows_iff.mp hshows₂
  · have hpatched := patch_eq hsturdy.2.2.1
    split
    · next hc =>
      obtain ⟨hs, hh⟩ := isCurrent_iff.mp hc
      rw [hs, Option.getD_none] at hidle₂
      rw [hidle₂ hh, hidle₁ hs]
    · next hc =>
      cases hh : addHooks? ((addStatusLine? doc).getD doc) with
      | some doc₂ =>
        rw [hh, Option.getD_some] at hpatched
        have hsaved := hsaved₂ doc₂ hh
        rw [← hpatched, place_staging_settings]
        exact ⟨hsaved.bytes, hsaved.gone⟩
      | none =>
        cases hs : addStatusLine? doc with
        | none =>
          rw [hs, Option.getD_none] at hh
          exact absurd (isCurrent_iff.mpr ⟨hs, hh⟩) hc
        | some doc₁ =>
          rw [hh, hs, Option.getD_none, Option.getD_some] at hpatched
          have hsaved := hsaved₁ doc₁ hs
          rw [← hpatched, hidle₂ hh, place_staging_settings]
          exact ⟨hsaved.bytes, hsaved.gone⟩

/-- A project with hooks that are not qualified and a stale version beside its settings, which
may not be written. -/
def seasoned : Disk :=
  ⟨.dir ⟨0, false⟩
    [ (".claude", .dir ⟨0, false⟩
        [ ("settings.json", .file ("\x7b\"b\":\x7b\"é\":1,\"a\":[]\x7d,\"hooks\":\x7b\"Stop\":[\x7b\"hooks\":[" ++
            "\x7b\"command\":\".claude/x.sh\"\x7d]\x7d]\x7d\x7d").toUTF8 0o444 ⟨0, false⟩)
        , ("settings.json.tmp", .file "stale".toUTF8 0o600 ⟨0, false⟩) ]) ], [], 0⟩

/-- The settings of the project, by the command of its hook. -/
def seasonedSettings (command : String) : Document :=
  [ ("b", .obj [("é", .num (.int 1)), ("a", .arr [])])
  , ("hooks", .obj [("Stop", .arr [.obj [("hooks", .arr [.obj [("command", .str command)]])]])]) ]

theorem unobstructed_seasoned : Unobstructed seasoned (Path.ofText "/") := by
  refine ⟨⟨by decide, by decide⟩, fun s hs => ?_⟩
  have hfile : seasoned.top.shape? [".claude", "settings.json.tmp"] =
      some (.file "stale".toUTF8 0o600 ⟨0, false⟩) := rfl
  cases hfile.symm.trans hs
  exact ⟨_, _, _, rfl, by decide, by decide⟩

theorem merges_patch_seasoned :
    let root := Path.ofText "/"
    let doc := seasonedSettings ".claude/x.sh"
    let doc' := seasonedSettings "\"$CLAUDE_PROJECT_DIR\"/.claude/x.sh" ++
      [(statusLineKey, defaultStatusLine)]
    seasoned.top.isPlain = true ∧ ((read (Layout.settings root)).on seasoned).1 = .ok doc ∧
      (Json.obj doc).every isFloatFree = true ∧ Unobstructed seasoned root ∧
      ∃ s h d₁ d₂, (mergeStatusLine root).on seasoned = (.ok s, d₁) ∧
        (mergeHooks root).on { d₁ with clock := 7 } = (.ok h, d₂) ∧
        ((read (Layout.settings root)).on d₂).1 = .ok doc' ∧
        d₂.readBytes (Layout.settings root) = .ok (render doc').toUTF8 := by
  intro root doc doc'
  have hp : seasoned.top.isPlain = true := by decide +kernel
  have hread : ((read (Layout.settings root)).on seasoned).1 = .ok doc := rfl
  have hfloat : (Json.obj doc).every isFloatFree = true := rfl
  obtain ⟨s, h, d₁, d₂, hs, hh, hdoc, hbytes⟩ :=
    merges_patch_settings seasoned root doc 7 hp hread hfloat unobstructed_seasoned
  exact ⟨hp, hread, hfloat, unobstructed_seasoned, s, h, d₁, d₂, hs, hh, hdoc, hbytes.1⟩

/-- A project with a stale version of its settings that nobody may write. -/
def clogged : Disk :=
  ⟨.dir ⟨0, false⟩
    [ (".claude", .dir ⟨0, false⟩
        [ ("settings.json", .file "\x7b\x7d".toUTF8 0o644 ⟨0, false⟩)
        , ("settings.json.tmp", .file "stale".toUTF8 0o444 ⟨0, false⟩) ]) ], [], 0⟩

/-- A file that may not be written, in the place of a new version, fails the first merge. -/
theorem clogged_fails_merge :
    let root := Path.ofText "/"
    clogged.top.isPlain = true ∧ ((read (Layout.settings root)).on clogged).1 = .ok [] ∧
      clogged.top.shape? [".claude", "settings.json.tmp"] = some (.file "stale".toUTF8 0o444 ⟨0, false⟩) ∧
      ((mergeStatusLine root).on clogged).1.isOk = false :=
  ⟨by decide +kernel, rfl, rfl, by decide +kernel⟩

end Outfitter.Settings
