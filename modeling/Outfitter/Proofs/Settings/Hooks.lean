import Mathlib.Data.List.Infix
import Outfitter.Proofs.Settings.RoundTrip
import Outfitter.Proofs.Settings.Settle

/-! # Hooks are qualified once

The commands of hooks stand at fixed depths below the hooks. Qualifying changes those of them that
name a script of the project, and nothing else in the value, and counts them. What was qualified is
left alone the next time, also by a later merge of the settings that a merge has saved.
-/

namespace Outfitter

/-! ## Paths into a value -/

namespace Json

/-- One step into a container: to an item, or to a member with a key. -/
inductive Step where
  | item (i : Nat)
  | member (i : Nat) (key : String)
  deriving DecidableEq, Repr

/-- The value at the end of a path. -/
def at? : Json → List Step → Option Json
  | v, [] => some v
  | .arr items, .item i :: path => items[i]?.bind (·.at? path)
  | .obj ms, .member i key :: path => ms[i]?.bind fun m => if m.1 = key then m.2.at? path else none
  | _, _ :: _ => none

/-- A value without what is below it. -/
inductive Head where
  | null
  | bool (b : Bool)
  | num (n : Number)
  | str (s : String)
  | arr (length : Nat)
  | obj (keys : List String)
  deriving DecidableEq, Repr

def head : Json → Head
  | null => .null
  | bool b => .bool b
  | num n => .num n
  | str s => .str s
  | arr items => .arr items.length
  | obj ms => .obj (ms.map Prod.fst)

@[simp] theorem at?_nil (v : Json) : v.at? [] = some v := by
  cases v <;> rfl

theorem at?_str (s : String) (step : Step) (path : List Step) : (str s).at? (step :: path) = none := by
  cases step <;> rfl

theorem at?_item (items : List Json) (i : Nat) (path : List Step) :
    (arr items).at? (.item i :: path) = items[i]?.bind (·.at? path) := rfl

theorem at?_member (ms : Members) (i : Nat) (key : String) (path : List Step) :
    (obj ms).at? (.member i key :: path) = ms[i]?.bind fun m => if m.1 = key then m.2.at? path else none := rfl

end Json

namespace Settings

open Disk Action Files Json

/-! ## Counting paths -/

/-- Exactly so many paths are of some kind. -/
def Counts (n : Nat) (P : List Step → Prop) : Prop :=
  ∃ paths : List (List Step), paths.Nodup ∧ (∀ path, path ∈ paths ↔ P path) ∧ n = paths.length

namespace Counts

variable {n m : Nat} {P Q : List Step → Prop}

theorem congr (h : Counts n P) (hp : ∀ path, P path ↔ Q path) : Counts n Q := by
  obtain ⟨paths, hn, hmem, hlen⟩ := h
  exact ⟨paths, hn, fun path => (hmem path).trans (hp path), hlen⟩

theorem none (h : ∀ path, ¬ P path) : Counts 0 P :=
  ⟨[], List.nodup_nil, fun path => by simp [h path], rfl⟩

theorem one (path : List Step) : Counts 1 (· = path) :=
  ⟨[path], by simp, by simp, rfl⟩

theorem below (step : Step) (h : Counts n P) : Counts n fun path => ∃ rest, path = step :: rest ∧ P rest := by
  obtain ⟨paths, hn, hmem, hlen⟩ := h
  refine ⟨paths.map (step :: ·), hn.map (List.cons_injective), fun path => ?_, by simpa using hlen⟩
  simp only [List.mem_map, hmem]
  exact ⟨fun ⟨rest, hr, he⟩ => ⟨rest, he.symm, hr⟩, fun ⟨rest, he, hr⟩ => ⟨rest, hr, he.symm⟩⟩

theorem add (h : Counts n P) (h' : Counts m Q) (hd : ∀ path, P path → ¬ Q path) :
    Counts (n + m) fun path => P path ∨ Q path := by
  obtain ⟨paths, hn, hmem, hlen⟩ := h
  obtain ⟨paths', hn', hmem', hlen'⟩ := h'
  refine ⟨paths ++ paths', hn.append hn' ?_, fun path => by rw [List.mem_append, hmem, hmem'], by simp [hlen, hlen']⟩
  intro path hp hp'
  exact hd path ((hmem path).mp hp) ((hmem' path).mp hp')

end Counts

/-! ## Recognised commands -/

/-- A command names a script of the project, and not through the variable. -/
def Recognised (c : String) : Prop :=
  ".claude/".toList <+: c.toList ∧ ¬ "$CLAUDE_PROJECT_DIR".toList <:+: c.toList

instance (c : String) : Decidable (Recognised c) := inferInstanceAs (Decidable (_ ∧ _))

theorem qualify?_eq (c : String) : qualify? c = if Recognised c then some (projectPrefix ++ c) else none := by
  have hvar : occursIn projectVariable c = true ↔ "$CLAUDE_PROJECT_DIR".toList <:+: c.toList := isInfix_iff
  have hstart : startsWith ".claude/" c = true ↔ ".claude/".toList <+: c.toList := List.isPrefixOf_iff_prefix
  rw [qualify?]
  by_cases h : Recognised c
  · rw [if_pos h, if_neg]
    rw [Bool.or_eq_true, hvar, Bool.not_eq_true', ← Bool.not_eq_true, hstart]
    exact not_or.mpr ⟨h.2, not_not.mpr h.1⟩
  · rw [if_neg h, if_pos]
    rw [Bool.or_eq_true, hvar, Bool.not_eq_true', ← Bool.not_eq_true, hstart]
    exact (not_and_or.mp h).symm.imp_left not_not.mp

/-- What stands at a path once the commands that are focused on are qualified. -/
def rewritten (focus : List Step → Bool) (path : List Step) : Json → Head
  | .str c => if focus path = true ∧ Recognised c then .str (projectPrefix ++ c) else .str c
  | v => v.head

/-- A path leads to a command to qualify. -/
def Marked (focus : List Step → Bool) (v : Json) (path : List Step) : Prop :=
  focus path = true ∧ ∃ c, v.at? path = some (.str c) ∧ Recognised c

/-- A map qualifies the commands at some paths, leaves all else as it is, and counts them. -/
structure Focuses (f : Json → Json × Nat) (focus : List Step → Bool) : Prop where
  head : ∀ v path, ((f v).1.at? path).map Json.head = (v.at? path).map (rewritten focus path)
  count : ∀ v, Counts (f v).2 (Marked focus v)

theorem rewritten_of_not {focus : List Step → Bool} {path : List Step} (h : focus path = false) (v : Json) :
    rewritten focus path v = v.head := by
  cases v with
  | str c => rw [rewritten, if_neg (by simp [h])]; rfl
  | _ => rfl

section Maps

variable {f : Json → Json × Nat} {focus : List Step → Bool} {v : Json} {path : List Step}

/-- The commands to qualify are the only values that change. -/
theorem marked_iff : Marked focus v path ↔ (v.at? path).map (rewritten focus path) ≠ (v.at? path).map Json.head := by
  constructor
  · rintro ⟨hf, c, hc, hr⟩ he
    rw [hc, Option.map_some, Option.map_some, rewritten, if_pos ⟨hf, hr⟩] at he
    have hlen := congrArg (·.toList.length) (Head.str.inj (Option.some.inj he))
    simp [String.toList_append, show projectPrefix.toList.length = 22 by decide] at hlen
  · intro hne
    cases hv : v.at? path with
    | none => exact absurd (by rw [hv]; rfl) hne
    | some w =>
      rw [hv, Option.map_some, Option.map_some] at hne
      cases w with
      | str c =>
        by_cases h : focus path = true ∧ Recognised c
        · exact ⟨h.1, c, hv, h.2⟩
        · exact absurd (by rw [rewritten, if_neg h]; rfl) hne
      | _ => exact absurd rfl hne

/-- Where no focused path leads anywhere, a value stays. -/
theorem head_stays (h : focus path = true → v.at? path = none) :
    (v.at? path).map Json.head = (v.at? path).map (rewritten focus path) := by
  cases hf : focus path with
  | false => exact congrArg (Option.map · _) (funext fun w => (rewritten_of_not hf w).symm)
  | true => rw [h hf]; rfl

theorem count_stays (h : ∀ path, focus path = true → v.at? path = none) : Counts 0 (Marked focus v) := by
  refine .none fun path ⟨hf, c, hc, _⟩ => ?_
  rw [h path hf] at hc
  cases hc

def isHere : List Step → Bool
  | [] => true
  | _ :: _ => false

def inItems (focus : List Step → Bool) : List Step → Bool
  | .item _ :: path => focus path
  | _ => false

def inMembers (focus : String → List Step → Bool) : List Step → Bool
  | .member _ key :: path => focus key path
  | _ => false

theorem inItems_eq_true (h : inItems focus path = true) : ∃ i rest, path = .item i :: rest ∧ focus rest = true := by
  unfold inItems at h
  split at h
  · exact ⟨_, _, rfl, h⟩
  · cases h

theorem inMembers_eq_true {sub : String → List Step → Bool} (h : inMembers sub path = true) :
    ∃ i key rest, path = .member i key :: rest ∧ sub key rest = true := by
  unfold inMembers at h
  split at h
  · exact ⟨_, _, _, rfl, h⟩
  · cases h

theorem marked_inItems {items : List Json} : Marked (inItems focus) (arr items) path ↔
    ∃ i x rest, items[i]? = some x ∧ path = .item i :: rest ∧ Marked focus x rest := by
  constructor
  · rintro ⟨hf, c, hc, hr⟩
    obtain ⟨i, rest, rfl, hf⟩ := inItems_eq_true hf
    obtain ⟨x, hx, hc⟩ := Option.bind_eq_some_iff.mp hc
    exact ⟨i, x, rest, hx, rfl, hf, c, hc, hr⟩
  · rintro ⟨i, x, rest, hx, rfl, hf, c, hc, hr⟩
    refine ⟨hf, c, ?_, hr⟩
    rw [at?_item, hx]
    exact hc

theorem marked_inMembers {sub : String → List Step → Bool} {ms : Members} :
    Marked (inMembers sub) (obj ms) path ↔
      ∃ i m rest, ms[i]? = some m ∧ path = .member i m.1 :: rest ∧ Marked (sub m.1) m.2 rest := by
  constructor
  · rintro ⟨hf, c, hc, hr⟩
    obtain ⟨i, key, rest, rfl, hf⟩ := inMembers_eq_true hf
    obtain ⟨m, hm, hat⟩ := Option.bind_eq_some_iff.mp hc
    split at hat
    · next hk =>
      subst hk
      exact ⟨i, m, rest, hm, rfl, hf, c, hat, hr⟩
    · cases hat
  · rintro ⟨i, m, rest, hm, rfl, hf, c, hc, hr⟩
    refine ⟨hf, c, ?_, hr⟩
    rw [at?_member, hm, Option.bind_some, if_pos rfl]
    exact hc

theorem marked_isHere : Marked isHere v path ↔ path = [] ∧ ∃ c, v = .str c ∧ Recognised c := by
  cases path with
  | nil => simp [Marked, isHere]
  | cons step path => simp [Marked, isHere]

theorem focuses_qualifyString : Focuses qualifyString isHere where
  head := by
    intro v path
    cases path with
    | nil =>
      cases v with
      | str c =>
        rw [qualifyString, qualify?_eq]
        by_cases hc : Recognised c <;> simp [hc, rewritten, isHere, Json.head]
      | _ => rfl
    | cons step path =>
      cases v with
      | str c =>
        rw [qualifyString]
        split <;> simp only [at?_str, Option.map_none]
      | _ => exact head_stays (by simp [isHere])
  count := by
    intro v
    cases v with
    | str c =>
      rw [qualifyString, qualify?_eq]
      by_cases hc : Recognised c
      · rw [if_pos hc]
        exact (Counts.one []).congr fun path => by simp [marked_isHere, hc]
      · rw [if_neg hc]
        exact .none fun path => by simp [marked_isHere, hc]
    | _ => exact .none fun path => by simp [marked_isHere]

/-- The paths below some values, each after a step of its own, are counted value by value. -/
theorem counts_sumMap {α : Type} {g : α → α × Nat} (step : Nat → α → Step) {good : α → List Step → Prop}
    (hstep : ∀ i j x y, step i x = step j y → i = j) (hg : ∀ x, Counts (g x).2 (good x)) (xs : List α) (start : Nat) :
    Counts (sumMap g xs).2 fun path =>
      ∃ i x rest, xs[i]? = some x ∧ path = step (start + i) x :: rest ∧ good x rest := by
  induction xs generalizing start with
  | nil => exact .none (by simp)
  | cons x xs ih =>
    refine (((hg x).below (step start x)).add (ih (start + 1)) ?_).congr fun path => ?_
    · rintro path ⟨rest, rfl, -⟩ ⟨i, y, rest', -, he, -⟩
      have := hstep _ _ _ _ (List.cons.inj he).1
      omega
    · constructor
      · rintro (⟨rest, rfl, hgood⟩ | ⟨i, y, rest, hy, rfl, hgood⟩)
        · exact ⟨0, x, rest, rfl, rfl, hgood⟩
        · exact ⟨i + 1, y, rest, hy, by rw [Nat.add_assoc, Nat.add_comm 1 i], hgood⟩
      · rintro ⟨i, y, rest, hy, rfl, hgood⟩
        cases i with
        | zero =>
          cases hy
          exact Or.inl ⟨rest, rfl, hgood⟩
        | succ i => exact Or.inr ⟨i, y, rest, hy, by rw [Nat.add_assoc, Nat.add_comm 1 i], hgood⟩

theorem focuses_atItems (hf : Focuses f focus) : Focuses (atItems f) (inItems focus) where
  head := by
    intro v path
    cases v with
    | arr items =>
      cases path with
      | nil => simp [atItems, sumMap, rewritten, Json.head]
      | cons step path =>
        cases step with
        | member i key => rfl
        | item i =>
          have hrest : rewritten (inItems focus) (.item i :: path) = rewritten focus path := rfl
          rw [atItems, at?_item, at?_item, sumMap, List.getElem?_map, hrest]
          cases items[i]? with
          | none => rfl
          | some x => exact hf.head x path
    | _ =>
      refine head_stays fun h => ?_
      obtain ⟨i, rest, rfl, -⟩ := inItems_eq_true h
      rfl
  count := by
    intro v
    cases v with
    | arr items =>
      refine (counts_sumMap (fun i _ => .item i) (fun i j _ _ h => by simpa using h) hf.count items 0).congr
        fun path => ?_
      simp only [Nat.zero_add, marked_inItems]
    | _ =>
      refine count_stays fun path h => ?_
      obtain ⟨i, rest, rfl, -⟩ := inItems_eq_true h
      rfl

/-- A map of the members of an object that keeps their keys. -/
theorem focuses_members {g : String × Json → (String × Json) × Nat} {sub : String → List Step → Bool}
    (hkey : ∀ m, (g m).1.1 = m.1)
    (hhead : ∀ m path, ((g m).1.2.at? path).map Json.head = (m.2.at? path).map (rewritten (sub m.1) path))
    (hcount : ∀ m, Counts (g m).2 (Marked (sub m.1) m.2)) (ms : Members) :
    (∀ path, ((obj (sumMap g ms).1).at? path).map Json.head =
        ((obj ms).at? path).map (rewritten (inMembers sub) path)) ∧
      Counts (sumMap g ms).2 (Marked (inMembers sub) (obj ms)) := by
  constructor
  · intro path
    cases path with
    | nil => simp [sumMap, rewritten, Json.head, Function.comp_def, hkey]
    | cons step path =>
      cases step with
      | item i => rfl
      | member i key =>
        have hrest : rewritten (inMembers sub) (.member i key :: path) = rewritten (sub key) path := rfl
        rw [at?_member, at?_member, sumMap, List.getElem?_map, hrest]
        cases ms[i]? with
        | none => rfl
        | some m =>
          simp only [Option.map_some, Option.bind_some, hkey]
          by_cases hm : m.1 = key
          · rw [if_pos hm, if_pos hm, ← hm]
            exact hhead m path
          · rw [if_neg hm, if_neg hm]
            rfl
  · refine (counts_sumMap (fun i m => .member i m.1) (fun i j _ _ h => (Step.member.inj h).1) hcount ms 0).congr
      fun path => ?_
    simp only [Nat.zero_add, marked_inMembers]

/-- A map of objects that maps their members. -/
theorem focuses_obj {g : String × Json → (String × Json) × Nat} {sub : String → List Step → Bool}
    (hobj : ∀ ms, f (.obj ms) = (.obj (sumMap g ms).1, (sumMap g ms).2))
    (hother : ∀ v, (∀ ms, v ≠ .obj ms) → f v = (v, 0)) (hkey : ∀ m, (g m).1.1 = m.1)
    (hhead : ∀ m path, ((g m).1.2.at? path).map Json.head = (m.2.at? path).map (rewritten (sub m.1) path))
    (hcount : ∀ m, Counts (g m).2 (Marked (sub m.1) m.2)) : Focuses f (inMembers sub) := by
  have hstays : ∀ (v : Json) (path : List Step), (∀ ms, v ≠ .obj ms) → inMembers sub path = true → v.at? path = none := by
    intro v path hv h
    obtain ⟨i, key, rest, rfl, -⟩ := inMembers_eq_true h
    cases v with
    | obj ms => exact absurd rfl (hv ms)
    | _ => rfl
  constructor
  · intro v path
    by_cases hv : ∃ ms, v = .obj ms
    · obtain ⟨ms, rfl⟩ := hv
      rw [hobj]
      exact (focuses_members hkey hhead hcount ms).1 path
    · rw [hother v (not_exists.mp hv)]
      exact head_stays (hstays v path (not_exists.mp hv))
  · intro v
    by_cases hv : ∃ ms, v = .obj ms
    · obtain ⟨ms, rfl⟩ := hv
      rw [hobj]
      exact (focuses_members hkey hhead hcount ms).2
    · rw [hother v (not_exists.mp hv)]
      exact count_stays fun path => hstays v path (not_exists.mp hv)

theorem focuses_atValues (hf : Focuses f focus) : Focuses (atValues f) (inMembers fun _ => focus) := by
  refine focuses_obj (fun _ => rfl) (fun v hv => ?_) (fun _ => rfl) (fun m => hf.head m.2) fun m => hf.count m.2
  cases v with
  | obj ms => exact absurd rfl (hv ms)
  | _ => rfl

theorem focuses_atKey (key : String) (hf : Focuses f focus) :
    Focuses (atKey key f) (inMembers fun k path => k = key && focus path) := by
  refine focuses_obj (fun _ => rfl) (fun v hv => ?_) (fun m => ?_) (fun m path => ?_) fun m => ?_
  · cases v with
    | obj ms => exact absurd rfl (hv ms)
    | _ => rfl
  · by_cases hm : m.1 = key <;> simp [hm]
  · by_cases hm : m.1 = key
    · simpa [hm] using hf.head m.2 path
    · simp only [if_neg hm]
      exact head_stays (by simp [hm])
  · by_cases hm : m.1 = key
    · simpa [hm] using hf.count m.2
    · simp only [if_neg hm]
      exact count_stays (by simp [hm])

/-- The path of a command: an event, one of its matchers, its hooks, one of them, its command. -/
def isCommand : List Step → Bool
  | [.member _ _, .item _, .member _ hooks, .item _, .member _ command] => hooks = "hooks" && command = "command"
  | _ => false

theorem focuses_qualifyHooks : Focuses qualifyHooks isCommand := by
  have hfocus := focuses_atValues (focuses_atItems (focuses_atKey "hooks"
    (focuses_atItems (focuses_atKey "command" focuses_qualifyString))))
  have heq : isCommand = inMembers fun _ => inItems (inMembers fun k path => k = "hooks" &&
      inItems (inMembers fun k path => k = "command" && isHere path) path) := by
    refine funext fun path => Bool.eq_iff_iff.mpr ⟨fun h => ?_, fun h => ?_⟩
    · unfold isCommand at h
      split at h
      · simpa [inMembers, inItems, isHere] using h
      · cases h
    · obtain ⟨_, _, _, rfl, h₁⟩ := inMembers_eq_true h
      obtain ⟨_, _, rfl, h₂⟩ := inItems_eq_true h₁
      obtain ⟨_, hooks, _, rfl, h₃⟩ := inMembers_eq_true h₂
      obtain ⟨hhooks, h₃⟩ := Bool.and_eq_true_iff.mp h₃
      obtain ⟨_, _, rfl, h₄⟩ := inItems_eq_true h₃
      obtain ⟨_, command, path, rfl, h₅⟩ := inMembers_eq_true h₄
      obtain ⟨hcommand, hhere⟩ := Bool.and_eq_true_iff.mp h₅
      cases path with
      | nil => exact Bool.and_eq_true_iff.mpr ⟨hhooks, hcommand⟩
      | cons => cases hhere
  rw [heq]
  exact hfocus

end Maps

/-! ## Saved hooks -/

variable {d d' : Disk} {file staging root : Path} {doc : Document} {backup : Option Path} {above : List String}
  {name tmp : String}

/-- Nothing but a file, or nothing, is written to. -/
theorem place_of_write {bytes : ByteArray} {p : Path} (e : Entry d p above name)
    (hlink : ∀ target, d.top.at? (above ++ [name]) ≠ some (.link target)) (h : d.write p bytes = .ok d') :
    ∃ mode, Refiles (above ++ [name]) bytes mode d d' := by
  obtain ⟨spot, mode, hs, -, hre⟩ := write_refiles h
  have hplace : spot.place = above ++ [name] := by
    cases hat : d.top.at? (above ++ [name]) with
    | none =>
      rw [e.locate_vacant hat] at hs
      cases hs
      rfl
    | some n =>
      rw [e.locate_there hat (by rintro target rfl; exact hlink target hat)] at hs
      cases hs
      rfl
  exact ⟨mode, hplace ▸ hre⟩

/-- A document that was put in place over a file is what the file holds. -/
theorem readText_of_stage (e : Entry d file above name) (es : Entry d staging above tmp) (hne : tmp ≠ name)
    (hfile : ∃ c mode t, d.top.at? (above ++ [name]) = some (.file c mode t))
    (hlink : ∀ target, d.top.at? (above ++ [tmp]) ≠ some (.link target))
    (h : (stage file staging doc).on d = (.ok (), d')) : d'.readText file = .ok (render doc) := by
  obtain ⟨_, d₁, hwrite, hrest⟩ := of_on_bind_ok h
  obtain ⟨written, d₂, hfetch, hlast⟩ := of_on_bind_ok hrest
  obtain ⟨hread, rfl⟩ := of_on_fetch_ok hfetch
  have hrename : d₂.rename staging file = .ok d' := by
    split at hlast
    · cases hlast
    · exact of_on_change_ok hlast
  obtain ⟨mode, hre⟩ := place_of_write es hlink (of_on_change_ok hwrite)
  have e₂ := e.agrees hre.agrees
  have es₂ := es.agrees hre.agrees
  obtain ⟨c, mode', t, hat⟩ := hre.isFile hfile
  have hl := Node.loose_of_file hat
  rw [es₂.rename e₂ hne hre.file hl] at hrename
  cases hrename
  obtain ⟨hagree, hat'⟩ := e₂.renamed hre.file hl
  exact (e₂.agrees hagree).readText hat' (es₂.readable_of_readText hre.file hread)

/-- The settings are a file, and no link stands where a new version of them is prepared. -/
structure Steady (d : Disk) (root : Path) : Prop where
  file : ∃ place c mode t, d.locate false (Layout.settings root) = .ok (.there place (.file c mode t))
  unlinked : ∀ place target,
    d.locate false (Layout.staging (Layout.settings root)) ≠ .ok (.there place (.link target))

theorem Steady.entry (hs : Steady d root) :
    ∃ above, Entry d (Layout.settings root) above "settings.json" ∧
      ∃ c mode t, d.top.at? (above ++ ["settings.json"]) = some (.file c mode t) := by
  obtain ⟨place, c, mode, t, hlocate⟩ := hs.file
  obtain ⟨above, e, rfl⟩ := entry_of_settings hlocate
  exact ⟨above, e, c, mode, t, locate_sound hlocate⟩

theorem readText_of_saveOver (hs : Steady d root)
    (h : (saveOver (Layout.settings root) doc).on d = (.ok (), d')) :
    d'.readText (Layout.settings root) = .ok (render doc) := by
  obtain ⟨above, e, c, mode, t, hat⟩ := hs.entry
  obtain ⟨backup, d₁, hback, hwrite⟩ := of_on_bind_ok h
  have hkeeps : Agrees d d₁ ∧ ∃ c mode t, d₁.top.at? (above ++ ["settings.json"]) = some (.file c mode t) := by
    obtain ⟨_, _, hback', hagree, hfile⟩ := tryBackUp_agrees d (Layout.settings root)
    cases hback'.symm.trans hback
    exact ⟨hagree, hfile _ ⟨c, mode, t, hat⟩⟩
  have hstage := of_write_ok hwrite
  have htakes : takes (Layout.staging (Layout.settings root)) = true := by
    obtain ⟨_, _, hchange, -⟩ := of_on_bind_ok hstage
    obtain ⟨_, _, hspot, -⟩ := write_refiles (of_on_change_ok hchange)
    exact takes_of_locate hspot
  have hsibling : Layout.staging (Layout.settings root) =
      (Layout.settings root).withFileName "settings.json.tmp" := by
    rw [Layout.staging, Layout.fileName?_settings]
    rfl
  have es : Entry d (Layout.staging (Layout.settings root)) above "settings.json.tmp" := by
    rw [hsibling] at htakes ⊢
    exact e.withFileName (by decide) (by decide) htakes
  refine readText_of_stage (e.agrees hkeeps.1) (es.agrees hkeeps.1) (by decide) hkeeps.2 (fun target hlink => ?_) hstage
  have hlink := (hkeeps.1.link _ _).mp (Node.shape?_eq_link.mpr hlink)
  exact hs.unlinked _ target (es.locate_link (Node.shape?_eq_link.mp hlink))

/-- Settings whose hooks leave nothing to do are left alone. -/
theorem mergeHooks_unchanged {text : String} (ht : d.readText (Layout.settings root) = .ok text)
    (hd : Json.read? text = some (.obj doc)) (hnone : addHooks? doc = none) :
    (mergeHooks root).on d = (.ok .unchanged, d) := by
  rw [mergeHooks_eq, on_bind_ask, if_pos (isThere_of_readText ht), on_bind_ok (read_of_text ht hd)]
  obtain ⟨-, heq⟩ | ⟨doc', o, hsome, -⟩ := saveHooks_cases (Layout.settings root) doc
  · rw [heq, on_pure]
  · rw [hnone] at hsome
    cases hsome

/-- After a merge of hooks that went well, the settings leave the next one nothing to do. -/
theorem settled_of_mergeHooks {o : Outcome} (hs : Steady d root) (h : (mergeHooks root).on d = (.ok o, d')) :
    ∃ text doc, d'.readText (Layout.settings root) = .ok text ∧ Json.read? text = some (.obj doc) ∧
      addHooks? doc = none := by
  obtain ⟨above, e, c, mode, t, hat⟩ := hs.entry
  have hthere : d.isThere (Layout.settings root) = true := by
    rw [isThere, find_ok_iff.mpr (e.locate_there hat (by simp))]
    rfl
  rw [mergeHooks_eq, on_bind_ask, if_pos hthere] at h
  obtain ⟨doc, d₁, hread, hsave⟩ := of_on_bind_ok h
  obtain ⟨rfl, text, htext, hdoc⟩ := of_read_ok hread
  obtain ⟨hnone, heq⟩ | ⟨doc', o', hsome, -, heq⟩ := saveHooks_cases (Layout.settings root) doc
  · rw [heq] at hsave
    cases hsave
    exact ⟨text, doc, htext, hdoc, hnone⟩
  · rw [heq] at hsave
    obtain ⟨_, d₂, hover, hpure⟩ := of_on_bind_ok hsave
    cases hpure
    exact ⟨_, _, readText_of_saveOver hs hover, read_render (holds_addHooks (holds_of_read hdoc) hsome),
      addHooks?_settled hsome⟩

/-! ## Exactly once -/

/-- Qualifying changes the recognised commands of hooks, each once, and nothing else; a merge of hooks
that went well leaves the next one nothing to do. -/
theorem hooks_are_qualified_once :
    (∀ h : Json,
      let r := qualifyHooks h
      (∀ path, (r.1.at? path).map head = (h.at? path).map (rewritten isCommand path)) ∧
      Counts r.2 (fun path => (r.1.at? path).map head ≠ (h.at? path).map head) ∧
      qualifyHooks r.1 = (r.1, 0)) ∧
    ∀ (d : Disk) (root : Path) (o : Outcome) (d₁ : Disk), Steady d root → (mergeHooks root).on d = (.ok o, d₁) →
      ∀ clock, ∀ d₂ ∈ [{ d₁ with clock }, d₁.later clock], (mergeHooks root).on d₂ = (.ok .unchanged, d₂) := by
  constructor
  · intro h r
    have hhead := focuses_qualifyHooks.head h
    refine ⟨hhead, (focuses_qualifyHooks.count h).congr fun path => ?_, ?_⟩
    · rw [hhead path]
      exact marked_iff
    · have hzero := settles_qualifyHooks h
      exact Prod.ext (idle_qualifyHooks _ hzero) hzero
  · intro d root o d₁ hs hrun clock d₂ hd₂
    obtain ⟨text, doc, htext, hdoc, hnone⟩ := settled_of_mergeHooks hs hrun
    have htext₂ : d₂.readText (Layout.settings root) = .ok text := by
      simp only [List.mem_cons, List.not_mem_nil, or_false] at hd₂
      rcases hd₂ with rfl | rfl
      · exact htext
      · exact (readText_settled).trans htext
    exact mergeHooks_unchanged htext₂ hdoc hnone


/-- A project whose assets are reached through a link. -/
def hooked (content : ByteArray) : Disk :=
  ⟨.dir ⟨0, false⟩
    [ (".claude", .link ⟨["real"]⟩)
    , ("real", .dir ⟨0, false⟩ [("settings.json", .file content 0o644 ⟨0, false⟩)]) ], [], 0⟩

theorem steady_hooked (content : ByteArray) : Steady (hooked content) (Path.ofText "/") := by
  have hsettings : Layout.settings (Path.ofText "/") = ⟨["", ".claude", "settings.json"]⟩ := by decide +kernel
  have hstaging : Layout.staging ⟨["", ".claude", "settings.json"]⟩ = ⟨["", ".claude", "settings.json.tmp"]⟩ := by
    decide +kernel
  have hvacant : (hooked content).locate false ⟨["", ".claude", "settings.json.tmp"]⟩ =
      .ok (.vacant ["real"] "settings.json.tmp") := by
    rw [locate_eq_settle (by decide)]
    rfl
  constructor
  · rw [hsettings]
    exact ⟨["real", "settings.json"], content, 0o644, ⟨0, false⟩, by rw [locate_eq_settle (by decide)]; rfl⟩
  · rw [hsettings, hstaging, hvacant]
    simp

/-- Settings with one command to qualify. -/
def unqualified : String := "\x7b\"hooks\":\x7b\"\":[\x7b\"hooks\":[\x7b\"command\":\".claude/\"\x7d]\x7d]\x7d\x7d"

theorem hooked_is_qualified_once :
    Steady (hooked unqualified.toUTF8) (Path.ofText "/") ∧
      ∃ d₁, (mergeHooks (Path.ofText "/")).on (hooked unqualified.toUTF8) = (.ok (.qualified 1), d₁) ∧
        (mergeHooks (Path.ofText "/")).on (d₁.later 7) = (.ok .unchanged, d₁.later 7) := by
  have hrun : ((mergeHooks (Path.ofText "/")).on (hooked unqualified.toUTF8)).1 = .ok (.qualified 1) := by
    decide +kernel
  have hsteady := steady_hooked unqualified.toUTF8
  generalize hooked unqualified.toUTF8 = d at hrun hsteady ⊢
  rcases h : (mergeHooks (Path.ofText "/")).on d with ⟨o, d₁⟩
  rw [h] at hrun
  obtain rfl : o = .ok (.qualified 1) := hrun
  exact ⟨hsteady, d₁, rfl, hooks_are_qualified_once.2 d _ _ d₁ hsteady h 7 _ (by simp)⟩

end Settings

end Outfitter
