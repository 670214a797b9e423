import Outfitter.Proofs.Manifest

/-! # Exactly what ships

Which of the patterns of the manifest decide is not seen from the patterns: some exclude what
others include, and most exclude nothing that is included. What ships is said here without
patterns, for every text.
-/

namespace Outfitter

/-! ## Last segments -/

namespace Path

theorem getLast?_splitSlash_append (a b : String) :
    (splitSlash (a ++ "/" ++ b)).getLast? = (splitSlash b).getLast? := by
  rw [splitSlash_append, List.getLast?_append_of_ne_nil _ (splitSlash_ne_nil b)]

/-- The last segment is what follows the last slash. -/
theorem getLast?_splitSlash {s x : String} (hx : '/' ∉ x.toList) :
    (splitSlash s).getLast? = some x ↔ s = x ∨ ∃ a, s = a ++ "/" ++ x := by
  constructor
  · intro h
    by_cases hs : '/' ∈ s.toList
    · obtain ⟨b, a, hlist, hb⟩ := List.eq_append_cons_of_mem (List.mem_reverse.mpr hs)
      have hsplit : s = String.ofList a.reverse ++ "/" ++ String.ofList b.reverse := by
        apply String.toList_injective
        rw [← List.reverse_reverse s.toList, hlist]
        simp
      rw [hsplit, getLast?_splitSlash_append, splitSlash_of_no_slash (by simpa using hb)] at h
      obtain rfl : String.ofList b.reverse = x := Option.some.inj h
      exact Or.inr ⟨String.ofList a.reverse, hsplit⟩
    · rw [splitSlash_of_no_slash hs] at h
      exact Or.inl (Option.some.inj h)
  · rintro (rfl | ⟨a, rfl⟩)
    · rw [splitSlash_of_no_slash hx]
      rfl
    · rw [getLast?_splitSlash_append, splitSlash_of_no_slash hx]
      rfl

end Path

/-! ## Single patterns -/

namespace Matcher

open Glob

variable {s q : String}

theorem ofText_of_read {cs : List Char} {items : List Item} (h : s = String.ofList cs)
    (hr : readFrom .start none cs = some items) : ofText s = glob items := by
  rw [ofText, read?, Path.toList_literal h, hr]

theorem accepts_simple (hs : ∀ c ∈ s.toList, isSimple c = true) (hspaced : isSpaced s.toList = true) :
    (ofText s).accepts q = true ↔ Denotes (s.toList.map itemOf) q.toList := by
  have hread : ofText s = glob (s.toList.map itemOf) := by
    rw [ofText, read?, readFrom_simple rfl hs hspaced]
    rfl
  rw [hread, accepts, isMatch_iff_denotes (isAligned_simple hspaced)]
  intro h
  obtain ⟨c, -, hc⟩ := List.mem_map.mp (h ▸ List.mem_singleton_self Item.leading)
  unfold itemOf at hc
  split at hc <;> cases hc

/-- A pattern without a star accepts itself alone. -/
theorem accepts_starless (hs : ∀ c ∈ s.toList, isSimple c = true) (hstar : '*' ∉ s.toList) :
    (ofText s).accepts q = true ↔ q = s := by
  rw [accepts_simple hs (isSpaced_of_not_mem hstar), map_itemOf hstar, ← List.append_nil (s.toList.map _),
    denotes_literals]
  simp [Denotes, String.toList_inj]

/-- A star stands for any text within a segment. -/
theorem accepts_starred {a b : String} (h : s = a ++ "*" ++ b) (hs : ∀ c ∈ s.toList, isSimple c = true)
    (ha : '*' ∉ a.toList) (hb : '*' ∉ b.toList) :
    (ofText s).accepts q = true ↔ ∃ t : String, '/' ∉ t.toList ∧ q = a ++ t ++ b := by
  have hlist : s.toList = a.toList ++ '*' :: b.toList := by rw [h]; simp
  have hitems : s.toList.map itemOf = a.toList.map .literal ++ .star :: (b.toList.map .literal ++ []) := by
    rw [hlist, List.map_append, List.map_cons, map_itemOf ha, map_itemOf hb, List.append_nil]
    rfl
  rw [accepts_simple hs (by rw [hlist]; exact isSpaced_star ha hb), hitems, denotes_literals]
  simp only [Denotes, denotes_literals]
  constructor
  · rintro ⟨_, hq, t, _, rfl, ht, _, rfl, rfl⟩
    refine ⟨String.ofList t, by simpa using ht, String.toList_injective ?_⟩
    rw [hq]
    simp
  · rintro ⟨t, ht, rfl⟩
    refine ⟨t.toList ++ b.toList, by simp, t.toList, b.toList, rfl, ht, [], ?_⟩
    simp

theorem accepts_rules : (ofText ".claude/rules/**").accepts q = true ↔ ∃ r, q = ".claude/rules/" ++ r := by
  have hread : ofText ".claude/rules/**" = glob (".claude/rules".toList.map .literal ++ [.trailing]) := by
    rw [Path.toList_literal (s := ".claude/rules") rfl]
    exact ofText_of_read rfl rfl
  rw [hread, accepts, isMatch_iff_denotes isAligned_literals (by simp), denotes_literals]
  simp only [Denotes]
  constructor
  · rintro ⟨_, hq, r, _, rfl, rfl⟩
    refine ⟨String.ofList r, String.toList_injective ?_⟩
    rw [hq]
    simp
  · rintro ⟨r, rfl⟩
    exact ⟨'/' :: r.toList, by simp, r.toList, [], by simp, rfl⟩

theorem accepts_guidance :
    (ofText "**/CLAUDE.md").accepts q = true ↔ (splitSlash q).getLast? = some "CLAUDE.md" := by
  have hread : ofText "**/CLAUDE.md" = glob (.leading :: ("CLAUDE.md".toList.map .literal ++ [])) := by
    rw [Path.toList_literal (s := "CLAUDE.md") rfl]
    exact ofText_of_read rfl rfl
  rw [hread, accepts, isMatch_iff_denotes isAligned_literals (by simp), Path.getLast?_splitSlash (by decide)]
  simp only [Denotes, denotes_literals]
  constructor
  · rintro (⟨_, hq, rfl⟩ | ⟨a, _, hq, _, rfl, rfl⟩)
    · exact Or.inl (String.toList_injective (by rw [hq, List.append_nil]))
    · refine Or.inr ⟨String.ofList a, String.toList_injective ?_⟩
      rw [hq]
      simp
  · rintro (rfl | ⟨a, rfl⟩)
    · exact Or.inl ⟨[], by simp, rfl⟩
    · exact Or.inr ⟨a.toList, "CLAUDE.md".toList, by simp, [], by simp, rfl⟩

end Matcher

namespace Manifest

open Matcher

variable {q : String}

/-! ## What is included -/

/-- A pattern with one star, and what it begins and ends with. -/
structure Starred where
  pattern : String
  before : String
  after : String

def starred : List Starred :=
  [ ⟨".claude/agents/*.md", ".claude/agents/", ".md"⟩
  , ⟨".claude/guides/*.md", ".claude/guides/", ".md"⟩
  , ⟨".claude/templates/*.template", ".claude/templates/", ".template"⟩
  , ⟨".claude/scripts/hooks/*.sh", ".claude/scripts/hooks/", ".sh"⟩ ]

/-- What some pattern includes, whether or not another excludes it. -/
def Offered (q : String) : Prop :=
  (∃ e ∈ curatedIncluded, '*' ∉ e.toList ∧ q = e) ∨
    (∃ p ∈ starred, ∃ t : String, '/' ∉ t.toList ∧ q = p.before ++ t ++ p.after) ∨
    ∃ r, q = ".claude/rules/" ++ r

theorem isSimple_curatedIncluded : ∀ e ∈ curatedIncluded, ∀ c ∈ e.toList, Glob.isSimple c = true := by
  simp only [curatedIncluded, List.forall_mem_cons, List.not_mem_nil, false_imp_iff, implies_true, and_true,
    Path.toList_literal rfl]
  and_intros <;> decide

theorem starred_cases : ∀ s ∈ curatedIncluded,
    '*' ∉ s.toList ∨ s ∈ starred.map Starred.pattern ∨ s = ".claude/rules/**" := by
  simp only [curatedIncluded, List.forall_mem_cons, List.not_mem_nil, false_imp_iff, implies_true, and_true,
    Path.toList_literal rfl]
  and_intros <;> decide

theorem starred_mem : ∀ p ∈ starred, p.pattern ∈ curatedIncluded := by
  simp [starred, curatedIncluded]

theorem accepts_pattern : ∀ p ∈ starred,
    (ofText p.pattern).accepts q = true ↔ ∃ t : String, '/' ∉ t.toList ∧ q = p.before ++ t ++ p.after := by
  intro p hp
  have hparts : ∀ p ∈ starred, p.pattern = p.before ++ "*" ++ p.after ∧ '*' ∉ p.before.toList ∧
      '*' ∉ p.after.toList := by
    simp only [starred, List.forall_mem_cons, List.not_mem_nil, false_imp_iff, implies_true, and_true,
      Path.toList_literal rfl]
    decide
  obtain ⟨hpattern, ha, hb⟩ := hparts p hp
  exact accepts_starred hpattern (isSimple_curatedIncluded _ (starred_mem p hp)) ha hb

theorem any_accepts {texts : List String} :
    (texts.map ofText).any (·.accepts q) = true ↔ ∃ s ∈ texts, (ofText s).accepts q = true := by
  simp only [List.any_map, List.any_eq_true, Function.comp_apply]

theorem included_iff : curated.included.any (·.accepts q) = true ↔ Offered q := by
  refine any_accepts.trans ⟨?_, ?_⟩
  · rintro ⟨s, hs, hq⟩
    rcases starred_cases s hs with hstar | hpattern | rfl
    · exact Or.inl ⟨s, hs, hstar, (accepts_starless (isSimple_curatedIncluded s hs) hstar).mp hq⟩
    · obtain ⟨p, hp, rfl⟩ := List.mem_map.mp hpattern
      exact Or.inr (Or.inl ⟨p, hp, (accepts_pattern p hp).mp hq⟩)
    · exact Or.inr (Or.inr (accepts_rules.mp hq))
  · rintro (⟨e, he, hstar, rfl⟩ | ⟨p, hp, ht⟩ | hr)
    · exact ⟨q, he, (accepts_starless (isSimple_curatedIncluded q he) hstar).mpr rfl⟩
    · exact ⟨_, starred_mem p hp, (accepts_pattern p hp).mpr ht⟩
    · exact ⟨_, by decide, accepts_rules.mpr hr⟩

/-! ## What is excluded -/

/-- What the excluded texts begin with, but for those that end in a file named `CLAUDE.md`. -/
def offLimits : List String :=
  [".claude/skills/external", ".claude/.external-skills-version", ".claude/commands/999_", ".pilot", ".claude/local/"]

theorem spelled_excluded : ∀ s ∈ curatedExcluded, s = "**/CLAUDE.md" ∨
    ∃ e ∈ offLimits, e.toList <+: (ofText s).spelled := by
  simp only [curatedExcluded, List.forall_mem_cons, List.not_mem_nil, false_imp_iff, implies_true, and_true,
    Matcher.spelled_ofText rfl, offLimits, List.exists_mem_cons_iff, exists_false, false_and, or_false,
    Path.toList_literal rfl]
  and_intros <;> decide

theorem avoids_offLimits : ∀ s ∈ curatedIncluded, s = ".claude/local/.gitkeep" ∨
    ∀ e ∈ offLimits, (ofText s).avoids e.toList = true := by
  simp only [curatedIncluded, List.forall_mem_cons, List.not_mem_nil, false_imp_iff, implies_true, and_true,
    Matcher.avoids_ofText rfl, offLimits, Path.toList_literal rfl]
  and_intros <;> decide

theorem offered_offLimits {e : String} (h : Offered q) (he : e ∈ offLimits) (hpre : e.toList <+: q.toList) :
    q = ".claude/local/.gitkeep" := by
  obtain ⟨s, hs, hq⟩ := any_accepts.mp (included_iff.mpr h)
  rcases avoids_offLimits s hs with rfl | ha
  · exact (accepts_starless (isSimple_curatedIncluded _ hs) (by decide)).mp hq
  · exact absurd hpre (Matcher.not_prefix_of_avoids (ha e he) hq)

theorem keeps_gitkeep : ∀ s ∈ curatedExcluded, (ofText s).accepts ".claude/local/.gitkeep" = false := by
  simp only [curatedExcluded, List.forall_mem_cons, List.not_mem_nil, false_imp_iff, implies_true, and_true,
    Matcher.accepts_ofText rfl rfl]
  decide

/-- Of what is included, only files named `CLAUDE.md` are excluded. -/
theorem excluded_iff (h : Offered q) :
    curated.excluded.any (·.accepts q) = true ↔ (splitSlash q).getLast? = some "CLAUDE.md" := by
  refine any_accepts.trans ⟨?_, fun hlast => ⟨_, by decide, accepts_guidance.mpr hlast⟩⟩
  rintro ⟨s, hs, hq⟩
  rcases spelled_excluded s hs with rfl | ⟨e, he, hpre⟩
  · exact accepts_guidance.mp hq
  · obtain rfl := offered_offLimits h he (hpre.trans (Matcher.spelled_of_accepts hq))
    rw [keeps_gitkeep s hs] at hq
    cases hq

theorem includes_iff {path : String} : curated.includes path = true ↔
    Offered (normalize path) ∧ (splitSlash (normalize path)).getLast? ≠ some "CLAUDE.md" := by
  rw [includes, Bool.and_eq_true, Bool.not_eq_true', Bool.eq_false_iff, included_iff, and_comm]
  exact and_congr_right fun h => not_congr (excluded_iff h)

/-! ## Templates -/

theorem named_templates : ∀ e ∈ curatedIncluded, '*' ∉ e.toList → ".claude/templates/".toList <+: e.toList →
    e = ".claude/templates/gap-checklist.md" := by
  simp only [curatedIncluded, List.forall_mem_cons, List.not_mem_nil, false_imp_iff, implies_true, and_true,
    Path.toList_literal rfl]
  and_intros <;> decide

/-- What ships as a template stands directly among the templates. -/
theorem offered_templates (h : Offered q) (hpre : ".claude/templates/".toList <+: q.toList) :
    ∃ x : String, '/' ∉ x.toList ∧ q = ".claude/templates/" ++ x := by
  have hother {dir : String} (hdir : dir.toList <+: q.toList)
      (hno : ¬ (dir.toList <+: ".claude/templates/".toList ∨ ".claude/templates/".toList <+: dir.toList)) : False :=
    hno (List.prefix_or_prefix_of_prefix hdir hpre)
  have hbegin (dir t : String) : dir.toList <+: (dir ++ t).toList := by
    rw [String.toList_append]
    exact List.prefix_append _ _
  rcases h with ⟨e, he, hstar, rfl⟩ | ⟨p, hp, t, ht, rfl⟩ | ⟨r, rfl⟩
  · rw [named_templates q he hstar hpre]
    exact ⟨"gap-checklist.md", by decide, rfl⟩
  · simp only [starred, List.mem_cons, List.not_mem_nil, or_false] at hp
    rcases hp with rfl | rfl | rfl | rfl
    · rw [String.append_assoc] at hother
      exact (hother (hbegin _ _) (by decide)).elim
    · rw [String.append_assoc] at hother
      exact (hother (hbegin _ _) (by decide)).elim
    · exact ⟨t ++ ".template", by simp [ht], String.append_assoc⟩
    · rw [String.append_assoc] at hother
      exact (hother (hbegin _ _) (by decide)).elim
  · exact (hother (hbegin _ _) (by decide)).elim

/-- Nothing that ships lies below a retired file. -/
theorem destination_of_retired {name text : String} (hc : isClean name = true) (hi : curated.includes name = true)
    (htext : text ∈ Inventory.retired) (h : splitSlash text <+: splitSlash (Inventory.destination name)) :
    Inventory.destination name = text := by
  obtain rfl := List.mem_singleton.mp htext
  refine (Path.append_of_splitSlash h).resolve_right ?_
  rintro ⟨r, hr⟩
  have hpre : ".claude/templates/PRP.md.template/".toList <+: (Inventory.destination name).toList := by
    rw [hr, String.toList_append]
    exact List.prefix_append _ _
  rcases Inventory.destination_cases name with ⟨-, hd⟩ | hd
  · rw [hd] at hpre
    exact absurd hpre (by decide)
  · rw [hd] at hpre hr
    have hoffered := (includes_iff.mp hi).1
    rw [normalize_of_isClean hc] at hoffered
    obtain ⟨x, hx, hname⟩ := offered_templates hoffered (.trans (by decide) hpre)
    rw [hname, String.toList_append] at hpre
    obtain ⟨cs, hcs⟩ := hpre
    replace hcs : ".claude/templates/".toList ++ ("PRP.md.template/".toList ++ cs) = _ := hcs
    rw [← List.append_cancel_left hcs] at hx
    exact hx (List.mem_append_left _ (by decide))

/-! ## What ships -/

/-- What ships: the files that are listed by name, the files of one kind in four directories, and
all rules, but no file named `CLAUDE.md`. -/
def Ships (q : String) : Prop :=
  (∃ e ∈ curatedIncluded, '*' ∉ e.toList ∧ q = e) ∨
    (∃ s : String, '/' ∉ s.toList ∧ s ≠ "CLAUDE" ∧
      (q = ".claude/agents/" ++ s ++ ".md" ∨ q = ".claude/guides/" ++ s ++ ".md")) ∨
    (∃ s : String, '/' ∉ s.toList ∧
      (q = ".claude/templates/" ++ s ++ ".template" ∨ q = ".claude/scripts/hooks/" ++ s ++ ".sh")) ∨
    ∃ r : String, q = ".claude/rules/" ++ r ∧ (splitSlash r).getLast? ≠ some "CLAUDE.md"

theorem suffix_of_last {e x : String} (h : (splitSlash e).getLast? = some x) : x.toList <:+ e.toList := by
  have hx : '/' ∉ x.toList := Path.slash_of_mem_splitSlash (List.mem_of_getLast? h)
  rcases (Path.getLast?_splitSlash hx).mp h with rfl | ⟨a, rfl⟩
  · exact List.suffix_refl _
  · exact ⟨(a ++ "/").toList, (String.toList_append ..).symm⟩

theorem last_of_named : ∀ e ∈ curatedIncluded, (splitSlash e).getLast? ≠ some "CLAUDE.md" := by
  have hsuffix : ∀ e ∈ curatedIncluded, ¬ "CLAUDE.md".toList <:+ e.toList := by
    simp only [curatedIncluded, List.forall_mem_cons, List.not_mem_nil, false_imp_iff, implies_true, and_true,
      Path.toList_literal rfl]
    and_intros <;> decide
  exact fun e he h => hsuffix e he (suffix_of_last h)

/-- The last segment of a text that a pattern with a star accepts. -/
theorem last_of_starred {t : String} (ht : '/' ∉ t.toList) : ∀ p ∈ starred,
    (splitSlash (p.before ++ t ++ p.after)).getLast? = some (t ++ p.after) := by
  have hlast (dir : String) {after : String} (ha : '/' ∉ after.toList) :
      (splitSlash (dir ++ "/" ++ t ++ after)).getLast? = some (t ++ after) := by
    rw [String.append_assoc, Path.getLast?_splitSlash_append, Path.splitSlash_of_no_slash]
    · rfl
    · simp [ht, ha]
  simp only [starred, List.forall_mem_cons, List.not_mem_nil, false_imp_iff, implies_true, and_true]
  exact ⟨hlast ".claude/agents" (by decide), hlast ".claude/guides" (by decide),
    hlast ".claude/templates" (by decide), hlast ".claude/scripts/hooks" (by decide)⟩

theorem append_eq_guidance {t ending : String} (h : t ++ ending = "CLAUDE.md") :
    ending.toList <:+ "CLAUDE.md".toList :=
  ⟨t.toList, by rw [← String.toList_append, h]⟩

theorem ships_iff : Ships q ↔ Offered q ∧ (splitSlash q).getLast? ≠ some "CLAUDE.md" := by
  have hguidance {t : String} : some (t ++ ".md") = some "CLAUDE.md" ↔ t = "CLAUDE" := by
    rw [Option.some_inj, show "CLAUDE.md" = "CLAUDE" ++ ".md" from rfl, String.append_left_inj]
  have hrules (r : String) : (splitSlash (".claude/rules/" ++ r)).getLast? = (splitSlash r).getLast? :=
    Path.getLast?_splitSlash_append ".claude/rules" r
  constructor
  · rintro (⟨e, he, hstar, rfl⟩ | ⟨t, ht, hne, rfl | rfl⟩ | ⟨t, ht, rfl | rfl⟩ | ⟨r, rfl, hr⟩)
    · exact ⟨Or.inl ⟨q, he, hstar, rfl⟩, last_of_named q he⟩
    · have hp : ⟨".claude/agents/*.md", ".claude/agents/", ".md"⟩ ∈ starred := by simp [starred]
      refine ⟨Or.inr (Or.inl ⟨_, hp, t, ht, rfl⟩), ?_⟩
      rw [last_of_starred ht _ hp]
      exact hguidance.not.mpr hne
    · have hp : ⟨".claude/guides/*.md", ".claude/guides/", ".md"⟩ ∈ starred := by simp [starred]
      refine ⟨Or.inr (Or.inl ⟨_, hp, t, ht, rfl⟩), ?_⟩
      rw [last_of_starred ht _ hp]
      exact hguidance.not.mpr hne
    · have hp : ⟨".claude/templates/*.template", ".claude/templates/", ".template"⟩ ∈ starred := by simp [starred]
      refine ⟨Or.inr (Or.inl ⟨_, hp, t, ht, rfl⟩), ?_⟩
      rw [last_of_starred ht _ hp]
      exact fun h => absurd (append_eq_guidance (Option.some.inj h)) (by decide)
    · have hp : ⟨".claude/scripts/hooks/*.sh", ".claude/scripts/hooks/", ".sh"⟩ ∈ starred := by simp [starred]
      refine ⟨Or.inr (Or.inl ⟨_, hp, t, ht, rfl⟩), ?_⟩
      rw [last_of_starred ht _ hp]
      exact fun h => absurd (append_eq_guidance (Option.some.inj h)) (by decide)
    · exact ⟨Or.inr (Or.inr ⟨r, rfl⟩), by rwa [hrules]⟩
  · rintro ⟨⟨e, he, hstar, rfl⟩ | ⟨p, hp, t, ht, rfl⟩ | ⟨r, rfl⟩, hlast⟩
    · exact Or.inl ⟨q, he, hstar, rfl⟩
    · rw [last_of_starred ht p hp] at hlast
      simp only [starred, List.mem_cons, List.not_mem_nil, or_false] at hp
      rcases hp with rfl | rfl | rfl | rfl
      · exact Or.inr (Or.inl ⟨t, ht, hguidance.not.mp hlast, Or.inl rfl⟩)
      · exact Or.inr (Or.inl ⟨t, ht, hguidance.not.mp hlast, Or.inr rfl⟩)
      · exact Or.inr (Or.inr (Or.inl ⟨t, ht, Or.inl rfl⟩))
      · exact Or.inr (Or.inr (Or.inl ⟨t, ht, Or.inr rfl⟩))
    · rw [hrules] at hlast
      exact Or.inr (Or.inr (Or.inr ⟨r, rfl, hlast⟩))

/-- What the manifest includes is exactly what ships, for every text. In particular nothing is
included that belongs to plans, to skills from elsewhere or to commands for publishing, nothing that
is local but the file that keeps the directory, and no file named `CLAUDE.md`. -/
theorem includes_exactly_what_ships (path : String) :
    (curated.includes path = true ↔ Ships (normalize path)) ∧
      (curated.includes path = true →
        ¬ ".pilot/".toList <+: (normalize path).toList ∧
        ¬ ".claude/skills/external/".toList <+: (normalize path).toList ∧
        ¬ ".claude/commands/999_".toList <+: (normalize path).toList ∧
        (".claude/local/".toList <+: (normalize path).toList → normalize path = ".claude/local/.gitkeep") ∧
        (splitSlash (normalize path)).getLast? ≠ some "CLAUDE.md") := by
  refine ⟨includes_iff.trans ships_iff.symm, fun h => ?_⟩
  obtain ⟨hoffered, hlast⟩ := includes_iff.mp h
  generalize normalize path = q at hoffered hlast ⊢
  have hno : ∀ e ∈ offLimits, ¬ e.toList <+: ".claude/local/.gitkeep".toList → ¬ e.toList <+: q.toList := by
    intro e he hkeep hpre
    rw [offered_offLimits hoffered he hpre] at hpre
    exact hkeep hpre
  refine ⟨?_, ?_, ?_, offered_offLimits hoffered (by decide), hlast⟩
  · exact fun hpre => hno ".pilot" (by decide) (by decide) (.trans (by decide) hpre)
  · exact fun hpre => hno ".claude/skills/external" (by decide) (by decide) (.trans (by decide) hpre)
  · exact hno ".claude/commands/999_" (by decide) (by decide)

theorem includes_backslashed_rule :
    curated.includes ".\\.claude\\rules\\core\\CLAUDE.md.md" = true ∧
      curated.includes "./.claude/rules/core/CLAUDE.md" = false := by
  have hrule : normalize ".\\.claude\\rules\\core\\CLAUDE.md.md" = ".claude/rules/core/CLAUDE.md.md" := by decide
  have hguide : normalize "./.claude/rules/core/CLAUDE.md" = ".claude/rules/core/CLAUDE.md" := by decide
  refine ⟨(includes_exactly_what_ships _).1.mpr ?_, Bool.eq_false_iff.mpr fun h => ?_⟩
  · rw [hrule]
    exact Or.inr (Or.inr (Or.inr ⟨"core/CLAUDE.md.md", rfl, by decide⟩))
  · have hlast := ((includes_exactly_what_ships _).2 h).2.2.2.2
    rw [hguide] at hlast
    exact hlast (by decide)

end Manifest

end Outfitter
