import Outfitter.Inventory
import Outfitter.Manifest
import Outfitter.Proofs.Glob
import Outfitter.Proofs.Layout

/-! # What the manifest lets ship

All that the manifest of what ships includes is guidance or lies below the directory of assets,
by the characters that its patterns begin with.
-/

namespace Outfitter

/-- The characters that all accepted texts begin with. -/
def Matcher.spelled : Matcher → List Char
  | glob items => Glob.spelled items
  | literal text => text.toList

/-- What the reading of a literal begins with, by `rfl` for its characters. -/
theorem Matcher.spelled_ofText {s : String} {cs : List Char} (h : s = String.ofList cs) :
    (ofText s).spelled = ((Glob.readFrom .start none cs).map Glob.spelled).getD cs := by
  rw [ofText, Glob.read?, Path.toList_literal h]
  cases Glob.readFrom .start none cs with
  | none => exact Path.toList_literal h
  | some items => rfl

theorem Matcher.spelled_of_accepts {m : Matcher} {path : String} (h : m.accepts path = true) :
    m.spelled <+: path.toList := by
  cases m with
  | glob items => exact Glob.spelled_of_isMatch h
  | literal text =>
    rw [eq_of_beq h]
    exact List.prefix_refl _

/-- By its characters alone, a matcher accepts nothing that begins so. -/
def Matcher.avoids (beginning : List Char) : Matcher → Bool
  | glob items => Glob.avoids beginning items
  | literal text => !beginning.isPrefixOf text.toList

theorem Matcher.avoids_ofText {s : String} {cs : List Char} (h : s = String.ofList cs)
    (beginning : List Char) :
    (ofText s).avoids beginning =
      ((Glob.readFrom .start none cs).map (Glob.avoids beginning)).getD (!beginning.isPrefixOf cs) := by
  rw [ofText, Glob.read?, Path.toList_literal h]
  cases Glob.readFrom .start none cs with
  | none => rw [avoids, Path.toList_literal h]; rfl
  | some items => rfl

/-- A sequence accepts some characters. -/
def Glob.takes (cs : List Char) (items : List Item) : Bool :=
  match items with
  | [.leading] => true
  | _ => accepts List.isEmpty (bytes cs) items

/-- What the reading of a literal accepts, by `rfl` for the characters of both. -/
theorem Matcher.accepts_ofText {s path : String} {cs ps : List Char} (h : s = String.ofList cs)
    (hpath : path = String.ofList ps) :
    (ofText s).accepts path = ((Glob.readFrom .start none cs).map (Glob.takes ps)).getD (cs == ps) := by
  rw [ofText, Glob.read?, Path.toList_literal h]
  cases Glob.readFrom .start none cs with
  | none =>
    rw [accepts, h, hpath, Bool.eq_iff_iff, beq_iff_eq, String.ofList_inj]
    exact beq_iff_eq.symm
  | some items =>
    change Glob.isMatch items path = Glob.takes ps items
    unfold Glob.isMatch
    rw [Path.toList_literal hpath]
    rfl

theorem Matcher.not_prefix_of_avoids {m : Matcher} {path : String} {beginning : List Char}
    (ha : m.avoids beginning = true) (h : m.accepts path = true) : ¬ beginning <+: path.toList := by
  cases m with
  | glob items => exact Glob.not_prefix_of_avoids ha h
  | literal text =>
    rw [← eq_of_beq h, ← List.isPrefixOf_iff_prefix, Bool.not_eq_true]
    simpa only [avoids, Bool.not_eq_true'] using ha

namespace Manifest

variable {name : String}

theorem slashed_of_isClean (h : isClean name = true) : Path.slashed name = name := by
  simp only [isClean, Bool.and_eq_true, Bool.not_eq_true', List.contains_eq_mem,
    decide_eq_false_iff_not] at h
  rw [Path.slashed, List.map_congr_left (g := id), List.map_id, String.ofList_toList]
  intro c hc
  rw [if_neg, id]
  rintro rfl
  exact h.2 hc

theorem normalize_of_isClean (h : isClean name = true) : normalize name = name := by
  rw [normalize, slashed_of_isClean h]
  split
  · next cs hlist =>
    obtain ⟨rest, hsplit⟩ := Path.splitSlash_of_prefix (s := name) (x := ".") (by decide)
      (by rw [hlist]; exact ⟨cs, rfl⟩)
    have hdot : isName "." = true := isName_of_isClean h "." (by rw [hsplit]; exact List.mem_cons_self)
    exact absurd hdot (by decide)
  · exact String.ofList_toList

/-- The patterns of what ships begin as guidance does, or name the directory of assets. -/
theorem spelled_curated : ∀ s ∈ curatedIncluded,
    ".claude/".toList <+: (Matcher.ofText s).spelled ∨
      "CLAUDE.md.template".toList <+: (Matcher.ofText s).spelled := by
  simp only [curatedIncluded, List.forall_mem_cons, List.not_mem_nil, false_imp_iff, implies_true,
    and_true, Matcher.spelled_ofText rfl, Path.toList_literal rfl]
  and_intros <;> decide

theorem prefix_of_includes (hc : isClean name = true) (hi : curated.includes name = true) :
    ".claude/".toList <+: name.toList ∨ "CLAUDE.md.template".toList <+: name.toList := by
  simp only [includes, normalize_of_isClean hc, Bool.and_eq_true, List.any_eq_true] at hi
  obtain ⟨-, m, hm, haccepts⟩ := hi
  obtain ⟨s, hs, rfl⟩ := List.mem_map.mp hm
  have hspelled := Matcher.spelled_of_accepts haccepts
  exact (spelled_curated s hs).imp (·.trans hspelled) (·.trans hspelled)

theorem not_prefix_of_includes {beginning : List Char} (hc : isClean name = true)
    (ha : ∀ s ∈ curatedIncluded, (Matcher.ofText s).avoids beginning = true)
    (hi : curated.includes name = true) : ¬ beginning <+: name.toList := by
  simp only [includes, normalize_of_isClean hc, Bool.and_eq_true, List.any_eq_true] at hi
  obtain ⟨-, m, hm, haccepts⟩ := hi
  obtain ⟨s, hs, rfl⟩ := List.mem_map.mp hm
  exact Matcher.not_prefix_of_avoids (ha s hs) haccepts

theorem includes_of_accepts {s : String} (hc : isClean name = true) (hs : s ∈ curatedIncluded)
    (hin : (Matcher.ofText s).accepts name = true)
    (hout : ∀ s ∈ curatedExcluded, (Matcher.ofText s).accepts name = false) :
    curated.includes name = true := by
  simp only [includes, normalize_of_isClean hc, Bool.and_eq_true, Bool.not_eq_true', List.any_eq_true,
    List.any_eq_false]
  refine ⟨?_, Matcher.ofText s, List.mem_map_of_mem hs, hin⟩
  intro m hm
  obtain ⟨s, hs, rfl⟩ := List.mem_map.mp hm
  simp [hout s hs]

theorem avoids_siblings : ∀ s ∈ curatedIncluded,
    (Matcher.ofText s).avoids ".claude/settings.json.".toList = true := by
  simp only [curatedIncluded, List.forall_mem_cons, List.not_mem_nil, false_imp_iff, implies_true,
    and_true, Matcher.avoids_ofText rfl, Path.toList_literal rfl]
  and_intros <;> decide

/-- Nothing that ships is a sibling of the settings by its name. -/
theorem destination_no_sibling (hc : isClean name = true) (hi : curated.includes name = true) :
    ¬ ".claude/settings.json.".toList <+: (Inventory.destination name).toList := by
  rcases Inventory.destination_cases name with ⟨-, hd⟩ | hd
  · rw [hd]
    decide
  · rw [hd]
    exact not_prefix_of_includes hc avoids_siblings hi

theorem destination_ne_ignore (hc : isClean name = true) (hi : curated.includes name = true) :
    Inventory.destination name ≠ Layout.ignoreName := by
  intro he
  rcases Inventory.destination_cases name with ⟨-, hd⟩ | hd
  · rw [hd] at he
    exact absurd he (by decide)
  · rw [hd] at he
    rw [he] at hc hi
    exact absurd (prefix_of_includes hc hi) (by decide)

/-- No two files that ship have one destination. -/
theorem destination_inj {other : String} (hi : curated.includes name = true)
    (hi' : curated.includes other = true) (h : Inventory.destination name = Inventory.destination other) :
    name = other := by
  have hno : curated.includes "CLAUDE.md" ≠ true := fun hi =>
    absurd (prefix_of_includes (by decide) hi) (by decide)
  rcases Inventory.destination_cases name with ⟨hn, hd⟩ | hd <;>
    rcases Inventory.destination_cases other with ⟨hn', hd'⟩ | hd'
  · rw [hn, hn']
  · rw [← hd', ← h, hd] at hi'
    exact absurd hi' hno
  · rw [← hd, h, hd'] at hi
    exact absurd hi hno
  · rw [← hd, h, hd']

/-- Nothing that ships goes to the directory of snapshots. -/
theorem destination_apart (hc : isClean name = true) (hi : curated.includes name = true) :
    ¬ [Layout.snapshotsDirName] <+: splitSlash (Inventory.destination name) := by
  rintro ⟨rest, hrest⟩
  have hpre := Path.prefix_of_splitSlash hrest.symm
  rcases Inventory.destination_cases name with ⟨-, hd⟩ | hd
  · rw [hd] at hpre
    exact absurd hpre (by decide)
  · rw [hd] at hpre
    rcases prefix_of_includes hc hi with h | h
    · exact absurd (List.prefix_or_prefix_of_prefix hpre h) (by decide)
    · exact absurd (List.prefix_or_prefix_of_prefix hpre h) (by decide)

end Manifest

end Outfitter
