import Mathlib.Data.List.Basic
import Mathlib.Tactic.Common
import Outfitter.Glob.Reader

/-! # What patterns accept

A pattern accepts only texts that begin with the characters it begins with, and one that is
nothing but characters accepts only these. Patterns of characters, stars and double stars are
matched on bytes, but what they stand for is said of characters.
-/

namespace Outfitter.Glob

variable {k : Bytes → Bool} {cs : List Char} {s x y : Bytes} {items : List Item} {p : UInt8 → Bool}

theorem exactly_iff {w : Bytes} : exactly w k s = true ↔ ∃ rest, s = w ++ rest ∧ k rest = true := by
  induction w generalizing s with
  | nil => simp [exactly]
  | cons b w ih =>
    cases s with
    | nil => simp [exactly, one]
    | cons a s =>
      rw [exactly, one, Bool.and_eq_true, beq_iff_eq, ih]
      constructor
      · rintro ⟨rfl, rest, rfl, hk⟩
        exact ⟨rest, rfl, hk⟩
      · rintro ⟨rest, hs, hk⟩
        obtain ⟨rfl, rfl⟩ := List.cons.inj hs
        exact ⟨rfl, rest, rfl, hk⟩

/-- No encoding of a character begins with the encoding of another. -/
theorem encode_append_inj {a c : Char} {x y : Bytes}
    (h : String.utf8EncodeChar a ++ x = String.utf8EncodeChar c ++ y) : a = c ∧ x = y := by
  have hd := congrArg (fun b => b.toByteArray.utf8DecodeChar? 0) h
  simp only [List.toByteArray_append, ByteArray.utf8DecodeChar?_utf8EncodeChar_append,
    Option.some.injEq] at hd
  subst hd
  exact ⟨rfl, List.append_cancel_left h⟩

theorem accepts_literal {c : Char} (h : accepts k (bytes cs) (.literal c :: items) = true) :
    ∃ rest, cs = c :: rest ∧ accepts k (bytes rest) items = true := by
  rw [accepts, Item.accepts] at h
  obtain ⟨s, hs, hk⟩ := exactly_iff.mp h
  cases cs with
  | nil =>
    have hlen := congrArg List.length hs
    have hpos := c.utf8Size_pos
    simp only [bytes, List.flatMap_nil, List.length_nil, List.length_append,
      String.length_utf8EncodeChar] at hlen
    omega
  | cons a rest =>
    rw [bytes, List.flatMap_cons] at hs
    obtain ⟨rfl, rfl⟩ := encode_append_inj hs
    exact ⟨rest, rfl, hk⟩

/-- The characters that a sequence begins with. -/
def spelled : List Item → List Char
  | .literal c :: rest => c :: spelled rest
  | _ => []

theorem spelled_of_accepts (h : accepts k (bytes cs) items = true) : spelled items <+: cs := by
  fun_induction spelled items generalizing cs with
  | case1 c rest ih =>
    obtain ⟨cs, rfl, hrest⟩ := accepts_literal h
    exact List.cons_prefix_cons.mpr ⟨rfl, ih hrest⟩
  | case2 => exact List.nil_prefix

/-- The sequence is nothing but characters. -/
def isSpelled : List Item → Bool
  | [] => true
  | .literal _ :: rest => isSpelled rest
  | _ => false

theorem eq_spelled_of_accepts (hs : isSpelled items = true)
    (h : accepts List.isEmpty (bytes cs) items = true) : cs = spelled items := by
  fun_induction isSpelled items generalizing cs with
  | case1 =>
    cases cs with
    | nil => rfl
    | cons c cs =>
      rw [accepts, bytes, List.flatMap_cons, List.isEmpty_iff, List.append_eq_nil_iff] at h
      exact absurd h.1 (String.utf8EncodeChar_ne_nil)
  | case2 c rest ih =>
    obtain ⟨cs, rfl, hrest⟩ := accepts_literal h
    rw [ih hs hrest, spelled]
  | case3 => cases hs

/-- By its characters alone, a sequence accepts nothing that begins so. -/
def avoids (beginning : List Char) (items : List Item) : Bool :=
  !beginning.isPrefixOf (spelled items) && (isSpelled items || !(spelled items).isPrefixOf beginning)

theorem spelled_of_isMatch {text : String} (h : isMatch items text = true) :
    spelled items <+: text.toList := by
  unfold isMatch at h
  split at h
  · exact List.nil_prefix
  · exact spelled_of_accepts h

theorem not_prefix_of_avoids {text : String} {beginning : List Char} (ha : avoids beginning items = true)
    (h : isMatch items text = true) : ¬ beginning <+: text.toList := by
  intro hpre
  simp only [avoids, Bool.and_eq_true, Bool.or_eq_true, Bool.not_eq_true', Bool.eq_false_iff, ne_eq,
    List.isPrefixOf_iff_prefix] at ha
  obtain ⟨hlong, hs | hshort⟩ := ha
  · unfold isMatch at h
    split at h
    · cases hs
    · rw [eq_spelled_of_accepts hs h] at hpre
      exact hlong hpre
  · exact (List.prefix_or_prefix_of_prefix hpre (spelled_of_isMatch h)).elim hlong hshort

/-! ## Runs of bytes -/

theorem one_iff : one p k s = true ↔ ∃ b rest, s = b :: rest ∧ p b = true ∧ k rest = true := by
  cases s with
  | nil => simp [one]
  | cons b s => simp [one]

theorem run_iff : run p k s = true ↔ ∃ u v, s = u ++ v ∧ (∀ b ∈ u, p b = true) ∧ k v = true := by
  induction s with
  | nil => simp [run]
  | cons b s ih =>
    rw [run, Bool.or_eq_true, Bool.and_eq_true, ih]
    constructor
    · rintro (hk | ⟨hb, u, v, rfl, hu, hk⟩)
      · exact ⟨[], b :: s, rfl, by simp, hk⟩
      · exact ⟨b :: u, v, rfl, List.forall_mem_cons.mpr ⟨hb, hu⟩, hk⟩
    · rintro ⟨_ | ⟨a, u⟩, v, hs, hu, hk⟩
      · exact Or.inl (by rw [hs]; exact hk)
      · obtain ⟨rfl, rfl⟩ := List.cons.inj hs
        obtain ⟨ha, hu⟩ := List.forall_mem_cons.mp hu
        exact Or.inr ⟨ha, u, v, rfl, hu, hk⟩

/-! ## Bytes and characters -/

theorem bytes_append (a b : List Char) : bytes (a ++ b) = bytes a ++ bytes b := List.flatMap_append

theorem bytes_cons (c : Char) (cs : List Char) : bytes (c :: cs) = String.utf8EncodeChar c ++ bytes cs :=
  List.flatMap_cons

/-- The first byte of the encoding of a character, and no other, can begin one. -/
theorem first_of_encode {c : Char} {b : UInt8} (h : String.utf8EncodeChar c = x ++ b :: y) :
    b.IsUTF8FirstByte ↔ x = [] := by
  have hlen : x.length < (String.utf8EncodeChar c).length := by rw [h]; simp
  have hget : (String.utf8EncodeChar c)[x.length] = b := by simp [h]
  rw [← hget, UInt8.isUTF8FirstByte_getElem_utf8EncodeChar, List.length_eq_zero_iff]

theorem encode_eq_cons (c : Char) : ∃ b more, String.utf8EncodeChar c = b :: more ∧ b.IsUTF8FirstByte := by
  obtain ⟨b, more, h⟩ := List.exists_cons_of_ne_nil (String.utf8EncodeChar_ne_nil (c := c))
  exact ⟨b, more, h, (first_of_encode (x := []) h).mpr rfl⟩

/-- Bytes that are empty or begin with the first byte of a character. -/
def Begins (s : Bytes) : Prop := ∀ b ∈ s.head?, b.IsUTF8FirstByte

/-- Bytes of characters are cut between characters where a first byte follows. -/
theorem split_of_begins (h : bytes cs = x ++ y) (hy : Begins y) :
    ∃ a b, cs = a ++ b ∧ x = bytes a ∧ y = bytes b := by
  induction cs generalizing x with
  | nil =>
    obtain ⟨rfl, rfl⟩ := List.append_eq_nil_iff.mp h.symm
    exact ⟨[], [], rfl, rfl, rfl⟩
  | cons c cs ih =>
    rw [bytes_cons, List.append_eq_append_iff] at h
    obtain ⟨more, rfl, hrest⟩ | ⟨more, hc, rfl⟩ := h
    · obtain ⟨a, b, rfl, rfl, rfl⟩ := ih hrest
      exact ⟨c :: a, b, rfl, (bytes_cons c a).symm, rfl⟩
    · cases more with
      | nil => exact ⟨[c], cs, rfl, by simp [bytes, hc], rfl⟩
      | cons b more =>
        obtain rfl := (first_of_encode hc).mp (hy b rfl)
        exact ⟨[], c :: cs, rfl, rfl, by rw [bytes_cons, hc]; rfl⟩

theorem encode_slash : String.utf8EncodeChar '/' = [slash] := by decide

theorem begins_slash (s : Bytes) : Begins (slash :: s) := by
  rintro b hb
  obtain rfl := Option.some.inj hb
  decide

/-- A slash is the byte of a slash and of nothing else. -/
theorem slash_mem_bytes : slash ∈ bytes cs ↔ '/' ∈ cs := by
  constructor
  · intro h
    obtain ⟨x, y, hs⟩ := List.append_of_mem h
    obtain ⟨a, b, rfl, -, hb⟩ := split_of_begins hs (begins_slash y)
    cases b with
    | nil => cases hb
    | cons c b =>
      rw [bytes_cons, ← List.singleton_append, ← encode_slash] at hb
      rw [(encode_append_inj hb).1]
      simp
  · intro h
    obtain ⟨a, b, rfl⟩ := List.append_of_mem h
    simp [bytes_append, bytes_cons, encode_slash]

theorem bytes_eq_slash_cons (h : bytes cs = slash :: s) : ∃ more, cs = '/' :: more ∧ s = bytes more := by
  cases cs with
  | nil => cases h
  | cons c cs =>
    rw [bytes_cons, ← List.singleton_append, ← encode_slash] at h
    obtain ⟨rfl, rfl⟩ := encode_append_inj h
    exact ⟨cs, rfl, rfl⟩

theorem bytes_eq_nil : bytes cs = [] ↔ cs = [] := by
  cases cs with
  | nil => simp [bytes]
  | cons c cs => simp [bytes_cons, String.utf8EncodeChar_ne_nil]

/-! ## What a sequence stands for -/

/-- The texts that characters, stars, leading and final double stars stand for. -/
def Denotes : List Item → List Char → Prop
  | [], cs => cs = []
  | .literal c :: rest, cs => ∃ more, cs = c :: more ∧ Denotes rest more
  | .star :: rest, cs => ∃ a b, cs = a ++ b ∧ '/' ∉ a ∧ Denotes rest b
  | .leading :: rest, cs => Denotes rest cs ∨ ∃ a b, cs = a ++ '/' :: b ∧ Denotes rest b
  | .trailing :: rest, cs => ∃ a b, cs = '/' :: (a ++ b) ∧ Denotes rest b
  | _ :: _, _ => False

/-- What a sequence stands for begins with the first byte of a character, if it begins at all. -/
def opens : List Item → Bool
  | [] | .literal _ :: _ | .trailing :: _ => true
  | _ => false

theorem begins_of_accepts (ho : opens items = true) (h : accepts List.isEmpty s items = true) : Begins s := by
  cases items with
  | nil =>
    rw [accepts, List.isEmpty_iff] at h
    simp [Begins, h]
  | cons i rest =>
    cases i with
    | literal c =>
      rw [accepts, Item.accepts] at h
      obtain ⟨more, rfl, -⟩ := exactly_iff.mp h
      obtain ⟨b, tail, hc, hb⟩ := encode_eq_cons c
      simpa [Begins, hc] using hb
    | trailing =>
      rw [accepts, Item.accepts] at h
      obtain ⟨b, more, rfl, hb, -⟩ := one_iff.mp h
      rw [eq_of_beq hb]
      exact begins_slash more
    | _ => cases ho

/-- The pieces of a text end between characters: what follows a star opens, and nothing follows a
final double star. -/
def isAligned : List Item → Bool
  | [] => true
  | .literal _ :: rest => isAligned rest
  | .star :: rest => opens rest && isAligned rest
  | .leading :: rest => isAligned rest
  | .trailing :: rest => rest.isEmpty
  | _ => false

theorem not_slash_iff {a : List Char} : (∀ b ∈ bytes a, (b != slash) = true) ↔ '/' ∉ a := by
  rw [← slash_mem_bytes]
  constructor
  · intro h hmem
    exact absurd (h _ hmem) (by decide)
  · intro h b hb
    exact bne_iff_ne.mpr fun he => h (he ▸ hb)

theorem accepts_iff_denotes (ha : isAligned items = true) :
    accepts List.isEmpty (bytes cs) items = true ↔ Denotes items cs := by
  induction items generalizing cs with
  | nil => simp [accepts, Denotes, bytes_eq_nil]
  | cons i rest ih =>
    cases i with
    | literal c =>
      rw [Denotes]
      constructor
      · intro h
        obtain ⟨more, rfl, hmore⟩ := accepts_literal h
        exact ⟨more, rfl, (ih ha).mp hmore⟩
      · rintro ⟨more, rfl, hmore⟩
        rw [accepts, Item.accepts, exactly_iff]
        exact ⟨bytes more, bytes_cons c more, (ih ha).mpr hmore⟩
    | star =>
      obtain ⟨ho, ha⟩ := Bool.and_eq_true_iff.mp ha
      rw [accepts, Item.accepts, run_iff, Denotes]
      constructor
      · rintro ⟨u, v, hs, hu, hv⟩
        obtain ⟨a, b, rfl, rfl, rfl⟩ := split_of_begins hs (begins_of_accepts ho hv)
        exact ⟨a, b, rfl, not_slash_iff.mp hu, (ih ha).mp hv⟩
      · rintro ⟨a, b, rfl, hslash, hb⟩
        exact ⟨bytes a, bytes b, bytes_append a b, not_slash_iff.mpr hslash, (ih ha).mpr hb⟩
    | leading =>
      rw [accepts, Item.accepts, Bool.or_eq_true, Bool.or_eq_true, one_iff, run_iff, Denotes]
      constructor
      · rintro ((h | ⟨_, v, hs, hb, hv⟩) | ⟨u, w, hs, -, hw⟩)
        · exact Or.inl ((ih ha).mp h)
        · rw [eq_of_beq hb] at hs
          obtain ⟨more, rfl, rfl⟩ := bytes_eq_slash_cons hs
          exact Or.inr ⟨[], more, rfl, (ih ha).mp hv⟩
        · obtain ⟨_, v, rfl, hb, hv⟩ := one_iff.mp hw
          rw [eq_of_beq hb] at hs
          obtain ⟨a, b, rfl, -, hb⟩ := split_of_begins hs (begins_slash v)
          obtain ⟨more, rfl, rfl⟩ := bytes_eq_slash_cons hb.symm
          exact Or.inr ⟨a, more, rfl, (ih ha).mp hv⟩
      · rintro (h | ⟨a, b, rfl, hb⟩)
        · exact Or.inl (Or.inl ((ih ha).mpr h))
        · refine Or.inr ⟨bytes a, slash :: bytes b, ?_, fun _ _ => rfl, one_iff.mpr ⟨slash, bytes b, rfl, rfl, ?_⟩⟩
          · rw [bytes_append, bytes_cons, encode_slash, List.singleton_append]
          · exact (ih ha).mpr hb
    | trailing =>
      obtain rfl : rest = [] := List.isEmpty_iff.mp ha
      rw [accepts, Item.accepts, one_iff, Denotes]
      constructor
      · rintro ⟨_, v, hs, hb, -⟩
        rw [eq_of_beq hb] at hs
        obtain ⟨more, rfl, -⟩ := bytes_eq_slash_cons hs
        exact ⟨more, [], by rw [List.append_nil], rfl⟩
      · rintro ⟨a, b, rfl, rfl⟩
        refine ⟨slash, bytes a, ?_, rfl, run_iff.mpr ⟨bytes a, [], by simp, fun _ _ => rfl, rfl⟩⟩
        rw [List.append_nil, bytes_cons, encode_slash, List.singleton_append]
    | _ => cases ha

theorem isMatch_iff_denotes {text : String} (ha : isAligned items = true) (hne : items ≠ [.leading]) :
    isMatch items text = true ↔ Denotes items text.toList := by
  unfold isMatch
  split
  · exact absurd rfl hne
  · exact accepts_iff_denotes ha

/-! ## Texts that are read character by character -/

/-- The item of a character that is no bracket, brace, mark or backslash. -/
def itemOf (c : Char) : Item := if c = '*' then .star else .literal c

def isSimple (c : Char) : Bool := !(['?', '[', ']', '\x7b', '\x7d', '\\'].contains c)

/-- No two stars stand beside each other. -/
def isSpaced : List Char → Bool
  | [] => true
  | c :: rest => (c != '*' || rest.head? != some '*') && isSpaced rest

theorem isSpaced_of_not_mem (h : '*' ∉ cs) : isSpaced cs = true := by
  induction cs with
  | nil => rfl
  | cons c cs ih =>
    rw [List.mem_cons, not_or] at h
    rw [isSpaced, ih h.2, Bool.and_true, bne_iff_ne.mpr (Ne.symm h.1), Bool.true_or]

theorem isSpaced_star {a b : List Char} (ha : '*' ∉ a) (hb : '*' ∉ b) : isSpaced (a ++ '*' :: b) = true := by
  induction a with
  | nil =>
    have hhead : b.head? ≠ some '*' := fun h => hb (List.mem_of_mem_head? h)
    rw [List.nil_append, isSpaced, isSpaced_of_not_mem hb, bne_iff_ne.mpr hhead, Bool.or_true, Bool.and_true]
  | cons c a ih =>
    rw [List.mem_cons, not_or] at ha
    rw [List.cons_append, isSpaced, ih ha.2, Bool.and_true, bne_iff_ne.mpr (Ne.symm ha.1), Bool.true_or]

theorem readFrom_cons {r : Reading} {c : Char} (hr : r.outer = []) (hc : isSimple c = true)
    (hspaced : isSpaced (c :: cs) = true) : readFrom r none (c :: cs) = readFrom (r.push (itemOf c) c) none cs := by
  rw [readFrom.eq_def]
  split <;> simp_all [isSimple, itemOf, isSpaced, Reading.comma]

theorem readFrom_simple {r : Reading} (hr : r.outer = []) (hs : ∀ c ∈ cs, isSimple c = true)
    (hspaced : isSpaced cs = true) : readFrom r none cs = some (r.current.reverse ++ cs.map itemOf) := by
  induction cs generalizing r with
  | nil => simp [readFrom, hr]
  | cons c cs ih =>
    obtain ⟨hc, hs⟩ := List.forall_mem_cons.mp hs
    have hrest := ih (r := r.push (itemOf c) c) hr hs (Bool.and_eq_true_iff.mp hspaced).2
    rw [readFrom_cons hr hc hspaced, hrest]
    simp [Reading.push]

theorem isAligned_simple (hspaced : isSpaced cs = true) : isAligned (cs.map itemOf) = true := by
  induction cs with
  | nil => rfl
  | cons c cs ih =>
    have hrest := ih (Bool.and_eq_true_iff.mp hspaced).2
    by_cases hc : c = '*'
    · subst hc
      -- what follows the star is no star
      cases cs with
      | nil => rfl
      | cons a cs =>
        have ha : a ≠ '*' := by
          rintro rfl
          cases hspaced
        simpa [itemOf, isAligned, opens, ha] using hrest
    · simpa [itemOf, isAligned, hc] using hrest

theorem denotes_literals {a : List Char} :
    Denotes (a.map .literal ++ items) cs ↔ ∃ more, cs = a ++ more ∧ Denotes items more := by
  induction a generalizing cs with
  | nil => simp
  | cons c a ih =>
    rw [List.map_cons, List.cons_append, Denotes]
    constructor
    · rintro ⟨more, rfl, hmore⟩
      obtain ⟨more, rfl, hitems⟩ := ih.mp hmore
      exact ⟨more, rfl, hitems⟩
    · rintro ⟨more, rfl, hitems⟩
      exact ⟨a ++ more, rfl, ih.mpr ⟨more, rfl, hitems⟩⟩

theorem isAligned_literals {a : List Char} : isAligned (a.map .literal ++ items) = isAligned items := by
  induction a with
  | nil => rfl
  | cons c a ih => exact ih

theorem map_itemOf {a : List Char} (h : '*' ∉ a) : a.map itemOf = a.map .literal := by
  refine List.map_congr_left fun c hc => if_neg ?_
  rintro rfl
  exact h hc

end Outfitter.Glob
