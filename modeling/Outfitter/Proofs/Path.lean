import Mathlib.Data.List.Basic
import Mathlib.Tactic.Common
import Outfitter.Layout

/-! # The names of paths

What a path means on a disk depends on the names that it walks through, on whether it is
absolute and on its length. Joining appends names, and the parent drops the last one.
-/

namespace Outfitter

/-- A name that an entry of a directory can have. -/
def isName (s : String) : Bool := s != "" && s != "." && s != ".." && !s.toList.contains '/'

theorem isName_iff {s : String} :
    isName s = true ↔ s ≠ "" ∧ s ≠ "." ∧ s ≠ ".." ∧ '/' ∉ s.toList := by
  simp [isName, and_assoc]

namespace Path

theorem isIdle_iff {s : String} : isIdle s = true ↔ s = "" ∨ s = "." := by
  simp [isIdle]

theorem isIdle_of_isName {s : String} (h : isName s = true) : isIdle s = false := by
  have hs := isName_iff.mp h
  simp [isIdle, hs.1, hs.2.1]

theorem filter_names {rel : List String} (h : ∀ s ∈ rel, isName s = true) :
    rel.filter (fun s => !isIdle s) = rel := by
  rw [List.filter_eq_self]
  intro s hs
  simp [isIdle_of_isName (h s hs)]

/-! ## Joining -/

variable {p q : Path}

theorem names_of_isEmpty (h : p.isEmpty = true) : p.names = [] := by
  rcases p with ⟨segs⟩
  simp only [isEmpty, Bool.or_eq_true, beq_iff_eq] at h
  rcases h with rfl | rfl <;> rfl

theorem isAbsolute_of_isEmpty (h : p.isEmpty = true) : p.isAbsolute = false := by
  rcases p with ⟨segs⟩
  simp only [isEmpty, Bool.or_eq_true, beq_iff_eq] at h
  rcases h with rfl | rfl <;> rfl

theorem names_join (h : q.isAbsolute = false) : (p.join q).names = p.names ++ q.names := by
  unfold join
  rw [h, if_neg Bool.false_ne_true]
  split
  · next he => simp [names_of_isEmpty he]
  split
  · next hl =>
    obtain ⟨segs⟩ := p
    obtain ⟨init, rfl⟩ := List.getLast?_eq_some_iff.mp hl
    simp [names, isIdle]
  · simp [names]

theorem isAbsolute_cons_cons (a b : String) (rest : List String) :
    isAbsolute ⟨a :: b :: rest⟩ = (a == "") := by
  by_cases h : a = ""
  · subst h; rfl
  · simp [isAbsolute, h]

theorem isAbsolute_join (h : q.isAbsolute = false) (hq : q.segments ≠ []) :
    (p.join q).isAbsolute = p.isAbsolute := by
  unfold join
  rw [h, if_neg Bool.false_ne_true]
  split
  · next he => rw [h, isAbsolute_of_isEmpty he]
  next he =>
  obtain ⟨segs⟩ := p
  obtain ⟨b, qs, hb⟩ := List.exists_cons_of_ne_nil hq
  match segs with
  | [] => simp [isEmpty] at he
  | [a] =>
    have ha : a ≠ "" := by simpa [isEmpty] using he
    simp [ha, hb, isAbsolute]
  | [a, c] =>
    by_cases hc : c = ""
    · simp [hc, hb, isAbsolute_cons_cons]
    · simp [hc, hb, isAbsolute_cons_cons]
  | a :: c :: e :: segs =>
    split <;> simp [isAbsolute_cons_cons]

theorem isAbsolute_of_isName {rel : List String} (h : ∀ s ∈ rel, isName s = true) :
    isAbsolute ⟨rel⟩ = false := by
  match rel with
  | [] => rfl
  | [_] => simp [isAbsolute]
  | a :: b :: rest =>
    have ha := (isName_iff.mp (h a (by simp))).1
    simp [isAbsolute_cons_cons, ha]

theorem join_mk {rel : List String} (hn : ∀ s ∈ rel, isName s = true) :
    p.join ⟨rel⟩ = ⟨if p.isEmpty then rel
      else if p.segments.getLast? = some "" then p.segments.dropLast ++ rel
      else p.segments ++ rel⟩ := by
  unfold join
  rw [isAbsolute_of_isName hn, if_neg Bool.false_ne_true]
  split
  · rfl
  split <;> rfl

theorem names_join_mk {rel : List String} (hn : ∀ s ∈ rel, isName s = true) :
    (p.join ⟨rel⟩).names = p.names ++ rel := by
  rw [names_join (isAbsolute_of_isName hn)]
  congr 1
  exact filter_names hn

theorem getLast?_join {rel : List String} (hr : rel ≠ []) (hn : ∀ s ∈ rel, isName s = true) :
    (p.join ⟨rel⟩).segments.getLast? = rel.getLast? := by
  obtain ⟨b, hb⟩ := Option.isSome_iff_exists.mp (List.getLast?_isSome.mpr hr)
  rw [join_mk hn]
  split
  · rfl
  · split <;> simp [List.getLast?_append, hb]

theorem getLast?_isName {rel : List String} {b : String} (hn : ∀ s ∈ rel, isName s = true)
    (hb : rel.getLast? = some b) : isName b = true :=
  hn b (List.mem_of_getLast? hb)

theorem endsIdle_join {rel : List String} (hr : rel ≠ []) (hn : ∀ s ∈ rel, isName s = true) :
    (p.join ⟨rel⟩).endsIdle = false := by
  obtain ⟨b, hb⟩ := Option.isSome_iff_exists.mp (List.getLast?_isSome.mpr hr)
  rw [endsIdle, getLast?_join hr hn, hb]
  exact isIdle_of_isName (getLast?_isName hn hb)

theorem isEmpty_join {rel : List String} (hr : rel ≠ []) (hn : ∀ s ∈ rel, isName s = true) :
    (p.join ⟨rel⟩).isEmpty = false := by
  obtain ⟨b, hb⟩ := Option.isSome_iff_exists.mp (List.getLast?_isSome.mpr hr)
  have hl := getLast?_join (p := p) hr hn
  have hne := (isName_iff.mp (getLast?_isName hn hb)).1
  cases he : (p.join ⟨rel⟩).isEmpty with
  | false => rfl
  | true =>
    simp only [isEmpty, Bool.or_eq_true, beq_iff_eq] at he
    rcases he with he | he <;> rw [he, hb] at hl
    · exact absurd (by simpa using hl.symm) hne
    · cases hl

/-- Names can be joined one after the other or at once. -/
theorem join_join {a b : List String} (ha : a ≠ []) (hna : ∀ s ∈ a, isName s = true)
    (hnb : ∀ s ∈ b, isName s = true) : (p.join ⟨a⟩).join ⟨b⟩ = p.join ⟨a ++ b⟩ := by
  obtain ⟨c, hc⟩ := Option.isSome_iff_exists.mp (List.getLast?_isSome.mpr ha)
  have hne := (isName_iff.mp (getLast?_isName hna hc)).1
  have hab : ∀ s ∈ a ++ b, isName s = true := by
    intro s hs
    exact (List.mem_append.mp hs).elim (hna s) (hnb s)
  rw [join_mk hnb, isEmpty_join ha hna, getLast?_join ha hna, hc,
    if_neg Bool.false_ne_true, if_neg (by simpa using hne), join_mk hna, join_mk hab]
  split
  · rfl
  · split <;> simp

/-! ## Texts -/

/-- The characters of a literal, by `rfl` for the list that it stands for. -/
theorem toList_literal {s : String} {cs : List Char} (h : s = String.ofList cs) : s.toList = cs := by
  rw [h, String.toList_ofList]

theorem splitSlash_ne_nil (s : String) : splitSlash s ≠ [] := by
  simp [splitSlash, List.splitOn_ne_nil]

theorem splitSlash_of_isName {s : String} (h : isName s = true) : splitSlash s = [s] := by
  have hs := (isName_iff.mp h).2.2.2
  simp [splitSlash, List.splitOn_eq_singleton hs]

theorem splitSlash_of_prefix {s x : String} (hx : '/' ∉ x.toList) (h : x.toList ++ ['/'] <+: s.toList) :
    ∃ rest, splitSlash s = x :: rest := by
  obtain ⟨cs, hcs⟩ := h
  rw [List.append_assoc, List.singleton_append] at hcs
  refine ⟨(cs.splitOn '/').map String.ofList, ?_⟩
  rw [splitSlash, ← hcs, List.splitOn_append_cons_self_of_not_mem hx, List.map_cons, String.ofList_toList]

theorem prefix_of_splitSlash {s x : String} {rest : List String} (h : splitSlash s = x :: rest) :
    x.toList <+: s.toList := by
  obtain ⟨y, ys, hy⟩ := List.exists_cons_of_ne_nil (List.splitOn_ne_nil '/' s.toList)
  rw [splitSlash, hy, List.map_cons, List.cons.injEq] at h
  have hs : ['/'].intercalate (s.toList.splitOn '/') = s.toList := List.intercalate_splitOn '/'
  rw [← h.1, String.toList_ofList, ← hs, hy]
  cases ys with
  | nil => simp
  | cons z zs =>
    rw [List.intercalate_cons_cons, List.append_assoc]
    exact List.prefix_append _ _

theorem slash_of_mem_splitSlash {s x : String} (h : x ∈ splitSlash s) : '/' ∉ x.toList := by
  obtain ⟨cs, hcs, rfl⟩ := List.mem_map.mp h
  rw [String.toList_ofList]
  clear h
  generalize s.toList = xs at hcs
  induction xs generalizing cs with
  | nil =>
    rw [List.splitOn_nil, List.mem_singleton] at hcs
    simp [hcs]
  | cons c xs ih =>
    rw [List.splitOn_cons_eq_if_modifyHead] at hcs
    split at hcs
    · rcases List.mem_cons.mp hcs with rfl | hcs
      · simp
      · exact ih cs hcs
    · next hc =>
      obtain ⟨y, ys, hys⟩ := List.exists_cons_of_ne_nil (List.splitOn_ne_nil '/' xs)
      rw [hys, List.modifyHead_cons] at hcs
      rcases List.mem_cons.mp hcs with rfl | hcs
      · have hy := ih y (by simp [hys])
        simp only [List.mem_cons, not_or]
        exact ⟨fun h => hc (beq_iff_eq.mpr h.symm), hy⟩
      · exact ih cs (by simp [hys, hcs])

/-- A text is the text of the path that it is read as. -/
theorem text_ofText (s : String) : (ofText s).text = s := by
  rw [← String.toList_inj, text, String.toList_intercalate, ofText, splitSlash, List.map_map]
  have hid : String.toList ∘ String.ofList = id := by
    funext cs; simp
  rw [hid, List.map_id]
  exact List.intercalate_splitOn '/'

theorem splitSlash_append (a b : String) : splitSlash (a ++ "/" ++ b) = splitSlash a ++ splitSlash b := by
  rw [splitSlash, String.toList_append, String.toList_append, List.append_assoc]
  exact (congrArg _ (List.splitOn_append_cons_self a.toList b.toList)).trans List.map_append

theorem splitSlash_of_no_slash {s : String} (h : '/' ∉ s.toList) : splitSlash s = [s] := by
  simp [splitSlash, List.splitOn_eq_singleton h]

theorem intercalate_append {xs ys : List (List Char)} (hx : xs ≠ []) (hy : ys ≠ []) :
    ['/'].intercalate (xs ++ ys) = ['/'].intercalate xs ++ '/' :: ['/'].intercalate ys := by
  obtain ⟨y, ys, rfl⟩ := List.exists_cons_of_ne_nil hy
  induction xs with
  | nil => exact absurd rfl hx
  | cons x xs ih =>
    cases xs with
    | nil => simp [List.intercalate]
    | cons x' xs =>
      have h := ih (List.cons_ne_nil _ _)
      simp only [List.intercalate, List.cons_append, List.intersperse_cons_cons, List.flatten_cons] at h ⊢
      rw [h]
      simp

theorem text_append {xs ys : List String} (hx : xs ≠ []) (hy : ys ≠ []) :
    (Path.mk (xs ++ ys)).text = (Path.mk xs).text ++ "/" ++ (Path.mk ys).text := by
  rw [← String.toList_inj, text, text, text, String.toList_append, String.toList_append, String.toList_intercalate,
    String.toList_intercalate, String.toList_intercalate, List.map_append]
  exact (intercalate_append (by simpa using hx) (by simpa using hy)).trans (by simp)

/-- A text whose segments begin with those of another is that text, or goes on after a slash. -/
theorem append_of_splitSlash {a s : String} (h : splitSlash a <+: splitSlash s) : s = a ∨ ∃ r, s = a ++ "/" ++ r := by
  obtain ⟨rest, hrest⟩ := h
  have hs : (Path.mk (splitSlash a ++ rest)).text = s := hrest ▸ text_ofText s
  have ha : (Path.mk (splitSlash a)).text = a := text_ofText a
  by_cases hne : rest = []
  · rw [hne, List.append_nil, ha] at hs
    exact Or.inl hs.symm
  · rw [text_append (splitSlash_ne_nil a) hne, ha] at hs
    exact Or.inr ⟨_, hs.symm⟩

/-- A text whose segments end with those of another is that text, or ends so after a slash. -/
theorem append_of_splitSlash_suffix {a s : String} (h : splitSlash a <:+ splitSlash s) :
    s = a ∨ ∃ r, s = r ++ "/" ++ a := by
  obtain ⟨rest, hrest⟩ := h
  have hs : (Path.mk (rest ++ splitSlash a)).text = s := hrest ▸ text_ofText s
  have ha : (Path.mk (splitSlash a)).text = a := text_ofText a
  by_cases hne : rest = []
  · rw [hne, List.nil_append, ha] at hs
    exact Or.inl hs.symm
  · rw [text_append hne (splitSlash_ne_nil a), ha] at hs
    exact Or.inr ⟨_, hs.symm⟩

theorem isAbsolute_slash (s : String) : (ofText ("/" ++ s)).isAbsolute = true := by
  obtain ⟨y, ys, hy⟩ := List.exists_cons_of_ne_nil (List.splitOn_ne_nil '/' s.toList)
  have hsplit : splitSlash ("/" ++ s) = "" :: String.ofList y :: ys.map String.ofList := by
    rw [splitSlash, String.toList_append, show "/".toList ++ s.toList = [] ++ '/' :: s.toList from rfl,
      List.splitOn_append_cons_self_of_not_mem (by simp), hy]
    rfl
  rw [ofText, hsplit]
  rfl

/-! ## Parents -/

theorem segments_eq (p : Path) : p.segments = p.lead ++ p.body := by
  obtain ⟨segs⟩ := p
  unfold body lead
  split <;> simp_all

theorem isIdle_of_mem_lead {s : String} (h : s ∈ p.lead) : isIdle s = true := by
  unfold lead at h
  split at h <;> simp_all [isIdle]

theorem names_eq_filter_body (p : Path) : p.names = p.body.filter (fun s => !isIdle s) := by
  rw [names, segments_eq, List.filter_append, List.filter_eq_nil_iff.mpr, List.nil_append]
  intro s hs
  simp [isIdle_of_mem_lead hs]

theorem dropIdleEnd_eq (segs : List String) :
    ∃ idle, segs = dropIdleEnd segs ++ idle ∧ ∀ s ∈ idle, isIdle s = true := by
  refine ⟨(segs.reverse.takeWhile isIdle).reverse, ?_, ?_⟩
  · rw [dropIdleEnd, ← List.reverse_append, List.takeWhile_append_dropWhile, List.reverse_reverse]
  · intro s hs
    exact List.all_eq_true.mp List.all_takeWhile s (List.mem_reverse.mp hs)

theorem filter_dropIdleEnd (segs : List String) :
    (dropIdleEnd segs).filter (fun s => !isIdle s) = segs.filter (fun s => !isIdle s) := by
  obtain ⟨idle, he, hi⟩ := dropIdleEnd_eq segs
  have hn : idle.filter (fun s => !isIdle s) = [] := by
    rw [List.filter_eq_nil_iff]
    intro s hs
    simp [hi s hs]
  conv_rhs => rw [he, List.filter_append, hn, List.append_nil]

theorem isIdle_getLast_dropIdleEnd {segs init : List String} {s : String}
    (h : dropIdleEnd segs = init ++ [s]) : isIdle s = false := by
  have hr : segs.reverse.dropWhile isIdle = s :: init.reverse := by
    rw [dropIdleEnd] at h
    simpa using congrArg List.reverse h
  have := List.head_dropWhile_not isIdle (l := segs.reverse) (by simp [hr])
  simpa [hr] using this

theorem names_ofParts {lead body : List String} (h : ∀ s ∈ lead, isIdle s = true) :
    (ofParts lead body).names = body.filter (fun s => !isIdle s) := by
  unfold ofParts
  split
  · rfl
  · rfl
  · rw [names, List.filter_append, List.filter_eq_nil_iff.mpr, List.nil_append]
    intro s hs
    simp [h s hs]

theorem lead_cases (p : Path) :
    (∃ x rest, p.segments = "" :: x :: rest ∧ p.lead = [""] ∧ p.body = x :: rest ∧
      p.isAbsolute = true) ∨
    (∃ rest, p.segments = "." :: rest ∧ p.lead = ["."] ∧ p.body = rest ∧ p.isAbsolute = false) ∨
    (p.lead = [] ∧ p.body = p.segments ∧ p.isAbsolute = false) := by
  obtain ⟨segs⟩ := p
  match segs with
  | [] => simp [lead, body, isAbsolute]
  | [a] =>
    by_cases h : a = "."
    · subst h; simp [lead, body, isAbsolute]
    · simp [lead, body, isAbsolute, h]
  | a :: b :: rest =>
    by_cases h : a = ""
    · subst h; simp [lead, body, isAbsolute]
    by_cases h' : a = "."
    · subst h'; simp [lead, body, isAbsolute]
    · simp [lead, body, isAbsolute, h, h']

/-- What the parent of a path is: nothing, or an empty path, for a path without names; and
otherwise the path up to its last name. -/
theorem parent?_cases (p : Path) :
    (p.names = [] ∧ (p.parent? = none ∨ p.parent? = some ⟨[""]⟩ ∧ p.isAbsolute = false)) ∨
    (∃ init s rest, p.parent? = some (ofParts p.lead init) ∧ p.body = init ++ rest ∧
      s ∈ rest ∧ isIdle s = false ∧ p.names = init.filter (fun s => !isIdle s) ++ [s]) := by
  obtain ⟨idle, he, -⟩ := dropIdleEnd_eq p.body
  rcases List.eq_nil_or_concat' (dropIdleEnd p.body) with hn | ⟨init, s, hs⟩
  · left
    refine ⟨by rw [names_eq_filter_body, ← filter_dropIdleEnd, hn, List.filter_nil], ?_⟩
    unfold parent?
    rw [hn]
    rcases lead_cases p with ⟨_, _, _, hl, _⟩ | ⟨_, _, hl, _, ha⟩ | ⟨hl, _, _⟩
    · simp [hl]
    · simp [hl, ha]
    · simp [hl]
  · right
    obtain ⟨idle', he', -⟩ := dropIdleEnd_eq init
    have hi := isIdle_getLast_dropIdleEnd hs
    refine ⟨dropIdleEnd init, s, idle' ++ s :: idle, ?_, ?_, by simp, hi, ?_⟩
    · unfold parent?
      split
      · next hn => simp [hn] at hs
      · rw [hs, List.dropLast_concat]
    · rw [he, hs]
      conv_lhs => rw [he']
      simp
    · rw [names_eq_filter_body, ← filter_dropIdleEnd, hs, List.filter_append, filter_dropIdleEnd]
      simp [hi]

theorem names_parent? (h : p.parent? = some q) : q.names = p.names.dropLast := by
  rcases parent?_cases p with ⟨hn, hp | ⟨hp, _⟩⟩ | ⟨init, s, rest, hp, _, _, _, hn⟩ <;> rw [hp] at h <;>
    cases h
  · rw [hn]; rfl
  · rw [names_ofParts fun _ => isIdle_of_mem_lead, hn, List.dropLast_concat]

theorem exists_parent? (h : p.names ≠ []) : ∃ q, p.parent? = some q := by
  rcases parent?_cases p with ⟨hn, _⟩ | ⟨_, _, _, hp, _⟩
  · exact absurd hn h
  · exact ⟨_, hp⟩

theorem ofParts_cases (lead body : List String) :
    ofParts lead body = ⟨lead ++ body⟩ ∨ (body = [] ∧ lead = [""] ∧ ofParts lead body = ⟨["", ""]⟩) ∨
      (body = [] ∧ lead = [] ∧ ofParts lead body = ⟨[""]⟩) := by
  unfold ofParts
  split <;> simp

theorem isAbsolute_parent? (h : p.parent? = some q) : q.isAbsolute = p.isAbsolute := by
  rcases parent?_cases p with ⟨hn, hp | ⟨hp, ha⟩⟩ | ⟨init, s, rest, hp, hb, hs, hi, hn⟩ <;>
    rw [hp] at h <;> cases h
  · rw [ha]; rfl
  · rcases lead_cases p with ⟨x, tl, _, hl, _, ha⟩ | ⟨tl, _, hl, _, ha⟩ | ⟨hl, hbs, ha⟩
    · rw [ha, hl]
      match init with
      | [] => rfl
      | y :: init => rfl
    · rw [ha, hl]
      match init with
      | [] => rfl
      | y :: init => rfl
    · rw [ha, hl]
      match init with
      | [] => rfl
      | [y] => simp [ofParts, isAbsolute]
      | y :: z :: init =>
        have hseg : p.segments = y :: z :: (init ++ rest) := by rw [← hbs, hb]; rfl
        have hy : p.isAbsolute = (y == "") := by
          rw [← isAbsolute_cons_cons y z (init ++ rest), ← hseg]
        exact (isAbsolute_cons_cons y z init).trans (hy.symm.trans ha)

/-! ## File names -/

/-- The name of a file is the last name of its path, unless that leads upwards. -/
theorem fileName?_eq (p : Path) :
    p.fileName? = p.names.getLast?.bind fun s => if s = ".." then none else some s := by
  rw [fileName?, components, names_eq_filter_body, List.getLast?_append, List.getLast?_map]
  cases (List.filter (fun s => !isIdle s) p.body).getLast? with
  | some s =>
    by_cases hu : s = ".."
    · subst hu
      rfl
    · simp [step, hu]
  | none =>
    rcases lead_cases p with ⟨_, _, _, hl, _⟩ | ⟨_, _, hl, _⟩ | ⟨hl, _⟩ <;> simp [hl]

theorem fileName?_some {s : String} (h : p.fileName? = some s) :
    s ≠ ".." ∧ p.names.getLast? = some s := by
  rw [fileName?_eq] at h
  obtain ⟨a, ha, hs⟩ := Option.bind_eq_some_iff.mp h
  split at hs
  · cases hs
  · next hu => cases hs; exact ⟨hu, ha⟩

theorem withFileName_cases (p : Path) (name : String) :
    (p.fileName? = none ∧ p.withFileName name = p / name) ∨
    (∃ s q, p.fileName? = some s ∧ p.parent? = some q ∧ p.withFileName name = q / name) := by
  cases hf : p.fileName? with
  | none =>
    refine Or.inl ⟨rfl, ?_⟩
    rw [withFileName, hf]
  | some s =>
    have hne : p.names ≠ [] := by
      intro he
      have := (fileName?_some hf).2
      rw [he] at this
      cases this
    obtain ⟨q, hq⟩ := exists_parent? hne
    refine Or.inr ⟨s, q, rfl, hq, ?_⟩
    rw [withFileName, hf, hq]

/-! ## Proper names -/

/-- Each name of a path leads upwards or can be the name of an entry. -/
def Named (p : Path) : Prop := ∀ s ∈ p.names, s = ".." ∨ isName s = true

theorem Named.join {rel : List String} (h : p.Named) (hn : ∀ s ∈ rel, isName s = true) :
    (p.join ⟨rel⟩).Named := by
  intro s hs
  rw [names_join (isAbsolute_of_isName hn), List.mem_append] at hs
  exact hs.elim (h s) fun hs => Or.inr (hn s (List.mem_of_mem_filter hs))

theorem Named.parent (h : p.Named) (hq : p.parent? = some q) : q.Named := by
  intro s hs
  rw [names_parent? hq] at hs
  exact h s ((List.dropLast_prefix _).subset hs)

theorem Named.ancestors {fuel : Nat} (h : p.Named) (hq : q ∈ p.ancestorsUpTo fuel) : q.Named := by
  induction fuel generalizing p with
  | zero =>
    rw [ancestorsUpTo, List.mem_singleton] at hq
    exact hq ▸ h
  | succ fuel ih =>
    rw [ancestorsUpTo] at hq
    split at hq
    · next r hr =>
      rcases List.mem_cons.mp hq with rfl | hq
      · exact h
      · exact ih (h.parent hr) hq
    · rw [List.mem_singleton] at hq
      exact hq ▸ h

theorem named_ofText (s : String) : (ofText s).Named := by
  intro x hx
  obtain ⟨hx, hidle⟩ := List.mem_filter.mp hx
  have hslash := slash_of_mem_splitSlash hx
  by_cases hu : x = ".."
  · exact Or.inl hu
  · simp only [Bool.not_eq_true'] at hidle
    have hne := isIdle_iff.not.mp (by rw [hidle]; exact Bool.false_ne_true)
    exact Or.inr (isName_iff.mpr ⟨fun h => hne (Or.inl h), fun h => hne (Or.inr h), hu, hslash⟩)

/-! ## Steps -/

/-- A path first goes up and then takes its steps. -/
theorem names_eq_steps (p : Path) : p.names = List.replicate p.rise ".." ++ p.steps := by
  rw [rise, steps]
  cases p.isAbsolute with
  | true => rfl
  | false =>
    have hups : ∀ s ∈ p.names.takeWhile (· = ".."), s = ".." := fun s hs =>
      of_decide_eq_true (List.all_eq_true.mp List.all_takeWhile s hs)
    exact (List.eq_replicate_iff.mpr ⟨rfl, hups⟩ ▸ List.takeWhile_append_dropWhile).symm

/-- The steps of a relative path do not begin by going up. -/
theorem head?_steps (h : p.isAbsolute = false) : p.steps.head? ≠ some ".." := by
  intro hs
  have hnot := List.head?_dropWhile_not (fun s => decide (s = "..")) p.names
  rw [steps, h, if_neg Bool.false_ne_true] at hs
  rw [hs] at hnot
  cases hnot

theorem steps_unique {n : Nat} {xs : List String} (h : p.names = List.replicate n ".." ++ xs)
    (ha : p.isAbsolute = true → n = 0) (hx : p.isAbsolute = false → xs.head? ≠ some "..") :
    p.rise = n ∧ p.steps = xs := by
  rw [rise, steps, h]
  cases hp : p.isAbsolute with
  | true =>
    rw [ha hp]
    exact ⟨rfl, rfl⟩
  | false =>
    have hups : ∀ s ∈ List.replicate n "..", decide (s = "..") = true := fun s hs =>
      decide_eq_true (List.eq_of_mem_replicate hs)
    rw [if_neg Bool.false_ne_true, if_neg Bool.false_ne_true, List.takeWhile_append_of_pos hups,
      List.dropWhile_append_of_pos hups]
    cases xs with
    | nil => simp
    | cons x xs =>
      have hne : x ≠ ".." := fun he => hx hp (by rw [he, List.head?_cons])
      simp [hne]

theorem steps_of_isEmpty (h : p.isEmpty = true) : p.rise = 0 ∧ p.steps = [] :=
  steps_unique (names_of_isEmpty h) (fun _ => rfl) fun _ => by simp

theorem isBare_of_isEmpty (h : p.isEmpty = true) : p.isBare = true ∧ p.byteSize = 0 := by
  rcases p with ⟨segs⟩
  simp only [isEmpty, Bool.or_eq_true, beq_iff_eq] at h
  rcases h with rfl | rfl <;> exact ⟨rfl, rfl⟩

theorem steps_of_isBare (h : p.isBare = true) : p.steps = [] := by
  rw [isBare, Bool.and_eq_true, List.isEmpty_iff] at h
  exact h.2

theorem names_ne_nil_of_steps (h : p.steps ≠ []) : p.names ≠ [] := by
  rw [names_eq_steps]
  simp [h]

theorem endsDotted_of_endsIdle (h : p.endsIdle = false) : p.endsDotted = false := by
  unfold endsDotted
  cases hlast : p.segments.getLast? with
  | none => simp [List.getLast?_eq_none_iff.mp hlast]
  | some s =>
    have hs : s ≠ "" ∧ s ≠ "." := by simpa [endsIdle, hlast, isIdle] using h
    rw [← List.head?_reverse, List.head?_eq_some_iff] at hlast
    obtain ⟨rest, hrest⟩ := hlast
    simp [hrest, hs]

/-- A parent that takes a step ends in a name. -/
theorem endsIdle_parent? (h : p.parent? = some q) (hs : q.steps ≠ []) : q.endsIdle = false := by
  have hnames := names_ne_nil_of_steps hs
  unfold parent? at h
  split at h
  · split at h
    · cases h
      exact absurd rfl hnames
    · cases h
  · cases h
    rcases List.eq_nil_or_concat' (dropIdleEnd (dropIdleEnd p.body).dropLast) with hnil | ⟨init, s, hlast⟩
    · rw [hnil, names_ofParts fun _ => isIdle_of_mem_lead] at hnames
      exact absurd rfl hnames
    · have hidle := isIdle_getLast_dropIdleEnd hlast
      rcases ofParts_cases p.lead (dropIdleEnd (dropIdleEnd p.body).dropLast) with heq | ⟨hnil, -⟩ | ⟨hnil, -⟩
      · rw [heq, hlast, endsIdle, ← List.append_assoc]
        simp [hidle]
      · simp [hnil] at hlast
      · simp [hnil] at hlast

theorem length_steps_le (p : Path) : p.steps.length ≤ p.segments.length := by
  have hnames : p.names.length ≤ p.segments.length := List.length_filter_le _ _
  rw [names_eq_steps, List.length_append] at hnames
  omega

theorem mem_steps_or_up {s : String} (h : s ∈ p.names) : s = ".." ∨ s ∈ p.steps := by
  rw [names_eq_steps, List.mem_append] at h
  exact h.imp_left List.eq_of_mem_replicate

theorem mem_names_of_steps {s : String} (h : s ∈ p.steps) : s ∈ p.names := by
  rw [names_eq_steps]
  exact List.mem_append_right _ h

/-- Names that are joined to a path are steps after its own. -/
theorem steps_join {rel : List String} (hn : ∀ s ∈ rel, isName s = true) (hr : rel ≠ []) :
    (p.join ⟨rel⟩).rise = p.rise ∧ (p.join ⟨rel⟩).steps = p.steps ++ rel := by
  have habs := isAbsolute_join (p := p) (isAbsolute_of_isName hn) hr
  apply steps_unique
  · rw [names_join_mk hn, names_eq_steps p, List.append_assoc]
  · rw [habs, rise]
    exact fun h => if_pos h
  · rw [habs, List.head?_append]
    intro h hs
    cases hsteps : p.steps.head? with
    | some x =>
      rw [hsteps, Option.some_or] at hs
      exact head?_steps h (hsteps.trans hs)
    | none =>
      rw [hsteps, Option.none_or] at hs
      exact (isName_iff.mp (hn _ (List.mem_of_head? hs))).2.2.1 rfl

/-- The parent of a path that takes a step takes the last one no more. -/
theorem steps_parent? (hne : p.steps ≠ []) (h : p.parent? = some q) :
    q.rise = p.rise ∧ q.steps = p.steps.dropLast := by
  have habs := isAbsolute_parent? h
  apply steps_unique
  · rw [names_parent? h, names_eq_steps p, List.dropLast_append_of_ne_nil hne]
  · rw [habs, rise]
    exact fun h => if_pos h
  · rw [habs]
    intro hp hs
    refine head?_steps hp ?_
    obtain ⟨tl, htl⟩ := List.dropLast_prefix p.steps
    rw [← htl, List.head?_append, hs, Option.some_or]

/-- Only a relative path that takes no step has a parent all the same. -/
theorem isBare_parent? (hs : p.steps = []) (h : p.parent? = some q) : q.isBare = true := by
  have habs : p.isAbsolute = false := by
    rw [Bool.eq_false_iff]
    intro habs
    rw [steps, if_pos habs] at hs
    rcases parent?_cases p with ⟨-, hp | ⟨-, hrel⟩⟩ | ⟨_, _, _, -, -, -, -, hn⟩
    · rw [hp] at h
      cases h
    · rw [habs] at hrel
      cases hrel
    · simp [hs] at hn
  have hq := isAbsolute_parent? h
  rw [isBare, hq, habs, Bool.not_false, Bool.true_and, List.isEmpty_iff]
  refine (steps_unique (n := p.rise - 1) ?_ ?_ fun _ => by simp).2
  · rw [names_parent? h, names_eq_steps p, hs, List.append_nil, List.append_nil, List.dropLast_replicate]
  · rw [hq, habs]
    exact fun h => absurd h Bool.false_ne_true

theorem isAbsolute_ancestors {fuel : Nat} (hq : q ∈ p.ancestorsUpTo fuel) : q.isAbsolute = p.isAbsolute := by
  induction fuel generalizing p with
  | zero =>
    rw [ancestorsUpTo, List.mem_singleton] at hq
    rw [hq]
  | succ fuel ih =>
    rw [ancestorsUpTo] at hq
    split at hq
    · next r hr =>
      rcases List.mem_cons.mp hq with rfl | hq
      · rfl
      · exact (ih hq).trans (isAbsolute_parent? hr)
    · rw [List.mem_singleton] at hq
      rw [hq]

theorem isBare_ancestors {fuel : Nat} (hb : p.isBare = true) (hq : q ∈ p.ancestorsUpTo fuel) :
    q.isBare = true := by
  induction fuel generalizing p with
  | zero =>
    rw [ancestorsUpTo, List.mem_singleton] at hq
    exact hq ▸ hb
  | succ fuel ih =>
    rw [ancestorsUpTo] at hq
    split at hq
    · next r hr =>
      rcases List.mem_cons.mp hq with rfl | hq
      · exact hb
      · exact ih (isBare_parent? (steps_of_isBare hb) hr) hq
    · rw [List.mem_singleton] at hq
      exact hq ▸ hb

theorem getLast?_steps {s : String} (h : p.names.getLast? = some s) (hs : s ≠ "..") :
    p.steps.getLast? = some s := by
  rw [names_eq_steps, List.getLast?_append] at h
  cases hl : p.steps.getLast? with
  | some x => rwa [hl, Option.some_or] at h
  | none =>
    rw [hl, Option.none_or] at h
    exact absurd (List.eq_of_mem_replicate (List.mem_of_getLast? h)) hs

/-! ## Lengths -/

theorem bytes_append (a b : List String) : bytes (a ++ b) = bytes a + bytes b := by
  induction a with
  | nil => simp [bytes]
  | cons s a ih => simp [bytes, ih, Nat.add_assoc]

theorem byteSize_mk (segs : List String) : byteSize ⟨segs⟩ = bytes segs + (segs.length - 1) := rfl

/-- Names that are joined to a path follow what stands for it. -/
theorem join_base (p : Path) :
    ∃ base, ∀ rel : List String, (∀ s ∈ rel, isName s = true) → p.join ⟨rel⟩ = ⟨base ++ rel⟩ := by
  by_cases he : p.isEmpty = true
  · exact ⟨[], fun rel hn => by rw [join_mk hn, if_pos he]; rfl⟩
  · by_cases hl : p.segments.getLast? = some ""
    · exact ⟨p.segments.dropLast, fun rel hn => by rw [join_mk hn, if_neg he, if_pos hl]⟩
    · exact ⟨p.segments, fun rel hn => by rw [join_mk hn, if_neg he, if_neg hl]⟩

theorem byteSize_parent?_le (h : p.parent? = some q) : q.byteSize ≤ p.byteSize := by
  rcases parent?_cases p with ⟨_, hp | ⟨hp, _⟩⟩ | ⟨init, s, rest, hp, hb, hs, _, _⟩ <;>
    rw [hp] at h <;> cases h
  · exact Nat.zero_le _
  · have hr : 1 ≤ rest.length := List.length_pos_of_mem hs
    have hp : p.byteSize = bytes (p.lead ++ init ++ rest) + ((p.lead ++ init ++ rest).length - 1) := by
      rw [List.append_assoc, ← hb, ← segments_eq]; rfl
    rw [hp]
    rcases ofParts_cases p.lead init with he | ⟨rfl, hl, he⟩ | ⟨rfl, hl, he⟩ <;>
      rw [he, byteSize_mk]
    · simp only [bytes_append, List.length_append]; omega
    · simp [bytes, hl]; omega
    · simp [bytes]

theorem mem_segments_parent? (h : p.parent? = some q) {s : String} (hs : s ∈ q.segments) :
    s ∈ p.segments ∨ s = "" := by
  rcases parent?_cases p with ⟨_, hp | ⟨hp, _⟩⟩ | ⟨init, _, rest, hp, hb, _, _, _⟩ <;>
    rw [hp] at h <;> cases h
  · exact Or.inr (by simpa using hs)
  · rw [segments_eq p, hb]
    rcases ofParts_cases p.lead init with he | ⟨_, _, he⟩ | ⟨_, _, he⟩ <;> rw [he] at hs
    · left
      rw [← List.append_assoc]
      exact List.mem_append_left _ hs
    · exact Or.inr (by simpa using hs)
    · exact Or.inr (by simpa using hs)

/-! ## Parents of joined paths -/

theorem dropIdleEnd_concat {segs : List String} {s : String} (h : isIdle s = false) :
    dropIdleEnd (segs ++ [s]) = segs ++ [s] := by
  simp [dropIdleEnd, h]

theorem parent?_of_segments {segs : List String} {s name : String} (hs : isIdle s = false)
    (hname : isIdle name = false) (hp : p.segments = segs ++ [s, name]) :
    p.parent? = some ⟨segs ++ [s]⟩ := by
  obtain ⟨body, hbody, hlead⟩ : ∃ body, p.body = body ++ [s] ++ [name] ∧ p.lead ++ body = segs := by
    have hsegs := hp.symm.trans (segments_eq p)
    rw [List.append_eq_append_iff] at hsegs
    rcases hsegs with ⟨more, hl, hb⟩ | ⟨body, hl, hb⟩
    · cases more with
      | nil => exact ⟨[], by simpa using hb.symm, by simpa using hl⟩
      | cons x more =>
        have hidle := isIdle_of_mem_lead (p := p) (s := s) (by simp [hl, (List.cons_eq_cons.mp hb).1])
        rw [hs] at hidle
        cases hidle
    · exact ⟨body, by simpa using hb, hl.symm⟩
  have hparts : ofParts p.lead (body ++ [s]) = ⟨p.lead ++ (body ++ [s])⟩ := by
    rcases ofParts_cases p.lead (body ++ [s]) with h | ⟨h, -⟩ | ⟨h, -⟩
    · exact h
    · simp at h
    · simp at h
  unfold parent?
  rw [hbody, dropIdleEnd_concat hname]
  split
  · next h => simp at h
  · rw [List.dropLast_concat, dropIdleEnd_concat hs, hparts, ← List.append_assoc, hlead]

theorem parent?_join {rel : List String} {name : String} (hr : rel ≠ [])
    (hn : ∀ s ∈ rel ++ [name], isName s = true) :
    (p.join ⟨rel ++ [name]⟩).parent? = some (p.join ⟨rel⟩) := by
  obtain ⟨init, s, rfl⟩ := (List.eq_nil_or_concat' rel).resolve_left hr
  obtain ⟨base, hbase⟩ := join_base p
  rw [hbase _ hn, hbase _ fun s hs => hn s (List.mem_append_left _ hs),
    ← List.append_assoc base init [s]]
  exact parent?_of_segments (isIdle_of_isName (hn s (by simp))) (isIdle_of_isName (hn name (by simp)))
    (by simp)

end Path

end Outfitter
