import Mathlib.Data.List.Nodup
import Outfitter.Json.Reader
import Outfitter.Proofs.Json.Token

/-! # Reading what is written

A document is read back from its pretty form with its keys in order and its floating-point
numbers as they are read back; one without such numbers is read as it was. Whatever is read is
regular and not too deep.
-/

namespace Outfitter.Json

/-! ## Members -/

namespace Members

variable {ms : Members} {k : String} {v : Json}

theorem set_of_not_mem (h : k ∉ ms.map Prod.fst) : ms.set k v = ms ++ [(k, v)] := by
  induction ms with
  | nil => rfl
  | cons m ms ih =>
    rw [List.map_cons, List.mem_cons, not_or] at h
    rw [set, if_neg (Ne.symm h.1), ih h.2, List.cons_append]

theorem keys_set (ms : Members) (k : String) (v : Json) :
    (ms.set k v).map Prod.fst = if k ∈ ms.map Prod.fst then ms.map Prod.fst else ms.map Prod.fst ++ [k] := by
  induction ms with
  | nil => simp [set]
  | cons m ms ih =>
    obtain ⟨k', w⟩ := m
    rw [set]
    split
    · next h => simp [h]
    · next h =>
      rw [List.map_cons, ih]
      simp only [List.map_cons, List.mem_cons, Ne.symm h, false_or]
      split <;> simp

theorem nodup_set (h : (ms.map Prod.fst).Nodup) : ((ms.set k v).map Prod.fst).Nodup := by
  rw [keys_set]
  split
  · exact h
  · next hk =>
    rw [← List.concat_eq_append]
    exact h.concat hk

theorem mem_set {m : String × Json} (h : m ∈ ms.set k v) : m = (k, v) ∨ m ∈ ms := by
  induction ms with
  | nil => exact Or.inl (List.mem_singleton.mp h)
  | cons a ms ih =>
    obtain ⟨k', w⟩ := a
    rw [set] at h
    split at h
    · next hk =>
      rcases List.mem_cons.mp h with rfl | h
      · exact Or.inl (by rw [hk])
      · exact Or.inr (List.mem_cons_of_mem _ h)
    · rcases List.mem_cons.mp h with rfl | h
      · exact Or.inr List.mem_cons_self
      · exact (ih h).imp_right (List.mem_cons_of_mem _)

end Members

/-! ## Tokens of a value -/

namespace Reader

variable {limit : Nat} {t : Token}

theorem feedAll?_of_feed? {e e' : Expect} {ts : List Token} (h : feed? limit e t = some e') :
    feedAll? limit e (t :: ts) = feedAll? limit e' ts := by
  rw [feedAll?, h, Option.bind_some]

/-- The first item of an array is read like any other value. -/
theorem feedAll?_first (v : Json) (stack : List Frame) (rest : List Token) :
    feedAll? limit (.item stack) (v.tokens ++ rest) =
      feedAll? limit (.value (.arr [] :: stack)) (v.tokens ++ rest) := by
  obtain ⟨t, ts, hts, hne⟩ : ∃ t ts, v.tokens = t :: ts ∧ t ≠ .closeBracket := by
    cases v with
    | null => exact ⟨_, _, rfl, by simp⟩
    | bool b => exact ⟨_, _, rfl, by simp⟩
    | num n => exact ⟨_, _, rfl, by simp⟩
    | str s => exact ⟨_, _, rfl, by simp⟩
    | arr items => cases items <;> exact ⟨_, _, rfl, by simp⟩
    | obj members => cases members <;> exact ⟨_, _, rfl, by simp⟩
  have hfeed : feed? limit (.item stack) t = feed? limit (.value (.arr [] :: stack)) t := by
    cases t <;> first | rfl | exact absurd rfl hne
  rw [hts, List.cons_append, feedAll?, feedAll?, hfeed]

theorem not_mem_keys {done members : Members} {k : String} {v : Json}
    (h : ((done ++ (k, v) :: members).map Prod.fst).Nodup) : k ∉ done.map Prod.fst := by
  rw [List.map_append, List.map_cons] at h
  exact fun hk => (List.disjoint_of_nodup_append h) hk List.mem_cons_self

mutual

theorem feedAll?_tokens (limit : Nat) : ∀ (v : Json) (stack : List Frame) (rest : List Token),
    v.every isRegular = true → v.depth + stack.length ≤ limit →
    feedAll? limit (.value stack) (v.tokens ++ rest) = feedAll? limit (.next v stack) rest
  | null, _, _, _, _ => rfl
  | bool _, _, _, _, _ => rfl
  | num _, _, _, _, _ => rfl
  | str _, _, _, _, _ => rfl
  | arr [], stack, rest, _, hd => by
    simp only [depth, depthList] at hd
    have hopen : feed? limit (.value stack) .openBracket = some (.item stack) :=
      if_pos (by omega)
    exact feedAll?_of_feed? hopen
  | arr (v :: items), stack, rest, hr, hd => by
    simp only [every, everyItem, Bool.and_eq_true] at hr
    simp only [depth, depthList] at hd
    have hopen : feed? limit (.value stack) .openBracket = some (.item stack) :=
      if_pos (by omega)
    rw [tokens, List.cons_append, feedAll?_of_feed? hopen, List.append_assoc, List.append_assoc,
      feedAll?_first, feedAll?_tokens limit v _ _ hr.2.1 (by rw [List.length_cons]; omega)]
    exact feedAll?_itemTokens limit items v [] stack rest hr.2.2 (by omega)
  | obj [], stack, rest, _, hd => by
    simp only [depth, depthMembers] at hd
    have hopen : feed? limit (.value stack) .openBrace = some (.key [] true stack) :=
      if_pos (by omega)
    exact feedAll?_of_feed? hopen
  | obj ((k, v) :: members), stack, rest, hr, hd => by
    simp only [every, everyMember, isRegular, Bool.and_eq_true, decide_eq_true_eq] at hr
    simp only [depth, depthMembers] at hd
    have hopen : feed? limit (.value stack) .openBrace = some (.key [] true stack) :=
      if_pos (by omega)
    have hkey : feedAll? limit (.key [] true stack) (.str k :: .colon :: (v.tokens ++
        (memberTokens members ++ .closeBrace :: rest))) =
        feedAll? limit (.value (.obj [] k :: stack)) (v.tokens ++
          (memberTokens members ++ .closeBrace :: rest)) := rfl
    rw [tokens, List.cons_append, feedAll?_of_feed? hopen, List.cons_append, List.cons_append,
      List.append_assoc, List.append_assoc, List.singleton_append, hkey,
      feedAll?_tokens limit v _ _ hr.2.1 (by rw [List.length_cons]; omega)]
    exact feedAll?_memberTokens limit members k v [] stack rest hr.2.2 (by omega) hr.1

theorem feedAll?_itemTokens (limit : Nat) : ∀ (items : List Json) (v : Json) (done : List Json)
    (stack : List Frame) (rest : List Token),
    everyItem isRegular items = true → depthList items + 1 + stack.length ≤ limit →
    feedAll? limit (.next v (.arr done :: stack)) (itemTokens items ++ .closeBracket :: rest) =
      feedAll? limit (.next (.arr (done.reverse ++ v :: items)) stack) rest
  | [], v, done, stack, rest, _, _ => by
    have hclose : feed? limit (.next v (.arr done :: stack)) .closeBracket =
        some (.next (.arr (done.reverse ++ [v])) stack) := by
      rw [feed?, List.reverse_cons]
    exact feedAll?_of_feed? hclose
  | w :: items, v, done, stack, rest, hr, hd => by
    simp only [everyItem, Bool.and_eq_true] at hr
    simp only [depthList] at hd
    have hcomma : feed? limit (.next v (.arr done :: stack)) .comma =
        some (.value (.arr (v :: done) :: stack)) := rfl
    rw [itemTokens, List.cons_append, feedAll?_of_feed? hcomma, List.append_assoc,
      feedAll?_tokens limit w _ _ hr.1 (by rw [List.length_cons]; omega),
      feedAll?_itemTokens limit items w _ stack rest hr.2 (by omega), List.reverse_cons,
      List.append_assoc, List.singleton_append]

theorem feedAll?_memberTokens (limit : Nat) : ∀ (members : List (String × Json)) (k : String)
    (v : Json) (done : Members) (stack : List Frame) (rest : List Token),
    everyMember isRegular members = true → depthMembers members + 1 + stack.length ≤ limit →
    ((done ++ (k, v) :: members).map Prod.fst).Nodup →
    feedAll? limit (.next v (.obj done k :: stack)) (memberTokens members ++ .closeBrace :: rest) =
      feedAll? limit (.next (.obj (done ++ (k, v) :: members)) stack) rest
  | [], k, v, done, stack, rest, _, _, hn => by
    have hclose : feed? limit (.next v (.obj done k :: stack)) .closeBrace =
        some (.next (.obj (done ++ [(k, v)])) stack) := by
      rw [feed?, Members.set_of_not_mem (not_mem_keys hn)]
    exact feedAll?_of_feed? hclose
  | (k', w) :: members, k, v, done, stack, rest, hr, hd, hn => by
    simp only [everyMember, Bool.and_eq_true] at hr
    simp only [depthMembers] at hd
    have hkey : feedAll? limit (.next v (.obj done k :: stack)) (.comma :: .str k' :: .colon ::
        (w.tokens ++ (memberTokens members ++ .closeBrace :: rest))) =
        feedAll? limit (.value (.obj (done ++ [(k, v)]) k' :: stack)) (w.tokens ++
          (memberTokens members ++ .closeBrace :: rest)) := by
      rw [← Members.set_of_not_mem (not_mem_keys hn)]
      rfl
    rw [memberTokens, List.cons_append, List.cons_append, List.cons_append, List.append_assoc, hkey,
      feedAll?_tokens limit w _ _ hr.1 (by rw [List.length_cons]; omega),
      feedAll?_memberTokens limit members k' w _ stack rest hr.2 (by omega) (by simpa using hn)]
    simp

end

end Reader

/-! ## Numbers that are read back -/

theorem echoItems_eq (items : List Json) : echoItems items = items.map echo := by
  induction items with
  | nil => rfl
  | cons v items ih => rw [echoItems, ih, List.map_cons]

theorem echoMembers_eq (ms : Members) : echoMembers ms = ms.map fun m => (m.1, m.2.echo) := by
  induction ms with
  | nil => rfl
  | cons m ms ih => rw [echoMembers, ih, List.map_cons]

theorem keys_echoMembers (ms : Members) : (echoMembers ms).map Prod.fst = ms.map Prod.fst := by
  rw [echoMembers_eq, List.map_map]
  rfl

mutual

theorem depth_echo : ∀ v : Json, v.echo.depth = v.depth
  | null => rfl
  | bool _ => rfl
  | num _ => rfl
  | str _ => rfl
  | arr items => by rw [echo, depth, depth, depthList_echoItems items]
  | obj ms => by rw [echo, depth, depth, depthMembers_echoMembers ms]

theorem depthList_echoItems : ∀ items : List Json, depthList (echoItems items) = depthList items
  | [] => rfl
  | v :: items => by rw [echoItems, depthList, depthList, depth_echo v, depthList_echoItems items]

theorem depthMembers_echoMembers : ∀ ms : List (String × Json), depthMembers (echoMembers ms) = depthMembers ms
  | [] => rfl
  | (_, v) :: ms => by rw [echoMembers, depthMembers, depthMembers, depth_echo v, depthMembers_echoMembers ms]

end

mutual

theorem regular_echo : ∀ v : Json, v.every isRegular = true → v.echo.every isRegular = true
  | null, h => h
  | bool _, h => h
  | num _, h => Number.fits_echo h
  | str _, h => h
  | arr items, h => by
    simp only [every, Bool.and_eq_true] at h
    rw [echo, every, regular_echoItems items h.2]
    rfl
  | obj ms, h => by
    simp only [every, isRegular, Bool.and_eq_true] at h
    rw [echo, every, isRegular, keys_echoMembers, h.1, regular_echoMembers ms h.2]
    rfl

theorem regular_echoItems : ∀ items : List Json, everyItem isRegular items = true →
    everyItem isRegular (echoItems items) = true
  | [], h => h
  | v :: items, h => by
    simp only [everyItem, Bool.and_eq_true] at h
    rw [echoItems, everyItem, regular_echo v h.1, regular_echoItems items h.2]
    rfl

theorem regular_echoMembers : ∀ ms : List (String × Json), everyMember isRegular ms = true →
    everyMember isRegular (echoMembers ms) = true
  | [], h => h
  | (_, v) :: ms, h => by
    simp only [everyMember, Bool.and_eq_true] at h
    rw [echoMembers, everyMember, regular_echo v h.1, regular_echoMembers ms h.2]
    rfl

end

mutual

theorem echo_of_floatFree : ∀ v : Json, v.every isFloatFree = true → v.every isRegular = true → v.echo = v
  | null, _, _ => rfl
  | bool _, _, _ => rfl
  | num (.int _), _, hr => congrArg num (Number.echo_int hr)
  | num (.float _), hf, _ => by cases hf
  | str _, _, _ => rfl
  | arr items, hf, hr => by
    simp only [every, Bool.and_eq_true] at hf hr
    rw [echo, echoItems_of_floatFree items hf.2 hr.2]
  | obj ms, hf, hr => by
    simp only [every, Bool.and_eq_true] at hf hr
    rw [echo, echoMembers_of_floatFree ms hf.2 hr.2]

theorem echoItems_of_floatFree : ∀ items : List Json, everyItem isFloatFree items = true →
    everyItem isRegular items = true → echoItems items = items
  | [], _, _ => rfl
  | v :: items, hf, hr => by
    simp only [everyItem, Bool.and_eq_true] at hf hr
    rw [echoItems, echo_of_floatFree v hf.1 hr.1, echoItems_of_floatFree items hf.2 hr.2]

theorem echoMembers_of_floatFree : ∀ ms : List (String × Json), everyMember isFloatFree ms = true →
    everyMember isRegular ms = true → echoMembers ms = ms
  | [], _, _ => rfl
  | (_, v) :: ms, hf, hr => by
    simp only [everyMember, Bool.and_eq_true] at hf hr
    rw [echoMembers, echo_of_floatFree v hf.1 hr.1, echoMembers_of_floatFree ms hf.2 hr.2]

end

/-- A document is read back from its written form, but for its floating-point numbers. -/
theorem readWithin?_pretty {v : Json} {limit : Nat} (hr : v.every isRegular = true) (hd : v.depth ≤ limit) :
    readWithin? limit (v.pretty ++ "\n") = some v.echo := by
  have htext : (v.pretty ++ "\n").toList = v.prettyOnto 0 ['\n'] := by
    rw [String.toList_append, pretty, String.toList_ofList]
    exact prettyOnto_append 0 ['\n'] v []
  have htokens := Reader.feedAll?_tokens limit v.echo [] [] (regular_echo v hr)
    (by simpa [depth_echo] using hd)
  rw [List.append_nil] at htokens
  rw [readWithin?, htext, scan?_pretty hr, Option.bind_some, ofTokens?, htokens]
  rfl

theorem read?_pretty {v : Json} (hr : v.every isRegular = true) (hd : v.depth ≤ maxDepth) :
    read? (v.pretty ++ "\n") = some v.echo :=
  readWithin?_pretty hr hd

/-! ## What is read -/

theorem everyItem_iff {p : Json → Bool} {items : List Json} :
    everyItem p items = true ↔ ∀ v ∈ items, v.every p = true := by
  induction items with
  | nil => simp [everyItem]
  | cons v items ih => simp [everyItem, ih]

theorem everyMember_iff {p : Json → Bool} {ms : Members} :
    everyMember p ms = true ↔ ∀ m ∈ ms, m.2.every p = true := by
  induction ms with
  | nil => simp [everyMember]
  | cons m ms ih => simp [everyMember, ih]

theorem depthList_le {items : List Json} {n : Nat} : depthList items ≤ n ↔ ∀ v ∈ items, v.depth ≤ n := by
  induction items with
  | nil => simp [depthList]
  | cons v items ih => rw [depthList, Nat.max_le, ih, List.forall_mem_cons]

theorem depthMembers_le {ms : Members} {n : Nat} : depthMembers ms ≤ n ↔ ∀ m ∈ ms, m.2.depth ≤ n := by
  induction ms with
  | nil => simp [depthMembers]
  | cons m ms ih => rw [depthMembers, Nat.max_le, ih, List.forall_mem_cons]

/-- A value is regular and has room below some containers. -/
def Sits (limit level : Nat) (v : Json) : Prop := v.every isRegular = true ∧ v.depth + level ≤ limit

variable {limit level : Nat}

theorem sits_arr {items : List Json} (hl : level < limit) (h : ∀ v ∈ items, Sits limit (level + 1) v) :
    Sits limit level (arr items) := by
  refine ⟨?_, ?_⟩
  · rw [every, everyItem_iff.mpr fun v hv => (h v hv).1]
    rfl
  · have hd : depthList items ≤ limit - (level + 1) := depthList_le.mpr fun v hv => by
      have := (h v hv).2
      omega
    rw [depth]
    omega

namespace Reader

/-- Members that are complete, in an object below some containers. -/
def Holds (limit level : Nat) (ms : Members) : Prop :=
  level < limit ∧ (ms.map Prod.fst).Nodup ∧ ∀ m ∈ ms, Sits limit (level + 1) m.2

theorem Holds.sits {ms : Members} (h : Holds limit level ms) : Sits limit level (obj ms) := by
  obtain ⟨hl, hn, hms⟩ := h
  refine ⟨?_, ?_⟩
  · rw [every, everyMember_iff.mpr fun m hm => (hms m hm).1]
    simpa [isRegular] using hn
  · have hd : depthMembers ms ≤ limit - (level + 1) := depthMembers_le.mpr fun m hm => by
      have := (hms m hm).2
      omega
    rw [depth]
    omega

theorem holds_of_sits {ms : Members} (h : Sits limit level (obj ms)) : Holds limit level ms := by
  obtain ⟨hr, hd⟩ := h
  rw [every, Bool.and_eq_true, everyMember_iff, isRegular, decide_eq_true_eq] at hr
  rw [depth] at hd
  refine ⟨by omega, hr.1, fun m hm => ⟨hr.2 m hm, ?_⟩⟩
  have hm := depthMembers_le.mp (Nat.le_refl (depthMembers ms)) m hm
  omega

theorem Holds.set {ms : Members} {k : String} {v : Json} (h : Holds limit level ms)
    (hv : Sits limit (level + 1) v) : Holds limit level (ms.set k v) := by
  refine ⟨h.1, Members.nodup_set h.2.1, fun m hm => ?_⟩
  rcases Members.mem_set hm with rfl | hm
  · exact hv
  · exact h.2.2 m hm

/-- What is complete in the containers that are open. -/
def Open (limit : Nat) : List Frame → Prop
  | [] => True
  | .arr items :: stack =>
    stack.length < limit ∧ (∀ v ∈ items, Sits limit (stack.length + 1) v) ∧ Open limit stack
  | .obj ms _ :: stack => Holds limit stack.length ms ∧ Open limit stack

/-- All that was read so far is regular and has room. -/
def Sound (limit : Nat) : Expect → Prop
  | .value stack => Open limit stack
  | .item stack => stack.length < limit ∧ Open limit stack
  | .key ms _ stack => Holds limit stack.length ms ∧ Open limit stack
  | .colon ms _ stack => Holds limit stack.length ms ∧ Open limit stack
  | .next v stack => Sits limit stack.length v ∧ Open limit stack

variable {t : Token} {e e' : Expect} {stack : List Frame}

theorem sits_leaf {v : Json} (hv : v.every isRegular = true) (hd : v.depth = 0) (hl : level ≤ limit) :
    Sits limit level v :=
  ⟨hv, by rw [hd]; omega⟩

theorem length_le_of_open (h : Open limit stack) : stack.length ≤ limit := by
  cases stack with
  | nil => exact Nat.zero_le _
  | cons f stack =>
    cases f with
    | arr items => exact h.1
    | obj ms k => exact h.1.1

theorem sound_beginValue? (ho : Open limit stack) (hn : ∀ n, t = .num n → n.fits = true)
    (h : beginValue? limit stack t = some e') : Sound limit e' := by
  have hl := length_le_of_open ho
  cases t with
  | null => cases h; exact ⟨sits_leaf rfl rfl hl, ho⟩
  | bool b => cases h; exact ⟨sits_leaf rfl rfl hl, ho⟩
  | num n => cases h; exact ⟨sits_leaf (hn n rfl) rfl hl, ho⟩
  | str s => cases h; exact ⟨sits_leaf rfl rfl hl, ho⟩
  | openBracket =>
    simp only [beginValue?] at h
    split at h <;> cases h
    exact ⟨‹_›, ho⟩
  | openBrace =>
    simp only [beginValue?] at h
    split at h <;> cases h
    exact ⟨⟨‹_›, List.nodup_nil, by simp⟩, ho⟩
  | closeBrace => cases h
  | closeBracket => cases h
  | colon => cases h
  | comma => cases h

/-- One token keeps that all is regular and has room. -/
theorem sound_feed? (hs : Sound limit e) (hn : ∀ n, t = .num n → n.fits = true)
    (h : feed? limit e t = some e') : Sound limit e' := by
  unfold feed? at h
  split at h
  · exact sound_beginValue? hs hn h
  · cases h
    exact ⟨sits_arr hs.1 (by simp), hs.2⟩
  · next stack _ =>
    have ho : Open limit (.arr [] :: stack) := ⟨hs.1, by simp, hs.2⟩
    exact sound_beginValue? ho hn h
  · cases h
    exact hs
  · cases h
    exact ⟨hs.1.sits, hs.2⟩
  · cases h
  · cases h
    exact hs
  · cases h
  · cases h
    obtain ⟨hv, hl, hitems, ho⟩ := hs
    exact ⟨hl, List.forall_mem_cons.mpr ⟨hv, hitems⟩, ho⟩
  · cases h
    obtain ⟨hv, hl, hitems, ho⟩ := hs
    refine ⟨sits_arr hl fun v hm => ?_, ho⟩
    rcases List.mem_cons.mp (List.mem_reverse.mp hm) with rfl | hm
    · exact hv
    · exact hitems v hm
  · cases h
    obtain ⟨hv, hms, ho⟩ := hs
    exact ⟨hms.set hv, ho⟩
  · cases h
    obtain ⟨hv, hms, ho⟩ := hs
    exact ⟨(hms.set hv).sits, ho⟩
  · cases h

theorem sound_feedAll? {ts : List Token} (hs : Sound limit e) (hn : Token.NumbersFit ts)
    (h : feedAll? limit e ts = some e') : Sound limit e' := by
  induction ts generalizing e with
  | nil =>
    cases h
    exact hs
  | cons t ts ih =>
    obtain ⟨e₁, he₁, hrest⟩ := Option.bind_eq_some_iff.mp h
    exact ih (sound_feed? hs (fun n ht => hn n (ht ▸ List.mem_cons_self)) he₁)
      (fun n hm => hn n (List.mem_cons_of_mem _ hm)) hrest

end Reader

/-- Whatever is read is regular and not too deep. -/
theorem sits_of_read? {text : String} {v : Json} (h : read? text = some v) : Sits maxDepth 0 v := by
  obtain ⟨ts, hts, hv⟩ := Option.bind_eq_some_iff.mp h
  obtain ⟨e, he, hfinish⟩ := Option.bind_eq_some_iff.mp hv
  have hs : Reader.Sound maxDepth e :=
    Reader.sound_feedAll? (e := .value []) trivial (Token.numbersFit_of_scan? hts) he
  unfold Reader.finish? at hfinish
  split at hfinish
  · cases hfinish
    exact hs.1
  · cases hfinish

/-! ## Higher limits -/

namespace Reader

variable {limit' : Nat} {t : Token} {e e' : Expect} {stack : List Frame}

theorem beginValue?_mono (hl : limit ≤ limit') (h : beginValue? limit stack t = some e') :
    beginValue? limit' stack t = some e' := by
  cases t with
  | openBracket =>
    simp only [beginValue?, Option.ite_none_right_eq_some] at h ⊢
    exact ⟨by omega, h.2⟩
  | openBrace =>
    simp only [beginValue?, Option.ite_none_right_eq_some] at h ⊢
    exact ⟨by omega, h.2⟩
  | _ => exact h

theorem feed?_mono (hl : limit ≤ limit') (h : feed? limit e t = some e') : feed? limit' e t = some e' := by
  cases e with
  | value stack =>
    rw [feed?] at h ⊢
    exact beginValue?_mono hl h
  | item stack =>
    by_cases ht : t = .closeBracket
    · rw [ht, feed?] at h ⊢
      exact h
    · rw [feed?] at h ⊢
      · exact beginValue?_mono hl h
      · exact ht
      · exact ht
  | key ms empty stack => cases t <;> cases empty <;> exact h
  | colon ms k stack => cases t <;> exact h
  | next v stack =>
    cases stack with
    | nil => cases t <;> exact h
    | cons frame stack => cases frame <;> cases t <;> exact h

theorem feedAll?_mono {ts : List Token} (hl : limit ≤ limit') (h : feedAll? limit e ts = some e') :
    feedAll? limit' e ts = some e' := by
  induction ts generalizing e with
  | nil => exact h
  | cons t ts ih =>
    obtain ⟨e₁, hfeed, hrest⟩ := Option.bind_eq_some_iff.mp h
    rw [feedAll?_of_feed? (feed?_mono hl hfeed)]
    exact ih hrest

end Reader

/-- What is read within a limit is read within any higher one. -/
theorem readWithin?_mono {limit' : Nat} {text : String} {v : Json} (hl : limit ≤ limit')
    (h : readWithin? limit text = some v) : readWithin? limit' text = some v := by
  obtain ⟨ts, hscan, hread⟩ := Option.bind_eq_some_iff.mp h
  obtain ⟨e, hfeed, hfinish⟩ := Option.bind_eq_some_iff.mp hread
  rw [readWithin?, hscan, Option.bind_some, ofTokens?, Reader.feedAll?_mono hl hfeed]
  exact hfinish

/-- A value that is nested too deeply is written, but not read back. -/
theorem read?_pretty_of_deep {v : Json} (hr : v.every isRegular = true) (hd : maxDepth < v.depth) :
    read? (v.pretty ++ "\n") = none := by
  cases hread : read? (v.pretty ++ "\n") with
  | none => rfl
  | some w =>
    have hw : w = v.echo :=
      Option.some.inj ((readWithin?_mono hd.le hread).symm.trans (readWithin?_pretty hr le_rfl))
    have hsits := (sits_of_read? hread).2
    rw [hw, depth_echo] at hsits
    omega

end Outfitter.Json
