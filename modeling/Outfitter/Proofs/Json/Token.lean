import Outfitter.Json.Token
import Outfitter.Json.Writer
import Outfitter.Proofs.Json.Float

/-! # Scanning what is written

The pretty form of a value is cut into the tokens that the value is made of, with its numbers
as they are read back. Whatever is scanned, its numbers fit.
-/

namespace Outfitter.Json

namespace Token

variable {ts : List Token} {c : Char} {cs rest : List Char}

theorem feedAll?_cons (s : State) (c : Char) (cs : List Char) :
    feedAll? s (c :: cs) = (feed? s c).bind fun s => feedAll? s cs := rfl

theorem feedAll?_of_feed? {s s' : State} (h : feed? s c = some s') :
    feedAll? s (c :: cs) = feedAll? s' cs := by
  rw [feedAll?_cons, h, Option.bind_some]

/-! ## Single tokens -/

/-- A character at which a number or a word ends. -/
def Stops (c : Char) : Prop := isNumberChar c = false ∧ c.isLower = false

theorem feedAll?_blank (h : isBlank c = true) :
    feedAll? ⟨ts, .blank⟩ (c :: rest) = feedAll? ⟨ts, .blank⟩ rest := by
  apply feedAll?_of_feed?
  simp [feed?, begin?, h]

theorem feedAll?_newline (level : Nat) :
    feedAll? ⟨ts, .blank⟩ (newline level ++ rest) = feedAll? ⟨ts, .blank⟩ rest := by
  rw [newline, List.cons_append, feedAll?_blank (by decide)]
  induction 2 * level with
  | zero => rfl
  | succ n ih => rw [List.replicate_succ, List.cons_append, feedAll?_blank (by decide), ih]

theorem feedAll?_word {t : Token} (cs : List Char) (h : word? cs.reverse = some t) (hc : Stops c) :
    feedAll? ⟨ts, .word cs⟩ (c :: rest) = feedAll? ⟨t :: ts, .blank⟩ (c :: rest) := by
  rw [feedAll?_cons, feedAll?_cons]
  simp [feed?, hc.2, h]

theorem feedAll?_null (hc : Stops c) :
    feedAll? ⟨ts, .blank⟩ (nullChars ++ c :: rest) = feedAll? ⟨.null :: ts, .blank⟩ (c :: rest) :=
  feedAll?_word ['l', 'l', 'u', 'n'] rfl hc

theorem feedAll?_bool (b : Bool) (hc : Stops c) :
    feedAll? ⟨ts, .blank⟩ (boolChars b ++ c :: rest) = feedAll? ⟨.bool b :: ts, .blank⟩ (c :: rest) := by
  cases b with
  | false => exact feedAll?_word ['e', 's', 'l', 'a', 'f'] rfl hc
  | true => exact feedAll?_word ['e', 'u', 'r', 't'] rfl hc

theorem feedAll?_numberChars (h : ∀ a ∈ rest, isNumberChar a = true) (after : List Char) :
    feedAll? ⟨ts, .number cs⟩ (rest ++ after) = feedAll? ⟨ts, .number (rest.reverse ++ cs)⟩ after := by
  induction rest generalizing cs with
  | nil => rfl
  | cons a rest ih =>
    have hfeed : feed? ⟨ts, .number cs⟩ a = some ⟨ts, .number (a :: cs)⟩ := by
      simp [feed?, h a List.mem_cons_self]
    rw [List.cons_append, feedAll?_of_feed? hfeed, ih fun b hb => h b (List.mem_cons_of_mem _ hb),
      List.reverse_cons, List.append_assoc, List.singleton_append]

theorem begin?_number (h : c = '-' ∨ c.isDigit = true) : begin? ts c = some ⟨ts, .number [c]⟩ := by
  rcases h with rfl | h
  · rfl
  · have hblank : isBlank c = false := by
      rw [Bool.eq_false_iff]
      intro hb
      simp only [isBlank, Bool.or_eq_true, beq_iff_eq] at hb
      rcases hb with ((rfl | rfl) | rfl) | rfl <;> exact absurd h (by decide)
    have hquote : (c == '"') = false := by
      rw [beq_eq_false_iff_ne]
      rintro rfl
      exact absurd h (by decide)
    simp [begin?, hblank, hquote, h]

theorem feedAll?_number {n : Number} (h : n.fits = true) (hc : Stops c) :
    feedAll? ⟨ts, .blank⟩ (n.chars ++ c :: rest) = feedAll? ⟨.num n.echo :: ts, .blank⟩ (c :: rest) := by
  obtain ⟨a, as, has, ha, hall⟩ := Number.chars_eq_cons h
  have hread := Number.ofChars?_chars h
  rw [has] at hread ⊢
  have hbegin : feed? ⟨ts, .blank⟩ a = some ⟨ts, .number [a]⟩ := begin?_number ha
  rw [List.cons_append, feedAll?_of_feed? hbegin, feedAll?_numberChars hall, feedAll?_cons,
    feedAll?_cons]
  simp [feed?, hc.1, hread]

/-! ## Strings -/

theorem hexValue?_hexChar : ∀ n < 16, hexValue? (hexChar n) = some n := by decide

/-- An escaped control character is read as the character. -/
theorem feedAll?_control (h : c.toNat < 32) :
    feedAll? ⟨ts, .string cs⟩ (['\\', 'u', '0', '0', hexChar (c.toNat / 16), hexChar (c.toNat % 16)] ++ rest) =
      feedAll? ⟨ts, .string (c :: cs)⟩ rest := by
  have hhigh := hexValue?_hexChar (c.toNat / 16) (by omega)
  have hlow := hexValue?_hexChar (c.toNat % 16) (by omega)
  have hvalue : c.toNat / 16 * 16 + c.toNat % 16 = c.toNat := by omega
  have hunit : unit? cs none c.toNat = some (.string (c :: cs)) := by
    have hsurrogate : ¬ 0xD800 ≤ c.toNat ∧ ¬ 0xDC00 ≤ c.toNat := by omega
    simp [unit?, hsurrogate.1, hsurrogate.2, Char.ofNat_toNat]
  have hfirst : feed? ⟨ts, .unit cs none 2 0⟩ (hexChar (c.toNat / 16)) =
      some ⟨ts, .unit cs none 1 (c.toNat / 16)⟩ := by
    simp [feed?, hhigh]
  have hsecond : feed? ⟨ts, .unit cs none 1 (c.toNat / 16)⟩ (hexChar (c.toNat % 16)) =
      some ⟨ts, .string (c :: cs)⟩ := by
    simp [feed?, hlow, hvalue, hunit]
  calc feedAll? ⟨ts, .string cs⟩ _
      = feedAll? ⟨ts, .unit cs none 2 0⟩
          (hexChar (c.toNat / 16) :: hexChar (c.toNat % 16) :: rest) := rfl
    _ = feedAll? ⟨ts, .unit cs none 1 (c.toNat / 16)⟩ (hexChar (c.toNat % 16) :: rest) :=
        feedAll?_of_feed? hfirst
    _ = feedAll? ⟨ts, .string (c :: cs)⟩ rest := feedAll?_of_feed? hsecond

theorem feedAll?_escaped (c : Char) :
    feedAll? ⟨ts, .string cs⟩ (escaped c ++ rest) = feedAll? ⟨ts, .string (c :: cs)⟩ rest := by
  unfold escaped
  split
  · next h => rw [h]; rfl
  split
  · next h => rw [h]; rfl
  split
  · next h => rw [h]; rfl
  split
  · next h => rw [h]; rfl
  split
  · next h => rw [h]; rfl
  split
  · next h => rw [h]; rfl
  split
  · next h => rw [h]; rfl
  split
  · next h => exact feedAll?_control h
  · next hquote hback _ _ _ _ _ h =>
    have hfeed : feed? ⟨ts, .string cs⟩ c = some ⟨ts, .string (c :: cs)⟩ := by
      simp [feed?, hquote, hback, h]
    exact feedAll?_of_feed? hfeed

theorem feedAll?_quoted (s : String) :
    feedAll? ⟨ts, .blank⟩ (quoted s ++ rest) = feedAll? ⟨.str s :: ts, .blank⟩ rest := by
  have hbody : ∀ text cs, feedAll? ⟨ts, .string cs⟩ (text.flatMap escaped ++ '"' :: rest) =
      feedAll? ⟨.str (String.ofList (cs.reverse ++ text)) :: ts, .blank⟩ rest := by
    intro text
    induction text with
    | nil =>
      intro cs
      rw [List.append_nil]
      rfl
    | cons c text ih =>
      intro cs
      rw [List.flatMap_cons, List.append_assoc, feedAll?_escaped, ih, List.reverse_cons,
        List.append_assoc, List.singleton_append]
  have hopen : feed? ⟨ts, .blank⟩ '"' = some ⟨ts, .string []⟩ := rfl
  rw [quoted, List.cons_append, List.cons_append, feedAll?_of_feed? hopen, List.append_assoc,
    List.singleton_append, hbody, List.reverse_nil, List.nil_append, String.ofList_toList]

end Token

/-! ## Values -/

mutual

/-- A property holds of a value and of all values inside. -/
def every (p : Json → Bool) : Json → Bool
  | arr items => p (arr items) && everyItem p items
  | obj members => p (obj members) && everyMember p members
  | v => p v

def everyItem (p : Json → Bool) : List Json → Bool
  | [] => true
  | v :: rest => v.every p && everyItem p rest

def everyMember (p : Json → Bool) : List (String × Json) → Bool
  | [] => true
  | (_, v) :: rest => v.every p && everyMember p rest

end

/-- A number, if it is one, is an integer. -/
def isFloatFree : Json → Bool
  | num (.float _) => false
  | _ => true

/-- A number, if it is one, fits, and the keys of an object differ. -/
def isRegular : Json → Bool
  | num n => n.fits
  | obj members => (members.map Prod.fst).Nodup
  | _ => true

mutual

/-- The tokens of a value. -/
def tokens : Json → List Token
  | null => [.null]
  | bool b => [.bool b]
  | num n => [.num n]
  | str s => [.str s]
  | arr [] => [.openBracket, .closeBracket]
  | arr (v :: rest) => .openBracket :: (v.tokens ++ itemTokens rest ++ [.closeBracket])
  | obj [] => [.openBrace, .closeBrace]
  | obj ((k, v) :: rest) =>
    .openBrace :: .str k :: .colon :: (v.tokens ++ memberTokens rest ++ [.closeBrace])

/-- The tokens of items that follow another. -/
def itemTokens : List Json → List Token
  | [] => []
  | v :: rest => .comma :: (v.tokens ++ itemTokens rest)

/-- The tokens of members that follow another. -/
def memberTokens : List (String × Json) → List Token
  | [] => []
  | (k, v) :: rest => .comma :: .str k :: .colon :: (v.tokens ++ memberTokens rest)

end

mutual

/-- A value with its numbers as they are read back. -/
def echo : Json → Json
  | num n => num n.echo
  | arr items => arr (echoItems items)
  | obj members => obj (echoMembers members)
  | v => v

def echoItems : List Json → List Json
  | [] => []
  | v :: rest => v.echo :: echoItems rest

def echoMembers : List (String × Json) → List (String × Json)
  | [] => []
  | (k, v) :: rest => (k, v.echo) :: echoMembers rest

end

/-- A text begins where a number or a word before it ends. -/
def Ends (cs : List Char) : Prop := ∃ c rest, cs = c :: rest ∧ Token.Stops c

theorem ends_newline (level : Nat) (after : List Char) : Ends (newline level ++ after) :=
  ⟨'\n', _, rfl, rfl, rfl⟩

theorem ends_items (level : Nat) (items : List Json) {after : List Char} (h : Ends after) :
    Ends (prettyItemsOnto level items after) := by
  cases items with
  | nil => exact h
  | cons v rest => exact ⟨',', _, rfl, rfl, rfl⟩

theorem ends_members (level : Nat) (members : List (String × Json)) {after : List Char} (h : Ends after) :
    Ends (prettyMembersOnto level members after) := by
  cases members with
  | nil => exact h
  | cons m rest => exact ⟨',', _, rfl, rfl, rfl⟩

open Token

theorem feedAll?_key (level : Nat) (ts : List Token) (k : String) (rest : List Char) :
    feedAll? ⟨ts, .blank⟩ (newline level ++ (quoted k ++ ':' :: ' ' :: rest)) =
      feedAll? ⟨.colon :: .str k :: ts, .blank⟩ rest := by
  rw [feedAll?_newline, feedAll?_quoted]
  rfl

mutual

theorem feedAll?_pretty (level : Nat) (ts : List Token) : ∀ (v : Json) {after : List Char},
    v.every isRegular = true → Ends after →
    feedAll? ⟨ts, .blank⟩ (v.prettyOnto level after) = feedAll? ⟨v.echo.tokens.reverse ++ ts, .blank⟩ after
  | null, _, _, ⟨_, _, rfl, hc⟩ => feedAll?_null hc
  | bool b, _, _, ⟨_, _, rfl, hc⟩ => feedAll?_bool b hc
  | num n, _, hr, ⟨_, _, rfl, hc⟩ => feedAll?_number hr hc
  | str s, _, _, _ => feedAll?_quoted s
  | arr [], _, _, _ => rfl
  | arr (v :: rest), after, hr, hc => by
    simp only [every, everyItem, Bool.and_eq_true] at hr
    have hopen : feed? ⟨ts, .blank⟩ '[' = some ⟨.openBracket :: ts, .blank⟩ := rfl
    have hclose : ∀ ts, feed? ⟨ts, .blank⟩ ']' = some ⟨.closeBracket :: ts, .blank⟩ := fun _ => rfl
    rw [prettyOnto, List.cons_append, feedAll?_of_feed? hopen, feedAll?_newline,
      feedAll?_pretty (level + 1) _ v hr.2.1 (ends_items _ rest (ends_newline level _)),
      feedAll?_prettyItems (level + 1) _ rest hr.2.2 (ends_newline level _), feedAll?_newline,
      feedAll?_of_feed? (hclose _), echo, echoItems, tokens]
    simp
  | obj [], _, _, _ => rfl
  | obj ((k, v) :: rest), after, hr, hc => by
    simp only [every, everyMember, Bool.and_eq_true] at hr
    have hopen : feed? ⟨ts, .blank⟩ '\x7b' = some ⟨.openBrace :: ts, .blank⟩ := rfl
    have hclose : ∀ ts, feed? ⟨ts, .blank⟩ '\x7d' = some ⟨.closeBrace :: ts, .blank⟩ := fun _ => rfl
    rw [prettyOnto, List.append_assoc, List.cons_append, feedAll?_of_feed? hopen, feedAll?_key,
      feedAll?_pretty (level + 1) _ v hr.2.1 (ends_members _ rest (ends_newline level _)),
      feedAll?_prettyMembers (level + 1) _ rest hr.2.2 (ends_newline level _), feedAll?_newline,
      feedAll?_of_feed? (hclose _), echo, echoMembers, tokens]
    simp

theorem feedAll?_prettyItems (level : Nat) (ts : List Token) : ∀ (items : List Json) {after : List Char},
    everyItem isRegular items = true → Ends after →
    feedAll? ⟨ts, .blank⟩ (prettyItemsOnto level items after) =
      feedAll? ⟨(itemTokens (echoItems items)).reverse ++ ts, .blank⟩ after
  | [], _, _, _ => rfl
  | v :: rest, after, hr, hc => by
    simp only [everyItem, Bool.and_eq_true] at hr
    have hcomma : feed? ⟨ts, .blank⟩ ',' = some ⟨.comma :: ts, .blank⟩ := rfl
    rw [prettyItemsOnto, List.cons_append, feedAll?_of_feed? hcomma, feedAll?_newline,
      feedAll?_pretty level _ v hr.1 (ends_items level rest hc),
      feedAll?_prettyItems level _ rest hr.2 hc, echoItems, itemTokens]
    simp

theorem feedAll?_prettyMembers (level : Nat) (ts : List Token) :
    ∀ (members : List (String × Json)) {after : List Char},
    everyMember isRegular members = true → Ends after →
    feedAll? ⟨ts, .blank⟩ (prettyMembersOnto level members after) =
      feedAll? ⟨(memberTokens (echoMembers members)).reverse ++ ts, .blank⟩ after
  | [], _, _, _ => rfl
  | (k, v) :: rest, after, hr, hc => by
    simp only [everyMember, Bool.and_eq_true] at hr
    have hcomma : feed? ⟨ts, .blank⟩ ',' = some ⟨.comma :: ts, .blank⟩ := rfl
    rw [prettyMembersOnto, List.append_assoc, List.cons_append, feedAll?_of_feed? hcomma, feedAll?_key,
      feedAll?_pretty level _ v hr.1 (ends_members level rest hc),
      feedAll?_prettyMembers level _ rest hr.2 hc, echoMembers, memberTokens]
    simp

end

theorem scan?_pretty {v : Json} (hr : v.every isRegular = true) :
    scan? (v.prettyOnto 0 ['\n']) = some v.echo.tokens := by
  rw [scan?, start, feedAll?_pretty 0 [] v hr ⟨'\n', [], rfl, rfl, rfl⟩, feedAll?_blank (by decide),
    feedAll?, Option.bind_some, finish?]
  simp

mutual

theorem prettyOnto_append (level : Nat) (more : List Char) : ∀ (v : Json) (after : List Char),
    v.prettyOnto level after ++ more = v.prettyOnto level (after ++ more)
  | null, after => by simp [prettyOnto]
  | bool b, after => by simp [prettyOnto]
  | num n, after => by simp [prettyOnto]
  | str s, after => by simp [prettyOnto]
  | arr [], after => by simp [prettyOnto]
  | arr (v :: rest), after => by
    simp [prettyOnto, prettyOnto_append (level + 1) more v, prettyItemsOnto_append (level + 1) more rest]
  | obj [], after => by simp [prettyOnto]
  | obj ((k, v) :: rest), after => by
    simp [prettyOnto, prettyOnto_append (level + 1) more v, prettyMembersOnto_append (level + 1) more rest]

theorem prettyItemsOnto_append (level : Nat) (more : List Char) : ∀ (items : List Json) (after : List Char),
    prettyItemsOnto level items after ++ more = prettyItemsOnto level items (after ++ more)
  | [], after => by simp [prettyItemsOnto]
  | v :: rest, after => by
    simp [prettyItemsOnto, prettyOnto_append level more v, prettyItemsOnto_append level more rest]

theorem prettyMembersOnto_append (level : Nat) (more : List Char) :
    ∀ (members : List (String × Json)) (after : List Char),
    prettyMembersOnto level members after ++ more = prettyMembersOnto level members (after ++ more)
  | [], after => by simp [prettyMembersOnto]
  | (k, v) :: rest, after => by
    simp [prettyMembersOnto, prettyOnto_append level more v, prettyMembersOnto_append level more rest]

end

/-! ## What is scanned -/

namespace Token

variable {s s' : State} {ts : List Token} {c : Char}

/-- All numbers among some tokens fit. -/
def NumbersFit (ts : List Token) : Prop := ∀ n, .num n ∈ ts → n.fits = true

theorem NumbersFit.cons {t : Token} (h : NumbersFit ts) (ht : ∀ n, t = .num n → n.fits = true) :
    NumbersFit (t :: ts) := by
  intro n hn
  rcases List.mem_cons.mp hn with he | hn
  · exact ht n he.symm
  · exact h n hn

theorem mark?_ne_num {t : Token} (h : mark? c = some t) (n : Number) : t ≠ .num n := by
  unfold mark? at h
  split at h <;> cases h <;> simp

theorem word?_ne_num {cs : List Char} {t : Token} (h : word? cs = some t) (n : Number) : t ≠ .num n := by
  unfold word? at h
  split at h <;> cases h <;> simp

theorem NumbersFit.begin? (h : NumbersFit ts) (hb : begin? ts c = some s') : NumbersFit s'.tokens := by
  unfold Token.begin? at hb
  repeat' split at hb
  · cases hb; exact h
  · cases hb; exact h
  · cases hb; exact h
  · cases hb; exact h
  · obtain ⟨t, ht, rfl⟩ := Option.map_eq_some_iff.mp hb
    exact h.cons fun n hn => absurd hn (mark?_ne_num ht n)

theorem NumbersFit.word {cs : List Char} {t : Token} (h : NumbersFit ts) (ht : word? cs = some t) :
    NumbersFit (t :: ts) :=
  h.cons fun n hn => absurd hn (word?_ne_num ht n)

theorem NumbersFit.number {cs : List Char} {n : Number} (h : NumbersFit ts)
    (hn : Number.ofChars? cs = some n) : NumbersFit (.num n :: ts) :=
  h.cons fun m hm => by
    cases hm
    exact Number.fits_of_ofChars? hn

/-- One character keeps that all numbers fit. -/
theorem NumbersFit.feed? (h : NumbersFit s.tokens) (hf : feed? s c = some s') : NumbersFit s'.tokens := by
  obtain ⟨ts, current⟩ := s
  cases current with
  | blank => exact h.begin? hf
  | word cs =>
    simp only [Token.feed?] at hf
    split at hf
    · cases hf
      exact h
    · obtain ⟨t, ht, hb⟩ := Option.bind_eq_some_iff.mp hf
      exact (h.word ht).begin? hb
  | number cs =>
    simp only [Token.feed?] at hf
    split at hf
    · cases hf
      exact h
    · obtain ⟨n, hn, hb⟩ := Option.bind_eq_some_iff.mp hf
      exact (h.number hn).begin? hb
  | string cs =>
    simp only [Token.feed?] at hf
    split at hf
    · cases hf
      exact h.cons fun n hn => by cases hn
    · split at hf
      · cases hf
        exact h
      · split at hf
        · cases hf
        · cases hf
          exact h
  | escape cs =>
    simp only [Token.feed?] at hf
    split at hf
    · cases hf
      exact h
    · obtain ⟨e, -, rfl⟩ := Option.map_eq_some_iff.mp hf
      exact h
  | unit cs high missing value =>
    obtain ⟨x, -, hx⟩ := Option.bind_eq_some_iff.mp hf
    dsimp only at hx
    split at hx
    · obtain ⟨p, -, rfl⟩ := Option.map_eq_some_iff.mp hx
      exact h
    · cases hx
      exact h
  | pair cs high =>
    simp only [Token.feed?] at hf
    split at hf <;> cases hf
    exact h
  | pairEscape cs high =>
    simp only [Token.feed?] at hf
    split at hf <;> cases hf
    exact h

theorem NumbersFit.feedAll? {cs : List Char} (h : NumbersFit s.tokens) (hf : feedAll? s cs = some s') :
    NumbersFit s'.tokens := by
  induction cs generalizing s with
  | nil =>
    cases hf
    exact h
  | cons c cs ih =>
    obtain ⟨s₁, hs₁, hrest⟩ := Option.bind_eq_some_iff.mp hf
    exact ih (h.feed? hs₁) hrest

theorem numbersFit_of_scan? {cs : List Char} (h : scan? cs = some ts) : NumbersFit ts := by
  obtain ⟨s, hs, hfinish⟩ := Option.bind_eq_some_iff.mp h
  have hfit : NumbersFit s.tokens := NumbersFit.feedAll? (s := start) (fun n hn => by cases hn) hs
  unfold finish? at hfinish
  split at hfinish
  · cases hfinish
    exact fun n hn => hfit n (List.mem_reverse.mp hn)
  · obtain ⟨t, ht, rfl⟩ := Option.map_eq_some_iff.mp hfinish
    exact fun n hn => hfit.word ht n (List.mem_reverse.mp hn)
  · obtain ⟨m, hm, rfl⟩ := Option.map_eq_some_iff.mp hfinish
    exact fun n hn => hfit.number hm n (List.mem_reverse.mp hn)
  · cases hfinish

end Token

end Outfitter.Json
