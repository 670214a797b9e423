import Outfitter.Disk.Change
import Outfitter.Proofs.Disk.Lookup

/-! # Paths through symbolic links

On a tree with links a path is followed from directory to directory, through the links that it
meets. Where it leads depends only on the directories and links on its way, and not on the
times that the tree keeps.
-/

namespace Outfitter

namespace Disk

/-- Where a link that stands in a directory goes on from. -/
def onward (target : Path) (here : List String) : List String :=
  if target.isAbsolute then [] else here

/-- Names lead from one place to another through a number of links; places are given from their
ends upwards. -/
inductive Follows (top : Node) : Nat → List String → List String → List String → Prop
  | stay (here : List String) : Follows top 0 here [] here
  | up {links : Nat} {here rest there : List String} (hd : top.shape? here.reverse = some .dir)
      (h : Follows top links here.tail rest there) : Follows top links here (".." :: rest) there
  | down {links : Nat} {name : String} {here rest there : List String} {n : Node} (hname : name ≠ "..")
      (hsize : name.utf8ByteSize ≤ nameLimit) (hn : top.at? (name :: here).reverse = some n)
      (hl : ∀ target, n ≠ .link target) (h : Follows top links (name :: here) rest there) :
      Follows top links here (name :: rest) there
  | link {links : Nat} {name : String} {here rest there : List String} {target : Path} (hname : name ≠ "..")
      (hsize : name.utf8ByteSize ≤ nameLimit) (hn : top.at? (name :: here).reverse = some (.link target))
      (h : Follows top links (onward target here) (target.names ++ rest) there) :
      Follows top (links + 1) here (name :: rest) there

variable {top n m : Node} {here there place xs ys rest : List String} {name : String} {t : Stamp}
  {es : Entries} {follow : Bool} {spot : Spot} {links used : Nat} {target : Path}

/-! ## Steps -/

theorem at?_child_reverse (hn : top.at? here.reverse = some (.dir t es)) (name : String) :
    top.at? (name :: here).reverse = es.lookup name := by
  rw [List.reverse_cons]
  exact Node.at?_child hn

theorem at?_onward (hn : top.at? here.reverse = some n) (target : Path) :
    top.at? (onward target here).reverse = some (if target.isAbsolute then top else n) := by
  rw [onward]
  split
  · exact Node.at?_nil top
  · exact hn

theorem trace_nil (top : Node) (follow : Bool) (links : Nat) (here : List String) (n : Node) :
    trace top follow links here n [] = .ok (.there here.reverse n) := by
  cases links <;> rw [trace, descend]

theorem trace_up (hm : top.at? here.tail.reverse = some m) :
    trace top follow links here (.dir t es) (".." :: rest) = trace top follow links here.tail m rest := by
  cases links <;> rw [trace, descend, if_pos rfl, hm]

theorem trace_down (hname : name ≠ "..") (hsize : name.utf8ByteSize ≤ nameLimit)
    (hm : es.lookup name = some m) (hl : ∀ target, m ≠ .link target) :
    trace top follow links here (.dir t es) (name :: rest) =
      trace top follow links (name :: here) m rest := by
  cases m with
  | link target => exact absurd rfl (hl target)
  | file c mode t => cases links <;> rw [trace, descend, if_neg hname, if_neg (by omega), hm]
  | dir t es => cases links <;> rw [trace, descend, if_neg hname, if_neg (by omega), hm]

theorem trace_link (hname : name ≠ "..") (hsize : name.utf8ByteSize ≤ nameLimit)
    (hm : es.lookup name = some (.link target)) (hf : rest ≠ [] ∨ follow = true) :
    trace top follow (links + 1) here (.dir t es) (name :: rest) =
      trace top follow links (onward target here) (if target.isAbsolute then top else .dir t es)
        (target.names ++ rest) := by
  have hfinal : (rest.isEmpty && !follow) = false := by
    rcases hf with h | h
    · rw [List.isEmpty_eq_false_iff.mpr h, Bool.false_and]
    · rw [h, Bool.not_true, Bool.and_false]
  rw [trace, descend, if_neg hname, if_neg (by omega), hm]
  simp only [hfinal, Bool.false_eq_true, if_false, onward]
  split <;> rfl

/-- What the first of some names does. -/
theorem descend_cons_ok {jump : List String → Node → List String → Except Fault Spot}
    (h : descend top follow jump here n (name :: rest) = .ok spot) :
    ∃ t es, n = .dir t es ∧
      ((name = ".." ∧ ∃ m, top.at? here.tail.reverse = some m ∧
          descend top follow jump here.tail m rest = .ok spot) ∨
        (name ≠ ".." ∧ name.utf8ByteSize ≤ nameLimit ∧
          ((∃ m, es.lookup name = some m ∧ (∀ target, m ≠ .link target) ∧
              descend top follow jump (name :: here) m rest = .ok spot) ∨
            (∃ target, es.lookup name = some (.link target) ∧ (rest ≠ [] ∨ follow = true) ∧
              jump (onward target here) (if target.isAbsolute then top else .dir t es)
                (target.names ++ rest) = .ok spot) ∨
            (∃ target, es.lookup name = some (.link target) ∧ rest = [] ∧ follow = false ∧
              spot = .there (name :: here).reverse (.link target)) ∨
            es.lookup name = none ∧ rest = [] ∧ spot = .vacant here.reverse name))) := by
  cases n with
  | file c mode t => simp [descend] at h
  | link target => simp [descend] at h
  | dir t es =>
    refine ⟨t, es, rfl, ?_⟩
    rw [descend] at h
    by_cases hname : name = ".."
    · rw [if_pos hname] at h
      cases hm : top.at? here.tail.reverse with
      | none => rw [hm] at h; cases h
      | some m => rw [hm] at h; exact Or.inl ⟨hname, m, rfl, h⟩
    · rw [if_neg hname] at h
      by_cases hsize : nameLimit < name.utf8ByteSize
      · rw [if_pos hsize] at h; cases h
      · rw [if_neg hsize] at h
        refine Or.inr ⟨hname, by omega, ?_⟩
        cases hm : es.lookup name with
        | none =>
          rw [hm] at h
          cases rest with
          | nil => exact Or.inr (Or.inr (Or.inr ⟨rfl, rfl, (Except.ok.inj h).symm⟩))
          | cons => cases h
        | some m =>
          rw [hm] at h
          cases m with
          | file c mode t => exact Or.inl ⟨_, rfl, by rintro target ⟨⟩, h⟩
          | dir t es => exact Or.inl ⟨_, rfl, by rintro target ⟨⟩, h⟩
          | link target =>
            right
            by_cases hfinal : (rest.isEmpty && !follow) = true
            · simp only [hfinal, if_true] at h
              simp only [Bool.and_eq_true, List.isEmpty_iff, Bool.not_eq_true'] at hfinal
              exact Or.inr (Or.inl ⟨target, rfl, hfinal.1, hfinal.2, (Except.ok.inj h).symm⟩)
            · refine Or.inl ⟨target, rfl, ?_, ?_⟩
              · simp only [Bool.and_eq_true, List.isEmpty_iff, Bool.not_eq_true'] at hfinal
                by_cases hr : rest = []
                · exact Or.inr (by simpa [hr] using hfinal)
                · exact Or.inl hr
              · simp only [hfinal, Bool.false_eq_true, if_false] at h
                rw [onward]
                by_cases ha : target.isAbsolute = true
                · rw [if_pos ha] at h
                  rw [if_pos ha, if_pos ha, h]
                · rw [if_neg ha] at h
                  rw [if_neg ha, if_neg ha, h]

theorem trace_cons_ok (h : trace top follow links here n (name :: rest) = .ok spot) :
    ∃ t es, n = .dir t es ∧
      ((name = ".." ∧ ∃ m, top.at? here.tail.reverse = some m ∧
          trace top follow links here.tail m rest = .ok spot) ∨
        (name ≠ ".." ∧ name.utf8ByteSize ≤ nameLimit ∧
          ((∃ m, es.lookup name = some m ∧ (∀ target, m ≠ .link target) ∧
              trace top follow links (name :: here) m rest = .ok spot) ∨
            (∃ target left, es.lookup name = some (.link target) ∧ links = left + 1 ∧
              (rest ≠ [] ∨ follow = true) ∧
              trace top follow left (onward target here)
                (if target.isAbsolute then top else .dir t es) (target.names ++ rest) = .ok spot) ∨
            (∃ target, es.lookup name = some (.link target) ∧ rest = [] ∧ follow = false ∧
              spot = .there (name :: here).reverse (.link target)) ∨
            es.lookup name = none ∧ rest = [] ∧ spot = .vacant here.reverse name))) := by
  cases links with
  | zero =>
    obtain ⟨t, es, hn, hup | ⟨hname, hsize, hdown | ⟨target, -, h⟩ | hend⟩⟩ := descend_cons_ok h
    · exact ⟨t, es, hn, Or.inl hup⟩
    · exact ⟨t, es, hn, Or.inr ⟨hname, hsize, Or.inl hdown⟩⟩
    · cases h.2
    · exact ⟨t, es, hn, Or.inr ⟨hname, hsize, Or.inr (Or.inr hend)⟩⟩
  | succ left =>
    obtain ⟨t, es, hn, hup | ⟨hname, hsize, hdown | ⟨target, hm, h⟩ | hend⟩⟩ := descend_cons_ok h
    · exact ⟨t, es, hn, Or.inl hup⟩
    · exact ⟨t, es, hn, Or.inr ⟨hname, hsize, Or.inl hdown⟩⟩
    · exact ⟨t, es, hn, Or.inr ⟨hname, hsize, Or.inr (Or.inl ⟨target, left, hm, rfl, h⟩)⟩⟩
    · exact ⟨t, es, hn, Or.inr ⟨hname, hsize, Or.inr (Or.inr hend)⟩⟩

/-! ## Ways -/

theorem Follows.dir (h : Follows top used here (name :: rest) there) :
    top.shape? here.reverse = some .dir := by
  cases h with
  | up hd => exact hd
  | down _ _ hn => exact Node.dir_above (List.reverse_cons ▸ hn)
  | link _ _ hn => exact Node.dir_above (List.reverse_cons ▸ hn)

theorem Follows.unique {used' : Nat} {there' : List String} (h : Follows top used here xs there)
    (h' : Follows top used' here xs there') : there = there' := by
  induction h generalizing used' there' with
  | stay => cases h'; rfl
  | up _ _ ih =>
    cases h' with
    | up _ h' => exact ih h'
    | down hname => exact absurd rfl hname
    | link hname => exact absurd rfl hname
  | down hname _ hn hl _ ih =>
    cases h' with
    | up => exact absurd rfl hname
    | down _ _ _ _ h' => exact ih h'
    | link _ _ hn' => exact absurd (Option.some.inj (hn.symm.trans hn')) (hl _)
  | link hname _ hn _ ih =>
    cases h' with
    | up => exact absurd rfl hname
    | down _ _ hn' hl => exact absurd (Option.some.inj (hn'.symm.trans hn)) (hl _)
    | link _ _ hn' h' =>
      cases Option.some.inj (hn.symm.trans hn')
      exact ih h'

/-- Names are followed one part after the other. -/
theorem trace_append (hn : top.at? here.reverse = some n)
    (h : trace top follow links here n (xs ++ ys) = .ok spot)
    (hy : ys = [] → follow = true ∧ ∃ p m, spot = .there p m) :
    ∃ used there m, used ≤ links ∧ Follows top used here xs there ∧ top.at? there.reverse = some m ∧
      trace top follow (links - used) there m ys = .ok spot := by
  -- a link leaves fewer links to follow, any other name fewer names
  induction links using Nat.strongRecOn generalizing here n xs with
  | _ links ihlinks =>
  induction xs generalizing here n with
  | nil => exact ⟨0, here, n, Nat.zero_le _, .stay here, hn, h⟩
  | cons name xs ih =>
    rw [List.cons_append] at h
    obtain ⟨t, es, rfl, ⟨rfl, m, hm, hrest⟩ | ⟨hname, hsize, hcases⟩⟩ := trace_cons_ok h
    · obtain ⟨used, there, m', hu, hf, hat, ht⟩ := ih hm hrest
      exact ⟨used, there, m', hu, .up (Node.shape?_eq_dir.mpr ⟨t, es, hn⟩) hf, hat, ht⟩
    · have hchild := at?_child_reverse hn name
      obtain ⟨m, hm, hl, hrest⟩ | ⟨target, left, hm, rfl, -, hrest⟩ | ⟨target, -, hr, hfollow, -⟩ |
        ⟨-, hr, hs⟩ := hcases
      · obtain ⟨used, there, m', hu, hf, hat, ht⟩ := ih (hchild.trans hm) hrest
        exact ⟨used, there, m', hu, .down hname hsize (hchild.trans hm) hl hf, hat, ht⟩
      · rw [← List.append_assoc] at hrest
        obtain ⟨used, there, m', hu, hf, hat, ht⟩ :=
          ihlinks left (Nat.lt_succ_self left) (at?_onward hn target) hrest
        exact ⟨used + 1, there, m', by omega, .link hname hsize (hchild.trans hm) hf, hat,
          by rw [Nat.add_sub_add_right]; exact ht⟩
      · rw [(hy (List.append_eq_nil_iff.mp hr).2).1] at hfollow
        cases hfollow
      · obtain ⟨-, p, m, hthere⟩ := hy (List.append_eq_nil_iff.mp hr).2
        rw [hs] at hthere
        cases hthere

theorem Follows.trace_append (h : Follows top used here xs there) (hn : top.at? here.reverse = some n)
    (hu : used ≤ links) (ys : List String) (hy : ys ≠ [] ∨ follow = true) :
    ∃ m, top.at? there.reverse = some m ∧
      trace top follow links here n (xs ++ ys) = trace top follow (links - used) there m ys := by
  induction h generalizing n links with
  | stay => exact ⟨n, hn, rfl⟩
  | @up _ here rest there hd _ ih =>
    obtain ⟨t, es, hat⟩ := Node.shape?_eq_dir.mp hd
    cases Option.some.inj (hat.symm.trans hn)
    obtain ⟨m, hm⟩ : ∃ m, top.at? here.tail.reverse = some m := by
      cases here with
      | nil => exact ⟨top, by simp⟩
      | cons a here =>
        rw [List.reverse_cons] at hn
        obtain ⟨t, es, h⟩ := Node.shape?_eq_dir.mp (Node.dir_above hn)
        exact ⟨_, h⟩
    obtain ⟨m', hm', he⟩ := ih hm hu
    exact ⟨m', hm', (trace_up hm).trans he⟩
  | @down _ name here rest there m hname hsize hm hl _ ih =>
    obtain ⟨t, es, hat⟩ := Node.shape?_eq_dir.mp (Node.dir_above (List.reverse_cons ▸ hm))
    cases Option.some.inj (hat.symm.trans hn)
    obtain ⟨m', hm', he⟩ := ih hm hu
    rw [at?_child_reverse hn] at hm
    exact ⟨m', hm', (trace_down hname hsize hm hl).trans he⟩
  | @link used name here rest there target hname hsize hm _ ih =>
    obtain ⟨t, es, hat⟩ := Node.shape?_eq_dir.mp (Node.dir_above (List.reverse_cons ▸ hm))
    cases Option.some.inj (hat.symm.trans hn)
    obtain ⟨left, rfl⟩ : ∃ left, links = left + 1 := ⟨links - 1, by omega⟩
    obtain ⟨m', hm', he⟩ := ih (at?_onward hn target) (Nat.le_of_succ_le_succ hu)
    rw [at?_child_reverse hn] at hm
    refine ⟨m', hm', ?_⟩
    rw [List.cons_append, trace_link hname hsize hm (hy.imp_left (List.append_ne_nil_of_right_ne_nil rest)),
      Nat.add_sub_add_right, ← he, List.append_assoc]

/-- A way to a directory starts at one. -/
theorem Follows.start (h : Follows top used here xs there) (hd : top.shape? there.reverse = some .dir) :
    top.shape? here.reverse = some .dir := by
  cases h with
  | stay => exact hd
  | up hup => exact hup
  | down hname hsize hn hl h => exact (Follows.down hname hsize hn hl h).dir
  | link hname hsize hn h => exact (Follows.link hname hsize hn h).dir

/-- Where names lead to a directory, only directories and links matter. -/
theorem Follows.mono {top' : Node} (hdir : ∀ q, top.shape? q = some .dir → top'.shape? q = some .dir)
    (hlink : ∀ q target, top.shape? q = some (.link target) → top'.shape? q = some (.link target))
    (h : Follows top used here xs there) (hd : top.shape? there.reverse = some .dir) :
    Follows top' used here xs there := by
  induction h with
  | stay => exact .stay _
  | up hup _ ih => exact .up (hdir _ hup) (ih hd)
  | @down _ name here rest there n hname hsize hn hl h ih =>
    obtain ⟨t, es, hat⟩ := Node.shape?_eq_dir.mp (hdir _ (h.start hd))
    exact .down hname hsize hat nofun (ih hd)
  | @link _ name here rest there target hname hsize hn _ ih =>
    have hat : top'.shape? (name :: here).reverse = some (.link target) :=
      hlink _ target (by rw [Node.shape?, hn]; rfl)
    exact .link hname hsize (Node.shape?_eq_link.mp hat) (ih hd)

end Disk

/-! ## Files that are replaced -/

namespace Disk

variable {d d' : Disk} {p q : Path} {name : String} {bytes : ByteArray} {follow : Bool} {spot : Spot}

theorem takes_of_locate (h : d.locate follow p = .ok spot) : takes p = true := by
  by_contra ht
  obtain ⟨e, he⟩ := locate_of_not_takes (Bool.eq_false_iff.mpr ht)
  rw [he] at h
  cases h

theorem endsIdle_of_file {place : List String} {c : ByteArray} {mode : Nat} {t : Stamp}
    (h : d.locate follow p = .ok (.there place (.file c mode t))) : p.endsIdle = false := by
  rw [locate_eq_settle (takes_of_locate h)] at h
  cases hi : p.endsIdle with
  | false => rfl
  | true =>
    rw [(settle_ok h).1, settle, hi] at h
    simp [Node.isDir] at h

/-- A file that is replaced is put where its path leads; a link there is not followed. -/
theorem replace_inv (h : d.replace p bytes = (.ok (), d')) :
    ∃ (e : Disk) (spot : Spot) (place : List String), e.cwd = d.cwd ∧ e.locate false p = .ok spot ∧
      d' = e.put place (.file bytes defaultMode d.now) ∧
      ((∃ n, spot = .there place n) ∨ ∃ dir name, spot = .vacant dir name ∧ place = dir ++ [name]) := by
  simp only [replace] at h
  split at h
  · generalize htouch : d.update _ _ = e at h
    have hcwd : e.cwd = d.cwd := by rw [← htouch]; rfl
    split at h
    · cases h
    · next hl => exact ⟨e, _, _, hcwd, hl, (Prod.mk.inj h).2.symm, Or.inl ⟨_, rfl⟩⟩
    · next dir name hl =>
      split at h
      · cases h
      · exact ⟨e, _, _, hcwd, hl, (Prod.mk.inj h).2.symm, Or.inr ⟨dir, name, rfl, rfl⟩⟩
    · cases h
  · cases h
  · cases h

theorem follows_of_isDir (h : d.isDir p = true) :
    ∃ used there, used ≤ linkLimit ∧ Follows d.top used [] (d.trail p) there ∧
      d.top.shape? there.reverse = some .dir := by
  rw [isDir] at h
  split at h
  · next place n hfind =>
    cases n with
    | file => cases h
    | link => cases h
    | dir t es =>
      rw [find_ok_iff] at hfind
      have htrace := hfind
      rw [locate_eq_settle (takes_of_locate hfind), ← List.append_nil (d.trail p), Bool.true_or] at htrace
      obtain ⟨used, there, m, hu, hf, hat, ht⟩ :=
        trace_append (Node.at?_nil _) (settle_ok htrace).1 fun _ => ⟨rfl, _, _, rfl⟩
      rw [trace_nil] at ht
      cases ht
      exact ⟨used, there, hu, hf, Node.shape?_eq_dir.mpr ⟨t, es, hat⟩⟩
  · cases h

/-- The last of some names is looked up in the directory that the others lead to. -/
theorem locate_concat {xs : List String} (hp : d.trail p = xs ++ [name]) (hname : name ≠ "..")
    (hi : p.endsIdle = false) (h : d.locate false p = .ok spot) :
    ∃ used there t es, used ≤ linkLimit ∧ Follows d.top used [] xs there ∧
      d.top.at? there.reverse = some (.dir t es) ∧ name.utf8ByteSize ≤ nameLimit ∧
      ((∃ n, spot = .there (there.reverse ++ [name]) n) ∨ spot = .vacant there.reverse name) := by
  rw [locate_eq_settle (takes_of_locate h), hi, hp] at h
  obtain ⟨used, there, m, hu, hf, hat, ht⟩ := trace_append (Node.at?_nil _) (settle_ok h).1 (by simp)
  obtain ⟨t, es, rfl, ⟨hup, -⟩ | ⟨-, hsize, hcases⟩⟩ := trace_cons_ok ht
  · exact absurd hup hname
  · refine ⟨used, there, t, es, hu, hf, hat, hsize, ?_⟩
    obtain ⟨m, -, -, hm⟩ | ⟨_, _, -, -, hfollow, -⟩ | ⟨target, -, -, -, hs⟩ | ⟨-, -, hs⟩ := hcases
    · rw [trace_nil] at hm
      exact Or.inl ⟨m, by rw [← Except.ok.inj hm, List.reverse_cons]⟩
    · simp at hfollow
    · exact Or.inl ⟨_, by rw [hs, List.reverse_cons]⟩
    · exact Or.inr hs

/-- A new file is neither a directory nor a link, and nothing is below it. -/
theorem shape?_put_file {top : Node} {place r : List String} {t now : Stamp} {c : ByteArray} {mode : Nat}
    {s : Shape} (hs : (top.put place now (.file c mode t)).shape? r = some s) (hfile : s ≠ .file c mode t)
    (hat : (top.put place now (.file c mode t)).at? place = some (.file c mode t)) :
    top.shape? r = some s := by
  by_cases hr : place <+: r
  · obtain ⟨more, rfl⟩ := hr
    rw [Node.shape?, Node.at?_append, hat] at hs
    cases more with
    | nil => cases hs; exact absurd rfl hfile
    | cons => cases hs
  · rw [← hs, Node.put, Node.shape?_alter hr]

/-- A file that was replaced is found, if its directory still is. -/
theorem find_of_replaced (hp : d.trail p = d.trail q ++ [name]) (hname : name ≠ "..")
    (hne : p.steps ≠ []) (hi : p.endsIdle = false) (h : d.replace p bytes = (.ok (), d'))
    (hd : d'.isDir q = true) : ∃ place, d'.find p = .ok (place, .file bytes defaultMode d.now) := by
  obtain ⟨e, spot, place, hcwd, hl, hput, hspot⟩ := replace_inv h
  have htakes := takes_of_locate hl
  have hcwd' : d'.cwd = d.cwd := by rw [hput]; exact hcwd
  have htrail : e.trail p = e.trail q ++ [name] := by rw [trail_of_cwd hcwd, trail_of_cwd hcwd, hp]
  have htrail' : d'.trail p = d'.trail q ++ [name] := by rw [trail_of_cwd hcwd', trail_of_cwd hcwd', hp]
  obtain ⟨used, there, t, es, -, hf, hat, hsize, hend⟩ := locate_concat htrail hname hi hl
  obtain rfl : place = there.reverse ++ [name] := by
    rcases hend with ⟨n, rfl⟩ | rfl
    · simpa [eq_comm] using hspot
    · simpa [eq_comm] using hspot
  have hfile : d'.top.at? (there.reverse ++ [name]) = some (.file bytes defaultMode d.now) := by
    rw [hput]
    have hself : (e.top.put (there.reverse ++ [name]) e.now (.file bytes defaultMode d.now)).at?
        (there.reverse ++ name :: []) = _ := Node.at?_alter_self hat
    exact hself
  -- the directory is the one that the file was put into
  obtain ⟨used', hu', hf', t', es', hat'⟩ : ∃ used', used' ≤ linkLimit ∧
      Follows d'.top used' [] (d'.trail q) there ∧ ∃ t' es', d'.top.at? there.reverse = some (.dir t' es') := by
    obtain ⟨used', there', hu', hf', hdir⟩ := follows_of_isDir hd
    have htop : d'.top = e.top.put (there.reverse ++ [name]) e.now (.file bytes defaultMode d.now) := by
      rw [hput]
      rfl
    rw [htop] at hfile
    have hback : Follows e.top used' [] (d'.trail q) there' :=
      hf'.mono (fun r hr => shape?_put_file (htop ▸ hr) nofun hfile)
        (fun r target hr => shape?_put_file (htop ▸ hr) nofun hfile) hdir
    rw [trail_of_cwd (hcwd'.trans hcwd.symm)] at hback
    obtain rfl := hf.unique hback
    exact ⟨used', hu', hf', Node.shape?_eq_dir.mp hdir⟩
  obtain ⟨m, hm, htrace⟩ := hf'.trace_append (Node.at?_nil _) hu' [name] (Or.inr rfl)
  cases Option.some.inj (hat'.symm.trans hm)
  rw [Node.at?_child hat'] at hfile
  rw [trace_down hname hsize hfile nofun, trace_nil] at htrace
  refine ⟨(name :: there).reverse, find_ok_iff.mpr ?_⟩
  rw [locate_eq_settle htakes, hi, htrail', Bool.or_false, htrace, settle_of_steps hne hi]

end Disk

/-! ## Settled trees -/

namespace Node

theorem settled_file (c : ByteArray) (mode : Nat) (t : Stamp) :
    (file c mode t).settled = file c mode t.settled := by
  rw [settled]

theorem settled_link (target : Path) : (link target).settled = link target := by
  rw [settled]

theorem settled_dir (t : Stamp) (es : Entries) : (dir t es).settled = dir t.settled (settledEntries es) := by
  rw [settled]

theorem isDir_settled (n : Node) : n.settled.isDir = n.isDir := by
  cases n <;> simp [settled, isDir]

theorem lookup_settledEntries (es : Entries) (name : String) :
    (settledEntries es).lookup name = (es.lookup name).map settled := by
  induction es with
  | nil => rw [settledEntries]; rfl
  | cons e es ih =>
    rw [settledEntries, List.lookup_cons, List.lookup_cons, ih]
    split <;> rfl

theorem at?_settled (n : Node) (q : List String) : n.settled.at? q = (n.at? q).map settled := by
  induction q generalizing n with
  | nil => rw [at?_nil, at?_nil]; rfl
  | cons name rest ih =>
    cases n with
    | file => simp [settled, at?]
    | link => simp [settled, at?]
    | dir t es =>
      rw [settled_dir, at?_dir_cons, at?_dir_cons, lookup_settledEntries]
      cases es.lookup name with
      | none => rfl
      | some m => exact ih m

end Node

namespace Disk

/-- Where a path leads once the run is over. -/
def settledSpot : Spot → Spot
  | .there place n => .there place n.settled
  | .vacant dir name => .vacant dir name

variable {top : Node} {follow : Bool} {d : Disk} {p : Path}

theorem descend_settled {jump jump' : List String → Node → List String → Except Fault Spot}
    (hj : ∀ here n names, jump' here n.settled names = (jump here n names).map settledSpot)
    (here : List String) (n : Node) (names : List String) :
    descend top.settled follow jump' here n.settled names =
      (descend top follow jump here n names).map settledSpot := by
  induction names generalizing here n with
  | nil => rw [descend, descend]; rfl
  | cons name rest ih =>
    cases n with
    | file => rw [Node.settled_file, descend, descend] <;> first | rfl | rintro t es ⟨⟩
    | link => rw [Node.settled_link, descend, descend] <;> first | rfl | rintro t es ⟨⟩
    | dir t es =>
      rw [Node.settled_dir, descend, descend, Node.at?_settled, Node.lookup_settledEntries]
      split
      · cases top.at? here.tail.reverse with
        | none => rfl
        | some m => exact ih _ _
      · split
        · rfl
        · cases es.lookup name with
          | none =>
            dsimp only [Option.map_none]
            split <;> rfl
          | some m =>
            rw [Option.map_some]
            cases m with
            | file c mode t =>
              rw [Node.settled_file]
              exact Node.settled_file c mode t ▸ ih (name :: here) (.file c mode t)
            | dir t es =>
              rw [Node.settled_dir]
              exact Node.settled_dir t es ▸ ih (name :: here) (.dir t es)
            | link target =>
              rw [Node.settled_link]
              dsimp only
              split
              · rw [Except.map, settledSpot, Node.settled_link]
              · split
                · exact hj [] top _
                · exact Node.settled_dir t es ▸ hj here (.dir t es) _

theorem trace_settled (links : Nat) (here : List String) (n : Node) (names : List String) :
    trace top.settled follow links here n.settled names =
      (trace top follow links here n names).map settledSpot := by
  induction links generalizing here n names with
  | zero => exact descend_settled (fun _ _ _ => rfl) here n names
  | succ links ih => exact descend_settled ih here n names

/-- The disk as a later run finds it. -/
def later (d : Disk) (clock : Nat) : Disk := { d.settled with clock }

theorem settle_settled (p : Path) (r : Except Fault Spot) :
    settle p (r.map settledSpot) = (settle p r).map settledSpot := by
  rcases r with e | ⟨place, n⟩ | ⟨dir, name⟩
  · rfl
  · rw [Except.map, settledSpot, settle, settle, Node.isDir_settled]
    split <;> rfl
  · rw [Except.map, settledSpot, settle]
    split <;> rfl

theorem locate_settled : d.settled.locate follow p = (d.locate follow p).map settledSpot := by
  cases ht : takes p with
  | false =>
    obtain ⟨e, he⟩ := locate_of_not_takes ht
    rw [he, he]
    rfl
  | true =>
    rw [locate_eq_settle ht, locate_eq_settle ht, ← settle_settled, ← trace_settled]
    rfl

theorem readText_settled : d.settled.readText p = d.readText p := by
  have hbytes : d.settled.readBytes p = d.readBytes p := by
    rw [readBytes, readBytes, find, find, locate_settled]
    rcases d.locate true p with e | ⟨place, n⟩ | ⟨dir, name⟩
    · rfl
    · rw [Except.map, settledSpot]
      cases n with
      | file => rw [Node.settled_file]
      | link => rw [Node.settled_link]
      | dir => rw [Node.settled_dir]
    · rfl
  rw [readText, readText, hbytes]

end Disk

end Outfitter
