import Outfitter.Proofs.Disk.Develop

/-! # Places below a directory

Names lead down from a directory that a path reaches, past links that lie elsewhere. Where nothing
but directories is on the way, those that are missing can be made; a file on the way stops that, and
leaves the tree as it is.
-/

namespace Outfitter

namespace Disk

variable {d d' d'' : Disk} {p : Path} {top n : Node} {place above here rel pre post : List String} {name x : String}
  {links : Nat} {follow : Bool} {t : Stamp} {es : Entries} {c : ByteArray} {mode : Nat}

/-- Names that an entry may have: proper ones, within the limit. -/
def Fits (rel : List String) : Prop := ∀ s ∈ rel, isName s = true ∧ s.utf8ByteSize ≤ nameLimit

theorem Fits.names (h : Fits rel) : ∀ s ∈ rel, isName s = true := fun s hs => (h s hs).1

theorem Fits.sizes (h : Fits rel) : ∀ s ∈ rel, s.utf8ByteSize ≤ nameLimit := fun s hs => (h s hs).2

theorem Fits.of_append (h : Fits (pre ++ post)) : Fits pre ∧ Fits post :=
  ⟨fun s hs => h s (List.mem_append_left _ hs), fun s hs => h s (List.mem_append_right _ hs)⟩

/-! ## Where names lead -/

theorem trace_missing (hname : x ≠ "..") (hsize : x.utf8ByteSize ≤ nameLimit) (h : es.lookup x = none)
    (hpost : post ≠ []) : trace top follow links here (.dir t es) (x :: post) = .error .notFound := by
  have hpost : post.isEmpty = false := by simpa using hpost
  cases links <;> simp [trace, descend, hname, Nat.not_lt.mpr hsize, h, hpost]

theorem trace_file : trace top follow links here (.file c mode t) (x :: post) = .error .notADirectory := by
  cases links <;> rfl

theorem reaches_of_find (h : d.find p = .ok (place, .dir t es)) : Reaches d p place :=
  ⟨follows_of_find h, Node.shape?_eq_dir.mpr ⟨t, es, locate_sound (find_ok_iff.mp h)⟩⟩

namespace Reaches

/-- A file is below a directory, not at it. -/
theorem ne_nil_of_file (h : Reaches d p place) (hat : d.top.at? (place ++ rel) = some (.file c mode t)) : rel ≠ [] := by
  rintro rfl
  obtain ⟨t', es, hdir⟩ := Node.shape?_eq_dir.mp h.dir
  rw [List.append_nil, hdir] at hat
  cases hat

theorem join (h : Reaches d p place) (hf : Fits rel) (hr : rel ≠ []) (hd : d.top.shape? (place ++ rel) = some .dir) :
    Reaches d (p.join ⟨rel⟩) (place ++ rel) := by
  obtain ⟨used, hu, hway⟩ := h.way
  obtain ⟨t, es, hat⟩ := Node.shape?_eq_dir.mp hd
  refine ⟨⟨used, hu, ?_⟩, hd⟩
  rw [trail_join hf.names hr]
  exact hway.descend hf.names hf.sizes hat (by simp)

theorem entry_below (h : Reaches d p place) (hf : Fits (rel ++ [name])) (hd : d.top.shape? (place ++ rel) = some .dir)
    (ht : takes (p.join ⟨rel ++ [name]⟩) = true) : Entry d (p.join ⟨rel ++ [name]⟩) (place ++ rel) name := by
  have hne : rel ++ [name] ≠ [] := by simp
  obtain ⟨used, hu, hway⟩ := h.way
  obtain ⟨t, es, hat⟩ := Node.shape?_eq_dir.mp hd
  obtain ⟨hname, hsize⟩ := hf name (by simp)
  exact
    { way := by
        refine ⟨d.trail p ++ rel, used, ?_, hu, hway.descend hf.of_append.1.names hf.of_append.1.sizes hat (by simp)⟩
        rw [trail_join hf.names hne, List.append_assoc]
      dir := hd
      proper := (isName_iff.mp hname).2.2.1
      size := hsize
      takes := ht
      ends := Path.endsIdle_join hne hf.names
      steps := steps_join_ne_nil hf.names hne }

/-- What names lead to past a node that is there. -/
theorem locate_past (h : Reaches d p place) (hf : Fits (pre ++ post)) (hpost : post ≠ [])
    (hat : d.top.at? (place ++ pre) = some n) (hl : ∀ target, n ≠ .link target)
    (ht : takes (p.join ⟨pre ++ post⟩) = true) (follow : Bool) :
    ∃ left, d.locate follow (p.join ⟨pre ++ post⟩) =
      settle (p.join ⟨pre ++ post⟩) (trace d.top follow left (place ++ pre).reverse n post) := by
  have hne : pre ++ post ≠ [] := by simp [hpost]
  obtain ⟨used, hu, hway⟩ := h.way
  have hway := hway.descend hf.of_append.1.names hf.of_append.1.sizes hat hl
  obtain ⟨m, hm, htrace⟩ := hway.trace_append (Node.at?_nil d.top) hu post (Or.inl hpost : _ ∨ follow = true)
  rw [List.reverse_reverse, hat, Option.some.injEq] at hm
  refine ⟨linkLimit - used, ?_⟩
  rw [locate_eq_settle ht, Path.endsIdle_join hne hf.names, Bool.or_false, trail_join hf.names hne,
    ← List.append_assoc, htrace, hm]

/-- Nothing is found past a name that is missing. -/
theorem locate_missing (h : Reaches d p place) (hf : Fits (pre ++ x :: post)) (hpost : post ≠ [])
    (hd : d.top.shape? (place ++ pre) = some .dir) (hx : d.top.at? (place ++ pre ++ [x]) = none)
    (ht : takes (p.join ⟨pre ++ x :: post⟩) = true) :
    d.locate follow (p.join ⟨pre ++ x :: post⟩) = .error .notFound := by
  obtain ⟨t, es, hat⟩ := Node.shape?_eq_dir.mp hd
  obtain ⟨hname, hsize⟩ := hf x (by simp)
  obtain ⟨left, hlocate⟩ := h.locate_past hf (List.cons_ne_nil x post) hat (by simp) ht follow
  rw [Node.at?_child hat] at hx
  rw [hlocate, trace_missing (isName_iff.mp hname).2.2.1 hsize hx hpost, settle]

/-- Nothing is found past a file. -/
theorem locate_file (h : Reaches d p place) (hf : Fits (pre ++ post)) (hpost : post ≠ [])
    (hat : d.top.at? (place ++ pre) = some (.file c mode t)) (ht : takes (p.join ⟨pre ++ post⟩) = true) :
    d.locate follow (p.join ⟨pre ++ post⟩) = .error .notADirectory := by
  obtain ⟨left, hlocate⟩ := h.locate_past hf hpost hat (by simp) ht follow
  obtain ⟨y, more, rfl⟩ := List.exists_cons_of_ne_nil hpost
  rw [hlocate, trace_file, settle]

/-- Where no link is below a directory, a path to what is missing there leads nowhere. -/
theorem find_missing (h : Reaches d p place) (hf : Fits rel) (hr : rel ≠ [])
    (hl : ∀ pre link, pre <+: rel → d.top.at? (place ++ pre) ≠ some (.link link))
    (hnone : d.top.at? (place ++ rel) = none) : ∃ e, d.find (p.join ⟨rel⟩) = .error e := by
  cases ht : takes (p.join ⟨rel⟩) with
  | false =>
    obtain ⟨e, he⟩ := locate_of_not_takes ht
    exact ⟨e, by rw [Disk.find, he]⟩
  | true =>
    -- the last thing that is there on the way
    obtain ⟨pre, x, post, n, rfl, hat, hx⟩ : ∃ pre x post n, rel = pre ++ x :: post ∧
        d.top.at? (place ++ pre) = some n ∧ d.top.at? (place ++ pre ++ [x]) = none := by
      clear hl ht hr hf
      induction rel using List.reverseRecOn with
      | nil =>
        obtain ⟨t, es, hdir⟩ := Node.shape?_eq_dir.mp h.dir
        rw [List.append_nil, hdir] at hnone
        cases hnone
      | append_singleton rel name ih =>
        cases hat : d.top.at? (place ++ rel) with
        | none =>
          obtain ⟨pre, x, post, n, rfl, hat, hx⟩ := ih hat
          exact ⟨pre, x, post ++ [name], n, by simp, hat, hx⟩
        | some n => exact ⟨rel, name, [], n, rfl, hat, by rwa [List.append_assoc]⟩
    cases n with
    | link link => exact absurd hat (hl pre link (List.prefix_append _ _))
    | file c mode t => exact ⟨_, by rw [Disk.find, h.locate_file hf (by simp) hat ht]⟩
    | dir t es =>
      have hd := Node.shape?_eq_dir.mpr ⟨t, es, hat⟩
      by_cases hpost : post = []
      · subst hpost
        exact ⟨_, by rw [Disk.find, (h.entry_below hf hd ht).locate_vacant hx]⟩
      · exact ⟨_, by rw [Disk.find, h.locate_missing hf hpost hd hx ht]⟩

end Reaches

theorem takes_join_append (hn : ∀ s ∈ pre ++ post, isName s = true) (hpre : pre ≠ [])
    (ht : takes (p.join ⟨pre ++ post⟩) = true) : takes (p.join ⟨pre⟩) = true := by
  have hn' : ∀ s ∈ pre, isName s = true := fun s hs => hn s (List.mem_append_left _ hs)
  have hempty := Path.isEmpty_join (p := p) hpre hn'
  obtain ⟨base, hbase⟩ := Path.join_base p
  rw [hbase _ hn] at ht
  rw [hbase _ hn'] at hempty ⊢
  simp only [takes, Bool.and_eq_true, Bool.not_eq_true', decide_eq_true_eq, List.any_eq_false] at ht ⊢
  refine ⟨⟨hempty, fun s hs => ht.1.2 s ?_⟩, Nat.le_trans ?_ ht.2⟩
  · rw [← List.append_assoc]
    exact List.mem_append_left _ hs
  · have hlen : (base ++ pre ++ post).length = (base ++ pre).length + post.length := List.length_append
    rw [Path.byteSize_mk, Path.byteSize_mk, ← List.append_assoc, Path.bytes_append (base ++ pre) post]
    omega

theorem Entry.update {c' : ByteArray} {mode' : Nat} {t' : Stamp} (e : Entry d p above name)
    (h : d.top.at? (above ++ [name]) = some (.file c mode t)) :
    Entry (d.update (above ++ [name]) fun _ => .file c' mode' t') p above name := by
  obtain ⟨hdiffers, hfile⟩ : Differs (above ++ [name]) d (d.update (above ++ [name]) fun _ => .file c' mode' t') ∧ _ :=
    differs_update h
  exact e.agrees (hdiffers.agrees (Node.loose_of_file h) (Node.loose_of_file hfile))

/-! ## Directories on the way -/

/-- Directories are made on the way to a place, and nothing else changes. -/
structure Paves (place : List String) (d d' : Disk) : Prop where
  cwd : d'.cwd = d.cwd
  clock : d'.clock = d.clock
  aside : ∀ q, ¬ q <+: place → d'.top.at? q = d.top.at? q
  onWay : ∀ q, q <+: place → d'.top.shape? q = d.top.shape? q ∨ d.top.shape? q = none ∧ d'.top.shape? q = some .dir

namespace Paves

theorem refl (place : List String) (d : Disk) : Paves place d d := ⟨rfl, rfl, fun _ _ => rfl, fun _ _ => Or.inl rfl⟩

theorem widens (h : Paves place d d') : Widens d d' := by
  refine ⟨h.cwd, fun q => ?_⟩
  by_cases hq : q <+: place
  · exact h.onWay q hq
  · rw [Node.shape?, Node.shape?, h.aside q hq]
    exact Or.inl rfl

theorem trans (h : Paves place d d') (h' : Paves place d' d'') : Paves place d d'' :=
  ⟨h'.cwd.trans h.cwd, h'.clock.trans h.clock, fun q hq => (h'.aside q hq).trans (h.aside q hq),
    fun q _ => (h.widens.trans h'.widens).shape q⟩

theorem mono {place' : List String} (h : Paves place d d') (hp : place <+: place') : Paves place' d d' :=
  ⟨h.cwd, h.clock, fun q hq => h.aside q fun hq' => hq (hq'.trans hp), fun q _ => h.widens.shape q⟩

theorem put (hd : d.top.shape? above = some .dir) (hv : d.top.at? (above ++ [name]) = none) :
    Paves (above ++ [name]) d (d.put (above ++ [name]) (.dir d.now [])) ∧
      (d.put (above ++ [name]) (.dir d.now [])).top.shape? (above ++ [name]) = some .dir := by
  obtain ⟨t, es, hat⟩ := Node.shape?_eq_dir.mp hd
  have hnew (rest : List String) : (d.put (above ++ [name]) (.dir d.now [])).top.at? (above ++ [name] ++ rest) =
      (Node.dir d.now []).at? rest := by
    rw [List.append_assoc]
    exact Node.at?_alter_self hat
  have hself : (d.put (above ++ [name]) (.dir d.now [])).top.shape? (above ++ [name]) = some .dir := by
    have hself := hnew []
    rw [List.append_nil] at hself
    exact Node.shape?_eq_dir.mpr ⟨_, _, hself⟩
  refine ⟨⟨rfl, rfl, fun q hq => ?_, fun q hq => ?_⟩, hself⟩
  · by_cases hpast : above ++ [name] <+: q
    · obtain ⟨rest, rfl⟩ := hpast
      rw [hnew, Node.at?_append, hv]
      cases rest with
      | nil => exact absurd (by simp) hq
      | cons => rfl
    · exact Node.at?_alter_of_disjoint hpast hq
  · by_cases hpast : above ++ [name] <+: q
    · obtain rfl := hq.eq_of_length_le hpast.length_le
      exact Or.inr ⟨by rw [Node.shape?, hv]; rfl, hself⟩
    · exact Or.inl (Node.shape?_alter hpast)

end Paves

/-! ## One place -/

/-- A place holds something new; directories are made on the way to it, and nothing else changes. -/
structure Sets (place : List String) (n : Option Node) (d d' : Disk) : Prop where
  cwd : d'.cwd = d.cwd
  clock : d'.clock = d.clock
  there : d'.top.at? place = n
  aside : ∀ q, ¬ q <+: place → d'.top.at? q = d.top.at? q
  onWay : ∀ q, q <+: place → q ≠ place →
    d'.top.shape? q = d.top.shape? q ∨ d.top.shape? q = none ∧ d'.top.shape? q = some .dir

theorem Sets.refl (place : List String) (d : Disk) : Sets place (d.top.at? place) d d :=
  ⟨rfl, rfl, rfl, fun _ _ => rfl, fun _ _ _ => Or.inl rfl⟩

theorem Paves.sets (h : Paves above d d') (name : String) :
    Sets (above ++ [name]) (d.top.at? (above ++ [name])) d d' :=
  ⟨h.cwd, h.clock, h.aside _ fun hpre => absurd hpre.length_le (by simp),
    fun q hq => h.aside q fun hq' => hq (hq'.trans (List.prefix_append _ _)), fun q _ _ => h.widens.shape q⟩

namespace Sets

variable {o : Option Node} {touch : Option Stamp} {f : Option Node → Option Node}

theorem alter (h : Sets (above ++ [name]) o d d') (hd : d'.top.shape? above = some .dir)
    (ho : Shape.Loose (o.map Node.shape)) (hf : f o = some (.file c mode t)) :
    Sets (above ++ [name]) (some (.file c mode t)) d { d' with top := d'.top.alter touch f (above ++ [name]) } := by
  obtain ⟨t', es, hat⟩ := Node.shape?_eq_dir.mp hd
  have hlookup : es.lookup name = o := (Node.at?_child hat).symm.trans h.there
  have hpast (rest : List String) :
      (d'.top.alter touch f (above ++ [name])).at? (above ++ [name] ++ rest) = (Node.file c mode t).at? rest := by
    rw [List.append_assoc, List.singleton_append, Node.at?_alter_self hat, hlookup, hf]
    rfl
  refine ⟨h.cwd, h.clock, by simpa using hpast [], fun q hq => ?_, fun q hq hne => ?_⟩
  · rw [← h.aside q hq]
    by_cases hq' : above ++ [name] <+: q
    · -- nothing is below a file, before or after
      obtain ⟨rest, rfl⟩ := hq'
      obtain ⟨x, rest, rfl⟩ : ∃ x more, rest = x :: more := by
        apply List.exists_cons_of_ne_nil
        rintro rfl
        simp at hq
      rw [hpast, Node.at?_append, h.there]
      rcases Shape.loose_cases ho with hnone | ⟨c', m', t', hfile⟩
      · rw [Option.map_eq_none_iff.mp hnone]
        rfl
      · obtain ⟨n, rfl, hn⟩ := Option.map_eq_some_iff.mp hfile
        cases n with
        | file => rfl
        | dir => cases hn
        | link => cases hn
    · exact Node.at?_alter_of_disjoint hq' hq
  · have hq' : ¬ above ++ [name] <+: q := fun hq' => hne (hq.eq_of_length_le hq'.length_le)
    show (d'.top.alter touch f (above ++ [name])).shape? q = d.top.shape? q ∨ _
    rw [Node.shape?_alter hq']
    exact h.onWay q hq hne

theorem put (h : Sets (above ++ [name]) o d d') (hd : d'.top.shape? above = some .dir)
    (ho : Shape.Loose (o.map Node.shape)) :
    Sets (above ++ [name]) (some (.file c mode t)) d (d'.put (above ++ [name]) (.file c mode t)) :=
  h.alter hd ho rfl

theorem update {c' : ByteArray} {mode' : Nat} {t' : Stamp} (h : Sets (above ++ [name]) (some (.file c' mode' t')) d d') :
    Sets (above ++ [name]) (some (.file c mode t)) d (d'.update (above ++ [name]) fun _ => .file c mode t) := by
  obtain ⟨t', es, hdir, -⟩ := (Node.at?_concat _ _ _).mp h.there
  exact h.alter (Node.shape?_eq_dir.mpr ⟨t', es, hdir⟩) (Shape.loose_file _ _ _) rfl

theorem widens_elsewhere (h : Sets place o d d') (q : List String) (hq : q ≠ place) :
    d'.top.shape? q = d.top.shape? q ∨ d.top.shape? q = none ∧ d'.top.shape? q = some .dir := by
  by_cases hpre : q <+: place
  · exact h.onWay q hpre hq
  · rw [Node.shape?, Node.shape?, h.aside q hpre]
    exact Or.inl rfl

/-- Nothing is lost where a file takes the place of a file, or of nothing. -/
theorem develops (h : Sets place o d d')
    (hnew : o = d.top.at? place ∨ Shape.Loose (d.top.shape? place) ∧ ∃ c mode t, o = some (.file c mode t)) :
    Develops d d' := by
  have hkept (q : List String) (s : Shape) (hq : d.top.shape? q = some s) (hs : ¬ Shape.Loose (some s)) :
      d'.top.shape? q = some s := by
    by_cases hne : q = place
    · subst hne
      rcases hnew with rfl | ⟨hloose, -⟩
      · rw [Node.shape?, h.there]
        exact hq
      · rw [hq] at hloose
        exact absurd hloose hs
    · rcases h.widens_elsewhere q hne with heq | ⟨hnone, -⟩
      · rw [heq, hq]
      · rw [hnone] at hq
        cases hq
  refine ⟨h.cwd, fun q hq => hkept q _ hq fun hl => hl.1 rfl, fun q target hq => hkept q _ hq fun hl => hl.2 _ rfl, ?_⟩
  rintro q ⟨c, mode, t, hq⟩
  by_cases hne : q = place
  · subst hne
    rcases hnew with rfl | ⟨-, c', mode', t', rfl⟩
    · exact ⟨c, mode, t, h.there.trans hq⟩
    · exact ⟨c', mode', t', h.there⟩
  · have hq := Node.shape?_eq_file.mpr hq
    rcases h.widens_elsewhere q hne with heq | ⟨hnone, -⟩
    · exact ⟨c, mode, t, Node.shape?_eq_file.mp (heq.trans hq)⟩
    · rw [hnone] at hq
      cases hq

end Sets

end Disk

namespace Files

open Action Disk

variable {d d' : Disk} {p : Path} {place rel pre post : List String} {name : String} {fuel : Nat}

/-- Nothing but directories is on the way to a place, as far as it is there. -/
def Free (d : Disk) (place rel : List String) : Prop :=
  ∀ pre, pre <+: rel → d.top.shape? (place ++ pre) = none ∨ d.top.shape? (place ++ pre) = some .dir

/-- The names on the way split where the first one is missing. -/
theorem Free.split (h : Free d place rel) (hd : d.top.shape? place = some .dir) (hm : d.top.shape? (place ++ rel) = none) :
    ∃ pre x post, rel = pre ++ x :: post ∧ d.top.shape? (place ++ pre) = some .dir ∧
      d.top.at? (place ++ pre ++ [x]) = none := by
  induction rel using List.reverseRecOn with
  | nil =>
    rw [List.append_nil, hd] at hm
    cases hm
  | append_singleton rel name ih =>
    rcases h rel (List.prefix_append _ _) with hnone | hdir
    · obtain ⟨pre, x, post, rfl, hpre, hx⟩ := ih (fun pre hpre => h pre (hpre.trans (List.prefix_append _ _))) hnone
      exact ⟨pre, x, post ++ [name], by simp, hpre, hx⟩
    · refine ⟨rel, name, [], rfl, hdir, ?_⟩
      rw [← List.append_assoc] at hm
      exact Option.map_eq_none_iff.mp hm

theorem makeDirsFrom_cons_of_reaches {q : Path} {around : List Path} (h : Reaches d q place) (ht : takes q = true)
    (hne : q.isBare = false) : (makeDirsFrom (q :: around)).on d = (.ok (), d) := by
  obtain ⟨e, hmake, he⟩ := h.makeDir ht
  rw [makeDirsFrom, hne, Bool.false_and, if_neg Bool.false_ne_true, on_bind_attempt, on_change_error hmake]
  split
  · next hok => cases hok
  · next hmissing =>
    cases hmissing
    exact absurd rfl he
  · rw [on_bind_ask, if_pos (h.isDir ht), on_pure]

theorem isBare_join (hn : ∀ s ∈ rel, isName s = true) (hr : rel ≠ []) : (p.join ⟨rel⟩).isBare = false := by
  rw [Path.isBare, Bool.and_eq_false_iff]
  exact Or.inr (by simpa using steps_join_ne_nil hn hr)

/-- An entry that is missing is made. -/
theorem makeDir_below (h : Reaches d p place) (hf : Fits (rel ++ [name])) (ht : takes (p.join ⟨rel ++ [name]⟩) = true)
    (hd : d.top.shape? (place ++ rel) = some .dir) (hv : d.top.at? (place ++ rel ++ [name]) = none) :
    ∃ d', d.makeDir (p.join ⟨rel ++ [name]⟩) = .ok d' ∧ Paves (place ++ (rel ++ [name])) d d' ∧
      d'.top.shape? (place ++ (rel ++ [name])) = some .dir := by
  have e := h.entry_below hf hd ht
  rw [← List.append_assoc]
  refine ⟨_, ?_, Paves.put hd hv⟩
  rw [Disk.makeDir, e.locate_vacant hv]

/-- Below a directory those on the way are made. -/
theorem makeDirsFrom_below (h : Reaches d p place) (hf : Fits rel) (hr : rel ≠ []) (ht : takes (p.join ⟨rel⟩) = true)
    (hfree : Free d place rel) (hfuel : rel.length ≤ fuel) :
    ∃ d', (makeDirsFrom ((p.join ⟨rel⟩).ancestorsUpTo fuel)).on d = (.ok (), d') ∧ Paves (place ++ rel) d d' ∧
      d'.top.shape? (place ++ rel) = some .dir := by
  induction rel using List.reverseRecOn generalizing fuel with
  | nil => exact absurd rfl hr
  | append_singleton rel name ih =>
    have hbare := isBare_join (p := p) hf.names hr
    rcases hfree rel (List.prefix_append _ _) with hnone | hdir
    · -- what is around it is made first
      have hfree' : Free d place rel := fun pre hpre => hfree pre (hpre.trans (List.prefix_append _ _))
      have hrel : rel ≠ [] := by
        rintro rfl
        rw [List.append_nil, h.dir] at hnone
        cases hnone
      have hparent := Path.parent?_join (p := p) hrel hf.names
      have hmissing : d.makeDir (p.join ⟨rel ++ [name]⟩) = .error .notFound := by
        obtain ⟨pre, x, post, rfl, hpre, hx⟩ := hfree'.split h.dir hnone
        rw [List.append_assoc, List.cons_append] at hf ht ⊢
        rw [Disk.makeDir, h.locate_missing hf (by simp) hpre hx ht]
      obtain ⟨fuel, rfl⟩ : ∃ more, fuel = more + 1 := ⟨fuel - 1, by simp at hfuel; omega⟩
      have hfuel' : rel.length ≤ fuel := by simpa using hfuel
      obtain ⟨d₁, hmade, hpaves, hdir⟩ := ih hf.of_append.1 hrel
        (takes_parent ht hparent (Path.isEmpty_join hrel hf.of_append.1.names)) hfree' hfuel'
      have hv : d₁.top.at? (place ++ rel ++ [name]) = none := by
        rw [hpaves.aside _ (fun hpre => absurd hpre.length_le (by simp)), Node.at?_append, Option.map_eq_none_iff.mp hnone]
        rfl
      obtain ⟨d₂, hmake, hlast, hthere⟩ := makeDir_below (hpaves.widens.develops.reaches h) hf ht hdir hv
      refine ⟨d₂, ?_, (hpaves.mono (by simp)).trans hlast, hthere⟩
      rw [Path.ancestorsUpTo, hparent]
      dsimp only
      rw [makeDirsFrom, hbare, Bool.false_and, if_neg Bool.false_ne_true, on_bind_attempt, on_change_error hmissing]
      dsimp only
      rw [on_bind_ok hmade, makeLast, on_bind_attempt, on_change_ok hmake]
      rfl
    · obtain ⟨around, heq⟩ := ancestorsUpTo_cons fuel (p.join ⟨rel ++ [name]⟩)
      rw [heq]
      rcases hfree _ (List.prefix_refl _) with hv | hthere
      · rw [← List.append_assoc] at hv
        obtain ⟨d', hmake, hpaves⟩ := makeDir_below h hf ht hdir (Option.map_eq_none_iff.mp hv)
        refine ⟨d', ?_, hpaves⟩
        rw [makeDirsFrom, hbare, Bool.false_and, if_neg Bool.false_ne_true, on_bind_attempt, on_change_ok hmake]
        rfl
      · exact ⟨d, makeDirsFrom_cons_of_reaches (h.join hf hr hthere) ht hbare, .refl _ d, hthere⟩

theorem length_le_segments (hn : ∀ s ∈ rel, isName s = true) : rel.length ≤ (p.join ⟨rel⟩).segments.length := by
  obtain ⟨base, hbase⟩ := Path.join_base p
  rw [hbase rel hn]
  simp

/-- Where nothing but directories is on the way to an entry, they can be made. -/
theorem makeParents_below (h : Reaches d p place) (hf : Fits (rel ++ [name]))
    (ht : takes (p.join ⟨rel ++ [name]⟩) = true) (hfree : Free d place rel) :
    ∃ d', (makeParents (p.join ⟨rel ++ [name]⟩)).on d = (.ok (), d') ∧ Paves (place ++ rel) d d' ∧
      Entry d' (p.join ⟨rel ++ [name]⟩) (place ++ rel) name := by
  rcases hfree rel (List.prefix_refl _) with hnone | hdir
  · have hrel : rel ≠ [] := by
      rintro rfl
      rw [List.append_nil, h.dir] at hnone
      cases hnone
    have hparent := Path.parent?_join (p := p) hrel hf.names
    obtain ⟨d', hmade, hpaves, hdir⟩ := makeDirsFrom_below h hf.of_append.1 hrel
      (takes_parent ht hparent (Path.isEmpty_join hrel hf.of_append.1.names)) hfree
      (length_le_segments hf.of_append.1.names)
    refine ⟨d', ?_, hpaves, (hpaves.widens.develops.reaches h).entry_below hf hdir ht⟩
    rw [makeParents, hparent]
    exact hmade
  · have e := h.entry_below hf hdir ht
    exact ⟨d, makeParents_of_entry e, .refl _ d, e⟩

theorem makeDirs_below (h : Reaches d p place) (hf : Fits rel) (hr : rel ≠ []) (ht : takes (p.join ⟨rel⟩) = true)
    (hfree : Free d place rel) :
    ∃ d', (makeDirs (p.join ⟨rel⟩)).on d = (.ok (), d') ∧ Paves (place ++ rel) d d' ∧
      d'.top.shape? (place ++ rel) = some .dir :=
  makeDirsFrom_below h hf hr ht hfree (length_le_segments hf.names)

/-- A file at a place, or on the way to it, keeps directories from being made. -/
theorem makeDirs_blocked (h : Reaches d p place) (hf : Fits (pre ++ post)) (ht : takes (p.join ⟨pre ++ post⟩) = true)
    {c : ByteArray} {mode : Nat} {t : Stamp} (hat : d.top.at? (place ++ pre) = some (.file c mode t)) :
    ∃ e, (makeDirs (p.join ⟨pre ++ post⟩)).on d = (.error e, d) := by
  have hpre := h.ne_nil_of_file hat
  obtain ⟨e, hmake, he, hdir⟩ : ∃ e, d.makeDir (p.join ⟨pre ++ post⟩) = .error e ∧ e ≠ .notFound ∧
      d.isDir (p.join ⟨pre ++ post⟩) = false := by
    by_cases hpost : post = []
    · subst hpost
      rw [List.append_nil] at hf ht ⊢
      have hloc (follow : Bool) : d.locate follow (p.join ⟨pre⟩) = .ok (.there (place ++ pre) (.file c mode t)) := by
        obtain ⟨dirs, last, rfl⟩ : ∃ dirs last, pre = dirs ++ [last] :=
          ⟨_, _, (List.dropLast_append_getLast hpre).symm⟩
        rw [← List.append_assoc] at hat ⊢
        obtain ⟨t', es, hdirs, -⟩ := (Node.at?_concat _ _ _).mp hat
        exact (h.entry_below hf (Node.shape?_eq_dir.mpr ⟨t', es, hdirs⟩) ht).locate_there hat (by simp)
      refine ⟨.alreadyExists, by rw [Disk.makeDir, hloc], by decide, ?_⟩
      rw [Disk.isDir, Disk.find, hloc]
      rfl
    · refine ⟨.notADirectory, by rw [Disk.makeDir, h.locate_file hf hpost hat ht], by decide, ?_⟩
      rw [Disk.isDir, Disk.find, h.locate_file hf hpost hat ht]
  obtain ⟨around, heq⟩ := ancestorsUpTo_cons (p.join ⟨pre ++ post⟩).segments.length (p.join ⟨pre ++ post⟩)
  refine ⟨.io e, ?_⟩
  rw [makeDirs, Path.ancestors, heq, makeDirsFrom, isBare_join hf.names (by simp [hpre]), Bool.false_and,
    if_neg Bool.false_ne_true, on_bind_attempt, on_change_error hmake]
  split
  · next hok => cases hok
  · next hmissing =>
    cases hmissing
    exact absurd rfl he
  · next hother =>
    cases hother
    rw [on_bind_ask, hdir, if_neg Bool.false_ne_true, on_fail]

theorem makeParents_blocked (h : Reaches d p place) (hf : Fits (pre ++ post ++ [name]))
    (ht : takes (p.join ⟨pre ++ post ++ [name]⟩) = true) {c : ByteArray} {mode : Nat} {t : Stamp}
    (hat : d.top.at? (place ++ pre) = some (.file c mode t)) :
    ∃ e, (makeParents (p.join ⟨pre ++ post ++ [name]⟩)).on d = (.error e, d) := by
  have hrel : pre ++ post ≠ [] := fun hnil => h.ne_nil_of_file hat (List.append_eq_nil_iff.mp hnil).1
  have hparent := Path.parent?_join (p := p) hrel hf.names
  rw [makeParents, hparent]
  exact makeDirs_blocked h hf.of_append.1 (takes_parent ht hparent (Path.isEmpty_join hrel hf.of_append.1.names)) hat

end Files

end Outfitter
