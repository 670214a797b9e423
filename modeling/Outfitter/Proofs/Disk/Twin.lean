import Outfitter.Proofs.Disk.Operations

/-! # Disks that look alike

Two disks are twins but for some places if all other places have the same shape. An operation
on a path that misses those places has the same outcome on both and leaves them twins.
-/

namespace Outfitter.Disk

variable {o : Disk} {X : List String → Prop} {a b : Disk} {p source target : Path}
  {place above names here : List String} {name : String} {n m : Node} {follow : Bool}

/-- Disks with the working directory of `o` on which all places but those of `X` have the same
shape; the second one is free of links. -/
structure Twin (o : Disk) (X : List String → Prop) (a b : Disk) : Prop where
  left : a.cwd = o.cwd
  right : b.cwd = o.cwd
  clock : a.clock = b.clock
  shape : ∀ q, ¬ X q → a.top.shape? q = b.top.shape? q
  free : b.top.LinkFree

theorem Twin.now_eq (h : Twin o X a b) : a.now = b.now := by
  rw [now, now, h.clock]

/-- The path passes no place of `X`. -/
def Misses (o : Disk) (X : List String → Prop) (p : Path) : Prop :=
  ∀ ys, ys <+: o.trail p → ¬ X (climb [] ys).reverse

/-! ## Where a path leads on both -/

/-- Two searches end alike: in the same fault, at the same file, at directories in the same place,
or at the same vacant name. -/
inductive Meet (a b : Disk) : Except Fault Spot → Except Fault Spot → Prop where
  | fault (e : Fault) : Meet a b (.error e) (.error e)
  | file {place : List String} {c : ByteArray} {mode : Nat} {t : Stamp} :
      a.top.at? place = some (.file c mode t) → b.top.at? place = some (.file c mode t) →
      Meet a b (.ok (.there place (.file c mode t))) (.ok (.there place (.file c mode t)))
  | dir {place : List String} {t t' : Stamp} {es es' : Entries} :
      a.top.at? place = some (.dir t es) → b.top.at? place = some (.dir t' es') →
      Meet a b (.ok (.there place (.dir t es))) (.ok (.there place (.dir t' es')))
  | vacant {above : List String} {name : String} :
      a.top.shape? above = some .dir → b.top.shape? above = some .dir →
      Meet a b (.ok (.vacant above name)) (.ok (.vacant above name))

/-- Nodes of one shape are one file, or directories both, where there are no links. -/
theorem node_cases (hl : b.top.LinkFree) (hm : b.top.at? place = some m)
    (h : a.top.shape? place = b.top.shape? place) :
    (∃ c mode t, a.top.at? place = some (.file c mode t) ∧ m = .file c mode t) ∨
      ∃ t es t' es', a.top.at? place = some (.dir t es) ∧ m = .dir t' es' := by
  rw [Node.shape?, Node.shape?, hm, Option.map_some, Option.map_eq_some_iff] at h
  obtain ⟨n, hn, hshape⟩ := h
  cases m with
  | link target => exact absurd hm (hl _ _)
  | file c mode t =>
    cases n <;> cases hshape
    exact Or.inl ⟨c, mode, t, hn, rfl⟩
  | dir t' es' =>
    cases n <;> cases hshape
    exact Or.inr ⟨_, _, t', es', hn, rfl⟩

theorem meet_descend {jump : List String → Node → List String → Except Fault Spot}
    (hl : b.top.LinkFree)
    (hs : ∀ ys, ys <+: names → a.top.shape? (climb here ys).reverse = b.top.shape? (climb here ys).reverse)
    (hn : a.top.at? here.reverse = some n) (hm : b.top.at? here.reverse = some m) :
    Meet a b (descend a.top follow jump here n names) (walk b.top here m names) := by
  induction names generalizing here n m with
  | nil =>
    rw [walk_nil, descend]
    rcases node_cases hl hm (hs [] List.nil_prefix) with ⟨c, mode, t, hn', rfl⟩ | ⟨t, es, t', es', hn', rfl⟩
    · cases hn.symm.trans hn'
      exact .file hn hm
    · cases hn.symm.trans hn'
      exact .dir hn hm
  | cons name rest ih =>
    have hrest : ∀ ys, ys <+: rest → a.top.shape? (climb (climb here [name]) ys).reverse =
        b.top.shape? (climb (climb here [name]) ys).reverse := by
      intro ys hys
      rw [← climb_append, List.singleton_append]
      exact hs (name :: ys) (List.cons_prefix_cons.mpr ⟨rfl, hys⟩)
    have hnext := hrest [] List.nil_prefix
    rw [climb_nil] at hnext
    rcases node_cases hl hm (hs [] List.nil_prefix) with ⟨c, mode, t, hn', rfl⟩ | ⟨t, es, t', es', hn', rfl⟩
    · cases hn.symm.trans hn'
      rw [walk_file]
      simp only [descend]
      exact .fault _
    · cases hn.symm.trans hn'
      by_cases hu : name = ".."
      · subst hu
        rw [walk_up, descend, if_pos rfl]
        rw [climb, if_pos rfl, climb_nil] at hrest hnext
        cases hb : b.top.at? here.tail.reverse with
        | none =>
          rw [Node.shape?, Node.shape?, hb, Option.map_none, Option.map_eq_none_iff] at hnext
          rw [hnext]
          exact .fault _
        | some m =>
          rw [Node.shape?, Node.shape?, hb, Option.map_some, Option.map_eq_some_iff] at hnext
          obtain ⟨n, ha, -⟩ := hnext
          rw [ha]
          exact ih hrest ha hb
      · rw [walk_cons hl hm hu, descend, if_neg hu]
        rw [climb, if_neg hu, climb_nil] at hrest hnext
        split
        · exact .fault _
        have hna : a.top.at? (name :: here).reverse = es.lookup name := by
          rw [List.reverse_cons, Node.at?_child hn]
        have hmb : b.top.at? (name :: here).reverse = es'.lookup name := by
          rw [List.reverse_cons, Node.at?_child hm]
        cases hb : es'.lookup name with
        | none =>
          rw [Node.shape?, Node.shape?, hmb, hb, Option.map_none, Option.map_eq_none_iff, hna] at hnext
          rw [hnext]
          dsimp only
          split
          · exact .vacant (Node.shape?_eq_dir.mpr ⟨t, es, hn⟩) (Node.shape?_eq_dir.mpr ⟨t', es', hm⟩)
          · exact .fault _
        | some m =>
          rw [hb] at hmb
          rcases node_cases hl hmb hnext with ⟨c, mode, s, hn', rfl⟩ | ⟨s, fs, s', fs', hn', rfl⟩
          · rw [hna.symm.trans hn']
            exact ih hrest hn' hmb
          · rw [hna.symm.trans hn']
            exact ih hrest hn' hmb

theorem Meet.settle {r s : Except Fault Spot} (h : Meet a b r s) : Meet a b (settle p r) (settle p s) := by
  cases h with
  | fault e => exact .fault e
  | file ha hb =>
    rw [Disk.settle]
    split
    · exact .fault _
    · exact .file ha hb
  | dir ha hb =>
    rw [settle_dir, settle_dir]
    exact .dir ha hb
  | vacant ha hb =>
    rw [Disk.settle]
    split
    · exact .fault _
    · exact .vacant ha hb

/-- A path leads to the same on both disks if it misses `X`, or is not taken. -/
theorem Twin.locate_of_taken (h : Twin o X a b) (hp : takes p = true → o.Misses X p) (follow : Bool) :
    Meet a b (a.locate follow p) (b.locate follow p) := by
  cases ht : takes p with
  | false =>
    obtain ⟨e, he⟩ := locate_of_not_takes ht
    rw [he, he]
    exact .fault e
  | true =>
    rw [locate_eq_settle ht, locate_of_takes h.free ht, trail_of_cwd h.left, trail_of_cwd h.right]
    exact (meet_descend h.free (fun ys hys => h.shape _ (hp ht ys hys)) (Node.at?_nil _)
      (Node.at?_nil _)).settle

theorem Twin.locate (h : Twin o X a b) (hp : o.Misses X p) (follow : Bool) :
    Meet a b (a.locate follow p) (b.locate follow p) :=
  h.locate_of_taken (fun _ => hp) follow

/-! ## Looking -/

theorem Twin.isDir (h : Twin o X a b) (hp : takes p = true → o.Misses X p) : a.isDir p = b.isDir p := by
  have hm := h.locate_of_taken hp true
  unfold Disk.isDir Disk.find
  generalize a.locate true p = r at hm
  generalize b.locate true p = s at hm
  cases hm <;> rfl

section Looking

variable (h : Twin o X a b) (hp : o.Misses X p)

include h hp

theorem Twin.isThere : a.isThere p = b.isThere p := by
  have hm := h.locate hp true
  unfold Disk.isThere Disk.find
  generalize a.locate true p = r at hm
  generalize b.locate true p = s at hm
  cases hm <;> rfl

theorem Twin.isFile : a.isFile p = b.isFile p := by
  have hm := h.locate hp true
  unfold Disk.isFile Disk.find
  generalize a.locate true p = r at hm
  generalize b.locate true p = s at hm
  cases hm <;> rfl

theorem Twin.readBytes : a.readBytes p = b.readBytes p := by
  have hm := h.locate hp true
  unfold Disk.readBytes Disk.find
  generalize a.locate true p = r at hm
  generalize b.locate true p = s at hm
  cases hm <;> rfl

theorem Twin.readText : a.readText p = b.readText p := by
  rw [Disk.readText, Disk.readText, h.readBytes hp]

end Looking

/-! ## Changes of a node -/

theorem shape?_alter_self {touch : Option Stamp} {f : Option Node → Option Node} {top : Node}
    (h : top.shape? above = some .dir) (rest : List String) :
    (top.alter touch f (above ++ [name])).shape? (above ++ name :: rest) =
      ((f (top.at? (above ++ [name]))).bind (·.at? rest)).map Node.shape := by
  obtain ⟨t, es, hat⟩ := Node.shape?_eq_dir.mp h
  rw [Node.shape?, Node.at?_alter_self hat, Node.at?_child hat]

theorem shape?_eq_link {top : Node} {target : Path} :
    top.shape? place = some (.link target) ↔ top.at? place = some (.link target) := by
  rw [Node.shape?]
  cases top.at? place with
  | none => simp
  | some n => cases n <;> simp [Node.shape]

theorem linkFree_alter {touch : Option Stamp} {f : Option Node → Option Node} {top : Node}
    (hl : top.LinkFree) (h : top.shape? above = some .dir)
    (hf : ∀ n, f (top.at? (above ++ [name])) = some n → n.LinkFree) :
    (top.alter touch f (above ++ [name])).LinkFree := by
  intro q target
  rw [Ne, ← shape?_eq_link]
  by_cases hpre : above ++ [name] <+: q
  · obtain ⟨rest, rfl⟩ := hpre
    rw [List.append_assoc, List.singleton_append, shape?_alter_self h]
    cases hn : f (top.at? (above ++ [name])) with
    | none => simp
    | some n =>
      show n.shape? rest ≠ _
      rw [Ne, shape?_eq_link]
      exact hf n hn rest target
  · rw [Node.shape?_alter hpre, shape?_eq_link]
    exact hl q target

theorem linkFree_file (c : ByteArray) (mode : Nat) (t : Stamp) : (Node.file c mode t).LinkFree :=
  Node.linkFree_of_isPlain rfl

theorem alter_nil {touch : Option Stamp} {f : Option Node → Option Node} (top : Node) :
    top.alter touch f [] = top := by
  cases top <;> rfl

namespace Twin

variable (h : Twin o X a b)

include h

/-- The same change at the same place, which makes the same of what is there. -/
theorem alter {touch : Option Stamp} {f g : Option Node → Option Node}
    (ha : a.top.shape? above = some .dir) (hb : b.top.shape? above = some .dir)
    (hfg : f (a.top.at? (above ++ [name])) = g (b.top.at? (above ++ [name])))
    (hg : ∀ n, g (b.top.at? (above ++ [name])) = some n → n.LinkFree) :
    Twin o X { a with top := a.top.alter touch f (above ++ [name]) }
      { b with top := b.top.alter touch g (above ++ [name]) } where
  left := h.left
  right := h.right
  clock := h.clock
  free := linkFree_alter h.free hb hg
  shape q hq := by
    by_cases hpre : above ++ [name] <+: q
    · obtain ⟨rest, rfl⟩ := hpre
      rw [List.append_assoc, List.singleton_append, shape?_alter_self ha, shape?_alter_self hb, hfg]
    · rw [Node.shape?_alter hpre, Node.shape?_alter hpre]
      exact h.shape q hq

/-- The same change of what is there on both disks. -/
theorem alter_there {touch : Option Stamp} {f g : Option Node → Option Node}
    (ha : a.top.at? place = some n) (hb : b.top.at? place = some m) (hfg : f (some n) = g (some m))
    (hg : ∀ n, g (some m) = some n → n.LinkFree) :
    Twin o X { a with top := a.top.alter touch f place } { b with top := b.top.alter touch g place } := by
  rcases List.eq_nil_or_concat' place with rfl | ⟨above, name, rfl⟩
  · rw [alter_nil, alter_nil]
    exact h
  · refine h.alter (Node.dir_above ha) (Node.dir_above hb) (by rw [ha, hb, hfg]) ?_
    rw [hb]
    exact hg

theorem put (ha : a.top.shape? above = some .dir) (hb : b.top.shape? above = some .dir)
    (hn : n.LinkFree) : Twin o X (a.put (above ++ [name]) n) (b.put (above ++ [name]) n) := by
  rw [Disk.put, Disk.put, h.now_eq]
  refine h.alter ha hb rfl fun n' hn' => ?_
  cases hn'
  exact hn

theorem put_over {new : Node} (ha : a.top.at? place = some n) (hb : b.top.at? place = some m)
    (hn : new.LinkFree) : Twin o X (a.put place new) (b.put place new) := by
  rw [Disk.put, Disk.put, h.now_eq]
  refine h.alter_there ha hb rfl fun n' hn' => ?_
  cases hn'
  exact hn

theorem erase (ha : a.top.at? place = some n) (hb : b.top.at? place = some m) :
    Twin o X (a.erase place) (b.erase place) := by
  rw [Disk.erase, Disk.erase, h.now_eq]
  exact h.alter_there ha hb rfl fun n' hn' => by cases hn'

theorem update {f : Node → Node} (ha : a.top.at? place = some n) (hb : b.top.at? place = some n)
    (hf : (f n).LinkFree) : Twin o X (a.update place f) (b.update place f) := by
  refine h.alter_there ha hb rfl fun n' hn' => ?_
  cases hn'
  exact hf

end Twin

/-! ## Operations -/

/-- Two changes end alike: in the same fault, or on twins. -/
inductive Alike (o : Disk) (X : List String → Prop) : Except Fault Disk → Except Fault Disk → Prop where
  | fault (e : Fault) : Alike o X (.error e) (.error e)
  | twins {a b : Disk} : Twin o X a b → Alike o X (.ok a) (.ok b)

namespace Twin

variable (h : Twin o X a b)

include h

theorem edit {f : ByteArray → ByteArray} (hp : o.Misses X p) : Alike o X (a.edit p f) (b.edit p f) := by
  have hm := h.locate hp true
  unfold Disk.edit
  generalize a.locate true p = r at hm
  generalize b.locate true p = s at hm
  cases hm with
  | fault e => exact .fault e
  | file ha hb =>
    dsimp only
    split
    · rw [h.now_eq]
      exact .twins (h.update ha hb (linkFree_file _ _ _))
    · exact .fault _
  | dir => exact .fault _
  | vacant ha hb =>
    dsimp only
    split
    · exact .fault _
    · rw [h.now_eq]
      exact .twins (h.put ha hb (linkFree_file _ _ _))

theorem makeDir (hp : takes p = true → o.Misses X p) : Alike o X (a.makeDir p) (b.makeDir p) := by
  have hm := h.locate_of_taken hp false
  unfold Disk.makeDir
  generalize a.locate false p = r at hm
  generalize b.locate false p = s at hm
  cases hm with
  | fault e => exact .fault e
  | file => exact .fault _
  | dir => exact .fault _
  | vacant ha hb =>
    dsimp only
    rw [h.now_eq]
    exact .twins (h.put ha hb (Node.linkFree_of_isPlain rfl))

theorem removeFile (hp : o.Misses X p) : Alike o X (a.removeFile p) (b.removeFile p) := by
  have hm := h.locate hp false
  unfold Disk.removeFile
  generalize a.locate false p = r at hm
  generalize b.locate false p = s at hm
  cases hm with
  | fault e => exact .fault e
  | file ha hb => exact .twins (h.erase ha hb)
  | dir => exact .fault _
  | vacant => exact .fault _

theorem changeMode {f : Nat → Nat} (hp : o.Misses X p) :
    Alike o X (a.changeMode p f) (b.changeMode p f) := by
  have hm := h.locate hp true
  unfold Disk.changeMode Disk.find
  generalize a.locate true p = r at hm
  generalize b.locate true p = s at hm
  cases hm with
  | fault e => exact .fault e
  | file ha hb => exact .twins (h.update ha hb (linkFree_file _ _ _))
  | dir => exact .twins h
  | vacant => exact .fault _

theorem copy (hs : o.Misses X source) (ht : o.Misses X target) :
    Alike o X (a.copy source target) (b.copy source target) := by
  have hm := h.locate hs true
  have hm' := h.locate ht true
  unfold Disk.copy Disk.find
  generalize a.locate true source = r at hm
  generalize b.locate true source = s at hm
  generalize a.locate true target = r' at hm'
  generalize b.locate true target = s' at hm'
  cases hm with
  | fault e => exact .fault e
  | dir => exact .fault _
  | vacant => exact .fault _
  | file =>
    dsimp only
    split
    · exact .fault _
    · cases hm' with
      | fault e => exact .fault e
      | file ha hb =>
        dsimp only
        split
        · rw [h.now_eq]
          exact .twins (h.update ha hb (linkFree_file _ _ _))
        · exact .fault _
      | dir => exact .fault _
      | vacant ha hb =>
        dsimp only
        split
        · exact .fault _
        · rw [h.now_eq]
          exact .twins (h.put ha hb (linkFree_file _ _ _))

/-- A file is renamed in the same way. -/
theorem rename (hs : o.Misses X source) (ht : o.Misses X target) (hfile : b.isFile source = true) :
    Alike o X (a.rename source target) (b.rename source target) := by
  have hm := h.locate hs false
  have hm' := h.locate ht false
  unfold Disk.isFile Disk.find at hfile
  rw [← locate_follow h.free false] at hfile
  unfold Disk.rename
  generalize a.locate false source = r at hm
  generalize b.locate false source = s at hm hfile
  generalize a.locate false target = r' at hm'
  generalize b.locate false target = s' at hm'
  cases hm with
  | fault e => cases hfile
  | dir => cases hfile
  | vacant => cases hfile
  | @file old c mode t ha hb =>
    have herase := h.erase ha hb
    cases hm' with
    | fault e => exact .fault e
    | @file new c' mode' t' ha' hb' =>
      dsimp only
      split
      · exact .twins h
      · next hne =>
        -- a file holds no other, so the one at the target is still there
        have hstill : ∀ d : Disk, d.top.at? old = some (.file c mode t) →
            d.top.at? new = some (.file c' mode' t') →
            (d.erase old).top.at? new = some (.file c' mode' t') := by
          intro d hold hnew
          rw [← Node.shape?_eq_file] at hnew ⊢
          rw [Disk.erase, Node.erase, Node.shape?_alter, hnew]
          rintro ⟨rest, rfl⟩
          rw [Node.shape?_eq_file, Node.at?_append, hold, Option.bind_some] at hnew
          cases rest with
          | nil => exact hne (List.append_nil _).symm
          | cons => cases hnew
        exact .twins (herase.put_over (hstill a ha ha') (hstill b hb hb') (linkFree_file _ _ _))
    | dir =>
      dsimp only
      split
      · exact .twins h
      · exact .fault _
    | @vacant above name ha' hb' =>
      dsimp only
      split
      · exact .fault _
      · have hstill : ∀ d : Disk, d.top.at? old = some (.file c mode t) →
            d.top.shape? above = some .dir → (d.erase old).top.shape? above = some .dir := by
          intro d hold hdir
          rw [Disk.erase, Node.erase, Node.shape?_alter, hdir]
          rintro ⟨rest, rfl⟩
          rw [Node.shape?, Node.at?_append, hold, Option.bind_some] at hdir
          cases rest <;> cases hdir
        exact .twins (herase.put (hstill a ha ha') (hstill b hb hb') (linkFree_file _ _ _))

end Twin

theorem Twin.touch {f : Node → Node} {t t' : Stamp} {es es' : Entries} (h : Twin o X a b)
    (ha : a.top.at? place = some (.dir t es)) (hb : b.top.at? place = some (.dir t' es'))
    (hf : ∀ t es, ∃ t', f (.dir t es) = .dir t' es) : Twin o X (a.update place f) (b.update place f) where
  left := h.left
  right := h.right
  clock := h.clock
  shape q hq := by
    rw [shape?_touch ha (hf _ _), shape?_touch hb (hf _ _)]
    exact h.shape q hq
  free q target := by
    rw [Ne, ← shape?_eq_link, shape?_touch hb (hf _ _), shape?_eq_link]
    exact h.free q target

/-- A replacement has the same outcome on twins, and leaves them twins whatever it is. -/
theorem Twin.replace (h : Twin o X a b) (hp : o.Misses X target) (hne : target.steps ≠ [])
    (bytes : ByteArray) :
    (a.replace target bytes).1 = (b.replace target bytes).1 ∧
      Twin o X (a.replace target bytes).2 (b.replace target bytes).2 := by
  unfold Disk.replace Disk.find
  dsimp only
  generalize hdir : target.parent?.getD (Path.ofText ".") = dir
  have hbeside : o.Misses X (if dir.isEmpty then Path.ofText "." else dir) := by
    intro ys hys
    rw [trail_beside hne hdir.symm] at hys
    exact hp ys (hys.trans (List.dropLast_prefix _))
  have hm := h.locate hbeside true
  generalize a.locate true (if dir.isEmpty then Path.ofText "." else dir) = r at hm
  generalize b.locate true (if dir.isEmpty then Path.ofText "." else dir) = s at hm
  cases hm with
  | fault e => exact ⟨rfl, h⟩
  | file => exact ⟨rfl, h⟩
  | vacant => exact ⟨rfl, h⟩
  | dir ha hb =>
    dsimp only
    rw [h.now_eq]
    generalize ha' : a.update _ _ = a'
    generalize hb' : b.update _ _ = b'
    have ht : Twin o X a' b' := by
      rw [← ha', ← hb']
      exact h.touch ha hb fun _ _ => ⟨b.now, rfl⟩
    have hm := ht.locate hp false
    generalize a'.locate false target = r at hm
    generalize b'.locate false target = s at hm
    cases hm with
    | fault e => exact ⟨rfl, ht⟩
    | file ha hb => exact ⟨rfl, ht.put_over ha hb (linkFree_file _ _ _)⟩
    | dir => exact ⟨rfl, ht⟩
    | vacant ha hb =>
      dsimp only
      split
      · exact ⟨rfl, ht⟩
      · exact ⟨rfl, ht.put ha hb (linkFree_file _ _ _)⟩

end Outfitter.Disk
