import Outfitter.Disk.Basic
import Outfitter.Proofs.Tree

/-! # Where paths lead

On a tree without links a path leads to the place that its names spell, or nowhere. Whether
the system takes a path at all is decided by the path alone.
-/

namespace Outfitter.Disk

/-- The names that a path walks through from the top. -/
def trail (d : Disk) (p : Path) : List String := d.base p ++ p.steps

/-- Where names lead from a place by their spelling; places are given from the end upwards. -/
def climb : List String → List String → List String
  | here, [] => here
  | here, name :: rest => climb (if name = ".." then here.tail else name :: here) rest

/-- The place that a path spells. -/
def place (d : Disk) (p : Path) : List String := (climb [] (d.trail p)).reverse

/-- A path passes a place on its way. -/
def Passes (d : Disk) (p : Path) (q : List String) : Prop :=
  ∃ names, names <+: d.trail p ∧ (climb [] names).reverse = q

/-- Follows names where no link is met. -/
def walk (top : Node) : List String → Node → List String → Except Fault Spot :=
  descend top true fun _ _ _ => .error .linkLoop

/-- The system takes a path: it is not empty, has no zero byte and is not too long. -/
def takes (p : Path) : Bool :=
  !p.isEmpty && !p.segments.any (·.toList.contains '\x00') && p.byteSize ≤ pathLimit

/-- The system takes a name: it is not too long. -/
def takesName (name : String) : Bool := name == ".." || name.utf8ByteSize ≤ nameLimit

variable {top n m : Node} {here place names xs ys : List String} {name : String} {t : Stamp}
  {es : Entries} {follow : Bool} {spot : Spot}

@[simp] theorem climb_nil (here : List String) : climb here [] = here := rfl

theorem climb_append (here xs ys : List String) :
    climb here (xs ++ ys) = climb (climb here xs) ys := by
  induction xs generalizing here with
  | nil => rfl
  | cons a xs ih => exact ih _

theorem climb_of_isName (h : ∀ s ∈ xs, isName s = true) :
    climb here xs = xs.reverse ++ here := by
  induction xs generalizing here with
  | nil => rfl
  | cons a xs ih =>
    have ha := (isName_iff.mp (h a (by simp))).2.2.1
    rw [climb, if_neg ha, ih fun s hs => h s (List.mem_cons_of_mem _ hs)]
    simp

/-! ## Walks -/

theorem walk_nil (top : Node) (here : List String) (n : Node) :
    walk top here n [] = .ok (.there here.reverse n) := by
  rw [walk, descend]

theorem walk_up (top : Node) (here : List String) (t : Stamp) (es : Entries)
    (rest : List String) :
    walk top here (.dir t es) (".." :: rest) =
      match top.at? here.tail.reverse with
      | some n => walk top here.tail n rest
      | none => .error .notFound := by
  cases h : top.at? here.tail.reverse <;> simp only [walk, descend, if_true, h]

theorem walk_cons (hl : top.LinkFree) (hn : top.at? here.reverse = some (.dir t es))
    (hname : name ≠ "..") (rest : List String) :
    walk top here (.dir t es) (name :: rest) =
      if nameLimit < name.utf8ByteSize then .error .tooLong
      else match es.lookup name with
      | none => if rest.isEmpty then .ok (.vacant here.reverse name) else .error .notFound
      | some n => walk top (name :: here) n rest := by
  rw [walk, descend, if_neg hname]
  split
  · rfl
  cases he : es.lookup name with
  | none => rfl
  | some n =>
    cases n with
    | file => rfl
    | dir => rfl
    | link target =>
      have hc : top.at? (here.reverse ++ [name]) = some (.link target) :=
        (Node.at?_concat top _ _).mpr ⟨t, es, hn, he⟩
      exact absurd hc (hl _ _)

theorem walk_file (top : Node) (here : List String) (c : ByteArray) (mode : Nat) (t : Stamp)
    (name : String) (rest : List String) :
    walk top here (.file c mode t) (name :: rest) = .error .notADirectory := by
  rw [walk, descend]
  simp

/-- Following links or not makes no difference where there are none. -/
theorem descend_eq_walk {jump : List String → Node → List String → Except Fault Spot}
    (hl : top.LinkFree) (hn : top.at? here.reverse = some n) :
    descend top follow jump here n names = walk top here n names := by
  induction names generalizing here n with
  | nil => rw [walk_nil, descend]
  | cons name rest ih =>
    cases n with
    | link target => exact absurd hn (hl _ _)
    | file => rw [walk_file, descend]; simp
    | dir t es =>
      by_cases hu : name = ".."
      · subst hu
        rw [walk_up, descend, if_pos rfl]
        cases hp : top.at? here.tail.reverse with
        | none => rfl
        | some m => exact ih hp
      · rw [walk_cons hl hn hu, descend, if_neg hu]
        split
        · rfl
        cases he : es.lookup name with
        | none => rfl
        | some m =>
          have hc : top.at? (name :: here).reverse = some m := by
            rw [List.reverse_cons]
            exact (Node.at?_concat top _ _).mpr ⟨t, es, hn, he⟩
          cases m with
          | link target => exact absurd hc (hl _ _)
          | file => exact ih hc
          | dir => exact ih hc

/-- What a walk comes to, by its first name. -/
theorem walk_cons_ok (hl : top.LinkFree) (hn : top.at? here.reverse = some n)
    (h : walk top here n (name :: names) = .ok spot) :
    takesName name = true ∧ ∃ t es, n = .dir t es ∧
      ((∃ m, top.at? (climb here [name]).reverse = some m ∧
          walk top (climb here [name]) m names = .ok spot) ∨
        (name ≠ ".." ∧ names = [] ∧ es.lookup name = none ∧ spot = .vacant here.reverse name)) := by
  cases n with
  | link target => exact absurd hn (hl _ _)
  | file => rw [walk_file] at h; cases h
  | dir t es =>
    by_cases hu : name = ".."
    · subst hu
      refine ⟨rfl, t, es, rfl, Or.inl ?_⟩
      rw [walk_up] at h
      cases hp : top.at? here.tail.reverse with
      | none => rw [hp] at h; cases h
      | some m => rw [hp] at h; exact ⟨m, hp, h⟩
    · rw [walk_cons hl hn hu] at h
      split at h
      · cases h
      · next hsize =>
        refine ⟨by simp [takesName]; omega, t, es, rfl, ?_⟩
        have hc : climb here [name] = name :: here := by rw [climb, if_neg hu]; rfl
        rw [hc]
        cases he : es.lookup name with
        | none =>
          rw [he] at h
          cases names with
          | cons => cases h
          | nil => cases h; exact Or.inr ⟨hu, rfl, rfl, rfl⟩
        | some m =>
          rw [he] at h
          refine Or.inl ⟨m, ?_, h⟩
          rw [List.reverse_cons]
          exact (Node.at?_concat top _ _).mpr ⟨t, es, hn, he⟩

theorem walk_step (hl : top.LinkFree) (hn : top.at? here.reverse = some (.dir t es))
    (hs : takesName name = true) (hk : top.at? (climb here [name]).reverse = some m)
    (rest : List String) :
    walk top here (.dir t es) (name :: rest) = walk top (climb here [name]) m rest := by
  by_cases hu : name = ".."
  · subst hu
    have hk' : top.at? here.tail.reverse = some m := hk
    rw [walk_up, hk']
    rfl
  · have hc : climb here [name] = name :: here := by rw [climb, if_neg hu]; rfl
    rw [hc, List.reverse_cons, Node.at?_concat] at hk
    obtain ⟨t', es', hd, he⟩ := hk
    rw [hn] at hd
    cases hd
    rw [hc, walk_cons hl hn hu, if_neg (by simpa [takesName, hu] using hs), he]

theorem walk_there (hl : top.LinkFree) (hn : top.at? here.reverse = some n)
    (h : walk top here n names = .ok (.there place m)) :
    place = (climb here names).reverse ∧ top.at? place = some m := by
  induction names generalizing here n with
  | nil =>
    rw [walk_nil] at h
    cases h
    exact ⟨rfl, hn⟩
  | cons name rest ih =>
    obtain ⟨-, t, es, rfl, ⟨k, hk, hw⟩ | ⟨-, -, -, hs⟩⟩ := walk_cons_ok hl hn h
    · exact ih hk hw
    · cases hs

theorem walk_vacant (hl : top.LinkFree) (hn : top.at? here.reverse = some n)
    (h : walk top here n names = .ok (.vacant place name)) :
    place ++ [name] = (climb here names).reverse ∧
      (∃ t es, top.at? place = some (.dir t es) ∧ es.lookup name = none) ∧
      names.getLast? = some name ∧ name ≠ ".." := by
  induction names generalizing here n with
  | nil => rw [walk_nil] at h; cases h
  | cons a rest ih =>
    obtain ⟨-, t, es, rfl, ⟨k, hk, hw⟩ | ⟨hu, rfl, he, hs⟩⟩ := walk_cons_ok hl hn h
    · obtain ⟨h₁, h₂, h₃, h₄⟩ := ih hk hw
      refine ⟨h₁, h₂, ?_, h₄⟩
      rw [List.getLast?_cons, h₃]
      rfl
    · cases hs
      refine ⟨?_, ⟨t, es, hn, he⟩, rfl, hu⟩
      rw [climb, if_neg hu, climb_nil, List.reverse_cons]

theorem walk_takesName (hl : top.LinkFree) (hn : top.at? here.reverse = some n)
    (h : walk top here n names = .ok spot) : ∀ s ∈ names, takesName s = true := by
  induction names generalizing here n with
  | nil => simp
  | cons a rest ih =>
    obtain ⟨ha, t, es, rfl, ⟨k, hk, hw⟩ | ⟨-, rfl, -, -⟩⟩ := walk_cons_ok hl hn h
    · exact List.forall_mem_cons.mpr ⟨ha, ih hk hw⟩
    · simpa using ha

/-- A walk through more names goes on from where the first ones lead. -/
theorem walk_append (hl : top.LinkFree) (hn : top.at? here.reverse = some n)
    (h : walk top here n xs = .ok (.there place m)) (ys : List String) :
    walk top here n (xs ++ ys) = walk top place.reverse m ys := by
  induction xs generalizing here n with
  | nil =>
    rw [walk_nil] at h
    cases h
    rw [List.reverse_reverse, List.nil_append]
  | cons a xs ih =>
    obtain ⟨hs, t, es, rfl, ⟨k, hk, hw⟩ | ⟨-, -, -, hs⟩⟩ := walk_cons_ok hl hn h
    · rw [← ih hk hw, List.cons_append, walk_step hl hn hs hk]
    · cases hs

theorem walk_of_append (hl : top.LinkFree) (hn : top.at? here.reverse = some n) (hy : ys ≠ [])
    (h : walk top here n (xs ++ ys) = .ok spot) :
    ∃ place t es, walk top here n xs = .ok (.there place (.dir t es)) := by
  induction xs generalizing here n with
  | nil =>
    obtain ⟨b, ys, rfl⟩ := List.exists_cons_of_ne_nil hy
    obtain ⟨-, t, es, rfl, -⟩ := walk_cons_ok hl hn h
    exact ⟨_, t, es, walk_nil ..⟩
  | cons a xs ih =>
    rw [List.cons_append] at h
    obtain ⟨hs, t, es, rfl, ⟨k, hk, hw⟩ | ⟨-, he, -, -⟩⟩ := walk_cons_ok hl hn h
    · obtain ⟨p, t', es', hp⟩ := ih hk hw
      exact ⟨p, t', es', (walk_step hl hn hs hk xs).trans hp⟩
    · simp [hy] at he

/-- A walk down through names that are there. -/
theorem walk_down (hl : top.LinkFree) (hn : top.at? here.reverse = some n)
    (hx : ∀ s ∈ xs, isName s = true ∧ takesName s = true) (hm : n.at? xs = some m) :
    walk top here n xs = .ok (.there (here.reverse ++ xs) m) := by
  induction xs generalizing here n with
  | nil =>
    rw [Node.at?_nil, Option.some.injEq] at hm
    rw [walk_nil, List.append_nil, hm]
  | cons a xs ih =>
    cases n with
    | file => cases hm
    | link => cases hm
    | dir t es =>
      obtain ⟨⟨ha, hs⟩, hx⟩ := List.forall_mem_cons.mp hx
      obtain ⟨k, he, hk⟩ := Option.bind_eq_some_iff.mp hm
      have hc : climb here [a] = a :: here := climb_of_isName (by simpa using ha)
      have hk' : top.at? (a :: here).reverse = some k := by
        rw [List.reverse_cons]
        exact (Node.at?_concat top _ _).mpr ⟨t, es, hn, he⟩
      rw [walk_step hl hn hs (hc ▸ hk'), hc, ih hk' hx hk, List.reverse_cons, List.append_assoc,
        List.singleton_append]

theorem walk_down_vacant (hl : top.LinkFree) (hn : top.at? here.reverse = some n)
    (hx : ∀ s ∈ xs ++ [name], isName s = true ∧ takesName s = true)
    (hm : n.at? xs = some (.dir t es)) (he : es.lookup name = none) :
    walk top here n (xs ++ [name]) = .ok (.vacant (here.reverse ++ xs) name) := by
  have hw := walk_down hl hn (fun s hs => hx s (List.mem_append_left _ hs)) hm
  have ha := walk_there hl hn hw
  obtain ⟨hu, hs⟩ := hx name (by simp)
  have hu' := (isName_iff.mp hu).2.2.1
  rw [walk_append hl hn hw, walk_cons hl (by rw [List.reverse_reverse]; exact ha.2) hu',
    if_neg (by simpa [takesName, hu'] using hs), he, List.reverse_reverse]
  rfl

/-! ## Paths -/

variable {d : Disk} {p : Path}

theorem trail_congr {q : Path} (ha : p.isAbsolute = q.isAbsolute) (hn : p.names = q.names) :
    d.trail p = d.trail q := by
  rw [trail, trail, base, base, Path.rise, Path.rise, Path.steps, Path.steps, ha, hn]

theorem base_of_cwd {d' : Disk} (h : d'.cwd = d.cwd) (p : Path) : d'.base p = d.base p := by
  rw [base, base, h]

theorem trail_of_cwd {d' : Disk} (h : d'.cwd = d.cwd) (p : Path) : d'.trail p = d.trail p := by
  rw [trail, trail, base_of_cwd h]

theorem place_of_cwd {d' : Disk} (h : d'.cwd = d.cwd) (p : Path) : d'.place p = d.place p := by
  rw [place, place, trail_of_cwd h]

theorem base_parent {q : Path} (hne : p.steps ≠ []) (hq : p.parent? = some q) : d.base q = d.base p := by
  rw [base, base, (Path.steps_parent? hne hq).1, Path.isAbsolute_parent? hq]

/-- The parent of a path that takes a step stops before the last one. -/
theorem trail_parent {q : Path} (hne : p.steps ≠ []) (hq : p.parent? = some q) :
    d.trail q = (d.trail p).dropLast := by
  rw [trail, trail, base_parent hne hq, (Path.steps_parent? hne hq).2, List.dropLast_append_of_ne_nil hne]

theorem settle_ok {r : Except Fault Spot} (h : settle p r = .ok spot) :
    r = .ok spot ∧ (p.steps = [] → ∃ place t es, spot = .there place (.dir t es)) := by
  unfold settle at h
  split at h
  · split at h
    · cases h
    · next place n hdir =>
      cases h
      refine ⟨rfl, fun hs => ?_⟩
      rw [hs] at hdir
      cases n with
      | dir t es => exact ⟨place, t, es, rfl⟩
      | file => simp [Node.isDir] at hdir
      | link => simp [Node.isDir] at hdir
  · split at h
    · cases h
    · next hs =>
      cases h
      exact ⟨rfl, fun he => absurd (by simp [he]) hs⟩
  · cases h

theorem settle_dir (place : List String) (t : Stamp) (es : Entries) :
    settle p (.ok (.there place (.dir t es))) = .ok (.there place (.dir t es)) := by
  simp [settle, Node.isDir]

theorem settle_of_steps (hs : p.steps ≠ []) (hi : p.endsIdle = false) (r : Except Fault Spot) :
    settle p r = r := by
  have hne : p.steps.isEmpty = false := by simpa using hs
  unfold settle
  rw [hi, hne, Path.endsDotted_of_endsIdle hi]
  split <;> rfl

theorem locate_eq_settle (ht : takes p = true) (d : Disk) (follow : Bool) :
    d.locate follow p = settle p (trace d.top (follow || p.endsIdle) linkLimit [] d.top (d.trail p)) := by
  simp only [takes, Bool.and_eq_true, Bool.not_eq_true', decide_eq_true_eq] at ht
  obtain ⟨⟨he, hz⟩, hs⟩ := ht
  unfold locate
  rw [if_neg (by simp [he]), if_neg (by simp only [hz]; exact Bool.false_ne_true),
    if_neg (by omega)]
  rfl

theorem locate_of_takes (hl : d.top.LinkFree) (ht : takes p = true) (follow : Bool) :
    d.locate follow p = settle p (walk d.top [] d.top (d.trail p)) := by
  rw [locate_eq_settle ht]
  exact congrArg (settle p) (descend_eq_walk hl (Node.at?_nil _))

/-- A path that the system does not take leads nowhere on any disk. -/
theorem locate_of_not_takes (ht : takes p = false) :
    ∃ e, ∀ (d : Disk) (follow : Bool), d.locate follow p = .error e := by
  unfold locate
  by_cases he : p.isEmpty = true
  · exact ⟨_, fun d follow => if_pos he⟩
  by_cases hz : p.segments.any (·.toList.contains '\x00') = true
  · exact ⟨_, fun d follow => by rw [if_neg he, if_pos hz]⟩
  by_cases hs : pathLimit < p.byteSize
  · exact ⟨_, fun d follow => by rw [if_neg he, if_neg hz, if_pos hs]⟩
  · rw [Bool.not_eq_true] at he hz
    rw [takes, he, hz] at ht
    simp at ht
    omega

theorem locate_ok (hl : d.top.LinkFree) (h : d.locate follow p = .ok spot) :
    takes p = true ∧ walk d.top [] d.top (d.trail p) = .ok spot := by
  cases ht : takes p with
  | false =>
    obtain ⟨e, he⟩ := locate_of_not_takes ht
    rw [he] at h
    cases h
  | true =>
    rw [locate_of_takes hl ht] at h
    refine ⟨rfl, ?_⟩
    exact (settle_ok h).1

/-- A path that leads to something leads to the place that it spells. -/
theorem locate_there (hl : d.top.LinkFree) (h : d.locate follow p = .ok (.there place n)) :
    place = d.place p ∧ d.top.at? place = some n :=
  walk_there hl (Node.at?_nil _) (locate_ok hl h).2

theorem locate_vacant (hl : d.top.LinkFree) (h : d.locate follow p = .ok (.vacant place name)) :
    place ++ [name] = d.place p ∧
      (∃ t es, d.top.at? place = some (.dir t es) ∧ es.lookup name = none) ∧
      (d.trail p).getLast? = some name ∧ name ≠ ".." :=
  walk_vacant hl (Node.at?_nil _) (locate_ok hl h).2

theorem locate_follow (hl : d.top.LinkFree) (follow : Bool) :
    d.locate follow p = d.locate true p := by
  cases ht : takes p with
  | false =>
    obtain ⟨e, he⟩ := locate_of_not_takes ht
    rw [he, he]
  | true => rw [locate_of_takes hl ht, locate_of_takes hl ht]

theorem find_ok_iff : d.find p = .ok (place, n) ↔ d.locate true p = .ok (.there place n) := by
  unfold find
  cases d.locate true p with
  | error e => simp
  | ok spot => cases spot <;> simp

theorem find_ok (hl : d.top.LinkFree) (h : d.find p = .ok (place, n)) :
    place = d.place p ∧ d.top.at? place = some n :=
  locate_there hl (find_ok_iff.mp h)

/-- The system takes a path and each of its names. -/
def Admits (d : Disk) (p : Path) : Prop := takes p = true ∧ ∀ s ∈ d.trail p, takesName s = true

theorem locate_admits (hl : d.top.LinkFree) (h : d.locate follow p = .ok spot) : d.Admits p := by
  obtain ⟨ht, hw⟩ := locate_ok hl h
  exact ⟨ht, walk_takesName hl (Node.at?_nil _) hw⟩

theorem locate_of_not_admits (hl : d.top.LinkFree) (ha : ¬ d.Admits p) (follow : Bool) :
    ∃ e, d.locate follow p = .error e := by
  cases hloc : d.locate follow p with
  | error e => exact ⟨e, rfl⟩
  | ok spot => exact absurd (locate_admits hl hloc) ha

/-- A path that takes no step leads to a directory, if to anything. -/
theorem locate_of_no_steps (hs : p.steps = []) (h : d.locate follow p = .ok spot) :
    ∃ place t es, spot = .there place (.dir t es) := by
  cases ht : takes p with
  | false =>
    obtain ⟨e, he⟩ := locate_of_not_takes ht
    rw [he] at h
    cases h
  | true =>
    rw [locate_eq_settle ht] at h
    exact (settle_ok h).2 hs

theorem steps_of_vacant (h : d.locate follow p = .ok (.vacant place name)) : p.steps ≠ [] := fun hs => by
  obtain ⟨_, _, _, he⟩ := locate_of_no_steps hs h
  cases he

theorem steps_of_file {c : ByteArray} {mode : Nat} (h : d.locate follow p = .ok (.there place (.file c mode t))) :
    p.steps ≠ [] := fun hs => by
  obtain ⟨_, _, _, he⟩ := locate_of_no_steps hs h
  cases he

/-- A file is no top: a path that stands for a file walks through a name. -/
theorem locate_file_ne_nil {c : ByteArray} {mode : Nat} (hl : d.top.LinkFree)
    (h : d.locate follow p = .ok (.there place (.file c mode t))) : place ≠ [] := by
  rintro rfl
  have hw := (locate_ok hl h).2
  have htop := (locate_there hl h).2
  rw [Node.at?_nil, Option.some.injEq] at htop
  cases htrail : d.trail p with
  | nil => exact steps_of_file h (List.append_eq_nil_iff.mp htrail).2
  | cons a rest => rw [htop, htrail, walk_file] at hw; cases hw

/-- The name of a vacant place is a proper one. -/
theorem isName_of_vacant (hl : d.top.LinkFree) (hn : p.Named)
    (h : d.locate follow p = .ok (.vacant place name)) : isName name = true := by
  obtain ⟨-, -, hlast, hu⟩ := locate_vacant hl h
  rw [trail, List.getLast?_append_of_ne_nil _ (steps_of_vacant h)] at hlast
  exact (hn name (Path.mem_names_of_steps (List.mem_of_getLast? hlast))).resolve_left hu

/-! ## Directories that paths lead to -/

/-- The names of a path lead to a directory. -/
def Leads (d : Disk) (p : Path) : Prop :=
  ∃ t es, walk d.top [] d.top (d.trail p) = .ok (.there (d.place p) (.dir t es))

theorem walk_of_dirs (hl : top.LinkFree) (ht : ∀ s ∈ names, takesName s = true)
    (hd : ∀ ys, ys <+: names → top.shape? (climb here ys).reverse = some .dir)
    (hn : top.at? here.reverse = some n) :
    ∃ t es, walk top here n names = .ok (.there (climb here names).reverse (.dir t es)) := by
  induction names generalizing here n with
  | nil =>
    obtain ⟨t, es, hat⟩ := Node.shape?_eq_dir.mp (hd [] List.nil_prefix)
    rw [climb_nil, hn, Option.some.injEq] at hat
    exact ⟨t, es, by rw [walk_nil, hat, climb_nil]⟩
  | cons a rest ih =>
    obtain ⟨t, es, hat⟩ := Node.shape?_eq_dir.mp (hd [] List.nil_prefix)
    rw [climb_nil, hn, Option.some.injEq] at hat
    subst hat
    obtain ⟨t', es', hat'⟩ := Node.shape?_eq_dir.mp (hd [a] (by simp))
    obtain ⟨ha, hrest⟩ := List.forall_mem_cons.mp ht
    rw [walk_step hl hn ha hat']
    refine ih hrest (fun ys hys => ?_) hat'
    exact hd (a :: ys) (List.cons_prefix_cons.mpr ⟨rfl, hys⟩)

/-- A path leads to a directory if the system takes its names and each step of it is at a
directory. -/
theorem leads_iff (hl : d.top.LinkFree) :
    d.Leads p ↔ (∀ s ∈ d.trail p, takesName s = true) ∧
      ∀ ys, ys <+: d.trail p → d.top.shape? (climb [] ys).reverse = some .dir := by
  constructor
  · rintro ⟨t, es, h⟩
    refine ⟨walk_takesName hl (Node.at?_nil _) h, ?_⟩
    rintro ys ⟨zs, hz⟩
    by_cases he : zs = []
    · rw [he, List.append_nil] at hz
      rw [hz, Node.shape?_eq_dir]
      exact ⟨t, es, (walk_there hl (Node.at?_nil _) h).2⟩
    · rw [← hz] at h
      obtain ⟨place, t', es', hw⟩ := walk_of_append hl (Node.at?_nil _) he h
      obtain ⟨rfl, hat⟩ := walk_there hl (Node.at?_nil _) hw
      exact Node.shape?_eq_dir.mpr ⟨t', es', hat⟩
  · rintro ⟨ht, hd⟩
    exact walk_of_dirs hl ht hd (Node.at?_nil _)

/-- All that a path passes before its end are directories. -/
theorem dirs_of_locate (hl : d.top.LinkFree) (h : d.locate follow p = .ok spot) :
    ∀ ys, ys <+: d.trail p → ys ≠ d.trail p → d.top.shape? (climb [] ys).reverse = some .dir := by
  rintro ys ⟨zs, hz⟩ hne
  have hw := (locate_ok hl h).2
  have hzs : zs ≠ [] := by
    rintro rfl
    exact hne (by rw [← hz, List.append_nil])
  rw [← hz] at hw
  obtain ⟨place, t, es, hy⟩ := walk_of_append hl (Node.at?_nil _) hzs hw
  obtain ⟨rfl, hat⟩ := walk_there hl (Node.at?_nil _) hy
  exact Node.shape?_eq_dir.mpr ⟨t, es, hat⟩

/-- A path leads to what stands at its place, if all before that are directories. -/
theorem locate_of_dirs (hl : d.top.LinkFree) (ha : d.Admits p)
    (hd : ∀ ys, ys <+: d.trail p → ys ≠ d.trail p → d.top.shape? (climb [] ys).reverse = some .dir)
    (hat : d.top.at? (d.place p) = some n)
    (hi : (p.endsIdle || p.steps.isEmpty) = true → n.isDir = true) :
    d.locate follow p = .ok (.there (d.place p) n) := by
  obtain ⟨ht, hs⟩ := ha
  have hw : walk d.top [] d.top (d.trail p) = .ok (.there (d.place p) n) := by
    rw [place] at hat ⊢
    rcases List.eq_nil_or_concat (d.trail p) with he | ⟨xs, a, he⟩
    · rw [he] at hat ⊢
      rw [climb_nil, List.reverse_nil, Node.at?_nil, Option.some.injEq] at hat
      rw [walk_nil, climb_nil, hat]
    · rw [List.concat_eq_append] at he
      rw [he] at hd hs hat ⊢
      have hxs : ∀ ys, ys <+: xs → d.top.shape? (climb [] ys).reverse = some .dir := by
        intro ys hys
        refine hd ys (hys.trans (List.prefix_append _ _)) fun hc => ?_
        have hlen := hys.length_le
        rw [hc, List.length_append, List.length_singleton] at hlen
        omega
      obtain ⟨t, es, hx⟩ :=
        walk_of_dirs hl (fun s h => hs s (List.mem_append_left _ h)) hxs (Node.at?_nil _)
      have hx' := walk_there hl (Node.at?_nil _) hx
      rw [climb_append] at hat
      rw [walk_append hl (Node.at?_nil _) hx, List.reverse_reverse,
        walk_step hl (by simpa using hx'.2) (hs a (by simp)) hat, walk_nil, climb_append]
  rw [locate_of_takes hl ht, hw, settle]
  cases hidle : p.endsIdle || p.steps.isEmpty with
  | false => rfl
  | true => rw [hi hidle]; rfl

theorem leads_of_find (hl : d.top.LinkFree) (h : d.find p = .ok (place, .dir t es)) :
    d.Leads p := by
  have hw := (locate_ok hl (find_ok_iff.mp h)).2
  obtain ⟨rfl, -⟩ := find_ok hl h
  exact ⟨t, es, hw⟩

theorem leads_of_isDir (hl : d.top.LinkFree) (h : d.isDir p = true) : d.Leads p := by
  unfold isDir at h
  split at h
  · next place n hf =>
    cases n with
    | dir t es => exact leads_of_find hl hf
    | file => cases h
    | link => cases h
  · cases h

theorem Leads.of_prefix {q : Path} (hl : d.top.LinkFree) (h : d.Leads p)
    (hq : d.trail q <+: d.trail p) : d.Leads q := by
  obtain ⟨ht, hd⟩ := (leads_iff hl).mp h
  exact (leads_iff hl).mpr ⟨fun s hs => ht s (hq.subset hs), fun ys hys => hd ys (hys.trans hq)⟩

theorem Leads.dir (hl : d.top.LinkFree) (h : d.Leads p) :
    d.top.shape? (d.place p) = some .dir :=
  ((leads_iff hl).mp h).2 _ (List.prefix_refl _)

/-- What a path that leads to a directory passes are directories. -/
theorem dir_of_passes {q : List String} (hp : d.top.isPlain = true) (h : d.Leads p) (hq : d.Passes p q) :
    d.top.shape? q = some .dir := by
  obtain ⟨ys, hys, rfl⟩ := hq
  exact ((leads_iff (Node.linkFree_of_isPlain hp)).mp h).2 ys hys

theorem walk_named (hp : top.isPlain = true) (hn : top.at? here.reverse = some n)
    (h : walk top here n names = .ok (.there place m)) : ∀ s ∈ names, s = ".." ∨ isName s = true := by
  have hl := Node.linkFree_of_isPlain hp
  induction names generalizing here n with
  | nil => simp
  | cons a rest ih =>
    obtain ⟨-, t, es, rfl, ⟨k, hk, hw⟩ | ⟨-, -, -, hs⟩⟩ := walk_cons_ok hl hn h
    · refine List.forall_mem_cons.mpr ⟨?_, ih hk hw⟩
      by_cases hu : a = ".."
      · exact Or.inl hu
      · refine Or.inr ((Node.isPlain_of_at? hp hk).1 a ?_)
        rw [climb, if_neg hu]
        simp
    · cases hs

theorem Leads.named (hp : d.top.isPlain = true) (h : d.Leads p) : p.Named := by
  obtain ⟨t, es, hw⟩ := h
  intro s hs
  exact (Path.mem_steps_or_up hs).elim Or.inl fun hs =>
    walk_named hp (Node.at?_nil _) hw s (List.mem_append_right _ hs)

/-! ## Paths below a path -/

variable {root : Path} {rel : List String}

theorem base_join (hn : ∀ s ∈ rel, isName s = true) (hr : rel ≠ []) :
    d.base (root.join ⟨rel⟩) = d.base root := by
  rw [base, base, (Path.steps_join hn hr).1, Path.isAbsolute_join (Path.isAbsolute_of_isName hn) hr]

theorem trail_join (hn : ∀ s ∈ rel, isName s = true) (hr : rel ≠ []) :
    d.trail (root.join ⟨rel⟩) = d.trail root ++ rel := by
  rw [trail, trail, base_join hn hr, (Path.steps_join hn hr).2, List.append_assoc]

theorem steps_join_ne_nil (hn : ∀ s ∈ rel, isName s = true) (hr : rel ≠ []) :
    (root.join ⟨rel⟩).steps ≠ [] := by
  rw [(Path.steps_join hn hr).2]
  simp [hr]

/-- From the place of a path, names lead straight down. -/
theorem climb_below (hn : ∀ s ∈ rel, isName s = true) :
    (climb [] (d.trail root ++ rel)).reverse = d.place root ++ rel := by
  rw [climb_append, climb_of_isName hn, List.reverse_append, List.reverse_reverse, place]

theorem place_join (hn : ∀ s ∈ rel, isName s = true) (hr : rel ≠ []) :
    d.place (root.join ⟨rel⟩) = d.place root ++ rel := by
  rw [place, trail_join hn hr, climb_below hn]

theorem locate_join (hl : d.top.LinkFree) (h : d.Leads root) (hn : ∀ s ∈ rel, isName s = true)
    (hr : rel ≠ []) (ha : d.Admits (root.join ⟨rel⟩))
    (hat : d.top.at? (d.place root ++ rel) = some n) :
    d.locate follow (root.join ⟨rel⟩) = .ok (.there (d.place root ++ rel) n) := by
  obtain ⟨t, es, hw⟩ := h
  obtain ⟨ht, hs⟩ := ha
  rw [trail_join hn hr] at hs
  have hr' := (walk_there hl (Node.at?_nil _) hw).2
  have hm : (Node.dir t es).at? rel = some n := by
    rw [Node.at?_append, hr', Option.bind_some] at hat
    exact hat
  rw [locate_of_takes hl ht, trail_join hn hr, walk_append hl (Node.at?_nil _) hw,
    walk_down hl (by rw [List.reverse_reverse]; exact hr')
      (fun s hx => ⟨hn s hx, hs s (List.mem_append_right _ hx)⟩) hm, List.reverse_reverse]
  exact settle_of_steps (steps_join_ne_nil hn hr) (Path.endsIdle_join hr hn) _

theorem locate_join_vacant (hl : d.top.LinkFree) (h : d.Leads root)
    (hn : ∀ s ∈ rel ++ [name], isName s = true) (ha : d.Admits (root.join ⟨rel ++ [name]⟩))
    (hat : d.top.at? (d.place root ++ rel) = some (.dir t es)) (he : es.lookup name = none) :
    d.locate follow (root.join ⟨rel ++ [name]⟩) = .ok (.vacant (d.place root ++ rel) name) := by
  obtain ⟨t', es', hw⟩ := h
  obtain ⟨ht, hs⟩ := ha
  rw [trail_join hn (by simp)] at hs
  have hr' := (walk_there hl (Node.at?_nil _) hw).2
  have hm : (Node.dir t' es').at? rel = some (.dir t es) := by
    rw [Node.at?_append, hr', Option.bind_some] at hat
    exact hat
  rw [locate_of_takes hl ht, trail_join hn (by simp), walk_append hl (Node.at?_nil _) hw,
    walk_down_vacant hl (by rw [List.reverse_reverse]; exact hr')
      (fun s hx => ⟨hn s hx, hs s (List.mem_append_right _ hx)⟩) hm he, List.reverse_reverse]
  exact settle_of_steps (steps_join_ne_nil hn (by simp)) (Path.endsIdle_join (by simp) hn) _

/-- An entry of a directory below a path is there or vacant. -/
theorem locate_entry (hl : d.top.LinkFree) (h : d.Leads root)
    (hn : ∀ s ∈ rel ++ [name], isName s = true) (ha : d.Admits (root.join ⟨rel ++ [name]⟩))
    (hdir : d.top.shape? (d.place root ++ rel) = some .dir) :
    d.locate follow (root.join ⟨rel ++ [name]⟩) =
      match d.top.at? (d.place root ++ (rel ++ [name])) with
      | some n => .ok (.there (d.place root ++ (rel ++ [name])) n)
      | none => .ok (.vacant (d.place root ++ rel) name) := by
  split
  · next n hat => exact locate_join hl h hn (by simp) ha hat
  · next hat =>
    obtain ⟨t, es, hdir⟩ := Node.shape?_eq_dir.mp hdir
    rw [← List.append_assoc, Node.at?_append, hdir] at hat
    refine locate_join_vacant hl h hn ha hdir ?_
    cases he : es.lookup name with
    | none => rfl
    | some m => simp [he] at hat

theorem leads_congr {q : Path} (h : d.trail p = d.trail q) : d.Leads p ↔ d.Leads q := by
  rw [Leads, Leads, place, place, h]

theorem leads_join (hl : d.top.LinkFree) (h : d.Leads root) (hn : ∀ s ∈ rel, isName s = true)
    (hr : rel ≠ []) (ht : ∀ s ∈ rel, takesName s = true)
    (hdir : d.top.shape? (d.place root ++ rel) = some .dir) : d.Leads (root.join ⟨rel⟩) := by
  obtain ⟨t, es, hw⟩ := h
  obtain ⟨t', es', hat⟩ := Node.shape?_eq_dir.mp hdir
  obtain ⟨-, hroot⟩ := walk_there hl (Node.at?_nil _) hw
  refine ⟨t', es', ?_⟩
  rw [trail_join hn hr, walk_append hl (Node.at?_nil _) hw, place_join hn hr]
  rw [Node.at?_append, hroot, Option.bind_some] at hat
  have hdown := walk_down hl (by rw [List.reverse_reverse]; exact hroot)
    (fun s hs => ⟨hn s hs, ht s hs⟩) hat
  rw [List.reverse_reverse] at hdown
  exact hdown

/-- What leads below a path leads to it first. -/
theorem leads_of_locate_join (hl : d.top.LinkFree) (hn : ∀ s ∈ rel, isName s = true)
    (hr : rel ≠ []) (h : d.locate follow (root.join ⟨rel⟩) = .ok spot) : d.Leads root := by
  have hw := (locate_ok hl h).2
  rw [trail_join hn hr] at hw
  obtain ⟨place, t, es, hr⟩ := walk_of_append hl (Node.at?_nil _) hr hw
  obtain ⟨rfl, -⟩ := walk_there hl (Node.at?_nil _) hr
  exact ⟨t, es, hr⟩

theorem isFile_join_iff (hl : d.top.LinkFree) (hn : ∀ s ∈ rel, isName s = true) (hr : rel ≠ []) :
    d.isFile (root.join ⟨rel⟩) = true ↔ d.Admits (root.join ⟨rel⟩) ∧ d.Leads root ∧
      ∃ c mode t, d.top.at? (d.place root ++ rel) = some (.file c mode t) := by
  constructor
  · intro h
    unfold isFile at h
    split at h
    · next place n hf =>
      have hloc := find_ok_iff.mp hf
      obtain ⟨hpl, hat⟩ := find_ok hl hf
      rw [place_join hn hr] at hpl
      refine ⟨locate_admits hl hloc, leads_of_locate_join hl hn hr hloc, ?_⟩
      cases n with
      | file c mode t => exact ⟨c, mode, t, hpl ▸ hat⟩
      | link => cases h
      | dir => cases h
    · cases h
  · rintro ⟨ha, hlead, c, mode, t, hat⟩
    rw [isFile, find_ok_iff.mpr (locate_join hl hlead hn hr ha hat)]
    rfl

/-! ## Paths that the system takes -/

/-- Shorter names in place of others make no path that the system refuses. -/
theorem Admits.of_join {a b : List String} (hb : d.Admits (root.join ⟨b⟩)) (ha : a ≠ []) (hb' : b ≠ [])
    (hna : ∀ s ∈ a, isName s = true) (hnb : ∀ s ∈ b, isName s = true)
    (hsize : Path.bytes a + a.length ≤ Path.bytes b + b.length)
    (hs : ∀ s ∈ a, s ∈ b ∨ (s.toList.contains '\x00' = false ∧ takesName s = true)) :
    d.Admits (root.join ⟨a⟩) := by
  obtain ⟨ht, hn⟩ := hb
  rw [trail_join hnb hb'] at hn
  obtain ⟨base, hbase⟩ := Path.join_base root
  have hempty := Path.isEmpty_join (p := root) ha hna
  rw [hbase b hnb] at ht
  constructor
  · rw [hbase a hna] at hempty ⊢
    simp only [takes, Bool.and_eq_true, Bool.not_eq_true', decide_eq_true_eq, List.any_eq_false,
      Path.byteSize_mk, Path.bytes_append, List.length_append, List.mem_append] at ht ⊢
    obtain ⟨⟨-, hz⟩, hlen⟩ := ht
    refine ⟨⟨hempty, fun s hmem => ?_⟩, ?_⟩
    · rcases hmem with hmem | hmem
      · exact hz s (Or.inl hmem)
      · rcases hs s hmem with hmem | ⟨hnul, -⟩
        · exact hz s (Or.inr hmem)
        · rw [hnul]
          exact Bool.false_ne_true
    · have hpos := List.length_pos_iff.mpr ha
      have hpos' := List.length_pos_iff.mpr hb'
      omega
  · rw [trail_join hna ha]
    intro s hmem
    rcases List.mem_append.mp hmem with hmem | hmem
    · exact hn s (List.mem_append_left _ hmem)
    · exact (hs s hmem).elim (fun h => hn s (List.mem_append_right _ h)) fun h => h.2

/-- A path that is taken with a slash at its end is taken without it. -/
theorem Admits.of_slash {b : List String} (h : d.Admits ((root.join ⟨b⟩).join ⟨[""]⟩)) (hb : b ≠ [])
    (hn : ∀ s ∈ b, isName s = true) : d.Admits (root.join ⟨b⟩) := by
  have hempty := Path.isEmpty_join (p := root) hb hn
  have hseg : (root.join ⟨b⟩).join ⟨[""]⟩ = ⟨(root.join ⟨b⟩).segments ++ [""]⟩ := by
    obtain ⟨c, hc⟩ := Option.isSome_iff_exists.mp (List.getLast?_isSome.mpr hb)
    have hne := (isName_iff.mp (Path.getLast?_isName hn hc)).1
    rw [Path.join, if_neg (by decide), if_neg (by rw [hempty]; exact Bool.false_ne_true),
      Path.getLast?_join hb hn, hc, if_neg (by simpa using hne)]
  have htrail : d.trail ((root.join ⟨b⟩).join ⟨[""]⟩) = d.trail (root.join ⟨b⟩) := by
    refine trail_congr (Path.isAbsolute_join (by decide) (by simp)) ?_
    rw [Path.names_join (by decide)]
    simp [Path.names, Path.isIdle]
  obtain ⟨ht, hs⟩ := h
  rw [htrail] at hs
  refine ⟨?_, hs⟩
  rw [hseg] at ht
  generalize root.join ⟨b⟩ = p at ht hempty
  simp only [takes, Bool.and_eq_true, Bool.not_eq_true', decide_eq_true_eq, List.any_eq_false,
    Path.byteSize_mk, Path.bytes_append, List.length_append, List.mem_append] at ht ⊢
  obtain ⟨⟨-, hz⟩, hlen⟩ := ht
  refine ⟨⟨hempty, fun s hmem => hz s (Or.inl hmem)⟩, ?_⟩
  rw [Path.byteSize]
  omega

theorem locate_of_leads (hl : d.top.LinkFree) (ha : d.Admits p) (h : d.Leads p) :
    ∃ t es, d.locate follow p = .ok (.there (d.place p) (.dir t es)) := by
  obtain ⟨t, es, hw⟩ := h
  refine ⟨t, es, ?_⟩
  rw [locate_of_takes hl ha.1, hw, settle]
  simp [Node.isDir]

/-! ## Reading -/

variable {c : ByteArray} {mode : Nat} {text : String}

theorem list_ok (h : d.list p = .ok es) : ∃ place t, d.find p = .ok (place, .dir t es) := by
  unfold list at h
  split at h
  · next place t es' hf =>
    cases h
    exact ⟨place, t, hf⟩
  · cases h
  · cases h

theorem readBytes_of_find (h : d.find p = .ok (place, .file c mode t))
    (hr : isReadable mode = true) : d.readBytes p = .ok c := by
  unfold readBytes
  rw [h]
  exact if_pos hr

theorem readText_of_find (h : d.find p = .ok (place, .file c mode t)) (hr : isReadable mode = true)
    (hc : String.fromUTF8? c = some text) : d.readText p = .ok text := by
  unfold readText
  rw [readBytes_of_find h hr]
  dsimp only
  rw [hc]

theorem fromUTF8?_toUTF8 (s : String) : String.fromUTF8? s.toUTF8 = some s := by
  rw [String.fromUTF8?, String.toUTF8_eq_toByteArray, dif_pos s.isValidUTF8]
  rfl

theorem readText_ok (h : d.readText p = .ok text) :
    ∃ place c mode t, d.find p = .ok (place, .file c mode t) ∧ isReadable mode = true ∧
      String.fromUTF8? c = some text := by
  unfold readText readBytes at h
  split at h
  · next bytes hb =>
    split at hb
    · next place c mode t hf =>
      split at hb
      · next hr =>
        cases hb
        split at h
        · next s hs =>
          cases h
          exact ⟨place, _, mode, t, hf, hr, hs⟩
        · cases h
      · cases hb
    · cases hb
    · cases hb
  · cases h

end Outfitter.Disk
