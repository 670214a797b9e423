import Outfitter.Session
import Outfitter.Proofs.Update.Parallel
import Outfitter.Proofs.Update.Rollback

/-! # Initialization and update

The commands that initialize a project and that update it are separate sequences of the same
operations. Where the first ends well, so does the second, and both leave the same files.
-/

namespace Outfitter.Session

open Disk Action Files

variable {α β : Type} {x : Session α} {f : α → Session β} {s s' s'' : Scene} {v : α} {w : β}

/-! ## Runs -/

theorem bind_ok (h : x s = (.ok v, s')) : (x >>= f) s = f v s' := by
  show ExceptT.bindCont f (x s).1 (x s).2 = _
  rw [h]
  rfl

theorem of_bind_ok (h : (x >>= f) s = (.ok w, s'')) :
    ∃ v s', x s = (.ok v, s') ∧ f v s' = (.ok w, s'') := by
  rcases hx : x s with ⟨r, s'⟩
  change ExceptT.bindCont f (x s).1 (x s).2 = _ at h
  rw [hx] at h
  cases r with
  | error e => cases h
  | ok v => exact ⟨v, s', rfl, h⟩

theorem act_eq {y : StateM Disk α} {d' : Disk} (h : y s.disk = (v, d')) :
    act y s = (.ok v, { s with disk := d' }) := by
  show (Except.ok (y s.disk).1, Scene.mk (y s.disk).2 s.printed) = _
  rw [h]

theorem doing_ok {text : String} {y : Action α} {d' : Disk} (h : y.on s.disk = (.ok v, d')) :
    doing text y s = (.ok v, { s with disk := d' }) := by
  rw [doing, bind_ok (act_eq (y := y.outcome) h)]
  rfl

theorem of_doing_ok {text : String} {y : Action α} (h : doing text y s = (.ok v, s')) :
    y.on s.disk = (.ok v, s'.disk) := by
  rcases hy : y.on s.disk with ⟨r, d'⟩
  cases r with
  | error e =>
    rw [doing, bind_ok (act_eq (y := y.outcome) hy)] at h
    cases h
  | ok v' =>
    rw [doing_ok hy] at h
    cases h
    rfl

theorem say_eq (line : String) (s : Scene) : say line s = (.ok (), { s with printed := line :: s.printed }) := rfl

theorem ask_eq (g : Disk → α) (s : Scene) : ask g s = (.ok (g s.disk), s) := rfl

theorem sayAll_ok (lines : List String) (s : Scene) :
    ∃ printed, sayAll lines s = (.ok (), ⟨s.disk, printed⟩) := by
  induction lines generalizing s with
  | nil => exact ⟨s.printed, rfl⟩
  | cons line lines ih =>
    obtain ⟨printed, h⟩ := ih { s with printed := line :: s.printed }
    exact ⟨printed, h⟩

theorem of_sayAll_ok {lines : List String} (h : sayAll lines s = (.ok (), s')) : s'.disk = s.disk := by
  obtain ⟨printed, hsay⟩ := sayAll_ok lines s
  rw [hsay] at h
  cases h
  rfl

variable {k : Update.Kit} {e : Command.Surroundings} {registry : String → Release.Reply} {root : Path}
  {url : Option String}

theorem load_stays {d d' : Disk} {r : Except Error Config} (h : (Config.load root).on d = (r, d')) : d' = d := by
  have hk : Keeps (· = d) (Config.load root) := by
    refine (Keeps.ask _).bind fun _ => Keeps.ite ((Keeps.fetch _).bind fun _ => ?_) (Keeps.pure _)
    split
    · exact Keeps.pure _
    · exact Keeps.fail _
  have hd := hk d rfl
  rw [h] at hd
  exact hd

theorem config_ok {c : Config} (h : (Config.load root).on s.disk = (.ok c, s.disk)) (url : Option String) :
    ∃ c', config root url s = (.ok c', s) := by
  rw [config, bind_ok (doing_ok h)]
  exact ⟨_, rfl⟩

/-! ## The two commands -/

theorem of_finish {report : Install.Report} {text line : String} {lines : List String}
    (h : (doing text (Release.save root k.version) >>= fun _ =>
      if (!report.failed.isEmpty) = true then (fail line : Session PUnit) >>= fun _ => sayAll lines
      else sayAll lines : Session Unit) s = (.ok (), s')) :
    (Release.save root k.version).on s.disk = (.ok (), s'.disk) := by
  obtain ⟨_, s₁, hsave, h⟩ := of_bind_ok h
  split at h
  · obtain ⟨_, _, hfail, -⟩ := of_bind_ok h
    cases hfail
  · rw [of_sayAll_ok h]
    exact of_doing_ok hsave

/-- An initialization that ends well got through all its phases. -/
theorem of_init_ok (h : init k e root true s = (.ok (), s')) :
    ∃ c report os oh oi a₁ a₂ a₃ a₄, (Config.load root).on s.disk = (.ok c, s.disk) ∧
      (Install.run k.bundle k.manifest root).on s.disk = (.ok report, a₁) ∧
      (Settings.mergeStatusLine root).on a₁ = (.ok os, a₂) ∧
      (Settings.mergeHooks root).on a₂ = (.ok oh, a₃) ∧
      (ensureIgnored root Layout.ignoredPlans (some Update.ignoreComment)).on a₃ = (.ok oi, a₄) ∧
      (Release.save root k.version).on a₄ = (.ok (), s'.disk) := by
  unfold init at h
  obtain ⟨c, s₀, hconfig, h⟩ := of_bind_ok h
  obtain ⟨c', s₀', hload, hc⟩ := of_bind_ok hconfig
  cases hc
  have hload := of_doing_ok hload
  have hstay := load_stays hload
  obtain ⟨_, s₁, hsay, h⟩ := of_bind_ok h
  cases hsay
  obtain ⟨report, s₂, hinstall, h⟩ := of_bind_ok h
  obtain ⟨_, s₃, hsay₃, h⟩ := of_bind_ok h
  obtain ⟨os, s₄, hstatus, h⟩ := of_bind_ok h
  obtain ⟨_, s₅, hsay₅, h⟩ := of_bind_ok h
  obtain ⟨oh, s₆, hhooks, h⟩ := of_bind_ok h
  obtain ⟨_, s₇, hsay₇, h⟩ := of_bind_ok h
  obtain ⟨oi, s₈, hignore, h⟩ := of_bind_ok h
  have hinstall := of_doing_ok hinstall
  have hstatus := of_doing_ok hstatus
  have hhooks := of_doing_ok hhooks
  have hignore := of_doing_ok hignore
  rw [of_sayAll_ok hsay₃] at hstatus
  rw [of_sayAll_ok hsay₅] at hhooks
  rw [of_sayAll_ok hsay₇] at hignore
  have hsave : (Release.save root k.version).on s₈.disk = (.ok (), s'.disk) := by
    dsimp only at h
    split at h
    · obtain ⟨_, s₉, hsay, h⟩ := of_bind_ok h
      cases hsay
      have hsave := of_finish h
      exact hsave
    · exact of_finish h
  rw [hstay] at hload hinstall
  exact ⟨c', report, os, oh, oi, _, _, _, _, hload, hinstall, hstatus, hhooks, hignore, hsave⟩

/-- An update that brings the files up to date ends well. -/
theorem update_ok {strategy : Strategy} {skipUpgrade : Bool} {c : Config} {d' : Disk} {r : Update.Report}
    (hconfig : config root url s = (.ok c, s))
    (hrun : Update.run k root ⟨strategy, skipUpgrade, false, c.update.keep⟩ (lookUp registry c.update)
      (e.tools.upgrade c.update.upgradeCommand) s.disk = (r, d'))
    (hstatus : r.status = .updated) :
    ∃ printed, update k e registry root url strategy skipUpgrade false s = (.ok (), ⟨d', printed⟩) := by
  rw [update, bind_ok hconfig, bind_ok (act_eq hrun), if_neg Bool.false_ne_true]
  dsimp only
  rw [hstatus]
  split
  · rw [bind_ok (say_eq ..)]
    exact sayAll_ok ..
  · exact sayAll_ok ..

/-! ## The project -/

/-- The working directory. -/
def here (d : Disk) : Path := Path.ofText ("/" ++ "/".intercalate d.cwd)

/-- The root of the project that a command is about. -/
def rootOf (e : Command.Surroundings) (named : Option Path) (d : Disk) : Path :=
  named.getD (Command.findRoot (here d) e.home d)

theorem run_init (named : Option Path) (skipCodex : Bool) (s : Scene) :
    run k e registry ⟨named, url, .init skipCodex⟩ s = init k e (rootOf e named s.disk) skipCodex s := by
  rw [run, bind_ok (ask_eq ..)]
  cases named with
  | none => exact bind_ok (ask_eq ..)
  | some p => exact congrFun (pure_bind p _) s

theorem run_update (named : Option Path) (strategy : Strategy) (skipUpgrade checkOnly : Bool) (s : Scene) :
    run k e registry ⟨named, url, .update strategy skipUpgrade checkOnly⟩ s =
      update k e registry (rootOf e named s.disk) url strategy skipUpgrade checkOnly s := by
  rw [run, bind_ok (ask_eq ..)]
  cases named with
  | none => exact bind_ok (ask_eq ..)
  | some p => exact congrFun (pure_bind p _) s

theorem mem_ancestors_findRoot (start : Path) (home : Option Path) (d : Disk) :
    Command.findRoot start home d ∈ start.ancestors := by
  unfold Command.findRoot
  dsimp only
  split
  · next p hfind => exact List.mem_of_find?_eq_some hfind
  · cases hfind : start.ancestors.find? fun p => d.isDir (p / ".git") with
    | none => exact mem_ancestors_self start
    | some p => exact List.mem_of_find?_eq_some hfind

/-- The root that is found from a working directory is a directory outside the snapshots. -/
theorem leads_findRoot {d : Disk} (hp : d.top.isPlain = true) (h : d.Leads (here d)) (home : Option Path) :
    d.Leads (Command.findRoot (here d) home d) ∧ Update.Homed d (Command.findRoot (here d) home d) := by
  have hmem := mem_ancestors_findRoot (here d) home d
  have habs := (Path.isAbsolute_ancestors hmem).trans (Path.isAbsolute_slash _)
  refine ⟨h.of_prefix (Node.linkFree_of_isPlain hp) ?_, Update.homed_of_isAbsolute habs⟩
  refine ((ancestors_cases hmem).resolve_left fun hbare => ?_).2
  rw [Path.isBare, habs] at hbare
  cases hbare

/-- A project with settings of its own and an older snapshot, seen from a directory in it. -/
def newcomer : Disk :=
  ⟨.dir ⟨0, false⟩
    [ ("project", .dir ⟨0, false⟩
        [ (".claude", .dir ⟨1, false⟩
            [("settings.json", .file "\x7b\"hooks\":\x7b\x7d,\"statusLine\":\x7b\x7d\x7d".toUTF8 0o600 ⟨5, false⟩)])
        , (".claude-backups", .dir ⟨3, false⟩ [("19700101_000001", .dir ⟨50, false⟩ [])])
        , (".gitignore", .file "target".toUTF8 0o644 ⟨7, false⟩)
        , ("docs", .dir ⟨2, false⟩ []) ]) ],
    ["project", "docs"], 100⟩

/-- A machine without other programs. -/
def bareMachine : Command.Surroundings := ⟨Path.ofText "/home", [], none, none⟩

end Outfitter.Session
