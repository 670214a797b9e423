import Outfitter.Proofs.Disk.Retain
import Outfitter.Proofs.Session
import Outfitter.Proofs.Update.Phases

/-! # Initializations that fail

An initialization fails for a cause, if one of its operations fails, or at the very end without
one, if some files could not be installed. For a cause it leaves the version of the project as it
was. The stamp is saved before the files are counted: a project in which some are missing records
the version as if it had them all.
-/

namespace Outfitter

open Disk Action Files

/-! ## Servers -/

namespace Servers

variable {allow : Edit → List String → Prop} {d : Disk} {root : Path}

theorem isName_servers : ∀ s ∈ splitSlash Layout.serversName, isName s = true := by decide

/-- Setting up a server writes no file but the document of the servers. -/
theorem keeps_setUp {home : Path} {tools : Toolbox} {c : Config.Codex} (hp : d.top.isPlain = true)
    (hn : root.Named) (hm : ∀ p, allow .make p) (ht : ∀ p, allow .touch p)
    (hc : allow .create (Install.spot d root Layout.serversName))
    (hr : allow .rewrite (Install.spot d root Layout.serversName)) :
    Keeps (Steps allow d) (setUp root home tools c) := by
  have hplace : d.place (Layout.servers root) = Install.spot d root Layout.serversName :=
    place_div isName_servers
  have hregister : Keeps (Steps allow d) (register root c.model) := by
    have hreplace (doc : Settings.Document) : Keeps (Steps allow d)
        (Files.replace (Layout.servers root) (Settings.render doc).toUTF8) :=
      keeps_replace hp (named_div hn isName_servers) (Install.steps_div root isName_servers)
        (fun _ _ => hm _) (ht _) (by rwa [hplace]) fun _ => by rwa [hplace]
    refine (Keeps.ask _).bind fun _ => Keeps.ite (Settings.keeps_read.bind fun doc => ?_)
      ((Keeps.pure _).bind fun doc => ?_)
    all_goals
      beta_reduce
      split
      · exact Keeps.fail _
      · exact hreplace _
  refine Keeps.ite (Keeps.pure _) (Keeps.ite (Keeps.pure _) ((Keeps.ask _).bind fun _ => ?_))
  exact Keeps.ite (Keeps.pure _) (hregister.bind fun _ => Keeps.pure _)

end Servers

namespace Session

variable {α β : Type} {P : Disk → Prop} {x : Session α} {g : α → Session β} {s s' : Scene} {f : Failure}

/-! ## Failures -/

theorem of_bind_error (h : (x >>= g) s = (.error f, s')) :
    x s = (.error f, s') ∨ ∃ v s₁, x s = (.ok v, s₁) ∧ g v s₁ = (.error f, s') := by
  rcases hx : x s with ⟨r, s₁⟩
  change ExceptT.bindCont g (x s).1 (x s).2 = _ at h
  rw [hx] at h
  cases r with
  | error e =>
    cases h
    exact Or.inl rfl
  | ok v => exact Or.inr ⟨v, s₁, rfl, h⟩

theorem of_doing_error {text : String} {y : Action α} (h : doing text y s = (.error f, s')) :
    ∃ e, y.on s.disk = (.error e, s'.disk) ∧ f.cause = some e := by
  rcases hy : y.on s.disk with ⟨r, d'⟩
  cases r with
  | error e =>
    rw [doing, bind_ok (act_eq (y := y.outcome) hy)] at h
    cases h
    exact ⟨e, rfl, rfl⟩
  | ok v =>
    rw [doing_ok hy] at h
    cases h

/-- A part of a command keeps what holds of the disk, and fails only for a cause. -/
def Upholds (P : Disk → Prop) (x : Session α) : Prop :=
  ∀ s r s', P s.disk → x s = (r, s') → P s'.disk ∧ ∀ f, r = .error f → f.cause ≠ none

namespace Upholds

theorem sayAll (lines : List String) : Upholds P (Session.sayAll lines) := by
  intro s r s' hs h
  obtain ⟨printed, hsay⟩ := sayAll_ok lines s
  rw [hsay] at h
  cases h
  exact ⟨hs, nofun⟩

theorem say (line : String) : Upholds P (Session.say line) := sayAll [line]

theorem doing {text : String} {y : Action α} (hy : Keeps P y) : Upholds P (Session.doing text y) := by
  intro s r s' hs h
  have hkeep := hy s.disk hs
  cases r with
  | ok v =>
    rw [of_doing_ok h] at hkeep
    exact ⟨hkeep, nofun⟩
  | error f =>
    obtain ⟨e, hrun, hcause⟩ := of_doing_error h
    rw [hrun] at hkeep
    refine ⟨hkeep, fun f' hf => ?_⟩
    cases hf
    simp [hcause]

theorem outcome {y : Action α} (hy : Keeps P y) : Upholds P (act y.outcome) := by
  intro s r s' hs h
  rw [act_eq (y := y.outcome) rfl] at h
  cases h
  exact ⟨hy s.disk hs, nofun⟩

/-- A command that fails did so in its first part, for a cause, or after it. -/
theorem cut (hx : Upholds P x) (hs : P s.disk) (h : (x >>= g) s = (.error f, s')) :
    (P s'.disk ∧ f.cause ≠ none) ∨ ∃ v s₁, P s₁.disk ∧ g v s₁ = (.error f, s') := by
  rcases of_bind_error h with h | ⟨v, s₁, hv, h⟩
  · obtain ⟨hs', hf⟩ := hx s _ s' hs h
    exact Or.inl ⟨hs', hf f rfl⟩
  · exact Or.inr ⟨v, s₁, (hx s _ s₁ hs hv).1, h⟩

end Upholds

theorem upholds_config (root : Path) (url : Option String) : Upholds P (config root url) := by
  have hload : Keeps P (Config.load root) := fun d hd => by
    rcases h : (Config.load root).on d with ⟨r, d'⟩
    rw [load_stays h]
    exact hd
  intro s r s' hs h
  cases r with
  | ok c =>
    obtain ⟨c', s₁, hc', h⟩ := of_bind_ok h
    cases h
    exact ⟨(Upholds.doing hload s _ _ hs hc').1, nofun⟩
  | error f =>
    rcases of_bind_error h with h | ⟨c, s₁, -, h⟩
    · exact Upholds.doing hload s _ _ hs h
    · cases h

variable {k : Update.Kit} {e : Command.Surroundings} {root : Path} {d a a' : Disk} {names : List String}

/-- The last part of an initialization failed: the stamp could not be saved, or it was, and some
files could not be installed. -/
def Unfinished (k : Update.Kit) (root : Path) (report : Install.Report) (a a' : Disk) (f : Failure) : Prop :=
  (∃ err, (Release.save root k.version).on a = (.error err, a') ∧ f.cause = some err) ∨
    (Release.save root k.version).on a = (.ok (), a') ∧ report.failed ≠ [] ∧
      f = ⟨toString report.failed.length ++ " file(s) could not be installed", none⟩

theorem of_finish_error {report : Install.Report} {text : String} {lines : List String}
    (h : (doing text (Release.save root k.version) >>= fun _ =>
      if (!report.failed.isEmpty) = true then
        (fail (toString report.failed.length ++ " file(s) could not be installed") : Session PUnit) >>= fun _ =>
          sayAll lines
      else sayAll lines : Session Unit) s = (.error f, s')) : Unfinished k root report s.disk s'.disk f := by
  rcases of_bind_error h with h | ⟨_, s₁, hsave, h⟩
  · exact Or.inl (of_doing_error h)
  · refine Or.inr ?_
    split at h
    · next hfailed =>
      rcases of_bind_error h with h | ⟨_, s₂, h, -⟩
      · cases h
        exact ⟨of_doing_ok hsave, by simpa using hfailed, rfl⟩
      · cases h
    · obtain ⟨printed, hsay⟩ := sayAll_ok lines s₁
      rw [hsay] at h
      cases h

/-! ## What an initialization edits before it saves the stamp -/

/-- Edits of the files that are installed, of the settings, the ignore file and the servers. -/
def Prepares (d : Disk) (root : Path) (names : List String) (e : Edit) (p : List String) : Prop :=
  Install.Lays d root names e p ∨ Update.Tends d root e p ∨
    (e = .create ∨ e = .rewrite) ∧ p = Install.spot d root Layout.serversName

theorem not_erase_prepares {p : List String} : ¬ Prepares d root names .erase p := by
  rintro (((he | he) | ⟨he | he, -⟩) | h | ⟨he | he, -⟩)
  all_goals first | cases he | exact Update.not_erase_tends h

/-- Where no file of the bundle is a stamp, the place of the stamp is left alone. -/
theorem prepares_stamp (hnames : ∀ name ∈ names, Inventory.destination name ≠ Layout.stampName) {e : Edit}
    (h : Prepares d root names e (Install.spot d root Layout.stampName)) : e = .make ∨ e = .touch := by
  have hbackup : Install.spot d root Layout.stampName ≠ Settings.backupPlace d root :=
    (Settings.backupPlace_ne (by decide)).symm
  have hsettings : Install.spot d root Layout.stampName ≠ Install.spot d root ".claude/settings.json" :=
    fun heq => absurd (Install.spot_inj heq) (by decide)
  have hstaging : Install.spot d root Layout.stampName ≠ Install.spot d root ".claude/settings.json.tmp" :=
    fun heq => absurd (Install.spot_inj heq) (by decide)
  rcases h with (h | ⟨-, name, hmem, heq⟩) | (h | h | ⟨-, heq⟩) | ⟨-, heq⟩
  · exact h
  · exact absurd (Install.spot_inj heq).symm (hnames name hmem)
  · exact Or.inl h
  · rcases h with (⟨heq, -⟩ | ⟨heq, -⟩ | ⟨heq, -⟩) | ⟨heq, -⟩
    · exact absurd heq hstaging
    · exact absurd heq hsettings
    · exact absurd heq hstaging
    · exact absurd heq hbackup
  · exact absurd (Install.spot_inj heq) (by decide)
  · exact absurd (Install.spot_inj heq) (by decide)

/-- Until the stamp is saved, the project has its version. -/
theorem current_of_prepares (hp : d.top.isPlain = true) (hroot : d.Leads root)
    (hnames : ∀ name ∈ names, Inventory.destination name ≠ Layout.stampName)
    (h : Steps (Prepares d root names) d a) : Release.current root a = Release.current root d := by
  have hspared (q : List String) : Spared (Prepares d root names) q := fun p hp _ => not_erase_prepares hp
  have hl := Node.linkFree_of_isPlain hp
  have hl' := Node.linkFree_of_isPlain (h.isPlain hp)
  have hroot' : a.Leads root := h.leads hp (fun _ _ => hspared _) hroot
  have hretains : Retains d a (d.place root ++ splitSlash Layout.stampName) :=
    h.retains (fun e he => prepares_stamp hnames he) (hspared _)
  have hne : splitSlash Layout.stampName ≠ [] := Path.splitSlash_ne_nil _
  have hback (text : String) (ha : a.readText (Layout.stamp root) = .ok text) :
      d.readText (Layout.stamp root) = .ok text :=
    hretains.readText hl' hl h.cwd_eq hroot Update.isName_stamp hne ha
  have hforth (text : String) (hd : d.readText (Layout.stamp root) = .ok text) :
      a.readText (Layout.stamp root) = .ok text := by
    refine readText_of_file hl hl' h.cwd_eq.symm hroot' Update.isName_stamp hne (fun c m hfile => ?_) hd
    rw [h.place_eq] at hfile ⊢
    exact (hretains.file c m).mpr hfile
  rw [Release.current, Release.current]
  cases hd : d.readText (Layout.stamp root) with
  | ok text => rw [hforth text hd]
  | error _ =>
    cases ha : a.readText (Layout.stamp root) with
    | ok text =>
      rw [hback text ha] at hd
      cases hd
    | error _ => rfl

/-- A project that has a version has a stamp, so one whose stamp cannot be saved had none. -/
theorem current_of_unsaved {err : Error} (hp : d.top.isPlain = true) (hn : root.Named)
    (h : Steps (Prepares d root names) d a)
    (hsave : (Release.save root k.version).on a = (.error err, a')) :
    Release.current root a' = Release.current root d := by
  have hne := Install.steps_div root Update.isName_stamp
  have hpa := h.isPlain hp
  rw [Update.current_of_save_error hpa hn hsave]
  by_contra hversion
  have hunlink : ¬ Prepares d root names .unlink (d.place (Layout.stamp root)) := by
    rw [Layout.stamp, place_div Update.isName_stamp]
    rintro (((he | he) | ⟨he | he, -⟩) | hunlink | ⟨he | he, -⟩)
    all_goals first | cases he | exact absurd (Install.spot_inj (Update.unlink_tends hunlink)) (by decide)
  have hfile : a.isFile (Layout.stamp root) = true :=
    isFile_of_steps hp hne h (fun _ => not_erase_prepares) hunlink (Update.isFile_of_current (Ne.symm hversion))
  obtain ⟨a'', hsaved⟩ : ∃ a'', (Release.save root k.version).on a = (.ok (), a'') :=
    replace_of_open hpa (Update.named_stamp hn) hne Update.endsIdle_stamp (open_of_file hpa hne hfile).1
  rw [hsaved] at hsave
  cases hsave

/-- An initialization that fails did so for a cause before it came to the stamp, or in its last
part. -/
theorem of_init_error {skipCodex : Bool} (hp : d.top.isPlain = true) (hn : root.Named) (hs : s.disk = d)
    (hclean : ∀ name ∈ Install.listed k.bundle d, isClean name = true)
    (h : init k e root skipCodex s = (.error f, s')) :
    (Steps (Prepares d root (Install.listed k.bundle d)) d s'.disk ∧ f.cause ≠ none) ∨
      ∃ report a, ((Install.run k.bundle k.manifest root).on d).1 = .ok report ∧
        Steps (Prepares d root (Install.listed k.bundle d)) d a ∧ Unfinished k root report a s'.disk f := by
  have htends : ∀ e q, Update.Tends d root e q → Prepares d root (Install.listed k.bundle d) e q :=
    fun _ _ h => Or.inr (Or.inl h)
  obtain ⟨hstatus, hhooks, hplans⟩ := Update.keeps_tends hp hn htends
  have hservers (c : Config.Codex) : Keeps (Steps (Prepares d root (Install.listed k.bundle d)) d)
      (Servers.setUp root e.home e.tools c) :=
    Servers.keeps_setUp hp hn (fun _ => Or.inl (Or.inl (Or.inl rfl))) (fun _ => Or.inl (Or.inl (Or.inr rfl)))
      (Or.inr (Or.inr ⟨Or.inl rfl, rfl⟩)) (Or.inr (Or.inr ⟨Or.inr rfl, rfl⟩))
  have hlays : Steps (Prepares d root (Install.listed k.bundle d)) d
      ((Install.run k.bundle k.manifest root).on d).2 :=
    (Install.steps_lays hp hn hclean).mono fun _ _ h => Or.inl h
  unfold init at h
  obtain ⟨hs, hf⟩ | ⟨c, s₁, hs₁, h⟩ := (upholds_config (P := (· = d)) root none).cut hs h
  · exact Or.inl ⟨hs ▸ .refl _, hf⟩
  obtain ⟨hs, hf⟩ | ⟨_, s₂, hs₂, h⟩ := (Upholds.say (P := (· = d)) _).cut hs₁ h
  · exact Or.inl ⟨hs ▸ .refl _, hf⟩
  obtain hinstall | ⟨report, s₃, hinstall, h⟩ := of_bind_error h
  · obtain ⟨err, hinstall, hf⟩ := of_doing_error hinstall
    rw [hs₂] at hinstall
    rw [hinstall] at hlays
    exact Or.inl ⟨hlays, by simp [hf]⟩
  replace hinstall := of_doing_ok hinstall
  rw [hs₂] at hinstall
  rw [hinstall] at hlays ⊢
  obtain hfail | ⟨_, s₄, hs₄, h⟩ := (Upholds.sayAll _).cut hlays h
  · exact Or.inl hfail
  obtain hfail | ⟨_, s₅, hs₅, h⟩ := (Upholds.doing hstatus).cut hs₄ h
  · exact Or.inl hfail
  obtain hfail | ⟨_, s₆, hs₆, h⟩ := (Upholds.sayAll _).cut hs₅ h
  · exact Or.inl hfail
  obtain hfail | ⟨_, s₇, hs₇, h⟩ := (Upholds.doing hhooks).cut hs₆ h
  · exact Or.inl hfail
  obtain hfail | ⟨_, s₈, hs₈, h⟩ := (Upholds.sayAll _).cut hs₇ h
  · exact Or.inl hfail
  obtain hfail | ⟨ignored, s₉, hs₉, h⟩ := (Upholds.doing hplans).cut hs₈ h
  · exact Or.inl hfail
  -- the messages and the servers in between are optional, and then comes the last part
  dsimp only at h
  split at h
  on_goal 1 =>
    obtain hfail | ⟨_, s₁₀, hs₉, h⟩ := (Upholds.say _).cut hs₉ h
    · exact Or.inl hfail
  all_goals
    split at h
    · obtain hfail | ⟨_, s₁₁, hs₁₁, h⟩ := (Upholds.outcome (hservers c.codex)).cut hs₉ h
      · exact Or.inl hfail
      split at h
      · obtain hfail | ⟨_, s₁₂, hs₁₂, h⟩ := (Upholds.say _).cut hs₁₁ h
        · exact Or.inl hfail
        exact Or.inr ⟨report, _, rfl, hs₁₂, of_finish_error h⟩
      · exact Or.inr ⟨report, _, rfl, hs₁₁, of_finish_error h⟩
    · exact Or.inr ⟨report, _, rfl, hs₉, of_finish_error h⟩

/-- An initialization that fails for a cause leaves the version of the project as it was. One that
fails without a cause is one in which files could not be installed; the project then records the
version of the kit all the same. -/
theorem failed_init_version (k : Update.Kit) (e : Command.Surroundings) (registry : String → Release.Reply)
    (named : Option Path) (url : Option String) (skipCodex : Bool) (d : Disk) (f : Failure) (s : Scene)
    (hp : d.top.isPlain = true) (hroot : d.Leads (rootOf e named d))
    (hbundle : ∀ name ∈ Install.listed k.bundle d,
      isClean name = true ∧ Inventory.destination name ≠ Layout.stampName)
    (h : run k e registry ⟨named, url, .init skipCodex⟩ ⟨d, []⟩ = (.error f, s)) :
    let root := rootOf e named d
    (f.cause ≠ none → Release.current root s.disk = Release.current root d) ∧
      (f.cause = none → Release.current root s.disk = Release.versionIn k.version ∧
        ∃ report, ((Install.run k.bundle k.manifest root).on d).1 = .ok report ∧ report.failed ≠ [] ∧
          f.text = toString report.failed.length ++ " file(s) could not be installed") := by
  intro root
  have hn : root.Named := hroot.named hp
  have hnames := fun name hmem => (hbundle name hmem).2
  rw [run_init] at h
  rcases of_init_error (d := d) hp hn rfl (fun name hmem => (hbundle name hmem).1) h with
    ⟨hsteps, hf⟩ | ⟨report, a, hreport, hsteps, ⟨err, hsave, hf⟩ | ⟨hsave, hfailed, rfl⟩⟩
  · exact ⟨fun _ => current_of_prepares hp hroot hnames hsteps, fun hnone => absurd hnone hf⟩
  · exact ⟨fun _ => current_of_unsaved hp hn hsteps hsave, fun hnone => by simp [hf] at hnone⟩
  · refine ⟨fun hf => absurd rfl hf, fun _ => ⟨?_, report, hreport, hfailed, rfl⟩⟩
    exact Update.current_of_save (hsteps.isPlain hp) hn hsave

/-- A project with a directory where a command is to be installed, and with the given settings. -/
def obstructed (settings : String) : Disk :=
  ⟨.dir ⟨0, false⟩
    [ ("project", .dir ⟨0, false⟩
        [ (".claude", .dir ⟨1, false⟩
            [ (".pilot-version", .file "1.0.0\n".toUTF8 0o644 ⟨2, false⟩)
            , ("commands", .dir ⟨3, false⟩ [("plan.md", .dir ⟨4, false⟩ [])])
            , ("settings.json", .file settings.toUTF8 0o644 ⟨5, false⟩) ])
        , (".gitignore", .file ".pilot/".toUTF8 0o644 ⟨6, false⟩) ]) ],
    ["project"], 100⟩

/-- A kit with a single command. -/
def planKit : Update.Kit :=
  ⟨.held [".claude/commands/plan.md"] [(".claude/commands/plan.md", "plan".toUTF8)], .curated, "2.0.0"⟩

/-- The settings of a project that has all that is merged into them. -/
def settledText : String := "\x7b\"hooks\":\x7b\x7d,\"statusLine\":\x7b\x7d\x7d"

/-- The command could not be installed and the initialization failed, but the version was changed. -/
theorem obstructed_init_changes_version :
    let result := run planKit bareMachine (fun _ => .unreachable "offline") ⟨none, none, .init true⟩
      ⟨obstructed settledText, []⟩
    result.1.isOk = false ∧
      Release.current (Path.ofText "/project") (obstructed settledText) = "1.0.0" ∧
      Release.current (Path.ofText "/project") result.2.disk = "2.0.0" := by
  decide +kernel

/-- Settings that are no object make an initialization fail for a cause, and the version stays; with
proper settings it fails without one, and the version changes. -/
theorem obstructed_init_version :
    let offline : String → Release.Reply := fun _ => .unreachable "offline"
    let broken := run planKit bareMachine offline ⟨none, none, .init true⟩ ⟨obstructed "[]", []⟩
    let short := run planKit bareMachine offline ⟨none, none, .init true⟩ ⟨obstructed settledText, []⟩
    (broken.1.mapError (·.cause.isSome) = .error true ∧
      Release.current (Path.ofText "/project") broken.2.disk = "1.0.0") ∧
    short.1.mapError (·.cause.isSome) = .error false ∧
      Release.current (Path.ofText "/project") short.2.disk = "2.0.0" := by
  have hbroken : (run planKit bareMachine (fun _ => .unreachable "offline") ⟨none, none, .init true⟩
      ⟨obstructed "[]", []⟩).1.mapError (·.cause.isSome) = .error true := by decide +kernel
  have hshort : (run planKit bareMachine (fun _ => .unreachable "offline") ⟨none, none, .init true⟩
      ⟨obstructed settledText, []⟩).1.mapError (·.cause.isSome) = .error false := by decide +kernel
  have hbundle : ∀ name ∈ [".claude/commands/plan.md"],
      isClean name = true ∧ Inventory.destination name ≠ Layout.stampName := by decide
  have hversion (text : String) (htext : text = "[]" ∨ text = settledText) (r : Except Failure Unit × Scene)
      (caused : Bool) (hr : r.1.mapError (·.cause.isSome) = .error caused)
      (h : run planKit bareMachine (fun _ => .unreachable "offline") ⟨none, none, .init true⟩
        ⟨obstructed text, []⟩ = r) :
      Release.current (Path.ofText "/project") r.2.disk = if caused then "1.0.0" else "2.0.0" := by
    obtain ⟨hp, hroot, hdir, hcurrent⟩ : (obstructed text).top.isPlain = true ∧
        rootOf bareMachine none (obstructed text) = Path.ofText "/project" ∧
        (obstructed text).isDir (Path.ofText "/project") = true ∧
        Release.current (Path.ofText "/project") (obstructed text) = "1.0.0" := by
      rcases htext with rfl | rfl <;> decide +kernel
    obtain ⟨f | _, s⟩ := r
    · obtain ⟨hkept, hchanged⟩ := failed_init_version planKit bareMachine _ none none true (obstructed text) f s hp
        (hroot ▸ leads_of_isDir (Node.linkFree_of_isPlain hp) hdir) hbundle h
      rw [hroot, hcurrent] at hkept
      rw [hroot] at hchanged
      obtain rfl : f.cause.isSome = caused := Except.error.inj hr
      cases hf : f.cause with
      | none => exact (hchanged hf).1.trans (by decide +kernel)
      | some err => exact hkept (by simp [hf])
    · cases hr
  exact ⟨⟨hbroken, hversion "[]" (Or.inl rfl) _ _ hbroken rfl⟩,
    hshort, hversion settledText (Or.inr rfl) _ _ hshort rfl⟩

end Session

end Outfitter
