import Outfitter.Proofs.Disk.Reach
import Outfitter.Proofs.Replace
import Outfitter.Proofs.Settings.RoundTrip
import Outfitter.Servers

/-! # Who may read a document

A document that is rewritten is a new file: settings come out with the permission bits of the file
that they were staged in, and the servers of a project with those of any new file. The bits of the
file before play no part. A merge that has nothing to do leaves them alone.
-/

namespace Outfitter

namespace Disk

variable {d d' : Disk} {p root source target : Path} {place above : List String} {name tmp : String} {n : Node}
  {c : ByteArray} {mode : Nat} {t : Stamp} {bytes : ByteArray}

/-- The permission bits of the file that a path leads to. -/
def bits? (d : Disk) (p : Path) : Option Nat :=
  match d.locate false p with
  | .ok (.there _ (.file _ mode _)) => some mode
  | _ => none

theorem Entry.bits?_of_file (e : Entry d p above name) (h : d.top.at? (above ++ [name]) = some (.file c mode t)) :
    d.bits? p = some mode := by
  rw [bits?, e.locate_there h (by simp)]

/-- What stands at an entry that a file was written through; a link stays. -/
def written (bytes : ByteArray) (now : Stamp) : Option Node → Option Node
  | none => some (.file bytes defaultMode now)
  | some (.file _ mode _) => some (.file bytes mode now)
  | some n => some n

namespace Entry

theorem written (e : Entry d p above name) (h : d.write p bytes = .ok d') :
    Agrees d d' ∧ d'.top.at? (above ++ [name]) = Disk.written bytes d.now (d.top.at? (above ++ [name])) ∧
      d.top.shape? (above ++ [name]) ≠ some .dir := by
  obtain ⟨spot, mode, hs, -, hr⟩ := write_refiles h
  refine ⟨hr.agrees, ?_⟩
  cases hat : d.top.at? (above ++ [name]) with
  | none =>
    have hv : d.locate true p = .ok (.vacant above name) := e.locate_vacant hat
    rw [Disk.write, edit_of_vacant hv e.ends] at h
    cases h
    exact ⟨at?_put (Node.shape?_eq_dir.mp e.dir) _, by simp [Node.shape?, hat]⟩
  | some n =>
    cases n with
    | file c m t =>
      have hv : d.locate true p = .ok (.there (above ++ [name]) (.file c m t)) := e.locate_there hat (by simp)
      rw [Disk.write, edit, hv] at h
      dsimp only at h
      split at h
      · cases h
        exact ⟨at?_update hat (by simp), by simp [Node.shape?, hat, Node.shape]⟩
      · cases h
    | link target =>
      have hlink := Node.shape?_eq_link.mpr hat
      exact ⟨Node.shape?_eq_link.mp ((hr.agrees.link _ _).mpr hlink), by simp [hlink]⟩
    | dir t es =>
      have hv : d.locate true p = .ok (.there (above ++ [name]) (.dir t es)) := e.locate_there hat (by simp)
      rw [Disk.write, edit, hv] at h
      cases h

/-- What is renamed over a file takes its place as it is. -/
theorem renamed_over (es : Entry d source above tmp) (e : Entry d target above name) (hne : tmp ≠ name)
    (hfile : d.top.at? (above ++ [name]) = some (.file c mode t)) (h : d.rename source target = .ok d') :
    d'.top.at? (above ++ [name]) = d.top.at? (above ++ [tmp]) := by
  have htarget : d.locate false target = .ok (.there (above ++ [name]) (.file c mode t)) :=
    e.locate_there hfile (by simp)
  cases hat : d.top.at? (above ++ [tmp]) with
  | none =>
    rw [Disk.rename, es.locate_vacant hat] at h
    cases h
  | some n =>
    have hput (hn : n.shape ≠ .dir) :
        ((d.erase (above ++ [tmp])).put (above ++ [name]) n).top.at? (above ++ [name]) = some n := by
      obtain ⟨herase, -⟩ := differs_erase hat hn
      refine at?_put (Node.shape?_eq_dir.mp ?_) n
      rw [herase.elsewhere above (by simp)]
      exact e.dir
    cases n with
    | file =>
      rw [Disk.rename, es.locate_there hat (by simp), htarget] at h
      simp only [if_neg (ne_of_name hne)] at h
      cases h
      exact hput (by simp [Node.shape])
    | link =>
      rw [Disk.rename, es.locate_link hat, htarget] at h
      simp only [if_neg (ne_of_name hne)] at h
      cases h
      exact hput (by simp [Node.shape])
    | dir =>
      rw [Disk.rename, es.locate_there hat (by simp), htarget] at h
      simp only [if_neg (ne_of_name hne)] at h
      cases h

/-- A file that is renamed over a file moves no directory and no link. -/
theorem agrees_of_rename {c' : ByteArray} {mode' : Nat} {t' : Stamp} (es : Entry d source above tmp)
    (e : Entry d target above name) (hne : tmp ≠ name) (hs : d.top.at? (above ++ [tmp]) = some (.file c' mode' t'))
    (hfile : d.top.at? (above ++ [name]) = some (.file c mode t)) (h : d.rename source target = .ok d') :
    Agrees d d' := by
  have hl := Node.loose_of_file hfile
  rw [es.rename e hne hs hl] at h
  cases h
  exact (e.renamed hs hl).1

end Entry

end Disk

namespace Settings

open Disk Action Files

variable {d d' : Disk} {root : Path} {doc : Document} {above : List String} {backup : Option Path}

theorem of_stage_ok {file staging : Path} (h : (stage file staging doc).on d = (.ok (), d')) :
    ∃ d₁, d.write staging (render doc).toUTF8 = .ok d₁ ∧ d₁.rename staging file = .ok d' := by
  unfold stage at h
  obtain ⟨_, d₁, hwrite, h⟩ := of_on_bind_ok h
  obtain ⟨text, d₂, hread, hend⟩ := of_on_bind_ok h
  rw [(of_on_fetch_ok hread).2] at hend
  split at hend
  · cases hend
  · exact ⟨d₁, of_on_change_ok hwrite, of_on_change_ok hend⟩

/-- Settings that are saved are the entry in which they were staged. -/
theorem at?_saveOver {c : ByteArray} {mode : Nat} {t : Stamp} (e : Entry d (Layout.settings root) above "settings.json")
    (hfile : d.top.at? (above ++ ["settings.json"]) = some (.file c mode t))
    (h : (saveOver (Layout.settings root) doc).on d = (.ok (), d')) :
    let backed := ((tryBackUp (Layout.settings root)).on d).2
    Entry backed (Layout.staging (Layout.settings root)) above "settings.json.tmp" ∧
      backed.top.shape? (above ++ ["settings.json.tmp"]) ≠ some .dir ∧
      d'.top.at? (above ++ ["settings.json"]) =
        written (render doc).toUTF8 backed.now (backed.top.at? (above ++ ["settings.json.tmp"])) ∧
      ((∃ c m t, d'.top.at? (above ++ ["settings.json"]) = some (.file c m t)) →
        Entry d' (Layout.settings root) above "settings.json") := by
  obtain ⟨backup, d₁, hback, hagree, hstays⟩ := tryBackUp_agrees d (Layout.settings root)
  rw [saveOver, on_bind_ok hback] at h
  obtain ⟨d₂, hwrite, hrename⟩ := of_stage_ok (of_write_ok h)
  simp only [hback]
  obtain ⟨spot, m, hs, -, hr⟩ := write_refiles hwrite
  have es : Entry d₁ (Layout.staging (Layout.settings root)) above "settings.json.tmp" := by
    have hstaging : Layout.staging (Layout.settings root) =
        (Layout.settings root).withFileName "settings.json.tmp" := by
      rw [Layout.staging, e.fileName?]
      rfl
    rw [hstaging] at hs ⊢
    exact (e.agrees hagree).withFileName (by decide) (by decide) (takes_of_locate hs)
  obtain ⟨hagree', hat, hnot⟩ := es.written hwrite
  obtain ⟨c', mode', t', hfile'⟩ := hr.isFile (hstays _ ⟨c, mode, t, hfile⟩)
  refine ⟨es, hnot, ?_⟩
  have e₂ := (e.agrees hagree).agrees hagree'
  have es₂ := es.agrees hagree'
  have hover := es₂.renamed_over e₂ (by decide) hfile' hrename
  rw [← hat]
  refine ⟨hover, fun hstaged => ?_⟩
  obtain ⟨c₂, mode₂, t₂, hstaged⟩ := hstaged
  exact e₂.agrees (es₂.agrees_of_rename e₂ (by decide) (hover ▸ hstaged) hfile' hrename)

/-- A merge leaves a project alone whose settings cannot be read or need no change, and otherwise saves
them. -/
theorem merge_cases {x : Action Outcome} {c : ByteArray} {mode : Nat} {t : Stamp}
    (e : Entry d (Layout.settings root) above "settings.json")
    (hfile : d.top.at? (above ++ ["settings.json"]) = some (.file c mode t))
    (hx : x ∈ [mergeStatusLine root, mergeHooks root]) :
    (∃ r, x.on d = (r, d) ∧ ∀ o, r = .ok o → o = .unchanged) ∨
      ∃ doc o, isReadable mode = true ∧ o ≠ .unchanged ∧
        x.on d = (saveOver (Layout.settings root) doc >>= fun _ => pure o).on d := by
  have hthere : d.isThere (Layout.settings root) = true := by
    rw [isThere, find_ok_iff.mpr (e.locate_there hfile (by simp))]
    rfl
  rcases hread : (read (Layout.settings root)).on d with ⟨r, d₁⟩
  obtain rfl := read_stays hread
  simp only [List.mem_cons, List.not_mem_nil, or_false] at hx
  cases r with
  | error fault =>
    refine Or.inl ⟨.error fault, ?_, by simp⟩
    rcases hx with rfl | rfl
    · have hmake := makeParents_of_entry e
      rw [makeParents, Layout.parent?_settings] at hmake
      rw [mergeStatusLine, on_bind_ok hmake, on_bind_ask, if_pos hthere, on_bind_error hread]
    · rw [mergeHooks_eq, on_bind_ask, if_pos hthere, on_bind_error hread]
  | ok doc =>
    have hreadable : isReadable mode = true := by
      obtain ⟨-, text, htext, -⟩ := of_read_ok hread
      exact e.readable_of_readText hfile htext
    rcases hx with rfl | rfl
    · have hmake := makeParents_of_entry e
      rw [makeParents, Layout.parent?_settings] at hmake
      rw [mergeStatusLine, on_bind_ok hmake, on_bind_ask, if_pos hthere, on_bind_ok hread]
      split
      · exact Or.inl ⟨_, rfl, by simp⟩
      · exact Or.inr ⟨_, .added, hreadable, by decide, rfl⟩
    · rw [mergeHooks_eq, on_bind_ask, if_pos hthere, on_bind_ok hread]
      obtain ⟨-, heq⟩ | ⟨doc', o, -, ho, heq⟩ := saveHooks_cases (Layout.settings root) doc
      · rw [heq]
        exact Or.inl ⟨_, rfl, by simp⟩
      · rw [heq]
        exact Or.inr ⟨doc', o, hreadable, ho, rfl⟩

theorem entry_of_servers {place : List String} {c : ByteArray} {mode : Nat} {t : Stamp}
    (h : d.locate false (Layout.servers root) = .ok (.there place (.file c mode t))) :
    ∃ above, Entry d (Layout.servers root) above Layout.serversName ∧ place = above ++ [Layout.serversName] :=
  entry_of_file [] Layout.serversName (by decide) h

/-- A project that registers its servers gets them in a new file. -/
theorem of_register_ok {model : String} {c : ByteArray} {mode : Nat} {t : Stamp}
    (e : Entry d (Layout.servers root) above Layout.serversName)
    (hfile : d.top.at? (above ++ [Layout.serversName]) = some (.file c mode t))
    (h : (Servers.register root model).on d = (.ok (), d')) :
    d'.bits? (Layout.servers root) = some defaultMode := by
  have hthere : d.isThere (Layout.servers root) = true := by
    rw [isThere, find_ok_iff.mpr (e.locate_there hfile (by simp))]
    rfl
  unfold Servers.register at h
  rw [on_bind_ask, if_pos hthere] at h
  obtain ⟨doc, d₁, hread, hrest⟩ := of_on_bind_ok h
  obtain rfl := read_stays hread
  dsimp only at hrest
  split at hrest
  · cases hrest
  · obtain ⟨d₂, hparents, hreplace⟩ := of_replace_ok hrest
    cases hparents.symm.trans (makeParents_of_entry e)
    obtain ⟨-, hdiff, hat⟩ := e.replaced hreplace
    have hagree := hdiff.agrees (Node.loose_of_file hfile) (Node.loose_of_file hat)
    exact (e.agrees hagree).bits?_of_file hat

/-- What becomes of settings that are staged in a sibling: a link that is there takes their place, and a
file gives them its permission bits. Where nothing is, the bits are those of a new file. -/
def Becomes (staged : Disk) (file : Path) (place : List String) (d' : Disk) : Prop :=
  match staged.locate false (Layout.staging file) with
  | .ok (.there _ (.link target)) => d'.top.at? place = some (.link target)
  | .ok (.there _ (.file _ mode _)) => d'.bits? file = some mode
  | _ => d'.bits? file = some defaultMode

theorem becomes_of_saveOver {c : ByteArray} {mode : Nat} {t : Stamp}
    (e : Entry d (Layout.settings root) above "settings.json")
    (hfile : d.top.at? (above ++ ["settings.json"]) = some (.file c mode t))
    (h : (saveOver (Layout.settings root) doc).on d = (.ok (), d')) :
    Becomes ((tryBackUp (Layout.settings root)).on d).2 (Layout.settings root) (above ++ ["settings.json"]) d' := by
  obtain ⟨es, hnot, hat, hentry⟩ := at?_saveOver e hfile h
  unfold Becomes
  generalize ((tryBackUp (Layout.settings root)).on d).2 = backed at es hnot hat ⊢
  cases hs : backed.top.at? (above ++ ["settings.json.tmp"]) with
  | none =>
    rw [hs] at hat
    rw [es.locate_vacant hs]
    exact (hentry ⟨_, _, _, hat⟩).bits?_of_file hat
  | some n =>
    rw [hs] at hat
    cases n with
    | file =>
      rw [es.locate_there hs (by simp)]
      exact (hentry ⟨_, _, _, hat⟩).bits?_of_file hat
    | link =>
      rw [es.locate_link hs]
      exact hat
    | dir => exact absurd (by simp [Node.shape?, hs, Node.shape]) hnot

theorem becomes_of_merge {x : Action Outcome} {o : Outcome} {place : List String} {c : ByteArray} {mode : Nat}
    {t : Stamp} (hfile : d.locate false (Layout.settings root) = .ok (.there place (.file c mode t)))
    (hx : x ∈ [mergeStatusLine root, mergeHooks root]) (h : x.on d = (.ok o, d')) :
    (o = .unchanged ∧ d' = d) ∨
      (o ≠ .unchanged ∧ Becomes ((tryBackUp (Layout.settings root)).on d).2 (Layout.settings root) place d') := by
  obtain ⟨above, e, rfl⟩ := entry_of_settings hfile
  have hat : d.top.at? (above ++ ["settings.json"]) = some (.file c mode t) := locate_sound hfile
  obtain ⟨r, hrun, hr⟩ | ⟨doc, o', -, ho, hrun⟩ := merge_cases e hat hx
  · cases h.symm.trans hrun
    exact Or.inl ⟨hr o rfl, rfl⟩
  · rw [hrun] at h
    obtain ⟨_, d₁, hsave, hend⟩ := of_on_bind_ok h
    cases hend
    exact Or.inr ⟨ho, becomes_of_saveOver e hat hsave⟩

theorem mergeStatusLine_added {doc : Document} (h : Ready d root) (hd : Shows d root doc) (hs : Sturdy doc)
    (hnew : doc.contains statusLineKey = false) : ∃ d', (mergeStatusLine root).on d = (.ok .added, d') := by
  obtain ⟨text, ht, hread⟩ := hd
  have hadd : addStatusLine? doc = some (doc.set statusLineKey defaultStatusLine) := by
    rw [addStatusLine?, hnew]
    rfl
  have hr : Json.read? (render (doc.set statusLineKey defaultStatusLine)) ≠ none := by
    simp [(hs.addStatusLine hadd).read]
  obtain ⟨d', hsave, -⟩ := h.saveOver (not_dir_of_readText (Node.linkFree_of_isPlain h.plain) ht) hr
  refine ⟨d', ?_⟩
  unfold mergeStatusLine
  rw [on_bind_ok h.makeDirs, on_bind_ask, if_pos (isThere_of_readText ht), on_bind_ok (read_of_text ht hread)]
  simp only [hnew, Bool.false_eq_true, if_false]
  rw [on_bind_ok hsave, on_pure]

theorem register_of_file {doc doc' : Document} {text model : String} {c : ByteArray} {mode : Nat} {t : Stamp}
    (e : Entry d (Layout.servers root) above Layout.serversName)
    (hfile : d.top.at? (above ++ [Layout.serversName]) = some (.file c mode t))
    (ht : d.readText (Layout.servers root) = .ok text) (hread : Json.read? text = some (.obj doc))
    (hadd : Servers.registered? doc model = some doc') :
    ∃ d', (Servers.register root model).on d = (.ok (), d') := by
  unfold Servers.register
  rw [on_bind_ask, if_pos (isThere_of_readText ht), on_bind_ok (read_of_text ht hread)]
  simp only [hadd]
  obtain ⟨d₁, -, ⟨hdir, -⟩ | ⟨-, hrun⟩⟩ := e.replace (render doc').toUTF8
  · simp [Node.shape?, hfile, Node.shape] at hdir
  · rw [on_replace_ok (makeParents_of_entry e), hrun]
    exact ⟨_, rfl⟩

/-- A project whose documents only their owner may read, with a staged file left over that others may. -/
def confidential : Disk :=
  ⟨.dir ⟨0, false⟩
    [ (".claude", .dir ⟨0, false⟩
        [ ("settings.json", .file "\x7b\x7d".toUTF8 0o600 ⟨0, false⟩)
        , ("settings.json.tmp", .file "stale".toUTF8 0o640 ⟨0, false⟩) ])
    , (".mcp.json", .file "\x7b\x7d".toUTF8 0o600 ⟨0, false⟩) ], [], 0⟩

theorem confidential_merges :
    ∃ d', (mergeStatusLine (Path.ofText "/")).on confidential = (.ok .added, d') := by
  have hshows : Shows confidential (Path.ofText "/") [] := shows_iff.mpr rfl
  have hfree : Unobstructed confidential (Path.ofText "/") := by
    refine ⟨⟨by decide, by decide⟩, fun s hs => ?_⟩
    have hfile : confidential.top.shape? [".claude", "settings.json.tmp"] =
        some (.file "stale".toUTF8 0o640 ⟨0, false⟩) := rfl
    cases hfile.symm.trans hs
    exact ⟨_, _, _, rfl, by decide, by decide⟩
  have hsturdy : Sturdy [] := .of_read (rfl : Json.read? "\x7b\x7d" = some (.obj [])) rfl
  exact mergeStatusLine_added (ready_of_shows (by decide +kernel) hfree hshows) hshows hsturdy rfl

theorem confidential_settings :
    confidential.locate false (Layout.settings (Path.ofText "/")) =
      .ok (.there [".claude", "settings.json"] (.file "\x7b\x7d".toUTF8 0o600 ⟨0, false⟩)) := by rfl

theorem confidential_servers :
    confidential.locate false (Layout.servers (Path.ofText "/")) =
      .ok (.there [".mcp.json"] (.file "\x7b\x7d".toUTF8 0o600 ⟨0, false⟩)) := by rfl

theorem becomes_confidential {d' : Disk} :
    Becomes ((tryBackUp (Layout.settings (Path.ofText "/"))).on confidential).2 (Layout.settings (Path.ofText "/"))
        [".claude", "settings.json"] d' ↔
      d'.bits? (Layout.settings (Path.ofText "/")) = some 0o640 := by
  have hstaged : ((tryBackUp (Layout.settings (Path.ofText "/"))).on confidential).2.locate false
      (Layout.staging (Layout.settings (Path.ofText "/"))) =
        .ok (.there [".claude", "settings.json.tmp"] (.file "stale".toUTF8 0o640 ⟨0, false⟩)) := by rfl
  rw [Becomes, hstaged]

end Settings

end Outfitter
