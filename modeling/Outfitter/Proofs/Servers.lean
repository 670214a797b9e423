import Outfitter.Proofs.Settings.Permissions
import Outfitter.Proofs.Settings.Settle

/-! # Registration patches one entry

Registering a server sets one entry in the document of a project's servers. The entry takes the
place of its predecessor, or comes last; all other keys and servers keep their values and places.
The last of several registrations alone decides what the file holds. A file that holds no such
document is left alone, and so is the rest of the tree.
-/

namespace Outfitter.Servers

open Disk Action Files Json Settings

variable {d d' : Disk} {root : Path} {doc doc' : Document} {servers ms : Members} {key model : String} {v : Json}
  {place : List String}

/-! ## Documents -/

/-- Members with a value for a key: in the place of its old value, or after all others. -/
def withMember (ms : Members) (key : String) (v : Json) : Members :=
  if key ∈ ms.map Prod.fst then ms.map fun m => (m.1, if m.1 = key then v else m.2) else ms ++ [(key, v)]

theorem set_eq_withMember (hn : (ms.map Prod.fst).Nodup) : ms.set key v = withMember ms key v := by
  unfold withMember
  split
  · next h => exact set_of_mem hn h
  · next h => exact Members.set_of_not_mem h

theorem set_set (ms : Members) (key : String) (v w : Json) : (ms.set key v).set key w = ms.set key w := by
  induction ms with
  | nil => simp [Members.set]
  | cons m ms ih =>
    by_cases h : m.1 = key
    · simp [Members.set, h]
    · simp [Members.set, h, ih]

/-- A document with the entry of the server for a model. -/
def withServer (doc : Document) (servers : Members) (model : String) : Document :=
  doc.set serversKey (.obj (Members.set servers program (entry model)))

theorem registered?_of_servers (h : (doc.get? serversKey).getD (.obj []) = .obj servers) (model : String) :
    registered? doc model = some (withServer doc servers model) := by
  rw [registered?, h, withServer]

/-- The next registration finds the servers of the one before, and sets the same entry. -/
theorem registered?_again (doc : Document) (servers : Members) (earlier model : String) :
    registered? (withServer doc servers earlier) model = some (withServer doc servers model) := by
  have hset : ((withServer doc servers earlier).get? serversKey).getD (.obj []) =
      .obj (Members.set servers program (entry earlier)) := by
    rw [withServer, get?_set, if_pos rfl, Option.getD_some]
  rw [registered?_of_servers hset, withServer, withServer, withServer, set_set, set_set]

theorem sits_entry (model : String) : Sits maxDepth 2 (entry model) :=
  ⟨rfl, by rw [show (entry model).depth = 2 from rfl]; decide⟩

theorem holds_servers (h : Sturdy doc) (hs : (doc.get? serversKey).getD (.obj []) = .obj servers) :
    Reader.Holds maxDepth 1 servers ∧ (Json.obj servers).every isFloatFree = true := by
  cases hg : doc.get? serversKey with
  | none =>
    rw [hg] at hs
    cases hs
    exact ⟨⟨by decide, List.nodup_nil, by simp⟩, rfl⟩
  | some v =>
    rw [hg] at hs
    obtain rfl : v = .obj servers := hs
    obtain ⟨hfree, hholds⟩ := h
    have hm := mem_of_get? hg
    rw [every, Bool.and_eq_true, everyMember_iff] at hfree
    exact ⟨Reader.holds_of_sits (hholds.2.2 _ hm), hfree.2 _ hm⟩

theorem sturdy_withServer (h : Sturdy doc) (hs : (doc.get? serversKey).getD (.obj []) = .obj servers)
    (model : String) : Sturdy (withServer doc servers model) := by
  obtain ⟨hholds, hfree⟩ := holds_servers h hs
  constructor
  · exact floatFree_set h.1 (floatFree_set hfree rfl)
  · exact h.2.set (hholds.set (sits_entry model)).sits

theorem withServer_eq (h : Sturdy doc) (hs : (doc.get? serversKey).getD (.obj []) = .obj servers) (model : String) :
    withServer doc servers model = withMember doc serversKey (.obj (withMember servers program (entry model))) := by
  rw [withServer, set_eq_withMember h.2.2.1, set_eq_withMember (holds_servers h hs).1.2.1]

/-! ## Files -/

/-- The document of a project's servers: nothing at all is there, which counts as an empty one, or a file
that is read. -/
def Lists (d : Disk) (root : Path) (doc : Document) : Prop :=
  (∀ place n, d.locate false (Layout.servers root) ≠ .ok (.there place n)) ∧ doc = [] ∨
    (∃ place c mode t, d.locate false (Layout.servers root) = .ok (.there place (.file c mode t))) ∧
      ((read (Layout.servers root)).on d).1 = .ok doc

theorem entry_servers (hr : Reaches d root place) (ht : takes (Layout.servers root) = true) :
    Entry d (Layout.servers root) place Layout.serversName :=
  hr.entry_join (by decide) (by decide) ht

theorem register_eq (hl : Lists d root doc) (e : Entry d (Layout.servers root) place Layout.serversName)
    (hd : registered? doc model = some doc') :
    (register root model).on d = (Files.replace (Layout.servers root) (render doc').toUTF8).on d := by
  rcases hl with ⟨hnone, rfl⟩ | ⟨-, hread⟩
  · have hvacant : d.top.at? (place ++ [Layout.serversName]) = none := by
      rw [Option.eq_none_iff_forall_ne_some]
      exact fun n hn => hnone _ _ (e.locate_self hn)
    have haway : d.isThere (Layout.servers root) = false := by
      rw [isThere, Disk.find, e.locate_vacant hvacant]
      rfl
    unfold register
    rw [on_bind_ask, haway, if_neg Bool.false_ne_true, on_bind_pure]
    simp only [hd]
  · obtain ⟨-, text, htext, hparse⟩ := of_read_ok (Prod.ext hread rfl)
    unfold register
    rw [on_bind_ask, if_pos (isThere_of_readText htext), on_bind_ok (read_of_text htext hparse)]
    simp only [hd]

theorem Lists.loose (h : Lists d root doc) (e : Entry d (Layout.servers root) place Layout.serversName) :
    Shape.Loose (d.top.shape? (place ++ [Layout.serversName])) := by
  rcases h with ⟨hnone, -⟩ | ⟨⟨spot, c, mode, t, hfile⟩, -⟩
  · apply Node.loose_of_none
    rw [Option.eq_none_iff_forall_ne_some]
    exact fun n hn => hnone _ _ (e.locate_self hn)
  · obtain ⟨above, e', rfl⟩ := entry_of_servers hfile
    obtain rfl : above = place := e.beside e' rfl
    exact Node.loose_of_file (locate_sound hfile)

theorem register_of_lists (e : Entry d (Layout.servers root) place Layout.serversName) (hl : Lists d root doc)
    (hd : registered? doc model = some doc') :
    ∃ d', (register root model).on d = (.ok (), d') ∧
      Refiles (place ++ [Layout.serversName]) (render doc').toUTF8 defaultMode d d' := by
  have hloose := hl.loose e
  obtain ⟨d₁, -, ⟨hdir, -⟩ | ⟨-, hreplace⟩⟩ := e.replace (render doc').toUTF8
  · exact absurd hdir hloose.1
  · obtain ⟨-, hdiffers, hfile⟩ := e.replaced hreplace
    refine ⟨_, ?_, hdiffers, hloose, hfile⟩
    rw [register_eq hl e hd, on_replace_ok (makeParents_of_entry e), hreplace]
    rfl

theorem Lists.sturdy (h : Lists d root doc) (hf : (Json.obj doc).every isFloatFree = true) : Sturdy doc := by
  rcases h with ⟨-, rfl⟩ | ⟨-, hread⟩
  · exact ⟨hf, by decide, List.nodup_nil, by simp⟩
  · obtain ⟨-, text, -, hparse⟩ := of_read_ok (Prod.ext hread rfl)
    exact .of_read hparse hf

/-- What was registered is read back, and is the document that the next registration starts from. -/
theorem lists_of_refiles (e : Entry d (Layout.servers root) place Layout.serversName) (hs : Sturdy doc)
    (h : Refiles (place ++ [Layout.serversName]) (render doc).toUTF8 defaultMode d d') :
    Entry d' (Layout.servers root) place Layout.serversName ∧
      d'.readBytes (Layout.servers root) = .ok (render doc).toUTF8 ∧
      ((read (Layout.servers root)).on d').1 = .ok doc ∧ Lists d' root doc := by
  have e' := e.agrees h.agrees
  have hread : ((read (Layout.servers root)).on d').1 = .ok doc := by
    rw [read_of_text (e'.readText h.file (by decide)) hs.read]
  refine ⟨e', ?_, hread, Or.inr ⟨⟨_, _, _, _, e'.locate_there h.file (by simp)⟩, hread⟩⟩
  rw [readBytes, find_ok_iff.mpr (e'.locate_there h.file (by simp))]
  exact if_pos (by decide)

theorem register_of_rejected (hthere : d.isThere (Layout.servers root) = true)
    (h : ((read (Layout.servers root)).on d).1.isOk = false) : ∃ e, (register root model).on d = (.error e, d) := by
  obtain ⟨e, he⟩ := eq_error_of_isOk h
  have hstays := read_stays he
  rw [hstays] at he
  unfold register
  rw [on_bind_ask, if_pos hthere]
  exact ⟨e, on_bind_error he⟩

theorem register_of_no_object (hthere : d.isThere (Layout.servers root) = true)
    (hread : ((read (Layout.servers root)).on d).1 = .ok doc) (hget : doc.get? serversKey = some v)
    (hv : ∀ servers, v ≠ .obj servers) : ∃ e, (register root model).on d = (.error e, d) := by
  have hstays : ((read (Layout.servers root)).on d).2 = d := read_stays (Prod.eta _).symm
  have hnone : registered? doc model = none := by
    rw [registered?, hget, Option.getD_some]
    cases v with
    | obj servers => exact absurd rfl (hv servers)
    | _ => rfl
  unfold register
  rw [on_bind_ask, if_pos hthere, on_bind_ok (Prod.ext hread hstays)]
  simp only [hnone]
  exact ⟨_, on_fail _ _⟩

/-- A project with servers of its own, as a text. -/
def equipped (text : String) : Disk :=
  ⟨.dir ⟨0, false⟩ [(".mcp.json", .file text.toUTF8 0o600 ⟨0, false⟩)], [], 0⟩

def equippedDocument (server : Json) : Document :=
  [("a", .num (.int 1)), (serversKey, .obj [(program, server), ("x", .arr [])])]

/-- A root that is spelled at such length that its servers have no path the system takes. -/
def windingRoot : Path := ⟨"" :: List.replicate 2046 "."⟩

end Outfitter.Servers
