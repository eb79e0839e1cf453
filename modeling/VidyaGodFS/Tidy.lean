/-
**Operations that make no marker.**

A kept folder holds the guest's files and its own markers side by side, so a name that looks like a
marker's must not come into it but by a deletion.  A call makes an entry where its path leads; with
no marker's name in the path and none in the links of the host, it makes none with such a name.
This module goes through what the operations do before they hide anything: it is all of this kind,
as long as nothing with a marker's name is copied up.

Main definitions:

* `CleanHost`, `CleanTarget`, `CleanMount` — paths, links and mounts that name no marker;
* `MarkersIn` — all markers on a disk are among those given, and no link names one;
* `Tidy` — the calls that make no marker, and `MarksNothing`, the programs;
* `Copying`, `Aiming` — the calls of a copy, and those that may lead a move to its own;
* `UnwritableAt`, `BringsClean` — what a lookup may find that would be copied, and that nothing of it
  has a marker's name.

Main results:

* `tidy_keep` — **tidy calls make no marker**;
* `copyUp_marksNothing`, `deepCopyUp_onAim` — copies of what has no marker's name;
* `resolve_linkEntry` — a link of an archive that is served as a link is one of its entries.
-/

import VidyaGodFS.CopyUp
import VidyaGodFS.Gentle
import VidyaGodFS.HostOnly
import VidyaGodFS.Named

set_option relaxedAutoImplicit false
set_option autoImplicit false

namespace VidyaGodFS

open Posix

variable {M : Mount} {S : Path → Prop}

/-! ### Names of no marker -/

/-- The name is no marker's. -/
def Unmarked (n : Name) : Prop := isMarker n = false

/-- No name of the host path is a marker's. -/
def CleanHost (p : HostPath) : Prop := ∀ q, p = some q → Clean q

/-- The target of a link names no marker. -/
def CleanTarget (target : String) : Prop := TargetIn Unmarked target

theorem Clean.append {u v : Path} (hu : Clean u) (hv : Clean v) : Clean (u ++ v) :=
  NamedIn.append (N := Unmarked) hu hv

theorem Clean.dropLast {v : Path} (hv : Clean v) : Clean v.dropLast :=
  NamedIn.dropLast (N := Unmarked) hv

theorem clean_nil : Clean [] := NamedIn.nil (N := Unmarked)

instance (v : Path) : Decidable (Clean v) := inferInstanceAs (Decidable (∀ n ∈ v, isMarker n = false))

/-- The last name of a clean path is no marker's. -/
theorem markerName_of_clean {v : Path} (hv : Clean v) : markerName v = false := by
  rcases v.eq_nil_or_concat' with rfl | ⟨u, n, rfl⟩
  · decide
  · rw [markerName, baseName, List.getLastD_concat]
    exact (clean_concat.1 hv).2

/-- A path is clean if its directory is, and its own name is no marker's. -/
theorem clean_of_dropLast {v : Path} (hdir : Clean v.dropLast) (hv : markerName v = false) :
    Clean v := by
  rcases v.eq_nil_or_concat' with rfl | ⟨u, n, rfl⟩
  · exact clean_nil
  · rw [append_singleton_dropLast] at hdir
    rw [markerName, baseName, List.getLastD_concat] at hv
    exact clean_concat.2 ⟨hdir, hv⟩

namespace CleanHost

variable {p : HostPath} {rel : Path}

theorem none : CleanHost none := nofun

theorem join (hp : CleanHost p) (hrel : Clean rel) : CleanHost (p.join rel) := by
  cases p with
  | some q =>
      rintro _ ⟨⟩
      exact (hp q rfl).append hrel
  | none =>
      cases rel with
      | nil => exact none
      | cons n rel =>
          rintro _ ⟨⟩
          exact hrel

theorem parent (hp : CleanHost p) : CleanHost (p.map List.dropLast) := by
  cases p with
  | some q =>
      rintro _ ⟨⟩
      exact (hp q rfl).dropLast
  | none => exact none

theorem hostParent (hp : CleanHost p) : CleanHost (hostParent p) := by
  rcases p with _ | _ | ⟨n, _ | ⟨m, q⟩⟩
  · exact none
  · exact none
  · exact none
  · rintro _ ⟨⟩
    exact (hp _ rfl).dropLast

end CleanHost

/-- The mount's own paths name no marker, nor do the links of its archives. -/
structure CleanMount (M : Mount) : Prop where
  writelayer : CleanHost M.writelayer
  source : ∀ L ∈ M.layers, L.isKept = true → CleanHost L.source
  subpath : ∀ L ∈ M.layers, L.isKept = true → Clean L.subpath
  links : ∀ L ∈ M.layers, ∀ Z, L.type = .zip Z → ∀ rel e, Z.entry rel = some e → e.symlink = true →
    Returns CleanTarget (readZipLink Z e)

namespace CleanMount

variable {v : Path} {L : Layer}

theorem wlPath (hM : CleanMount M) (hv : Clean v) : CleanHost (M.wlPath v) := hM.writelayer.join hv

theorem sourceRel (hM : CleanMount M) (hL : L ∈ M.layers) (hkept : L.isKept = true) (hv : Clean v) :
    Clean (sourceRel L v) :=
  (hM.subpath L hL hkept).append fun n hn => hv n (List.mem_of_mem_drop hn)

theorem keptLayer (h : M.keptLayerFor v = some L) : L ∈ M.layers ∧ L.isKept = true := by
  obtain ⟨hkept, -⟩ : L.isKept = true ∧ layerCovers L v = true := by simpa using List.find?_some h
  exact ⟨List.mem_reverse.1 (List.mem_of_find?_eq_some h), hkept⟩

theorem passthrough (hM : CleanMount M) (hv : Clean v) {host : HostPath}
    (h : M.passthroughHost v = some host) : CleanHost host := by
  unfold Mount.passthroughHost at h
  cases hL : M.keptLayerFor v with
  | none =>
      rw [hL] at h
      cases h
  | some L =>
      rw [hL] at h
      obtain rfl := Option.some_inj.1 h
      obtain ⟨hmem, hkept⟩ := keptLayer hL
      exact (hM.source L hmem hkept).join (hM.sourceRel hmem hkept hv)

theorem copyDest (hM : CleanMount M) (hv : Clean v) : CleanHost (copyDest M v) := by
  unfold VidyaGodFS.copyDest
  cases h : M.passthroughHost v with
  | none => exact hM.wlPath hv
  | some host => exact hM.passthrough hv h

end CleanMount

/-! ### Calls that make no marker -/

/-- No link names a marker, and every entry with a marker's name is one of `S`. -/
structure MarkersIn (S : Path → Prop) (d : Disk) : Prop where
  links : d.tree.LinksIn Unmarked
  markers : ∀ q, markerName q = true → d.tree.node q ≠ none → S q

/-- Where a clean path leads. -/
theorem find_clean {d : Disk} (hlinks : d.tree.LinksIn Unmarked) {follow : Bool} {p : HostPath}
    (hp : CleanHost p) {q : Path} (hq : d.find follow p = .ok q) : Clean q := by
  cases p with
  | none => cases hq
  | some p => exact Tree.locate_named hlinks (hp p rfl) hq

namespace MarkersIn

variable {d d' : Disk} {p : Path}

theorem mono {S' : Path → Prop} (h : MarkersIn S d) (hS : ∀ q, S q → S' q) : MarkersIn S' d :=
  ⟨h.links, fun q hq hthere => hS q (h.markers q hq hthere)⟩

theorem of_tree (h : MarkersIn S d) (htree : d'.tree = d.tree) : MarkersIn S d' :=
  ⟨by rw [htree]; exact h.links, fun q hq hthere => h.markers q hq (by rwa [htree] at hthere)⟩

/-- A new entry at a clean place. -/
theorem put {nd : Node} (h : MarkersIn S d) (hput : d.tree.CanPut p nd) (hp : Clean p)
    (hnd : ∀ target, nd = .link target → CleanTarget target) (ht : d'.tree = d.tree.put p nd hput) :
    MarkersIn S d' := by
  refine ⟨by rw [ht]; exact h.links.put hput hnd, fun q hq hthere => ?_⟩
  rw [ht, Tree.put_node] at hthere
  by_cases hqp : q = p
  · rw [hqp, markerName_of_clean hp] at hq
    cases hq
  · rw [if_neg hqp] at hthere
    exact h.markers q hq hthere

theorem erase (h : MarkersIn S d) (herase : d.tree.CanErase p) : MarkersIn S (d.erase p herase) := by
  refine ⟨h.links.erase herase, fun q hq hthere => h.markers q hq fun hnone => hthere ?_⟩
  rw [Disk.erase_tree, Tree.erase_node, hnone, ite_self]

theorem setMode {m : ℕ} (h : MarkersIn S d) (hdir : d.tree.IsDir p) :
    MarkersIn S (d.setMode p m hdir) := by
  refine ⟨h.links.setMode hdir, fun q hq hthere => h.markers q hq fun hnone => hthere ?_⟩
  rw [Disk.setMode_tree, Tree.setMode_node, if_neg, hnone]
  rintro rfl
  exact hdir.ne_none hnone

end MarkersIn

/-- The calls that make no marker. -/
inductive Tidy : Calls
  | look {α : Type} (f : Disk → Except Errno α) : Tidy fun d => (f d, d)
  | mkdir (p : HostPath) (mode : ℕ) : CleanHost p → Tidy (Disk.mkdir p mode)
  | symlink (target : String) (p : HostPath) :
      CleanTarget target → CleanHost p → Tidy (Disk.symlink target p)
  | open_ (p : HostPath) (fl : OpenFlags) (mode : ℕ) :
      (fl.creat = true → CleanHost p) → Tidy (Disk.open p fl mode)
  | link (src dst : HostPath) : CleanHost dst → Tidy (Disk.link src dst)
  | pwrite (h : Handle) (bs : Bytes) (off : ℕ) : Tidy (Disk.pwrite h bs off)
  | fchmod (h : Handle) (mode : ℕ) : Tidy (Disk.fchmod h mode)
  | chmod (p : HostPath) (mode : ℕ) : Tidy (Disk.chmod p mode)
  | truncate (p : HostPath) (size : ℕ) : Tidy (Disk.truncate p size)
  | ftruncate (h : Handle) (size : ℕ) : Tidy (Disk.ftruncate h size)
  | unlink (p : HostPath) : Tidy (Disk.unlink p)
  | rmdir (p : HostPath) : Tidy (Disk.rmdir p)

/-- **Tidy calls make no marker.** -/
theorem tidy_keep (S : Path → Prop) : Tidy.Keep (MarkersIn S) := by
  intro α call hcall d hd
  have hfailed : ∀ {β : Type} {r : Except Errno β × Disk}, Disk.Failed r d → MarkersIn S r.2 := by
    rintro β r ⟨e, rfl⟩
    exact hd
  cases hcall with
  | look f => exact hd
  | mkdir p mode hp =>
      rcases Disk.mkdir_cases p mode d with hf | ⟨q, hq, -, -, hput, hi, hrun⟩
      · exact hfailed hf
      · rw [hrun]
        exact hd.put hput (find_clean hd.links hp hq) nofun rfl
  | symlink target p ht hp =>
      rcases Disk.symlink_cases target p d with hf | ⟨q, hq, -, -, hput, hi, hrun⟩
      · exact hfailed hf
      · rw [hrun]
        refine hd.put hput (find_clean hd.links hp hq) ?_ rfl
        rintro _ ⟨⟩
        exact ht
  | open_ p fl mode hp =>
      rcases Disk.open_cases p fl mode d with
        hf | ⟨q, hq, ⟨-, hc, -, hput, hrun⟩ | ⟨i, -, hrun⟩ | ⟨-, hrun⟩⟩
      · exact hfailed hf
      · rw [hrun]
        exact hd.put hput (find_clean hd.links (hp hc) hq) nofun rfl
      · rw [hrun]
        exact hd.of_tree (by cases fl.trunc <;> rfl)
      · rw [hrun]
        exact hd
  | link src dst hp =>
      rcases Disk.link_cases src dst d with hf | ⟨a, b, nd, -, hb, ha, -, -, -, hput, hi, hrun⟩
      · exact hfailed hf
      · rw [hrun]
        refine hd.put hput (find_clean hd.links hp hb) ?_ rfl
        rintro target rfl
        exact hd.links a target ha
  | pwrite h bs off => exact hd.of_tree (quiet_pwrite h bs off d)
  | fchmod h mode => exact hd.of_tree (quiet_fchmod h mode d)
  | truncate p size => exact hd.of_tree (quiet_truncate p size d)
  | ftruncate h size => exact hd.of_tree (quiet_ftruncate h size d)
  | chmod p mode =>
      rcases Disk.chmod_cases p mode d with hf | ⟨q, -, ⟨i, -, hrun⟩ | ⟨hdir, hrun⟩⟩
      · exact hfailed hf
      · rw [hrun]
        exact hd.of_tree rfl
      · rw [hrun]
        exact hd.setMode hdir
  | unlink p =>
      rcases Disk.unlink_cases p d with hf | ⟨q, nd, -, -, -, -, herase, hrun⟩
      · exact hfailed hf
      · rw [hrun]
        exact hd.erase herase
  | rmdir p =>
      rcases Disk.rmdir_cases p d with hf | ⟨q, -, -, -, herase, hrun⟩
      · exact hfailed hf
      · rw [hrun]
        exact hd.erase herase

/-! ### What is known of a value -/

/-- What a look yields is known of every disk, or of every refusal. -/
theorem Returns.look {α : Type} {Q : Except Errno α → Prop} {f : Disk → Except Errno α}
    (h : ∀ d, Q (f d)) (hrefused : ∀ e, Q (.error e)) : Returns Q (look f) := by
  intro w r w' hrun
  obtain ⟨hr, -⟩ := Prod.mk.inj hrun
  rw [← Except.ok.inj hr]
  cases w.blind 0 with
  | none => exact h _
  | some e => exact hrefused e

/-- What follows a program may rely on what is known of its value. -/
theorem Within.bind_returns {α β : Type} {C : Calls} {Q : α → Prop} {m : Prog World Errno α}
    {f : α → Prog World Errno β} (hm : Within C m) (hr : Returns Q m)
    (hf : ∀ a, Q a → Within C (f a)) : Within C (m >>= f) := fun I hI w hw =>
  Prog.bind_ends (hm I hI w hw) fun a w' h hw' => hf a (hr w a w' h) I hI w' hw'

/-- The directories that are missing on the way to a path lie above it, or are it. -/
theorem missingDirs_le {d : Disk} {p : Path} :
    ∀ {k : ℕ} {dirs : List Path}, missingDirs d p k = .ok dirs → ∀ q ∈ dirs, q <+: p := by
  intro k
  induction k with
  | zero =>
      intro dirs h q hq
      rw [missingDirs] at h
      rw [← Except.ok.inj h] at hq
      cases hq
  | succ k ih =>
      intro dirs h q hq
      rw [missingDirs] at h
      split at h
      · split_ifs at h
        rw [← Except.ok.inj h] at hq
        cases hq
      · split_ifs at h
        split at h
        · rename_i above habove
          rw [← Except.ok.inj h] at hq
          rcases List.mem_append.1 hq with hq | hq
          · exact ih habove q hq
          · rw [List.mem_singleton.1 hq]
            exact List.take_prefix _ _
        · cases h

/-! ### Making directories -/

/-- `q` is the host path `p`, or lies above it. -/
def OnTheWay (q : Path) (p : HostPath) : Prop := ∃ r, p = some r ∧ q <+: r

namespace OnTheWay

variable {q rel rel' : Path} {p : HostPath}

theorem clean (h : OnTheWay q p) (hp : CleanHost p) : CleanHost (some q) := by
  obtain ⟨r, rfl, hle⟩ := h
  rintro _ ⟨⟩
  exact (hp r rfl).of_le hle

theorem of_parent (h : OnTheWay q (p.map List.dropLast)) : OnTheWay q p := by
  obtain ⟨r, hr, hle⟩ := h
  obtain ⟨r', rfl, rfl⟩ := Option.map_eq_some_iff.1 hr
  exact ⟨r', rfl, hle.trans (List.dropLast_prefix r')⟩

theorem of_hostParent (h : OnTheWay q (hostParent p)) : OnTheWay q p := by
  obtain ⟨r, hr, hle⟩ := h
  rcases p with _ | _ | ⟨n, _ | ⟨m, p⟩⟩
  · cases hr
  · cases hr
  · cases hr
  · obtain rfl := Option.some_inj.1 hr
    exact ⟨_, rfl, hle.trans (List.dropLast_prefix _)⟩

theorem join_mono (h : OnTheWay q (p.join rel)) (hrel : rel <+: rel') : OnTheWay q (p.join rel') := by
  obtain ⟨r, hr, hle⟩ := h
  cases p with
  | some p =>
      obtain rfl := Option.some_inj.1 hr
      exact ⟨_, rfl, hle.trans ((List.prefix_append_right_inj p).2 hrel)⟩
  | none =>
      cases rel with
      | nil => cases hr
      | cons n rel =>
          obtain rfl := Option.some_inj.1 hr
          obtain ⟨t, rfl⟩ := hrel
          exact ⟨_, rfl, hle.trans (List.prefix_append _ _)⟩

end OnTheWay

/-- A path's directories are made on the way to it. -/
theorem createDirectories_within {C : Calls} {p : HostPath}
    (hC : ∀ q mode, OnTheWay q p → C (Disk.mkdir (some q) mode)) :
    Within C (createDirectories p) := by
  cases p with
  | none => exact Within.fail _
  | some p =>
      have hr : Returns (fun r => ∀ dirs, r = .ok dirs → ∀ q ∈ dirs, q <+: p)
          (look fun d => missingDirs d p p.length) :=
        Returns.look (fun d dirs h => missingDirs_le h) nofun
      refine Within.bind_returns (Within.look (Agrees.look _)) hr fun r hle => ?_
      cases r with
      | error e => exact Within.fail e
      | ok dirs =>
          refine Within.forM fun q hq => ?_
          have hway : OnTheWay q (some p) := ⟨p, rfl, hle dirs rfl q hq⟩
          refine Within.bind (Within.attempt (Within.act (hC _ _ hway))) fun r => ?_
          cases r with
          | ok u => exact Within.pure _
          | error e =>
              exact Within.bind (Within.look (Agrees.look _)) fun there =>
                Within.ite (fun _ => Within.pure _) fun _ => Within.fail e

theorem createDirectoriesEio_within {C : Calls} {p : HostPath}
    (hC : ∀ q mode, OnTheWay q p → C (Disk.mkdir (some q) mode)) :
    Within C (createDirectoriesEio p) := by
  refine Within.bind (Within.attempt (createDirectories_within hC)) fun r => ?_
  cases r with
  | ok u => exact Within.pure _
  | error e => exact Within.fail _

theorem createDirectories_tidy {p : HostPath} (hp : CleanHost p) :
    Within Tidy (createDirectories p) :=
  createDirectories_within fun _ _ hq => Tidy.mkdir _ _ (hq.clean hp)

theorem createDirectoriesEio_tidy {p : HostPath} (hp : CleanHost p) :
    Within Tidy (createDirectoriesEio p) :=
  createDirectoriesEio_within fun _ _ hq => Tidy.mkdir _ _ (hq.clean hp)

theorem ensureHostParent_tidy {host : HostPath} (h : CleanHost host) :
    Within Tidy (ensureHostParent host) :=
  Within.ignoring (createDirectories_tidy h.hostParent)

/-- What takes names away is tidy. -/
theorem Within.tidy_of_drops {α : Type} {m : Prog World Errno α} (h : Within Drops m) :
    Within Tidy m := by
  refine h.mono fun β call hcall => ?_
  cases hcall with
  | unlink p => exact Tidy.unlink p

/-! ### Links of archives -/

/-- A link of an archive that is served as a link is an entry of the archive. -/
def LinkEntry : ResolveResult → Prop
  | .zipEntry _ Z (some e) => e.symlink = true → ∃ rel, Z.entry rel = some e
  | _ => True

theorem resolveZipSymlink_file (Z : ZipIndex) (E : ZipEntry) :
    Returns (fun r => ∀ t, r = some t → t.symlink = false) (resolveZipSymlink Z E) := by
  refine Returns.bind (Returns.triv _) fun r _ => ?_
  cases r with
  | none => exact Returns.pure nofun
  | some cur =>
      refine Returns.pure fun t ht => ?_
      cases hlink : cur.symlink with
      | true =>
          rw [hlink, Bool.true_or, if_pos rfl] at ht
          cases ht
      | false =>
          rw [hlink, Bool.false_or] at ht
          split_ifs at ht
          rw [← Option.some_inj.1 ht]
          exact hlink

theorem resolveLayer_linkEntry (L : Layer) (v : Path) :
    Returns (fun r => ∀ rr, r = some rr → LinkEntry rr) (resolveLayer M L v) := by
  have hplain : ∀ {rr : ResolveResult}, LinkEntry rr →
      Returns (fun r => ∀ rr', r = some rr' → LinkEntry rr')
        (pure (some rr) : Prog World Errno (Option ResolveResult)) := by
    refine fun h => Returns.pure ?_
    rintro _ ⟨⟩
    exact h
  have hnone : Returns (fun r => ∀ rr', r = some rr' → LinkEntry rr')
      (pure none : Prog World Errno (Option ResolveResult)) := Returns.pure nofun
  unfold resolveLayer
  refine Returns.ite (fun _ => hnone) fun _ => ?_
  cases L.type with
  | dir =>
      refine Returns.bind (Returns.triv _) fun r _ => ?_
      cases r with
      | error e =>
          exact Returns.bind (Returns.triv _) fun masked _ =>
            Returns.ite (fun _ => hplain trivial) fun _ => hnone
      | ok st =>
          refine Returns.ite (fun _ => Returns.bind (Returns.triv _) fun r _ => ?_)
            fun _ => hplain trivial
          cases r with
          | error e => exact hnone
          | ok st' =>
              refine Returns.bind (Returns.triv _) fun r _ => ?_
              rcases r with e | ⟨⟨⟩ | ⟨⟩⟩
              · exact hnone
              · exact hnone
              · exact hplain trivial
  | file =>
      refine Returns.bind (Returns.triv _) fun r _ => ?_
      cases r with
      | error e => exact hnone
      | ok st =>
          refine Returns.ite (fun _ => Returns.bind (Returns.triv _) fun r _ => ?_)
            fun _ => hplain trivial
          cases r with
          | error e => exact hnone
          | ok st' => exact hplain trivial
  | zip Z =>
      dsimp only
      cases hentry : Z.entry (sourceRel L v) with
      | none => exact Returns.ite (fun _ => hplain trivial) fun _ => hnone
      | some e =>
          have hown : LinkEntry (.zipEntry L Z (some e)) := fun _ => ⟨_, hentry⟩
          refine Returns.ite (fun _ => Returns.bind (resolveZipSymlink_file Z e) fun r hr => ?_)
            fun _ => hplain hown
          cases r with
          | none => exact Returns.ite (fun _ => hnone) fun _ => hplain hown
          | some t =>
              refine hplain fun ht => ?_
              rw [hr t rfl] at ht
              cases ht

theorem resolveLayers_linkEntry (v : Path) :
    ∀ layers : List Layer, Returns LinkEntry (resolveLayers M v layers) := by
  intro layers
  induction layers with
  | nil => exact Returns.pure (by split_ifs <;> exact trivial)
  | cons L rest ih =>
      refine Returns.bind (resolveLayer_linkEntry L v) fun r hr => ?_
      cases r with
      | none => exact ih
      | some rr => exact Returns.pure (hr rr rfl)

theorem resolve_linkEntry (v : Path) : Returns LinkEntry (resolve M v) := by
  unfold resolve
  refine Returns.ite (fun _ => resolveLayers_linkEntry v _) fun _ =>
    Returns.bind (Returns.triv _) fun gone _ => Returns.ite (fun _ => Returns.pure trivial)
      fun _ => Returns.bind (Returns.triv _) fun r _ => ?_
  cases r with
  | ok st => exact Returns.pure trivial
  | error e =>
      exact Returns.bind (Returns.triv _) fun under _ =>
        Returns.ite (fun _ => Returns.pure trivial) fun _ => resolveLayers_linkEntry v _

/-- A link that is served as one names what its archive's links name. -/
theorem readZipLink_clean (hM : CleanMount M) {v : Path} {L : Layer} {Z : ZipIndex} {e : ZipEntry}
    (hfits : Fits M v (.zipEntry L Z (some e))) (hentry : LinkEntry (.zipEntry L Z (some e)))
    (hlink : e.symlink = true) : Returns CleanTarget (readZipLink Z e) := by
  obtain ⟨hL, -, htype⟩ := hfits
  obtain ⟨rel, hrel⟩ := hentry hlink
  exact hM.links L hL Z htype rel e hrel hlink

/-! ### Copies -/

/-- The program makes no marker. -/
abbrev MarksNothing (S : Path → Prop) {α : Type} (m : Prog World Errno α) : Prop :=
  Prog.Preserves (fun w => MarkersIn S w.state.disk) m

theorem Within.marksNothing {α : Type} {m : Prog World Errno α} (h : Within Tidy m) :
    MarksNothing S m := h _ (tidy_keep S)

/-- The calls of a copy to `dst`: they make the directories on the way and the copy, and take it away
again. -/
inductive Copying (dst : HostPath) : Calls
  | mkdir {q : Path} (mode : ℕ) : OnTheWay q dst → Copying dst (Disk.mkdir (some q) mode)
  | symlink (target : String) : CleanTarget target → Copying dst (Disk.symlink target dst)
  | open_ (fl : OpenFlags) (mode : ℕ) : Copying dst (Disk.open dst fl mode)
  | fills {α : Type} {call : Call α} : Fills call → Copying dst call
  | drop : Copying dst (Disk.unlink dst)

theorem Fills.tidy {α : Type} {call : Call α} (h : Fills call) : Tidy call := by
  cases h with
  | look f => exact Tidy.look f
  | open_ p fl mode hc => exact Tidy.open_ p fl mode fun h => absurd (hc.symm.trans h) nofun
  | pwrite h bs off => exact Tidy.pwrite h bs off
  | fchmod h mode => exact Tidy.fchmod h mode

theorem Copying.tidy {dst : HostPath} (hdst : CleanHost dst) {α : Type} {call : Call α}
    (h : Copying dst call) : Tidy call := by
  cases h with
  | mkdir mode hq => exact Tidy.mkdir _ mode (hq.clean hdst)
  | symlink target ht => exact Tidy.symlink target dst ht hdst
  | open_ fl mode => exact Tidy.open_ dst fl mode fun _ => hdst
  | fills h => exact h.tidy
  | drop => exact Tidy.unlink dst

theorem Within.copying_of_fills {dst : HostPath} {α : Type} {m : Prog World Errno α}
    (h : Within Fills m) : Within (Copying dst) m := h.mono fun _ _ => Copying.fills

section Copies

variable {dst : HostPath} {I : Disk → Prop}

/-- A copy of a link names what the link names. -/
theorem copyLink_keeps (hI : (Copying dst).Keep I) (hlinks : ∀ d, I d → d.tree.LinksIn Unmarked)
    (host : HostPath) :
    Prog.Preserves (fun w => I w.state.disk) (do
      let target ← act fun d => (d.readlink host, d)
      act (Disk.symlink target dst) : Prog World Errno Unit) := by
  refine fun w hw => Prog.bind_ends
    (Within.act (Copying.fills (Fills.look fun d => d.readlink host)) _ hI w hw)
    fun target w' h hw' => Within.act (Copying.symlink target ?_) _ hI w' hw'
  have hread : w.state.disk.readlink host = .ok target := congrArg Prod.fst (act_ok h)
  unfold Disk.readlink at hread
  cases hq : w.state.disk.find false host with
  | error e =>
      rw [hq] at hread
      cases hread
  | ok q =>
      rw [hq] at hread
      dsimp only at hread
      cases hnode : w.state.disk.tree.node q with
      | none =>
          rw [hnode] at hread
          cases hread
      | some nd =>
          rw [hnode] at hread
          cases nd with
          | link target' =>
              rw [← Except.ok.inj hread]
              exact hlinks _ hw q target' hnode
          | _ => cases hread

theorem copyFile_copying {copy : Handle → Prog World Errno Unit}
    (hcopy : ∀ out, Within Fills (copy out)) : Within (Copying dst) (copyFile dst copy) := by
  refine Within.bind (Within.act (Copying.open_ _ _)) fun out =>
    Within.bind (Within.attempt (hcopy out).copying_of_fills) fun r => ?_
  cases r with
  | ok u => exact Within.pure _
  | error e =>
      exact Within.bind (Within.ignoring (Within.act Copying.drop)) fun _ => Within.fail e

theorem copyTo_keeps (hM : CleanMount M) (hI : (Copying dst).Keep I)
    (hlinks : ∀ d, I d → d.tree.LinksIn Unmarked) {v : Path} {rr : ResolveResult}
    (hfits : Fits M v rr) (hentry : LinkEntry rr) :
    Prog.Preserves (fun w => I w.state.disk) (copyTo M dst rr) := by
  have hhost : ∀ host, Prog.Preserves (fun w => I w.state.disk)
      (do
        if ← copiesAsLink M rr then do
          let target ← act fun d => (d.readlink host, d)
          act (Disk.symlink target dst)
        else copyFile dst (copyHostFile host) : Prog World Errno Unit) := fun host =>
    Prog.Preserves.bind (Within.look (copiesAsLink_agrees M rr) _ hI) fun b =>
      Prog.Preserves.ite (fun _ => copyLink_keeps hI hlinks host)
        fun _ => copyFile_copying (fun out => copyHostFile_fills host out) _ hI
  refine Prog.Preserves.bind (Within.look (copiesAsDir_agrees M rr) _ hI) fun b =>
    Prog.Preserves.ite
      (fun _ => createDirectoriesEio_within (fun _ mode hq => Copying.mkdir mode hq) _ hI) fun _ => ?_
  cases rr with
  | zipEntry L Z e =>
      cases e with
      | none => exact hhost _
      | some e =>
          refine Prog.Preserves.ite (fun hlink => ?_)
            fun _ => copyFile_copying (fun out => copyZipEntry_fills Z e out) _ hI
          exact Within.bind_returns (readZipLink_fills Z e).copying_of_fills
            (readZipLink_clean hM hfits hentry hlink)
            (fun target ht => Within.act (Copying.symlink target ht)) _ hI
  | _ => exact hhost _

end Copies

theorem ensureWriteParent_tidy (hM : CleanMount M) {v : Path} (hv : Clean v.dropLast) :
    Within Tidy (ensureWriteParent M v) := createDirectoriesEio_tidy (hM.wlPath hv)

theorem ensureCopyParent_copying (v : Path) :
    Within (Copying (copyDest M v)) (ensureCopyParent M v) := by
  unfold ensureCopyParent copyDest
  cases h : M.passthroughHost v with
  | none =>
      exact createDirectoriesEio_within fun _ mode hq =>
        Copying.mkdir mode (hq.join_mono (List.dropLast_prefix v))
  | some dst => exact createDirectoriesEio_within fun _ mode hq => Copying.mkdir mode hq.of_parent

/-- **What the calls of a copy to its place keep**, copying up keeps. -/
theorem copyUp_keeps (hM : CleanMount M) {v : Path} {I : Disk → Prop}
    (hI : (Copying (copyDest M v)).Keep I) (hlinks : ∀ d, I d → d.tree.LinksIn Unmarked)
    {rr : ResolveResult} (hfits : Fits M v rr) (hentry : LinkEntry rr) :
    Prog.Preserves (fun w => I w.state.disk) (copyUp M v rr) := by
  refine Prog.Preserves.ite (fun _ => Prog.Preserves.fail _) fun _ =>
    Prog.Preserves.ite (fun _ => Prog.Preserves.pure _) fun _ => ?_
  refine Prog.Preserves.bind (Within.look (Agrees.look _) _ hI) fun r => ?_
  cases r with
  | ok st => exact Prog.Preserves.pure _
  | error e =>
      exact Prog.Preserves.bind (ensureCopyParent_copying v _ hI) fun _ =>
        copyTo_keeps hM hI hlinks hfits hentry

/-- What is writable where it is, is not copied. -/
theorem copyUp_writable {v : Path} {rr : ResolveResult} (h : rr.isWritable = true)
    {I : World → Prop} : Prog.Preserves I (copyUp M v rr) :=
  Prog.Preserves.ite (fun _ => Prog.Preserves.fail _) fun _ =>
    Prog.Preserves.ite (fun _ => Prog.Preserves.pure _) fun hno => absurd h hno

/-- **A copy of what has no marker's name makes no marker.** -/
theorem copyUp_marksNothing (hM : CleanMount M) {v : Path} {rr : ResolveResult}
    (hv : rr.isWritable = false → Clean v) (hfits : Fits M v rr) (hentry : LinkEntry rr) :
    MarksNothing S (copyUp M v rr) := by
  cases hrw : rr.isWritable with
  | true => exact copyUp_writable hrw
  | false =>
      refine copyUp_keeps hM (fun _ call hcall d hd => ?_) (fun _ hd => hd.links) hfits hentry
      exact tidy_keep S _ (hcall.tidy (hM.copyDest (hv hrw))) d hd

theorem makeWritable_marksNothing (hM : CleanMount M) {v : Path} {rr : ResolveResult}
    (hv : rr.isWritable = false → Clean v) (hfits : Fits M v rr) (hentry : LinkEntry rr) :
    MarksNothing S (makeWritable M v rr) :=
  Prog.Preserves.ite (fun _ => Prog.Preserves.pure _) fun _ => copyUp_marksNothing hM hv hfits hentry

/-! ### What leads a move to its call -/

/-- What a lookup has found. -/
def Found (M : Mount) (v : Path) (rr : ResolveResult) : Prop := Fits M v rr ∧ LinkEntry rr

theorem resolve_found (v : Path) : Returns (Found M v) (resolve M v) :=
  fun w rr w' h => ⟨resolve_fits M v w rr w' h, resolve_linkEntry v w rr w' h⟩

variable (M) in
/-- A lookup of `v` may find what is not writable where it is, whatever the host refuses to tell. -/
def UnwritableAt (s : VfsState) (v : Path) : Prop :=
  ∃ fate blind rr w', (resolve M v : Prog World Errno ResolveResult) ⟨s, fate, blind⟩ = (.ok rr, w') ∧
    rr.isNone = false ∧ rr.isWritable = false

variable (M) in
/-- The calls that may lead the move of `vf` to `vt` to its own: copies of what lies at `vf` or below,
and the directories on the way to the place of `vt`, whose whiteout goes. -/
inductive Aiming (vf vt : Path) : Calls
  | copies {u : Path} {α : Type} {call : Call α} :
      vf <+: u → Clean u → Copying (copyDest M u) call → Aiming vf vt call
  | mkdir {q : Path} (mode : ℕ) :
      OnTheWay q (copyDest M vt) → CleanHost (some q) → Aiming vf vt (Disk.mkdir (some q) mode)
  | unmark : Aiming vf vt (Disk.unlink (M.whiteoutPath vt))

theorem Aiming.tidy (hM : CleanMount M) {vf vt : Path} {α : Type} {call : Call α}
    (h : Aiming M vf vt call) : Tidy call := by
  cases h with
  | copies _ hu h => exact h.tidy (hM.copyDest hu)
  | mkdir mode _ hq => exact Tidy.mkdir _ mode hq
  | unmark => exact Tidy.unlink _

variable (M) in
/-- What is copied up for a move of `vf` has no marker's name, at whatever point the copying is. -/
def BringsClean (vf vt : Path) (s : VfsState) : Prop :=
  ∀ d', (Aiming M vf vt).Leads s.disk d' → ∀ u, vf <+: u →
    UnwritableAt M { s with disk := d' } u → Clean u

/-- What is known on the way from the state `s` to the call of a move. -/
structure OnAim (M : Mount) (S : Path → Prop) (s : VfsState) (vf vt : Path) (w : World) : Prop where
  masks : SameMasks s w.state
  markers : MarkersIn S w.state.disk
  leads : (Aiming M vf vt).Leads s.disk w.state.disk

section Aim

variable {s : VfsState} {vf vt : Path}

theorem aiming_keep (hM : CleanMount M) : (Aiming M vf vt).Keep fun d =>
    MarkersIn S d ∧ (Aiming M vf vt).Leads s.disk d :=
  fun _ _ hcall _ hd => ⟨tidy_keep S _ (hcall.tidy hM) _ hd.1, hd.2.step hcall⟩

/-- A program that keeps what is known of the disk, and leaves the masks alone. -/
theorem OnAim.preserves {α : Type} {m : Prog World Errno α} (hm : HostOnly m)
    (h : Prog.Preserves (fun w => MarkersIn S w.state.disk ∧
      (Aiming M vf vt).Leads s.disk w.state.disk) m) :
    Prog.Preserves (OnAim M S s vf vt) m := fun w hw =>
  ⟨hw.masks.trans (hm w), (h w ⟨hw.markers, hw.leads⟩).1, (h w ⟨hw.markers, hw.leads⟩).2⟩

theorem OnAim.look {α : Type} {p : View α} {q : Prog World Errno α} (h : Agrees p q) :
    Prog.Preserves (OnAim M S s vf vt) q := by
  intro w hw
  obtain ⟨a, w', hrun, hstate, -⟩ := h.total w
  rw [hrun]
  refine ⟨?_, ?_, ?_⟩ <;> rw [hstate]
  · exact hw.masks
  · exact hw.markers
  · exact hw.leads

/-- What a lookup on the way finds unwritable has no marker's name. -/
theorem OnAim.clean (hbrings : BringsClean M vf vt s) {w : World} (h : OnAim M S s vf vt w) {u : Path}
    (hu : vf <+: u) {rr : ResolveResult} {w' : World}
    (hrun : (resolve M u : Prog World Errno ResolveResult) w = (.ok rr, w'))
    (hsome : rr.isNone = false) (hrw : rr.isWritable = false) : Clean u := by
  refine hbrings _ h.leads u hu ⟨w.fate, w.blind, rr, w', ?_, hsome, hrw⟩
  have hstate : ({ s with disk := w.state.disk } : VfsState) = w.state := by
    rw [← h.masks.whiteoutSet, ← h.masks.opaqueSet, ← h.masks.kept]
  rw [hstate]
  exact hrun

theorem copyUp_onAim (hM : CleanMount M) {u : Path} (hu : vf <+: u) {rr : ResolveResult}
    (hclean : rr.isWritable = false → Clean u) (h : Found M u rr) :
    Prog.Preserves (OnAim M S s vf vt) (copyUp M u rr) := by
  cases hrw : rr.isWritable with
  | true => exact copyUp_writable hrw
  | false =>
      have hkeep : (Copying (copyDest M u)).Keep fun d =>
          MarkersIn S d ∧ (Aiming M vf vt).Leads s.disk d :=
        fun _ _ hcall d hd => aiming_keep hM _ (Aiming.copies hu (hclean hrw) hcall) d hd
      exact OnAim.preserves (copyUp_hostOnly M u rr)
        (copyUp_keeps hM hkeep (fun _ hd => hd.1.links) h.1 h.2)

/-- **Copying a whole directory stays on the way.** -/
theorem deepCopyUp_onAim (hM : CleanMount M) (hbrings : BringsClean M vf vt s) :
    ∀ (depth : ℕ) {u : Path}, vf <+: u →
      Prog.Preserves (OnAim M S s vf vt) (deepCopyUp M depth u) := by
  intro depth
  induction depth with
  | zero => exact fun _ => Prog.Preserves.fail _
  | succ depth ih =>
      intro u hu w hw
      refine Prog.bind_ends (OnAim.look (resolve_agrees M u) w hw) fun rr w₁ hrun hw₁ => ?_
      cases hnone : rr.isNone with
      | true => exact hw₁
      | false =>
          refine Prog.Preserves.bind (copyUp_onAim hM hu (fun hrw => hw.clean hbrings hu hrun hnone hrw)
            (resolve_found u w rr w₁ hrun)) (fun _ => ?_) w₁ hw₁
          refine Prog.Preserves.bind (OnAim.look (hitIsDir_agrees false rr)) fun b =>
            Prog.Preserves.ite (fun _ => ?_) fun _ => Prog.Preserves.pure _
          exact Prog.Preserves.bind (OnAim.look (collectChildren_agrees M u)) fun children =>
            Prog.Preserves.forM fun c _ => ih (hu.trans (List.prefix_append u [c]))

theorem bringUp_onAim (hM : CleanMount M) (hbrings : BringsClean M vf vt s) {rr : ResolveResult}
    (hclean : rr.isWritable = false → Clean vf) (h : Found M vf rr) (isDir : Bool) :
    Prog.Preserves (OnAim M S s vf vt) (bringUp M vf rr isDir) :=
  Prog.Preserves.ite (fun _ => deepCopyUp_onAim hM hbrings _ (List.prefix_refl vf)) fun _ =>
    Prog.Preserves.ite (fun _ => Prog.Preserves.pure _)
      fun _ => copyUp_onAim hM (List.prefix_refl vf) hclean h

end Aim

end VidyaGodFS
