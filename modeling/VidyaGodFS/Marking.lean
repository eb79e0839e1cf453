/-
**The markers that an operation writes.**

A deletion leaves a marker behind for what it hides, and a directory made again one for itself.  The
calls that do this add entries where the markers' paths lead, and take markers away again; none of
this changes where paths without a marker's name lead, so each marker that is new stays the entry
that its path names.

Main definitions:

* `Op.markers`, `NamesEntry` — the markers that an operation may write, for a name it has deleted or
  a directory it makes again, and the entries they name;
* `Marked` — all markers on a disk are among those given, or are named by the paths given;
* `Marking` — the calls that write such markers, and take markers away;
* `Marks`, `MarksWhenDone` — the programs that make no other, and those that make them only if they
  succeed.

Main results:

* `marking_keep` — **writing markers makes no others**;
* `hideLower_marking`, `keptMarkOpaque_marking`, `unhideLower_marking` — the mask helpers are such
  programs;
* `Marks.bind`, `Marks.bind_marking` — first nothing is marked, then markers are written;
* `hideLower_marksWhenDone`, `keptMarkOpaque_marksWhenDone` — **a marker that could not be written was
  not.**
-/

import VidyaGodFS.Markers
import VidyaGodFS.Tidy

set_option relaxedAutoImplicit false
set_option autoImplicit false

namespace VidyaGodFS

open Posix

variable {M : Mount} {S : Path → Prop}

/-! ### The markers of an operation -/

variable (M) in
/-- The marker of the directory `v` that says it masks what is below it. -/
def opaquePath (v : Path) : HostPath :=
  match M.keptLayerFor v with
  | some L => (keptHost L (sourceRel L v)).join [opaqueName]
  | none => M.opaqueMarker v

variable (M) in
/-- `v` is deleted, and a directory made there is made again: the store that covers it says so. -/
def overDeleted (s : VfsState) (v : Path) : Bool :=
  match M.passthroughHost v with
  | some _ => keptHidden M s v
  | none => isWhiteouted M s v

variable (M) in
/-- The markers of the names that an operation, once it is `done`, has deleted or moved away. -/
def Op.deletionMarkers (done : Bool) : Op → List HostPath
  | .unlink v => if done then [markerPath M v] else []
  | .rmdir v =>
      if done then markerPath M v :: (if (keptRoot M v).isSome then [opaquePath M v] else []) else []
  | .rename vf _ => if done then [markerPath M vf] else []
  | _ => []

variable (M) in
/-- The marker of the directory that an operation makes, or moves, to a name deleted in `s`. -/
def Op.remadeMarkers (s : VfsState) : Op → List HostPath
  | .mkdir v _ => if overDeleted M s v then [opaquePath M v] else []
  | .rename _ vt => if keptHidden M s vt then [opaquePath M vt] else []
  | _ => []

variable (M) in
/-- **The markers that an operation may write**, started in `s`. -/
def Op.markers (s : VfsState) (done : Bool) (op : Op) : List HostPath :=
  op.deletionMarkers M done ++ op.remadeMarkers M s

/-- `q` is the entry that the host path `m` names, in the directory that is on its way. -/
def NamesEntry (d : Disk) (m : HostPath) (q : Path) : Prop :=
  ∃ p n, m = some (p ++ [n]) ∧ ∃ dir, d.find true (some p) = .ok dir ∧ q = dir ++ [n]

/-- The host path is a marker's, in a directory that is none. -/
def MarkerHost (m : HostPath) : Prop :=
  ∃ p n, m = some (p ++ [n]) ∧ Clean p ∧ isMarker n = true

theorem markerHost_nil : ∀ m ∈ ([] : List HostPath), MarkerHost m := nofun

theorem CleanHost.markerHost {p : HostPath} (hp : CleanHost p) {n : Name} (hn : isMarker n = true) :
    MarkerHost (p.join [n]) := by
  cases p with
  | some q => exact ⟨q, n, rfl, hp q rfl, hn⟩
  | none => exact ⟨[], n, rfl, clean_nil, hn⟩

theorem MarkerHost.parent {m : HostPath} (h : MarkerHost m) : CleanHost (m.map List.dropLast) := by
  obtain ⟨p, n, rfl, hp, -⟩ := h
  rintro _ ⟨⟩
  rwa [append_singleton_dropLast]

theorem whiteoutPath_marker (hM : CleanMount M) {v : Path} (hv : Clean v.dropLast) :
    MarkerHost (M.whiteoutPath v) := (hM.wlPath hv).markerHost (isMarker_mark _)

theorem keptMarker_marker (hM : CleanMount M) {v : Path} (hv : Clean v.dropLast) {L : Layer}
    (hL : M.keptLayerFor v = some L) (hroot : sourceRel L v ≠ []) :
    MarkerHost (keptMarker L (sourceRel L v)) := by
  obtain ⟨hmem, hkept⟩ := CleanMount.keptLayer hL
  have hrel : Clean (sourceRel L v).dropLast := by
    rcases (relUnder L v).eq_nil_or_concat' with hnil | ⟨u, n, hu⟩
    · rw [sourceRel, hnil, List.append_nil]
      exact (hM.subpath L hmem hkept).dropLast
    · rw [sourceRel, hu, ← List.append_assoc, append_singleton_dropLast]
      refine (hM.subpath L hmem hkept).append fun m hm => hv m ?_
      have hvu : v = v.take L.target.length ++ u ++ [n] := by
        rw [List.append_assoc, ← hu, relUnder, List.take_append_drop]
      rw [(congrArg List.dropLast hvu).trans (append_singleton_dropLast _ _)]
      exact List.mem_append_right _ hm
  rw [keptMarker, if_neg hroot]
  exact ((hM.source L hmem hkept).join hrel).markerHost (isMarker_mark _)

theorem markerPath_marker (hM : CleanMount M) {v : Path} (hv : Clean v.dropLast) :
    MarkerHost (markerPath M v) := by
  unfold markerPath
  cases hL : M.keptLayerFor v with
  | none => exact whiteoutPath_marker hM hv
  | some L =>
      dsimp only
      by_cases hroot : sourceRel L v = []
      · rw [if_pos hroot]
        exact whiteoutPath_marker hM hv
      · rw [if_neg hroot]
        exact keptMarker_marker hM hv hL hroot

theorem opaquePath_marker (hM : CleanMount M) {v : Path} (hv : Clean v) :
    MarkerHost (opaquePath M v) := by
  unfold opaquePath
  cases hL : M.keptLayerFor v with
  | none => exact (hM.wlPath hv).markerHost isMarker_opaqueName
  | some L =>
      obtain ⟨hmem, hkept⟩ := CleanMount.keptLayer hL
      exact ((hM.source L hmem hkept).join (hM.sourceRel hmem hkept hv)).markerHost
        isMarker_opaqueName

/-- A kept folder's own opaque marker lies in its source. -/
theorem opaquePath_root (hM : CleanMount M) {v : Path} (h : (keptRoot M v).isSome = true) :
    MarkerHost (opaquePath M v) := by
  obtain ⟨L, hL⟩ := Option.isSome_iff_exists.1 h
  obtain ⟨hkept, hroot⟩ := Option.filter_eq_some_iff.1 hL
  obtain ⟨hmem, hkept'⟩ := CleanMount.keptLayer hkept
  rw [opaquePath, hkept]
  dsimp only
  rw [of_decide_eq_true hroot]
  exact ((hM.source L hmem hkept').join clean_nil).markerHost isMarker_opaqueName

/-! ### Writing markers -/

/-- No link names a marker, and every entry with a marker's name is one of `S` or one that the paths
`ms` name. -/
structure Marked (S : Path → Prop) (ms : List HostPath) (d : Disk) : Prop where
  links : d.tree.LinksIn Unmarked
  markers : ∀ q, markerName q = true → d.tree.node q ≠ none → S q ∨ ∃ m ∈ ms, NamesEntry d m q

theorem MarkersIn.marked {d : Disk} (h : MarkersIn S d) (ms : List HostPath) : Marked S ms d :=
  ⟨h.links, fun q hq hthere => Or.inl (h.markers q hq hthere)⟩

/-- The calls that write the markers `ms`, and take markers away. -/
inductive Marking (ms : List HostPath) : Calls
  | mkdir (p : HostPath) (mode : ℕ) : CleanHost p → Marking ms (Disk.mkdir p mode)
  | mark (m : HostPath) (mode : ℕ) : m ∈ ms → Marking ms (Disk.open m markerFlags mode)
  | unmark (p : HostPath) : MarkerHost p → Marking ms (Disk.unlink p)

theorem NamesEntry.grows {d d' : Disk} {m : HostPath} {q : Path} (h : NamesEntry d m q)
    (hgrows : d.tree.Grows d'.tree) (hq : d.tree.node q ≠ none) : NamesEntry d' m q := by
  obtain ⟨p, n, hm, dir, hdir, rfl⟩ := h
  refine ⟨p, n, hm, dir, Disk.find_grows hgrows hdir ?_, rfl⟩
  obtain ⟨mode, hmode⟩ := d.tree.parent_dir dir n hq
  rw [hmode]
  exact Option.some_ne_none _

/-- A marker that is taken away makes no difference to what clean paths lead to. -/
theorem NamesEntry.erase {d d' : Disk} {ms : List HostPath} (hms : ∀ m ∈ ms, MarkerHost m)
    (hlinks : d.tree.LinksIn Unmarked) (halike : ∀ q, Clean q → d'.tree.node q = d.tree.node q)
    {m : HostPath} (hm : m ∈ ms) {q : Path} (h : NamesEntry d m q) : NamesEntry d' m q := by
  obtain ⟨p, n, rfl, dir, hdir, rfl⟩ := h
  obtain ⟨p', n', he, hp, -⟩ := hms _ hm
  obtain ⟨rfl, rfl⟩ := append_singleton_inj.1 (Option.some_inj.1 he)
  exact ⟨p, n, rfl, dir, (Tree.locate_named_alike hlinks hp halike).trans hdir, rfl⟩

/-- **Writing markers makes no others.** -/
theorem marking_keep {ms : List HostPath} (hms : ∀ m ∈ ms, MarkerHost m) :
    (Marking ms).Keep (Marked S ms) := by
  intro α call hcall d hd
  have hfailed : ∀ {β : Type} {r : Except Errno β × Disk}, Disk.Failed r d → Marked S ms r.2 := by
    rintro β r ⟨e, rfl⟩
    exact hd
  cases hcall with
  | mkdir p mode hp =>
      rcases Disk.mkdir_cases p mode d with hf | ⟨x, hx, hnone, -, hput, hi, hrun⟩
      · exact hfailed hf
      rw [hrun]
      refine ⟨hd.links.put hput nofun, fun q hq hthere => ?_⟩
      rw [Disk.put_tree, Tree.put_node] at hthere
      by_cases hqx : q = x
      · rw [hqx, markerName_of_clean (find_clean hd.links hp hx)] at hq
        cases hq
      · rw [if_neg hqx] at hthere
        refine (hd.markers q hq hthere).imp_right ?_
        rintro ⟨m, hm, hentry⟩
        exact ⟨m, hm, hentry.grows (Tree.grows_put hput hnone) hthere⟩
  | mark m mode hm =>
      rcases Disk.open_cases m markerFlags mode d with
        hf | ⟨x, hx, ⟨hnone, -, -, hput, hrun⟩ | ⟨i, -, hrun⟩ | ⟨-, hrun⟩⟩
      · exact hfailed hf
      · rw [hrun]
        refine ⟨hd.links.put hput nofun, fun q hq hthere => ?_⟩
        have hgrows : d.tree.Grows (d.addFile x mode hput).tree := Tree.grows_put hput hnone
        rw [Disk.addFile_tree, Tree.put_node] at hthere
        by_cases hqx : q = x
        · subst hqx
          obtain ⟨p, n, rfl, hp, -⟩ := hms m hm
          rcases Tree.locate_named_concat hd.links hp hx with hclean | ⟨dir, hdir, rfl⟩
          · rw [markerName_of_clean hclean] at hq
            cases hq
          · have hdir' : d.tree.IsDir dir := by
              have hpar := hput.2.1
              rwa [append_singleton_dropLast] at hpar
            exact Or.inr ⟨_, hm, p, n, rfl, dir, Disk.find_grows hgrows hdir hdir'.ne_none, rfl⟩
        · rw [if_neg hqx] at hthere
          refine (hd.markers q hq hthere).imp_right ?_
          rintro ⟨m', hm', hentry⟩
          exact ⟨m', hm', hentry.grows hgrows hthere⟩
      · rw [hrun]
        exact hd
      · rw [hrun]
        exact hd
  | unmark p hp =>
      rcases Disk.unlink_cases p d with hf | ⟨x, nd, hx, -, -, -, herase, hrun⟩
      · exact hfailed hf
      rw [hrun]
      have hmark : markerName x = true := by
        obtain ⟨p, n, rfl, -, hn⟩ := hp
        obtain ⟨dir, -, rfl⟩ := Tree.locate_concat hx
        rwa [markerName, baseName, List.getLastD_concat]
      have halike : ∀ q, Clean q → (d.erase x herase).tree.node q = d.tree.node q := by
        intro q hq
        rw [Disk.erase_tree, Tree.erase_node, if_neg]
        rintro rfl
        rw [markerName_of_clean hq] at hmark
        cases hmark
      refine ⟨hd.links.erase herase, fun q hq hthere => ?_⟩
      have hthere' : d.tree.node q ≠ none := by
        intro hnone
        rw [Disk.erase_tree, Tree.erase_node, hnone, ite_self] at hthere
        exact hthere rfl
      refine (hd.markers q hq hthere').imp_right ?_
      rintro ⟨m, hm, hentry⟩
      exact ⟨m, hm, hentry.erase hms hd.links halike hm⟩

section

variable {ms : List HostPath} {v : Path}

theorem touchMarker_marking {m : HostPath} (hm : m ∈ ms) (hmark : MarkerHost m) :
    Within (Marking ms) (touchMarker m) :=
  Within.bind (createDirectories_within fun _ _ hq => Marking.mkdir _ _ (hq.clean hmark.parent))
    fun _ => Within.bind (Within.act (Marking.mark _ _ hm)) fun _ => Within.pure _

theorem createWhiteout_marking (hM : CleanMount M) (hv : Clean v.dropLast)
    (hm : M.whiteoutPath v ∈ ms) : Within (Marking ms) (createWhiteout M v) :=
  Within.ite (fun _ => Within.pure _) fun _ =>
    Within.bind (Within.ignoring (createDirectories_within fun _ _ hq =>
      Marking.mkdir _ _ (hq.clean (hM.wlPath hv)))) fun _ =>
    Within.bind (Within.ignoring (Within.act (Marking.mark _ _ hm))) fun _ => Within.mutate fun _ => rfl

theorem hideLower_marking (hM : CleanMount M) (hv : Clean v.dropLast) (hm : markerPath M v ∈ ms) :
    Within (Marking ms) (hideLower M v) := by
  unfold markerPath at hm
  unfold hideLower
  cases hL : M.keptLayerFor v with
  | none =>
      rw [hL] at hm
      exact createWhiteout_marking hM hv hm
  | some L =>
      rw [hL] at hm
      dsimp only at hm
      refine Within.ite (fun hroot => ?_) fun hroot => ?_
      · rw [if_pos hroot] at hm
        exact createWhiteout_marking hM hv hm
      · rw [if_neg hroot] at hm
        exact Within.bind (touchMarker_marking hm (keptMarker_marker hM hv hL hroot)) fun _ =>
          mutateKept_within _ _

theorem markOpaque_marking (hm : opaquePath M v ∈ ms) (hnone : M.keptLayerFor v = none) :
    Within (Marking ms) (markOpaque M v) := by
  rw [opaquePath, hnone] at hm
  exact Within.ite (fun _ => Within.pure _) fun _ =>
    Within.bind (Within.ignoring (Within.act (Marking.mark _ _ hm))) fun _ => Within.mutate fun _ => rfl

theorem keptMarkOpaque_marking (hm : opaquePath M v ∈ ms) (hmark : MarkerHost (opaquePath M v)) :
    Within (Marking ms) (keptMarkOpaque M v) := by
  unfold opaquePath at hm hmark
  unfold keptMarkOpaque
  cases hL : M.keptLayerFor v with
  | none => exact Within.fail _
  | some L =>
      rw [hL] at hm hmark
      exact Within.bind (touchMarker_marking hm hmark) fun _ => mutateKept_within _ _

theorem unhideLower_marking (hM : CleanMount M) (hv : Clean v.dropLast) :
    Within (Marking ms) (unhideLower M v) := by
  refine Within.bind ?_ fun _ => Within.ite (fun _ => Within.pure _) fun _ =>
    Within.bind (Within.ignoring (Within.act (Marking.unmark _ (whiteoutPath_marker hM hv))))
      fun _ => Within.mutate fun _ => rfl
  unfold unhideKept
  cases hL : M.keptLayerFor v with
  | none => exact Within.pure _
  | some L =>
      exact Within.bind (Within.look (Agrees.see _)) fun deleted =>
        Within.ite (fun h => Within.bind (toleratingEnoent_within
            (Within.act (Marking.unmark _ (keptMarker_marker hM hv hL h.1)))) fun _ =>
              mutateKept_within _ _)
          fun _ => Within.pure _

end

/-! ### Programs that mark -/

/-- Started where all markers are among `S`, the program leaves only these and those that `ms`
name. -/
def Marks (S : Path → Prop) (ms : List HostPath) {α : Type} (m : Prog World Errno α) : Prop :=
  ∀ w, MarkersIn S w.state.disk → Marked S ms (m w).2.state.disk

namespace Marks

variable {α β : Type} {ms : List HostPath}

theorem of_tidy {m : Prog World Errno α} (h : MarksNothing S m) : Marks S ms m :=
  fun w hw => (h w hw).marked ms

theorem of_marking (hms : ∀ m ∈ ms, MarkerHost m) {m : Prog World Errno α}
    (h : Within (Marking ms) m) : Marks S ms m :=
  fun w hw => h _ (marking_keep hms) w (hw.marked ms)

/-- First nothing is marked. -/
theorem bind {m : Prog World Errno α} {f : α → Prog World Errno β} (hm : MarksNothing S m)
    (hf : ∀ a, Marks S ms (f a)) : Marks S ms (m >>= f) := by
  intro w hw
  have hw' := hm w hw
  refine Prog.bind_ends (I := fun w : World => Marked S ms w.state.disk) (hw'.marked ms) fun a w' h _ => ?_
  rw [h] at hw'
  exact hf a w' hw'

/-- Then markers are written, and taken away. -/
theorem bind_marking (hms : ∀ m ∈ ms, MarkerHost m) {m : Prog World Errno α}
    {f : α → Prog World Errno β} (hm : Marks S ms m) (hf : ∀ a, Within (Marking ms) (f a)) :
    Marks S ms (m >>= f) := fun w hw =>
  Prog.bind_ends (hm w hw) fun a w' _ hw' => hf a _ (marking_keep hms) w' hw'

theorem ite {c : Prop} [Decidable c] {m m' : Prog World Errno α} (h : c → Marks S ms m)
    (h' : ¬ c → Marks S ms m') : Marks S ms (if c then m else m') := by
  by_cases hc : c
  · rw [if_pos hc]
    exact h hc
  · rw [if_neg hc]
    exact h' hc

end Marks

/-! ### Markers of what is done -/

/-- **The program writes the markers `ms` if it succeeds**, and none if it fails; those of `base` were
written before. -/
abbrev MarksWhenDone (S : Path → Prop) (base ms : List HostPath) {α : Type}
    (m : Prog World Errno α) : Prop :=
  Prog.Triple (fun w => Marked S base w.state.disk) m (fun _ w => Marked S (ms ++ base) w.state.disk)
    (fun _ w => Marked S base w.state.disk)

theorem Marked.more {base ms : List HostPath} {d : Disk} (h : Marked S base d)
    (hsub : ∀ m ∈ base, m ∈ ms) : Marked S ms d :=
  ⟨h.links, fun q hq hthere => (h.markers q hq hthere).imp_right fun ⟨m, hm, hq⟩ => ⟨m, hsub m hm, hq⟩⟩

theorem Marked.markersIn {d : Disk} (h : Marked S [] d) : MarkersIn S d :=
  ⟨h.links, fun q hq hthere => (h.markers q hq hthere).resolve_right nofun⟩

namespace MarksWhenDone

variable {α β : Type} {base ms : List HostPath} {v : Path}

theorem of_preserves {m : Prog World Errno α}
    (h : Prog.Preserves (fun w => Marked S base w.state.disk) m) : MarksWhenDone S base [] m := by
  intro w hw
  have hpost := h w hw
  rcases hm : m w with ⟨e | a, w'⟩
  · rw [hm] at hpost
    exact hpost
  · rw [hm] at hpost
    exact hpost

theorem of_marking (hbase : ∀ m ∈ base, MarkerHost m) {m : Prog World Errno α}
    (h : Within (Marking base) m) : MarksWhenDone S base [] m :=
  of_preserves (h _ (marking_keep hbase))

theorem of_tidy {m : Prog World Errno α} (h : MarksNothing S m) : MarksWhenDone S [] [] m :=
  of_preserves fun w hw => (h w hw.markersIn).marked []

/-- What may be written need not be. -/
theorem more {ms' : List HostPath} {m : Prog World Errno α} (h : MarksWhenDone S base ms m)
    (hsub : ∀ m ∈ ms, m ∈ ms') : MarksWhenDone S base ms' m :=
  Prog.Triple.conseq h (fun _ hw => hw) (fun _ _ hw => hw.more fun m hm =>
    List.mem_append.2 ((List.mem_append.1 hm).imp_left (hsub m))) fun _ _ hw => hw

/-- What is marked in the end. -/
theorem marked {m : Prog World Errno α} (h : MarksWhenDone S base ms m) (w : World)
    (hw : Marked S base w.state.disk) :
    Marked S ((if (m w).1.isOk then ms else []) ++ base) (m w).2.state.disk := by
  have hpost := h w hw
  rcases hm : m w with ⟨e | a, w'⟩
  · rw [hm] at hpost
    exact hpost
  · rw [hm] at hpost
    exact hpost

/-- First nothing is marked. -/
theorem bind {m : Prog World Errno α} {f : α → Prog World Errno β} (hm : MarksWhenDone S base [] m)
    (hf : ∀ a, MarksWhenDone S base ms (f a)) : MarksWhenDone S base ms (m >>= f) :=
  Prog.Triple.bind hm hf

theorem ite {c : Prop} [Decidable c] {m m' : Prog World Errno α} (h : c → MarksWhenDone S base ms m)
    (h' : ¬ c → MarksWhenDone S base ms m') : MarksWhenDone S base ms (if c then m else m') := by
  by_cases hc : c
  · rw [if_pos hc]
    exact h hc
  · rw [if_neg hc]
    exact h' hc

/-- What cannot fail may follow. -/
theorem bind_total {m : Prog World Errno α} {f : α → Prog World Errno β}
    (hms : ∀ m ∈ ms ++ base, MarkerHost m) (hm : MarksWhenDone S base ms m)
    (hf : ∀ a, Within (Marking (ms ++ base)) (f a)) (htotal : ∀ a w, ∃ b w', f a w = (.ok b, w')) :
    MarksWhenDone S base ms (m >>= f) := by
  refine Prog.Triple.bind hm fun a w hw => ?_
  have hpost := hf a _ (marking_keep hms) w hw
  obtain ⟨b, w', hrun⟩ := htotal a w
  rw [hrun] at hpost ⊢
  exact hpost

end MarksWhenDone

section

variable {base : List HostPath} {v : Path}

/-- What could not be opened was not made. -/
theorem open_refused {p : HostPath} {fl : OpenFlags} {mode : ℕ} {w w' : World} {e : Errno}
    (h : act (Disk.open p fl mode) w = (.error e, w')) : w'.state.disk = w.state.disk := by
  unfold act at h
  cases hf : w.fate 0 with
  | some e' =>
      rw [hf] at h
      obtain rfl := (Prod.mk.inj h).2
      rfl
  | none =>
      rw [hf] at h
      dsimp only at h
      obtain ⟨herr, rfl⟩ := Prod.mk.inj h
      rcases Disk.open_cases p fl mode w.state.disk with
        ⟨e', hf⟩ | ⟨q, -, ⟨-, -, -, hput, hrun⟩ | ⟨i, -, hrun⟩ | ⟨-, hrun⟩⟩
      · exact congrArg Prod.snd hf
      all_goals
        rw [hrun] at herr
        cases herr

theorem touchMarker_marksWhenDone {m : HostPath} (hbase : ∀ m' ∈ base, MarkerHost m')
    (hmark : MarkerHost m) : MarksWhenDone S base [m] (touchMarker m) := by
  have hms : ∀ m' ∈ [m] ++ base, MarkerHost m' := by
    intro m' hm'
    rcases List.mem_cons.1 hm' with rfl | hm'
    · exact hmark
    · exact hbase m' hm'
  refine MarksWhenDone.bind (MarksWhenDone.of_marking hbase (createDirectories_within fun _ _ hq =>
    Marking.mkdir _ _ (hq.clean hmark.parent))) fun _ => Prog.Triple.bind ?_ fun _ =>
      Prog.Triple.pure fun _ hw => hw
  intro w hw
  rcases hopen : act (Disk.open m markerFlags 0o644) w with ⟨e | h, w'⟩
  · rw [markerFlags] at hopen
    rw [hopen]
    change Marked S base w'.state.disk
    rw [open_refused hopen]
    exact hw
  · have hpost := Within.act (Marking.mark m 0o644 (List.mem_cons_self (l := base))) _
      (marking_keep hms) w (hw.more fun _ => List.mem_cons_of_mem _)
    rw [hopen] at hpost
    rw [markerFlags] at hopen
    rw [hopen]
    exact hpost

theorem mutateKept_total (i : ℕ) (f : KeptMasks → KeptMasks) (w : World) :
    ∃ b w', mutateKept i f w = (.ok b, w') := ⟨_, _, rfl⟩

theorem createWhiteout_total (w : World) : ∃ b w', createWhiteout M v w = (.ok b, w') := by
  unfold createWhiteout
  split
  · exact ⟨_, _, rfl⟩
  · exact ⟨_, _, rfl⟩

theorem createWhiteout_marksWhenDone (hM : CleanMount M) (hv : Clean v.dropLast)
    (hbase : ∀ m ∈ base, MarkerHost m) :
    MarksWhenDone S base [M.whiteoutPath v] (createWhiteout M v) := by
  have hms : ∀ m ∈ [M.whiteoutPath v] ++ base, MarkerHost m := by
    intro m hm
    rcases List.mem_cons.1 hm with rfl | hm
    · exact whiteoutPath_marker hM hv
    · exact hbase m hm
  have hbind := MarksWhenDone.bind_total (S := S) hms
    ((MarksWhenDone.of_preserves (Prog.Preserves.pure ())).more nofun)
    (fun _ => createWhiteout_marking hM hv List.mem_cons_self) fun _ => createWhiteout_total
  rwa [Prog.pure_bind] at hbind

/-- **A deletion that could not be recorded has written no marker.** -/
theorem hideLower_marksWhenDone (hM : CleanMount M) (hv : Clean v.dropLast)
    (hbase : ∀ m ∈ base, MarkerHost m) : MarksWhenDone S base [markerPath M v] (hideLower M v) := by
  have hmark := markerPath_marker hM hv
  unfold markerPath at hmark ⊢
  unfold hideLower
  cases hL : M.keptLayerFor v with
  | none => exact createWhiteout_marksWhenDone hM hv hbase
  | some L =>
      rw [hL] at hmark
      dsimp only at hmark ⊢
      by_cases hroot : sourceRel L v = []
      · rw [if_pos hroot, if_pos hroot]
        exact createWhiteout_marksWhenDone hM hv hbase
      · rw [if_neg hroot, if_neg hroot]
        rw [if_neg hroot] at hmark
        refine MarksWhenDone.bind_total ?_ (touchMarker_marksWhenDone hbase hmark)
          (fun _ => mutateKept_within _ _) fun _ => mutateKept_total _ _
        intro m hm
        rcases List.mem_cons.1 hm with rfl | hm
        · exact hmark
        · exact hbase m hm

/-- **A marker that could not be written was not.** -/
theorem keptMarkOpaque_marksWhenDone (hmark : MarkerHost (opaquePath M v))
    (hbase : ∀ m ∈ base, MarkerHost m) :
    MarksWhenDone S base [opaquePath M v] (keptMarkOpaque M v) := by
  unfold opaquePath at hmark ⊢
  unfold keptMarkOpaque
  cases hL : M.keptLayerFor v with
  | none => exact Prog.Triple.fail fun _ hw => hw
  | some L =>
      rw [hL] at hmark
      refine MarksWhenDone.bind_total ?_ (touchMarker_marksWhenDone hbase hmark)
        (fun _ => mutateKept_within _ _) fun _ => mutateKept_total _ _
      intro m hm
      rcases List.mem_cons.1 hm with rfl | hm
      · exact hmark
      · exact hbase m hm

end

end VidyaGodFS
