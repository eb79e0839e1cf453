/-
**Where the markers of a kept folder come from.**

On the next mount every name that starts like a marker's is read as one, so it matters who made it.
Five operations refuse such a name under a kept folder; they look at the last name of their argument
only.  What is copied up goes unchecked, and so do the directories on the way, and what a directory
brings along that is moved in from the writelayer.  This module follows the markers through a run,
and says of each where it comes from: a deletion, a directory made again, or a move.

Main definitions:

* `NameFresh`, `CopiesClean` — what is made, and what is copied up, has no marker's name;
* `Moves`, `TakesNone` — what an operation moves where, and that it moves none of those given;
* `NamesNoMarker` — the operations that bring no marker's name in;
* `earnedAfter`, `Traced` — the markers that come from a deletion, followed through a run.

Main results:

* `exec_marked` — **what such an operation leaves behind with a marker's name was there before, is a
  marker it wrote for a name it deleted or a directory it made again, or was moved**;
* `only_deletions_mark` — **in a run of such operations only deletions put markers into a folder**,
  and the next mount reads no others;
* `package_name_marks` — a package's file, opened for writing, that hides another on the next mount.
-/

import VidyaGodFS.Contained
import VidyaGodFS.KeptFolders
import VidyaGodFS.Marking

set_option relaxedAutoImplicit false
set_option autoImplicit false

namespace VidyaGodFS

open Posix

variable {M : Mount} {S : Path → Prop}

/-! ### Operations that make a name, or change a file -/

variable (M) in
/-- `v` can be made without a marker's name: none is on the way to it, and it has none itself, or a
kept folder refuses it. -/
def NameFresh (v : Path) : Prop :=
  Clean v.dropLast ∧ (M.passthroughHost v = none → markerName v = false)

variable (M) in
/-- What is copied up for `v` has no marker's name. -/
def CopiesClean (v : Path) (s : VfsState) : Prop := UnwritableAt M s v → Clean v

theorem CopiesClean.of_hit {v : Path} {w w₁ : World} (h : CopiesClean M v w.state)
    {rr : ResolveResult}
    (hrun : (resolve M v : Prog World Errno ResolveResult) w = (.ok rr, w₁))
    (hsome : ¬ rr.isNone = true) (hrw : rr.isWritable = false) : Clean v :=
  h ⟨w.fate, w.blind, rr, w₁, hrun, by simpa using hsome, hrw⟩

section

variable {v : Path}

theorem NameFresh.clean (h : NameFresh M v) (hname : ¬ markerName v = true) :
    Clean v := clean_of_dropLast h.1 (by simpa using hname)

theorem NameFresh.clean_of_none (h : NameFresh M v) (hnone : M.passthroughHost v = none) : Clean v :=
  clean_of_dropLast h.1 (h.2 hnone)

theorem vfsCreate_tidy (hM : CleanMount M) (hv : NameFresh M v) (mode : ℕ) (flags : OpenFlags) :
    Within Tidy (vfsCreate M v mode flags) := by
  refine Within.ite (fun _ => Within.fail _) fun _ => ?_
  cases hhost : M.passthroughHost v with
  | some host =>
      refine Within.ite (fun _ => Within.fail _) fun hname => ?_
      have hclean := hM.passthrough (hv.clean hname) hhost
      exact Within.bind (ensureHostParent_tidy hclean) fun _ =>
        Within.bind (Within.act (Tidy.open_ _ _ _ fun _ => hclean)) fun h =>
        Within.bind (Within.ignoring (unhideLower_drops v).tidy_of_drops) fun _ => Within.pure _
  | none =>
      have hclean := hv.clean_of_none hhost
      exact Within.bind (removeWhiteout_drops v).tidy_of_drops fun _ =>
        Within.bind (ensureWriteParent_tidy hM hv.1) fun _ =>
        Within.bind (Within.act (Tidy.open_ _ _ _ fun _ => hM.wlPath hclean)) fun h => Within.pure _

theorem vfsSymlink_tidy (hM : CleanMount M) (hv : NameFresh M v) {target : String}
    (ht : CleanTarget target) : Within Tidy (vfsSymlink M target v) := by
  refine Within.ite (fun _ => Within.fail _) fun _ => ?_
  cases hhost : M.passthroughHost v with
  | some host =>
      refine Within.ite (fun _ => Within.fail _) fun hname => ?_
      have hclean := hM.passthrough (hv.clean hname) hhost
      exact Within.bind (ensureHostParent_tidy hclean) fun _ =>
        Within.bind (Within.act (Tidy.symlink _ _ ht hclean)) fun _ =>
        Within.ignoring (unhideLower_drops v).tidy_of_drops
  | none =>
      exact Within.bind (removeWhiteout_drops v).tidy_of_drops fun _ =>
        Within.bind (ensureWriteParent_tidy hM hv.1) fun _ =>
        Within.act (Tidy.symlink _ _ ht (hM.wlPath (hv.clean_of_none hhost)))

theorem linkTo_tidy (hM : CleanMount M) {vt : Path} (hvt : NameFresh M vt) (vf : Path)
    (rr : ResolveResult) : Within Tidy (linkTo M vf vt rr) := by
  unfold linkTo
  cases hhost : M.passthroughHost vt with
  | some dst =>
      refine Within.ite (fun _ => Within.fail _) fun hname => ?_
      have hclean := hM.passthrough (hvt.clean hname) hhost
      exact Within.bind (ensureHostParent_tidy hclean) fun _ => Within.act (Tidy.link _ _ hclean)
  | none =>
      exact Within.bind (ensureWriteParent_tidy hM hvt.1) fun _ =>
        Within.act (Tidy.link _ _ (hM.wlPath (hvt.clean_of_none hhost)))

/-- What starts with a lookup. -/
theorem resolve_bind_marked {α : Type} {ms : List HostPath} {f : ResolveResult → Prog World Errno α}
    {w : World} (hw : MarkersIn S w.state.disk)
    (h : ∀ rr w₁, (resolve M v : Prog World Errno ResolveResult) w = (.ok rr, w₁) →
      Found M v rr → Marks S ms (f rr)) :
    Marked S ms ((resolve M v >>= f) w).2.state.disk := by
  obtain ⟨rr, w₁, hrun, hstate, -⟩ := (resolve_agrees M v).total w
  rw [Prog.bind_of_ok hrun]
  refine h rr w₁ hrun (resolve_found v w rr w₁ hrun) w₁ ?_
  rw [hstate]
  exact hw

theorem vfsLink_marked (hM : CleanMount M) {vf vt : Path} {w : World} (hvf : CopiesClean M vf w.state)
    (hvt : NameFresh M vt) (hw : MarkersIn S w.state.disk) :
    Marked S [] (vfsLink M vf vt w).2.state.disk := by
  unfold vfsLink
  by_cases hro : M.readOnly = true
  · rw [if_pos hro]
    exact hw.marked []
  rw [if_neg hro]
  refine resolve_bind_marked hw fun rr w₁ hrun hrr => Marks.of_tidy ?_
  refine Prog.Preserves.ite (fun _ => Prog.Preserves.fail _) fun hsome =>
    Prog.Preserves.ite (fun _ => Prog.Preserves.fail _) fun _ =>
    Prog.Preserves.bind (Within.look (resolve_agrees M vt)).marksNothing fun _ =>
    Prog.Preserves.ite (fun _ => Prog.Preserves.fail _) fun _ =>
    Prog.Preserves.bind (makeWritable_marksNothing hM (hvf.of_hit hrun hsome) hrr.1 hrr.2) fun _ =>
    Prog.Preserves.bind (linkTo_tidy hM hvt vf rr).marksNothing fun _ =>
    (Within.ignoring (unhideLower_drops vt).tidy_of_drops).marksNothing

theorem vfsOpen_marked (hM : CleanMount M) {flags : OpenFlags} (hflags : flags.creat = false)
    {w : World} (hv : CopiesClean M v w.state) (hw : MarkersIn S w.state.disk) :
    Marked S [] (vfsOpen M v flags w).2.state.disk := by
  have hopen : ∀ host, Within Tidy (act (Disk.open host flags 0) : Prog World Errno Handle) :=
    fun host => Within.act (Tidy.open_ _ _ _ fun h => absurd (hflags.symm.trans h) nofun)
  refine resolve_bind_marked hw fun rr w₁ hrun hrr => Marks.of_tidy ?_
  refine Prog.Preserves.ite (fun _ => Prog.Preserves.fail _) fun hsome =>
    Prog.Preserves.bind (Within.look (hitIsDir_agrees true rr)).marksNothing fun isDir =>
    Prog.Preserves.ite (fun _ => Prog.Preserves.ite (fun _ => Prog.Preserves.fail _)
      fun _ => Prog.Preserves.pure _) fun _ => Prog.Preserves.ite
      (fun _ => Prog.Preserves.ite (fun _ => Prog.Preserves.fail _) fun _ => ?_) fun _ => ?_
  · exact Prog.Preserves.bind (makeWritable_marksNothing hM (hv.of_hit hrun hsome) hrr.1 hrr.2) fun _ =>
      (Within.bind (hopen _) fun h => Within.pure _).marksNothing
  · have hhost : Within Tidy (do
        let h ← act (Disk.open rr.hostPath flags 0)
        pure (some (OpenFile.host h)) : Prog World Errno (Option OpenFile)) :=
      Within.bind (hopen _) fun h => Within.pure _
    refine Within.marksNothing ?_
    unfold openForRead
    cases rr with
    | zipEntry L Z e =>
        cases e with
        | none => exact hhost
        | some e =>
            dsimp only
            cases openZipEntry Z e with
            | error err => exact Within.fail err
            | ok zr => exact Within.pure _
    | _ => exact hhost

/-- A change of a file's content or mode, once it is writable. -/
theorem writable_marked (hM : CleanMount M) {call : HostPath → Call Unit}
    (hcall : ∀ host, Tidy (call host)) {w : World} (hv : CopiesClean M v w.state)
    (hw : MarkersIn S w.state.disk) :
    Marked S [] ((do
      let rr ← resolve M v
      if rr.isNone then Prog.fail .enoent
      else do
        makeWritable M v rr
        act (call (writeHost M v rr)) : Prog World Errno Unit) w).2.state.disk := by
  refine resolve_bind_marked hw fun rr w₁ hrun hrr => Marks.of_tidy ?_
  exact Prog.Preserves.ite (fun _ => Prog.Preserves.fail _) fun hsome =>
    Prog.Preserves.bind (makeWritable_marksNothing hM (hv.of_hit hrun hsome) hrr.1 hrr.2) fun _ =>
      (Within.act (hcall _)).marksNothing

theorem vfsTruncate_marked (hM : CleanMount M) {w : World} (hv : CopiesClean M v w.state)
    (file : Option OpenFile) (size : ℕ) (hw : MarkersIn S w.state.disk) :
    Marked S [] (vfsTruncate M v file size w).2.state.disk := by
  unfold vfsTruncate
  by_cases hro : M.readOnly = true
  · rw [if_pos hro]
    exact hw.marked []
  rw [if_neg hro]
  have hpath := writable_marked hM (fun host => Tidy.truncate host size) hv hw
  rcases file with _ | ⟨h⟩ | zr
  · exact hpath
  · exact Marks.of_tidy (Within.act (Tidy.ftruncate _ _)).marksNothing w hw
  · exact hpath

theorem vfsChmod_marked (hM : CleanMount M) {w : World} (hv : CopiesClean M v w.state) (mode : ℕ)
    (hw : MarkersIn S w.state.disk) : Marked S [] (vfsChmod M v mode w).2.state.disk := by
  unfold vfsChmod
  by_cases hro : M.readOnly = true
  · rw [if_pos hro]
    exact hw.marked []
  · rw [if_neg hro]
    exact writable_marked hM (fun host => Tidy.chmod host mode) hv hw

theorem vfsWrite_tidy (file : OpenFile) (bs : Bytes) (off : ℕ) :
    Within Tidy (vfsWrite M file bs off) := by
  refine Within.ite (fun _ => Within.fail _) fun _ => ?_
  cases file with
  | zip zr => exact Within.fail _
  | host h => exact Within.act (Tidy.pwrite _ _ _)

/-! ### Deletions -/

theorem hideRest_marksWhenDone (hM : CleanMount M) (hv : Clean v.dropLast) {base : List HostPath}
    (hbase : ∀ m ∈ base, MarkerHost m) {otherwise : Prog World Errno Unit}
    (h : Within (Marking base) otherwise) :
    MarksWhenDone S base [markerPath M v] (hideRest M v (hideLower M v) otherwise) :=
  MarksWhenDone.bind (MarksWhenDone.of_marking hbase (Within.look (resolve_agrees M v))) fun _ =>
    MarksWhenDone.ite (fun _ => (MarksWhenDone.of_marking hbase h).more nofun)
      fun _ => hideLower_marksWhenDone hM hv hbase

theorem toleratingEnoent_tidy {m : Prog World Errno Unit} (h : Within Tidy m) :
    MarksNothing S (toleratingEnoent m) := (toleratingEnoent_within h).marksNothing

theorem vfsUnlink_marksWhenDone (hM : CleanMount M) (hv : Clean v.dropLast) :
    MarksWhenDone S [] [markerPath M v] (vfsUnlink M v) := by
  refine MarksWhenDone.ite (fun _ => Prog.Triple.fail fun _ hw => hw) fun _ => ?_
  cases hhost : M.passthroughHost v with
  | some host =>
      exact MarksWhenDone.bind
        (MarksWhenDone.of_tidy (toleratingEnoent_tidy (Within.act (Tidy.unlink _)))) fun had =>
          hideRest_marksWhenDone hM hv markerHost_nil (noneLeft_within had)
  | none =>
      have hcopy : MarksNothing S (unlinkWriteCopy M v) :=
        Prog.Preserves.ite (fun _ => Prog.Preserves.pure _) fun _ =>
          Prog.Preserves.bind (toleratingEnoent_tidy (Within.act (Tidy.unlink _)))
            fun _ => Prog.Preserves.pure _
      refine MarksWhenDone.bind (MarksWhenDone.of_tidy hcopy) fun _ => ?_
      rw [← hideLower_of_none (keptLayerFor_none hhost)]
      exact hideRest_marksWhenDone hM hv markerHost_nil (Within.pure _)

theorem removeWriteDir_tidy (v : Path) : Within Tidy (removeWriteDir M v) :=
  Within.ite (fun _ => Within.pure _) fun _ =>
    Within.bind (Within.look (lookDir_agrees _)) fun names =>
    Within.bind (sweepMarkers_drops v names).tidy_of_drops fun _ =>
    Within.ignoring (Within.act (Tidy.rmdir _))

theorem vfsRmdir_marksWhenDone (hM : CleanMount M) (hv : Clean v.dropLast) :
    MarksWhenDone S [] ((Op.rmdir v).deletionMarkers M true) (vfsRmdir M v) := by
  have hhide : ∀ m ∈ [markerPath M v], m ∈ (Op.rmdir v).deletionMarkers M true := by
    intro m hm
    rw [List.mem_singleton.1 hm]
    exact List.mem_cons_self
  refine MarksWhenDone.ite (fun _ => Prog.Triple.fail fun _ hw => hw) fun _ =>
    MarksWhenDone.bind (MarksWhenDone.of_tidy
      (Within.look (collectChildren_agrees M v)).marksNothing) fun children =>
    MarksWhenDone.ite (fun _ => Prog.Triple.fail fun _ hw => hw) fun _ => ?_
  cases hhost : M.passthroughHost v with
  | some host =>
      refine MarksWhenDone.bind (MarksWhenDone.of_tidy
        (keptDropMarkersUnder_drops v).tidy_of_drops.marksNothing) fun _ =>
        MarksWhenDone.ite (fun hroot => ?_) fun _ => ?_
      · -- the folder's own root: emptied, and hidden in the writelayer
        have hopq := opaquePath_root hM hroot
        have hms : ∀ m ∈ (Op.rmdir v).deletionMarkers M true, MarkerHost m := by
          intro m hm
          rw [Op.deletionMarkers, if_pos rfl, if_pos hroot] at hm
          rcases List.mem_cons.1 hm with rfl | hm
          · exact markerPath_marker hM hv
          · rw [List.mem_singleton.1 hm]
            exact hopq
        refine MarksWhenDone.bind_total (by rwa [List.append_nil])
          ((keptMarkOpaque_marksWhenDone hopq markerHost_nil).more fun m hm => ?_) (fun _ => ?_)
          fun _ => createWhiteout_total
        · rw [List.mem_singleton.1 hm, Op.deletionMarkers, if_pos rfl, if_pos hroot]
          exact List.mem_cons_of_mem _ (List.mem_singleton_self _)
        · rw [← hideLower_of_root hroot, List.append_nil]
          exact hideLower_marking hM hv (hhide _ (List.mem_singleton_self _))
      · exact MarksWhenDone.bind (MarksWhenDone.of_tidy
          (toleratingEnoent_tidy (Within.act (Tidy.rmdir _)))) fun had =>
            (hideRest_marksWhenDone hM hv markerHost_nil (noneLeft_within had)).more hhide
  | none =>
      refine MarksWhenDone.bind (MarksWhenDone.of_tidy (removeWriteDir_tidy v).marksNothing)
        fun _ => ?_
      rw [← hideLower_of_none (keptLayerFor_none hhost)]
      exact (hideRest_marksWhenDone hM hv markerHost_nil (Within.pure _)).more hhide

/-! ### Directories made again -/

theorem startEmpty_marks {ms : List HostPath} (hms : ∀ m ∈ ms, MarkerHost m)
    (hm : opaquePath M v ∈ ms) (host : HostPath) : Marks S ms (startEmpty M v host) := by
  intro w hw
  have hpost := keptMarkOpaque_marksWhenDone (hms _ hm) markerHost_nil w (hw.marked [])
  unfold startEmpty
  rw [Prog.bind_of_ok (Prog.attempt_apply _ _)]
  rcases hrun : keptMarkOpaque M v w with ⟨e | u, w'⟩
  · rw [hrun] at hpost
    exact Marks.of_tidy (Within.bind (Within.ignoring (Within.act (Tidy.rmdir host)))
      fun _ => Within.fail e).marksNothing w' (Marked.markersIn hpost)
  · rw [hrun] at hpost
    refine Marked.more hpost fun m hm' => ?_
    rwa [List.mem_singleton.1 hm']

/-- **Making a directory marks it if it is made again.** -/
theorem vfsMkdir_marked (hM : CleanMount M) (hv : NameFresh M v) (mode : ℕ) {w : World}
    (hw : MarkersIn S w.state.disk) :
    Marked S ((Op.mkdir v mode).remadeMarkers M w.state) (vfsMkdir M v mode w).2.state.disk := by
  have hms : Clean v → ∀ m ∈ (Op.mkdir v mode).remadeMarkers M w.state, MarkerHost m := by
    intro hclean m hm
    rw [Op.remadeMarkers] at hm
    split at hm
    · rw [List.mem_singleton.1 hm]
      exact opaquePath_marker hM hclean
    · cases hm
  have hm : overDeleted M w.state v = true →
      opaquePath M v ∈ (Op.mkdir v mode).remadeMarkers M w.state := by
    intro hover
    rw [Op.remadeMarkers, if_pos hover]
    exact List.mem_singleton_self _
  unfold vfsMkdir
  by_cases hro : M.readOnly = true
  · rw [if_pos hro]
    exact hw.marked _
  rw [if_neg hro]
  cases hhost : M.passthroughHost v with
  | some host =>
      dsimp only
      by_cases hname : markerName v = true
      · rw [if_pos hname]
        exact hw.marked _
      rw [if_neg hname, see_bind]
      have hclean := hv.clean hname
      have hover : keptHidden M w.state v = overDeleted M w.state v := by rw [overDeleted, hhost]
      by_cases hgone : (keptRoot M v).isSome = true ∧ isWhiteouted M w.state v = true
      · rw [if_pos hgone]
        exact (Marks.of_tidy (removeWhiteout_drops v).tidy_of_drops.marksNothing) w hw
      · rw [if_neg hgone, see_bind, hover]
        have hhostClean := hM.passthrough hclean hhost
        refine Marks.bind (ensureHostParent_tidy hhostClean).marksNothing (fun _ =>
          Marks.bind (Within.act (Tidy.mkdir _ _ hhostClean)).marksNothing fun _ =>
          Marks.bind_marking (hms hclean) (Marks.ite
            (fun h => startEmpty_marks (hms hclean) (hm h) host)
            fun _ => Marks.of_tidy (Prog.Preserves.pure _))
            fun _ => Within.ignoring (unhideLower_marking hM hv.1)) w hw
  | none =>
      dsimp only
      have hclean := hv.clean_of_none hhost
      have hover : isWhiteouted M w.state v = overDeleted M w.state v := by rw [overDeleted, hhost]
      rw [see_bind, hover]
      refine Marks.bind (removeWhiteout_drops v).tidy_of_drops.marksNothing (fun _ =>
        Marks.bind (ensureWriteParent_tidy hM hv.1).marksNothing fun _ =>
        Marks.bind (Within.act (Tidy.mkdir _ _ (hM.wlPath hclean))).marksNothing fun _ =>
        Marks.ite (fun h => ?_) fun _ => Marks.of_tidy (Prog.Preserves.pure _)) w hw
      exact Marks.of_marking (hms hclean) (markOpaque_marking (hm h) (keptLayerFor_none hhost))

end

/-! ### Moves -/

variable (M) in
/-- A move of `vf` takes none of `F` along, at whatever point the copying before it is. -/
def TakesNone (F : Path → Prop) (vf vt : Path) (d : Disk) : Prop :=
  ∀ d', (Aiming M vf vt).Leads d d' → ∀ p, HostFor M vf p → ∀ x r, d'.find false (some p) = .ok x →
    r ≠ [] → d'.tree.node (x ++ r) ≠ none → ¬ F (x ++ r)

variable (M) in
/-- The operation moves what lies at `p` to `q`, with a directory above it. -/
inductive Moves (w : World) : Op → Path → Path → Prop
  | rename {vf vt : Path} {a : Aim} {w₁ : World} {x y r : Path} :
      aimRename M vf vt w = (.ok a, w₁) → w₁.state.disk.find false a.src = .ok x →
      w₁.state.disk.find false a.dst = .ok y → r ≠ [] → w₁.state.disk.tree.node (x ++ r) ≠ none →
      Moves w (.rename vf vt) (x ++ r) (y ++ r)

theorem markerName_append {x y r : Path} (hr : r ≠ []) : markerName (x ++ r) = markerName (y ++ r) := by
  obtain ⟨u, n, rfl⟩ := r.eq_nil_or_concat'.resolve_left hr
  rw [markerName, markerName, baseName, baseName, ← List.append_assoc, ← List.append_assoc,
    List.getLastD_concat, List.getLastD_concat]

/-- A move to a clean place makes no marker but of what it moves. -/
theorem rename_markersIn (src : HostPath) {dst : HostPath} {d : Disk} (hd : MarkersIn S d)
    (hdst : CleanHost dst) :
    MarkersIn (fun q => S q ∨ ∃ x y r, d.find false src = .ok x ∧ d.find false dst = .ok y ∧ r ≠ [] ∧
      d.tree.node (x ++ r) ≠ none ∧ S (x ++ r) ∧ q = y ++ r) (Disk.rename src dst d).2 := by
  rcases Disk.rename_cases src dst d with ⟨e, hf⟩ | ⟨x, y, hx, hy, ⟨-, -, hrun⟩ | ⟨-, -, -, hmove, hrun⟩⟩
  · rw [hf]
    exact hd.mono fun q => Or.inl
  · rw [hrun]
    exact hd.mono fun q => Or.inl
  · rw [hrun]
    refine ⟨hd.links.move hmove, fun q hq hthere => ?_⟩
    rw [Disk.move_tree, Tree.move_node] at hthere
    by_cases hyq : y <+: q
    · rw [if_pos hyq] at hthere
      obtain ⟨r, rfl⟩ := hyq
      rw [List.drop_left] at hthere
      have hr : r ≠ [] := by
        rintro rfl
        rw [List.append_nil, markerName_of_clean (find_clean hd.links hdst hy)] at hq
        cases hq
      refine Or.inr ⟨x, y, r, hx, hy, hr, hthere, hd.markers _ ?_ hthere, rfl⟩
      rw [markerName_append (y := y) hr]
      exact hq
    · rw [if_neg hyq] at hthere
      by_cases hxq : x <+: q
      · rw [if_pos hxq] at hthere
        exact absurd rfl hthere
      · rw [if_neg hxq] at hthere
        exact Or.inl (hd.markers q hq hthere)

/-- **What leads a move to its call makes no marker**, by calls that may lead there. -/
theorem aimRename_markersIn (hM : CleanMount M) {vf vt : Path} {w : World}
    (hvf : BringsClean M vf vt w.state) (hvt : NameFresh M vt) (hw : MarkersIn S w.state.disk) :
    MarkersIn S (aimRename M vf vt w).2.state.disk ∧
      (Aiming M vf vt).Leads w.state.disk (aimRename M vf vt w).2.state.disk := by
  have hstart : OnAim M S w.state vf vt w := ⟨SameMasks.refl _, hw, .refl⟩
  have hends : ∀ {w' : World}, OnAim M S w.state vf vt w' → MarkersIn S w'.state.disk ∧
      (Aiming M vf vt).Leads w.state.disk w'.state.disk := fun h => ⟨h.markers, h.leads⟩
  unfold aimRename
  by_cases hro : M.readOnly = true
  · rw [if_pos hro]
    exact hends hstart
  rw [if_neg hro]
  refine Prog.bind_ends (I := fun w' : World => MarkersIn S w'.state.disk ∧
      (Aiming M vf vt).Leads w.state.disk w'.state.disk)
    (hends (OnAim.look (resolve_agrees M vf) w hstart)) fun rr w₁ hrr _ => ?_
  have hw₁ : OnAim M S w.state vf vt
      ((resolve M vf : Prog World Errno ResolveResult) w).2 :=
    OnAim.look (resolve_agrees M vf) w hstart
  rw [hrr] at hw₁
  by_cases hnone : rr.isNone = true
  · rw [if_pos hnone]
    exact hends hw₁
  rw [if_neg hnone]
  have hclean : rr.isWritable = false → Clean vf :=
    hstart.clean hvf (List.prefix_refl vf) hrr (by simpa using hnone)
  have hfound := resolve_found vf w rr w₁ hrr
  refine Prog.bind_ends (I := fun w' : World => MarkersIn S w'.state.disk ∧
      (Aiming M vf vt).Leads w.state.disk w'.state.disk)
    (hends (OnAim.look (hitIsDir_agrees false rr) w₁ hw₁)) fun isDir w₂ hdir _ => ?_
  have hw₂ : OnAim M S w.state vf vt ((hitIsDir false rr : Prog World Errno Bool) w₁).2 :=
    OnAim.look (hitIsDir_agrees false rr) w₁ hw₁
  rw [hdir] at hw₂
  refine Prog.bind_ends (I := fun w' : World => MarkersIn S w'.state.disk ∧
      (Aiming M vf vt).Leads w.state.disk w'.state.disk)
    (hends (bringUp_onAim hM hvf hclean hfound isDir w₂ hw₂)) fun _ w₃ _ hw₃ => ?_
  refine (show Within (Aiming M vf vt) _ from ?_) _ (aiming_keep hM) w₃ hw₃
  cases hhost : M.passthroughHost vt with
  | some dst =>
      have hdest : copyDest M vt = dst := by rw [copyDest, hhost, Option.getD_some]
      refine Within.ite (fun _ => Within.fail _) fun hname =>
        Within.bind (Within.look (Agrees.see _)) fun _ => Within.bind ?_ fun _ => Within.pure _
      have hclean' := hM.passthrough (hvt.clean hname) hhost
      refine Within.ignoring (createDirectories_within fun q mode hq => ?_)
      exact Aiming.mkdir mode (hdest ▸ hq.of_hostParent) (hq.clean hclean'.hostParent)
  | none =>
      have hdest : copyDest M vt = M.wlPath vt := by rw [copyDest, hhost, Option.getD_none]
      refine Within.bind (createDirectoriesEio_within fun q mode hq => ?_) fun _ =>
        Within.bind ?_ fun _ => Within.pure _
      · exact Aiming.mkdir mode (hdest ▸ hq.join_mono (List.dropLast_prefix vt))
          (hq.clean (hM.wlPath hvt.1))
      · exact Within.ite (fun _ => Within.pure _) fun _ =>
          Within.bind (Within.ignoring (Within.act Aiming.unmark)) fun _ => Within.mutate fun _ => rfl

/-- What a move finds of the new name's masks is what they are before. -/
theorem aimRename_overDeleted {vf vt : Path} {w w₁ : World} {a : Aim}
    (haim : aimRename M vf vt w = (.ok a, w₁)) (hover : a.overDeleted = true) :
    keptHidden M w.state vt = true := by
  unfold aimRename at haim
  by_cases hro : M.readOnly = true
  · rw [if_pos hro] at haim
    cases haim
  rw [if_neg hro] at haim
  obtain ⟨rr, w₂, hrun, hstate, -⟩ := (resolve_agrees M vf).total w
  rw [Prog.bind_of_ok hrun] at haim
  by_cases hnone : rr.isNone = true
  · rw [if_pos hnone] at haim
    cases haim
  rw [if_neg hnone] at haim
  obtain ⟨isDir, w₃, hrun', hstate', -⟩ := (hitIsDir_agrees false rr).total w₂
  rw [Prog.bind_of_ok hrun'] at haim
  rcases hbring : bringUp M vf rr isDir w₃ with ⟨e | u, w₄⟩
  · rw [Prog.bind_of_error hbring] at haim
    cases haim
  rw [Prog.bind_of_ok hbring] at haim
  have hmasks := bringUp_hostOnly M vf rr isDir w₃
  rw [hbring] at hmasks
  cases hhost : M.passthroughHost vt with
  | some dst =>
      rw [hhost] at haim
      dsimp only at haim
      by_cases hname : markerName vt = true
      · rw [if_pos hname] at haim
        cases haim
      rw [if_neg hname, see_bind] at haim
      have hseen : Returns (fun a : Aim => a.overDeleted = keptHidden M w₄.state vt) (do
          ensureHostParent dst
          pure ⟨writeHost M vf rr, dst, isDir, keptHidden M w₄.state vt⟩ : Prog World Errno Aim) :=
        Returns.bind (Returns.triv _) fun _ _ => Returns.pure rfl
      rw [hseen _ _ _ haim, keptHidden, hmasks.kept, hstate', hstate] at hover
      exact hover
  | none =>
      have hfalse : Returns (fun a : Aim => a.overDeleted = false) (do
          ensureWriteParent M vt
          removeWhiteout M vt
          pure ⟨writeHost M vf rr, M.wlPath vt, isDir, false⟩ : Prog World Errno Aim) :=
        Returns.bind (Returns.triv _) fun _ _ => Returns.bind (Returns.triv _) fun _ _ =>
          Returns.pure rfl
      rw [hhost] at haim
      rw [hfalse _ _ _ haim] at hover
      cases hover

/-- Where a move is aimed, no marker's name is. -/
theorem aimRename_dst (hM : CleanMount M) {vf vt : Path} (hvt : NameFresh M vt) :
    Returns (fun a => CleanHost a.dst ∧ Clean vt) (aimRename M vf vt) := by
  refine Returns.ite (fun _ w a w' h => by cases h) fun _ => Returns.bind (Returns.triv _)
    fun rr _ => Returns.ite (fun _ w a w' h => by cases h) fun _ =>
      Returns.bind (Returns.triv _) fun isDir _ => Returns.bind (Returns.triv _) fun _ _ => ?_
  cases hhost : M.passthroughHost vt with
  | some dst =>
      exact Returns.ite (fun _ w a w' h => by cases h) fun hname =>
        Returns.bind (Returns.triv _) fun _ _ => Returns.bind (Returns.triv _) fun _ _ =>
        Returns.pure ⟨hM.passthrough (hvt.clean hname) hhost, hvt.clean hname⟩
  | none =>
      exact Returns.bind (Returns.triv _) fun _ _ => Returns.bind (Returns.triv _) fun _ _ =>
        Returns.pure ⟨hM.wlPath (hvt.clean_of_none hhost), hvt.clean_of_none hhost⟩

theorem unhideMoved_marking {ms : List HostPath} (hM : CleanMount M) {vt : Path} (hvt : Clean vt)
    {a : Aim} (hopq : a.overDeleted = true → opaquePath M vt ∈ ms) :
    Within (Marking ms) (unhideMoved M vt a) := by
  unfold unhideMoved
  cases M.passthroughHost vt with
  | some dst =>
      refine Within.bind (Within.ite (fun h => ?_) fun _ => Within.pure _)
        fun _ => Within.ignoring (unhideLower_marking hM hvt.dropLast)
      rw [Bool.and_eq_true] at h
      exact keptMarkOpaque_marking (hopq h.2) (opaquePath_marker hM hvt)
  | none => exact Within.pure _

/-- What a move does about the masks writes the marker of the name it moved from when it is done. -/
theorem afterRename_marksWhenDone (hM : CleanMount M) {vf vt : Path} (hvf : Clean vf.dropLast)
    (hvt : Clean vt) {base : List HostPath} (hbase : ∀ m ∈ base, MarkerHost m) {a : Aim}
    (hopq : a.overDeleted = true → opaquePath M vt ∈ base) :
    MarksWhenDone S base [markerPath M vf] (afterRename M vf vt a) :=
  MarksWhenDone.bind (MarksWhenDone.of_marking hbase (runIf_within (keptRenamePrefix_within vf vt)))
    fun _ => MarksWhenDone.bind (MarksWhenDone.of_marking hbase (unhideMoved_marking hM hvt hopq))
    fun _ => MarksWhenDone.bind (MarksWhenDone.of_marking hbase
      (runIf_within (renameMaskPrefix_within vf vt)))
    fun _ => hideRest_marksWhenDone hM hvf hbase (Within.pure _)

/-- **A move leaves the markers that were there, those it writes, and those it moves.** -/
theorem vfsRename_marked (hM : CleanMount M) {vf vt : Path} {w : World} (hvf : Clean vf.dropLast)
    (hbrings : BringsClean M vf vt w.state) (hvt : NameFresh M vt) (hw : MarkersIn S w.state.disk) :
    Marked (fun q => S q ∨ ∃ p, S p ∧ Moves M w (.rename vf vt) p q)
      ((Op.rename vf vt).markers M w.state (vfsRename M vf vt w).1.isOk)
      (vfsRename M vf vt w).2.state.disk := by
  have haims := (aimRename_markersIn hM hbrings hvt hw).1
  rw [vfsRename_aim]
  rcases haim : aimRename M vf vt w with ⟨e | a, w₁⟩
  · rw [haim] at haims
    rw [Prog.bind_of_error haim]
    exact (haims.mono fun q => Or.inl).marked _
  rw [haim] at haims
  rw [Prog.bind_of_ok haim]
  obtain ⟨hdst, hclean⟩ := aimRename_dst hM hvt w a w₁ haim
  have hmoved : MarkersIn (fun q => S q ∨ ∃ p, S p ∧ Moves M w (.rename vf vt) p q)
      (act (Disk.rename a.src a.dst) w₁).2.state.disk := by
    unfold act
    cases w₁.fate 0 with
    | some e => exact haims.mono fun q => Or.inl
    | none =>
        refine (rename_markersIn a.src haims hdst).mono fun q hq => hq.imp_right ?_
        rintro ⟨x, y, r, hx, hy, hr, hthere, hS, rfl⟩
        exact ⟨x ++ r, hS, Moves.rename haim hx hy hr hthere⟩
  rcases hrun : act (Disk.rename a.src a.dst) w₁ with ⟨e | u, w₂⟩
  · rw [hrun] at hmoved
    rw [Prog.bind_of_error hrun]
    exact hmoved.marked _
  rw [hrun] at hmoved
  rw [Prog.bind_of_ok hrun]
  have hbase : ∀ m ∈ (Op.rename vf vt).remadeMarkers M w.state, MarkerHost m := by
    intro m hm
    rw [Op.remadeMarkers] at hm
    split at hm
    · rw [List.mem_singleton.1 hm]
      exact opaquePath_marker hM hclean
    · cases hm
  have hopq : a.overDeleted = true →
      opaquePath M vt ∈ (Op.rename vf vt).remadeMarkers M w.state := by
    intro hover
    rw [Op.remadeMarkers, if_pos (aimRename_overDeleted haim hover)]
    exact List.mem_singleton_self _
  exact (afterRename_marksWhenDone hM hvf hclean hbase hopq).marked w₂ (hmoved.marked _)

/-! ### Runs -/

variable (M) in
/-- **The operation brings no marker's name in**: none is in the directories on the way, nor in what
is made where nothing refuses it, nor in what is copied up, nor in the target of a link; and what is
moved takes none of `F` along. -/
def NamesNoMarker (F : Path → Prop) (w : World) : Op → Prop
  | .create v _ _ => NameFresh M v
  | .mkdir v _ => NameFresh M v
  | .symlink target v => CleanTarget target ∧ NameFresh M v
  | .link vf vt => CopiesClean M vf w.state ∧ NameFresh M vt
  | .unlink v => Clean v.dropLast
  | .rmdir v => Clean v.dropLast
  | .rename vf vt => Clean vf.dropLast ∧ NameFresh M vt ∧ BringsClean M vf vt w.state ∧
      TakesNone M F vf vt w.state.disk
  | .open_ v flags => flags.creat = false ∧ CopiesClean M v w.state
  | .write _ _ _ => True
  | .truncate v _ _ => CopiesClean M v w.state
  | .chmod v _ => CopiesClean M v w.state

/-- **What such an operation leaves behind with a marker's name** was there before, or is a marker it
wrote for a name it deleted or a directory it made again, or was moved. -/
theorem exec_marked (hM : CleanMount M) {F : Path → Prop} {w : World} {op : Op}
    (hop : NamesNoMarker M F w op) (hw : MarkersIn S w.state.disk) :
    Marked (fun q => S q ∨ ∃ p, S p ∧ Moves M w op p q) (op.markers M w.state (exec M op w).1.isOk)
      (exec M op w).2.state.disk := by
  have hmono : ∀ {ms ms' : List HostPath} {d : Disk}, Marked S ms d → (∀ m ∈ ms, m ∈ ms') →
      Marked (fun q => S q ∨ ∃ p, S p ∧ Moves M w op p q) ms' d := fun h hsub =>
    ⟨h.links, fun q hq hthere => ((h.more hsub).markers q hq hthere).imp_left Or.inl⟩
  have hnone : ∀ {ms : List HostPath} {d : Disk}, Marked S [] d →
      Marked (fun q => S q ∨ ∃ p, S p ∧ Moves M w op p q) ms d := fun h => hmono h nofun
  have hvalue : ∀ {α : Type} {m : Prog World Errno α}, Marked S [] (m w).2.state.disk →
      Marked S [] ((do let _ ← m; pure ()) w : Except Errno Unit × World).2.state.disk :=
    fun h => Prog.bind_ends (I := fun w : World => Marked S [] w.state.disk) h fun _ _ _ h => h
  cases op with
  | create v mode flags =>
      exact hnone (hvalue (Marks.of_tidy (vfsCreate_tidy hM hop mode flags).marksNothing w hw))
  | mkdir v mode => exact hmono (vfsMkdir_marked hM hop mode hw) fun m hm => hm
  | symlink target v =>
      exact hnone (Marks.of_tidy (vfsSymlink_tidy hM hop.2 hop.1).marksNothing w hw)
  | link vf vt => exact hnone (vfsLink_marked hM hop.1 hop.2 hw)
  | unlink v =>
      exact hmono ((vfsUnlink_marksWhenDone hM hop).marked w (hw.marked [])) fun m hm => hm
  | rmdir v =>
      refine hmono ((vfsRmdir_marksWhenDone hM hop).marked w (hw.marked [])) fun m hm => ?_
      rw [exec, Op.markers, Op.deletionMarkers]
      rwa [Op.deletionMarkers, if_pos rfl] at hm
  | rename vf vt => exact vfsRename_marked hM hop.1 hop.2.2.1 hop.2.1 hw
  | open_ v flags => exact hnone (hvalue (vfsOpen_marked hM hop.1 hop.2 hw))
  | write file bs off =>
      exact hnone (hvalue (Marks.of_tidy (vfsWrite_tidy file bs off).marksNothing w hw))
  | truncate v file size => exact hnone (vfsTruncate_marked hM hop file size hw)
  | chmod v mode => exact hnone (vfsChmod_marked hM hop mode hw)

/-- There is an entry at `q`. -/
def HasEntry (w : World) (q : Path) : Prop := w.state.disk.tree.node q ≠ none

variable (M) in
/-- **The markers that come from a deletion**, once an operation has followed those in `G`: the ones
of `G` that are still there, the new ones that it wrote for a name it has deleted or a directory it
has made again at a deleted name, and those it moved. -/
def earnedAfter (w : World) (op : Op) (G : Path → Prop) (q : Path) : Prop :=
  HasEntry (exec M op w).2 q ∧
    (G q ∨ (¬ HasEntry w q ∧ ∃ m ∈ op.markers M w.state (exec M op w).1.isOk,
        NamesEntry (exec M op w).2.state.disk m q) ∨
      ∃ p, G p ∧ Moves M w op p q)

variable (M) in
/-- A run of admitted operations, with the markers that come from its deletions, followed from those
in `G₀`. -/
inductive Traced (ok : World → Op → Prop) (w₀ : World) (G₀ : Path → Prop) :
    (Path → Prop) → World → Prop
  | start : Traced ok w₀ G₀ G₀ w₀
  | step {G : Path → Prop} {w : World} (op : Op) : Traced ok w₀ G₀ G w → ok w op →
      Traced ok w₀ G₀ (earnedAfter M w op G) (exec M op w).2

/-- A marker's name that the host had when the mount started, and that is none of the markers which
earlier deletions left. -/
def ForeignMarker (d : Disk) (earlier : Path → Prop) (q : Path) : Prop :=
  markerName q = true ∧ d.tree.node q ≠ none ∧ ¬ earlier q

theorem init_tidy (hM : CleanMount M) : Within Tidy (init M) := by
  refine Within.bind (Within.ite (fun _ => Within.pure _) fun _ =>
    Within.ignoring (createDirectories_tidy hM.writelayer)) fun _ => Within.bind
      (Within.mutate fun s => ?_) fun _ => Within.forM fun L _ =>
        Within.ite (fun _ => Within.mutate fun _ => rfl) fun _ => Within.pure _
  unfold seedMasksFromWritelayer
  split_ifs <;> rfl

/-- In a run of operations that bring no marker's name in, every marker comes from a deletion or was
on the host at the start. -/
theorem traced_markers (hM : CleanMount M) {d : Disk} (hd : d.tree.LinksIn Unmarked)
    {fate blind : ℕ → Option Errno} {earlier G : Path → Prop} {w : World}
    (hrun : Traced M (NamesNoMarker M (ForeignMarker d earlier)) (mounted M d fate blind) earlier
      G w) : MarkersIn (fun q => G q ∨ ForeignMarker d earlier q) w.state.disk := by
  induction hrun with
  | start =>
      refine ((init_tidy hM).marksNothing (S := fun q => markerName q = true ∧ d.tree.node q ≠ none)
        ⟨unseeded d, fate, blind⟩ ⟨hd, fun q hq hthere => ⟨hq, hthere⟩⟩).mono fun q hq => ?_
      by_cases hearlier : earlier q
      · exact Or.inl hearlier
      · exact Or.inr ⟨hq.1, hq.2, hearlier⟩
  | @step G w op _ hop ih =>
      have hw : MarkersIn (fun q => markerName q = true ∧ HasEntry w q) w.state.disk :=
        ⟨ih.links, fun q hq hthere => ⟨hq, hthere⟩⟩
      have hmarked := exec_marked hM hop hw
      refine ⟨hmarked.links, fun q hq hthere => ?_⟩
      by_cases hold : HasEntry w q
      · exact (ih.markers q hq hold).imp_left fun hG => ⟨hthere, Or.inl hG⟩
      · rcases hmarked.markers q hq hthere with (⟨-, hw'⟩ | ⟨p, ⟨hp, hpthere⟩, hmoves⟩) | hnew
        · exact absurd hw' hold
        · have hforeign : ¬ ForeignMarker d earlier p := by
            cases hmoves with
            | @rename vf vt a w₁ x y r haim hx hy hr hxr =>
                obtain ⟨-, hvt, hbrings, htakes⟩ := hop
                have hleads := (aimRename_markersIn hM hbrings hvt hw).2
                rw [haim] at hleads
                cases hsrc : a.src with
                | none =>
                    rw [hsrc] at hx
                    cases hx
                | some p =>
                    rw [hsrc] at hx
                    exact htakes _ hleads p ((aimRename_returns vf vt w a w₁ haim).1 p hsrc) x r hx
                      hr hxr
          exact Or.inl ⟨hthere, Or.inr (Or.inr
            ⟨p, (ih.markers p hp hpthere).resolve_right hforeign, hmoves⟩)⟩
        · exact Or.inl ⟨hthere, Or.inr (Or.inl ⟨hold, hnew⟩)⟩

/-- What a mount reads of the markers of the folder at `k`, which `L` keeps, comes from `G`. -/
structure ReadsOnly (G : Path → Prop) (d : Disk) (L : Layer) (k : Path) : Prop where
  deleted : ∀ x ∈ (seedKeptMasks d L).deleted,
    ∃ r n, x = L.subpath ++ r ++ [unmark n] ∧ isMarker n = true ∧ G (k ++ r ++ [n])
  opaqueDirs : ∀ x ∈ (seedKeptMasks d L).opaqueDirs,
    ∃ r, x = L.subpath ++ r ∧ G (k ++ r ++ [opaqueName])

/-- A mount reads the markers that are there. -/
theorem readsOnly_of_markers {G : Path → Prop} {d : Disk} {L : Layer} {k : Path}
    (hk : d.find true (keptHost L L.subpath) = .ok k)
    (hG : ∀ q, k <+: q → markerName q = true → d.tree.node q ≠ none → G q) :
    ReadsOnly G d L k := by
  have hthere : ∀ {r : List Name} {n : Name}, Enters d L.source L.subpath r → isMarker n = true →
      n ∈ d.readDir (L.source.join (L.subpath ++ r)) → G (k ++ r ++ [n]) := by
    intro r n henters hn hmem
    obtain ⟨q, hq, hnode⟩ := find_of_mem_readDir hmem
    have hfind := henters.find r L.subpath k hk
    rw [hfind] at hq
    obtain rfl := Except.ok.inj hq
    refine hG _ ((List.prefix_append k r).trans (List.prefix_append _ _)) ?_ hnode
    rwa [markerName, baseName, List.getLastD_concat]
  constructor
  · intro x hx
    obtain ⟨r, n, rfl, hn, henters, hmem⟩ := (seedWalk_cases _ _ _).1 hx
    exact ⟨r, n, rfl, hn, hthere henters hn hmem⟩
  · intro x hx
    obtain ⟨r, rfl, henters, hmem⟩ := (seedWalk_cases _ _ _).2 hx
    exact ⟨r, rfl, hthere henters isMarker_opaqueName hmem⟩

/-- **Only deletions put markers into a folder.**  In every run of operations that bring no marker's
name in, whatever the host refuses: where there was none at the start, every entry with a marker's
name is a marker that was written for a name deleted or a directory made again, or was moved along,
like those that earlier deletions had left elsewhere; and if that is where a kept folder is, the next
mount reads no other. -/
theorem only_deletions_mark (hM : CleanMount M) (d : Disk) (hd : d.tree.LinksIn Unmarked)
    (fate blind : ℕ → Option Errno) {earlier G : Path → Prop} {w : World}
    (hrun : Traced M (NamesNoMarker M (ForeignMarker d earlier)) (mounted M d fate blind) earlier
      G w) {k : Path} (hk : ∀ q, k <+: q → markerName q = true → d.tree.node q = none) :
    (∀ q, k <+: q → markerName q = true → HasEntry w q → G q) ∧
      ∀ L ∈ M.layers, L.isKept = true → w.state.disk.find true (keptHost L L.subpath) = .ok k →
        ReadsOnly G w.state.disk L k := by
  have hmarkers : ∀ q, k <+: q → markerName q = true → HasEntry w q → G q := by
    intro q hkq hq hthere
    refine ((traced_markers hM hd hrun).markers q hq hthere).resolve_right ?_
    exact fun hforeign => hforeign.2.1 (hk q hkq hq)
  exact ⟨hmarkers, fun L _ _ hfind => readsOnly_of_markers hfind hmarkers⟩

/-! ### A folder kept over a package -/

/-- A writelayer, a package with one file, and a folder to keep what is written over it. -/
def coverDisk : Disk :=
  [Disk.mkdir (some ["wl"]) 0o755, Disk.mkdir (some ["kept"]) 0o755, Disk.mkdir (some ["pkg"]) 0o755,
    touch (some ["pkg", "x"])].foldl (fun d call => (call d).2) Disk.blank

/-- The package has a file that is named like the marker of its other one. -/
def decoyDisk : Disk := (touch (some ["pkg", ".wh.x"]) coverDisk).2

def coverMount : Mount where
  writelayer := some ["wl"]
  readOnly := false
  flattenSymlinks := true
  layers := [⟨.dir, some ["pkg"], [], [], false, [], 0⟩, ⟨.dir, some ["kept"], [], [], true, [], 1⟩]
  priority_eq := rfl
  pathDepth := 8

def decoyWorld : World := mounted coverMount decoyDisk allowed allowed

/-- The file is opened for writing. -/
def copiedWorld : World :=
  (exec coverMount (.open_ [".wh.x"] ⟨.wronly, false, false, false, false⟩) decoyWorld).2

/-- In an empty folder is no marker. -/
theorem no_marker_below {d : Disk} {k : Path} (hk : markerName k = false)
    (h : d.tree.children k = []) (q : Path) (hq : k <+: q) (hmark : markerName q = true) :
    d.tree.node q = none := by
  refine Tree.node_eq_none_of_children h hq ?_
  rintro rfl
  rw [hk] at hmark
  cases hmark

/-- **A package's file that hides another**: opened for writing it is copied into the kept folder
under its own name, and the next mount reads it as the marker of a deletion that nobody made. -/
theorem package_name_marks :
    (∀ q, ["kept"] <+: q → markerName q = true → decoyDisk.tree.node q = none) ∧
    (∃ G, Traced coverMount (fun _ _ => True) decoyWorld (fun _ => False) G copiedWorld ∧
      HasEntry copiedWorld ["kept", ".wh.x"] ∧ ¬ G ["kept", ".wh.x"]) ∧
    (lookup coverMount decoyWorld.state ["x"]).isNone = false ∧
    (lookup coverMount (mounted coverMount copiedWorld.state.disk allowed allowed).state
      ["x"]).isNone = true := by
  refine ⟨no_marker_below (by decide) (by decide +kernel), ⟨_, Traced.step _ Traced.start trivial,
    ?_, ?_⟩, by decide +kernel, by decide +kernel⟩
  · unfold HasEntry
    decide +kernel
  · rintro ⟨-, hearlier | ⟨-, m, hm, -⟩ | ⟨p, -, hm⟩⟩
    · exact hearlier
    · cases hm
    · cases hm

theorem coverMount_clean : CleanMount coverMount where
  writelayer := by
    rintro _ ⟨⟩
    decide
  source := by
    intro L hL hkept
    obtain rfl | rfl : L = _ ∨ L = _ := by simpa [coverMount] using hL
    · cases hkept
    · rintro _ ⟨⟩
      decide
  subpath := by
    intro L hL hkept
    obtain rfl | rfl : L = _ ∨ L = _ := by simpa [coverMount] using hL
    · cases hkept
    · exact clean_nil
  links := by
    intro L hL Z htype
    obtain rfl | rfl : L = _ ∨ L = _ := by simpa [coverMount] using hL
    · cases htype
    · cases htype

theorem coverDisk_links : coverDisk.tree.LinksIn Unmarked := by
  have hblank : MarkersIn (fun _ => True) Disk.blank := by
    refine ⟨fun p target h => ?_, fun _ _ _ => trivial⟩
    by_cases hp : p = [] <;> simp [Disk.blank, hp] at h
  have hclean : ∀ {p : Path}, Clean p → CleanHost (some p) := by
    rintro p hp _ ⟨⟩
    exact hp
  have hwl := tidy_keep _ _ (Tidy.mkdir (some ["wl"]) 0o755 (hclean (by decide))) _ hblank
  have hkept := tidy_keep _ _ (Tidy.mkdir (some ["kept"]) 0o755 (hclean (by decide))) _ hwl
  have hpkg := tidy_keep _ _ (Tidy.mkdir (some ["pkg"]) 0o755 (hclean (by decide))) _ hkept
  exact (tidy_keep _ _ (Tidy.open_ (some ["pkg", "x"]) ⟨.wronly, true, false, false, false⟩ 0o644
    fun _ => hclean (by decide)) _ hpkg).links

/-- The deletion of the package's other file puts its marker into the folder. -/
theorem deletion_marks :
    earnedAfter coverMount (mounted coverMount coverDisk allowed allowed) (.unlink ["x"])
      (fun _ => False) ["kept", ".wh.x"] := by
  refine (only_deletions_mark coverMount_clean coverDisk coverDisk_links allowed allowed
    (Traced.step (.unlink ["x"]) Traced.start clean_nil) (k := ["kept"])
    (no_marker_below (by decide) (by decide +kernel))).1 _ (by decide) (by decide) ?_
  unfold HasEntry
  decide +kernel

end VidyaGodFS
