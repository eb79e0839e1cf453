/-
**Deletions.**

Three operations take a name away: the removal of a file, that of a directory, and a move.  Each of
them ends alike: where a lower layer still provides the name, it is hidden.  What comes before the
hiding brings up no mask for the name.

Main definitions:

* `Deletion` — the operations that take a name away, with `upToHide`, what they do before they hide
  it;
* `Unhid` — a name without a mask of its own.

Main results:

* `exec_deletion` — a deletion is what it does before, and then the hiding;
* `upToHide_unhid` — **up to there no mask for the name appears**.
-/

import VidyaGodFS.Gentle
import VidyaGodFS.HostOnly

set_option relaxedAutoImplicit false
set_option autoImplicit false

namespace VidyaGodFS

open Posix

/-! ### Deletions -/

/-- The operations that take a name away. -/
inductive Deletion
  | unlink (v : Path)
  | rmdir (v : Path)
  | rename (vf vt : Path)

namespace Deletion

def op : Deletion → Op
  | .unlink v => .unlink v
  | .rmdir v => .rmdir v
  | .rename vf vt => .rename vf vt

/-- The name that is taken away. -/
def path : Deletion → Path
  | .unlink v => v
  | .rmdir v => v
  | .rename vf _ => vf

end Deletion

variable (M : Mount)

/-- Whether something is left to hide at `v`. -/
def leftToHide (v : Path) (otherwise : Prog World Errno Unit) : Prog World Errno Bool := do
  let rr ← resolve M v
  if rr.isNone then do
    otherwise
    pure false
  else pure true

/-- What a deletion does before it hides the name, and whether it comes to that. -/
def Deletion.upToHide : Deletion → Prog World Errno Bool
  | .unlink v =>
      if M.readOnly then Prog.fail .erofs
      else
        match M.passthroughHost v with
        | some host => do
            let had ← toleratingEnoent (act (Disk.unlink host))
            leftToHide M v (noneLeft had)
        | none => do
            unlinkWriteCopy M v
            leftToHide M v (pure ())
  | .rmdir v =>
      if M.readOnly then Prog.fail .erofs
      else do
        let children ← collectChildren M v
        if children ≠ [] then Prog.fail .enotempty
        else
          match M.passthroughHost v with
          | some host => do
              keptDropMarkersUnder M v
              if (keptRoot M v).isSome then do
                keptMarkOpaque M v
                pure true
              else do
                let had ← toleratingEnoent (act (Disk.rmdir host))
                leftToHide M v (noneLeft had)
          | none => do
              removeWriteDir M v
              leftToHide M v (pure ())
  | .rename vf vt =>
      if M.readOnly then Prog.fail .erofs
      else do
        let rr ← resolve M vf
        if rr.isNone then Prog.fail .enoent
        else do
          let isDir ← hitIsDir false rr
          bringUp M vf rr isDir
          moveTo M vf vt rr isDir
          runIf isDir (renameMaskPrefix M vf vt)
          leftToHide M vf (pure ())

/-- The hiding, if it comes to that. -/
def hideIf (v : Path) (left : Bool) : Prog World Errno Unit :=
  if left then hideLower M v else pure ()

variable {M}

theorem hideRest_eq (v : Path) (otherwise : Prog World Errno Unit) :
    hideRest M v (hideLower M v) otherwise = leftToHide M v otherwise >>= hideIf M v := by
  funext w
  unfold hideRest leftToHide
  rw [Prog.bind_assoc_apply]
  refine Prog.bind_congr_apply fun rr w' _ => ?_
  cases rr.isNone with
  | true =>
      change otherwise w' = ((otherwise >>= fun _ => pure false) >>= hideIf M v) w'
      rw [Prog.bind_assoc_apply]
      rcases h : otherwise w' with ⟨e | a, w''⟩
      · rw [Prog.bind_of_error h]
      · rw [Prog.bind_of_ok h]
        rfl
  | false => rfl

theorem hideLower_of_none {v : Path} (h : M.keptLayerFor v = none) :
    hideLower M v = createWhiteout M v := by
  rw [hideLower, h]

theorem keptLayerFor_none {v : Path} (h : M.passthroughHost v = none) : M.keptLayerFor v = none :=
  Option.map_eq_none_iff.1 h

/-- The kept folder's own root is hidden in the writelayer. -/
theorem hideLower_of_root {v : Path} (h : (keptRoot M v).isSome = true) :
    hideLower M v = createWhiteout M v := by
  obtain ⟨L, hL⟩ := Option.isSome_iff_exists.1 h
  obtain ⟨hkept, hroot⟩ := Option.filter_eq_some_iff.1 hL
  rw [hideLower, hkept]
  exact if_pos (of_decide_eq_true hroot)

/-- **A deletion is what it does before, and then the hiding.** -/
theorem exec_deletion (del : Deletion) :
    exec M del.op = del.upToHide M >>= hideIf M del.path := by
  cases del with
  | unlink v =>
      change vfsUnlink M v = _
      unfold vfsUnlink Deletion.upToHide
      dsimp only [Deletion.path]
      cases M.readOnly with
      | true => rfl
      | false =>
          rw [if_neg Bool.false_ne_true, if_neg Bool.false_ne_true]
          cases hhost : M.passthroughHost v with
          | some host =>
              simp only [hideRest_eq, Prog.bind_assoc_apply]
          | none =>
              simp only [← hideLower_of_none (keptLayerFor_none hhost), hideRest_eq,
                Prog.bind_assoc_apply]
  | rmdir v =>
      change vfsRmdir M v = _
      unfold vfsRmdir Deletion.upToHide
      dsimp only [Deletion.path]
      cases M.readOnly with
      | true => rfl
      | false =>
          rw [if_neg Bool.false_ne_true, if_neg Bool.false_ne_true, Prog.bind_assoc_apply]
          congr 1
          funext children
          by_cases hc : children = []
          · rw [if_neg (not_not.2 hc), if_neg (not_not.2 hc)]
            cases hhost : M.passthroughHost v with
            | some host =>
                dsimp only
                rw [Prog.bind_assoc_apply]
                congr 1
                funext _
                cases hroot : (keptRoot M v).isSome with
                | true =>
                    rw [← hideLower_of_root hroot, if_pos rfl, if_pos rfl, Prog.bind_assoc_apply]
                    rfl
                | false =>
                    rw [if_neg Bool.false_ne_true, if_neg Bool.false_ne_true]
                    simp only [hideRest_eq, Prog.bind_assoc_apply]
            | none =>
                simp only [← hideLower_of_none (keptLayerFor_none hhost), hideRest_eq,
                  Prog.bind_assoc_apply]
          · rw [if_pos hc, if_pos hc]
            rfl
  | rename vf vt =>
      change vfsRename M vf vt = _
      unfold vfsRename Deletion.upToHide
      dsimp only [Deletion.path]
      cases M.readOnly with
      | true => rfl
      | false =>
          rw [if_neg Bool.false_ne_true, if_neg Bool.false_ne_true, Prog.bind_assoc_apply]
          congr 1
          funext rr
          cases rr.isNone with
          | true => rfl
          | false =>
              rw [if_neg Bool.false_ne_true, if_neg Bool.false_ne_true]
              simp only [hideRest_eq, Prog.bind_assoc_apply]

/-! ### No mask before the hiding -/

variable (M) in
/-- No mask of its own hides `v`: no whiteout and, where this is in question, none of a kept folder.
The root of a kept folder has none in the folder. -/
structure Unhid (c : Prop) (v : Path) (s : VfsState) : Prop where
  whiteout : isWhiteouted M s v = false
  kept : c → ∀ L, M.keptLayerFor v = some L → sourceRel L v ≠ [] →
    sourceRel L v ∉ (s.kept L.priority).deleted

variable (M) in
/-- The program brings up no mask for `v`, whether it succeeds or fails. -/
def LeavesUnhid {α : Type} (c : Prop) (v : Path) (m : Prog World Errno α) : Prop :=
  Prog.Preserves (fun w => Unhid M c v w.state) m

section

variable {v : Path} {c : Prop}

theorem isWhiteouted_eq_false {s : VfsState} :
    isWhiteouted M s v = false ↔ M.writelayer = none ∨ v = [] ∨ v ∉ s.whiteoutSet := by
  unfold isWhiteouted
  cases M.writelayer <;> simp [or_iff_not_imp_left]

theorem keptHidden_eq_false {s : VfsState} :
    keptHidden M s v = false ↔
      ∀ L, M.keptLayerFor v = some L → sourceRel L v ∉ (s.kept L.priority).deleted := by
  unfold keptHidden
  cases M.keptLayerFor v <;> simp

/-- Fewer masks hide no more. -/
theorem Unhid.mono {s s' : VfsState} (h : Unhid M c v s) (hw : v ∈ s'.whiteoutSet → v ∈ s.whiteoutSet)
    (hk : ∀ i, (s'.kept i).deleted ⊆ (s.kept i).deleted) : Unhid M c v s' where
  whiteout := isWhiteouted_eq_false.2
    ((isWhiteouted_eq_false.1 h.whiteout).imp_right (Or.imp_right fun hv hv' => hv (hw hv')))
  kept hc L hL hroot hrel := h.kept hc L hL hroot (hk _ hrel)

theorem HostOnly.leavesUnhid {α : Type} {m : Prog World Errno α} (h : HostOnly m) :
    LeavesUnhid M c v m := fun w hw =>
  hw.mono (by rw [(h w).whiteoutSet]; exact id) fun i => by rw [(h w).kept]

theorem mutate_leavesUnhid {f : VfsState → VfsState}
    (hw : ∀ s, v ∈ (f s).whiteoutSet → v ∈ s.whiteoutSet)
    (hk : ∀ s i, ((f s).kept i).deleted ⊆ (s.kept i).deleted) : LeavesUnhid M c v (mutate f) :=
  Prog.Preserves.modify fun w h => h.mono (hw w.state) (hk w.state)

theorem mutateKept_leavesUnhid {i : ℕ} {f : KeptMasks → KeptMasks}
    (hf : ∀ k, (f k).deleted ⊆ k.deleted) : LeavesUnhid M c v (mutateKept i f) := by
  refine mutate_leavesUnhid (fun s => id) fun s j => ?_
  dsimp only
  by_cases hj : j = i
  · subst hj
    rw [Function.update_self]
    exact hf _
  · rw [Function.update_of_ne hj]

theorem ignoring_leavesUnhid {α : Type} {m : Prog World Errno α} (h : LeavesUnhid M c v m) :
    LeavesUnhid M c v (ignoring m) := Prog.Preserves.bind h.attempt fun _ => Prog.Preserves.pure _

theorem runIf_leavesUnhid {b : Bool} {m : Prog World Errno Unit} (h : LeavesUnhid M c v m) :
    LeavesUnhid M c v (runIf b m) := Prog.Preserves.ite (fun _ => h) fun _ => Prog.Preserves.pure _

/-! What takes masks away brings up none. -/

theorem removeWhiteout_leavesUnhid (u : Path) : LeavesUnhid M c v (removeWhiteout M u) :=
  Prog.Preserves.ite (fun _ => Prog.Preserves.pure _) fun _ =>
    Prog.Preserves.bind (HostOnly.ignoring (HostOnly.act _)).leavesUnhid fun _ =>
      mutate_leavesUnhid (fun _ => Finset.mem_of_mem_erase) fun _ _ => Finset.Subset.refl _

theorem unmarkOpaque_leavesUnhid (u : Path) : LeavesUnhid M c v (unmarkOpaque M u) :=
  Prog.Preserves.ite (fun _ => Prog.Preserves.pure _) fun _ =>
    mutate_leavesUnhid (fun _ => id) fun _ _ => Finset.Subset.refl _

theorem unhideLower_leavesUnhid (u : Path) : LeavesUnhid M c v (unhideLower M u) := by
  refine Prog.Preserves.bind ?_ fun _ => removeWhiteout_leavesUnhid u
  unfold unhideKept
  cases M.keptLayerFor u with
  | none => exact Prog.Preserves.pure _
  | some L =>
      exact Prog.Preserves.bind (HostOnly.look (Agrees.see _)).leavesUnhid fun deleted =>
        Prog.Preserves.ite (fun _ => Prog.Preserves.bind
            (toleratingEnoent_hostOnly (HostOnly.act _)).leavesUnhid fun _ =>
              mutateKept_leavesUnhid fun k => Finset.erase_subset _ _)
          fun _ => Prog.Preserves.pure _

theorem touchMarker_hostOnly (p : HostPath) : HostOnly (touchMarker p) :=
  HostOnly.bind (createDirectories_hostOnly _) fun _ => HostOnly.bind (HostOnly.act _) fun _ =>
    HostOnly.pure _

theorem keptMarkOpaque_leavesUnhid (u : Path) : LeavesUnhid M c v (keptMarkOpaque M u) := by
  unfold keptMarkOpaque
  cases M.keptLayerFor u with
  | none => exact Prog.Preserves.fail _
  | some L =>
      exact Prog.Preserves.bind (touchMarker_hostOnly _).leavesUnhid fun _ =>
        mutateKept_leavesUnhid fun k => Finset.Subset.refl _

theorem keptDropMarkersUnder_leavesUnhid (u : Path) : LeavesUnhid M c v (keptDropMarkersUnder M u) := by
  unfold keptDropMarkersUnder
  cases M.keptLayerFor u with
  | none => exact Prog.Preserves.pure _
  | some L =>
      refine Prog.Preserves.bind (HostOnly.look (Agrees.look _)).leavesUnhid fun names =>
        Prog.Preserves.bind (HostOnly.forM fun n _ => ?_).leavesUnhid fun _ =>
          mutateKept_leavesUnhid fun k => Finset.filter_subset _ _
      exact HostOnly.ite (fun _ => HostOnly.ignoring (HostOnly.act _)) fun _ => HostOnly.pure _

theorem removeWriteDir_leavesUnhid (u : Path) : LeavesUnhid M c v (removeWriteDir M u) := by
  refine Prog.Preserves.ite (fun _ => Prog.Preserves.pure _) fun _ => Prog.Preserves.bind
    (HostOnly.look (lookDir_agrees _)).leavesUnhid fun names => Prog.Preserves.bind
      (Prog.Preserves.forM fun n _ => ?_) fun _ => (HostOnly.ignoring (HostOnly.act _)).leavesUnhid
  exact Prog.Preserves.ite (fun _ => Prog.Preserves.pure _) fun _ => Prog.Preserves.ite
    (fun _ => Prog.Preserves.bind (HostOnly.ignoring (HostOnly.act _)).leavesUnhid fun _ =>
      unmarkOpaque_leavesUnhid u) fun _ => removeWhiteout_leavesUnhid _

/-! What moves masks moves none there, unless the name moves to a directory above its own. -/

/-- Nothing else moves to where something moves away from. -/
theorem movePrefix_ne {old new x : Path} (hx : x ≠ old) (h : new <+: old → new = old) :
    movePrefix old new x ≠ old := by
  unfold movePrefix
  by_cases hmoves : old <+: x ∧ (old = [] → x = [])
  · rw [if_pos hmoves]
    intro heq
    obtain rfl := h ⟨_, heq⟩
    obtain ⟨r, rfl⟩ := hmoves.1
    rw [List.drop_left] at heq
    exact hx heq
  · rw [if_neg hmoves]
    exact hx

theorem not_mem_image_movePrefix {old new : Path} {S : Finset Path} (hS : old ∉ S)
    (h : new <+: old → new = old) : old ∉ S.image (movePrefix old new) := by
  intro hmem
  obtain ⟨x, hx, heq⟩ := Finset.mem_image.1 hmem
  exact movePrefix_ne (fun h' : x = old => hS (by rwa [← h'])) h heq

theorem renameMaskPrefix_leavesUnhid {vt : Path} (h : vt <+: v → vt = v) :
    LeavesUnhid M c v (renameMaskPrefix M v vt) := by
  refine Prog.Preserves.ite (fun _ => Prog.Preserves.pure _) fun _ => Prog.Preserves.modify
    fun w hw => ⟨isWhiteouted_eq_false.2 ?_, hw.kept⟩
  exact (isWhiteouted_eq_false.1 hw.whiteout).imp_right
    (Or.imp_right fun hv => not_mem_image_movePrefix hv h)

/-- The kept folder that covers a path, whose place is above it. -/
theorem keptLayerFor_covers {L : Layer} (h : M.keptLayerFor v = some L) :
    L ∈ M.layers ∧ L.isKept = true ∧ L.target <+: v := by
  have hmem := List.mem_of_find?_eq_some h
  obtain ⟨hkept, hcov⟩ : L.isKept = true ∧ layerCovers L v = true := by
    simpa using List.find?_some h
  have hdir : L.isFileLayer = false := by
    unfold Layer.isKept Layer.isDirLayer at hkept
    unfold Layer.isFileLayer
    cases htype : L.type <;> simp_all
  refine ⟨List.mem_reverse.1 hmem, hkept, ?_⟩
  unfold layerCovers at hcov
  rw [hdir] at hcov
  exact List.isPrefixOf_iff_prefix.1 hcov

theorem keptRenamePrefix_leavesUnhid {vt : Path} (h : vt <+: v → vt = v) :
    LeavesUnhid M c v (keptRenamePrefix M v vt) := by
  unfold keptRenamePrefix
  cases hL : M.keptLayerFor v with
  | none => exact Prog.Preserves.pure _
  | some L =>
      cases hL' : M.keptLayerFor vt with
      | none => exact Prog.Preserves.pure _
      | some L' =>
          refine Prog.Preserves.ite (fun _ => Prog.Preserves.pure _) fun hprio => ?_
          obtain ⟨hmem, -, r, hr⟩ := keptLayerFor_covers hL
          obtain ⟨hmem', -, r', hr'⟩ := keptLayerFor_covers hL'
          obtain rfl := M.eq_of_priority hmem hmem' (not_not.1 hprio)
          -- one path lies above the other in the mount as they do in the folder
          have hrel : sourceRel L vt <+: sourceRel L v → sourceRel L vt = sourceRel L v := by
            intro hle
            subst hr hr'
            unfold sourceRel relUnder at hle ⊢
            rw [List.drop_left, List.drop_left] at hle ⊢
            have hle' := (List.prefix_append_right_inj _).1 hle
            rw [List.append_cancel_left (h ((List.prefix_append_right_inj _).2 hle'))]
          refine Prog.Preserves.modify fun w hw => ⟨hw.whiteout, ?_⟩
          intro hc L' hL'' hroot
          obtain rfl := Option.some_inj.1 (hL.symm.trans hL'')
          dsimp only
          rw [Function.update_self]
          exact not_mem_image_movePrefix (hw.kept hc L hL hroot) hrel

theorem leftToHide_hostOnly (v : Path) {otherwise : Prog World Errno Unit} (h : HostOnly otherwise) :
    HostOnly (leftToHide M v otherwise) :=
  HostOnly.bind (HostOnly.look (resolve_agrees M v)) fun _ => HostOnly.ite
    (fun _ => HostOnly.bind h fun _ => HostOnly.pure _) fun _ => HostOnly.pure _

theorem noneLeft_hostOnly (had : Bool) : HostOnly (noneLeft had) :=
  HostOnly.ite (fun _ => HostOnly.pure _) fun _ => HostOnly.fail _

theorem moveTo_leavesUnhid {vt : Path} (rr : ResolveResult) (isDir : Bool)
    (h : vt <+: v → vt = v) : LeavesUnhid M c v (moveTo M v vt rr isDir) := by
  have hprefix : LeavesUnhid M c v (runIf isDir (keptRenamePrefix M v vt)) :=
    runIf_leavesUnhid (keptRenamePrefix_leavesUnhid h)
  unfold moveTo
  cases M.passthroughHost vt with
  | some dst =>
      exact Prog.Preserves.ite (fun _ => Prog.Preserves.fail _) fun _ =>
        Prog.Preserves.bind (HostOnly.look (Agrees.see _)).leavesUnhid fun _ =>
        Prog.Preserves.bind (HostOnly.ignoring (createDirectories_hostOnly _)).leavesUnhid fun _ =>
        Prog.Preserves.bind (HostOnly.act _).leavesUnhid fun _ =>
        Prog.Preserves.bind hprefix fun _ =>
        Prog.Preserves.bind (runIf_leavesUnhid (keptMarkOpaque_leavesUnhid vt)) fun _ =>
        ignoring_leavesUnhid (unhideLower_leavesUnhid vt)
  | none =>
      exact Prog.Preserves.bind (createDirectoriesEio_hostOnly _).leavesUnhid fun _ =>
        Prog.Preserves.bind (removeWhiteout_leavesUnhid vt) fun _ =>
        Prog.Preserves.bind (HostOnly.act _).leavesUnhid fun _ => hprefix

end

/-- The name moves to no directory above its own. -/
def Deletion.Apart : Deletion → Prop
  | .rename vf vt => vt <+: vf → vt = vf
  | _ => True

/-- **Up to the hiding no mask for the name appears.** -/
theorem upToHide_unhid {c : Prop} (del : Deletion) (h : del.Apart) :
    LeavesUnhid M c del.path (del.upToHide M) := by
  cases del with
  | unlink v =>
      refine Prog.Preserves.ite (fun _ => Prog.Preserves.fail _) fun _ => ?_
      cases M.passthroughHost v with
      | some host =>
          exact (HostOnly.bind (toleratingEnoent_hostOnly (HostOnly.act _)) fun had =>
            leftToHide_hostOnly v (noneLeft_hostOnly had)).leavesUnhid
      | none =>
          refine (HostOnly.bind (HostOnly.ite (fun _ => HostOnly.pure _) fun _ => ?_) fun _ =>
            leftToHide_hostOnly v (HostOnly.pure _)).leavesUnhid
          exact HostOnly.bind (toleratingEnoent_hostOnly (HostOnly.act _)) fun _ => HostOnly.pure _
  | rmdir v =>
      refine Prog.Preserves.ite (fun _ => Prog.Preserves.fail _) fun _ => Prog.Preserves.bind
        (HostOnly.look (collectChildren_agrees M v)).leavesUnhid fun children =>
          Prog.Preserves.ite (fun _ => Prog.Preserves.fail _) fun _ => ?_
      cases M.passthroughHost v with
      | some host =>
          refine Prog.Preserves.bind (keptDropMarkersUnder_leavesUnhid v) fun _ =>
            Prog.Preserves.ite (fun _ => ?_) fun _ => ?_
          · exact Prog.Preserves.bind (keptMarkOpaque_leavesUnhid v) fun _ => Prog.Preserves.pure _
          · exact (HostOnly.bind (toleratingEnoent_hostOnly (HostOnly.act _)) fun had =>
              leftToHide_hostOnly v (noneLeft_hostOnly had)).leavesUnhid
      | none =>
          exact Prog.Preserves.bind (removeWriteDir_leavesUnhid v) fun _ =>
            (leftToHide_hostOnly v (HostOnly.pure _)).leavesUnhid
  | rename vf vt =>
      exact Prog.Preserves.ite (fun _ => Prog.Preserves.fail _) fun _ =>
        Prog.Preserves.bind (HostOnly.look (resolve_agrees M vf)).leavesUnhid fun rr =>
        Prog.Preserves.ite (fun _ => Prog.Preserves.fail _) fun _ =>
        Prog.Preserves.bind (HostOnly.look (hitIsDir_agrees false rr)).leavesUnhid fun isDir =>
        Prog.Preserves.bind (bringUp_hostOnly M vf rr isDir).leavesUnhid fun _ =>
        Prog.Preserves.bind (moveTo_leavesUnhid rr isDir h) fun _ =>
        Prog.Preserves.bind (runIf_leavesUnhid (renameMaskPrefix_leavesUnhid h)) fun _ =>
        (leftToHide_hostOnly vf (HostOnly.pure _)).leavesUnhid

end VidyaGodFS
