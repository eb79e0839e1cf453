/-
**Operations that leave a kept folder where it is.**

A kept folder's source is a directory of the host that takes what the guest writes under it.  The
removal of a directory knows it: the folder's own root is emptied and not removed.  The move of a
directory does not: what is asked for by a kept folder's own name is its source, and the host moves
it.  And a directory above the folder is moved without it: what the folder holds stays in sight only
if the old name is hidden below the folder.

Main definitions:

* `removedHost`, `Aim`, `aimRename` — the host paths that a removal and a move are made with;
* `HostFor` — the host paths that the mount has for a name;
* `MayActAt` — where on the host a call may act that is made with a path;
* `Careful` — the operations that aim at no kept folder;
* `StillShown` — the files that a kept folder shows are shown somewhere.

Main results:

* `gentle_keep` — **gentle calls spare every directory**;
* `vfsRename_aim` — a move is what leads to the call, the call, and the rest;
* `kept_folders_stay` — **in a run of careful operations every kept folder stays where it is**, and a
  move of a directory above it that hides the old name below it leaves its files in sight;
* `kept_folder_moved` — a kept folder moved by its own name, and one hidden with the directory above.
-/

import VidyaGodFS.Gentle
import VidyaGodFS.KeptMoves
import VidyaGodFS.Visits

set_option relaxedAutoImplicit false
set_option autoImplicit false

namespace VidyaGodFS

open Posix

variable {M : Mount} {p : Path}

/-! ### Calls that spare a directory -/

theorem adds_grows {α : Type} {call : Call α} (h : Adds call) : Adding call := by
  cases h with
  | look f => exact (quiet_look f).adding
  | mkdir p mode => exact adding_mkdir p mode
  | symlink target p => exact adding_symlink target p
  | open_ p fl mode => exact adding_open p fl mode
  | pwrite h bs off => exact (quiet_pwrite h bs off).adding
  | fchmod h mode => exact (quiet_fchmod h mode).adding

theorem adds_spared {α : Type} {call : Call α} (h : Adds call) (d : Disk) :
    Tree.Spared p d.tree (call d).2.tree := by
  have hquiet : ∀ {β : Type} {c : Call β}, Quiet c → Tree.Spared p d.tree (c d).2.tree :=
    fun hc => Tree.Spared.of_eq (hc d)
  cases h with
  | look f => exact hquiet (quiet_look f)
  | mkdir q mode =>
      rcases Disk.mkdir_cases q mode d with ⟨e, hf⟩ | ⟨q, -, hnone, -, hput, hi, hrun⟩
      · rw [hf]
        exact Tree.Spared.refl _
      · rw [hrun]
        exact Tree.Spared.step (Tree.Spares.put q _ hput hnone)
  | symlink target q =>
      rcases Disk.symlink_cases target q d with ⟨e, hf⟩ | ⟨q, -, hnone, -, hput, hi, hrun⟩
      · rw [hf]
        exact Tree.Spared.refl _
      · rw [hrun]
        exact Tree.Spared.step (Tree.Spares.put q _ hput hnone)
  | open_ q fl mode =>
      rcases Disk.open_cases q fl mode d with
        ⟨e, hf⟩ | ⟨q, -, ⟨hnone, -, -, hput, hrun⟩ | ⟨i, -, hrun⟩ | ⟨-, hrun⟩⟩
      · rw [hf]
        exact Tree.Spared.refl _
      · rw [hrun]
        exact Tree.Spared.step (Tree.Spares.put q _ hput hnone)
      · rw [hrun]
        exact Tree.Spared.of_eq (by cases fl.trunc <;> rfl)
      · rw [hrun]
        exact Tree.Spared.refl _
  | pwrite h bs off => exact hquiet (quiet_pwrite h bs off)
  | fchmod h mode => exact hquiet (quiet_fchmod h mode)

theorem drops_spared {α : Type} {call : Call α} (h : Drops call) {d : Disk} (hp : d.tree.IsDir p) :
    Tree.Spared p d.tree (call d).2.tree := by
  cases h with
  | unlink q =>
      rcases Disk.unlink_cases q d with ⟨e, hf⟩ | ⟨q, nd, -, hnd, hdir, -, herase, hrun⟩
      · rw [hf]
        exact Tree.Spared.refl _
      · rw [hrun]
        refine Tree.Spared.step (Tree.Spares.erase q herase ?_)
        rintro rfl
        obtain ⟨m, hm⟩ := hp
        rw [hm] at hnd
        rw [← Option.some_inj.1 hnd] at hdir
        cases hdir

theorem gentle_spared {α : Type} {call : Call α} (h : Gentle call) {d : Disk}
    (hp : d.tree.IsDir p) : Tree.Spared p d.tree (call d).2.tree := by
  cases h with
  | adds h => exact adds_spared h d
  | drops h => exact drops_spared h hp
  | link src dst =>
      rcases Disk.link_cases src dst d with ⟨e, hf⟩ | ⟨a, b, nd, -, -, -, -, hnone, -, hput, hi, hrun⟩
      · rw [hf]
        exact Tree.Spared.refl _
      · rw [hrun]
        exact Tree.Spared.step (Tree.Spares.put b nd hput hnone)
  | truncate q size => exact Tree.Spared.of_eq (quiet_truncate q size d)
  | ftruncate h size => exact Tree.Spared.of_eq (quiet_ftruncate h size d)
  | chmod q mode =>
      rcases Disk.chmod_cases q mode d with ⟨e, hf⟩ | ⟨q, -, ⟨i, -, hrun⟩ | ⟨hdir, hrun⟩⟩
      · rw [hf]
        exact Tree.Spared.refl _
      · rw [hrun]
        exact Tree.Spared.refl _
      · rw [hrun]
        exact Tree.Spared.step (Tree.Spares.setMode q mode hdir)

/-- The directory at `p` is the one that was there in `t`. -/
def Stays (p : Path) (t : Tree) (d : Disk) : Prop := Tree.Spared p t d.tree ∧ d.tree.IsDir p

theorem Stays.step {t : Tree} {d d' : Disk} (h : Stays p t d)
    (hstep : Tree.Spared p d.tree d'.tree) : Stays p t d' :=
  ⟨h.1.trans hstep, hstep.isDir h.2⟩

/-- **Gentle calls spare every directory.** -/
theorem gentle_keep (t : Tree) : Gentle.Keep (Stays p t) :=
  fun _ _ hcall _ hd => hd.step (gentle_spared hcall hd.2)

/-- The operation leaves the directory where it is. -/
def Leaves (p : Path) {α : Type} (m : Prog World Errno α) (w : World) : Prop :=
  ∀ t, Stays p t w.state.disk → Stays p t (m w).2.state.disk

theorem Within.leaves {α : Type} {m : Prog World Errno α} (h : Within Gentle m) (w : World) :
    Leaves p m w := fun t => h _ (gentle_keep t) w

namespace Leaves

variable {α β : Type}

theorem bind {m : Prog World Errno α} {f : α → Prog World Errno β} {w : World} (hm : Leaves p m w)
    (hf : ∀ a w', m w = (.ok a, w') → w'.state.disk.tree.IsDir p → Leaves p (f a) w') :
    Leaves p (m >>= f) w := fun t ht =>
  Prog.bind_ends (I := fun w : World => Stays p t w.state.disk) (hm t ht)
    fun a w' h ht' => hf a w' h ht'.2 t ht'

/-- A call that spares the directory. -/
theorem act {call : Call α} {w : World}
    (h : w.state.disk.tree.IsDir p → Tree.Spared p w.state.disk.tree (call w.state.disk).2.tree) :
    Leaves p (act call) w := by
  intro t ht
  unfold VidyaGodFS.act
  cases w.fate 0 with
  | none => exact ht.step (h ht.2)
  | some e => exact ht

theorem ite {c : Prop} [Decidable c] {m m' : Prog World Errno α} {w : World}
    (h : c → Leaves p m w) (h' : ¬ c → Leaves p m' w) : Leaves p (if c then m else m') w := by
  by_cases hc : c
  · rw [if_pos hc]
    exact h hc
  · rw [if_neg hc]
    exact h' hc

end Leaves

/-! ### Making a directory -/

/-- The host path leads to an entry, and not to `p`. -/
def LeadsElsewhere (p : Path) (host : HostPath) (d : Disk) : Prop :=
  ∃ q, d.find false host = .ok q ∧ d.tree.node q ≠ none ∧ q ≠ p

/-- A directory that was made is a new one. -/
theorem mkdir_elsewhere {host : HostPath} {mode : ℕ} {d d' : Disk} (hp : d.tree.IsDir p)
    (hrun : Disk.mkdir host mode d = (.ok (), d')) : LeadsElsewhere p host d' := by
  rcases Disk.mkdir_cases host mode d with ⟨e, hf⟩ | ⟨q, hq, hnone, -, hput, hi, hok⟩
  · rw [hrun] at hf
    cases hf
  · rw [hrun] at hok
    obtain rfl := congrArg Prod.snd hok
    have hnew : (d.put q (.dir mode) hput hi).tree.node q = some (.dir mode) := by simp
    refine ⟨q, ?_, by rw [hnew]; exact Option.some_ne_none _, ?_⟩
    · cases host with
      | none => cases hq
      | some h =>
          exact Tree.locate_grows_end (Tree.grows_put hput hnone) hq fun target => by
            rw [← Disk.put_tree hput hi, hnew]
            simp
    · rintro rfl
      exact hp.ne_none hnone

/-- What only adds does not lead it away. -/
theorem elsewhere_keep (host : HostPath) : Adds.Keep (LeadsElsewhere p host) := by
  rintro α call hcall d ⟨q, hq, hne, hqp⟩
  have hgrows := adds_grows hcall d
  obtain ⟨nd, hnd⟩ := Option.ne_none_iff_exists'.1 hne
  exact ⟨q, Disk.find_grows hgrows hq hne, by rw [hgrows q nd hnd]; exact Option.some_ne_none _, hqp⟩

theorem startEmpty_leaves {v : Path} {host : HostPath} {w : World}
    (h : LeadsElsewhere p host w.state.disk) : Leaves p (startEmpty M v host) w := by
  have hkeep := (keptMarkOpaque_adds (M := M) v) _ (elsewhere_keep (p := p) host) w h
  refine Leaves.bind ((Within.attempt (keptMarkOpaque_adds v)).gentle.leaves _) fun r w' hrun _ => ?_
  obtain rfl := congrArg Prod.snd hrun
  cases r with
  | ok u => exact (Within.pure _).leaves _
  | error e =>
      refine Leaves.bind ?_ fun _ _ _ _ => (Within.fail e).leaves _
      refine Leaves.bind (Leaves.act fun _ => Disk.rmdir_spared fun q hq => ?_)
        fun _ _ _ _ => (Within.pure _).leaves _
      obtain ⟨q', hq', -, hne⟩ := hkeep
      change (keptMarkOpaque M v w).2.state.disk.find false host = .ok q at hq
      rw [hq'] at hq
      rwa [← Except.ok.inj hq]

/-- **Making a directory moves none**: one that is taken away again is the one that was made. -/
theorem vfsMkdir_leaves (v : Path) (mode : ℕ) (w : World) : Leaves p (vfsMkdir M v mode) w := by
  refine Leaves.ite (fun _ => (Within.fail _).leaves w) fun _ => ?_
  cases M.passthroughHost v with
  | none =>
      refine Within.leaves ?_ w
      exact Within.bind (Within.look (Agrees.see _)) fun _ =>
        Within.bind (removeWhiteout_drops v).gentle_of_drops fun _ =>
        Within.bind (createDirectoriesEio_adds _).gentle fun _ =>
        Within.bind (Within.act (Adds.mkdir _ _)).gentle fun _ =>
        runIf_within (markOpaque_adds v).gentle
  | some host =>
      refine Leaves.ite (fun _ => (Within.fail _).leaves w) fun _ =>
        Leaves.bind ((Within.look (Agrees.see _)).leaves w) fun gone w₁ _ _ =>
        Leaves.ite (fun _ => (removeWhiteout_drops v).gentle_of_drops.leaves w₁) fun _ =>
        Leaves.bind ((Within.look (Agrees.see _)).leaves w₁) fun overDeleted w₂ _ _ =>
        Leaves.bind ((ensureHostParent_adds host).gentle.leaves w₂) fun _ w₃ _ hdir =>
        Leaves.bind ((Within.act (Adds.mkdir _ _)).gentle.leaves w₃) fun _ w₄ hmade _ =>
        Leaves.bind ?_ fun _ w₅ _ _ =>
          (Within.ignoring (unhideLower_drops v).gentle_of_drops).leaves w₅
      exact Leaves.ite (fun _ => startEmpty_leaves (mkdir_elsewhere hdir (act_ok hmade)))
        fun _ => (Within.pure _).leaves w₄

/-! ### Removing a directory -/

/-- A call on the host path `q` may act at `x`: at `q` itself if its directory is there as it is
written, and at an entry of the same name in any case. -/
def MayActAt (d : Disk) (q x : Path) : Prop :=
  x.getLast? = q.getLast? ∧ (d.tree.IsDir q.dropLast → x = q)

/-- The directories of `d` are directories of `d'`. -/
def DirsStay (d d' : Disk) : Prop := ∀ q, d.tree.IsDir q → d'.tree.IsDir q

theorem DirsStay.refl (d : Disk) : DirsStay d d := fun _ h => h

theorem DirsStay.trans {d d' d'' : Disk} (h : DirsStay d d') (h' : DirsStay d' d'') : DirsStay d d'' :=
  fun q hq => h' q (h q hq)

theorem Within.dirsStay {α : Type} {m : Prog World Errno α} (h : Within Gentle m) {w w' : World}
    {r : Except Errno α} (hrun : m w = (r, w')) : DirsStay w.state.disk w'.state.disk := by
  intro q hq
  have hstays := h _ (gentle_keep (p := q) w.state.disk.tree) w ⟨Tree.Spared.refl _, hq⟩
  rw [hrun] at hstays
  exact hstays.2

/-- **Where a path leads later on**, it may have led from the start. -/
theorem mayActAt_of_find {d d' : Disk} (h : DirsStay d d') {q x : Path}
    (hx : d'.find false (some q) = .ok x) : MayActAt d q x := by
  refine ⟨?_, fun hdir => Tree.locate_plain (Tree.plain_of_parent (h _ hdir)) hx⟩
  rcases q.eq_nil_or_concat' with rfl | ⟨r, n, rfl⟩
  · rw [← Except.ok.inj (show Except.ok [] = Except.ok x from hx)]
  · obtain ⟨dir, -, rfl⟩ := Tree.locate_concat hx
    rw [List.getLast?_concat, List.getLast?_concat]

/-- What a removal has gone through before it is made leaves the directories where they are. -/
theorem rmdir_leaves {host : HostPath} {w : World} {d : Disk} (hdirs : DirsStay d w.state.disk)
    (haim : ∀ q, host = some q → ∀ x, MayActAt d q x → x ≠ p) : Leaves p (act (Disk.rmdir host)) w := by
  refine Leaves.act fun _ => Disk.rmdir_spared fun x hx => ?_
  cases host with
  | none => cases hx
  | some q => exact haim q rfl x (mayActAt_of_find hdirs hx)

variable (M) in
/-- The host path that the removal of the directory `v` is made with; none for a kept folder's own
root, which is emptied only. -/
def removedHost (v : Path) : HostPath :=
  match M.passthroughHost v with
  | some host => if (keptRoot M v).isSome then none else host
  | none => if M.writelayer = none then none else M.wlPath v

theorem vfsRmdir_leaves {v : Path} {w : World}
    (haim : ∀ q, removedHost M v = some q → ∀ x, MayActAt w.state.disk q x → x ≠ p) :
    Leaves p (vfsRmdir M v) w := by
  refine Leaves.ite (fun _ => (Within.fail _).leaves w) fun _ =>
    Leaves.bind ((Within.look (collectChildren_agrees M v)).leaves w) fun children w₁ hlist _ =>
    Leaves.ite (fun _ => (Within.fail _).leaves w₁) fun _ => ?_
  have hdirs₁ := Within.dirsStay (Within.look (collectChildren_agrees M v)) hlist
  unfold removedHost at haim
  cases hhost : M.passthroughHost v with
  | some host =>
      rw [hhost] at haim
      dsimp only at haim ⊢
      refine Leaves.bind ((keptDropMarkersUnder_drops v).gentle_of_drops.leaves w₁) fun _ w₂ hdrop _ =>
        Leaves.ite (fun _ => ?_) fun hroot => ?_
      · exact (Within.bind (keptMarkOpaque_adds v) fun _ => createWhiteout_adds v).gentle.leaves w₂
      · rw [if_neg hroot] at haim
        have hdirs₂ := hdirs₁.trans ((keptDropMarkersUnder_drops v).gentle_of_drops.dirsStay hdrop)
        refine Leaves.bind ?_ fun had w₃ _ _ =>
          (hideRest_within v (hideLower_adds v).gentle (noneLeft_within had)).leaves w₃
        refine Leaves.bind (rmdir_leaves hdirs₂ haim) fun r w' _ _ => Within.leaves ?_ w'
        cases r with
        | ok u => exact Within.pure _
        | error e => exact Within.ite (fun _ => Within.pure _) fun _ => Within.fail e
  | none =>
      rw [hhost] at haim
      dsimp only at haim ⊢
      refine Leaves.bind (Leaves.ite (fun _ => (Within.pure _).leaves w₁) fun hwl => ?_)
        fun _ w₂ _ _ => (hideRest_within v (createWhiteout_adds v).gentle (Within.pure _)).leaves w₂
      rw [if_neg hwl] at haim
      refine Leaves.bind ((Within.look (lookDir_agrees _)).leaves w₁) fun names w₂ hnames _ =>
        Leaves.bind ((sweepMarkers_drops v names).gentle_of_drops.leaves w₂) fun _ w₃ hsweep _ =>
        Leaves.bind ?_ fun _ w₄ _ _ => (Within.pure _).leaves w₄
      exact rmdir_leaves ((hdirs₁.trans (Within.dirsStay (Within.look (lookDir_agrees _)) hnames)).trans
        ((sweepMarkers_drops v names).gentle_of_drops.dirsStay hsweep)) haim

/-! ### Moving -/

/-- What a move is made with, and what it is known to move. -/
structure Aim where
  src : HostPath
  dst : HostPath
  isDir : Bool
  overDeleted : Bool

variable (M) in
/-- What leads a move to its call. -/
def aimRename (vf vt : Path) : Prog World Errno Aim :=
  if M.readOnly then Prog.fail .erofs
  else do
    let rr ← resolve M vf
    if rr.isNone then Prog.fail .enoent
    else do
      let isDir ← hitIsDir false rr
      bringUp M vf rr isDir
      match M.passthroughHost vt with
      | some dst =>
          if markerName vt then Prog.fail .einval
          else do
            let dstOverDeleted ← see fun s => keptHidden M s vt
            ensureHostParent dst
            pure ⟨writeHost M vf rr, dst, isDir, dstOverDeleted⟩
      | none => do
          ensureWriteParent M vt
          removeWhiteout M vt
          pure ⟨writeHost M vf rr, M.wlPath vt, isDir, false⟩

variable (M) in
/-- What came to the place `vt` of a kept folder is no longer hidden there. -/
def unhideMoved (vt : Path) (a : Aim) : Prog World Errno Unit :=
  match M.passthroughHost vt with
  | some _ => do
      runIf (a.isDir && a.overDeleted) (keptMarkOpaque M vt)
      ignoring (unhideLower M vt)
  | none => pure ()

variable (M) in
/-- What a move does about the masks once the call is made. -/
def afterRename (vf vt : Path) (a : Aim) : Prog World Errno Unit := do
  runIf a.isDir (keptRenamePrefix M vf vt)
  unhideMoved M vt a
  runIf a.isDir (renameMaskPrefix M vf vt)
  hideRest M vf (hideLower M vf) (pure ())

/-- **A move is what leads to the call, the call, and the rest.** -/
theorem vfsRename_aim (vf vt : Path) :
    vfsRename M vf vt = aimRename M vf vt >>= fun a =>
      act (Disk.rename a.src a.dst) >>= fun _ => afterRename M vf vt a := by
  unfold vfsRename aimRename
  cases M.readOnly with
  | true => rfl
  | false =>
      rw [if_neg Bool.false_ne_true, if_neg Bool.false_ne_true, Prog.bind_assoc_apply]
      congr 1
      funext rr
      cases rr.isNone with
      | true => rfl
      | false =>
          rw [if_neg Bool.false_ne_true, if_neg Bool.false_ne_true]
          simp only [Prog.bind_assoc_apply]
          congr 1
          funext isDir
          congr 1
          funext _
          unfold moveTo afterRename unhideMoved
          cases M.passthroughHost vt with
          | some dst =>
              dsimp only
              cases markerName vt with
              | true => rfl
              | false =>
                  rw [if_neg Bool.false_ne_true, if_neg Bool.false_ne_true]
                  simp only [Prog.bind_assoc_apply, Prog.pure_bind]
          | none => simp only [Prog.bind_assoc_apply, Prog.pure_bind]

variable (M) in
/-- `q` is a host path that the mount has for `v`: in a kept folder that covers it, or in the
writelayer. -/
def HostFor (v q : Path) : Prop :=
  M.wlPath v = some q ∨
    ∃ K ∈ M.layers, K.isKept = true ∧ layerCovers K v = true ∧ layerHost K v = some q

theorem hostFor_copyDest {v q : Path} (h : copyDest M v = some q) : HostFor M v q := by
  unfold copyDest Mount.passthroughHost at h
  cases hL : M.keptLayerFor v with
  | none =>
      rw [hL] at h
      exact Or.inl h
  | some L =>
      rw [hL] at h
      obtain ⟨hkept, hcov⟩ : L.isKept = true ∧ layerCovers L v = true := by
        simpa using List.find?_some hL
      exact Or.inr ⟨L, List.mem_reverse.1 (List.mem_of_find?_eq_some hL), hkept, hcov, h⟩

/-- What is changed for a path is a host path of it. -/
theorem hostFor_writeHost {v q : Path} {rr : ResolveResult} (hfits : Fits M v rr)
    (h : writeHost M v rr = some q) : HostFor M v q := by
  unfold writeHost at h
  cases hrw : rr.rwPassthrough with
  | false =>
      rw [if_neg (by simp [hrw])] at h
      exact hostFor_copyDest h
  | true =>
      rw [if_pos hrw] at h
      cases rr with
      | dirLayer host K =>
          obtain ⟨hK, hcov, hdir, rfl⟩ := hfits
          exact Or.inr ⟨K, hK, by rw [Layer.isKept, hdir]; exact hrw, hcov, h⟩
      | _ => cases hrw

/-- A move is made from a host path of the old name to the place of the new one. -/
theorem aimRename_returns (vf vt : Path) :
    Returns (fun a => (∀ q, a.src = some q → HostFor M vf q) ∧ a.dst = copyDest M vt)
      (aimRename M vf vt) := by
  refine Returns.ite (fun _ w a w' h => by cases h) fun _ => Returns.bind (resolve_fits M vf)
    fun rr hfits => Returns.ite (fun _ w a w' h => by cases h) fun _ =>
      Returns.bind (Returns.triv _) fun isDir _ => Returns.bind (Returns.triv _) fun _ _ => ?_
  unfold copyDest
  cases M.passthroughHost vt with
  | some dst =>
      exact Returns.ite (fun _ w a w' h => by cases h) fun _ =>
        Returns.bind (Returns.triv _) fun _ _ => Returns.bind (Returns.triv _) fun _ _ =>
        Returns.pure ⟨fun q hq => hostFor_writeHost hfits hq, rfl⟩
  | none =>
      exact Returns.bind (Returns.triv _) fun _ _ => Returns.bind (Returns.triv _) fun _ _ =>
        Returns.pure ⟨fun q hq => hostFor_writeHost hfits hq, rfl⟩

theorem aimRename_gentle (vf vt : Path) : Within Gentle (aimRename M vf vt) := by
  refine Within.ite (fun _ => Within.fail _) fun _ =>
    Within.bind (Within.look (resolve_agrees M vf)) fun rr =>
    Within.ite (fun _ => Within.fail _) fun _ =>
    Within.bind (Within.look (hitIsDir_agrees false rr)) fun isDir =>
    Within.bind (bringUp_patches vf rr isDir).gentle_of_patches fun _ => ?_
  cases M.passthroughHost vt with
  | some dst =>
      exact Within.ite (fun _ => Within.fail _) fun _ =>
        Within.bind (Within.look (Agrees.see _)) fun _ =>
        Within.bind (ensureHostParent_adds dst).gentle fun _ => Within.pure _
  | none =>
      exact Within.bind (createDirectoriesEio_adds _).gentle fun _ =>
        Within.bind (removeWhiteout_drops vt).gentle_of_drops fun _ => Within.pure _

theorem afterRename_gentle (vf vt : Path) (a : Aim) : Within Gentle (afterRename M vf vt a) := by
  refine Within.bind (runIf_within (keptRenamePrefix_within vf vt)) fun _ =>
    Within.bind ?_ fun _ => Within.bind (runIf_within (renameMaskPrefix_within vf vt)) fun _ =>
      hideRest_within vf (hideLower_adds vf).gentle (Within.pure _)
  unfold unhideMoved
  cases M.passthroughHost vt with
  | some dst =>
      exact Within.bind (runIf_within (keptMarkOpaque_adds vt).gentle) fun _ =>
        Within.ignoring (unhideLower_drops vt).gentle_of_drops
  | none => exact Within.pure _

/-- A move spares a directory if it can be made neither from there or from above, nor to there. -/
theorem vfsRename_leaves {vf vt : Path} {w : World}
    (hsrc : ∀ q, HostFor M vf q → ∀ x, MayActAt w.state.disk q x → ¬ x <+: p)
    (hdst : ∀ q, copyDest M vt = some q → ∀ x, MayActAt w.state.disk q x → x ≠ p) :
    Leaves p (vfsRename M vf vt) w := by
  rw [vfsRename_aim]
  refine Leaves.bind ((aimRename_gentle vf vt).leaves w) fun a w₁ haim _ => ?_
  have hdirs := (aimRename_gentle vf vt).dirsStay haim
  obtain ⟨hfor, hto⟩ := aimRename_returns vf vt w a w₁ haim
  refine Leaves.bind (Leaves.act fun _ => Disk.rename_spared (fun x hx => ?_) fun x hx => ?_)
    fun _ w₂ _ _ => (afterRename_gentle vf vt a).leaves w₂
  · cases hq : a.src with
    | none =>
        rw [hq] at hx
        cases hx
    | some q =>
        rw [hq] at hx
        exact hsrc q (hfor q hq) x (mayActAt_of_find hdirs hx)
  · cases hq : a.dst with
    | none =>
        rw [hq] at hx
        cases hx
    | some q =>
        rw [hq] at hx
        exact hdst q (hto.symm.trans hq) x (mayActAt_of_find hdirs hx)

/-! ### Runs -/

variable (M) in
/-- **The operation aims at no kept folder**: a removal can be made at no kept folder's source, and a
move neither from one or from above one, nor to one. -/
def Careful (w : World) : Op → Prop
  | .rmdir v => ∀ L ∈ M.layers, L.isKept = true → ∀ s, L.source = some s →
      ∀ q, removedHost M v = some q → ∀ x, MayActAt w.state.disk q x → x ≠ s
  | .rename vf vt => ∀ L ∈ M.layers, L.isKept = true → ∀ s, L.source = some s →
      (∀ q, HostFor M vf q → ∀ x, MayActAt w.state.disk q x → ¬ x <+: s) ∧
        ∀ q, copyDest M vt = some q → ∀ x, MayActAt w.state.disk q x → x ≠ s
  | _ => True

/-- **A careful operation leaves every kept folder where it is.** -/
theorem exec_leaves {w : World} {op : Op} (h : Careful M w op) {L : Layer} (hL : L ∈ M.layers)
    (hkept : L.isKept = true) {s : Path} (hs : L.source = some s) : Leaves s (exec M op) w := by
  by_cases hop : op.Rough
  · cases op with
    | mkdir v mode => exact vfsMkdir_leaves v mode w
    | rmdir v => exact vfsRmdir_leaves (h L hL hkept s hs)
    | rename vf vt => exact vfsRename_leaves (h L hL hkept s hs).1 (h L hL hkept s hs).2
    | _ => exact hop.elim
  · exact (exec_gentle op hop).leaves w

theorem init_adds (M : Mount) : Within Adds (init M) := by
  refine Within.bind (Within.ite (fun _ => Within.pure _) fun _ =>
    Within.ignoring (createDirectories_adds _)) fun _ => Within.bind (Within.mutate fun s => ?_)
      fun _ => Within.forM fun L _ => Within.ite (fun _ => Within.mutate fun _ => rfl)
        fun _ => Within.pure _
  unfold seedMasksFromWritelayer
  split_ifs <;> rfl

variable (M) in
/-- The files that the kept folder shows in `s`, the mount shows somewhere in `s'`. -/
def StillShown (s s' : VfsState) (L : Layer) : Prop :=
  ∀ v, ShowsFile M s L v → ∃ u, lookup M s' u = .dirLayer (layerHost L v) L

/-- **In a run of careful operations every kept folder stays where it is**, whatever the host refuses:
no operation takes its source out, moves it or puts something in its place.  And where a directory
above it is moved that a kept folder below it takes, so that the old name is hidden below the folder
only, the folder's files are still shown. -/
theorem kept_folders_stay (M : Mount) (d : Disk) (fate blind : ℕ → Option Errno) {w : World}
    (hrun : Reaches M (Careful M) (mounted M d fate blind) w) {L : Layer} (hL : L ∈ M.layers)
    (hkept : L.isKept = true) {s : Path} (hs : L.source = some s) (hdir : d.tree.IsDir s) :
    Stays s d.tree w.state.disk ∧
      ∀ vf vt, vf <+: L.target → vf ≠ L.target → KeepsSight M L w.state vf vt →
        StillShown M w.state (exec M (.rename vf vt) (calm w.state)).2.state L := by
  refine ⟨?_, fun vf vt hle hne hsight v hv => ⟨v, ?_⟩⟩
  · refine hrun.invariant (I := fun w => Stays s d.tree w.state.disk) ?_ fun w op hw hop =>
      exec_leaves hop hL hkept hs _ hw
    exact (init_adds M).gentle _ (gentle_keep d.tree) ⟨unseeded d, fate, blind⟩
      ⟨Tree.Spared.refl _, hdir⟩
  · have hrw : L.rw = true := by
      rw [Layer.isKept, Bool.and_eq_true] at hkept
      exact hkept.2
    exact (vfsRename_showsFile hsight hle hne hrw hv).found

/-! ### A folder of saves -/

/-- The directories of a writelayer and of two folders that are kept. -/
def savesDirs : Disk :=
  [Disk.mkdir (some ["wl"]) 0o755, Disk.mkdir (some ["kept"]) 0o755,
    Disk.mkdir (some ["outer"]) 0o755, Disk.mkdir (some ["outer", "sub"]) 0o755].foldl
      (fun d call => (call d).2) Disk.blank

/-- And a file in one of the folders. -/
def savesDisk : Disk :=
  (Disk.open (some ["kept", "slot"]) ⟨.wronly, true, false, false, false⟩ 0o644 savesDirs).2

/-- The folder with the file, kept at `target`. -/
def savesLayer (target : Path) (priority : ℕ) : Layer :=
  ⟨.dir, some ["kept"], target, [], true, [], priority⟩

def savesMount : Mount where
  writelayer := some ["wl"]
  readOnly := false
  flattenSymlinks := true
  layers := [savesLayer ["game", "saves"] 0]
  priority_eq := rfl
  pathDepth := 8

def savesWorld : World := mounted savesMount savesDisk allowed allowed

/-- The folder is moved by its own name. -/
def movedWorld : World := (exec savesMount (.rename ["game", "saves"] ["old"]) savesWorld).2

/-- The directory above the folder is moved. -/
def hiddenWorld : World := (exec savesMount (.rename ["game"] ["old"]) savesWorld).2

/-- What is hidden with the directory above it is shown nowhere. -/
theorem slot_hidden {s : VfsState}
    (hnone : (lookup savesMount s ["game", "saves", "slot"]).isNone = true) (u : Path) :
    lookup savesMount s u ≠ .dirLayer (layerHost (savesLayer ["game", "saves"] 0)
      ["game", "saves", "slot"]) (savesLayer ["game", "saves"] 0) := by
  intro hu
  have hfits := (lookup_isFound savesMount s u).1
  rw [hu] at hfits
  obtain ⟨-, hcov, -, hhost⟩ := hfits
  obtain ⟨r, rfl⟩ : ["game", "saves"] <+: u := List.isPrefixOf_iff_prefix.1 hcov
  obtain rfl : ["slot"] = r := by
    have hrel : some (["kept"] ++ ["slot"]) = some (["kept"] ++ r) := hhost
    exact List.append_cancel_left (Option.some_inj.1 hrel)
  have hu' : lookup savesMount s ["game", "saves", "slot"] = _ := hu
  rw [hu'] at hnone
  cases hnone

/-- **A kept folder moved by its own name, and one hidden with the directory above.**  The source of
the first is in the writelayer afterwards; the file of the second is shown nowhere. -/
theorem kept_folder_moved :
    ((exec savesMount (.rename ["game", "saves"] ["old"]) savesWorld).1 = .ok () ∧
      savesWorld.state.disk.tree.IsDir ["kept"] ∧
      movedWorld.state.disk.tree.node ["kept"] = none ∧
      movedWorld.state.disk.tree.IsDir ["wl", "old"]) ∧
    ((exec savesMount (.rename ["game"] ["old"]) savesWorld).1 = .ok () ∧
      ¬ StillShown savesMount savesWorld.state hiddenWorld.state (savesLayer ["game", "saves"] 0)) := by
  refine ⟨⟨by decide +kernel, ⟨0o755, by decide +kernel⟩, by decide +kernel,
    ⟨0o755, by decide +kernel⟩⟩, by decide +kernel, fun hshown => ?_⟩
  have hnone : (lookup savesMount hiddenWorld.state ["game", "saves", "slot"]).isNone = true := by
    decide +kernel
  have hbefore : ShowsFile savesMount savesWorld.state (savesLayer ["game", "saves"] 0)
      ["game", "saves", "slot"] := ⟨rfl, by decide +kernel⟩
  obtain ⟨u, hu⟩ := hshown _ hbefore
  exact slot_hidden hnone u hu

/-- The same folder over another that is kept around it. -/
def nestedMount : Mount where
  writelayer := some ["wl"]
  readOnly := false
  flattenSymlinks := true
  layers := [⟨.dir, some ["outer"], ["game"], [], true, [], 0⟩, savesLayer ["game", "sub", "saves"] 1]
  priority_eq := rfl
  pathDepth := 8

def nestedWorld : World := mounted nestedMount savesDisk allowed allowed

theorem savesDisk_linkless (p : Path) : savesDisk.tree.Linkless p := by
  have hblank : ∀ q target, Disk.blank.tree.node q ≠ some (.link target) := by
    intro q target h
    by_cases hq : q = [] <;> simp [Disk.blank, hq] at h
  have haside : ∀ q, Aside (fun _ => False) Disk.blank.tree q :=
    fun q => ⟨fun r _ => hblank r, not_false⟩
  have hkeep : (CallsAside (fun _ => False) Disk.blank.tree).Keep fun d =>
      Sighted (fun _ => False) Disk.blank.tree d.tree := callsAside_keep nofun
  have hwl := hkeep _ (CallsAside.mkdir 0o755 (haside ["wl"])) _ (Sighted.refl _ _)
  have hkept := hkeep _ (CallsAside.mkdir 0o755 (haside ["kept"])) _ hwl
  have houter := hkeep _ (CallsAside.mkdir 0o755 (haside ["outer"])) _ hkept
  have hsub := hkeep _ (CallsAside.mkdir 0o755 (haside ["outer", "sub"])) _ houter
  have hslot := hkeep _ (CallsAside.open_ ⟨.wronly, true, false, false, false⟩ 0o644
    (haside ["kept", "slot"])) _ hsub
  exact fun q _ target h => hblank q target (hslot.links q target h)

theorem nestedMount_apart : nestedMount.Apart := by
  have hplaces : ∀ o, nestedMount.IsPlace o → o = none ∨
      o = some ⟨.dir, some ["outer"], ["game"], [], true, [], 0⟩ ∨
        o = some (savesLayer ["game", "sub", "saves"] 1) := by
    intro o ho
    cases o with
    | none => exact Or.inl rfl
    | some L =>
        obtain rfl | rfl : L = _ ∨ L = _ := by simpa [nestedMount] using ho.1
        · exact Or.inr (Or.inl rfl)
        · exact Or.inr (Or.inr rfl)
  constructor
  · intro o ho
    rcases hplaces o ho with rfl | rfl | rfl
    · exact ⟨["wl"], rfl⟩
    · exact ⟨["outer"], rfl⟩
    · exact ⟨["kept"], rfl⟩
  · intro o o' r r' ho ho' hr hr' hle
    rcases hplaces o ho with rfl | rfl | rfl <;> obtain rfl := Option.some_inj.1 hr <;>
      rcases hplaces o' ho' with rfl | rfl | rfl <;> obtain rfl := Option.some_inj.1 hr' <;>
      first | rfl | exact absurd hle (by decide)

theorem nested_keepsSight : KeepsSight nestedMount (savesLayer ["game", "sub", "saves"] 1)
    nestedWorld.state ["game", "sub"] ["game", "old"] where
  apart := nestedMount_apart
  below := ⟨_, rfl, by decide, by decide⟩
  above := by decide
  inside := by decide
  named := by decide
  taken := Or.inl nofun
  entry := by
    rintro T ⟨⟩
    decide
  links o u _ _ _ q _ := savesDisk_linkless q
  archives := by
    intro P hP Z ht
    obtain rfl | rfl : P = _ ∨ P = _ := by simpa [nestedMount] using hP
    · cases ht
    · cases ht

theorem nested_careful : Careful nestedMount nestedWorld (.rename ["game", "sub"] ["game", "old"]) := by
  intro L hL _ s hs
  obtain ⟨m, rfl, hm⟩ : ∃ m, s = [m] ∧ (m = "outer" ∨ m = "kept") := by
    obtain rfl | rfl : L = _ ∨ L = _ := by simpa [nestedMount] using hL
    · exact ⟨"outer", (Option.some_inj.1 hs).symm, Or.inl rfl⟩
    · exact ⟨"kept", (Option.some_inj.1 hs).symm, Or.inr rfl⟩
  -- no path with another last name is a source, or above one
  have hother : ∀ {n : Name} {x : Path}, x.getLast? = some n → n ≠ "outer" → n ≠ "kept" → ¬ x <+: [m] := by
    intro n x hx houter hkept hle
    rcases List.prefix_concat_iff.1 (show x <+: [] ++ [m] from hle) with rfl | hle
    · obtain rfl := Option.some_inj.1 hx
      exact hm.elim houter hkept
    · rw [List.prefix_nil.1 hle] at hx
      cases hx
  refine ⟨?_, ?_⟩
  · rintro q (hq | ⟨K, hK, -, hcov, hq⟩) x ⟨hx, -⟩
    · obtain rfl : ["wl", "game", "sub"] = q := Option.some_inj.1 hq
      exact hother hx (by decide) (by decide)
    · obtain rfl | rfl : K = _ ∨ K = _ := by simpa [nestedMount] using hK
      · obtain rfl : ["outer", "sub"] = q := Option.some_inj.1 hq
        exact hother hx (by decide) (by decide)
      · exact absurd hcov (by decide)
  · rintro q hq x ⟨hx, -⟩ rfl
    obtain rfl : ["outer", "old"] = q := Option.some_inj.1 hq
    exact hother hx (by decide) (by decide) (List.prefix_refl _)

/-- A directory above the folder is moved, and its file is still shown; the folder stays where it is. -/
theorem saves_stay :
    Stays ["kept"] savesDisk.tree
      (exec nestedMount (.rename ["game", "sub"] ["game", "old"]) nestedWorld).2.state.disk ∧
    StillShown nestedMount nestedWorld.state
      (exec nestedMount (.rename ["game", "sub"] ["game", "old"]) (calm nestedWorld.state)).2.state
      (savesLayer ["game", "sub", "saves"] 1) := by
  have hmem : savesLayer ["game", "sub", "saves"] 1 ∈ nestedMount.layers := by simp [nestedMount]
  have hdir : savesDisk.tree.IsDir ["kept"] := ⟨0o755, by decide +kernel⟩
  have hstart : Reaches nestedMount (Careful nestedMount) (mounted nestedMount savesDisk allowed allowed)
      nestedWorld := Reaches.refl
  have hmoved := Reaches.step _ hstart nested_careful
  obtain ⟨hstays, -⟩ := kept_folders_stay nestedMount savesDisk allowed allowed hmoved hmem rfl rfl hdir
  obtain ⟨-, hshown⟩ := kept_folders_stay nestedMount savesDisk allowed allowed hstart hmem rfl rfl hdir
  exact ⟨hstays, hshown ["game", "sub"] ["game", "old"] (by decide) (by decide) nested_keepsSight⟩

end VidyaGodFS
