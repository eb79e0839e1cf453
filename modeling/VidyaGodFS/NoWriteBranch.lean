/-
**Mounts without a writable branch.**

A mount is without a writable branch when it is read-only or has no writelayer.  The two are checked
in different places.  Under the first every operation that would change something is refused at
once.  Under the second the operations that copy up first are refused by the copy-up, and a new name
at the root of the mount is refused by the directory it would need.  A new name further down is made
below an empty prefix, that is from the root of the host, also by a move or a link of a kept folder's
file; and a removal reports success for nothing.

Main definitions:

* `Unwritable`, `Op.Mutates`, `Op.OnUncovered` — the mounts, operations and paths in question;
* `Harmless` — an operation that is refused and leaves the host and the masks as they are;
* `Guarded`, `Admitted` — the operations that are refused somewhere.

Main results:

* `guarded_harmless` — **in every world a guarded operation is harmless**;
* `nested_mkdir_not_harmless` — making a directory below a directory of the mount is not.
-/

import VidyaGodFS.VfsOps

set_option relaxedAutoImplicit false
set_option autoImplicit false

namespace VidyaGodFS

open Posix

variable {M : Mount}

/-! ### What is asked for -/

/-- The mount has no writable branch. -/
def Unwritable (M : Mount) : Prop := M.readOnly = true ∨ M.writelayer = none

/-- No kept folder takes what is written at `v`. -/
def Uncovered (M : Mount) (v : Path) : Prop := M.keptLayerFor v = none

/-- The operation asks for a change. -/
def Op.Mutates : Op → Prop
  | .open_ _ flags => OpenFlags.wantWrite flags = true
  | .write _ _ _ => False
  | _ => True

/-- The handle is one that the mount gave out when `v` was opened. -/
def OpenedAt (M : Mount) (v : Path) (file : OpenFile) : Prop :=
  ∃ flags w w', vfsOpen M v flags w = (.ok (some file), w')

/-- The operation is on a path that no kept folder covers: of two, one at least. -/
def Op.OnUncovered (M : Mount) : Op → Prop
  | .create v _ _ | .mkdir v _ | .symlink _ v | .unlink v | .rmdir v | .open_ v _ | .chmod v _ =>
      Uncovered M v
  | .truncate v file _ => Uncovered M v ∧ ∀ f, file = some f → OpenedAt M v f
  | .link vf vt | .rename vf vt => Uncovered M vf ∨ Uncovered M vt
  | .write _ _ _ => True

/-- The operation is refused, and the host and the masks stay as they are. -/
def Harmless (M : Mount) (w : World) (op : Op) : Prop :=
  (∃ e, (exec M op w).1 = .error e) ∧ (exec M op w).2.state = w.state

/-- The operations that are refused somewhere: all of them on a read-only mount, those that copy up
first, a new name at the root of the mount, and the removal of a directory that lists a name.  A move
and a link copy up first what no kept folder covers, what is not there to be written, and every
directory that moves; a link is not made over a name that is there. -/
def Guarded (M : Mount) (w : World) : Op → Prop
  | .create v _ _ | .mkdir v _ | .symlink _ v => M.readOnly = true ∨ v.dropLast = []
  | .link vf vt => M.readOnly = true ∨ Uncovered M vf ∨ vt.dropLast = [] ∨
      (w.Clear ∧ ((lookup M w.state vf).isWritable = false ∨ (lookup M w.state vt).isNone = false))
  | .rename vf vt => M.readOnly = true ∨ Uncovered M vf ∨ vt.dropLast = [] ∨
      (w.Clear ∧ ((lookup M w.state vf).isWritable = false ∨
        (hitIsDir false (lookup M w.state vf) : View Bool) w.state = true))
  | .rmdir v => M.readOnly = true ∨ (w.Clear ∧ listing M w.state v ≠ [])
  | .unlink _ => M.readOnly = true
  | _ => True

/-! ### Programs that are refused -/

/-- The program fails and leaves the state as it is. -/
def RefusedAt {α : Type} (q : Prog World Errno α) (w : World) : Prop :=
  (∃ e, (q w).1 = .error e) ∧ (q w).2.state = w.state

def Refuses {α : Type} (q : Prog World Errno α) : Prop := ∀ w, RefusedAt q w

theorem RefusedAt.ite {α : Type} {c : Prop} [Decidable c] {q q' : Prog World Errno α} {w : World}
    (h : c → RefusedAt q w) (h' : ¬ c → RefusedAt q' w) : RefusedAt (if c then q else q') w := by
  by_cases hc : c
  · rw [if_pos hc]
    exact h hc
  · rw [if_neg hc]
    exact h' hc

namespace Refuses

variable {α β : Type}

theorem fail (e : Errno) : Refuses (Prog.fail e : Prog World Errno α) := fun _ => ⟨⟨e, rfl⟩, rfl⟩

/-- Nothing runs after a refusal. -/
theorem bind {q : Prog World Errno α} (h : Refuses q) (g : α → Prog World Errno β) :
    Refuses (q >>= g) := by
  intro w
  obtain ⟨⟨e, he⟩, hs⟩ := h w
  rw [RefusedAt, Prog.bind_of_error (Prod.ext he rfl)]
  exact ⟨⟨e, rfl⟩, hs⟩

/-- A lookup first does not matter. -/
theorem after {p : View α} {q : Prog World Errno α} {Q : α → Prop} {g : α → Prog World Errno β}
    (hq : Agrees p q) (hQ : Returns Q q) (h : ∀ a, Q a → Refuses (g a)) : Refuses (q >>= g) := by
  intro w
  obtain ⟨a, w', hrun, hstate, -⟩ := hq.total w
  obtain ⟨he, hs⟩ := h a (hQ w a w' hrun) w'
  rw [RefusedAt, Prog.bind_of_ok hrun]
  exact ⟨he, hs.trans hstate⟩

theorem ite {c : Prop} [Decidable c] {q q' : Prog World Errno α} (h : c → Refuses q)
    (h' : ¬ c → Refuses q') : Refuses (if c then q else q') :=
  fun w => RefusedAt.ite (fun hc => h hc w) fun hc => h' hc w

end Refuses

/-- A lookup of a path that nothing can be written at. -/
def ReadOnlyHit (rr : ResolveResult) : Prop := rr.isWritable = false

theorem resolve_returns_readOnly (hwl : M.writelayer = none) {v : Path} :
    Returns (fun rr => Uncovered M v → ReadOnlyHit rr) (resolve M v) := by
  intro w rr w' hrun hv
  have hfits := resolve_fits M v w rr w' hrun
  rw [ReadOnlyHit, ResolveResult.isWritable, rwPassthrough_of_fits M hfits hv,
    isWriteLayer_of_fits M hfits hwl]
  rfl

theorem resolve_readOnlyHit {v : Path} (hwl : M.writelayer = none) (hv : Uncovered M v) :
    Returns ReadOnlyHit (resolve M v) :=
  fun w rr w' hrun => resolve_returns_readOnly hwl w rr w' hrun hv

theorem copyUp_refuses (hwl : M.writelayer = none) (v : Path) (rr : ResolveResult) :
    Refuses (copyUp M v rr) := by
  rw [copyUp, if_pos hwl]
  exact Refuses.fail .erofs

theorem makeWritable_refuses (hwl : M.writelayer = none) (v : Path) {rr : ResolveResult}
    (hrr : ReadOnlyHit rr) : Refuses (makeWritable M v rr) := by
  rw [makeWritable, if_neg (by rw [hrr]; exact Bool.false_ne_true)]
  exact copyUp_refuses hwl v rr

/-- What follows a copy-up is refused with it. -/
theorem makeWritable_then_refuses (hwl : M.writelayer = none) (v : Path) (rr : ResolveResult)
    {α : Type} {q : Prog World Errno α} (h : Refuses q) : Refuses (do makeWritable M v rr; q) := by
  rw [makeWritable]
  by_cases hrr : rr.isWritable = true
  · rw [if_pos hrr, Prog.pure_bind]
    exact h
  · rw [if_neg hrr]
    exact (copyUp_refuses hwl v rr).bind _

/-- Without a writelayer the root of the mount has no host directory. -/
theorem ensureWriteParent_refuses (hwl : M.writelayer = none) {v : Path} (hv : v.dropLast = []) :
    Refuses (ensureWriteParent M v) := by
  rw [ensureWriteParent, Mount.wlPath, hwl, hv]
  exact fun w => ⟨⟨.eio, rfl⟩, rfl⟩

theorem removeWhiteout_eq (hwl : M.writelayer = none) (v : Path) :
    removeWhiteout M v = pure () := if_pos hwl

theorem deepCopyUp_refuses (hwl : M.writelayer = none) (depth : ℕ) (v : Path) :
    Refuses (deepCopyUp M depth v) := by
  cases depth with
  | zero => exact Refuses.fail .enametoolong
  | succ depth =>
      unfold deepCopyUp
      refine Refuses.after (resolve_agrees M v) (Returns.triv _) fun rr _ =>
        Refuses.ite (fun _ => Refuses.fail .enoent) fun _ => ?_
      exact (copyUp_refuses hwl v rr).bind _

theorem passthroughHost_eq {v : Path} (hv : Uncovered M v) : M.passthroughHost v = none := by
  rw [Mount.passthroughHost, hv, Option.map_none]

/-- A call that the host fails whatever its state. -/
theorem act_refuses {α : Type} {call : Call α} (h : ∀ d, Disk.Failed (call d) d) :
    Refuses (act call) := by
  intro w
  unfold RefusedAt act
  cases w.fate 0 with
  | some e => exact ⟨⟨e, rfl⟩, rfl⟩
  | none =>
      obtain ⟨e, he⟩ := h w.state.disk
      rw [he]
      exact ⟨⟨e, rfl⟩, rfl⟩

/-- What a call of the host yields. -/
theorem act_returns {α : Type} {call : Call α} {Q : α → Prop}
    (h : ∀ d a d', call d = (.ok a, d') → Q a) : Returns Q (act call) := by
  intro w a w' hrun
  unfold act at hrun
  cases hfate : w.fate 0 with
  | some e =>
      rw [hfate] at hrun
      cases hrun
  | none =>
      rw [hfate] at hrun
      have hfst : (call w.state.disk).1 = .ok a := congrArg Prod.fst hrun
      exact h w.state.disk a _ (Prod.ext hfst rfl)

/-- A handle that does not write. -/
def Handle.ReadsOnly (h : Handle) : Prop :=
  h = .dir ∨ ∃ i access, Access.writes access = false ∧ h = .file i access

theorem open_readsOnly {host : HostPath} {flags : OpenFlags} (hflags : flags.access.writes = false)
    (mode : ℕ) : Returns Handle.ReadsOnly (act (Disk.open host flags mode)) := by
  refine act_returns fun d h d' hrun => ?_
  rcases Disk.open_cases host flags mode d with
    ⟨e, he⟩ | ⟨q, -, ⟨-, -, -, hp, hd⟩ | ⟨i, -, hd⟩ | ⟨-, hd⟩⟩
  · rw [he] at hrun
    cases hrun
  · rw [hd] at hrun
    obtain rfl : _ = h := Except.ok.inj (congrArg Prod.fst hrun)
    exact Or.inr ⟨_, _, hflags, rfl⟩
  · rw [hd] at hrun
    obtain rfl : _ = h := Except.ok.inj (congrArg Prod.fst hrun)
    exact Or.inr ⟨_, _, hflags, rfl⟩
  · rw [hd] at hrun
    obtain rfl : _ = h := Except.ok.inj (congrArg Prod.fst hrun)
    exact Or.inl rfl

/-- What is opened for reading only is never written through. -/
theorem vfsOpen_handle {v : Path} {flags : OpenFlags} (hread : OpenFlags.wantWrite flags = false) :
    Returns (fun file => ∀ h, file = some (.host h) → Handle.ReadsOnly h) (vfsOpen M v flags) := by
  have hflags : flags.access.writes = false := (Bool.or_eq_false_iff.1 hread).1
  have hhost : ∀ host, Returns (fun file => ∀ h, file = some (.host h) → Handle.ReadsOnly h)
      (do let h ← act (Disk.open host flags 0)
          pure (some (OpenFile.host h))) := by
    intro host
    refine Returns.bind (open_readsOnly hflags 0) fun h hh => Returns.pure ?_
    rintro h' ⟨rfl⟩
    exact hh
  have hforRead : ∀ rr, Returns (fun file => ∀ h, file = some (.host h) → Handle.ReadsOnly h)
      (openForRead rr flags) := by
    intro rr
    unfold openForRead
    split
    · cases openZipEntry _ _ with
      | error e => exact fun w a w' hrun => by cases hrun
      | ok zr => exact Returns.pure (by simp)
    · exact hhost _
  unfold vfsOpen
  refine Returns.bind (Returns.triv _) fun rr _ => Returns.ite (fun _ w a w' hrun => by cases hrun)
    fun _ => Returns.bind (Returns.triv _) fun isDir _ => ?_
  have hnot : ¬ OpenFlags.wantWrite flags = true := by
    rw [hread]
    exact Bool.false_ne_true
  rw [if_neg hnot, if_neg hnot]
  exact Returns.ite (fun _ => Returns.pure (by simp)) fun _ => hforRead rr

/-! ### The operations, one by one -/

section

variable (hwl : M.writelayer = none)

include hwl

theorem vfsCreate_refuses {v : Path} (hv : Uncovered M v) (htop : v.dropLast = []) (mode : ℕ)
    (flags : OpenFlags) : Refuses (vfsCreate M v mode flags) := by
  unfold vfsCreate
  refine Refuses.ite (fun _ => Refuses.fail .erofs) fun _ => ?_
  rw [passthroughHost_eq hv]
  dsimp only
  rw [removeWhiteout_eq hwl, Prog.pure_bind]
  exact (ensureWriteParent_refuses hwl htop).bind _

theorem vfsMkdir_refuses {v : Path} (hv : Uncovered M v) (htop : v.dropLast = []) (mode : ℕ) :
    Refuses (vfsMkdir M v mode) := by
  unfold vfsMkdir
  refine Refuses.ite (fun _ => Refuses.fail .erofs) fun _ => ?_
  rw [passthroughHost_eq hv]
  dsimp only
  refine Refuses.after (Agrees.see _) (Returns.triv _) fun again _ => ?_
  rw [removeWhiteout_eq hwl, Prog.pure_bind]
  exact (ensureWriteParent_refuses hwl htop).bind _

theorem vfsSymlink_refuses {v : Path} (hv : Uncovered M v) (htop : v.dropLast = [])
    (target : String) : Refuses (vfsSymlink M target v) := by
  unfold vfsSymlink
  refine Refuses.ite (fun _ => Refuses.fail .erofs) fun _ => ?_
  rw [passthroughHost_eq hv]
  dsimp only
  rw [removeWhiteout_eq hwl, Prog.pure_bind]
  exact (ensureWriteParent_refuses hwl htop).bind _

/-- A link of what cannot be written is refused, and a link at a new name of the mount's root. -/
theorem vfsLink_refuses {vf vt : Path} (h : Uncovered M vf ∨ Uncovered M vt ∧ vt.dropLast = []) :
    Refuses (vfsLink M vf vt) := by
  have htop : Uncovered M vt ∧ vt.dropLast = [] → ∀ rr, Refuses (linkTo M vf vt rr) := by
    rintro ⟨hvt, hroot⟩ rr
    rw [linkTo, passthroughHost_eq hvt]
    exact (ensureWriteParent_refuses hwl hroot).bind _
  have hrefuses : ∀ rr, (Uncovered M vf → ReadOnlyHit rr) → Refuses (do
      makeWritable M vf rr
      linkTo M vf vt rr
      ignoring (unhideLower M vt)) := by
    intro rr hrr
    rcases h with hv | hvt
    · exact (makeWritable_refuses hwl vf (hrr hv)).bind _
    · exact makeWritable_then_refuses hwl vf rr ((htop hvt rr).bind _)
  unfold vfsLink
  refine Refuses.ite (fun _ => Refuses.fail .erofs) fun _ =>
    Refuses.after (resolve_agrees M vf) (resolve_returns_readOnly hwl) fun rr hrr =>
      Refuses.ite (fun _ => Refuses.fail .enoent) fun _ =>
        Refuses.ite (fun _ => Refuses.fail .eperm) fun _ =>
          Refuses.after (resolve_agrees M vt) (Returns.triv _) fun there _ =>
            Refuses.ite (fun _ => Refuses.fail .eexist) fun _ => hrefuses rr hrr

/-- A link is refused, too, where the lookups tell that nothing is to be linked. -/
theorem vfsLink_refusedAt {vf vt : Path} {w : World} (hw : w.Clear)
    (h : (lookup M w.state vf).isWritable = false ∨ (lookup M w.state vt).isNone = false) :
    RefusedAt (vfsLink M vf vt) w := by
  unfold vfsLink
  refine RefusedAt.ite (fun _ => Refuses.fail .erofs w) fun _ => ?_
  rw [RefusedAt, Prog.bind_of_ok (resolve_run M hw vf)]
  refine RefusedAt.ite (fun _ => Refuses.fail .enoent w) fun _ =>
    RefusedAt.ite (fun _ => Refuses.fail .eperm w) fun _ => ?_
  rw [RefusedAt, Prog.bind_of_ok (resolve_run M hw vt)]
  refine RefusedAt.ite (fun _ => Refuses.fail .eexist w) fun hnone => ?_
  have hread : ReadOnlyHit (lookup M w.state vf) :=
    h.resolve_right fun hthere => hnone (by rw [hthere]; rfl)
  exact (makeWritable_refuses hwl vf hread).bind _ w

/-- A move of what cannot be written is refused, and a move to a new name of the mount's root. -/
theorem vfsRename_refuses {vf vt : Path} (h : Uncovered M vf ∨ Uncovered M vt ∧ vt.dropLast = []) :
    Refuses (vfsRename M vf vt) := by
  unfold vfsRename
  refine Refuses.ite (fun _ => Refuses.fail .erofs) fun _ =>
    Refuses.after (resolve_agrees M vf) (resolve_returns_readOnly hwl) fun rr hrr =>
      Refuses.ite (fun _ => Refuses.fail .enoent) fun _ =>
        Refuses.after (hitIsDir_agrees false rr) (Returns.triv _) fun isDir _ => ?_
  unfold bringUp
  by_cases hdir : isDir = true
  · rw [if_pos hdir]
    exact (deepCopyUp_refuses hwl _ vf).bind _
  · rw [if_neg hdir]
    rcases h with hv | ⟨hvt, hroot⟩
    · exact (makeWritable_refuses hwl vf (hrr hv)).bind _
    · refine makeWritable_then_refuses hwl vf rr ?_
      have hmove : Refuses (moveTo M vf vt rr isDir) := by
        rw [moveTo, passthroughHost_eq hvt]
        exact (ensureWriteParent_refuses hwl hroot).bind _
      exact hmove.bind _

/-- A move is refused, too, where the lookup tells of nothing to be written, or of a directory. -/
theorem vfsRename_refusedAt {vf vt : Path} {w : World} (hw : w.Clear)
    (h : (lookup M w.state vf).isWritable = false ∨
      (hitIsDir false (lookup M w.state vf) : View Bool) w.state = true) :
    RefusedAt (vfsRename M vf vt) w := by
  unfold vfsRename
  refine RefusedAt.ite (fun _ => Refuses.fail .erofs w) fun _ => ?_
  rw [RefusedAt, Prog.bind_of_ok (resolve_run M hw vf)]
  refine RefusedAt.ite (fun _ => Refuses.fail .enoent w) fun _ => ?_
  rw [RefusedAt, Prog.bind_of_ok ((hitIsDir_agrees false _).run w hw)]
  unfold bringUp
  by_cases hdir : (hitIsDir false (lookup M w.state vf) : View Bool) w.state = true
  · rw [if_pos hdir]
    exact (deepCopyUp_refuses hwl _ vf).bind _ w
  · rw [if_neg hdir]
    exact (makeWritable_refuses hwl vf (h.resolve_right hdir)).bind _ w

theorem vfsOpen_refuses {v : Path} (hv : Uncovered M v) {flags : OpenFlags}
    (hwrite : OpenFlags.wantWrite flags = true) : Refuses (vfsOpen M v flags) := by
  unfold vfsOpen
  refine Refuses.after (resolve_agrees M v) (resolve_readOnlyHit hwl hv) fun rr hrr =>
    Refuses.ite (fun _ => Refuses.fail .enoent) fun _ =>
      Refuses.after (hitIsDir_agrees true rr) (Returns.triv _) fun isDir _ => ?_
  rw [if_pos hwrite, if_pos hwrite]
  refine Refuses.ite (fun _ => Refuses.fail .eisdir) fun _ =>
    Refuses.ite (fun _ => Refuses.fail .erofs) fun _ => ?_
  exact (makeWritable_refuses hwl v hrr).bind _

theorem vfsTruncate_refuses {v : Path} (hv : Uncovered M v) (size : ℕ) :
    Refuses (vfsTruncate M v none size) := by
  unfold vfsTruncate
  refine Refuses.ite (fun _ => Refuses.fail .erofs) fun _ =>
    Refuses.after (resolve_agrees M v) (resolve_readOnlyHit hwl hv) fun rr hrr =>
      Refuses.ite (fun _ => Refuses.fail .enoent) fun _ => ?_
  exact (makeWritable_refuses hwl v hrr).bind _

theorem vfsChmod_refuses {v : Path} (hv : Uncovered M v) (mode : ℕ) :
    Refuses (vfsChmod M v mode) := by
  unfold vfsChmod
  refine Refuses.ite (fun _ => Refuses.fail .erofs) fun _ =>
    Refuses.after (resolve_agrees M v) (resolve_readOnlyHit hwl hv) fun rr hrr =>
      Refuses.ite (fun _ => Refuses.fail .enoent) fun _ => ?_
  exact (makeWritable_refuses hwl v hrr).bind _

/-- A file that was opened at a path nothing can be written at cannot be cut. -/
theorem ftruncate_refuses {v : Path} (hv : Uncovered M v) {h : Handle}
    (hopen : OpenedAt M v (.host h)) (size : ℕ) : Refuses (act (Disk.ftruncate h size)) := by
  obtain ⟨flags, w, w', hrun⟩ := hopen
  cases hwrite : OpenFlags.wantWrite flags with
  | true =>
      obtain ⟨⟨e, he⟩, -⟩ := vfsOpen_refuses hwl hv hwrite w
      rw [hrun] at he
      cases he
  | false =>
      rcases vfsOpen_handle hwrite w _ w' hrun h rfl with rfl | ⟨i, access, hacc, rfl⟩
      · exact act_refuses fun d => ⟨_, rfl⟩
      · refine act_refuses fun d => ⟨.einval, ?_⟩
        rw [Disk.ftruncate, if_pos hacc]
        rfl

end

/-- Every operation that asks for a change is refused on a read-only mount. -/
theorem exec_refuses_of_readOnly (hro : M.readOnly = true) {op : Op} (hop : op.Mutates) :
    Refuses (exec M op) := by
  have hro' : ∀ {α : Type} (q : Prog World Errno α),
      Refuses (if M.readOnly = true then Prog.fail .erofs else q) := by
    intro α q
    rw [if_pos hro]
    exact Refuses.fail .erofs
  cases op with
  | create v mode flags => exact (hro' _).bind _
  | mkdir v mode => exact hro' _
  | symlink target v => exact hro' _
  | link vf vt => exact hro' _
  | unlink v => exact hro' _
  | rmdir v => exact hro' _
  | rename vf vt => exact hro' _
  | truncate v file size => exact hro' _
  | chmod v mode => exact hro' _
  | write file bs off => exact absurd hop id
  | open_ v flags =>
      have hopen : Refuses (vfsOpen M v flags) := by
        unfold vfsOpen
        refine Refuses.after (resolve_agrees M v) (Returns.triv _) fun rr _ =>
          Refuses.ite (fun _ => Refuses.fail .enoent) fun _ =>
            Refuses.after (hitIsDir_agrees true rr) (Returns.triv _) fun isDir _ => ?_
        have hwrite : OpenFlags.wantWrite flags = true := hop
        rw [if_pos hwrite, if_pos hwrite]
        exact Refuses.ite (fun _ => Refuses.fail .eisdir) fun _ => hro' _
      exact hopen.bind _

/-! ### The mount as a whole -/

/-- A guarded operation is harmless, whatever the world. -/
theorem harmless_of_guarded (hM : Unwritable M) {w : World} {op : Op} (hop : op.Mutates)
    (hun : op.OnUncovered M) (hguard : Guarded M w op) : Harmless M w op := by
  by_cases hro : M.readOnly = true
  · exact exec_refuses_of_readOnly hro hop w
  have hwl : M.writelayer = none := hM.resolve_left hro
  cases op with
  | create v mode flags =>
      exact (vfsCreate_refuses hwl hun (hguard.resolve_left hro) mode flags).bind _ w
  | mkdir v mode => exact vfsMkdir_refuses hwl hun (hguard.resolve_left hro) mode w
  | symlink target v => exact vfsSymlink_refuses hwl hun (hguard.resolve_left hro) target w
  | link vf vt =>
      rcases hguard.resolve_left hro with hv | htop | ⟨hclear, hlook⟩
      · exact vfsLink_refuses hwl (Or.inl hv) w
      · exact vfsLink_refuses hwl (hun.imp_right fun hv => ⟨hv, htop⟩) w
      · exact vfsLink_refusedAt hwl hclear hlook
  | rename vf vt =>
      rcases hguard.resolve_left hro with hv | htop | ⟨hclear, hlook⟩
      · exact vfsRename_refuses hwl (Or.inl hv) w
      · exact vfsRename_refuses hwl (hun.imp_right fun hv => ⟨hv, htop⟩) w
      · exact vfsRename_refusedAt hwl hclear hlook
  | unlink v => exact absurd hguard hro
  | rmdir v =>
      obtain ⟨hclear, hne⟩ := hguard.resolve_left hro
      have hrun : vfsRmdir M v w = (.error .enotempty, w) := by
        rw [vfsRmdir, if_neg hro, Prog.bind_of_ok (collectChildren_run M hclear v), if_pos hne]
        rfl
      rw [Harmless, exec, hrun]
      exact ⟨⟨_, rfl⟩, rfl⟩
  | open_ v flags => exact (vfsOpen_refuses hwl hun hop).bind _ w
  | write file bs off => exact absurd hop id
  | chmod v mode => exact vfsChmod_refuses hwl hun mode w
  | truncate v file size =>
      cases file with
      | none => exact vfsTruncate_refuses hwl hun.1 size w
      | some file =>
          cases file with
          | zip zr => exact vfsTruncate_refuses hwl hun.1 size w
          | host h =>
              rw [Harmless, exec, vfsTruncate, if_neg hro]
              exact ftruncate_refuses hwl hun.1 (hun.2 _ rfl) size w

/-- The operations in question: they ask for a change, on paths that no kept folder covers, and are
refused somewhere. -/
def Admitted (M : Mount) (w : World) (op : Op) : Prop :=
  op.Mutates ∧ op.OnUncovered M ∧ Guarded M w op

/-- **A mount without a writable branch writes nowhere**, as far as guarded operations go: in every
world each of them is refused and changes nothing, and a run of them leaves everything as it was. -/
theorem guarded_harmless (hM : Unwritable M) :
    (∀ w op, Admitted M w op → Harmless M w op) ∧
      ∀ w₀ w, Reaches M (Admitted M) w₀ w → w.state = w₀.state := by
  have hop : ∀ w op, Admitted M w op → Harmless M w op :=
    fun w op h => harmless_of_guarded hM h.1 h.2.1 h.2.2
  refine ⟨hop, fun w₀ w hreach => ?_⟩
  exact hreach.invariant (I := fun w => w.state = w₀.state) rfl
    fun w op hw hadm => (hop w op hadm).2.trans hw

/-! ### A directory made below an empty prefix -/

/-- A package with one directory, and nothing else on the host. -/
def packageDisk : Disk :=
  [Disk.mkdir (some ["pkg"]) 0o755, Disk.mkdir (some ["pkg", "tmp"]) 0o755].foldl
    (fun d call => (call d).2) Disk.blank

/-- The package served without a writelayer. -/
def packageMount : Mount where
  writelayer := none
  readOnly := false
  flattenSymlinks := true
  layers := [⟨.dir, some ["pkg"], [], [], false, [], 0⟩]
  priority_eq := rfl
  pathDepth := 8

def packageWorld : World := mounted packageMount packageDisk allowed allowed

/-- Making a directory below a directory of the package succeeds, on the host's own root. -/
theorem nested_mkdir_not_harmless :
    Unwritable packageMount ∧ (Op.mkdir ["tmp", "x"] 0o755).OnUncovered packageMount ∧
      (exec packageMount (.mkdir ["tmp", "x"] 0o755) packageWorld).1 = .ok () ∧
      packageWorld.state.disk.tree.node ["tmp"] = none ∧
      (exec packageMount (.mkdir ["tmp", "x"] 0o755) packageWorld).2.state.disk.tree.node ["tmp", "x"]
        = some (.dir 0o755) :=
  ⟨Or.inr rfl, rfl, rfl, by decide +kernel, by decide +kernel⟩

/-- A file of the package opened for writing is refused, and so is a new name beside it. -/
theorem package_refuses :
    Harmless packageMount packageWorld (.open_ ["tmp"] ⟨.wronly, false, false, false, false⟩) ∧
      Harmless packageMount packageWorld (.mkdir ["new"] 0o755) ∧ Unwritable packageMount :=
  ⟨(guarded_harmless (Or.inr rfl)).1 _ _ ⟨rfl, rfl, trivial⟩,
    (guarded_harmless (Or.inr rfl)).1 _ _ ⟨trivial, rfl, Or.inr rfl⟩, Or.inr rfl⟩

end VidyaGodFS
