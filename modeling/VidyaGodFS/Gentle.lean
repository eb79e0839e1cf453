/-
**What the operations ask of the host.**

An operation works on the host through calls, and what all of these calls leave true of the disk the
operation leaves true, however it ends and whatever is refused.  So it is enough to know which calls
there are.  Copying and making names takes calls that only add, files that are written apart;
everything but a removal and a move is *gentle*: no directory goes, and nothing moves.

Main definitions:

* `Calls`, `Within`, `Calls.Leads` — a class of calls, the programs that stay within it, and the
  disks it leads to;
* `Fills`, `Adds`, `Drops`, `Gentle` — the calls that make nothing, those that add at most, those that
  take a name away, and those that take no directory and move nothing;
* `Makes`, `Patches` — the calls of `create_directories`, and those that add or take a name away.

Main results:

* `Within.bind`, `Within.forM`, `Within.mono` — the rules;
* `exec_gentle` — **every operation but the removal, the making and the move of a directory is
  gentle**, and so are the parts of these three.
-/

import VidyaGodFS.VfsOps

set_option relaxedAutoImplicit false
set_option autoImplicit false

namespace VidyaGodFS

open Posix

/-- A class of calls. -/
def Calls : Type 1 := ∀ ⦃α : Type⦄, Call α → Prop

/-- What the calls of the class leave true of the disk. -/
def Calls.Keep (C : Calls) (I : Disk → Prop) : Prop :=
  ∀ ⦃α : Type⦄ (call : Call α), C call → ∀ d, I d → I (call d).2

/-- The program works through calls of the class: what they leave true it leaves true. -/
def Within {α : Type} (C : Calls) (m : Prog World Errno α) : Prop :=
  ∀ I, C.Keep I → Prog.Preserves (fun w => I w.state.disk) m

namespace Within

variable {α β : Type} {C C' : Calls}

theorem pure (a : α) : Within C (Pure.pure a : Prog World Errno α) :=
  fun _ _ => Prog.Preserves.pure a

theorem fail (e : Errno) : Within C (Prog.fail e : Prog World Errno α) :=
  fun _ _ => Prog.Preserves.fail e

theorem act {call : Call α} (h : C call) : Within C (act call) := by
  intro I hI w hw
  unfold VidyaGodFS.act
  cases w.fate 0 with
  | none => exact hI call h _ hw
  | some e => exact hw

/-- A lookup leaves everything as it was. -/
theorem look {p : View α} {q : Prog World Errno α} (h : Agrees p q) : Within C q := by
  intro I _ w hw
  obtain ⟨a, w', hrun, hstate, -⟩ := h.total w
  rw [hrun]
  change I w'.state.disk
  rw [hstate]
  exact hw

/-- The masks are not on the disk. -/
theorem mutate {f : VfsState → VfsState} (h : ∀ s, (f s).disk = s.disk) : Within C (mutate f) := by
  intro I _ w hw
  change I (f w.state).disk
  rw [h]
  exact hw

theorem bind {m : Prog World Errno α} {f : α → Prog World Errno β} (hm : Within C m)
    (hf : ∀ a, Within C (f a)) : Within C (m >>= f) := fun I hI =>
  Prog.Preserves.bind (hm I hI) fun a => hf a I hI

theorem attempt {m : Prog World Errno α} (h : Within C m) :
    Within C (Prog.attempt m : Prog World Errno (Except Errno α)) := h

theorem ignoring {m : Prog World Errno α} (h : Within C m) : Within C (ignoring m) :=
  bind (attempt h) fun _ => pure ()

theorem ite {c : Prop} [Decidable c] {m m' : Prog World Errno α} (h : c → Within C m)
    (h' : ¬ c → Within C m') : Within C (if c then m else m') := fun I hI =>
  Prog.Preserves.ite (fun hc => h hc I hI) fun hc => h' hc I hI

theorem forM {γ : Type} {f : γ → Prog World Errno PUnit} {l : List γ}
    (h : ∀ x ∈ l, Within C (f x)) : Within C (l.forM f) := fun I hI =>
  Prog.Preserves.forM fun x hx => h x hx I hI

/-- Fewer calls do less. -/
theorem mono {m : Prog World Errno α} (h : Within C m)
    (hC : ∀ ⦃β : Type⦄ (call : Call β), C call → C' call) : Within C' m := fun I hI =>
  h I fun _ call hcall => hI call (hC call hcall)

end Within

/-- The disks that calls of the class lead to. -/
inductive Calls.Leads (C : Calls) (d : Disk) : Disk → Prop
  | refl : Leads C d d
  | step {α : Type} {d' : Disk} {call : Call α} : Leads C d d' → C call → Leads C d (call d').2

/-! ### The classes -/

/-- The calls that make nothing: they look, and fill open files. -/
inductive Fills : Calls
  | look {α : Type} (f : Disk → Except Errno α) : Fills fun d => (f d, d)
  | open_ (p : HostPath) (fl : OpenFlags) (mode : ℕ) : fl.creat = false → Fills (Disk.open p fl mode)
  | pwrite (h : Handle) (bs : Bytes) (off : ℕ) : Fills (Disk.pwrite h bs off)
  | fchmod (h : Handle) (mode : ℕ) : Fills (Disk.fchmod h mode)

/-- The calls that add at most, or change the content and the mode of an open file. -/
inductive Adds : Calls
  | look {α : Type} (f : Disk → Except Errno α) : Adds fun d => (f d, d)
  | mkdir (p : HostPath) (mode : ℕ) : Adds (Disk.mkdir p mode)
  | symlink (target : String) (p : HostPath) : Adds (Disk.symlink target p)
  | open_ (p : HostPath) (fl : OpenFlags) (mode : ℕ) : Adds (Disk.open p fl mode)
  | pwrite (h : Handle) (bs : Bytes) (off : ℕ) : Adds (Disk.pwrite h bs off)
  | fchmod (h : Handle) (mode : ℕ) : Adds (Disk.fchmod h mode)

/-- The calls that take something away that is no directory. -/
inductive Drops : Calls
  | unlink (p : HostPath) : Drops (Disk.unlink p)

/-- The calls that make the directories on the way to something. -/
inductive Makes : Calls
  | mkdir (p : HostPath) : Makes (Disk.mkdir p 0o777)

/-- The calls that add, or take something away that is no directory. -/
inductive Patches : Calls
  | adds {α : Type} {call : Call α} : Adds call → Patches call
  | drops {α : Type} {call : Call α} : Drops call → Patches call

/-- The calls that take no directory away and move nothing. -/
inductive Gentle : Calls
  | adds {α : Type} {call : Call α} : Adds call → Gentle call
  | drops {α : Type} {call : Call α} : Drops call → Gentle call
  | link (src dst : HostPath) : Gentle (Disk.link src dst)
  | truncate (p : HostPath) (size : ℕ) : Gentle (Disk.truncate p size)
  | ftruncate (h : Handle) (size : ℕ) : Gentle (Disk.ftruncate h size)
  | chmod (p : HostPath) (mode : ℕ) : Gentle (Disk.chmod p mode)

variable {M : Mount}

theorem Within.adds {α : Type} {m : Prog World Errno α} (h : Within Fills m) : Within Adds m := by
  refine h.mono fun β call hcall => ?_
  cases hcall with
  | look f => exact Adds.look f
  | open_ p fl mode _ => exact Adds.open_ p fl mode
  | pwrite h bs off => exact Adds.pwrite h bs off
  | fchmod h mode => exact Adds.fchmod h mode

theorem Within.adds_of_makes {α : Type} {m : Prog World Errno α} (h : Within Makes m) :
    Within Adds m := by
  refine h.mono fun β call hcall => ?_
  cases hcall with
  | mkdir p => exact Adds.mkdir p _

theorem Within.patches {α : Type} {m : Prog World Errno α} (h : Within Adds m) : Within Patches m :=
  h.mono fun _ _ => Patches.adds

theorem Within.patches_of_drops {α : Type} {m : Prog World Errno α} (h : Within Drops m) :
    Within Patches m := h.mono fun _ _ => Patches.drops

theorem Within.gentle_of_patches {α : Type} {m : Prog World Errno α} (h : Within Patches m) :
    Within Gentle m := by
  refine h.mono fun β call hcall => ?_
  cases hcall with
  | adds h => exact Gentle.adds h
  | drops h => exact Gentle.drops h

/-- What adds is gentle. -/
theorem Within.gentle {α : Type} {m : Prog World Errno α} (h : Within Adds m) : Within Gentle m :=
  h.mono fun _ _ => Gentle.adds

theorem Within.gentle_of_drops {α : Type} {m : Prog World Errno α} (h : Within Drops m) :
    Within Gentle m := h.mono fun _ _ => Gentle.drops

/-! ### What only adds -/

theorem createDirectory_makesOnly (p : Path) : Within Makes (createDirectory p) := by
  refine Within.bind (Within.attempt (Within.act (Makes.mkdir _))) fun r => ?_
  cases r with
  | ok u => exact Within.pure _
  | error e =>
      exact Within.bind (Within.look (Agrees.look _)) fun there =>
        Within.ite (fun _ => Within.pure _) fun _ => Within.fail e

theorem createDirectories_makesOnly (p : HostPath) : Within Makes (createDirectories p) := by
  cases p with
  | none => exact Within.fail _
  | some p =>
      refine Within.bind (Within.look (Agrees.look _)) fun r => ?_
      cases r with
      | error e => exact Within.fail e
      | ok dirs => exact Within.forM fun q _ => createDirectory_makesOnly q

theorem createDirectories_adds (p : HostPath) : Within Adds (createDirectories p) :=
  (createDirectories_makesOnly p).adds_of_makes

theorem createDirectoriesEio_makesOnly (p : HostPath) : Within Makes (createDirectoriesEio p) := by
  refine Within.bind (Within.attempt (createDirectories_makesOnly p)) fun r => ?_
  cases r with
  | ok u => exact Within.pure _
  | error e => exact Within.fail _

theorem createDirectoriesEio_adds (p : HostPath) : Within Adds (createDirectoriesEio p) :=
  (createDirectoriesEio_makesOnly p).adds_of_makes

theorem touchMarker_adds (p : HostPath) : Within Adds (touchMarker p) :=
  Within.bind (createDirectories_adds _) fun _ => Within.bind (Within.act (Adds.open_ _ _ _))
    fun _ => Within.pure _

theorem mutateKept_within {C : Calls} (i : ℕ) (f : KeptMasks → KeptMasks) :
    Within C (mutateKept i f) := Within.mutate fun _ => rfl

theorem createWhiteout_adds (v : Path) : Within Adds (createWhiteout M v) :=
  Within.ite (fun _ => Within.pure _) fun _ =>
    Within.bind (Within.ignoring (createDirectories_adds _)) fun _ =>
    Within.bind (Within.ignoring (Within.act (Adds.open_ _ _ _))) fun _ => Within.mutate fun _ => rfl

theorem markOpaque_adds (v : Path) : Within Adds (markOpaque M v) :=
  Within.ite (fun _ => Within.pure _) fun _ =>
    Within.bind (Within.ignoring (Within.act (Adds.open_ _ _ _))) fun _ => Within.mutate fun _ => rfl

theorem hideLower_adds (v : Path) : Within Adds (hideLower M v) := by
  unfold hideLower
  cases M.keptLayerFor v with
  | none => exact createWhiteout_adds v
  | some L =>
      exact Within.ite (fun _ => createWhiteout_adds v) fun _ =>
        Within.bind (touchMarker_adds _) fun _ => mutateKept_within _ _

theorem keptMarkOpaque_adds (v : Path) : Within Adds (keptMarkOpaque M v) := by
  unfold keptMarkOpaque
  cases M.keptLayerFor v with
  | none => exact Within.fail _
  | some L => exact Within.bind (touchMarker_adds _) fun _ => mutateKept_within _ _

theorem renameMaskPrefix_within {C : Calls} (old new : Path) :
    Within C (renameMaskPrefix M old new) :=
  Within.ite (fun _ => Within.pure _) fun _ => Within.mutate fun _ => rfl

theorem keptRenamePrefix_within {C : Calls} (old new : Path) :
    Within C (keptRenamePrefix M old new) := by
  unfold keptRenamePrefix
  cases M.keptLayerFor old with
  | none => exact Within.pure _
  | some L =>
      cases M.keptLayerFor new with
      | none => exact Within.pure _
      | some L' => exact Within.ite (fun _ => Within.pure _) fun _ => mutateKept_within _ _

/-! ### Copies -/

theorem copyLoop_fills (out : Handle) {read : ℕ → Prog World Errno Bytes}
    (hread : ∀ off, Within Fills (read off)) :
    ∀ fuel off, Within Fills (copyLoop out read fuel off) := by
  intro fuel
  induction fuel with
  | zero => exact fun off => Within.pure _
  | succ fuel ih =>
      intro off
      exact Within.bind (hread off) fun got => Within.ite (fun _ => Within.pure _) fun _ =>
        Within.bind (Within.act (Fills.pwrite _ _ _)) fun _ => ih _

theorem copyZipEntry_fills (Z : ZipIndex) (e : ZipEntry) (out : Handle) :
    Within Fills (copyZipEntry Z e out) := by
  unfold copyZipEntry
  cases openZipEntry Z e with
  | error err => exact Within.fail err
  | ok zr =>
      exact Within.bind (copyLoop_fills out (fun off => Within.act (Fills.look _)) _ _) fun _ =>
        Within.ignoring (Within.act (Fills.fchmod _ _))

theorem copyHostFile_fills (host : HostPath) (out : Handle) :
    Within Fills (copyHostFile host out) := by
  refine Within.bind (Within.act (Fills.open_ _ _ _ rfl)) fun inp =>
    Within.bind (Within.look (Agrees.see _)) fun size =>
    Within.bind (Within.attempt (copyLoop_fills out (fun off => Within.act (Fills.look _)) _ _))
      fun rc => Within.bind ?_ fun _ => ?_
  · refine Within.bind (Within.look (Agrees.look _)) fun r => ?_
    cases r with
    | error e => exact Within.pure _
    | ok st => exact Within.ignoring (Within.act (Fills.fchmod _ _))
  · cases rc with
    | ok u => exact Within.pure _
    | error e => exact Within.fail e

theorem readZipLink_fills (Z : ZipIndex) (e : ZipEntry) : Within Fills (readZipLink Z e) := by
  refine Within.ite (fun _ => Within.fail _) fun _ => ?_
  cases openZipEntry Z e with
  | error err => exact Within.fail err
  | ok zr => exact Within.bind (Within.act (Fills.look _)) fun got => Within.pure _

/-- A copy that fails is taken away. -/
theorem copyFile_patches (dst : HostPath) {copy : Handle → Prog World Errno Unit}
    (hcopy : ∀ out, Within Adds (copy out)) : Within Patches (copyFile dst copy) := by
  refine Within.bind (Within.act (Adds.open_ _ _ _)).patches fun out =>
    Within.bind (Within.attempt (hcopy out)).patches fun r => ?_
  cases r with
  | ok u => exact Within.pure _
  | error e =>
      exact Within.bind (Within.ignoring (Within.act (Drops.unlink _))).patches_of_drops
        fun _ => Within.fail e

theorem copyTo_patches (dst : HostPath) (rr : ResolveResult) : Within Patches (copyTo M dst rr) := by
  have hhost : ∀ host, Within Patches
      (do
        if ← copiesAsLink M rr then do
          let target ← act fun d => (d.readlink host, d)
          act (Disk.symlink target dst)
        else copyFile dst (copyHostFile host) : Prog World Errno Unit) := fun host =>
    Within.bind (Within.look (copiesAsLink_agrees M rr)) fun b =>
      Within.ite (fun _ => (Within.bind (Within.act (Adds.look _)) fun target =>
          Within.act (Adds.symlink _ _)).patches)
        fun _ => copyFile_patches dst fun out => (copyHostFile_fills host out).adds
  refine Within.bind (Within.look (copiesAsDir_agrees M rr)) fun b =>
    Within.ite (fun _ => (createDirectoriesEio_adds dst).patches) fun _ => ?_
  cases rr with
  | zipEntry L Z e =>
      cases e with
      | none => exact hhost _
      | some e =>
          exact Within.ite
            (fun _ => (Within.bind ((readZipLink_fills Z e).adds) fun target =>
              Within.act (Adds.symlink _ _)).patches)
            fun _ => copyFile_patches dst fun out => (copyZipEntry_fills Z e out).adds
  | _ => exact hhost _

theorem ensureCopyParent_adds (v : Path) : Within Adds (ensureCopyParent M v) := by
  unfold ensureCopyParent
  cases M.passthroughHost v with
  | none => exact createDirectoriesEio_adds _
  | some dst => exact createDirectoriesEio_adds _

theorem copyUp_patches (v : Path) (rr : ResolveResult) : Within Patches (copyUp M v rr) := by
  refine Within.ite (fun _ => Within.fail _) fun _ => Within.ite (fun _ => Within.pure _)
    fun _ => Within.bind (Within.look (Agrees.look _)) fun r => ?_
  cases r with
  | ok st => exact Within.pure _
  | error e => exact Within.bind (ensureCopyParent_adds v).patches fun _ => copyTo_patches _ rr

theorem makeWritable_patches (v : Path) (rr : ResolveResult) : Within Patches (makeWritable M v rr) :=
  Within.ite (fun _ => Within.pure _) fun _ => copyUp_patches v rr

theorem deepCopyUp_patches : ∀ (depth : ℕ) (v : Path), Within Patches (deepCopyUp M depth v) := by
  intro depth
  induction depth with
  | zero => exact fun v => Within.fail _
  | succ depth ih =>
      intro v
      refine Within.bind (Within.look (resolve_agrees M v)) fun rr =>
        Within.ite (fun _ => Within.fail _) fun _ => Within.bind (copyUp_patches v rr)
          fun _ => Within.bind (Within.look (hitIsDir_agrees false rr)) fun b =>
            Within.ite (fun _ => ?_) fun _ => Within.pure _
      exact Within.bind (Within.look (collectChildren_agrees M v)) fun children =>
        Within.forM fun c _ => ih (v ++ [c])

theorem bringUp_patches (v : Path) (rr : ResolveResult) (isDir : Bool) :
    Within Patches (bringUp M v rr isDir) :=
  Within.ite (fun _ => deepCopyUp_patches _ v) fun _ => makeWritable_patches v rr

/-! ### Masks that go -/

theorem toleratingEnoent_within {C : Calls} {m : Prog World Errno Unit} (h : Within C m) :
    Within C (toleratingEnoent m) := by
  refine Within.bind (Within.attempt h) fun r => ?_
  cases r with
  | ok u => exact Within.pure _
  | error e => exact Within.ite (fun _ => Within.pure _) fun _ => Within.fail e

theorem removeWhiteout_drops (v : Path) : Within Drops (removeWhiteout M v) :=
  Within.ite (fun _ => Within.pure _) fun _ =>
    Within.bind (Within.ignoring (Within.act (Drops.unlink _))) fun _ => Within.mutate fun _ => rfl

theorem unhideLower_drops (v : Path) : Within Drops (unhideLower M v) := by
  refine Within.bind ?_ fun _ => removeWhiteout_drops v
  unfold unhideKept
  cases M.keptLayerFor v with
  | none => exact Within.pure _
  | some L =>
      exact Within.bind (Within.look (Agrees.see _)) fun deleted =>
        Within.ite (fun _ => Within.bind
            (toleratingEnoent_within (Within.act (Drops.unlink _))) fun _ => mutateKept_within _ _)
          fun _ => Within.pure _

theorem keptDropMarkersUnder_drops (v : Path) : Within Drops (keptDropMarkersUnder M v) := by
  unfold keptDropMarkersUnder
  cases M.keptLayerFor v with
  | none => exact Within.pure _
  | some L =>
      refine Within.bind (Within.look (Agrees.look _)) fun names =>
        Within.bind (Within.forM fun n _ => ?_) fun _ => mutateKept_within _ _
      exact Within.ite (fun _ => Within.ignoring (Within.act (Drops.unlink _))) fun _ => Within.pure _

theorem sweepMarkers_drops (v : Path) (names : List Name) :
    Within Drops (sweepMarkers M v names) := by
  refine Within.forM fun n _ => Within.ite (fun _ => Within.pure _) fun _ => Within.ite
    (fun _ => Within.bind (Within.ignoring (Within.act (Drops.unlink _))) fun _ => ?_)
    fun _ => removeWhiteout_drops _
  exact Within.ite (fun _ => Within.pure _) fun _ => Within.mutate fun _ => rfl

/-- What is left after a removal or a move. -/
theorem hideRest_within {C : Calls} (v : Path) {hide otherwise : Prog World Errno Unit}
    (h : Within C hide) (h' : Within C otherwise) : Within C (hideRest M v hide otherwise) :=
  Within.bind (Within.look (resolve_agrees M v)) fun _ => Within.ite (fun _ => h') fun _ => h

theorem noneLeft_within {C : Calls} (had : Bool) : Within C (noneLeft had) :=
  Within.ite (fun _ => Within.pure _) fun _ => Within.fail _

theorem runIf_within {C : Calls} {c : Bool} {m : Prog World Errno Unit} (h : Within C m) :
    Within C (runIf c m) := Within.ite (fun _ => h) fun _ => Within.pure _

/-! ### The operations -/

theorem ensureHostParent_adds (host : HostPath) : Within Adds (ensureHostParent host) :=
  Within.ignoring (createDirectories_adds _)

theorem vfsCreate_gentle (v : Path) (mode : ℕ) (flags : OpenFlags) :
    Within Gentle (vfsCreate M v mode flags) := by
  refine Within.ite (fun _ => Within.fail _) fun _ => ?_
  cases M.passthroughHost v with
  | some host =>
      exact Within.ite (fun _ => Within.fail _) fun _ =>
        Within.bind (ensureHostParent_adds host).gentle fun _ =>
        Within.bind (Within.act (Adds.open_ _ _ _)).gentle fun h =>
        Within.bind (Within.ignoring (unhideLower_drops v).gentle_of_drops) fun _ => Within.pure _
  | none =>
      exact Within.bind (removeWhiteout_drops v).gentle_of_drops fun _ =>
        Within.bind (createDirectoriesEio_adds _).gentle fun _ =>
        Within.bind (Within.act (Adds.open_ _ _ _)).gentle fun h => Within.pure _

theorem vfsSymlink_gentle (target : String) (v : Path) : Within Gentle (vfsSymlink M target v) := by
  refine Within.ite (fun _ => Within.fail _) fun _ => ?_
  cases M.passthroughHost v with
  | some host =>
      exact Within.ite (fun _ => Within.fail _) fun _ =>
        Within.bind (ensureHostParent_adds host).gentle fun _ =>
        Within.bind (Within.act (Adds.symlink _ _)).gentle fun _ =>
        Within.ignoring (unhideLower_drops v).gentle_of_drops
  | none =>
      exact Within.bind (removeWhiteout_drops v).gentle_of_drops fun _ =>
        Within.bind (createDirectoriesEio_adds _).gentle fun _ =>
        (Within.act (Adds.symlink _ _)).gentle

theorem linkTo_gentle (vf vt : Path) (rr : ResolveResult) : Within Gentle (linkTo M vf vt rr) := by
  unfold linkTo
  cases M.passthroughHost vt with
  | some dst =>
      exact Within.ite (fun _ => Within.fail _) fun _ =>
        Within.bind (ensureHostParent_adds dst).gentle fun _ => Within.act (Gentle.link _ _)
  | none =>
      exact Within.bind (createDirectoriesEio_adds _).gentle fun _ => Within.act (Gentle.link _ _)

theorem vfsLink_gentle (vf vt : Path) : Within Gentle (vfsLink M vf vt) :=
  Within.ite (fun _ => Within.fail _) fun _ =>
    Within.bind (Within.look (resolve_agrees M vf)) fun rr =>
    Within.ite (fun _ => Within.fail _) fun _ =>
    Within.ite (fun _ => Within.fail _) fun _ =>
    Within.bind (Within.look (resolve_agrees M vt)) fun _ =>
    Within.ite (fun _ => Within.fail _) fun _ =>
    Within.bind (makeWritable_patches vf rr).gentle_of_patches fun _ =>
    Within.bind (linkTo_gentle vf vt rr) fun _ => Within.ignoring (unhideLower_drops vt).gentle_of_drops

theorem vfsUnlink_gentle (v : Path) : Within Gentle (vfsUnlink M v) := by
  refine Within.ite (fun _ => Within.fail _) fun _ => ?_
  cases M.passthroughHost v with
  | some host =>
      exact Within.bind (toleratingEnoent_within (Within.act (Gentle.drops (Drops.unlink _)))) fun had =>
        hideRest_within v (hideLower_adds v).gentle (noneLeft_within had)
  | none =>
      refine Within.bind (Within.ite (fun _ => Within.pure _) fun _ => ?_) fun _ =>
        hideRest_within v (createWhiteout_adds v).gentle (Within.pure _)
      exact Within.bind (toleratingEnoent_within (Within.act (Gentle.drops (Drops.unlink _))))
        fun _ => Within.pure _

theorem vfsOpen_gentle (v : Path) (flags : OpenFlags) : Within Gentle (vfsOpen M v flags) := by
  refine Within.bind (Within.look (resolve_agrees M v)) fun rr =>
    Within.ite (fun _ => Within.fail _) fun _ =>
    Within.bind (Within.look (hitIsDir_agrees true rr)) fun isDir =>
    Within.ite (fun _ => Within.ite (fun _ => Within.fail _) fun _ => Within.pure _) fun _ =>
    Within.ite (fun _ => Within.ite (fun _ => Within.fail _) fun _ => ?_) fun _ => ?_
  · exact Within.bind (makeWritable_patches v rr).gentle_of_patches fun _ =>
      Within.bind (Within.act (Adds.open_ _ _ _)).gentle fun h => Within.pure _
  · have hhost : Within Gentle (do
        let h ← act (Disk.open rr.hostPath flags 0)
        pure (some (OpenFile.host h)) : Prog World Errno (Option OpenFile)) :=
      Within.bind (Within.act (Adds.open_ _ _ _)).gentle fun h => Within.pure _
    unfold openForRead
    cases rr with
    | zipEntry L Z e =>
        cases e with
        | none => exact hhost
        | some e =>
            dsimp only
            cases openZipEntry Z e with
            | error err => exact Within.fail err
            | ok zr => exact Within.pure _
    | _ => exact hhost

theorem vfsWrite_gentle (file : OpenFile) (bs : Bytes) (off : ℕ) :
    Within Gentle (vfsWrite M file bs off) := by
  refine Within.ite (fun _ => Within.fail _) fun _ => ?_
  cases file with
  | zip zr => exact Within.fail _
  | host h => exact (Within.act (Adds.pwrite _ _ _)).gentle

theorem vfsTruncate_gentle (v : Path) (file : Option OpenFile) (size : ℕ) :
    Within Gentle (vfsTruncate M v file size) := by
  have hpath : Within Gentle (do
      let rr ← resolve M v
      if rr.isNone then Prog.fail .enoent
      else do
        makeWritable M v rr
        act (Disk.truncate (writeHost M v rr) size) : Prog World Errno Unit) :=
    Within.bind (Within.look (resolve_agrees M v)) fun rr =>
      Within.ite (fun _ => Within.fail _) fun _ =>
      Within.bind (makeWritable_patches v rr).gentle_of_patches fun _ => Within.act (Gentle.truncate _ _)
  refine Within.ite (fun _ => Within.fail _) fun _ => ?_
  rcases file with _ | ⟨h⟩ | zr
  · exact hpath
  · exact Within.act (Gentle.ftruncate _ _)
  · exact hpath

theorem vfsChmod_gentle (v : Path) (mode : ℕ) : Within Gentle (vfsChmod M v mode) :=
  Within.ite (fun _ => Within.fail _) fun _ =>
    Within.bind (Within.look (resolve_agrees M v)) fun rr =>
    Within.ite (fun _ => Within.fail _) fun _ =>
    Within.bind (makeWritable_patches v rr).gentle_of_patches fun _ => Within.act (Gentle.chmod _ _)

/-- The operations that may take a directory away or move something. -/
def Op.Rough : Op → Prop
  | .mkdir _ _ | .rmdir _ | .rename _ _ => True
  | _ => False

/-- **Every other operation is gentle.** -/
theorem exec_gentle (op : Op) (h : ¬ op.Rough) : Within Gentle (exec M op) := by
  cases op with
  | create v mode flags => exact Within.bind (vfsCreate_gentle v mode flags) fun _ => Within.pure _
  | mkdir v mode => exact absurd trivial h
  | symlink target v => exact vfsSymlink_gentle target v
  | link vf vt => exact vfsLink_gentle vf vt
  | unlink v => exact vfsUnlink_gentle v
  | rmdir v => exact absurd trivial h
  | rename vf vt => exact absurd trivial h
  | open_ v flags => exact Within.bind (vfsOpen_gentle v flags) fun _ => Within.pure _
  | write file bs off => exact Within.bind (vfsWrite_gentle file bs off) fun _ => Within.pure _
  | truncate v file size => exact vfsTruncate_gentle v file size
  | chmod v mode => exact vfsChmod_gentle v mode

end VidyaGodFS
