/-
**Programs that leave the masks alone.**

What copies, makes directories or calls the host changes the disk and none of the masks in memory,
whatever the host refuses on the way.  A deletion or a move does more than that, but all of it before
the masks are touched is of this kind.

Main definitions:

* `SameMasks`, `HostOnly` — the masks are as they were.

Main results:

* `copyUp_hostOnly`, `deepCopyUp_hostOnly`, `bringUp_hostOnly` — **copying up leaves the masks alone**.
-/

import VidyaGodFS.VfsOps

set_option relaxedAutoImplicit false
set_option autoImplicit false

namespace VidyaGodFS

open Posix

/-- The masks in memory are the same. -/
structure SameMasks (s s' : VfsState) : Prop where
  whiteoutSet : s'.whiteoutSet = s.whiteoutSet
  opaqueSet : s'.opaqueSet = s.opaqueSet
  kept : s'.kept = s.kept

theorem SameMasks.refl (s : VfsState) : SameMasks s s := ⟨rfl, rfl, rfl⟩

theorem SameMasks.trans {s s' s'' : VfsState} (h : SameMasks s s') (h' : SameMasks s' s'') :
    SameMasks s s'' :=
  ⟨h'.whiteoutSet.trans h.whiteoutSet, h'.opaqueSet.trans h.opaqueSet, h'.kept.trans h.kept⟩

/-- Whatever the host refuses, the program leaves the masks alone. -/
def HostOnly {α : Type} (m : Prog World Errno α) : Prop := ∀ w, SameMasks w.state (m w).2.state

namespace HostOnly

variable {α β : Type}

theorem pure (a : α) : HostOnly (Pure.pure a : Prog World Errno α) := fun _ => SameMasks.refl _

theorem fail (e : Errno) : HostOnly (Prog.fail e : Prog World Errno α) := fun _ => SameMasks.refl _

theorem act (call : Call α) : HostOnly (act call) := by
  intro w
  unfold VidyaGodFS.act
  cases w.fate 0 with
  | none => exact ⟨rfl, rfl, rfl⟩
  | some e => exact SameMasks.refl _

/-- A lookup changes nothing. -/
theorem look {p : View α} {q : Prog World Errno α} (h : Agrees p q) : HostOnly q := by
  intro w
  obtain ⟨a, w', hrun, hstate, -⟩ := h.total w
  rw [hrun]
  change SameMasks w.state w'.state
  rw [hstate]
  exact SameMasks.refl _

theorem bind {m : Prog World Errno α} {f : α → Prog World Errno β} (hm : HostOnly m)
    (hf : ∀ a, HostOnly (f a)) : HostOnly (m >>= f) := by
  intro w
  have hw := hm w
  rcases hrun : m w with ⟨e | a, w'⟩
  · rw [hrun] at hw
    rw [Prog.bind_of_error hrun]
    exact hw
  · rw [hrun] at hw
    rw [Prog.bind_of_ok hrun]
    exact hw.trans (hf a w')

theorem attempt {m : Prog World Errno α} (h : HostOnly m) :
    HostOnly (Prog.attempt m : Prog World Errno (Except Errno α)) := h

theorem ignoring {m : Prog World Errno α} (h : HostOnly m) : HostOnly (ignoring m) :=
  bind (attempt h) fun _ => pure ()

theorem ite {c : Prop} [Decidable c] {m m' : Prog World Errno α} (h : c → HostOnly m)
    (h' : ¬ c → HostOnly m') : HostOnly (if c then m else m') := by
  by_cases hc : c
  · rw [if_pos hc]
    exact h hc
  · rw [if_neg hc]
    exact h' hc

theorem forM {γ : Type} {f : γ → Prog World Errno PUnit} :
    ∀ {l : List γ}, (∀ x ∈ l, HostOnly (f x)) → HostOnly (l.forM f) := by
  intro l
  induction l with
  | nil => exact fun _ => pure _
  | cons x l ih =>
      intro h
      exact bind (h x (by simp)) fun _ => ih fun y hy => h y (by simp [hy])

end HostOnly

/-! ### Directories -/

theorem createDirectory_hostOnly (p : Path) : HostOnly (createDirectory p) := by
  refine HostOnly.bind (HostOnly.attempt (HostOnly.act _)) fun r => ?_
  cases r with
  | ok u => exact HostOnly.pure _
  | error e =>
      exact HostOnly.bind (HostOnly.look (Agrees.look _)) fun there =>
        HostOnly.ite (fun _ => HostOnly.pure _) fun _ => HostOnly.fail e

theorem createDirectories_hostOnly (p : HostPath) : HostOnly (createDirectories p) := by
  cases p with
  | none => exact HostOnly.fail _
  | some p =>
      refine HostOnly.bind (HostOnly.look (Agrees.look _)) fun r => ?_
      cases r with
      | error e => exact HostOnly.fail e
      | ok dirs => exact HostOnly.forM fun q _ => createDirectory_hostOnly q

theorem createDirectoriesEio_hostOnly (p : HostPath) : HostOnly (createDirectoriesEio p) := by
  refine HostOnly.bind (HostOnly.attempt (createDirectories_hostOnly p)) fun r => ?_
  cases r with
  | ok u => exact HostOnly.pure _
  | error e => exact HostOnly.fail _

theorem toleratingEnoent_hostOnly {m : Prog World Errno Unit} (h : HostOnly m) :
    HostOnly (toleratingEnoent m) := by
  refine HostOnly.bind (HostOnly.attempt h) fun r => ?_
  cases r with
  | ok u => exact HostOnly.pure _
  | error e => exact HostOnly.ite (fun _ => HostOnly.pure _) fun _ => HostOnly.fail e

/-! ### Copies -/

theorem copyLoop_hostOnly (out : Handle) {read : ℕ → Prog World Errno Bytes}
    (hread : ∀ off, HostOnly (read off)) : ∀ fuel off, HostOnly (copyLoop out read fuel off) := by
  intro fuel
  induction fuel with
  | zero => exact fun off => HostOnly.pure _
  | succ fuel ih =>
      intro off
      exact HostOnly.bind (hread off) fun got => HostOnly.ite (fun _ => HostOnly.pure _) fun _ =>
        HostOnly.bind (HostOnly.act _) fun _ => ih _

theorem copyZipEntry_hostOnly (Z : ZipIndex) (e : ZipEntry) (out : Handle) :
    HostOnly (copyZipEntry Z e out) := by
  unfold copyZipEntry
  cases openZipEntry Z e with
  | error err => exact HostOnly.fail err
  | ok zr =>
      exact HostOnly.bind (copyLoop_hostOnly out (fun off => HostOnly.act _) _ _) fun _ =>
        HostOnly.ignoring (HostOnly.act _)

theorem copyHostFile_hostOnly (host : HostPath) (out : Handle) :
    HostOnly (copyHostFile host out) := by
  refine HostOnly.bind (HostOnly.act _) fun inp => HostOnly.bind (HostOnly.look (Agrees.see _))
    fun size => HostOnly.bind (HostOnly.attempt (copyLoop_hostOnly out (fun off => HostOnly.act _) _ _))
      fun rc => HostOnly.bind ?_ fun _ => ?_
  · refine HostOnly.bind (HostOnly.look (Agrees.look _)) fun r => ?_
    cases r with
    | error e => exact HostOnly.pure _
    | ok st => exact HostOnly.ignoring (HostOnly.act _)
  · cases rc with
    | ok u => exact HostOnly.pure _
    | error e => exact HostOnly.fail e

theorem readZipLink_hostOnly (Z : ZipIndex) (e : ZipEntry) : HostOnly (readZipLink Z e) := by
  refine HostOnly.ite (fun _ => HostOnly.fail _) fun _ => ?_
  cases openZipEntry Z e with
  | error err => exact HostOnly.fail err
  | ok zr => exact HostOnly.bind (HostOnly.act _) fun got => HostOnly.pure _

theorem copyFile_hostOnly (dst : HostPath) {copy : Handle → Prog World Errno Unit}
    (hcopy : ∀ out, HostOnly (copy out)) : HostOnly (copyFile dst copy) := by
  refine HostOnly.bind (HostOnly.act _) fun out => HostOnly.bind (HostOnly.attempt (hcopy out))
    fun r => ?_
  cases r with
  | ok u => exact HostOnly.pure _
  | error e => exact HostOnly.bind (HostOnly.ignoring (HostOnly.act _)) fun _ => HostOnly.fail e

variable (M : Mount)

theorem copyTo_hostOnly (dst : HostPath) (rr : ResolveResult) : HostOnly (copyTo M dst rr) := by
  have hhost : ∀ host, HostOnly
      (do
        if ← copiesAsLink M rr then do
          let target ← act fun d => (d.readlink host, d)
          act (Disk.symlink target dst)
        else copyFile dst (copyHostFile host) : Prog World Errno Unit) := fun host =>
    HostOnly.bind (HostOnly.look (copiesAsLink_agrees M rr)) fun b =>
      HostOnly.ite (fun _ => HostOnly.bind (HostOnly.act _) fun target => HostOnly.act _)
        fun _ => copyFile_hostOnly dst fun out => copyHostFile_hostOnly host out
  refine HostOnly.bind (HostOnly.look (copiesAsDir_agrees M rr)) fun b =>
    HostOnly.ite (fun _ => createDirectoriesEio_hostOnly dst) fun _ => ?_
  cases rr with
  | zipEntry L Z e =>
      cases e with
      | none => exact hhost _
      | some e =>
          exact HostOnly.ite
            (fun _ => HostOnly.bind (readZipLink_hostOnly Z e) fun target => HostOnly.act _)
            fun _ => copyFile_hostOnly dst fun out => copyZipEntry_hostOnly Z e out
  | _ => exact hhost _

/-- **Copying up leaves the masks alone.** -/
theorem copyUp_hostOnly (v : Path) (rr : ResolveResult) : HostOnly (copyUp M v rr) := by
  refine HostOnly.ite (fun _ => HostOnly.fail _) fun _ => HostOnly.ite (fun _ => HostOnly.pure _)
    fun _ => HostOnly.bind (HostOnly.look (Agrees.look _)) fun r => ?_
  cases r with
  | ok st => exact HostOnly.pure _
  | error e =>
      refine HostOnly.bind ?_ fun _ => copyTo_hostOnly M _ rr
      unfold ensureCopyParent
      cases M.passthroughHost v with
      | none => exact createDirectoriesEio_hostOnly _
      | some dst => exact createDirectoriesEio_hostOnly _

theorem makeWritable_hostOnly (v : Path) (rr : ResolveResult) : HostOnly (makeWritable M v rr) :=
  HostOnly.ite (fun _ => HostOnly.pure _) fun _ => copyUp_hostOnly M v rr

theorem deepCopyUp_hostOnly : ∀ (depth : ℕ) (v : Path), HostOnly (deepCopyUp M depth v) := by
  intro depth
  induction depth with
  | zero => exact fun v => HostOnly.fail _
  | succ depth ih =>
      intro v
      refine HostOnly.bind (HostOnly.look (resolve_agrees M v)) fun rr =>
        HostOnly.ite (fun _ => HostOnly.fail _) fun _ => HostOnly.bind (copyUp_hostOnly M v rr)
          fun _ => HostOnly.bind (HostOnly.look (hitIsDir_agrees false rr)) fun b =>
            HostOnly.ite (fun _ => ?_) fun _ => HostOnly.pure _
      exact HostOnly.bind (HostOnly.look (collectChildren_agrees M v)) fun children =>
        HostOnly.forM fun c _ => ih (v ++ [c])

theorem bringUp_hostOnly (v : Path) (rr : ResolveResult) (isDir : Bool) :
    HostOnly (bringUp M v rr isDir) :=
  HostOnly.ite (fun _ => deepCopyUp_hostOnly M _ v) fun _ => makeWritable_hostOnly M v rr

end VidyaGodFS
