/-
**What counts as a directory.**

Five places of the code ask whether a path is a directory, each of what the lookup found: the
attributes, opening, moving, copying a directory up level by level, and copying a single entry up.
The attributes follow a link of a data layer, as flattening has it, and so does the copy of a single
entry; the other three look at the link itself.  Of a single file's layer only the attributes and
opening look at what the source is.

Main definitions:

* `Seen` — what a lookup has seen of what it found;
* `presentsDir` — the verdict of the attributes;
* `SameVerdict` — the other four agree with it;
* `OneVerdict` — what the found entry has to be for that.

Main results:

* `copyUp_grows` — a copy that succeeds takes nothing away, wherever it goes;
* `sameVerdict_iff` — **exactly when all five agree**;
* `folderLink_torn` — a link to a directory that is one for the attributes alone.
-/

import VidyaGodFS.CopyUp

set_option relaxedAutoImplicit false
set_option autoImplicit false

namespace VidyaGodFS

open Posix

variable {M : Mount}

/-! ### Calls that only add -/

/-- The call takes nothing away. -/
def Adding {α : Type} (call : Call α) : Prop :=
  ∀ d : Disk, d.tree.Grows (call d).2.tree

theorem Quiet.adding {α : Type} {call : Call α} (h : Quiet call) : Adding call := by
  intro d
  rw [h d]
  exact Tree.Grows.refl _

theorem adding_mkdir (p : HostPath) (mode : ℕ) : Adding (Disk.mkdir p mode) := by
  intro d
  rcases Disk.mkdir_cases p mode d with ⟨e, hf⟩ | ⟨q, -, hnone, -, hput, hi, hrun⟩
  · rw [hf]
    exact Tree.Grows.refl _
  · rw [hrun]
    exact Tree.grows_put hput hnone

theorem adding_symlink (target : String) (p : HostPath) : Adding (Disk.symlink target p) := by
  intro d
  rcases Disk.symlink_cases target p d with ⟨e, hf⟩ | ⟨q, -, hnone, -, hput, hi, hrun⟩
  · rw [hf]
    exact Tree.Grows.refl _
  · rw [hrun]
    exact Tree.grows_put hput hnone

theorem adding_open (p : HostPath) (fl : OpenFlags) (mode : ℕ) : Adding (Disk.open p fl mode) := by
  intro d
  rcases Disk.open_cases p fl mode d with
    ⟨e, hf⟩ | ⟨q, -, ⟨hnone, -, -, hput, hrun⟩ | ⟨i, -, hrun⟩ | ⟨-, hrun⟩⟩
  · rw [hf]
    exact Tree.Grows.refl _
  · rw [hrun]
    exact Tree.grows_put hput hnone
  · rw [hrun]
    cases fl.trunc <;> exact Tree.Grows.refl _
  · rw [hrun]
    exact Tree.Grows.refl _

/-- All that was on the disk is there still. -/
def Holds (t : Tree) (s : VfsState) : Prop := t.Grows s.disk.tree

theorem Adding.keeps {α : Type} {call : Call α} (h : Adding call) (t : Tree) :
    Keeps (Holds t) (act call) :=
  Keeps.act fun s hs => Tree.Grows.trans hs (h s.disk)

theorem Holds.of_namesKept {t : Tree} {s s' : VfsState} (h : Holds t s) (h' : NamesKept s s') :
    Holds t s' := by
  rw [Holds, h'.tree]
  exact h

theorem createDirectory_holds (t : Tree) (p : Path) : Keeps (Holds t) (createDirectory p) := by
  unfold createDirectory
  refine Keeps.bind (Keeps.attempt ((adding_mkdir _ _).keeps t)) fun r => ?_
  cases r with
  | ok u => exact Keeps.pure _
  | error e =>
      exact Keeps.bind (Keeps.look (Agrees.look _)) fun there =>
        Keeps.ite (fun _ => Keeps.pure _) fun _ => Keeps.fail e

theorem createDirectories_holds (t : Tree) (p : HostPath) :
    Keeps (Holds t) (createDirectories p) := by
  cases p with
  | none => exact Keeps.fail _
  | some p =>
      refine Keeps.bind (Keeps.look (Agrees.look _)) fun r => ?_
      cases r with
      | error e => exact Keeps.fail e
      | ok dirs => exact Keeps.forM fun q _ => createDirectory_holds t q

theorem createDirectoriesEio_holds (t : Tree) (p : HostPath) :
    Keeps (Holds t) (createDirectoriesEio p) := by
  unfold createDirectoriesEio
  refine Keeps.bind (Keeps.attempt (createDirectories_holds t p)) fun r => ?_
  cases r with
  | ok u => exact Keeps.pure _
  | error e => exact Keeps.fail _

/-- A program that keeps all there was if it succeeds. -/
def Completes (t : Tree) (m : Prog World Errno Unit) : Prop :=
  Calmly (Holds t) m (fun _ => Holds t) fun _ _ => True

theorem Completes.of_keeps {t : Tree} {m : Prog World Errno Unit} (h : Keeps (Holds t) m) :
    Completes t m := Calmly.conseq h (fun _ hs => hs) (fun _ _ hs => hs) fun _ _ _ => trivial

/-- A copy that fails is taken away again; one that succeeds is an addition. -/
theorem copyFile_completes (t : Tree) (dst : HostPath) {copy : Handle → Prog World Errno Unit}
    (hcopy : ∀ out s, Keeps (NamesKept s) (copy out)) : Completes t (copyFile dst copy) := by
  unfold copyFile
  refine Calmly.bind (Calmly.conseq ((adding_open dst _ _).keeps t) (fun _ hs => hs)
    (fun _ _ hs => hs) fun _ _ _ => trivial) fun out => Calmly.assuming fun s hs => ?_
  have hrun : Calmly (fun s' => s' = s) (copy out) (fun _ => Holds t) (fun _ => Holds t) :=
    Calmly.conseq (hcopy out s) (by rintro s' rfl; exact NamesKept.refl s')
      (fun _ _ hs' => hs.of_namesKept hs') fun _ _ hs' => hs.of_namesKept hs'
  refine Calmly.bind (Calmly.attempt hrun) fun r => ?_
  cases r with
  | ok u => exact Calmly.pure fun _ hs' => hs'
  | error e =>
      refine Calmly.bind (Q := fun _ _ => True) (Calmly.ignoring ?_)
        fun _ => Calmly.fail fun _ _ => trivial
      exact Calmly.act fun s' _ => by rcases Disk.unlink dst s'.disk with ⟨e | u, d⟩ <;> exact trivial

theorem copyTo_completes (M : Mount) (t : Tree) (dst : HostPath) (rr : ResolveResult) :
    Completes t (copyTo M dst rr) := by
  have hlink : ∀ target, Completes t (act (Disk.symlink target dst)) := fun target =>
    Completes.of_keeps ((adding_symlink target dst).keeps t)
  have hread : ∀ {α : Type} {m : Prog World Errno α}, (∀ s, Keeps (NamesKept s) m) →
      Calmly (Holds t) m (fun _ => Holds t) fun _ _ => True := fun h =>
    Calmly.assuming fun s hs => Calmly.conseq (h s) (by rintro s' rfl; exact NamesKept.refl s')
      (fun _ _ hs' => hs.of_namesKept hs') fun _ _ _ => trivial
  have hhost : ∀ host, Completes t
      (do
        if ← copiesAsLink M rr then do
          let target ← act fun d => (d.readlink host, d)
          act (Disk.symlink target dst)
        else copyFile dst (copyHostFile host)) := by
    intro host
    refine Calmly.bind (Calmly.look (Q := fun _ => Holds t) (copiesAsLink_agrees M rr) fun _ hs => hs)
      fun b => Calmly.ite (fun _ => ?_)
        fun _ => copyFile_completes t dst fun out s => copyHostFile_keeps s host out
    exact Calmly.bind (hread fun s => NamesKept.act (quiet_look fun d => d.readlink host) s)
      fun target => hlink target
  unfold copyTo
  refine Calmly.bind (Calmly.look (Q := fun _ => Holds t) (copiesAsDir_agrees M rr) fun _ hs => hs)
    fun b => Calmly.ite (fun _ => Completes.of_keeps (createDirectoriesEio_holds t dst)) fun _ => ?_
  cases rr with
  | zipEntry L Z e =>
      cases e with
      | none => exact hhost _
      | some e =>
          refine Calmly.ite (fun _ => ?_)
            fun _ => copyFile_completes t dst fun out s => copyZipEntry_keeps s Z e out
          exact Calmly.bind (hread fun s => readZipLink_keeps s Z e) fun target => hlink target
  | _ => exact hhost _

/-- **A copy that succeeds takes nothing away**, wherever it goes. -/
theorem copyUp_grows (M : Mount) (t : Tree) (v : Path) (rr : ResolveResult) :
    Completes t (copyUp M v rr) := by
  unfold copyUp
  refine Calmly.ite (fun _ => Calmly.fail fun _ _ => trivial) fun _ =>
    Calmly.ite (fun _ => Calmly.pure fun _ hs => hs) fun _ =>
      Calmly.bind (Calmly.look (Q := fun _ => Holds t) (Agrees.look _) fun _ hs => hs) fun r => ?_
  cases r with
  | ok st => exact Calmly.pure fun _ hs => hs
  | error e =>
      refine Calmly.bind (Completes.of_keeps (t := t) ?_) fun _ => copyTo_completes M t _ rr
      unfold ensureCopyParent
      cases M.passthroughHost v with
      | none => exact createDirectoriesEio_holds t _
      | some dst => exact createDirectoriesEio_holds t _

/-! ### What a lookup has seen -/

/-- What is at the end of the path is a directory. -/
def dirAt (d : Disk) (follow : Bool) (p : HostPath) : Bool := (d.statAt follow p).toOption.any (·.isDir)

/-- What a lookup has seen of what it found: the entry is there, and a link of a data layer leads
somewhere, for a directory layer to a place in its source. -/
def Seen (M : Mount) (s : VfsState) : ResolveResult → Prop
  | .writeLayer host => ∃ st, s.disk.lstat host = .ok st
  | .dirLayer host L => ∃ st, s.disk.lstat host = .ok st ∧
      (M.flattenSymlinks = true → L.rw = false → st.isSymlink = true →
        (∃ st', s.disk.stat host = .ok st') ∧ symlinkContained s.disk host L.source = true)
  | .fileLayer host _ => ∃ st, s.disk.lstat host = .ok st ∧
      (M.flattenSymlinks = true → st.isSymlink = true → ∃ st', s.disk.stat host = .ok st')
  | _ => True

theorem resolveLayer_seen (M : Mount) (s : VfsState) (L : Layer) (v : Path) :
    Shows s (fun r => ∀ rr, r = some rr → Seen M s rr) (resolveLayer M L v) := by
  unfold resolveLayer
  refine Shows.ite (fun _ => Shows.pure (by simp)) fun _ => ?_
  cases L.type with
  | dir =>
      refine Shows.bind fun r hr => ?_
      cases r with
      | error e =>
          refine Shows.bind fun masked _ => Shows.ite (fun _ => Shows.pure ?_)
            fun _ => Shows.pure (by simp)
          rintro rr ⟨rfl⟩
          exact trivial
      | ok st =>
          refine Shows.ite (fun hlink => Shows.bind fun r hr' => ?_) fun hlink => Shows.pure ?_
          · cases r with
            | error e => exact Shows.pure (by simp)
            | ok st' =>
                refine Shows.bind fun r hr'' => ?_
                rcases r with e | ⟨⟨⟩ | ⟨⟩⟩
                · exact Shows.pure (by simp)
                · exact Shows.pure (by simp)
                · refine Shows.pure ?_
                  rintro rr ⟨rfl⟩
                  exact ⟨st, hr.symm, fun _ _ _ => ⟨⟨st', hr'.symm⟩, (Except.ok.inj hr'').symm⟩⟩
          · rintro rr ⟨rfl⟩
            refine ⟨st, hr.symm, fun hf hrw hst => absurd ?_ hlink⟩
            simp [hf, hrw, hst]
  | file =>
      refine Shows.bind fun r hr => ?_
      cases r with
      | error e => exact Shows.pure (by simp)
      | ok st =>
          refine Shows.ite (fun hlink => Shows.bind fun r hr' => ?_) fun hlink => Shows.pure ?_
          · cases r with
            | error e => exact Shows.pure (by simp)
            | ok st' =>
                refine Shows.pure ?_
                rintro rr ⟨rfl⟩
                exact ⟨st, hr.symm, fun _ _ => ⟨st', hr'.symm⟩⟩
          · rintro rr ⟨rfl⟩
            refine ⟨st, hr.symm, fun hf hst => absurd ?_ hlink⟩
            simp [hf, hst]
  | zip Z =>
      have hzip : ∀ e rr, some (ResolveResult.zipEntry L Z e) = some rr → Seen M s rr := by
        rintro e rr ⟨rfl⟩
        exact trivial
      dsimp only
      cases Z.entry (sourceRel L v) with
      | none => exact Shows.ite (fun _ => Shows.pure (hzip none)) fun _ => Shows.pure (by simp)
      | some e =>
          refine Shows.ite (fun _ => Shows.bind fun r _ => ?_) fun _ => Shows.pure (hzip _)
          cases r with
          | none => exact Shows.ite (fun _ => Shows.pure (by simp)) fun _ => Shows.pure (hzip _)
          | some t => exact Shows.pure (hzip _)

theorem resolveLayers_seen (M : Mount) (s : VfsState) (v : Path) :
    ∀ layers, Shows s (Seen M s) (resolveLayers M v layers) := by
  intro layers
  induction layers with
  | nil =>
      by_cases h : v ∈ M.implicitDirs
      · exact Shows.pure (by rw [if_pos h]; exact trivial)
      · exact Shows.pure (by rw [if_neg h]; exact trivial)
  | cons L rest ih =>
      have hL := resolveLayer_seen M s L v
      refine Shows.bind fun r hr => ?_
      cases r with
      | none => exact ih
      | some rr => exact Shows.pure (hL rr hr.symm)

/-- **A lookup has seen what it found.** -/
theorem lookup_seen (M : Mount) (s : VfsState) (v : Path) : Seen M s (lookup M s v) := by
  have hrun : Shows s (Seen M s) (resolve M v) := by
    unfold resolve
    refine Shows.ite (fun _ => resolveLayers_seen M s v _) fun _ => Shows.bind fun gone _ =>
      Shows.ite (fun _ => Shows.pure trivial) fun _ => Shows.bind fun r hr => ?_
    cases r with
    | ok st => exact Shows.pure ⟨st, hr.symm⟩
    | error e =>
        exact Shows.bind fun under _ => Shows.ite (fun _ => Shows.pure trivial)
          fun _ => resolveLayers_seen M s v _
  exact hrun

/-- An entry that is no link is what it is whether links are followed or not. -/
theorem stat_of_lstat {d : Disk} {p : HostPath} {st : Stat} (h : d.lstat p = .ok st)
    (hlink : st.isSymlink = false) : d.stat p = .ok st := by
  obtain ⟨q, nd, hq, hnd, rfl⟩ := Disk.statAt_ok h
  refine Disk.statAt_of_find (Disk.find_follow hq fun target ht => ?_) hnd
  rw [hnd] at ht
  rw [Option.some_inj.1 ht] at hlink
  cases hlink

/-- An entry that is there is the same in a larger tree. -/
theorem dirAt_grows {d d' : Disk} (h : d.tree.Grows d'.tree) {p : HostPath} {st : Stat}
    (hst : d.lstat p = .ok st) : dirAt d' false p = dirAt d false p := by
  obtain ⟨q, nd, hq, hnd, rfl⟩ := Disk.statAt_ok hst
  rw [dirAt, dirAt, Disk.statAt_of_find hq hnd,
    Disk.statAt_of_find (Disk.find_grows h hq (by simp [hnd])) (h q nd hnd)]
  exact (d'.nodeStat_isDir nd).trans (d.nodeStat_isDir nd).symm

/-! ### The verdicts -/

/-- The verdict of the attributes. -/
def presentsDir (M : Mount) (s : VfsState) (v : Path) : Bool := (attr M s v).toOption.any (·.isDir)

/-- The verdict of opening. -/
def opensAsDir (M : Mount) (s : VfsState) (v : Path) : Bool :=
  (hitIsDir true (lookup M s v) : View Bool) s

/-- The verdict of moving. -/
def movesAsDir (M : Mount) (s : VfsState) (v : Path) : Bool := dirHit s (lookup M s v)

/-- **The other operations take for a directory what the attributes show as one.** -/
structure SameVerdict (M : Mount) (s : VfsState) (v : Path) : Prop where
  opens : opensAsDir M s v = presentsDir M s v
  moves : movesAsDir M s v = presentsDir M s v
  /-- The copy of a directory asks once the directory itself has been copied. -/
  deepCopies : ∀ s', copyUp M v (lookup M s v) (calm s) = (.ok (), calm s') →
    dirHit s' (lookup M s v) = presentsDir M s v
  /-- What can be written where it is is not copied, and nothing is asked. -/
  copies : (lookup M s v).isWritable = false → asDir M s (lookup M s v) = presentsDir M s v

/-- There is a link at the end of the path. -/
def linkAt (d : Disk) (p : HostPath) : Bool := (d.lstat p).toOption.any (·.isSymlink)

/-- What was found at `v` is one thing to all who ask: the root is a directory itself, no link of a
data layer that is followed leads to a directory, and the source of a single file is none. -/
def OneVerdict (M : Mount) (s : VfsState) (v : Path) : ResolveResult → Prop
  | .writeLayer host => v = [] → dirAt s.disk false host = true
  | .dirLayer host L =>
      if v = [] then dirAt s.disk false host = true
      else M.flattenSymlinks = true → L.rw = false →
        ¬ (linkAt s.disk host = true ∧ dirAt s.disk true host = true)
  | .fileLayer host _ => dirAt s.disk M.flattenSymlinks host = false
  | .zipEntry _ _ (some e) => v = [] → e.isDir = true
  | _ => True

/-- What the attributes show of what was found, below the root. -/
def hitPresents (M : Mount) (s : VfsState) : ResolveResult → Bool
  | .writeLayer host => dirAt s.disk false host
  | .dirLayer host L => dirAt s.disk (M.flattenSymlinks && !L.rw) host
  | .fileLayer host _ => dirAt s.disk M.flattenSymlinks host
  | rr => rr.isVirtualDir

theorem presentsDir_root (M : Mount) (s : VfsState) : presentsDir M s [] = true := rfl

theorem any_map_ofStat (r : Except Errno Stat) :
    (r.map VfsAttr.ofStat).toOption.any (·.isDir) = r.toOption.any (·.isDir) := by
  cases r <;> rfl

/-- Below the root the attributes show what was found. -/
theorem presentsDir_of_ne {s : VfsState} {v : Path} (hv : v ≠ []) :
    presentsDir M s v = hitPresents M s (lookup M s v) := by
  have hfound : (resolve M v : View ResolveResult) s = lookup M s v := rfl
  unfold presentsDir attr vfsGetattr
  rw [if_neg hv, View.bind_apply, hfound]
  cases lookup M s v with
  | none => rfl
  | implicitDir => rfl
  | writeLayer host =>
      have hfollow : followsLinks M (.writeLayer host) = false := by
        simp [followsLinks, ResolveResult.isWriteLayer]
      dsimp only
      rw [hfollow]
      exact any_map_ofStat _
  | dirLayer host L =>
      have hfollow : followsLinks M (.dirLayer host L) = (M.flattenSymlinks && !L.rw) := by
        simp [followsLinks, ResolveResult.isWriteLayer, ResolveResult.rwPassthrough]
      dsimp only
      rw [hfollow]
      cases hf : M.flattenSymlinks && !L.rw <;> simp only [hitPresents, hf] <;> exact any_map_ofStat _
  | fileLayer host L =>
      have hfollow : followsLinks M (.fileLayer host L) = M.flattenSymlinks := by
        simp [followsLinks, ResolveResult.isWriteLayer, ResolveResult.rwPassthrough]
      dsimp only
      rw [hfollow]
      cases hf : M.flattenSymlinks <;> simp only [hitPresents, hf] <;> exact any_map_ofStat _
  | zipEntry L Z e =>
      cases e with
      | none => rfl
      | some e =>
          dsimp only
          cases he : e.isDir <;> simp [hitPresents, ResolveResult.isVirtualDir, he, Except.toOption]

/-- What opening and moving ask of what was found. -/
theorem hitIsDir_view (files : Bool) (s : VfsState) (rr : ResolveResult) :
    (hitIsDir files rr : View Bool) s =
      match rr with
      | .writeLayer host | .dirLayer host _ => dirAt s.disk false host
      | .fileLayer host _ => files && dirAt s.disk false host
      | rr => rr.isVirtualDir := by
  cases rr with
  | fileLayer host L => cases files <;> rfl
  | zipEntry L Z e =>
      unfold hitIsDir
      by_cases hv : (ResolveResult.zipEntry L Z e).isVirtualDir = true
      · rw [if_pos hv]
        exact hv.symm
      · rw [if_neg hv]
        exact (Bool.eq_false_iff.2 hv).symm
  | _ => rfl

/-- What the copy of a single entry asks. -/
theorem asDir_eq (M : Mount) (s : VfsState) (rr : ResolveResult) :
    asDir M s rr =
      match rr with
      | .dirLayer host L => dirAt s.disk (M.flattenSymlinks && !L.rw) host
      | rr => rr.isVirtualDir := by
  cases rr with
  | dirLayer host L =>
      change ((if M.flattenSymlinks && !L.rw then s.disk.stat host
        else s.disk.lstat host).toOption.any (·.isDir)) = _
      cases hf : M.flattenSymlinks && !L.rw <;> simp only [hf] <;> rfl
  | _ => rfl

/-- **A directory that has been copied up is asked the same as before.** -/
theorem dirHit_copied {s s' : VfsState} {v : Path}
    (h : copyUp M v (lookup M s v) (calm s) = (.ok (), calm s')) :
    dirHit s' (lookup M s v) = dirHit s (lookup M s v) := by
  have hgrown : s.disk.tree.Grows s'.disk.tree := by
    have hpost := copyUp_grows M s.disk.tree v (lookup M s v) (calm s)
      ⟨calm_calm s, Tree.Grows.refl _⟩
    rw [h] at hpost
    exact hpost.2
  have hseen := lookup_seen M s v
  rw [dirHit, dirHit, hitIsDir_view, hitIsDir_view]
  cases hrr : lookup M s v with
  | writeLayer host =>
      rw [hrr] at hseen
      obtain ⟨st, hst⟩ := hseen
      exact dirAt_grows hgrown hst
  | dirLayer host L =>
      rw [hrr] at hseen
      obtain ⟨st, hst, -⟩ := hseen
      exact dirAt_grows hgrown hst
  | fileLayer host L => rfl
  | none => rfl
  | implicitDir => rfl
  | zipEntry L Z e => rfl

/-! ### When all agree -/

/-- A directory is one whether links are followed or not. -/
theorem dirAt_follow {d : Disk} {p : HostPath} (h : dirAt d false p = true) (follow : Bool) :
    dirAt d follow p = true := by
  cases follow with
  | false => exact h
  | true =>
      cases hst : d.lstat p with
      | error e =>
          rw [dirAt, ← Disk.lstat, hst] at h
          cases h
      | ok st =>
          obtain ⟨q, nd, hq, hnd, rfl⟩ := Disk.statAt_ok hst
          have hdir : (d.nodeStat nd).isDir = true := by
            rw [dirAt, ← Disk.lstat, hst] at h
            exact h
          have hlink : (d.nodeStat nd).isSymlink = false := by
            cases nd with
            | link target => cases hdir
            | _ => rfl
          rw [dirAt, ← Disk.stat, stat_of_lstat hst hlink]
          exact hdir

/-- Following links tells the two verdicts apart only at a link to a directory. -/
theorem dirAt_eq_iff {d : Disk} {p : HostPath} {st : Stat} (hst : d.lstat p = .ok st) :
    dirAt d false p = dirAt d true p ↔ ¬ (linkAt d p = true ∧ dirAt d true p = true) := by
  obtain ⟨q, nd, hq, hnd, rfl⟩ := Disk.statAt_ok hst
  have hlstat : dirAt d false p = (d.nodeStat nd).isDir := by
    rw [dirAt, ← Disk.lstat, hst]
    rfl
  have hlinkAt : linkAt d p = (d.nodeStat nd).isSymlink := by
    rw [linkAt, hst]
    rfl
  cases hlink : (d.nodeStat nd).isSymlink with
  | false =>
      have hstat : dirAt d true p = (d.nodeStat nd).isDir := by
        rw [dirAt, ← Disk.stat, stat_of_lstat hst hlink]
        rfl
      simp [hlstat, hstat, hlinkAt, hlink]
  | true =>
      have hdir : (d.nodeStat nd).isDir = false := by
        cases nd with
        | link target => rfl
        | _ => cases hlink
      rw [hlstat, hdir, hlinkAt, hlink]
      cases dirAt d true p <;> simp

/-- The five verdicts, once it is said what each of them is. -/
theorem sameVerdict_of {s : VfsState} {v : Path} :
    SameVerdict M s v ↔ opensAsDir M s v = presentsDir M s v ∧ movesAsDir M s v = presentsDir M s v ∧
      ((lookup M s v).isWritable = false → asDir M s (lookup M s v) = presentsDir M s v) :=
  ⟨fun h => ⟨h.opens, h.moves, h.copies⟩, fun h =>
    ⟨h.1, h.2.1, fun _ hrun => (dirHit_copied hrun).trans h.2.1, h.2.2⟩⟩

/-- At the root, which the attributes always show as a directory. -/
theorem sameVerdict_root {s : VfsState} (hv : (lookup M s []).isNone = false) :
    SameVerdict M s [] ↔ OneVerdict M s [] (lookup M s []) := by
  have hfits : Fits M [] (lookup M s []) :=
    resolve_fits M [] (calm s) _ _ (resolve_run M (calm_calm s).2 [])
  rw [sameVerdict_of, presentsDir_root, opensAsDir, movesAsDir, dirHit, hitIsDir_view, hitIsDir_view,
    asDir_eq]
  cases hrr : lookup M s [] with
  | none =>
      rw [hrr] at hv
      cases hv
  | implicitDir => simp [OneVerdict, ResolveResult.isVirtualDir]
  | writeLayer host => simp [OneVerdict, ResolveResult.isWritable, ResolveResult.isWriteLayer]
  | dirLayer host L =>
      simp only [OneVerdict, if_true]
      exact ⟨fun h => h.1, fun h => ⟨h, h, fun _ => dirAt_follow h _⟩⟩
  | fileLayer host L =>
      rw [hrr] at hfits
      obtain ⟨-, hcov, hfile, -⟩ := hfits
      rw [layerCovers, if_pos hfile, Layer.fileVPath] at hcov
      simp at hcov
  | zipEntry L Z e =>
      cases e with
      | none => simp [OneVerdict, ResolveResult.isVirtualDir]
      | some e =>
          simp only [OneVerdict, ResolveResult.isVirtualDir, forall_const]
          exact ⟨fun h => h.1, fun h => ⟨h, h, fun _ => h⟩⟩

/-- **When the operations agree on what is a directory**: the entry that was found is the same to
all who ask. -/
theorem sameVerdict_iff (M : Mount) (s : VfsState) (v : Path) (hv : (lookup M s v).isNone = false) :
    SameVerdict M s v ↔ OneVerdict M s v (lookup M s v) := by
  by_cases hroot : v = []
  · subst hroot
    exact sameVerdict_root hv
  have hseen := lookup_seen M s v
  rw [sameVerdict_of, presentsDir_of_ne hroot, opensAsDir, movesAsDir, dirHit, hitIsDir_view,
    hitIsDir_view, asDir_eq]
  cases hrr : lookup M s v with
  | none =>
      rw [hrr] at hv
      cases hv
  | implicitDir => simp [OneVerdict, hitPresents]
  | writeLayer host =>
      simp [OneVerdict, hitPresents, hroot, ResolveResult.isWritable, ResolveResult.isWriteLayer]
  | dirLayer host L =>
      rw [hrr] at hseen
      obtain ⟨st, hst, -⟩ := hseen
      simp only [OneVerdict, hitPresents, if_neg hroot]
      cases hf : M.flattenSymlinks && !L.rw with
      | false =>
          have hplain : M.flattenSymlinks = true → ¬ L.rw = false := by
            intro hflat hrw
            simp [hflat, hrw] at hf
          simp only [implies_true, and_self, true_iff]
          exact fun hflat hrw => absurd hrw (hplain hflat)
      | true =>
          obtain ⟨hflat, hrw⟩ : M.flattenSymlinks = true ∧ L.rw = false := by simpa using hf
          rw [← dirAt_eq_iff hst]
          simp [hflat, hrw]
  | fileLayer host L =>
      simp only [OneVerdict, hitPresents, ResolveResult.isVirtualDir, Bool.true_and, Bool.false_and]
      constructor
      · exact fun h => h.2.1.symm
      · intro h
        have hlstat : dirAt s.disk false host = false := by
          by_contra hne
          rw [dirAt_follow (by simpa using hne)] at h
          cases h
        rw [h, hlstat]
        exact ⟨rfl, rfl, fun _ => rfl⟩
  | zipEntry L Z e =>
      cases e <;> simp [OneVerdict, hitPresents, hroot]

/-! ### A link to a directory -/

/-- A source with a directory, a file in it, and a link to the directory. -/
def folderDisk : Disk :=
  [Disk.mkdir (some ["src"]) 0o755, Disk.mkdir (some ["src", "data"]) 0o755,
    fun d => ((.ok (), (Disk.open (some ["src", "data", "save"])
      ⟨.wronly, true, false, false, false⟩ 0o644 d).2) : Except Errno Unit × Disk),
    Disk.symlink "data" (some ["src", "link"])].foldl (fun d call => (call d).2) Disk.blank

/-- The source as a layer, flattened, below a writelayer. -/
def folderMount : Mount where
  writelayer := some ["w"]
  readOnly := false
  flattenSymlinks := true
  layers := [⟨.dir, some ["src"], [], [], false, [], 0⟩]
  priority_eq := rfl
  pathDepth := 8

def folderState : VfsState := (mounted folderMount folderDisk allowed allowed).state

/-- **The link is a directory for the attributes, and none for opening and moving**: not all agree. -/
theorem folderLink_torn :
    (lookup folderMount folderState ["link"]).isNone = false ∧
      ¬ SameVerdict folderMount folderState ["link"] ∧
      presentsDir folderMount folderState ["link"] = true ∧
      opensAsDir folderMount folderState ["link"] = false ∧
      movesAsDir folderMount folderState ["link"] = false := by
  have hpresents : presentsDir folderMount folderState ["link"] = true := by decide +kernel
  have hopens : opensAsDir folderMount folderState ["link"] = false := by decide +kernel
  refine ⟨by decide +kernel, fun h => ?_, hpresents, hopens, by decide +kernel⟩
  have hsame := h.opens
  rw [hopens, hpresents] at hsame
  cases hsame

/-- The directory itself is one for all. -/
theorem folder_agreed : SameVerdict folderMount folderState ["data"] :=
  (sameVerdict_iff folderMount folderState ["data"] (by decide +kernel)).2 (by
    have hfound : ∃ host L, lookup folderMount folderState ["data"] = .dirLayer host L ∧
        linkAt folderState.disk host = false := ⟨some ["src", "data"], _, rfl, by decide +kernel⟩
    obtain ⟨host, L, hrr, hlink⟩ := hfound
    rw [hrr]
    simp [OneVerdict, hlink])

end VidyaGodFS
