/-
**The operations of the mount.**

What the mount answers to each request, on paths in plain form.  An operation that changes something
works on the host in several calls and keeps the masks in step; where a call fails the operation
ends with that error, and what it did before stays done.

Main definitions:

* `collectChildren` — the names of a directory, merged from all layers;
* `vfsGetattr`, `vfsReaddir`, `vfsReaddirTyped`, `vfsReadlink`, `vfsRead` — the operations that look;
* `vfsOpen`, `vfsCreate`, `vfsWrite`, `vfsMkdir`, `vfsUnlink`, `vfsRmdir`, `vfsRename`,
  `vfsTruncate`, `vfsChmod`, `vfsSymlink`, `vfsLink` — the operations that change something;
* `Op`, `exec` — an operation with its arguments, and running it;
* `init`, `mounted`, `Reaches` — how a mount starts, and the worlds that operations lead to.

Main results:

* `collectChildren_agrees`, `vfsGetattr_agrees` — where no lookup is refused, listings and attributes
  are functions of the state;
* `Reaches.invariant` — what every operation keeps holds in every world reached.
-/

import Mathlib.Data.List.Sort
import VidyaGodFS.Overlay

set_option relaxedAutoImplicit false
set_option autoImplicit false

namespace VidyaGodFS

open Posix

variable (M : Mount)

/-! ### Listing a directory -/

/-- The name right after the directory `v` on the way to `path`; empty if `path` does not lie under `v`,
and where it goes on with a doubled slash. -/
def segmentAfter (v path : Path) : Name :=
  if v.isPrefixOf path then (path.drop v.length).headD "" else ""

/-- The directory `v` has a name on the way to `path`. -/
def nextNames (v path : Path) : List Name :=
  let seg := segmentAfter v path
  if seg ≠ "" then [seg] else []

/-- What a listing gathers: names, the names that kept folders hide, and those they hold. -/
structure Listing where
  names : List Name
  keptWhiteouts : List Name
  keptOwn : List Name

namespace Listing

def empty : Listing := ⟨[], [], []⟩

def merge (a b : Listing) : Listing :=
  ⟨a.names ++ b.names, a.keptWhiteouts ++ b.keptWhiteouts, a.keptOwn ++ b.keptOwn⟩

end Listing

/-- The priority of the highest kept folder whose directory at `v` masks the layers below; 0 if
there is none. -/
def opaquePrio (s : VfsState) (v : Path) : ℕ :=
  (M.layers.filter fun L => L.isKept && layerCovers L v && keptOpaqueDir s L v).foldr
    (fun L prio => max L.priority prio) 0

/-- The names that the markers among `names` are about. -/
def markedNames (names : List Name) : List Name :=
  (names.filter fun n => isMarker n && n ≠ opaqueName).map unmark

section

variable {m : Type → Type} [Monad m] [Looks m]

/-- The names in a host directory; none if it cannot be listed. -/
def lookDir (p : HostPath) : m (List Name) := do
  match ← look fun d => .ok (d.readDir p) with
  | .ok names => pure names
  | .error _ => pure []

/-- The names of an archive's directory, without the links that are not served. -/
def zipNames (Z : ZipIndex) (rel : Path) : List Name → m (List Name)
  | [] => pure []
  | c :: cs => do
      let rest ← zipNames Z rel cs
      match Z.entry (rel ++ [c]) with
      | none => pure (c :: rest)
      | some e =>
          if M.flattenSymlinks && e.symlink && (4096 < e.size || !e.stored) then
            match ← resolveZipSymlink Z e with
            | none => pure rest
            | some _ => pure (c :: rest)
          else pure (c :: rest)

/-- The names that a layer which covers `v` holds there. -/
def layerNames (L : Layer) (v : Path) : m Listing :=
  match L.type with
  | .dir => do
      let names ← lookDir (layerHost L v)
      if L.rw then
        let own := names.filter fun n => !isMarker n
        pure ⟨own, markedNames names, own⟩
      else pure ⟨names, [], []⟩
  | .zip Z => do
      let names ← zipNames M Z (sourceRel L v) ((Z.children (sourceRel L v)).getD [])
      pure ⟨names, [], []⟩
  | .file => pure Listing.empty

/-- The names that the place of a layer implies in `v`. -/
def placeNames (L : Layer) (v : Path) : Listing :=
  let base := if L.isFileLayer ∧ segmentAfter v L.fileVPath = L.fileBase then [L.fileBase] else []
  ⟨base ++ nextNames v L.place, [], []⟩

/-- What a layer adds to the listing of `v`. -/
def layerListing (prio : ℕ) (L : Layer) (v : Path) : m Listing :=
  if L.priority < prio || layerMasked L v then pure Listing.empty
  else if layerCovers L v then do
    let own ← layerNames M L v
    pure (own.merge (placeNames L v))
  else pure (placeNames L v)

def layersListing (prio : ℕ) (v : Path) : List Layer → m Listing
  | [] => pure Listing.empty
  | L :: rest => do
      let a ← layerListing M prio L v
      let b ← layersListing prio v rest
      pure (a.merge b)

/-- A set of names, in order. -/
def sortNames (l : List Name) : List Name := l.dedup.insertionSort (· ≤ ·)

/-- The names in the writelayer's directory, markers included. -/
def writeNames (v : Path) : m (List Name) :=
  if M.writelayer = none then pure [] else lookDir (M.wlPath v)

/-- What the layers and the implied directories add to the listing of `v`: nothing where the
writelayer's directory masks them all. -/
def lowerListing (v : Path) (opq : Bool) : m Listing :=
  if opq then pure Listing.empty
  else do
    let prio ← see fun s => opaquePrio M s v
    let l ← layersListing M prio v M.layers
    pure (l.merge ⟨M.implicitDirs.flatMap (nextNames v), [], []⟩)

/-- **The merged names of the directory `v`.**  The markers in the writelayer's directory hide what
the layers add, those of a kept folder what the layers below it add. -/
def collectChildren (v : Path) : m (List Name) := do
  let wl ← writeNames M v
  let lower ← lowerListing M v (opaqueName ∈ wl)
  pure (sortNames ((wl.filter (fun n => !isMarker n) ++ lower.names).filter fun n =>
    n ∉ markedNames wl ∧ (n ∈ lower.keptWhiteouts → n ∈ lower.keptOwn)))

/-! ### What is at a path -/

/-- Whether what a lookup found is a directory; a single file's layer is looked at only if
`files`. -/
def hitIsDir (files : Bool) (rr : ResolveResult) : m Bool :=
  if rr.isVirtualDir then pure true
  else
    match rr with
    | .writeLayer host | .dirLayer host _ => do
        let st ← look fun d => d.lstat host
        pure (st.toOption.any (·.isDir))
    | .fileLayer host _ =>
        if files then do
          let st ← look fun d => d.lstat host
          pure (st.toOption.any (·.isDir))
        else pure false
    | _ => pure false

structure VfsAttr where
  isDir : Bool
  isSymlink : Bool
  perms : ℕ
  size : ℕ
  deriving DecidableEq, Repr

def VfsAttr.ofStat (st : Stat) : VfsAttr := ⟨st.isDir, st.isSymlink, st.mode &&& 0o777, st.size⟩

/-- Layers of data present a link as what it leads to. -/
def followsLinks (rr : ResolveResult) : Bool :=
  M.flattenSymlinks && !rr.isWriteLayer && !rr.rwPassthrough

def vfsGetattr (v : Path) : m (Except Errno VfsAttr) :=
  if v = [] then pure (.ok ⟨true, false, 0o755, 0⟩)
  else do
    let rr ← resolve M v
    match rr with
    | .none => pure (.error .enoent)
    | .implicitDir => pure (.ok ⟨true, false, 0o755, 0⟩)
    | .zipEntry _ _ none => pure (.ok ⟨true, false, 0o555, 0⟩)
    | .zipEntry _ _ (some e) =>
        if e.isDir then pure (.ok ⟨true, false, 0o555, 0⟩)
        else pure (.ok ⟨false, e.symlink, if e.symlink then 0o777 else 0o555, e.size⟩)
    | .writeLayer host | .dirLayer host _ | .fileLayer host _ =>
        let st ← look fun d => if followsLinks M rr then d.stat host else d.lstat host
        pure (st.map VfsAttr.ofStat)

/-- The names in a directory. -/
def vfsReaddir (v : Path) : m (List Name) := collectChildren M v

/-- The names with their attributes; a name that `vfsGetattr` cannot serve is left out. -/
def vfsReaddirTyped (v : Path) : m (List (Name × VfsAttr)) := do
  let names ← collectChildren M v
  names.foldrM (fun n rest => do
    match ← vfsGetattr M (v ++ [n]) with
    | .ok attr => pure ((n, attr) :: rest)
    | .error _ => pure rest) []

end

/-- The target of a link, where the mount presents one. -/
def vfsReadlink (v : Path) : Prog World Errno String := do
  let rr ← resolve M v
  match rr with
  | .writeLayer host => act fun d => (d.readlink host, d)
  | .dirLayer host L =>
      if L.rw || !M.flattenSymlinks then act fun d => (d.readlink host, d) else Prog.fail .einval
  | .fileLayer host _ =>
      if !M.flattenSymlinks then act fun d => (d.readlink host, d) else Prog.fail .einval
  | .zipEntry _ Z (some e) => if e.symlink then readZipLink Z e else Prog.fail .einval
  | _ => Prog.fail .einval

/-! ### Opening, reading and writing -/

/-- A file that is open in the mount. -/
inductive OpenFile
  | host (h : Handle)
  | zip (zr : ZipReader)

/-- Opening for a change: what `rr` found comes to the writable side first. -/
def openForWrite (v : Path) (rr : ResolveResult) (flags : OpenFlags) :
    Prog World Errno (Option OpenFile) := do
  makeWritable M v rr
  let h ← act (Disk.open (writeHost M v rr) flags 0)
  pure (some (.host h))

/-- Opening for reading: an archive's entry where it is stored, or the host's file. -/
def openForRead (rr : ResolveResult) (flags : OpenFlags) : Prog World Errno (Option OpenFile) :=
  match rr with
  | .zipEntry _ Z (some e) =>
      match openZipEntry Z e with
      | .error err => Prog.fail err
      | .ok zr => pure (some (.zip zr))
  | _ => do
      let h ← act (Disk.open rr.hostPath flags 0)
      pure (some (.host h))

def OpenFlags.wantWrite (flags : OpenFlags) : Bool := flags.access.writes || flags.trunc

/-- Opening a file; a directory opens without a handle. -/
def vfsOpen (v : Path) (flags : OpenFlags) : Prog World Errno (Option OpenFile) := do
  let rr ← resolve M v
  if rr.isNone then Prog.fail .enoent
  else do
    let isDir ← hitIsDir true rr
    if isDir then
      if OpenFlags.wantWrite flags then Prog.fail .eisdir else pure none
    else if OpenFlags.wantWrite flags then
      if M.readOnly then Prog.fail .erofs else openForWrite M v rr flags
    else openForRead rr flags

/-- The directory a host path is in, as text before the last slash. -/
def hostParent : HostPath → HostPath
  | some (n :: m :: p) => some (n :: m :: p).dropLast
  | _ => none

/-- The directory for a kept folder's new file. -/
def ensureHostParent (host : HostPath) : Prog World Errno Unit :=
  ignoring (createDirectories (hostParent host))

def vfsCreate (v : Path) (mode : ℕ) (flags : OpenFlags) : Prog World Errno OpenFile :=
  if M.readOnly then Prog.fail .erofs
  else
    let flags := { flags with creat := true, nofollow := false }
    match M.passthroughHost v with
    | some host =>
        if markerName v then Prog.fail .einval
        else do
          ensureHostParent host
          let h ← act (Disk.open host flags mode)
          -- only now: the deleted name is made again
          ignoring (unhideLower M v)
          pure (.host h)
    | none => do
        removeWhiteout M v
        ensureWriteParent M v
        let h ← act (Disk.open (M.wlPath v) flags mode)
        pure (.host h)

def vfsRead (file : OpenFile) (size off : ℕ) : Prog World Errno Bytes :=
  match file with
  | .zip zr => act fun d => (readZipEntry zr size off, d)
  | .host h => act fun d => (d.pread h size off, d)

def vfsWrite (file : OpenFile) (bs : Bytes) (off : ℕ) : Prog World Errno ℕ :=
  if M.readOnly then Prog.fail .erofs
  else
    match file with
    | .zip _ => Prog.fail .ebadf
    | .host h => act (Disk.pwrite h bs off)

/-! ### Making and removing names -/

/-- The kept folder whose own root `v` is. -/
def keptRoot (v : Path) : Option Layer := (M.keptLayerFor v).filter fun L => sourceRel L v = []

/-- A directory made again over a deleted one must start empty; one that cannot is not made. -/
def startEmpty (v : Path) (host : HostPath) : Prog World Errno Unit := do
  match ← Prog.attempt (keptMarkOpaque M v) with
  | .ok () => pure ()
  | .error e => do
      ignoring (act (Disk.rmdir host))
      Prog.fail e

/-- Running a program if a condition holds. -/
def runIf (c : Bool) (m : Prog World Errno Unit) : Prog World Errno Unit := if c then m else pure ()

def vfsMkdir (v : Path) (mode : ℕ) : Prog World Errno Unit :=
  if M.readOnly then Prog.fail .erofs
  else
    match M.passthroughHost v with
    | some host =>
        if markerName v then Prog.fail .einval
        else do
          let gone ← see fun s => isWhiteouted M s v
          if (keptRoot M v).isSome ∧ gone then removeWhiteout M v
          else do
            let overDeleted ← see fun s => keptHidden M s v
            ensureHostParent host
            act (Disk.mkdir host mode)
            runIf overDeleted (startEmpty M v host)
            ignoring (unhideLower M v)
    | none => do
        -- a whiteout says that the directory was deleted below: it must start empty
        let recreateOverLower ← see fun s => isWhiteouted M s v
        removeWhiteout M v
        ensureWriteParent M v
        act (Disk.mkdir (M.wlPath v) mode)
        runIf recreateOverLower (markOpaque M v)

/-- The writelayer's own entry goes, if there is one. -/
def unlinkWriteCopy (v : Path) : Prog World Errno Unit :=
  if M.writelayer = none then pure ()
  else do
    let _ ← toleratingEnoent (act (Disk.unlink (M.wlPath v)))

/-- What is still visible below a deleted name is hidden. -/
def hideRest (v : Path) (hide : Prog World Errno Unit) (otherwise : Prog World Errno Unit) :
    Prog World Errno Unit := do
  let rr ← resolve M v
  if rr.isNone then otherwise else hide

/-- What the removal of a kept folder's entry ends with when nothing is left to hide. -/
def noneLeft (had : Bool) : Prog World Errno Unit := if had then pure () else Prog.fail .enoent

def vfsUnlink (v : Path) : Prog World Errno Unit :=
  if M.readOnly then Prog.fail .erofs
  else
    match M.passthroughHost v with
    | some host => do
        let had ← toleratingEnoent (act (Disk.unlink host))
        hideRest M v (hideLower M v) (noneLeft had)
    | none => do
        unlinkWriteCopy M v
        hideRest M v (createWhiteout M v) (pure ())

/-- Clearing the markers out of the writelayer's directory `v`. -/
def sweepMarkers (v : Path) (names : List Name) : Prog World Errno Unit :=
  names.forM fun n =>
    if !isMarker n then pure ()
    else if n = opaqueName then do
      ignoring (act (Disk.unlink ((M.wlPath v).join [n])))
      unmarkOpaque M v
    else removeWhiteout M (v ++ [unmark n])

/-- The writelayer's own directory goes, with the markers in it. -/
def removeWriteDir (v : Path) : Prog World Errno Unit :=
  if M.writelayer = none then pure ()
  else do
    let names ← lookDir (M.wlPath v)
    sweepMarkers M v names
    ignoring (act (Disk.rmdir (M.wlPath v)))

def vfsRmdir (v : Path) : Prog World Errno Unit :=
  if M.readOnly then Prog.fail .erofs
  else do
    let children ← collectChildren M v
    if children ≠ [] then Prog.fail .enotempty
    else
      match M.passthroughHost v with
      | some host => do
          keptDropMarkersUnder M v
          if (keptRoot M v).isSome then do
            -- the folder itself stays, emptied for good
            keptMarkOpaque M v
            createWhiteout M v
          else do
            let had ← toleratingEnoent (act (Disk.rmdir host))
            hideRest M v (hideLower M v) (noneLeft had)
      | none => do
          removeWriteDir M v
          hideRest M v (createWhiteout M v) (pure ())

/-! ### Moving and linking -/

/-- Copying up a whole merged directory, level by level.  A path that is too deep for the host
cannot be made there. -/
def deepCopyUp : ℕ → Path → Prog World Errno Unit
  | 0, _ => Prog.fail .enametoolong
  | depth + 1, v => do
      let rr ← resolve M v
      if rr.isNone then Prog.fail .enoent
      else do
        copyUp M v rr
        if ← hitIsDir false rr then do
          let children ← collectChildren M v
          children.forM fun c => deepCopyUp depth (v ++ [c])
        else pure ()

/-- What is to be moved comes to the writable side first: a directory always, for it is merged from
all layers. -/
def bringUp (vf : Path) (rr : ResolveResult) (isDir : Bool) : Prog World Errno Unit :=
  if isDir then deepCopyUp M M.pathDepth vf else makeWritable M vf rr

/-- Moving the host's entry to the place of `vt`. -/
def moveTo (vf vt : Path) (rr : ResolveResult) (isDir : Bool) : Prog World Errno Unit :=
  match M.passthroughHost vt with
  | some dst =>
      if markerName vt then Prog.fail .einval
      else do
        let dstOverDeleted ← see fun s => keptHidden M s vt
        ensureHostParent dst
        act (Disk.rename (writeHost M vf rr) dst)
        runIf isDir (keptRenamePrefix M vf vt)
        runIf (isDir && dstOverDeleted) (keptMarkOpaque M vt)
        ignoring (unhideLower M vt)
  | none => do
      ensureWriteParent M vt
      removeWhiteout M vt
      act (Disk.rename (writeHost M vf rr) (M.wlPath vt))
      runIf isDir (keptRenamePrefix M vf vt)

def vfsRename (vf vt : Path) : Prog World Errno Unit :=
  if M.readOnly then Prog.fail .erofs
  else do
    let rr ← resolve M vf
    if rr.isNone then Prog.fail .enoent
    else do
      let isDir ← hitIsDir false rr
      bringUp M vf rr isDir
      moveTo M vf vt rr isDir
      -- a moved directory takes its markers with it
      runIf isDir (renameMaskPrefix M vf vt)
      hideRest M vf (hideLower M vf) (pure ())

def vfsTruncate (v : Path) (file : Option OpenFile) (size : ℕ) : Prog World Errno Unit :=
  if M.readOnly then Prog.fail .erofs
  else
    match file with
    | some (.host h) => act (Disk.ftruncate h size)
    | _ => do
        let rr ← resolve M v
        if rr.isNone then Prog.fail .enoent
        else do
          makeWritable M v rr
          act (Disk.truncate (writeHost M v rr) size)

def vfsChmod (v : Path) (mode : ℕ) : Prog World Errno Unit :=
  if M.readOnly then Prog.fail .erofs
  else do
    let rr ← resolve M v
    if rr.isNone then Prog.fail .enoent
    else do
      makeWritable M v rr
      act (Disk.chmod (writeHost M v rr) mode)

def vfsSymlink (target : String) (v : Path) : Prog World Errno Unit :=
  if M.readOnly then Prog.fail .erofs
  else
    match M.passthroughHost v with
    | some host =>
        if markerName v then Prog.fail .einval
        else do
          ensureHostParent host
          act (Disk.symlink target host)
          ignoring (unhideLower M v)
    | none => do
        removeWhiteout M v
        ensureWriteParent M v
        act (Disk.symlink target (M.wlPath v))

/-- The further name at the place of `vt`. -/
def linkTo (vf vt : Path) (rr : ResolveResult) : Prog World Errno Unit :=
  match M.passthroughHost vt with
  | some dst =>
      if markerName vt then Prog.fail .einval
      else do
        ensureHostParent dst
        act (Disk.link (writeHost M vf rr) dst)
  | none => do
      ensureWriteParent M vt
      act (Disk.link (writeHost M vf rr) (M.wlPath vt))

def vfsLink (vf vt : Path) : Prog World Errno Unit :=
  if M.readOnly then Prog.fail .erofs
  else do
    let rr ← resolve M vf
    if rr.isNone then Prog.fail .enoent
    else if rr.isVirtualDir then Prog.fail .eperm
    else do
      let there ← resolve M vt
      if !there.isNone then Prog.fail .eexist
      else do
        makeWritable M vf rr
        linkTo M vf vt rr
        -- only now: a failed link must not bring back a deleted name
        ignoring (unhideLower M vt)

/-! ### Operations as values -/

/-- An operation that may change something, with its arguments. -/
inductive Op
  | create (v : Path) (mode : ℕ) (flags : OpenFlags)
  | mkdir (v : Path) (mode : ℕ)
  | symlink (target : String) (v : Path)
  | link (vf vt : Path)
  | unlink (v : Path)
  | rmdir (v : Path)
  | rename (vf vt : Path)
  | open_ (v : Path) (flags : OpenFlags)
  | write (file : OpenFile) (bs : Bytes) (off : ℕ)
  | truncate (v : Path) (file : Option OpenFile) (size : ℕ)
  | chmod (v : Path) (mode : ℕ)

/-- Running an operation, for what it does. -/
def exec : Op → Prog World Errno Unit
  | .create v mode flags => do let _ ← vfsCreate M v mode flags
  | .mkdir v mode => vfsMkdir M v mode
  | .symlink target v => vfsSymlink M target v
  | .link vf vt => vfsLink M vf vt
  | .unlink v => vfsUnlink M v
  | .rmdir v => vfsRmdir M v
  | .rename vf vt => vfsRename M vf vt
  | .open_ v flags => do let _ ← vfsOpen M v flags
  | .write file bs off => do let _ ← vfsWrite M file bs off
  | .truncate v file size => vfsTruncate M v file size
  | .chmod v mode => vfsChmod M v mode

/-- The writelayer's directory is made if need be. -/
def makeWritelayer : Prog World Errno Unit :=
  if M.writelayer = none then pure () else ignoring (createDirectories M.writelayer)

/-- The state a mount starts in: its masks are read off the files. -/
def init : Prog World Errno Unit := do
  makeWritelayer M
  mutate (seedMasksFromWritelayer M)
  M.layers.forM fun L =>
    if L.isKept then mutate fun s =>
      { s with kept := Function.update s.kept L.priority (seedKeptMasks s.disk L) }
    else pure ()

/-! ### Listings and attributes as functions of the state -/

theorem lookDir_agrees (p : HostPath) : Agrees (lookDir p) (lookDir p) := by
  refine Agrees.bind (Agrees.look _) fun r => ?_
  cases r with
  | error e => exact Agrees.pure _
  | ok names => exact Agrees.pure _

theorem zipNames_agrees (Z : ZipIndex) (rel : Path) :
    ∀ l : List Name, Agrees (zipNames M Z rel l) (zipNames M Z rel l) := by
  intro l
  induction l with
  | nil => exact Agrees.pure _
  | cons c cs ih =>
      refine Agrees.bind ih fun rest => ?_
      cases Z.entry (rel ++ [c]) with
      | none => exact Agrees.pure _
      | some e =>
          refine Agrees.ite (fun _ => Agrees.bind (resolveZipSymlink_agrees Z e) fun r => ?_)
            fun _ => Agrees.pure _
          cases r with
          | none => exact Agrees.pure _
          | some t => exact Agrees.pure _

theorem layerNames_agrees (L : Layer) (v : Path) : Agrees (layerNames M L v) (layerNames M L v) := by
  unfold layerNames
  cases L.type with
  | dir =>
      exact Agrees.bind (lookDir_agrees _) fun names =>
        Agrees.ite (fun _ => Agrees.pure _) fun _ => Agrees.pure _
  | zip Z => exact Agrees.bind (zipNames_agrees M Z _ _) fun names => Agrees.pure _
  | file => exact Agrees.pure _

theorem layersListing_agrees (prio : ℕ) (v : Path) :
    ∀ l : List Layer, Agrees (layersListing M prio v l) (layersListing M prio v l) := by
  intro l
  induction l with
  | nil => exact Agrees.pure _
  | cons L rest ih =>
      refine Agrees.bind ?_ fun a => Agrees.bind ih fun b => Agrees.pure _
      exact Agrees.ite (fun _ => Agrees.pure _) fun _ =>
        Agrees.ite (fun _ => Agrees.bind (layerNames_agrees M L v) fun own => Agrees.pure _)
          fun _ => Agrees.pure _

/-- **Where no lookup is refused, a listing is a function of the state.** -/
theorem collectChildren_agrees (v : Path) : Agrees (collectChildren M v) (collectChildren M v) := by
  unfold collectChildren
  refine Agrees.bind (Agrees.ite (fun _ => Agrees.pure _) fun _ => lookDir_agrees _) fun wl =>
    Agrees.bind ?_ fun lower => Agrees.pure _
  exact Agrees.ite (fun _ => Agrees.pure _) fun _ => Agrees.bind (Agrees.see _) fun prio =>
    Agrees.bind (layersListing_agrees M prio v _) fun l => Agrees.pure _

/-- The plain reading of `collectChildren`. -/
def listing (s : VfsState) (v : Path) : List Name := (collectChildren M v : View (List Name)) s

theorem collectChildren_run {w : World} (hw : w.Clear) (v : Path) :
    (collectChildren M v : Prog World Errno (List Name)) w = (.ok (listing M w.state v), w) :=
  (collectChildren_agrees M v).run w hw

theorem hitIsDir_agrees (files : Bool) (rr : ResolveResult) :
    Agrees (hitIsDir files rr) (hitIsDir files rr) := by
  unfold hitIsDir
  refine Agrees.ite (fun _ => Agrees.pure _) fun _ => ?_
  cases rr with
  | writeLayer host => exact Agrees.bind (Agrees.look _) fun st => Agrees.pure _
  | dirLayer host L => exact Agrees.bind (Agrees.look _) fun st => Agrees.pure _
  | fileLayer host L =>
      exact Agrees.ite (fun _ => Agrees.bind (Agrees.look _) fun st => Agrees.pure _)
        fun _ => Agrees.pure _
  | _ => exact Agrees.pure _

theorem vfsGetattr_agrees (v : Path) : Agrees (vfsGetattr M v) (vfsGetattr M v) := by
  unfold vfsGetattr
  refine Agrees.ite (fun _ => Agrees.pure _) fun _ => Agrees.bind (resolve_agrees M v) fun rr => ?_
  cases rr with
  | writeLayer host => exact Agrees.bind (Agrees.look _) fun st => Agrees.pure _
  | dirLayer host L => exact Agrees.bind (Agrees.look _) fun st => Agrees.pure _
  | fileLayer host L => exact Agrees.bind (Agrees.look _) fun st => Agrees.pure _
  | none => exact Agrees.pure _
  | implicitDir => exact Agrees.pure _
  | zipEntry L Z e =>
      cases e with
      | none => exact Agrees.pure _
      | some e => exact Agrees.ite (fun _ => Agrees.pure _) fun _ => Agrees.pure _

/-- The plain reading of `vfsGetattr`. -/
def attr (s : VfsState) (v : Path) : Except Errno VfsAttr :=
  (vfsGetattr M v : View (Except Errno VfsAttr)) s

/-! ### Runs -/

/-- A state before anything is known of the masks. -/
def unseeded (d : Disk) : VfsState := ⟨d, ∅, ∅, fun _ => ⟨∅, ∅⟩⟩

/-- The world in which `M` is served on the disk `d`, with the refusals to come. -/
def mounted (d : Disk) (fate blind : ℕ → Option Errno) : World :=
  (init M ⟨unseeded d, fate, blind⟩).2

/-- The worlds that operations lead to from `w₀`, each of them one that `ok` admits where it is
run. -/
inductive Reaches (ok : World → Op → Prop) (w₀ : World) : World → Prop
  | refl : Reaches ok w₀ w₀
  | step {w : World} (op : Op) : Reaches ok w₀ w → ok w op → Reaches ok w₀ (exec M op w).2

/-- **What every admitted operation keeps holds in every world reached.** -/
theorem Reaches.invariant {M : Mount} {ok : World → Op → Prop} {w₀ w : World} {I : World → Prop}
    (h : Reaches M ok w₀ w) (h₀ : I w₀)
    (hstep : ∀ w op, I w → ok w op → I (exec M op w).2) : I w := by
  induction h with
  | refl => exact h₀
  | step op _ hok ih => exact hstep _ op ih hok

end VidyaGodFS
