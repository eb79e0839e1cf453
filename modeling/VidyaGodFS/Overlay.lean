/-
**The overlay: masks, lookups, and copies to the writable side.**

A path of the mount is looked up in the writelayer first, then in the layers from the highest down,
and last among the directories that the places of the layers imply.  Deleted names are masked: in
the writelayer by whiteouts and opaque directories, in a kept folder by its own markers.  Each mask
is kept twice, as a file on the disk and in a set in memory; lookups read the sets.

A file that is to be written is first copied up, to the kept folder that covers it or else to the
writelayer.

Main definitions:

* `createWhiteout`, `removeWhiteout`, `markOpaque`, `unmarkOpaque`, `renameMaskPrefix` and
  `hideLower`, `unhideLower`, `keptMarkOpaque`, `keptRenamePrefix`, `keptDropMarkersUnder` — the
  masks;
* `seedMasks` — the masks as the files of a directory show them;
* `ResolveResult`, `resolve`, `lookup` — looking up a path;
* `copyUp` — copying a file, a directory or a link to the writable side.

Main results:

* `resolve_agrees` — **where no lookup is refused, `resolve` is a function of the state**;
* `resolve_fits` — **what a lookup finds fits the layers**.
-/

import Mathlib.Data.Finset.Image
import VidyaGodFS.Layers

set_option relaxedAutoImplicit false
set_option autoImplicit false

namespace VidyaGodFS

open Posix

variable (M : Mount)

/-! ### Masks of the writelayer -/

def isWhiteouted (s : VfsState) (v : Path) : Bool :=
  M.writelayer.isSome && v ≠ [] && v ∈ s.whiteoutSet

def createWhiteout (v : Path) : Prog World Errno Unit :=
  if M.writelayer = none then pure () else do
    ignoring (createDirectories (M.wlPath v.dropLast))
    ignoring (act (Disk.open (M.whiteoutPath v) ⟨.wronly, true, false, false, false⟩ 0o644))
    mutate fun s => { s with whiteoutSet := insert v s.whiteoutSet }

def removeWhiteout (v : Path) : Prog World Errno Unit :=
  if M.writelayer = none then pure () else do
    ignoring (act (Disk.unlink (M.whiteoutPath v)))
    mutate fun s => { s with whiteoutSet := s.whiteoutSet.erase v }

def markOpaque (v : Path) : Prog World Errno Unit :=
  if M.writelayer = none then pure () else do
    ignoring (act (Disk.open (M.opaqueMarker v) ⟨.wronly, true, false, false, false⟩ 0o644))
    mutate fun s => { s with opaqueSet := insert v s.opaqueSet }

/-- The marker on the disk is the caller's business. -/
def unmarkOpaque (v : Path) : Prog World Errno Unit :=
  if M.writelayer = none then pure ()
  else mutate fun s => { s with opaqueSet := s.opaqueSet.erase v }

/-- A path that moves along when `old` becomes `new`.  Nothing moves along with the root. -/
def movePrefix (old new v : Path) : Path :=
  if old <+: v ∧ (old = [] → v = []) then new ++ v.drop old.length else v

def renameMaskPrefix (old new : Path) : Prog World Errno Unit :=
  if M.writelayer = none ∨ old = new then pure ()
  else mutate fun s =>
    { s with
      whiteoutSet := s.whiteoutSet.image (movePrefix old new)
      opaqueSet := s.opaqueSet.image (movePrefix old new) }

/-- A directory above `v` is deleted. -/
def isUnderWhiteout (s : VfsState) (v : Path) : Bool :=
  M.writelayer.isSome && (addAncestors v).any (· ∈ s.whiteoutSet)

/-- A directory above `v`, the root included, masks what is below it. -/
def isUnderOpaque (s : VfsState) (v : Path) : Bool :=
  M.writelayer.isSome && ([] :: addAncestors v).any (· ∈ s.opaqueSet)

/-- The masks as the files under a directory show them, from `rel` on.  Directories alone are walked
into, so the depth of the tree is fuel enough. -/
def seedWalk (d : Disk) (base : HostPath) : ℕ → Path → KeptMasks
  | 0, _ => ⟨∅, ∅⟩
  | fuel + 1, rel =>
      (d.readDir (base.join rel)).foldr (fun n masks =>
        if n = opaqueName then { masks with opaqueDirs := insert rel masks.opaqueDirs }
        else if isMarker n then { masks with deleted := insert (rel ++ [unmark n]) masks.deleted }
        else if (d.lstat (base.join (rel ++ [n]))).toOption.any (·.isDir) then
          let inner := seedWalk d base fuel (rel ++ [n])
          ⟨inner.deleted ∪ masks.deleted, inner.opaqueDirs ∪ masks.opaqueDirs⟩
        else masks) ⟨∅, ∅⟩

def seedMasks (d : Disk) (base : HostPath) (rel : Path) : KeptMasks :=
  seedWalk d base (d.tree.height + 1) rel

/-- The masks of the writelayer, from its files. -/
def seedMasksFromWritelayer (s : VfsState) : VfsState :=
  if M.writelayer = none then s
  else
    let masks := seedMasks s.disk M.writelayer []
    { s with whiteoutSet := masks.deleted, opaqueSet := masks.opaqueDirs }

/-! ### Masks of a kept folder -/

/-- The masks of a kept folder, from its files. -/
def seedKeptMasks (d : Disk) (L : Layer) : KeptMasks := seedMasks d L.source L.subpath

def touchMarker (p : HostPath) : Prog World Errno Unit := do
  createDirectories (p.map List.dropLast)
  let _ ← act (Disk.open p ⟨.wronly, true, false, false, false⟩ 0o644)

/-- Changing the masks of one kept folder. -/
def mutateKept (i : ℕ) (f : KeptMasks → KeptMasks) : Prog World Errno Unit :=
  mutate fun s => { s with kept := Function.update s.kept i (f (s.kept i)) }

/-- `v` was deleted, or moved away: its lower copies are to be hidden. -/
def hideLower (v : Path) : Prog World Errno Unit :=
  match M.keptLayerFor v with
  | some L =>
      if sourceRel L v = [] then createWhiteout M v
      else do
        touchMarker (keptMarker L (sourceRel L v))
        mutateKept L.priority fun k => { k with deleted := insert (sourceRel L v) k.deleted }
  | none => createWhiteout M v

/-- A call for which a missing entry is no failure: whether the entry was there. -/
def toleratingEnoent (m : Prog World Errno Unit) : Prog World Errno Bool := do
  match ← Prog.attempt m with
  | .ok () => pure true
  | .error e => if e = .enoent then pure false else Prog.fail e

/-- The kept folder's own marker for `v` goes. -/
def unhideKept (v : Path) : Prog World Errno Unit :=
  match M.keptLayerFor v with
  | some L => do
      let deleted ← see fun s => decide (sourceRel L v ∈ (s.kept L.priority).deleted)
      if sourceRel L v ≠ [] ∧ deleted then do
        let _ ← toleratingEnoent (act (Disk.unlink (keptMarker L (sourceRel L v))))
        mutateKept L.priority fun k => { k with deleted := k.deleted.erase (sourceRel L v) }
      else pure ()
  | none => pure ()

/-- `v` was made again: its masks go. -/
def unhideLower (v : Path) : Prog World Errno Unit := do
  unhideKept M v
  removeWhiteout M v

def keptHidden (s : VfsState) (v : Path) : Bool :=
  (M.keptLayerFor v).any fun L => sourceRel L v ∈ (s.kept L.priority).deleted

def keptOpaqueDir (s : VfsState) (L : Layer) (v : Path) : Bool :=
  L.isKept && sourceRel L v ∈ (s.kept L.priority).opaqueDirs

/-- The kept folder masks `v` for the layers below it. -/
def keptMasked (s : VfsState) (L : Layer) (v : Path) : Bool :=
  let rel := sourceRel L v
  L.isKept && rel ≠ [] &&
    (rel ∈ (s.kept L.priority).deleted || (addAncestors rel).any (· ∈ (s.kept L.priority).deleted) ||
      ([] :: addAncestors rel).any (· ∈ (s.kept L.priority).opaqueDirs))

def keptMarkOpaque (v : Path) : Prog World Errno Unit :=
  match M.keptLayerFor v with
  | none => Prog.fail .einval
  | some L => do
      touchMarker ((keptHost L (sourceRel L v)).join [opaqueName])
      mutateKept L.priority fun k => { k with opaqueDirs := insert (sourceRel L v) k.opaqueDirs }

/-- A directory moved within one kept folder takes its markers along. -/
def keptRenamePrefix (old new : Path) : Prog World Errno Unit :=
  match M.keptLayerFor old, M.keptLayerFor new with
  | some L, some L' =>
      if L.priority ≠ L'.priority then pure ()
      else
        let move := movePrefix (sourceRel L old) (sourceRel L new)
        mutateKept L.priority fun k => ⟨k.deleted.image move, k.opaqueDirs.image move⟩
  | _, _ => pure ()

/-- The markers inside a kept directory go before it does. -/
def keptDropMarkersUnder (v : Path) : Prog World Errno Unit :=
  match M.keptLayerFor v with
  | none => pure ()
  | some L => do
      let host := keptHost L (sourceRel L v)
      let names ← look fun d => .ok (d.readDir host)
      (names.toOption.getD []).forM fun n =>
        if isMarker n then ignoring (act (Disk.unlink (host.join [n]))) else pure ()
      mutateKept L.priority fun k =>
        ⟨k.deleted.filter fun x => x = [] ∨ x.dropLast ≠ sourceRel L v,
          k.opaqueDirs.erase (sourceRel L v)⟩

/-! ### Looking up a path -/

/-- What a path of the mount stands for. -/
inductive ResolveResult
  | none
  | implicitDir
  | writeLayer (host : HostPath)
  | dirLayer (host : HostPath) (layer : Layer)
  | fileLayer (host : HostPath) (layer : Layer)
  /-- `none` for a directory that the names of the entries imply. -/
  | zipEntry (layer : Layer) (index : ZipIndex) (entry : Option ZipEntry)

namespace ResolveResult

def isNone : ResolveResult → Bool
  | .none => true
  | _ => false

/-- The path is served from a kept folder. -/
def rwPassthrough : ResolveResult → Bool
  | .dirLayer _ L => L.rw
  | _ => false

def isWriteLayer : ResolveResult → Bool
  | .writeLayer _ => true
  | _ => false

def hostPath : ResolveResult → HostPath
  | .writeLayer host => host
  | .dirLayer host _ => host
  | .fileLayer host _ => host
  | _ => Option.none

/-- The directories that no host path stands for. -/
def isVirtualDir : ResolveResult → Bool
  | .implicitDir => true
  | .zipEntry _ _ Option.none => true
  | .zipEntry _ _ (some e) => e.isDir
  | _ => false

/-- The path can be written where it is: in the writelayer, or in a kept folder. -/
def isWritable (rr : ResolveResult) : Bool := rr.rwPassthrough || rr.isWriteLayer

end ResolveResult

/-- A path that leaves the source of its layer through a link. -/
def symlinkContained (d : Disk) (host source : HostPath) : Bool :=
  match source, d.canonical host, d.canonical source with
  | none, some _, _ => true
  | _, some p, some root => root.isPrefixOf p
  | _, _, _ => false

section

variable {m : Type → Type} [Monad m] [Looks m]

/-- What one layer says of `v`: what it serves there, that nothing below shows, or neither. -/
def resolveLayer (L : Layer) (v : Path) : m (Option ResolveResult) :=
  if !layerCovers L v || layerMasked L v then pure none
  else
    match L.type with
    | .dir => do
        match ← look fun d => d.lstat (layerHost L v) with
        | .ok st =>
            if M.flattenSymlinks && !L.rw && st.isSymlink then
              match ← look fun d => d.stat (layerHost L v) with
              | .error _ => pure none
              | .ok _ =>
                  match ← look fun d => .ok (symlinkContained d (layerHost L v) L.source) with
                  | .ok true => pure (some (.dirLayer (layerHost L v) L))
                  | _ => pure none
            else pure (some (.dirLayer (layerHost L v) L))
        | .error _ => do
            let masked ← see fun s => keptMasked s L v
            if L.rw && masked then pure (some .none) else pure none
    | .file => do
        match ← look fun d => d.lstat L.source with
        | .error _ => pure none
        | .ok st =>
            if M.flattenSymlinks && st.isSymlink then
              match ← look fun d => d.stat L.source with
              | .error _ => pure none
              | .ok _ => pure (some (.fileLayer L.source L))
            else pure (some (.fileLayer L.source L))
    | .zip Z =>
        let rel := sourceRel L v
        match Z.entry rel with
        | some e =>
            if M.flattenSymlinks && e.symlink then do
              match ← resolveZipSymlink Z e with
              | some t => pure (some (.zipEntry L Z (some t)))
              | none =>
                  if 4096 < e.size ∨ e.stored = false then pure none
                  else pure (some (.zipEntry L Z (some e)))
            else pure (some (.zipEntry L Z (some e)))
        | none =>
            if (Z.children rel).isSome then pure (some (.zipEntry L Z none)) else pure none

/-- The layers from the first of the list on, and then the implied directories. -/
def resolveLayers (v : Path) : List Layer → m ResolveResult
  | [] => pure (if v ∈ M.implicitDirs then .implicitDir else .none)
  | L :: rest => do
      match ← resolveLayer M L v with
      | some rr => pure rr
      | none => resolveLayers v rest

/-- **Looking up a path**: the writelayer, then the layers from the highest down. -/
def resolve (v : Path) : m ResolveResult :=
  if M.writelayer = none then resolveLayers M v M.layers.reverse
  else do
    if ← see fun s => isWhiteouted M s v then pure .none
    else
      match ← look fun d => d.lstat (M.wlPath v) with
      | .ok _ => pure (.writeLayer (M.wlPath v))
      | .error _ =>
          if ← see fun s => isUnderOpaque M s v || isUnderWhiteout M s v then pure .none
          else resolveLayers M v M.layers.reverse

end

theorem resolveLayer_agrees (L : Layer) (v : Path) :
    Agrees (resolveLayer M L v) (resolveLayer M L v) := by
  unfold resolveLayer
  refine Agrees.ite (fun _ => Agrees.pure none) fun _ => ?_
  cases L.type with
  | dir =>
      refine Agrees.bind (Agrees.look _) fun r => ?_
      cases r with
      | error e =>
          exact Agrees.bind (Agrees.see _) fun masked =>
            Agrees.ite (fun _ => Agrees.pure _) fun _ => Agrees.pure none
      | ok st =>
          refine Agrees.ite (fun _ => Agrees.bind (Agrees.look _) fun r => ?_)
            fun _ => Agrees.pure _
          cases r with
          | error e => exact Agrees.pure none
          | ok st' =>
              refine Agrees.bind (Agrees.look _) fun r => ?_
              rcases r with e | ⟨⟨⟩ | ⟨⟩⟩ <;> exact Agrees.pure _
  | file =>
      refine Agrees.bind (Agrees.look _) fun r => ?_
      cases r with
      | error e => exact Agrees.pure none
      | ok st =>
          refine Agrees.ite (fun _ => Agrees.bind (Agrees.look _) fun r => ?_)
            fun _ => Agrees.pure _
          cases r with
          | error e => exact Agrees.pure none
          | ok st' => exact Agrees.pure _
  | zip Z =>
      dsimp only
      cases Z.entry (sourceRel L v) with
      | none => exact Agrees.ite (fun _ => Agrees.pure _) fun _ => Agrees.pure none
      | some e =>
          refine Agrees.ite (fun _ => Agrees.bind (resolveZipSymlink_agrees Z e) fun r => ?_)
            fun _ => Agrees.pure _
          cases r with
          | none => exact Agrees.ite (fun _ => Agrees.pure none) fun _ => Agrees.pure _
          | some t => exact Agrees.pure _

theorem resolveLayers_agrees (v : Path) :
    ∀ layers : List Layer, Agrees (resolveLayers M v layers) (resolveLayers M v layers) := by
  intro layers
  induction layers with
  | nil => exact Agrees.pure _
  | cons L rest ih =>
      refine Agrees.bind (resolveLayer_agrees M L v) fun r => ?_
      cases r with
      | none => exact ih
      | some rr => exact Agrees.pure rr

/-- **Where no lookup is refused, `resolve` is a function of the state.** -/
theorem resolve_agrees (v : Path) : Agrees (resolve M v) (resolve M v) := by
  unfold resolve
  refine Agrees.ite (fun _ => resolveLayers_agrees M v _) fun _ =>
    Agrees.bind (Agrees.see _) fun gone => Agrees.ite (fun _ => Agrees.pure _) fun _ =>
      Agrees.bind (Agrees.look _) fun r => ?_
  cases r with
  | ok st => exact Agrees.pure _
  | error e =>
      exact Agrees.bind (Agrees.see _) fun under =>
        Agrees.ite (fun _ => Agrees.pure _) fun _ => resolveLayers_agrees M v _

variable {M} in
/-- The first layer that has something to say decides. -/
theorem resolveLayers_cons (s : VfsState) (v : Path) (K : Layer) (rest : List Layer) :
    (resolveLayers M v (K :: rest) : View ResolveResult) s =
      ((resolveLayer M K v : View (Option ResolveResult)) s).getD
        ((resolveLayers M v rest : View ResolveResult) s) := by
  rw [resolveLayers, View.bind_apply]
  cases (resolveLayer M K v : View (Option ResolveResult)) s <;> rfl

/-- The plain reading of `resolve`. -/
def lookup (s : VfsState) (v : Path) : ResolveResult := (resolve M v : View ResolveResult) s

theorem resolve_run {w : World} (hw : w.Clear) (v : Path) :
    (resolve M v : Prog World Errno ResolveResult) w = (.ok (lookup M w.state v), w) := (resolve_agrees M v).run w hw

/-- What a lookup of `v` finds is something `M` shows at `v`. -/
def Fits (v : Path) : ResolveResult → Prop
  | .none => True
  | .implicitDir => v ∈ M.implicitDirs
  | .writeLayer host => M.writelayer ≠ none ∧ host = M.wlPath v
  | .dirLayer host L => L ∈ M.layers ∧ layerCovers L v = true ∧ L.isDirLayer = true ∧
      host = layerHost L v
  | .fileLayer host L => L ∈ M.layers ∧ layerCovers L v = true ∧ L.isFileLayer = true ∧
      host = L.source
  | .zipEntry L Z _ => L ∈ M.layers ∧ layerCovers L v = true ∧ L.type = .zip Z

theorem resolveLayer_fits {L : Layer} (hL : L ∈ M.layers) (v : Path) :
    Returns (fun r => ∀ rr, r = some rr → Fits M v rr) (resolveLayer M L v) := by
  unfold resolveLayer
  refine Returns.ite (fun _ => Returns.pure (by simp)) fun hc => ?_
  obtain ⟨hcov, -⟩ : layerCovers L v = true ∧ layerMasked L v = false := by simpa using hc
  cases htype : L.type with
  | dir =>
      have hfits : Fits M v (.dirLayer (layerHost L v) L) :=
        ⟨hL, hcov, by rw [Layer.isDirLayer, htype], rfl⟩
      refine Returns.bind (Returns.triv _) fun r _ => ?_
      cases r with
      | error e =>
          refine Returns.bind (Returns.triv _) fun masked _ =>
            Returns.ite (fun _ => Returns.pure ?_) fun _ => Returns.pure (by simp)
          rintro rr ⟨rfl⟩
          exact trivial
      | ok st =>
          refine Returns.ite (fun _ => Returns.bind (Returns.triv _) fun r _ => ?_)
            fun _ => Returns.pure (by rintro rr ⟨rfl⟩; exact hfits)
          cases r with
          | error e => exact Returns.pure (by simp)
          | ok st' =>
              refine Returns.bind (Returns.triv _) fun r _ => ?_
              rcases r with e | ⟨⟨⟩ | ⟨⟩⟩
              · exact Returns.pure (by simp)
              · exact Returns.pure (by simp)
              · exact Returns.pure (by rintro rr ⟨rfl⟩; exact hfits)
  | file =>
      have hfits : Fits M v (.fileLayer L.source L) :=
        ⟨hL, hcov, by rw [Layer.isFileLayer, htype], rfl⟩
      refine Returns.bind (Returns.triv _) fun r _ => ?_
      cases r with
      | error e => exact Returns.pure (by simp)
      | ok st =>
          refine Returns.ite (fun _ => Returns.bind (Returns.triv _) fun r _ => ?_)
            fun _ => Returns.pure (by rintro rr ⟨rfl⟩; exact hfits)
          cases r with
          | error e => exact Returns.pure (by simp)
          | ok st' => exact Returns.pure (by rintro rr ⟨rfl⟩; exact hfits)
  | zip Z =>
      have hfits : ∀ e, Fits M v (.zipEntry L Z e) := fun e => ⟨hL, hcov, htype⟩
      dsimp only
      cases Z.entry (sourceRel L v) with
      | none =>
          exact Returns.ite (fun _ => Returns.pure (by rintro rr ⟨rfl⟩; exact hfits none))
            fun _ => Returns.pure (by simp)
      | some e =>
          refine Returns.ite (fun _ => Returns.bind (Returns.triv _) fun r _ => ?_)
            fun _ => Returns.pure (by rintro rr ⟨rfl⟩; exact hfits (some e))
          cases r with
          | none =>
              exact Returns.ite (fun _ => Returns.pure (by simp))
                fun _ => Returns.pure (by rintro rr ⟨rfl⟩; exact hfits (some e))
          | some t => exact Returns.pure (by rintro rr ⟨rfl⟩; exact hfits (some t))

theorem resolveLayers_fits (v : Path) :
    ∀ layers : List Layer, (∀ L ∈ layers, L ∈ M.layers) →
      Returns (Fits M v) (resolveLayers M v layers) := by
  intro layers
  induction layers with
  | nil =>
      intro _
      by_cases h : v ∈ M.implicitDirs
      · exact Returns.pure (by rw [if_pos h]; exact h)
      · exact Returns.pure (by rw [if_neg h]; exact trivial)
  | cons L rest ih =>
      intro hmem
      refine Returns.bind (resolveLayer_fits M (hmem L (by simp)) v) fun r hr => ?_
      cases r with
      | none => exact ih fun L' hL' => hmem L' (by simp [hL'])
      | some rr => exact Returns.pure (hr rr rfl)

/-- **What a lookup finds fits the layers.** -/
theorem resolve_fits (v : Path) : Returns (Fits M v) (resolve M v) := by
  have hlayers : Returns (Fits M v) (resolveLayers M v M.layers.reverse) :=
    resolveLayers_fits M v _ fun L hL => List.mem_reverse.1 hL
  unfold resolve
  refine Returns.ite (fun _ => hlayers) fun hwl => Returns.bind (Returns.triv _) fun gone _ =>
    Returns.ite (fun _ => Returns.pure trivial) fun _ => Returns.bind (Returns.triv _) fun r _ => ?_
  cases r with
  | ok st => exact Returns.pure ⟨hwl, rfl⟩
  | error e =>
      exact Returns.bind (Returns.triv _) fun under _ =>
        Returns.ite (fun _ => Returns.pure trivial) fun _ => hlayers

/-- A path that no kept folder covers is not served from one. -/
theorem rwPassthrough_of_fits {v : Path} {rr : ResolveResult} (hfits : Fits M v rr)
    (hv : M.keptLayerFor v = none) : rr.rwPassthrough = false := by
  cases rr with
  | dirLayer host L =>
      obtain ⟨hL, hcov, hdir, -⟩ := hfits
      by_contra hrw
      have hkept := List.find?_eq_none.1 hv L (List.mem_reverse.2 hL)
      rw [Layer.isKept, hdir, hcov] at hkept
      simp [ResolveResult.rwPassthrough] at hrw
      simp [hrw] at hkept
  | _ => rfl

theorem isWriteLayer_of_fits {v : Path} {rr : ResolveResult} (hfits : Fits M v rr)
    (hwl : M.writelayer = none) : rr.isWriteLayer = false := by
  cases rr with
  | writeLayer host => exact absurd hwl hfits.1
  | _ => rfl

/-! ### Copying up -/

/-- `create_directories` with any failure told as `EIO`. -/
def createDirectoriesEio (p : HostPath) : Prog World Errno Unit := do
  match ← Prog.attempt (createDirectories p) with
  | .ok () => pure ()
  | .error _ => Prog.fail .eio

def ensureWriteParent (v : Path) : Prog World Errno Unit :=
  createDirectoriesEio (M.wlPath v.dropLast)

/-- How many bytes a copy moves at a time. -/
def copyChunk : ℕ := 256 * 1024

/-- The loop of a copy: `read` yields up to a chunk of bytes at an offset, and none at the end.
Every turn that goes on has read a byte. -/
def copyLoop (out : Handle) (read : ℕ → Prog World Errno Bytes) : ℕ → ℕ → Prog World Errno Unit
  | 0, _ => pure ()
  | fuel + 1, off => do
      let got ← read off
      if got = [] then pure ()
      else do
        let _ ← act (Disk.pwrite out got off)
        copyLoop out read fuel (off + got.length)

/-- The content of an archive's entry. -/
def copyZipEntry (Z : ZipIndex) (e : ZipEntry) (out : Handle) : Prog World Errno Unit :=
  match openZipEntry Z e with
  | .error err => Prog.fail err
  | .ok zr => do
      copyLoop out (fun off => act fun d => (readZipEntry zr copyChunk off, d)) (e.size + 1) 0
      -- the mode the entry is served with, and the owner may write
      ignoring (act (Disk.fchmod out (0o555 ||| 0o200)))

/-- How long the file behind a handle is. -/
def handleSize (d : Disk) : Handle → ℕ
  | .file i _ => (d.inode i).bytes.length
  | .dir => 0

/-- The mode of a host file, which the owner may also write. -/
def copyMode (host : HostPath) (out : Handle) : Prog World Errno Unit := do
  match ← look fun d => d.lstat host with
  | .error _ => pure ()
  | .ok st => ignoring (act (Disk.fchmod out (st.mode &&& 0o777 ||| 0o200)))

/-- Ending with an outcome met before. -/
def withOutcome (rc : Except Errno Unit) : Prog World Errno Unit :=
  match rc with
  | .ok () => pure ()
  | .error e => Prog.fail e

/-- The content of a host file, and its mode. -/
def copyHostFile (host : HostPath) (out : Handle) : Prog World Errno Unit := do
  let inp ← act (Disk.open host ⟨.rdonly, false, false, false, false⟩ 0)
  let size ← see fun s => handleSize s.disk inp
  let rc ← Prog.attempt
    (copyLoop out (fun off => act fun d => (d.pread inp copyChunk off, d)) (size + 1) 0)
  copyMode host out
  withOutcome rc

/-- A copy to `dst` of what `copy` writes; a copy that fails is taken away. -/
def copyFile (dst : HostPath) (copy : Handle → Prog World Errno Unit) : Prog World Errno Unit := do
  let out ← act (Disk.open dst ⟨.wronly, true, false, true, false⟩ 0o644)
  match ← Prog.attempt (copy out) with
  | .ok () => pure ()
  | .error e => do
      ignoring (act (Disk.unlink dst))
      Prog.fail e

/-- What is copied up as a directory. -/
def copiesAsDir {m : Type → Type} [Monad m] [Looks m] (rr : ResolveResult) : m Bool :=
  match rr with
  | .dirLayer host L => do
      let st ← look fun d =>
        if M.flattenSymlinks && !L.rw then d.stat host else d.lstat host
      pure (st.toOption.any (·.isDir))
  | _ => pure rr.isVirtualDir

/-- Without flattening, a host layer's link is copied up as a link. -/
def copiesAsLink {m : Type → Type} [Monad m] [Looks m] (rr : ResolveResult) : m Bool :=
  match rr with
  | .dirLayer host _ | .fileLayer host _ =>
      if M.flattenSymlinks then pure false
      else do
        let st ← look fun d => d.lstat host
        pure (st.toOption.any (·.isSymlink))
  | _ => pure false

theorem copiesAsDir_agrees (rr : ResolveResult) : Agrees (copiesAsDir M rr) (copiesAsDir M rr) := by
  cases rr with
  | dirLayer host L => exact Agrees.bind (Agrees.look _) fun st => Agrees.pure _
  | _ => exact Agrees.pure _

theorem copiesAsLink_agrees (rr : ResolveResult) :
    Agrees (copiesAsLink M rr) (copiesAsLink M rr) := by
  cases rr with
  | dirLayer host L =>
      exact Agrees.ite (fun _ => Agrees.pure _) fun _ =>
        Agrees.bind (Agrees.look _) fun st => Agrees.pure _
  | fileLayer host L =>
      exact Agrees.ite (fun _ => Agrees.pure _) fun _ =>
        Agrees.bind (Agrees.look _) fun st => Agrees.pure _
  | _ => exact Agrees.pure _

/-- The target of a link in an archive. -/
def readZipLink (Z : ZipIndex) (e : ZipEntry) : Prog World Errno String :=
  if 4096 < e.size then Prog.fail .enametoolong
  else
    match openZipEntry Z e with
    | .error err => Prog.fail err
    | .ok zr => do
        let got ← act fun d => (readZipEntry zr e.size 0, d)
        pure (String.ofList (linkTarget got))

/-- The copy itself, once the directory for it is there. -/
def copyTo (dst : HostPath) (rr : ResolveResult) : Prog World Errno Unit := do
  if ← copiesAsDir M rr then createDirectoriesEio dst
  else
    match rr with
    | .zipEntry _ Z (some e) =>
        if e.symlink then do
          let target ← readZipLink Z e
          act (Disk.symlink target dst)
        else copyFile dst (copyZipEntry Z e)
    | _ =>
        if ← copiesAsLink M rr then do
          let target ← act fun d => (d.readlink rr.hostPath, d)
          act (Disk.symlink target dst)
        else copyFile dst (copyHostFile rr.hostPath)

/-- The directory that a copy goes to. -/
def ensureCopyParent (v : Path) : Prog World Errno Unit :=
  match M.passthroughHost v with
  | some dst => createDirectoriesEio (dst.map List.dropLast)
  | none => ensureWriteParent M v

/-- Where a copy goes: to the kept folder that covers the path, or to the writelayer. -/
def copyDest (v : Path) : HostPath := (M.passthroughHost v).getD (M.wlPath v)

/-- **Copying up** what `rr` says `v` stands for, unless it can be written where it is. -/
def copyUp (v : Path) (rr : ResolveResult) : Prog World Errno Unit :=
  if M.writelayer = none then Prog.fail .erofs
  else if rr.isWritable then pure ()
  else do
    match ← look fun d => d.lstat (copyDest M v) with
    | .ok _ => pure ()
    | .error _ => do
        ensureCopyParent M v
        copyTo M (copyDest M v) rr

/-- Copying up before a change, where `rr` cannot be changed in place. -/
def makeWritable (v : Path) (rr : ResolveResult) : Prog World Errno Unit :=
  if rr.isWritable then pure () else copyUp M v rr

/-- The host file that is changed for `v`, once `rr` is writable. -/
def writeHost (v : Path) (rr : ResolveResult) : HostPath :=
  if rr.rwPassthrough then rr.hostPath else copyDest M v

end VidyaGodFS
