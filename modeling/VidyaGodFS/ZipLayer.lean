/-
**Archives as layers.**

The index of an archive: its entries by name, and the names under each directory.  Only entries that
are stored as they are can be read, straight from the archive's bytes.  A link of the archive that
leads to a file inside it, through at most eight links, is served as that file.

Main definitions:

* `ZipEntry`, `ZipIndex`, `ZipReader`;
* `openZipEntry`, `readZipEntry` — reading an entry;
* `joinNormalized`, `resolveZipSymlink` — chasing the links of an archive.
-/

import VidyaGodFS.Host

set_option relaxedAutoImplicit false
set_option autoImplicit false

namespace VidyaGodFS

open Posix

/-- One entry of an archive. -/
structure ZipEntry where
  name : Path
  size : ℕ
  isDir : Bool
  symlink : Bool
  /-- Neither compressed nor encrypted: its bytes are those at `dataOffset` in the archive. -/
  stored : Bool
  dataOffset : ℕ
  deriving DecidableEq, Repr

/-- An indexed archive.  It answers a read the same way each time. -/
structure ZipIndex where
  src : ByteSource
  byName : List (Path × ZipEntry)
  dirChildren : List (Path × List Name)

namespace ZipIndex

variable (Z : ZipIndex)

def entry (p : Path) : Option ZipEntry := Z.byName.lookup p

def children (p : Path) : Option (List Name) := Z.dirChildren.lookup p

end ZipIndex

/-- A reader for one stored entry. -/
structure ZipReader where
  src : ByteSource
  dataOffset : ℕ
  size : ℕ

/-- A compressed entry is not served. -/
def openZipEntry (Z : ZipIndex) (E : ZipEntry) : Except Errno ZipReader :=
  if E.stored then .ok ⟨Z.src, E.dataOffset, E.size⟩ else .error .eio

/-- Up to `n` bytes of the entry at `off`. -/
def readZipEntry (R : ZipReader) (n off : ℕ) : Except Errno Bytes :=
  if off < 2 ^ 63 then
    if R.size ≤ off then .ok []
    else R.src.pread 0 (min n (R.size - off)) (R.dataOffset + off)
  else .error .einval

/-- One run of segments pushed on a path: `..` goes back up, and never above the root. -/
def pushSegments : Path → List (List Char) → Option Path
  | segs, [] => some segs
  | segs, w :: ws =>
      if w = ['.', '.'] then
        if segs = [] then none else pushSegments segs.dropLast ws
      else if w ≠ [] ∧ w ≠ ['.'] then pushSegments (segs ++ [String.ofList w]) ws
      else pushSegments segs ws

/-- A directory's name and a relative target put together; `none` where that leaves the archive. -/
def joinNormalized (base : Path) (target : List Char) : Option Path :=
  match pushSegments [] (base.map String.toList) with
  | none => none
  | some segs => pushSegments segs (Tree.splitSlash target)

/-- The characters of a link's target, one for each byte. -/
def linkTarget (bs : Bytes) : List Char := bs.map fun b => Char.ofNat b.toNat

section

variable {m : Type → Type} [Monad m] [Looks m]

/-- Where one link of the archive leads. -/
def followZipLink (Z : ZipIndex) (cur : ZipEntry) : m (Option ZipEntry) :=
  if cur.stored = false ∨ cur.size = 0 ∨ 4096 < cur.size then pure none else do
    match ← look fun _ => Z.src.pread 0 cur.size cur.dataOffset with
    | .error _ => pure none
    | .ok bs =>
        if bs.length ≠ cur.size then pure none
        else if (linkTarget bs).head? = some '/' then pure none
        else
          match joinNormalized cur.name.dropLast (linkTarget bs) with
          | none => pure none
          | some resolved => pure (Z.entry resolved)

/-- `hops` links more. -/
def chaseZipLinks (Z : ZipIndex) : ℕ → ZipEntry → m (Option ZipEntry)
  | 0, cur => pure (some cur)
  | hops + 1, cur =>
      if cur.symlink then do
        match ← followZipLink Z cur with
        | none => pure none
        | some next => chaseZipLinks Z hops next
      else pure (some cur)

/-- The file a link of the archive stands for, if it leads to one inside the archive. -/
def resolveZipSymlink (Z : ZipIndex) (E : ZipEntry) : m (Option ZipEntry) := do
  match ← chaseZipLinks Z 8 E with
  | none => pure none
  | some cur => pure (if cur.symlink || cur.isDir then none else some cur)

end

theorem followZipLink_agrees (Z : ZipIndex) (E : ZipEntry) :
    Agrees (followZipLink Z E) (followZipLink Z E) := by
  unfold followZipLink
  refine Agrees.ite (fun _ => Agrees.pure none) fun _ => Agrees.bind (Agrees.look _) fun r => ?_
  cases r with
  | error e => exact Agrees.pure none
  | ok bs =>
      refine Agrees.ite (fun _ => Agrees.pure none) fun _ =>
        Agrees.ite (fun _ => Agrees.pure none) fun _ => ?_
      cases joinNormalized E.name.dropLast (linkTarget bs) with
      | none => exact Agrees.pure none
      | some resolved => exact Agrees.pure _

theorem chaseZipLinks_agrees (Z : ZipIndex) :
    ∀ (hops : ℕ) (E : ZipEntry), Agrees (chaseZipLinks Z hops E) (chaseZipLinks Z hops E) := by
  intro hops
  induction hops with
  | zero => exact fun E => Agrees.pure (some E)
  | succ hops ih =>
      intro E
      unfold chaseZipLinks
      refine Agrees.ite (fun _ => Agrees.bind (followZipLink_agrees Z E) fun r => ?_)
        fun _ => Agrees.pure (some E)
      cases r with
      | none => exact Agrees.pure none
      | some next => exact ih next

theorem resolveZipSymlink_agrees (Z : ZipIndex) (E : ZipEntry) :
    Agrees (resolveZipSymlink Z E) (resolveZipSymlink Z E) := by
  unfold resolveZipSymlink
  refine Agrees.bind (chaseZipLinks_agrees Z 8 E) fun r => ?_
  cases r with
  | none => exact Agrees.pure none
  | some cur => exact Agrees.pure _

end VidyaGodFS
