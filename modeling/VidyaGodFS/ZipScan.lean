/-
**Indexing an archive.**

The entries of an archive are listed by a library, which does not say where their bytes lie.  That
is read off the archive itself: a walk of its central directory gives, for every name, the offset of
the local header, and the local header gives the offset of the data.  The two are put together by
name, and of several records of one name both keep the last.

The library is not part of the program, so it is a parameter, `Libzip`.

Main definitions:

* `rd16`, `rd32`, `rd64` — numbers in a buffer;
* `findCentralDir`, `walkRecords`, `walkCentralDir`, `centralDirOffsets`, `firstCompressedEntry`,
  `localDataOffset` — the walk;
* `normalizeVPath`, `registerParents`;
* `Libzip`, `ZipStat`, `addStat`, `buildZipIndex` — the index.
-/

import Mathlib.Data.List.DropRight
import VidyaGodFS.ZipLayer

set_option relaxedAutoImplicit false
set_option autoImplicit false

namespace VidyaGodFS

open Posix

variable {ε σ κ α : Type}

/-! ### Numbers in a buffer -/

def rd16 (p : Bytes) (off : ℕ) : ℕ := leNat (slice p off 2)

def rd32 (p : Bytes) (off : ℕ) : ℕ := leNat (slice p off 4)

def rd64 (p : Bytes) (off : ℕ) : ℕ := leNat (slice p off 8)

/-- What stands in a 32-bit field when its value is in the ZIP64 record. -/
def SENTINEL32 : ℕ := 0xFFFFFFFF

def SENTINEL16 : ℕ := 0xFFFF

def UINT64_MAX : ℕ := 2 ^ 64 - 1

/-! ### The walk of the central directory -/

/-- The last place from `i` down where the end record begins. -/
def findEocd (buf : Bytes) : ℕ → Option ℕ
  | 0 => if rd32 buf 0 = 0x06054b50 then some 0 else none
  | i + 1 => if rd32 buf (i + 1) = 0x06054b50 then some (i + 1) else findEocd buf i

/-- The number of records of the central directory and its offset, from the end record or, where
that has sentinels, from the ZIP64 one. -/
def findCentralDir (src : ByteSource) : Prog ℕ ε (Option (ℕ × ℕ)) :=
  if src.size < 22 then pure none else do
    let tail := min src.size (22 + 65535)
    let some buf ← src.preadAll tail (src.size - tail) | pure none
    match findEocd buf (tail - 22) with
    | none => pure none
    | some eocd =>
        let totalEntries := rd16 buf (eocd + 10)
        let cdOffset := rd32 buf (eocd + 16)
        let eocdFileOff := src.size - tail + eocd
        if cdOffset = SENTINEL32 ∨ totalEntries = SENTINEL16 then
          if eocdFileOff < 20 then pure none else do
            let some loc ← src.preadAll 20 (eocdFileOff - 20) | pure none
            if rd32 loc 0 ≠ 0x07064b50 then pure none else do
              let some z64 ← src.preadAll 56 (rd64 loc 8) | pure none
              if rd32 z64 0 ≠ 0x06064b50 then pure none
              else pure (some (rd64 z64 32, rd64 z64 48))
        else pure (some (totalEntries, cdOffset))

/-- The offset of the local header, from the ZIP64 block of the extra field where there is one: the
fields that are sentinels stand in it in order.  Every turn takes a block at least. -/
def zip64Offset (extra : Bytes) (uncompSize32 compSize32 lhOffset : ℕ) : ℕ → ℕ → ℕ
  | 0, _ => lhOffset
  | fuel + 1, e =>
      if e + 4 ≤ extra.length then
        let id := rd16 extra e
        let sz := rd16 extra (e + 2)
        if extra.length < e + 4 + sz then lhOffset
        else if id = 0x0001 then
          let stop := e + 4 + sz
          let f := e + 4
          let f := if uncompSize32 = SENTINEL32 ∧ f + 8 ≤ stop then f + 8 else f
          let f := if compSize32 = SENTINEL32 ∧ f + 8 ≤ stop then f + 8 else f
          if f + 8 ≤ stop then rd64 extra f else lhOffset
        else zip64Offset extra uncompSize32 compSize32 lhOffset fuel (e + 4 + sz)
      else lhOffset

/-- The offset of the local header of the record `hdr` at `pos`. -/
def recordOffset (src : ByteSource) (hdr : Bytes) (pos : ℕ) : Prog ℕ ε ℕ :=
  let lhOffset := rd32 hdr 42
  if lhOffset = SENTINEL32 then do
    match ← src.preadAll (rd16 hdr 30) (add64 pos (46 + rd16 hdr 28)) with
    | none => pure lhOffset
    | some extra =>
        pure (zip64Offset extra (rd32 hdr 24) (rd32 hdr 20) lhOffset extra.length 0)
  else pure lhOffset

/-- The walk over `n` records from `pos` on.  The callback gets the raw name, the method and the
offset of the local header, and says whether to go on. -/
def walkRecords (src : ByteSource) (cb : σ → Bytes → ℕ → ℕ → σ × Bool) :
    ℕ → ℕ → σ → Prog ℕ ε (Bool × σ)
  | 0, _, s => pure (true, s)
  | n + 1, pos, s => do
      let some hdr ← src.preadAll 46 pos | pure (false, s)
      if rd32 hdr 0 ≠ 0x02014b50 then pure (false, s) else do
        let some name ← src.preadAll (rd16 hdr 28) (add64 pos 46) | pure (false, s)
        let lhOffset ← recordOffset src hdr pos
        let (s, go) := cb s name (rd16 hdr 10) lhOffset
        if go then
          walkRecords src cb n
            (add64 pos (46 + rd16 hdr 28 + rd16 hdr 30 + rd16 hdr 32)) s
        else pure (true, s)

def walkCentralDir (src : ByteSource) (cb : σ → Bytes → ℕ → ℕ → σ × Bool) (s : σ) :
    Prog ℕ ε (Bool × σ) := do
  match ← findCentralDir src with
  | none => pure (false, s)
  | some (totalEntries, cdOffset) => walkRecords src cb totalEntries cdOffset s

/-- The path that a raw name stands for: slashes at its ends are dropped. -/
def normalizeVPath (raw : Bytes) : Path :=
  let cs := ((linkTarget raw).dropWhile (· = '/')).rdropWhile (· = '/')
  if cs = [] then [] else (Tree.splitSlash cs).map String.ofList

/-- `m[k] = v`. -/
def setKey [DecidableEq κ] (m : List (κ × α)) (k : κ) (v : α) : List (κ × α) :=
  (k, v) :: m.filter (·.1 ≠ k)

/-- For every name, the offset of the local header of its last record. -/
def centralDirOffsets (src : ByteSource) : Prog ℕ ε (List (Path × ℕ)) := do
  let (_, out) ← walkCentralDir src
    (fun out raw _ lhOffset =>
      let vrel := normalizeVPath raw
      (if vrel = [] then out else setKey out vrel lhOffset, true)) []
  pure out

/-- The callback that stops at the first record that is not stored as it is, with its name. -/
def seekCompressed (result raw : Bytes) (method _lhOffset : ℕ) : Bytes × Bool :=
  if method = 0 then (result, true)
  else (if raw = [] then "(entry)".toList.map Char.toUInt8 else raw, false)

/-- The name of the first record that is not stored as it is; empty if all are. -/
def firstCompressedEntry (src : ByteSource) : Prog ℕ ε Bytes := do
  let (_, result) ← walkCentralDir src seekCompressed []
  pure result

/-- Where the data of the entry lies whose local header is at `lhOffset`. -/
def localDataOffset (src : ByteSource) (lhOffset : ℕ) : Prog ℕ ε ℕ := do
  let some lh ← src.preadAll 30 lhOffset | pure UINT64_MAX
  if rd32 lh 0 ≠ 0x04034b50 then pure UINT64_MAX
  else pure (add64 lhOffset (30 + rd16 lh 26 + rd16 lh 28))

/-! ### The index -/

/-- What the library says of an entry, each item where it has one. -/
structure ZipStat where
  name : Option Bytes
  size : Option ℕ
  compMethod : Option ℕ
  encryptionMethod : Option ℕ
  /-- The system the entry was made on, and its attributes there. -/
  attributes : Option (ℕ × ℕ)

/-- The library: the entries of an archive, if it can be opened; an entry may have no answer. -/
def Libzip (ε : Type) : Type := ByteSource → Prog ℕ ε (Option (List (Option ZipStat)))

namespace ZipStat

variable (st : ZipStat)

/-- A link, by the mode in its attributes. -/
def isSymlink : Bool :=
  match st.attributes with
  | none => false
  | some (opsys, extAttr) => opsys = 3 && (extAttr / 2 ^ 16) &&& 0o170000 = 0o120000

/-- Neither compressed nor encrypted. -/
def isStored : Bool :=
  st.compMethod = some 0 && (st.encryptionMethod = none || st.encryptionMethod = some 0)

end ZipStat

/-- The name `child` under the directory `parent`. -/
def addChild (kids : List (Path × List Name)) (parent : Path) (child : Name) :
    List (Path × List Name) :=
  setKey kids parent (((kids.lookup parent).getD []).insert child)

/-- Every directory on the way to `cur`, with the name under it.  Every turn goes up. -/
def registerParents : ℕ → Path → List (Path × List Name) → List (Path × List Name)
  | 0, _, kids => kids
  | fuel + 1, cur, kids =>
      match cur.getLast? with
      | none => kids
      | some child =>
          if child = "" then kids
          else
            let kids := addChild kids cur.dropLast child
            if cur.dropLast = [] then kids else registerParents fuel cur.dropLast kids

/-- `Z->byName[vrel] = e`, with the directories on the way. -/
def ZipIndex.add (Z : ZipIndex) (e : ZipEntry) : ZipIndex :=
  { Z with
    byName := setKey Z.byName e.name e
    dirChildren :=
      let kids := if e.isDir ∧ Z.children e.name = none then setKey Z.dirChildren e.name []
        else Z.dirChildren
      registerParents e.name.length e.name kids }

/-- The offset of the data of a stored entry, if it is found. -/
def storedOffset (src : ByteSource) (lhOffsets : List (Path × ℕ)) (vrel : Path) :
    Prog ℕ ε (Option ℕ) :=
  match lhOffsets.lookup vrel with
  | none => pure none
  | some lhOffset => do
      let doff ← localDataOffset src lhOffset
      pure (if doff = UINT64_MAX then none else some doff)

/-- One entry of the archive. -/
def addStat (src : ByteSource) (lhOffsets : List (Path × ℕ)) (Z : ZipIndex) (raw : Bytes)
    (st : ZipStat) : Prog ℕ ε ZipIndex :=
  let vrel := normalizeVPath raw
  if vrel = [] then pure Z
  else if raw.getLast? = some 47 then pure (Z.add ⟨vrel, 0, true, false, false, 0⟩)
  else do
    let dataOffset ← if st.isStored then storedOffset src lhOffsets vrel else pure none
    pure (Z.add ⟨vrel, st.size.getD 0, false, st.isSymlink, dataOffset.isSome,
      dataOffset.getD 0⟩)

/-- The loop over the entries of the archive. -/
def addStats (src : ByteSource) (lhOffsets : List (Path × ℕ)) :
    List (Option ZipStat) → ZipIndex → Prog ℕ ε ZipIndex
  | [], Z => pure Z
  | st :: stats, Z => do
      let Z ← match st.bind fun st => st.name.map fun raw => (raw, st) with
        | none => pure Z
        | some (raw, st) => addStat src lhOffsets Z raw st
      addStats src lhOffsets stats Z

/-- The index of the archive `src`; none where the library cannot open it. -/
def buildZipIndex (lib : Libzip ε) (src : ByteSource) : Prog ℕ ε (Option ZipIndex) := do
  let some stats ← lib src | pure none
  let lhOffsets ← centralDirOffsets src
  let Z ← addStats src lhOffsets stats ⟨src, [], []⟩
  pure (some Z)

end VidyaGodFS
