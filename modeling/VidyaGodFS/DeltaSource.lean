/-
**The reader of a delta: a flat map over the ultimate base.**

A delta source reconstructs its target from a sorted map of segments.  A COPY segment reads the
ultimate base, which is never a delta; an ADD segment reads the literal blocks of one delta file.
`create` applies a delta file to a base: over a base that is itself a delta source it rewrites every
COPY range through the map of that base, so the map stays flat however long the chain.

Literal blocks are decompressed on demand and kept in a cache of 64 blocks, oldest out first, whose
key is made of the number of the delta file and the number of the block.  Reading therefore acts on
a state, and the loop that copies literals ends only if it makes progress; a run of it that outlasts
the bytes it was to copy repeats forever, which `ReadErr.hang` reports.

Main definitions:

* `FlatSeg`, `DeltaByteSource`, `Source` — the map, the reader, and a base that is either a plain
  source or a reader;
* `segAt` — the segment that covers an offset;
* `create` — applying a delta file to a base;
* `getAddBlock`, `readAdd`, `DeltaByteSource.pread` — reading.
-/

import VidyaGodFS.Bisect
import VidyaGodFS.DeltaFormat

set_option relaxedAutoImplicit false
set_option autoImplicit false

namespace VidyaGodFS

/-- The FNV-1a hash of a base, which a delta names it by. -/
def fnv1a64 (bs : Bytes) : UInt64 :=
  bs.foldl (fun h b => (h ^^^ b.toUInt64) * 1099511628211) 1469598103934665603

/-- A segment of the flat map.  COPY: `srcOff` is an offset into the ultimate base; ADD: into the
literals of the file number `addSrc`. -/
structure FlatSeg where
  targetOff : ℕ
  len : ℕ
  srcOff : ℕ
  addSrc : ℕ
  kind : UInt8
  deriving DecidableEq, Repr

/-- A source that reconstructs its target on the fly.  Its base is never a delta. -/
structure DeltaByteSource where
  baseSrc : ByteSource
  addSources : List AddSource
  segs : List FlatSeg
  targetSize : ℕ

/-- What a delta is applied to: a plain source, or the reader of another delta. -/
inductive Source
  | plain (src : ByteSource)
  | delta (d : DeltaByteSource)

/-- The size a base declares. -/
def Source.size : Source → ℕ
  | .plain src => src.size
  | .delta d => d.targetSize

/-- The files of literals of a base. -/
def Source.adds : Source → List AddSource
  | .plain _ => []
  | .delta bd => bd.addSources

/-! ### The map -/

/-- The largest segment that starts at or before `o`. -/
def segAt (segs : List FlatSeg) (o : ℕ) : ℕ :=
  upperBound (fun s => decide (o < s.targetOff)) segs - 1

/-- A COPY of `rem` bytes at `m`, rewritten through the segments of the base from the one that
covers `m` on. -/
def composeCopy : List FlatSeg → ℕ → ℕ → Except String (List FlatSeg)
  | [], _, rem => if 0 < rem then .error "vgdelta: compose out of range" else .ok []
  | bs :: B, m, rem =>
      if rem = 0 then .ok [] else
        let bsEnd := add64 bs.targetOff bs.len
        if m < bs.targetOff ∨ bsEnd ≤ m then .error "vgdelta: compose gap" else
          let take := sub64 (min bsEnd (add64 m rem)) m
          match composeCopy B (add64 m take) (sub64 rem take) with
          | .error e => .error e
          | .ok rest =>
              .ok (⟨0, take, add64 bs.srcOff (sub64 m bs.targetOff), bs.addSrc, bs.kind⟩ :: rest)

/-- The segments of a delta, rewritten through the map `B` of its base; its own literals are the
file number `thisAdd`. -/
def composeSegs (B : List FlatSeg) (thisAdd : ℕ) : List RawSeg → Except String (List FlatSeg)
  | [] => .ok []
  | s :: segs =>
      match (if s.kind = KIND_ADD then .ok [⟨0, s.len, s.srcOff, thisAdd, KIND_ADD⟩]
        else composeCopy (B.drop (segAt B s.srcOff)) s.srcOff s.len) with
      | .error e => .error e
      | .ok here =>
          match composeSegs B thisAdd segs with
          | .error e => .error e
          | .ok rest => .ok (here ++ rest)

/-- The prefix sums: each segment starts where the one before ends.  Also the total. -/
def placeSegs : ℕ → List FlatSeg → List FlatSeg × ℕ
  | t, [] => ([], t)
  | t, s :: segs =>
      ({ s with targetOff := t } :: (placeSegs (add64 t s.len) segs).1,
        (placeSegs (add64 t s.len) segs).2)

/-- The end of `create`: the prefix sums, which must come out at the size of the target. -/
def finish (base : ByteSource) (adds : List AddSource) (segs : List FlatSeg) (targetSize : ℕ) :
    Prog Io DeltaErr DeltaByteSource :=
  if (placeSegs 0 segs).2 ≠ targetSize then refuse "vgdelta: flat segments do not cover target"
  else pure ⟨base, adds, (placeSegs 0 segs).1, targetSize⟩

/-- The authoring check of a plain base against the hash in the header. -/
def checkBase (base : ByteSource) (P : Parsed) : Prog Io DeltaErr Unit := do
  newVec P.baseSize
  let some b ← fetch base P.baseSize 0 | refuse "vgdelta: base hash mismatch"
  if (fnv1a64 b).toNat ≠ P.baseHash then refuse "vgdelta: base hash mismatch" else pure ()

/-- Parses the delta and applies it over the base; `none` is a null base. -/
def create (z : Zstd) (delta : ByteSource) (base : Option Source) (verifyBase : Bool) :
    Prog Io DeltaErr DeltaByteSource := do
  let P ← parseDelta z delta
  match base with
  | none => refuse "vgdelta: null base"
  | some base =>
      if base.size ≠ P.baseSize then refuse "vgdelta: base size mismatch" else
        match base with
        | .delta bd =>
            let thisAdd := bd.addSources.length % 2 ^ 32
            match composeSegs bd.segs thisAdd P.segs with
            | .error msg => refuse msg
            | .ok segs => finish bd.baseSrc (bd.addSources ++ [P.add]) segs P.targetSize
        | .plain src => do
            if verifyBase then checkBase src P else pure ()
            finish src [P.add] (P.segs.map fun s => ⟨0, s.len, s.srcOff, 0, s.kind⟩) P.targetSize

/-! ### Reading -/

/-- Why a read yields no bytes: an error number, or a loop that never ends. -/
inductive ReadErr
  | errno (e : Errno)
  | hang
  deriving DecidableEq, Repr

/-- The state a reader acts on: the clock, and the cache of decompressed blocks with the order its
keys came in. -/
structure ReadState where
  clock : ℕ
  cache : List (ℕ × Bytes)
  fifo : List ℕ

/-- How many blocks the cache holds. -/
def CacheCap : ℕ := 64

/-- The cache key of a block: `(addSrc << 40) ^ blk`. -/
def blockKey (addSrc blk : ℕ) : ℕ := (addSrc <<< 40) % 2 ^ 64 ^^^ blk

/-- Dropping a key from the cache. -/
def eraseKey (key : ℕ) (cache : List (ℕ × Bytes)) : List (ℕ × Bytes) :=
  cache.filter fun e => e.1 ≠ key

/-- Entering a block under its key, unless the key is there; past the capacity the oldest key
goes. -/
def ReadState.remember (s : ReadState) (key : ℕ) (raw : Bytes) : ReadState :=
  if (s.cache.lookup key).isSome then s else
    let cache := (key, raw) :: s.cache
    match s.fifo ++ [key] with
    | [] => s
    | old :: fifo =>
        if CacheCap < fifo.length + 1 then { s with cache := eraseKey old cache, fifo := fifo }
        else { s with cache := cache, fifo := old :: fifo }

/-- An exact read of a delta file, on the clock. -/
def readFile (src : ByteSource) (n off : ℕ) : Prog ReadState ReadErr (Option Bytes) :=
  Prog.zoom ReadState.clock (fun t s => { s with clock := t }) (src.preadAll n off)

/-- The decompressed block number `blk`, from the cache or from the file; `none` when the file does
not yield it. -/
def getAddBlock (z : Zstd) (addSrc : ℕ) (A : AddSource) (blk : ℕ) :
    Prog ReadState ReadErr (Option Bytes) := do
  match ← Prog.gets fun s => s.cache.lookup (blockKey addSrc blk) with
  | some raw => pure (some raw)
  | none => do
      let b := A.blocks.getD blk ⟨0, 0, 0⟩
      match ← (if b.compLen = 0 then pure (some [])
          else readFile A.file b.compLen (add64 A.regionOff b.compOff)) with
      | none => pure none
      | some comp => do
          let raw := zDecompress z comp b.uncompLen
          if raw.length ≠ b.uncompLen then pure none else do
            Prog.modify fun s => s.remember (blockKey addSrc blk) raw
            pure (some raw)

/-- The loop of `readAdd`, with `n` bytes to go at `addOff` and `out` copied.  A turn that makes
progress copies a byte, so a run that needs more turns than bytes does not end. -/
def readAddLoop (z : Zstd) (addSrc : ℕ) (A : AddSource) :
    ℕ → ℕ → ℕ → Bytes → Prog ReadState ReadErr Bytes
  | 0, n, _, out => if n = 0 then pure out else Prog.fail .hang
  | fuel + 1, n, addOff, out =>
      if n = 0 then pure out else
        let b := addOff / A.blockSize
        let intra := addOff % A.blockSize
        if A.blocks.length ≤ b then Prog.fail (.errno .eio) else do
          match ← getAddBlock z addSrc A b with
          | none => Prog.fail (.errno .eio)
          | some raw =>
              if raw.length < intra then Prog.fail (.errno .eio) else
                let take := min n (raw.length - intra)
                readAddLoop z addSrc A fuel (n - take) (add64 addOff take)
                  (out ++ slice raw intra take)

/-- `n` bytes of the literals of one file, from `addOff` on. -/
def readAdd (z : Zstd) (addSrc : ℕ) (A : AddSource) (n addOff : ℕ) :
    Prog ReadState ReadErr Bytes :=
  readAddLoop z addSrc A n n addOff []

/-- One call of the base, on the clock. -/
def readBase (src : ByteSource) (n off : ℕ) : Prog ReadState ReadErr (Except Errno Bytes) :=
  Prog.zoom ReadState.clock (fun t s => { s with clock := t }) (src.read n off)

/-- The loop that fills a COPY range: every turn that goes on has read a byte. -/
def readCopyLoop (src : ByteSource) : ℕ → ℕ → ℕ → Bytes → Prog ReadState ReadErr Bytes
  | 0, _, _, out => pure out
  | fuel + 1, n, off, out =>
      if n = 0 then pure out else do
        match ← readBase src n off with
        | .error e => Prog.fail (.errno e)
        | .ok [] => Prog.fail (.errno .eio)
        | .ok (b :: bs) =>
            readCopyLoop src fuel (n - (b :: bs).length) (add64 off (b :: bs).length)
              (out ++ b :: bs)

/-- `n` bytes of the base, from `off` on. -/
def readCopy (src : ByteSource) (n off : ℕ) : Prog ReadState ReadErr Bytes :=
  readCopyLoop src n n off []

namespace DeltaByteSource

/-- `chunk` bytes of a segment, from `skip` bytes after its start on.  The file an ADD segment names
is always one of the list: `create` writes no other number. -/
def readSeg (z : Zstd) (D : DeltaByteSource) (s : FlatSeg) (skip chunk : ℕ) :
    Prog ReadState ReadErr Bytes :=
  if s.kind = KIND_COPY then readCopy D.baseSrc chunk (add64 s.srcOff skip)
  else
    match D.addSources[s.addSrc]? with
    | none => Prog.fail (.errno .eio)
    | some A => readAdd z s.addSrc A chunk (add64 s.srcOff skip)

/-- The loop of `pread` over the segments from the one that covers `pos` on, with `done` of the
`want` bytes copied. -/
def preadSegs (z : Zstd) (D : DeltaByteSource) (off want : ℕ) :
    List FlatSeg → ℕ → ℕ → Bytes → Prog ReadState ReadErr Bytes
  | [], _, _, out => pure out
  | s :: rest, done, pos, out =>
      if want ≤ done then pure out else
        let segEnd := add64 s.targetOff s.len
        if pos < s.targetOff ∨ segEnd ≤ pos then Prog.fail (.errno .eio) else do
          let chunk := sub64 (min segEnd (add64 off want)) pos
          let bytes ← D.readSeg z s (sub64 pos s.targetOff) chunk
          preadSegs z D off want rest (add64 done chunk) (add64 pos chunk) (out ++ bytes)

/-- Up to `n` bytes of the target at `off`. -/
def pread (z : Zstd) (D : DeltaByteSource) (n off : ℕ) : Prog ReadState ReadErr Bytes :=
  if D.targetSize ≤ off ∨ D.segs = [] then pure [] else
    preadSegs z D off (min n (D.targetSize - off)) (D.segs.drop (segAt D.segs off)) 0 off []

end DeltaByteSource

end VidyaGodFS
