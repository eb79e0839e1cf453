/-
**The `.vgdelta` file: its layout and its parser.**

A delta file is a header of 44 bytes, a compressed table of segments, a compressed table of literal
blocks, and the literal blocks themselves, each a frame of its own.  Each table is preceded by its
compressed and its raw length.  `parseDelta` reads the header and the two tables; the literal blocks
stay in the file.

The compressor is not part of the program, so it is a parameter, `Zstd`.  The parser builds vectors
whose length the file declares; `newVec` records each length asked for and throws, as
`std::vector` does, on one beyond `PTRDIFF_MAX`.

Main definitions:

* `Zstd`, `Zstd.RoundTrips`, `zDecompress` — the compressor, its law, and decompression to an exact
  length;
* `RawSeg`, `BlockRec`, `AddSource`, `Parsed` — what a delta file says;
* `parseDelta` — the parser;
* `DeltaFile`, `DeltaFile.encode` — such a file, and its bytes.

Main results:

* `parseDelta_encode` — **the parser reads back what was encoded**, from any source that
  delivers the file.
-/

import VidyaGodFS.ByteSource

set_option relaxedAutoImplicit false
set_option autoImplicit false

namespace VidyaGodFS

/-! ### The compressor -/

/-- The compressor: `compress` takes the bytes and the level, `decompress` a frame and the capacity
of the output buffer. -/
structure Zstd where
  compress : Bytes → ℕ → Bytes
  decompress : Bytes → ℕ → Option Bytes

/-- Decompressing a compressed buffer, into an output of its length, gives it back. -/
def Zstd.RoundTrips (z : Zstd) : Prop :=
  ∀ (x : Bytes) (level : ℕ), z.decompress (z.compress x level) x.length = some x

/-- Decompresses exactly `ulen` bytes; empty on error. -/
def zDecompress (z : Zstd) (frame : Bytes) (ulen : ℕ) : Bytes :=
  match z.decompress frame ulen with
  | none => []
  | some out => if out.length ≠ ulen then [] else out

theorem zDecompress_compress {z : Zstd} (hz : z.RoundTrips) (x : Bytes) (level : ℕ) :
    zDecompress z (z.compress x level) x.length = x := by
  rw [zDecompress, hz x level]
  exact if_neg (by simp)

/-- The level of every frame a delta holds. -/
def ZLEVEL : ℕ := 19

/-! ### What a delta file says -/

/-- The four magic bytes `VGD1`. -/
def MAGIC : Bytes := [0x56, 0x47, 0x44, 0x31]

def VERSION : ℕ := 1

/-- The block size a generation takes when it is given none: 256 KiB. -/
def DEFAULT_BLOCK : ℕ := 262144

def KIND_COPY : UInt8 := 0

def KIND_ADD : UInt8 := 1

def HEADER_SIZE : ℕ := 44

/-- A segment of one delta file, over its immediate base: `len` bytes of the base from `srcOff` on,
or of the literals of this file. -/
structure RawSeg where
  kind : UInt8
  len : ℕ
  srcOff : ℕ
  deriving DecidableEq, Repr

/-- A literal block: its frame lies at `compOff` after the start of the literal region. -/
structure BlockRec where
  compOff : ℕ
  compLen : ℕ
  uncompLen : ℕ
  deriving DecidableEq, Repr

/-- The literal blocks of one delta file. -/
structure AddSource where
  file : ByteSource
  regionOff : ℕ
  blockSize : ℕ
  blocks : List BlockRec

/-- The header, the segments and the literal blocks of one delta file. -/
structure Parsed where
  targetSize : ℕ
  baseSize : ℕ
  baseHash : ℕ
  segs : List RawSeg
  add : AddSource

/-! ### The records of the tables -/

/-- A segment record: kind, length, source offset. -/
def RawSeg.encode (s : RawSeg) : Bytes := s.kind :: (leBytes 8 s.len ++ leBytes 8 s.srcOff)

def RawSeg.decode (r : Bytes) : RawSeg :=
  ⟨r.headD 0, leNat (slice r 1 8), leNat (slice r 9 8)⟩

/-- A block record: offset and length of the frame, length of the literals. -/
def BlockRec.encode (b : BlockRec) : Bytes :=
  leBytes 8 b.compOff ++ (leBytes 4 b.compLen ++ leBytes 4 b.uncompLen)

def BlockRec.decode (r : Bytes) : BlockRec :=
  ⟨leNat (slice r 0 8), leNat (slice r 8 4), leNat (slice r 12 4)⟩

/-- The lengths of a segment fit in their fields. -/
def RawSeg.Fits (s : RawSeg) : Prop := s.len < 2 ^ 64 ∧ s.srcOff < 2 ^ 64

/-- The lengths of a block fit in their fields. -/
def BlockRec.Fits (b : BlockRec) : Prop :=
  b.compOff < 2 ^ 64 ∧ b.compLen < 2 ^ 32 ∧ b.uncompLen < 2 ^ 32

@[simp] theorem RawSeg.length_encode (s : RawSeg) : s.encode.length = 17 := by
  simp [RawSeg.encode]

@[simp] theorem BlockRec.length_encode (b : BlockRec) : b.encode.length = 16 := by
  simp [BlockRec.encode]

theorem RawSeg.decode_encode {s : RawSeg} (h : s.Fits) : RawSeg.decode s.encode = s := by
  obtain ⟨hl, ho⟩ := h
  have h8 : (256 : ℕ) ^ 8 = 2 ^ 64 := by norm_num
  have hlen : slice s.encode 1 8 = leBytes 8 s.len :=
    slice_of_append [s.kind] _ (leBytes 8 s.srcOff) rfl rfl (by simp)
  have hoff : slice s.encode 9 8 = leBytes 8 s.srcOff :=
    slice_of_append (s.kind :: leBytes 8 s.len) _ [] (by simp [RawSeg.encode])
      (by simp) (by simp)
  rw [RawSeg.decode, hlen, hoff, leNat_leBytes (h8 ▸ hl), leNat_leBytes (h8 ▸ ho)]
  rfl

theorem BlockRec.decode_encode {b : BlockRec} (h : b.Fits) : BlockRec.decode b.encode = b := by
  obtain ⟨ho, hc, hu⟩ := h
  have h8 : (256 : ℕ) ^ 8 = 2 ^ 64 := by norm_num
  have h4 : (256 : ℕ) ^ 4 = 2 ^ 32 := by norm_num
  have hoff : slice b.encode 0 8 = leBytes 8 b.compOff :=
    slice_of_append [] _ (leBytes 4 b.compLen ++ leBytes 4 b.uncompLen) rfl rfl (by simp)
  have hclen : slice b.encode 8 4 = leBytes 4 b.compLen :=
    slice_of_append (leBytes 8 b.compOff) _ (leBytes 4 b.uncompLen) rfl (by simp) (by simp)
  have hulen : slice b.encode 12 4 = leBytes 4 b.uncompLen :=
    slice_of_append (leBytes 8 b.compOff ++ leBytes 4 b.compLen) _ []
      (by simp [BlockRec.encode]) (by simp) (by simp)
  rw [BlockRec.decode, hoff, hclen, hulen, leNat_leBytes (h8 ▸ ho), leNat_leBytes (h4 ▸ hc),
    leNat_leBytes (h4 ▸ hu)]

/-! ### The parser -/

/-- Why a delta is not composed: it is refused with a message, or an exception leaves the call. -/
inductive DeltaErr
  | refused (msg : String)
  | threw
  deriving DecidableEq, Repr

/-- The part of the process a parse acts on: the clock of its reads, and the lengths of the vectors
it has asked for, last first. -/
structure Io where
  clock : ℕ
  asked : List ℕ

/-- An exact read, on the clock. -/
def fetch (src : ByteSource) (n off : ℕ) : Prog Io DeltaErr (Option Bytes) :=
  Prog.zoom Io.clock (fun t io => { io with clock := t }) (src.preadAll n off)

/-- `err = msg; return false`. -/
def refuse {α : Type} (msg : String) : Prog Io DeltaErr α := Prog.fail (.refused msg)

/-- `std::vector<uint8_t> v(n)`. -/
def newVec (n : ℕ) : Prog Io DeltaErr Unit := fun io =>
  (if 2 ^ 63 ≤ n then .error .threw else .ok (), { io with asked := n :: io.asked })

/-- The messages of one table. -/
structure TableMsgs where
  shortLens : String
  mismatch : String
  short : String
  corrupt : String

def segMsgs : TableMsgs where
  shortLens := "vgdelta: short seg lens"
  mismatch := "vgdelta: seg table size mismatch"
  short := "vgdelta: short seg table"
  corrupt := "vgdelta: seg table corrupt"

def blkMsgs : TableMsgs where
  shortLens := "vgdelta: short blk lens"
  mismatch := "vgdelta: blk index size mismatch"
  short := "vgdelta: short blk index"
  corrupt := "vgdelta: blk index corrupt"

/-- The table at `off`, of `count` records of `width` bytes: its raw bytes, and the length of its
frame. -/
def readTable (z : Zstd) (delta : ByteSource) (msgs : TableMsgs) (off count width : ℕ) :
    Prog Io DeltaErr (Bytes × ℕ) := do
  let some lens ← fetch delta 16 off | refuse msgs.shortLens
  let clen := leNat (slice lens 0 8)
  let ulen := leNat (slice lens 8 8)
  if ulen ≠ count * width then refuse msgs.mismatch else do
    newVec clen
    let some comp ← (if clen = 0 then pure (some []) else fetch delta clen (add64 off 16))
      | refuse msgs.short
    newVec ulen
    let raw := zDecompress z comp ulen
    if raw.length ≠ ulen then refuse msgs.corrupt else pure (raw, clen)

/-- The sum of the lengths of the segments, on `uint64_t`. -/
def sumLen (segs : List RawSeg) : ℕ := segs.foldl (fun t s => add64 t s.len) 0

/-- Parses one delta file: the header, the segment table and the block index.  The literal blocks
stay in the file. -/
def parseDelta (z : Zstd) (delta : ByteSource) : Prog Io DeltaErr Parsed := do
  let some hdr ← fetch delta HEADER_SIZE 0 | refuse "vgdelta: short header"
  if slice hdr 0 4 ≠ MAGIC then refuse "vgdelta: bad magic" else
  if leNat (slice hdr 4 4) ≠ VERSION then refuse "vgdelta: unsupported version" else do
    let blockSize := leNat (slice hdr 8 4)
    let targetSize := leNat (slice hdr 12 8)
    let baseSize := leNat (slice hdr 20 8)
    let baseHash := leNat (slice hdr 28 8)
    let numSeg := leNat (slice hdr 36 4)
    let numBlk := leNat (slice hdr 40 4)
    if blockSize = 0 then refuse "vgdelta: zero block size" else do
      let (rawSegs, clen) ← readTable z delta segMsgs HEADER_SIZE numSeg 17
      let segs := cutRecords 17 RawSeg.decode numSeg rawSegs
      if sumLen segs ≠ targetSize then refuse "vgdelta: segments do not cover target" else do
        let off := add64 HEADER_SIZE (add64 16 clen)
        let (rawBlks, clen') ← readTable z delta blkMsgs off numBlk 16
        let blocks := cutRecords 16 BlockRec.decode numBlk rawBlks
        pure {
          targetSize := targetSize
          baseSize := baseSize
          baseHash := baseHash
          segs := segs
          add := {
            file := delta
            regionOff := add64 off (add64 16 clen')
            blockSize := blockSize
            blocks := blocks } }

/-! ### The layout -/

/-- The header of a delta file. -/
def encodeHeader (blockSize targetSize baseSize baseHash numSeg numBlk : ℕ) : Bytes :=
  MAGIC ++ (leBytes 4 VERSION ++ (leBytes 4 blockSize ++ (leBytes 8 targetSize ++
    (leBytes 8 baseSize ++ (leBytes 8 baseHash ++ (leBytes 4 numSeg ++ leBytes 4 numBlk))))))

/-- A table as it lies in the file: the lengths of its frame and of its raw bytes, then the
frame. -/
def encodeTable (frame : Bytes) (rawLen : ℕ) : Bytes :=
  leBytes 8 frame.length ++ (leBytes 8 rawLen ++ frame)

/-- A delta file, from its header, its two tables and its literal region. -/
def encodeDelta (header segTable blkTable region : Bytes) : Bytes :=
  header ++ (segTable ++ (blkTable ++ region))

@[simp] theorem length_encodeHeader (bs ts bsz bh ns nb : ℕ) :
    (encodeHeader bs ts bsz bh ns nb).length = 44 := by
  simp [encodeHeader, MAGIC]

@[simp] theorem length_encodeTable (frame : Bytes) (rawLen : ℕ) :
    (encodeTable frame rawLen).length = 16 + frame.length := by
  simp [encodeTable]
  omega

/-- The fields of a header, read back one by one. -/
theorem slice_encodeHeader (bs ts bsz bh ns nb : ℕ) :
    slice (encodeHeader bs ts bsz bh ns nb) 0 4 = MAGIC ∧
      slice (encodeHeader bs ts bsz bh ns nb) 4 4 = leBytes 4 VERSION ∧
      slice (encodeHeader bs ts bsz bh ns nb) 8 4 = leBytes 4 bs ∧
      slice (encodeHeader bs ts bsz bh ns nb) 12 8 = leBytes 8 ts ∧
      slice (encodeHeader bs ts bsz bh ns nb) 20 8 = leBytes 8 bsz ∧
      slice (encodeHeader bs ts bsz bh ns nb) 28 8 = leBytes 8 bh ∧
      slice (encodeHeader bs ts bsz bh ns nb) 36 4 = leBytes 4 ns ∧
      slice (encodeHeader bs ts bsz bh ns nb) 40 4 = leBytes 4 nb := by
  have hM : MAGIC.length = 4 := rfl
  refine ⟨?_, ?_, ?_, ?_, ?_, ?_, ?_, ?_⟩
  · exact slice_of_append [] _
      (leBytes 4 VERSION ++ leBytes 4 bs ++ leBytes 8 ts ++ leBytes 8 bsz ++ leBytes 8 bh ++
        leBytes 4 ns ++ leBytes 4 nb)
      (by simp [encodeHeader]) rfl hM
  · exact slice_of_append MAGIC _
      (leBytes 4 bs ++ leBytes 8 ts ++ leBytes 8 bsz ++ leBytes 8 bh ++ leBytes 4 ns ++ leBytes 4 nb)
      (by simp [encodeHeader]) (by simp [hM]) (by simp)
  · exact slice_of_append (MAGIC ++ leBytes 4 VERSION) _
      (leBytes 8 ts ++ leBytes 8 bsz ++ leBytes 8 bh ++ leBytes 4 ns ++ leBytes 4 nb)
      (by simp [encodeHeader]) (by simp [hM]) (by simp)
  · exact slice_of_append (MAGIC ++ leBytes 4 VERSION ++ leBytes 4 bs) _
      (leBytes 8 bsz ++ leBytes 8 bh ++ leBytes 4 ns ++ leBytes 4 nb)
      (by simp [encodeHeader]) (by simp [hM]) (by simp)
  · exact slice_of_append (MAGIC ++ leBytes 4 VERSION ++ leBytes 4 bs ++ leBytes 8 ts) _
      (leBytes 8 bh ++ leBytes 4 ns ++ leBytes 4 nb)
      (by simp [encodeHeader]) (by simp [hM]) (by simp)
  · exact slice_of_append
      (MAGIC ++ leBytes 4 VERSION ++ leBytes 4 bs ++ leBytes 8 ts ++ leBytes 8 bsz) _
      (leBytes 4 ns ++ leBytes 4 nb)
      (by simp [encodeHeader]) (by simp [hM]) (by simp)
  · exact slice_of_append
      (MAGIC ++ leBytes 4 VERSION ++ leBytes 4 bs ++ leBytes 8 ts ++ leBytes 8 bsz ++
        leBytes 8 bh) _
      (leBytes 4 nb)
      (by simp [encodeHeader]) (by simp [hM]) (by simp)
  · exact slice_of_append
      (MAGIC ++ leBytes 4 VERSION ++ leBytes 4 bs ++ leBytes 8 ts ++ leBytes 8 bsz ++
        leBytes 8 bh ++ leBytes 4 ns) _
      []
      (by simp [encodeHeader]) (by simp [hM]) (by simp)

/-! ### Reading back what was encoded -/

/-- An exact read inside a source that delivers, on the clock. -/
theorem fetch_delivers {src : ByteSource} {content : Bytes} (h : src.Delivers content)
    (n off : ℕ) (ho : off + n ≤ content.length) (io : Io) :
    ∃ t', fetch src n off io = (.ok (some (slice content off n)), { io with clock := t' }) := by
  obtain ⟨t', ht'⟩ := ByteSource.preadAll_delivers (ε := DeltaErr) h ho io.clock
  exact ⟨t', by rw [fetch, Prog.zoom_apply, ht']⟩

/-- A vector short enough for the address space is built. -/
theorem newVec_of_lt {n : ℕ} (h : n < 2 ^ 63) (io : Io) :
    newVec n io = (.ok (), { io with asked := n :: io.asked }) := by
  rw [newVec, if_neg (by omega)]

/-- **A table is read back**, wherever in the file it lies. -/
theorem readTable_encodeTable {z : Zstd} {src : ByteSource} {content frame raw : Bytes}
    {off : ℕ} (count width : ℕ) (hsrc : src.Delivers content)
    (htab : slice content off (16 + frame.length) = encodeTable frame raw.length)
    (hend : off + (16 + frame.length) ≤ content.length) (hmax : content.length < 2 ^ 63)
    (hraw : raw.length = count * width) (hrawMax : raw.length < 2 ^ 63)
    (hz : zDecompress z frame raw.length = raw) (msgs : TableMsgs) (io : Io) :
    ∃ io', readTable z src msgs off count width io = (.ok (raw, frame.length), io') := by
  have h8 : (256 : ℕ) ^ 8 = 2 ^ 64 := by norm_num
  -- the two lengths and the frame are slices of the table
  have hlens : slice content off 16 = leBytes 8 frame.length ++ leBytes 8 raw.length := by
    have hin : slice (slice content off (16 + frame.length)) 0 16 = slice content (off + 0) 16 :=
      slice_slice (by omega)
    rw [← Nat.add_zero off, ← hin, htab]
    exact slice_of_append [] _ frame (by simp [encodeTable]) rfl (by simp)
  have hframe : slice content (off + 16) frame.length = frame := by
    have hin : slice (slice content off (16 + frame.length)) 16 frame.length
        = slice content (off + 16) frame.length := slice_slice (by omega)
    rw [← hin, htab]
    exact slice_of_append (leBytes 8 frame.length ++ leBytes 8 raw.length) _ []
      (by simp [encodeTable]) (by simp) rfl
  have hclen : leNat (slice (slice content off 16) 0 8) = frame.length := by
    have hfirst : slice (slice content off 16) 0 8 = leBytes 8 frame.length :=
      slice_of_append [] _ (leBytes 8 raw.length) hlens rfl (by simp)
    rw [hfirst, leNat_leBytes (by omega)]
  have hulen : leNat (slice (slice content off 16) 8 8) = raw.length := by
    have hsecond : slice (slice content off 16) 8 8 = leBytes 8 raw.length :=
      slice_of_append (leBytes 8 frame.length) _ [] (by rw [hlens, List.append_nil]) (by simp)
        (by simp)
    rw [hsecond, leNat_leBytes (by omega)]
  obtain ⟨t₁, h₁⟩ := fetch_delivers hsrc 16 off (by omega) io
  have hcomp : ∀ io : Io, ∃ io', (if frame.length = 0 then pure (some [])
      else fetch src frame.length (add64 off 16) : Prog Io DeltaErr (Option Bytes)) io
        = (.ok (some frame), io') := by
    intro io
    by_cases hz0 : frame.length = 0
    · rw [if_pos hz0, List.length_eq_zero_iff.1 hz0]
      exact ⟨io, rfl⟩
    · obtain ⟨t', ht'⟩ := fetch_delivers hsrc frame.length (off + 16) (by omega) io
      rw [if_neg hz0, add64_eq (by omega), ht', hframe]
      exact ⟨_, rfl⟩
  obtain ⟨io₂, h₂⟩ := hcomp { clock := t₁, asked := frame.length :: io.asked }
  refine ⟨{ io₂ with asked := raw.length :: io₂.asked }, ?_⟩
  rw [readTable, Prog.bind_of_ok h₁]
  dsimp only
  rw [hclen, hulen, if_neg (not_not.2 hraw), Prog.bind_of_ok (newVec_of_lt (by omega) _),
    Prog.bind_of_ok h₂]
  dsimp only
  rw [Prog.bind_of_ok (newVec_of_lt hrawMax _), hz, if_neg (not_not.2 rfl)]
  rfl

/-- The sum of lengths that stays below `2 ^ 64` is the sum of the lengths. -/
theorem sumLen_eq {segs : List RawSeg} (h : (segs.map RawSeg.len).sum < 2 ^ 64) :
    sumLen segs = (segs.map RawSeg.len).sum := by
  have hgen : ∀ (segs : List RawSeg) (t : ℕ), t + (segs.map RawSeg.len).sum < 2 ^ 64 →
      segs.foldl (fun t s => add64 t s.len) t = t + (segs.map RawSeg.len).sum := by
    intro segs
    induction segs with
    | nil => intro t _; simp
    | cons s segs ih =>
        intro t ht
        rw [List.map_cons, List.sum_cons] at ht ⊢
        rw [List.foldl_cons, add64_eq (by omega), ih _ (by omega), Nat.add_assoc]
  rw [sumLen, hgen segs 0 (by omega), Nat.zero_add]

/-- What a delta file is made of: the fields of its header, its segments, its blocks, and the
literal region, all within the widths of their fields. -/
structure DeltaFile where
  blockSize : ℕ
  targetSize : ℕ
  baseSize : ℕ
  baseHash : ℕ
  segs : List RawSeg
  blocks : List BlockRec
  region : Bytes

namespace DeltaFile

variable (f : DeltaFile)

def segRaw : Bytes := f.segs.flatMap RawSeg.encode

def blkRaw : Bytes := f.blocks.flatMap BlockRec.encode

/-- The bytes of the file, with the tables compressed. -/
def encode (z : Zstd) : Bytes :=
  encodeDelta
    (encodeHeader f.blockSize f.targetSize f.baseSize f.baseHash f.segs.length f.blocks.length)
    (encodeTable (z.compress f.segRaw ZLEVEL) f.segRaw.length)
    (encodeTable (z.compress f.blkRaw ZLEVEL) f.blkRaw.length) f.region

/-- Where the literal region starts. -/
def regionOff (z : Zstd) : ℕ :=
  44 + (16 + (z.compress f.segRaw ZLEVEL).length) + (16 + (z.compress f.blkRaw ZLEVEL).length)

/-- Every number fits in its field, and the segments cover the target. -/
structure Fits : Prop where
  blockSize_pos : 0 < f.blockSize
  blockSize_lt : f.blockSize < 2 ^ 32
  targetSize_lt : f.targetSize < 2 ^ 64
  baseSize_lt : f.baseSize < 2 ^ 64
  baseHash_lt : f.baseHash < 2 ^ 64
  segs_lt : f.segs.length < 2 ^ 32
  blocks_lt : f.blocks.length < 2 ^ 32
  seg_fits : ∀ s ∈ f.segs, s.Fits
  block_fits : ∀ b ∈ f.blocks, b.Fits
  covers : (f.segs.map RawSeg.len).sum = f.targetSize

/-- What parsing the file yields. -/
def parsed (z : Zstd) (file : ByteSource) : Parsed where
  targetSize := f.targetSize
  baseSize := f.baseSize
  baseHash := f.baseHash
  segs := f.segs
  add := {
    file := file
    regionOff := f.regionOff z
    blockSize := f.blockSize
    blocks := f.blocks }

@[simp] theorem length_segRaw : f.segRaw.length = f.segs.length * 17 :=
  length_flatMap_records fun s _ => RawSeg.length_encode s

@[simp] theorem length_blkRaw : f.blkRaw.length = f.blocks.length * 16 :=
  length_flatMap_records fun b _ => BlockRec.length_encode b

theorem length_encode (z : Zstd) : (f.encode z).length = f.regionOff z + f.region.length := by
  simp [encode, encodeDelta, regionOff]
  omega

/-- The literal region is the end of the file. -/
theorem slice_region (z : Zstd) (off n : ℕ) :
    slice (f.encode z) (f.regionOff z + off) n = slice f.region off n := by
  have hsplit : f.encode z = (encodeHeader f.blockSize f.targetSize f.baseSize f.baseHash
      f.segs.length f.blocks.length ++ encodeTable (z.compress f.segRaw ZLEVEL) f.segRaw.length
      ++ encodeTable (z.compress f.blkRaw ZLEVEL) f.blkRaw.length) ++ f.region := by
    simp [encode, encodeDelta]
  have hlen : (encodeHeader f.blockSize f.targetSize f.baseSize f.baseHash
      f.segs.length f.blocks.length ++ encodeTable (z.compress f.segRaw ZLEVEL) f.segRaw.length
      ++ encodeTable (z.compress f.blkRaw ZLEVEL) f.blkRaw.length).length = f.regionOff z := by
    rw [List.length_append, List.length_append, length_encodeHeader, length_encodeTable,
      length_encodeTable, regionOff]
  rw [hsplit, slice_append_right (by omega), hlen, Nat.add_sub_cancel_left]

end DeltaFile

/-- **The parser reads back what was encoded**, from any source that delivers the file. -/
theorem parseDelta_encode {z : Zstd} (hz : z.RoundTrips) {f : DeltaFile} (hf : f.Fits)
    {src : ByteSource} (hsrc : src.Delivers (f.encode z)) (hmax : (f.encode z).length < 2 ^ 63)
    (io : Io) : ∃ io', parseDelta z src io = (.ok (f.parsed z src), io') := by
  have h8 : (256 : ℕ) ^ 8 = 2 ^ 64 := by norm_num
  have h4 : (256 : ℕ) ^ 4 = 2 ^ 32 := by norm_num
  have hlen := f.length_encode z
  have hreg : f.regionOff z = 44 + (16 + (z.compress f.segRaw ZLEVEL).length)
    + (16 + (z.compress f.blkRaw ZLEVEL).length) := rfl
  -- the header
  obtain ⟨hmagic, hver, hbs, hts, hbsz, hbh, hns, hnb⟩ := slice_encodeHeader f.blockSize
    f.targetSize f.baseSize f.baseHash f.segs.length f.blocks.length
  have hhdr : slice (f.encode z) 0 HEADER_SIZE = encodeHeader f.blockSize f.targetSize f.baseSize
      f.baseHash f.segs.length f.blocks.length :=
    slice_of_append [] _ _ (by rw [DeltaFile.encode, encodeDelta, List.nil_append]) rfl
      (length_encodeHeader ..)
  obtain ⟨t₁, h₁⟩ := fetch_delivers hsrc HEADER_SIZE 0 (by simp only [HEADER_SIZE]; omega) io
  -- the segment table
  have hseg : slice (f.encode z) HEADER_SIZE (16 + (z.compress f.segRaw ZLEVEL).length)
      = encodeTable (z.compress f.segRaw ZLEVEL) f.segRaw.length :=
    slice_of_append _ _ _ rfl (length_encodeHeader ..) (length_encodeTable ..)
  have hsegLen := f.length_segRaw
  have hsegs := hf.segs_lt
  obtain ⟨io₂, h₂⟩ := readTable_encodeTable f.segs.length 17 hsrc hseg
    (by simp only [HEADER_SIZE]; omega) hmax hsegLen (by omega) (zDecompress_compress hz _ _)
    segMsgs { io with clock := t₁ }
  -- the block index
  have hblk : slice (f.encode z) (HEADER_SIZE + (16 + (z.compress f.segRaw ZLEVEL).length))
      (16 + (z.compress f.blkRaw ZLEVEL).length)
      = encodeTable (z.compress f.blkRaw ZLEVEL) f.blkRaw.length := by
    refine slice_of_append (encodeHeader f.blockSize f.targetSize f.baseSize f.baseHash
      f.segs.length f.blocks.length ++ encodeTable (z.compress f.segRaw ZLEVEL) f.segRaw.length)
      _ f.region ?_ ?_ (length_encodeTable ..)
    · rw [DeltaFile.encode, encodeDelta, List.append_assoc]
    · rw [List.length_append, length_encodeHeader, length_encodeTable, HEADER_SIZE]
  have hblkLen := f.length_blkRaw
  have hblks := hf.blocks_lt
  obtain ⟨io₃, h₃⟩ := readTable_encodeTable f.blocks.length 16 hsrc hblk
    (by simp only [HEADER_SIZE]; omega) hmax hblkLen (by omega) (zDecompress_compress hz _ _)
    blkMsgs io₂
  -- the records of the two tables
  have hsegCut : cutRecords 17 RawSeg.decode f.segs.length f.segRaw = f.segs :=
    cutRecords_flatMap (fun s _ => RawSeg.length_encode s)
      fun s hs => RawSeg.decode_encode (hf.seg_fits s hs)
  have hblkCut : cutRecords 16 BlockRec.decode f.blocks.length f.blkRaw = f.blocks :=
    cutRecords_flatMap (fun b _ => BlockRec.length_encode b)
      fun b hb => BlockRec.decode_encode (hf.block_fits b hb)
  have hsum : sumLen f.segs = f.targetSize := by
    have hcov := hf.covers
    have htgt := hf.targetSize_lt
    rw [sumLen_eq (by omega), hcov]
  have hV : leNat (leBytes 4 VERSION) = VERSION := leNat_leBytes (by decide)
  refine ⟨io₃, ?_⟩
  rw [parseDelta, Prog.bind_of_ok h₁]
  dsimp only
  rw [hhdr, hmagic, hver, hbs, hts, hbsz, hbh, hns, hnb, hV,
    leNat_leBytes (x := f.segs.length) (h4 ▸ hf.segs_lt),
    leNat_leBytes (x := f.blocks.length) (h4 ▸ hf.blocks_lt),
    leNat_leBytes (x := f.blockSize) (h4 ▸ hf.blockSize_lt),
    leNat_leBytes (x := f.targetSize) (h8 ▸ hf.targetSize_lt),
    leNat_leBytes (x := f.baseSize) (h8 ▸ hf.baseSize_lt),
    leNat_leBytes (x := f.baseHash) (h8 ▸ hf.baseHash_lt), if_neg (not_not.2 rfl),
    if_neg (not_not.2 rfl), if_neg (Nat.pos_iff_ne_zero.1 hf.blockSize_pos), Prog.bind_of_ok h₂]
  dsimp only
  rw [hsegCut, hsum, if_neg (not_not.2 rfl)]
  simp only [HEADER_SIZE] at h₃ ⊢
  rw [add64_eq (b := (z.compress f.segRaw ZLEVEL).length) (by omega), add64_eq (by omega),
    Prog.bind_of_ok h₃]
  dsimp only
  rw [hblkCut, add64_eq (b := (z.compress f.blkRaw ZLEVEL).length) (by omega),
    add64_eq (by omega)]
  rfl

end VidyaGodFS
