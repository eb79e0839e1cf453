/-
**The generator of a delta.**

`generateDelta` scans the target with a window of `ANCHOR` bytes whose rolling hash is looked up
among the aligned windows of the base.  A window that is really equal is extended in both
directions and becomes a COPY; what lies between two COPYs is written to a scratch file of literals
and becomes an ADD.  The literals are then read back in blocks, each compressed on its own into a
second scratch file, and the header, the two tables and that file make up the delta.

What the calls outside the program answer is an environment, `GenEnv`: each scratch call and each
compression may fail, and the progress callback may ask to stop.  A generation that is stopped or
that meets a failure it looks at returns the empty byte string.

Main definitions:

* `GenEnv`, `GenEnv.Faultless` — what the calls answer, and the environment where none fails;
* `Spill` — a scratch file under construction;
* `hashWin`, `powR`, `anchorIndex` — the rolling hash and the index of the base;
* `Scan`, `scanTurn`, `scanLoop` — the matcher;
* `packBlocks`, `generateDelta` — the literal blocks and the whole.
-/

import VidyaGodFS.DeltaCompose

set_option relaxedAutoImplicit false
set_option autoImplicit false

namespace VidyaGodFS

/-! ### The environment -/

/-- What the calls that a generation makes answer.  Calls of one kind are numbered from 0 on; a
write answers `none` when it wrote everything and `some k` when it failed after `k` bytes, a
read-back answers `none` when it read everything and `some k` when it came up with no more than `k`
bytes. -/
structure GenEnv where
  litOpen : Bool
  litWrite : ℕ → Option ℕ
  litClose : Bool
  litIn : Bool
  litRead : ℕ → Option ℕ
  cmpOpen : Bool
  cmpWrite : ℕ → Option ℕ
  cmpClose : Bool
  cmpIn : Bool
  cmpRead : Option ℕ
  /-- Whether the compression number `k` reports an error. -/
  zFails : ℕ → Bool
  /-- The callback, when there is one: the number of its call, the stage, done and total. -/
  progress : Option (ℕ → ℕ → ℕ → ℕ → Bool)

/-- No scratch or compressor call fails, and the callback never aborts. -/
structure GenEnv.Faultless (env : GenEnv) : Prop where
  litOpen : env.litOpen = true
  litWrite : ∀ k, env.litWrite k = none
  litClose : env.litClose = true
  litIn : env.litIn = true
  litRead : ∀ k, env.litRead k = none
  cmpOpen : env.cmpOpen = true
  cmpWrite : ∀ k, env.cmpWrite k = none
  cmpClose : env.cmpClose = true
  cmpIn : env.cmpIn = true
  cmpRead : env.cmpRead = none
  zFails : ∀ k, env.zFails k = false
  progress : ∀ f, env.progress = some f → ∀ k stage done total, f k stage done total = true

/-- Polling the callback after `polls` polls: the new number of polls, or `none` to abort. -/
def GenEnv.poll (env : GenEnv) (polls stage done total : ℕ) : Option ℕ :=
  match env.progress with
  | none => some polls
  | some f => if f polls stage done total then some (polls + 1) else none

/-- The compression number `k`; an error yields the empty vector. -/
def GenEnv.zCompress (env : GenEnv) (z : Zstd) (k : ℕ) (x : Bytes) : Bytes :=
  if env.zFails k then [] else z.compress x ZLEVEL

/-- The number of bytes a read-back of `n` bytes comes up with. -/
def gcount (short : Option ℕ) (n avail : ℕ) : ℕ :=
  match short with
  | none => min n avail
  | some k => min k (min n avail)

/-- A scratch file: the bytes in it, the number of writes, and whether all of them succeeded. -/
structure Spill where
  data : Bytes
  writes : ℕ
  ok : Bool
  deriving DecidableEq

/-- A scratch file that was just opened. -/
def Spill.empty : Spill := ⟨[], 0, true⟩

/-- Appending bytes; a failed write leaves what it wrote before it failed. -/
def Spill.write (fails : ℕ → Option ℕ) (s : Spill) (bs : Bytes) : Spill :=
  match fails s.writes with
  | none => ⟨s.data ++ bs, s.writes + 1, s.ok⟩
  | some k => ⟨s.data ++ bs.take k, s.writes + 1, false⟩

/-! ### The rolling hash -/

/-- The length of a window: no shorter match is looked for. -/
def ANCHOR : ℕ := 256

def RK_R : UInt64 := 131

/-- `RK_R ^ exp`, by squaring; the turns of the loop are the binary digits of `exp`. -/
def powRLoop : ℕ → ℕ → UInt64 → UInt64 → UInt64
  | 0, _, r, _ => r
  | fuel + 1, exp, r, b =>
      if exp = 0 then r else
        powRLoop fuel (exp / 2) (if exp % 2 = 1 then r * b else r) (b * b)

def powR (exp : ℕ) : UInt64 := powRLoop 64 exp 1 RK_R

/-- The hash of the first window of `bs`. -/
def hashWin (bs : Bytes) : UInt64 :=
  (bs.take ANCHOR).foldl (fun h b => h * RK_R + b.toUInt64) 0

/-- The aligned windows of the base under their hashes.  A lookup finds the first of a hash. -/
def anchorIndex (base : Bytes) : List (UInt64 × ℕ) :=
  (List.range (base.length / ANCHOR)).map fun k => (hashWin (base.drop (k * ANCHOR)), k * ANCHOR)

/-! ### The matcher -/

/-- The callback is polled once in so many bytes of the target. -/
def kPollEvery : ℕ := 4194304

/-- The state of the scan: the position in the target, the start of the literals not yet written,
the hash of the window at the position, the next position to poll at, the segments so far and the
literals so far. -/
structure Scan where
  p : ℕ
  litStart : ℕ
  h : UInt64
  nextPoll : ℕ
  polls : ℕ
  segs : List RawSeg
  lit : Spill

/-- Writes the literals from `lo` to `hi`, if there are any. -/
def emitAdd (env : GenEnv) (target : Bytes) (lo hi : ℕ) (segs : List RawSeg) (lit : Spill) :
    List RawSeg × Spill :=
  if hi ≤ lo then (segs, lit) else
    (segs ++ [⟨KIND_ADD, hi - lo, lit.data.length⟩],
      lit.write env.litWrite (slice target lo (hi - lo)))

/-- Extends a match of `len` bytes at `o` and `p` forwards. -/
def extendLen (base target : Bytes) (o p : ℕ) : ℕ → ℕ → ℕ
  | 0, len => len
  | fuel + 1, len =>
      if o + len < base.length ∧ p + len < target.length ∧ base[o + len]? = target[p + len]? then
        extendLen base target o p fuel (len + 1)
      else len

/-- Extends a match at `o` and `p` backwards by `back` bytes and more, not before `litStart`. -/
def extendBack (base target : Bytes) (litStart o p : ℕ) : ℕ → ℕ → ℕ
  | 0, back => back
  | fuel + 1, back =>
      if back < p - litStart ∧ back < o ∧ base[o - 1 - back]? = target[p - 1 - back]? then
        extendBack base target litStart o p fuel (back + 1)
      else back

/-- The aligned window of the base that equals the window at the position, if the index has one. -/
def findMatch (base target : Bytes) (index : List (UInt64 × ℕ)) (st : Scan) : Option ℕ :=
  match index.lookup st.h with
  | none => none
  | some o =>
      if o + ANCHOR ≤ base.length ∧ slice base o ANCHOR = slice target st.p ANCHOR then some o
      else none

/-- The scan after the window at its position matched the one at `o`. -/
def Scan.copy (env : GenEnv) (base target : Bytes) (st : Scan) (o : ℕ) : Scan :=
  let len := extendLen base target o st.p base.length ANCHOR
  let back := extendBack base target st.litStart o st.p o 0
  let (segs, lit) := emitAdd env target st.litStart (st.p - back) st.segs st.lit
  let p := st.p + len
  { st with
    p := p
    litStart := p
    h := if p + ANCHOR ≤ target.length then hashWin (target.drop p) else st.h
    segs := segs ++ [⟨KIND_COPY, len + back, o - back⟩]
    lit := lit }

/-- The scan after no window matched: one byte on. -/
def Scan.roll (target : Bytes) (st : Scan) : Scan :=
  { st with
    p := st.p + 1
    h :=
      if st.p + ANCHOR < target.length then
        (st.h - (target.getD st.p 0).toUInt64 * powR (ANCHOR - 1)) * RK_R
          + (target.getD (st.p + ANCHOR) 0).toUInt64
      else st.h }

/-- One turn of the scan. -/
def scanTurn (env : GenEnv) (base target : Bytes) (index : List (UInt64 × ℕ)) (st : Scan) : Scan :=
  match findMatch base target index st with
  | some o => st.copy env base target o
  | none => st.roll target

/-- The poll at the start of a turn, where one is due; `none` to abort. -/
def Scan.pollDue (env : GenEnv) (target : Bytes) (st : Scan) : Option Scan :=
  if env.progress.isSome ∧ st.nextPoll ≤ st.p then
    match env.poll st.polls 0 st.p target.length with
    | none => none
    | some polls => some { st with polls := polls, nextPoll := st.p + kPollEvery }
  else some st

/-- The scan.  Every turn moves on by a byte, so the length of the target is enough fuel. -/
def scanLoop (env : GenEnv) (base target : Bytes) (index : List (UInt64 × ℕ)) :
    ℕ → Scan → Option Scan
  | 0, st => some st
  | fuel + 1, st =>
      if target.length < st.p + ANCHOR then some st else
        match st.pollDue env target with
        | none => none
        | some st => scanLoop env base target index fuel (scanTurn env base target index st)

/-- The scan of a whole target, and the literals after it. -/
def scanTarget (env : GenEnv) (base target : Bytes) : Option (List RawSeg × Spill × ℕ) :=
  match scanLoop env base target (anchorIndex base) target.length
      ⟨0, 0, hashWin target, 0, 0, [], Spill.empty⟩ with
  | none => none
  | some st =>
      let (segs, lit) := emitAdd env target st.litStart target.length st.segs st.lit
      some (segs, lit, st.polls)

/-! ### The delta -/

/-- Reads the literals back from `o` on, in blocks, and compresses each into the second scratch
file; `blocks` are the ones before.  The length of that file is the offset of the next frame: a
write that fails ends the loop. -/
def packBlocks (z : Zstd) (env : GenEnv) (blockSize : ℕ) (lit : Bytes) :
    ℕ → ℕ → ℕ → List BlockRec → Spill → Option (List BlockRec × Spill)
  | 0, _, _, blocks, out => some (blocks, out)
  | fuel + 1, o, polls, blocks, out =>
      if lit.length ≤ o then some (blocks, out) else
        match env.poll polls 1 o lit.length with
        | none => none
        | some polls =>
            let ul := min blockSize (lit.length - o)
            if gcount (env.litRead blocks.length) ul (lit.length - o) ≠ ul then none else
              let c := env.zCompress z blocks.length (slice lit o ul)
              let next := out.write env.cmpWrite c
              if next.ok = false then none else
                packBlocks z env blockSize lit fuel (o + blockSize) polls
                  (blocks ++ [⟨out.data.length, c.length % 2 ^ 32, ul⟩]) next

/-- The block size of a generation: 0 stands for the default. -/
def effectiveBlockSize (blockSize : UInt32) : ℕ :=
  if blockSize = 0 then DEFAULT_BLOCK else blockSize.toNat

/-- The delta that rebuilds `target` from `base`; empty when the generation was stopped or failed. -/
def generateDelta (z : Zstd) (env : GenEnv) (base target : Bytes) (blockSize : UInt32) : Bytes :=
  let bs := effectiveBlockSize blockSize
  if env.litOpen = false then [] else
    match scanTarget env base target with
    | none => []
    | some (segs, lit, polls) =>
        if env.litClose = false ∨ lit.ok = false then [] else
        if env.litIn = false ∨ env.cmpOpen = false then [] else
          match packBlocks z env bs lit.data lit.data.length 0 polls [] Spill.empty with
          | none => []
          | some (blocks, out) =>
              if env.cmpClose = false then [] else
                let segRaw := segs.flatMap RawSeg.encode
                let segComp := env.zCompress z blocks.length segRaw
                let blkRaw := blocks.flatMap BlockRec.encode
                let blkComp := env.zCompress z (blocks.length + 1) blkRaw
                if env.cmpIn = false then [] else
                if gcount env.cmpRead out.data.length out.data.length ≠ out.data.length then []
                else
                  encodeDelta
                    (encodeHeader bs target.length base.length (fnv1a64 base).toNat segs.length
                      blocks.length)
                    (encodeTable segComp segRaw.length) (encodeTable blkComp blkRaw.length)
                    out.data

end VidyaGodFS
