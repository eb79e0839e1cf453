/-
**A generated delta rebuilds its target.**

The scan keeps one invariant: the segments written so far rebuild the target up to the first literal
that is still pending.  It does not matter which windows the index finds, since a window becomes a
COPY only after its bytes were compared.  The blocks of the literals keep another: each block
written so far lies in the second scratch file as the frame of its part of the literals.  Together
they say that the file a faultless generation returns parses into segments and blocks that stand for
the target.

Main definitions:

* `Rebuilds`, `ScanInv` — the segments and literals written rebuild the target up to a position;
* `FramedIn` — the block number `k` of the literals lies in the region as its frame;
* `FitsIn32` — the counts and lengths that the format keeps in 32 bits fit;
* `Source.Holds`, `DeltaByteSource.StandsFor` — a plain source that delivers the base, or a sound
  reader of it.

Main results:

* `scanTarget_rebuilds` — the matcher loses nothing;
* `packBlocks_framed` — neither do the blocks;
* `generateDelta_applies` — the reader over a generated delta stands for the target;
* `generateDelta_roundTrip` — **a delta applied to its base reads as its target**.
-/

import Mathlib.Algebra.Order.BigOperators.Group.List
import VidyaGodFS.DeltaGenerate

set_option relaxedAutoImplicit false
set_option autoImplicit false

namespace VidyaGodFS

/-! ### Scratch files -/

theorem Spill.write_of_none {fails : ℕ → Option ℕ} (h : ∀ k, fails k = none) (s : Spill)
    (bs : Bytes) : s.write fails bs = ⟨s.data ++ bs, s.writes + 1, s.ok⟩ := by
  rw [Spill.write, h]

theorem gcount_none (n avail : ℕ) (h : n ≤ avail) : gcount none n avail = n :=
  Nat.min_eq_left h

/-- A callback that never aborts lets every poll pass. -/
theorem GenEnv.Faultless.poll_eq {env : GenEnv} (h : env.Faultless) (polls stage done total : ℕ) :
    ∃ polls', env.poll polls stage done total = some polls' := by
  rw [GenEnv.poll]
  cases hf : env.progress with
  | none => exact ⟨polls, rfl⟩
  | some f =>
      dsimp only
      rw [h.progress f hf polls stage done total]
      exact ⟨polls + 1, rfl⟩

theorem GenEnv.Faultless.zCompress_eq {env : GenEnv} (h : env.Faultless) (z : Zstd) (k : ℕ)
    (x : Bytes) : env.zCompress z k x = z.compress x ZLEVEL := by
  rw [GenEnv.zCompress, h.zFails]
  exact if_neg (by decide)

/-! ### Matches -/

/-- Extending forwards keeps the match, and inside both. -/
theorem extendLen_spec (base target : Bytes) (o p : ℕ) :
    ∀ (fuel len : ℕ), o + len ≤ base.length → p + len ≤ target.length →
      slice base o len = slice target p len →
      ∃ len', extendLen base target o p fuel len = len' ∧ len ≤ len' ∧ o + len' ≤ base.length ∧
        p + len' ≤ target.length ∧ slice base o len' = slice target p len' := by
  intro fuel
  induction fuel with
  | zero => exact fun len ho hp heq => ⟨len, rfl, le_rfl, ho, hp, heq⟩
  | succ fuel ih =>
      intro len ho hp heq
      rw [extendLen]
      by_cases hc : o + len < base.length ∧ p + len < target.length ∧
          base[o + len]? = target[p + len]?
      · rw [if_pos hc]
        obtain ⟨hb, ht, hnext⟩ := hc
        obtain ⟨len', h', hle, ho', hp', heq'⟩ :=
          ih (len + 1) (by omega) (by omega) (slice_succ_eq heq hnext)
        exact ⟨len', h', by omega, ho', hp', heq'⟩
      · rw [if_neg hc]
        exact ⟨len, rfl, le_rfl, ho, hp, heq⟩

/-- A match is extended up to where the bytes part. -/
theorem extendLen_eq {base target : Bytes} {o p stop : ℕ}
    (heq : slice base o stop = slice target p stop) (ho : o + stop ≤ base.length)
    (hp : p + stop ≤ target.length) (hstop : ¬ (o + stop < base.length ∧ p + stop < target.length ∧
      base[o + stop]? = target[p + stop]?)) :
    ∀ fuel len, len ≤ stop → stop ≤ len + fuel → extendLen base target o p fuel len = stop := by
  intro fuel
  induction fuel with
  | zero =>
      intro len hle hge
      exact Nat.le_antisymm hle hge
  | succ fuel ih =>
      intro len hle hge
      rw [extendLen]
      rcases Nat.eq_or_lt_of_le hle with rfl | hlt
      · rw [if_neg hstop]
      · have hnext : base[o + len]? = target[p + len]? := by
          have hat := congrArg (fun l => l[len]?) heq
          rwa [slice, slice, List.getElem?_take_of_lt hlt, List.getElem?_take_of_lt hlt,
            List.getElem?_drop, List.getElem?_drop] at hat
        rw [if_pos ⟨by omega, by omega, hnext⟩]
        exact ih (len + 1) hlt (by omega)

/-- Extending backwards keeps the match, and after the literals already written. -/
theorem extendBack_spec (base target : Bytes) {litStart p : ℕ} (o : ℕ) (hlit : litStart ≤ p) :
    ∀ (fuel back : ℕ), back ≤ p - litStart → back ≤ o →
      slice base (o - back) back = slice target (p - back) back →
      ∃ back', extendBack base target litStart o p fuel back = back' ∧ back' ≤ p - litStart ∧
        back' ≤ o ∧ slice base (o - back') back' = slice target (p - back') back' := by
  intro fuel
  induction fuel with
  | zero => exact fun back hp ho heq => ⟨back, rfl, hp, ho, heq⟩
  | succ fuel ih =>
      intro back hp ho heq
      rw [extendBack]
      by_cases hc : back < p - litStart ∧ back < o ∧
          base[o - 1 - back]? = target[p - 1 - back]?
      · rw [if_pos hc]
        obtain ⟨hlt, hlo, hprev⟩ := hc
        have ho1 : o - back = o - 1 - back + 1 := by omega
        have hp1 : p - back = p - 1 - back + 1 := by omega
        rw [ho1, hp1] at heq
        have heq' := slice_pred_eq heq hprev
        have ho2 : o - 1 - back = o - (back + 1) := by omega
        have hp2 : p - 1 - back = p - (back + 1) := by omega
        rw [ho2, hp2, Nat.add_comm 1 back] at heq'
        exact ih (back + 1) (by omega) (by omega) heq'
      · rw [if_neg hc]
        exact ⟨back, rfl, hp, ho, heq⟩

/-! ### The scan -/

/-- **The segments and the literals written so far rebuild the first `hi` bytes of the target.** -/
structure Rebuilds (base target : Bytes) (hi : ℕ) (segs : List RawSeg) (lit : Spill) : Prop where
  hi_le : hi ≤ target.length
  inRange : ∀ s ∈ segs, s.InRange base.length lit.data.length
  rebuilt : rawBytes base lit.data segs = target.take hi
  lit_le : lit.data.length ≤ hi
  ok : lit.ok = true

theorem RawSeg.InRange.append_lit {base lit : Bytes} {s : RawSeg}
    (h : s.InRange base.length lit.length) (more : Bytes) :
    s.InRange base.length (lit ++ more).length ∧ s.bytes base (lit ++ more) = s.bytes base lit := by
  obtain ⟨hpos, ⟨hk, hin⟩ | ⟨hk, hin⟩⟩ := h
  · refine ⟨⟨hpos, Or.inl ⟨hk, hin⟩⟩, ?_⟩
    rw [RawSeg.bytes, RawSeg.bytes, if_pos hk, if_pos hk]
  · refine ⟨⟨hpos, Or.inr ⟨hk, by rw [List.length_append]; omega⟩⟩, ?_⟩
    rw [RawSeg.bytes, RawSeg.bytes, if_neg (by rw [hk]; decide), if_neg (by rw [hk]; decide),
      slice_append_left hin]

theorem rawBytes_append_lit {base lit : Bytes} {segs : List RawSeg}
    (h : ∀ s ∈ segs, s.InRange base.length lit.length) (more : Bytes) :
    rawBytes base (lit ++ more) segs = rawBytes base lit segs :=
  List.flatMap_congr fun s hs => ((h s hs).append_lit more).2

section Scan

variable {env : GenEnv} {base target : Bytes}

/-- Writing the literals up to `hi` rebuilds the target up to `hi`. -/
theorem Rebuilds.emitAdd (henv : env.Faultless) {lo : ℕ} {segs : List RawSeg} {lit : Spill}
    (h : Rebuilds base target lo segs lit) (hi : ℕ) (hlo : lo ≤ hi) (hhi : hi ≤ target.length) :
    Rebuilds base target hi (emitAdd env target lo hi segs lit).1
      (emitAdd env target lo hi segs lit).2 := by
  rw [VidyaGodFS.emitAdd]
  by_cases hle : hi ≤ lo
  · obtain rfl : lo = hi := by omega
    rw [if_pos le_rfl]
    exact h
  · have hlen : (slice target lo (hi - lo)).length = hi - lo := length_slice_of_le (by omega)
    have hlit := h.lit_le
    have hnew : (⟨KIND_ADD, hi - lo, lit.data.length⟩ : RawSeg).InRange base.length
        (lit.data ++ slice target lo (hi - lo)).length :=
      ⟨by dsimp only; omega, Or.inr ⟨rfl, by rw [List.length_append, hlen]⟩⟩
    have hbytes : RawSeg.bytes base (lit.data ++ slice target lo (hi - lo))
        ⟨KIND_ADD, hi - lo, lit.data.length⟩ = slice target lo (hi - lo) := by
      rw [RawSeg.bytes, if_neg KIND_ADD_ne_COPY]
      exact slice_of_append lit.data _ [] (by simp) rfl hlen
    rw [if_neg hle]
    dsimp only
    rw [Spill.write_of_none henv.litWrite]
    refine ⟨hhi, ?_, ?_, ?_, h.ok⟩
    · intro s hs
      rcases List.mem_append.1 hs with hs | hs
      · exact ((h.inRange s hs).append_lit _).1
      · obtain rfl := List.mem_singleton.1 hs
        exact hnew
    · dsimp only
      rw [rawBytes_append, rawBytes_append_lit h.inRange, h.rebuilt, rawBytes_cons, rawBytes_nil,
        List.append_nil, hbytes, ← slice_zero_left, ← slice_zero_left]
      have hseam := slice_append_slice target 0 lo (hi - lo)
      rwa [Nat.zero_add, Nat.add_sub_cancel' hlo] at hseam
    · dsimp only
      rw [List.length_append, hlen]
      omega

/-- A COPY of bytes that the base and the target have in common rebuilds the target further. -/
theorem Rebuilds.copy {hi o n : ℕ} {segs : List RawSeg} {lit : Spill}
    (h : Rebuilds base target hi segs lit) (hpos : 0 < n) (ho : o + n ≤ base.length)
    (hn : hi + n ≤ target.length) (heq : slice base o n = slice target hi n) :
    Rebuilds base target (hi + n) (segs ++ [⟨KIND_COPY, n, o⟩]) lit := by
  have hlit := h.lit_le
  refine ⟨hn, ?_, ?_, by omega, h.ok⟩
  · intro s hs
    rcases List.mem_append.1 hs with hs | hs
    · exact h.inRange s hs
    · obtain rfl := List.mem_singleton.1 hs
      exact ⟨hpos, Or.inl ⟨rfl, ho⟩⟩
  · rw [rawBytes_append, h.rebuilt, rawBytes_cons, rawBytes_nil, List.append_nil, RawSeg.bytes,
      if_pos rfl]
    dsimp only
    rw [heq, ← slice_zero_left, ← slice_zero_left]
    have hseam := slice_append_slice target 0 hi n
    rwa [Nat.zero_add] at hseam

/-- The invariant of the scan: what is written rebuilds the target up to the pending literals. -/
structure ScanInv (base target : Bytes) (st : Scan) : Prop where
  litStart_le : st.litStart ≤ st.p
  p_le : st.p ≤ target.length
  rebuilds : Rebuilds base target st.litStart st.segs st.lit

/-- A window found in the index is a window of the base with the bytes of the target. -/
theorem findMatch_eq_some {index : List (UInt64 × ℕ)} {st : Scan} {o : ℕ}
    (h : findMatch base target index st = some o) :
    o + ANCHOR ≤ base.length ∧ slice base o ANCHOR = slice target st.p ANCHOR := by
  rw [findMatch] at h
  cases hl : index.lookup st.h with
  | none =>
      rw [hl] at h
      simp at h
  | some o' =>
      rw [hl] at h
      dsimp only at h
      split at h
      · obtain rfl := Option.some_inj.1 h
        assumption
      · simp at h

/-- **A turn of the scan keeps the invariant**, and moves on. -/
theorem ScanInv.turn (henv : env.Faultless) {st : Scan} (h : ScanInv base target st)
    (index : List (UInt64 × ℕ)) (hp : st.p + ANCHOR ≤ target.length) :
    ScanInv base target (scanTurn env base target index st) ∧
      st.p < (scanTurn env base target index st).p := by
  have hA : ANCHOR = 256 := rfl
  rw [scanTurn]
  cases hm : findMatch base target index st with
  | none =>
      have hle := h.litStart_le
      refine ⟨⟨?_, ?_, h.rebuilds⟩, Nat.lt_succ_self _⟩
      · exact Nat.le_succ_of_le hle
      · simp only [Scan.roll]
        omega
  | some o =>
      obtain ⟨ho, heq⟩ := findMatch_eq_some hm
      obtain ⟨len, hlen, hge, holen, hplen, heqlen⟩ :=
        extendLen_spec base target o st.p base.length ANCHOR ho hp heq
      obtain ⟨back, hback, hbp, hbo, heqback⟩ :=
        extendBack_spec base target o h.litStart_le o 0 (by omega) (by omega) (by simp)
      have hle := h.litStart_le
      -- the literals up to the match, then the match
      have hadd := h.rebuilds.emitAdd henv (st.p - back) (by omega) (by omega)
      have hjoin : slice base (o - back) (back + len) = slice target (st.p - back) (back + len) := by
        have ho' : o - back + back = o := by omega
        have hp' : st.p - back + back = st.p := by omega
        rw [← slice_append_slice, ← slice_append_slice, heqback, ho', hp', heqlen]
      have hcopy := hadd.copy (n := len + back) (o := o - back) (by omega) (by omega) (by omega)
        (by rw [Nat.add_comm len back]; exact hjoin)
      have hend : st.p - back + (len + back) = st.p + len := by omega
      rw [hend] at hcopy
      simp only [Scan.copy, hlen, hback]
      exact ⟨⟨le_rfl, hplen, hcopy⟩, by omega⟩

/-- A poll that a faultless generation makes changes nothing the scan writes. -/
theorem pollDue_eq (henv : env.Faultless) (target : Bytes) (st : Scan) :
    ∃ polls nextPoll, st.pollDue env target
      = some { st with polls := polls, nextPoll := nextPoll } := by
  rw [Scan.pollDue]
  by_cases hdue : env.progress.isSome ∧ st.nextPoll ≤ st.p
  · obtain ⟨polls, hpoll⟩ := henv.poll_eq st.polls 0 st.p target.length
    rw [if_pos hdue, hpoll]
    exact ⟨polls, st.p + kPollEvery, rfl⟩
  · rw [if_neg hdue]
    exact ⟨st.polls, st.nextPoll, rfl⟩

/-- **The scan keeps the invariant**, and with enough fuel it ends where no window is left. -/
theorem ScanInv.loop (henv : env.Faultless) (index : List (UInt64 × ℕ)) :
    ∀ (fuel : ℕ) (st : Scan), ScanInv base target st → target.length ≤ st.p + fuel →
      ∃ st', scanLoop env base target index fuel st = some st' ∧ ScanInv base target st' ∧
        target.length < st'.p + ANCHOR := by
  intro fuel
  induction fuel with
  | zero =>
      intro st h hf
      refine ⟨st, rfl, h, ?_⟩
      have hA : ANCHOR = 256 := rfl
      omega
  | succ fuel ih =>
      intro st h hf
      rw [scanLoop]
      by_cases hend : target.length < st.p + ANCHOR
      · rw [if_pos hend]
        exact ⟨st, rfl, h, hend⟩
      · obtain ⟨polls, nextPoll, hpoll⟩ := pollDue_eq henv target st
        have h' : ScanInv base target { st with polls := polls, nextPoll := nextPoll } :=
          ⟨h.litStart_le, h.p_le, h.rebuilds⟩
        obtain ⟨hturn, hlt⟩ := h'.turn henv index (Nat.not_lt.1 hend)
        rw [if_neg hend, hpoll]
        exact ih _ hturn (by dsimp only at hlt; omega)

/-- **The matcher loses nothing**: the segments and the literals of a whole scan rebuild the
target. -/
theorem scanTarget_rebuilds (henv : env.Faultless) (base target : Bytes) :
    ∃ segs lit polls, scanTarget env base target = some (segs, lit, polls) ∧
      Rebuilds base target target.length segs lit := by
  have hinit : ScanInv base target ⟨0, 0, hashWin target, 0, 0, [], Spill.empty⟩ :=
    ⟨le_rfl, Nat.zero_le _, Nat.zero_le _, by simp, rfl, le_rfl, rfl⟩
  obtain ⟨st, hst, hinv, _⟩ := ScanInv.loop henv (anchorIndex base) target.length _ hinit
    (Nat.le_add_left _ _)
  have hle := hinv.litStart_le
  have hp := hinv.p_le
  have hall := hinv.rebuilds.emitAdd henv target.length (by omega) le_rfl
  refine ⟨_, _, st.polls, ?_, hall⟩
  rw [scanTarget, hst]

end Scan

/-! ### The blocks -/

/-- The block number `k` of the literals lies in the region `out` as its frame. -/
structure FramedIn (z : Zstd) (blockSize : ℕ) (lit out : Bytes) (k : ℕ) (b : BlockRec) :
    Prop where
  uncompLen_eq : b.uncompLen = (slice lit (k * blockSize) blockSize).length
  compLen_lt : b.compLen < 2 ^ 32
  inside : b.compOff + b.compLen ≤ out.length
  frame : slice out b.compOff b.compLen = z.compress (slice lit (k * blockSize) blockSize) ZLEVEL

/-- A region that goes on still holds the frames it held. -/
theorem FramedIn.append {z : Zstd} {blockSize : ℕ} {lit out : Bytes} {k : ℕ} {b : BlockRec}
    (h : FramedIn z blockSize lit out k b) (more : Bytes) :
    FramedIn z blockSize lit (out ++ more) k b := by
  have hin := h.inside
  refine ⟨h.uncompLen_eq, h.compLen_lt, by rw [List.length_append]; omega, ?_⟩
  rw [slice_append_left hin, h.frame]

/-- **The blocks lose nothing**: they cover the literals, and each lies in the region as its
frame. -/
theorem packBlocks_framed {z : Zstd} {env : GenEnv} (henv : env.Faultless) {blockSize : ℕ}
    (hpos : 0 < blockSize) {lit : Bytes}
    (hc : ∀ k, k * blockSize < lit.length →
      (z.compress (slice lit (k * blockSize) blockSize) ZLEVEL).length < 2 ^ 32) :
    ∀ (fuel polls : ℕ) (blocks : List BlockRec) (out : Spill), out.ok = true →
      (∀ k b, blocks[k]? = some b → FramedIn z blockSize lit out.data k b) →
      lit.length ≤ blocks.length * blockSize + fuel →
      ∃ blocks' out', packBlocks z env blockSize lit fuel (blocks.length * blockSize) polls blocks
          out = some (blocks', out') ∧
        (∀ k b, blocks'[k]? = some b → FramedIn z blockSize lit out'.data k b) ∧
        lit.length ≤ blocks'.length * blockSize := by
  intro fuel
  induction fuel with
  | zero =>
      intro polls blocks out _ hfr hf
      exact ⟨blocks, out, rfl, hfr, hf⟩
  | succ fuel ih =>
      intro polls blocks out hok hfr hf
      rw [packBlocks]
      by_cases hend : lit.length ≤ blocks.length * blockSize
      · rw [if_pos hend]
        exact ⟨blocks, out, rfl, hfr, hend⟩
      · obtain ⟨polls', hpoll⟩ := henv.poll_eq polls 1 (blocks.length * blockSize) lit.length
        have hblock : slice lit (blocks.length * blockSize)
            (min blockSize (lit.length - blocks.length * blockSize))
            = slice lit (blocks.length * blockSize) blockSize := (slice_min _ _ _).symm
        have hclen := hc blocks.length (by omega)
        rw [if_neg hend, hpoll]
        dsimp only
        rw [henv.litRead, gcount_none _ _ (by omega), if_neg (not_not.2 rfl),
          henv.zCompress_eq, hblock, Spill.write_of_none henv.cmpWrite, hok,
          if_neg (by decide), Nat.mod_eq_of_lt hclen]
        generalize hb : (⟨out.data.length, (z.compress (slice lit (blocks.length * blockSize)
          blockSize) ZLEVEL).length, min blockSize (lit.length - blocks.length * blockSize)⟩
            : BlockRec) = b
        generalize hcomp : z.compress (slice lit (blocks.length * blockSize) blockSize) ZLEVEL = c
          at hclen hb
        -- the new block lies at the end of the region
        have hnew : FramedIn z blockSize lit (out.data ++ c) blocks.length b := by
          subst hb
          refine ⟨by rw [length_slice], hclen, by rw [List.length_append], ?_⟩
          rw [hcomp]
          exact slice_of_append out.data c [] (by simp) rfl rfl
        have hlen : (blocks ++ [b]).length = blocks.length + 1 := by simp
        have hsucc : blocks.length * blockSize + blockSize = (blocks ++ [b]).length * blockSize := by
          rw [hlen, Nat.succ_mul]
        rw [hsucc]
        refine ih polls' (blocks ++ [b]) ⟨out.data ++ c, out.writes + 1, true⟩ rfl ?_ (by omega)
        intro k b' hk
        by_cases hlt : k < blocks.length
        · rw [List.getElem?_append_left hlt] at hk
          exact (hfr k b' hk).append c
        · have hkl := (List.getElem?_eq_some_iff.1 hk).1
          obtain rfl : k = blocks.length := by omega
          obtain rfl : b = b' := by simpa using hk
          exact hnew

/-! ### The whole -/

/-- The counts and lengths that the format keeps in 32 bits fit: the numbers of segments and of
blocks, and the length of each frame of literals. -/
def FitsIn32 (z : Zstd) (env : GenEnv) (base target : Bytes) (blockSize : UInt32) : Prop :=
  ∀ segs lit polls, scanTarget env base target = some (segs, lit, polls) →
    segs.length < 2 ^ 32 ∧
      (∀ k, k * effectiveBlockSize blockSize < lit.data.length →
        (z.compress (slice lit.data (k * effectiveBlockSize blockSize)
          (effectiveBlockSize blockSize)) ZLEVEL).length < 2 ^ 32) ∧
      ∀ blocks out, packBlocks z env (effectiveBlockSize blockSize) lit.data lit.data.length 0 polls
        [] Spill.empty = some (blocks, out) → blocks.length < 2 ^ 32

theorem effectiveBlockSize_pos (blockSize : UInt32) :
    0 < effectiveBlockSize blockSize ∧ effectiveBlockSize blockSize < 2 ^ 32 := by
  rw [effectiveBlockSize]
  by_cases h : blockSize = 0
  · rw [if_pos h, DEFAULT_BLOCK]
    omega
  · have hlt := blockSize.toNat_lt
    have hne : blockSize.toNat ≠ 0 := fun h0 => h (UInt32.toNat_inj.1 h0)
    rw [if_neg h]
    omega

/-- The file that a generation writes from its segments, its blocks and its region. -/
def deltaFileOf (base target : Bytes) (blockSize : UInt32) (segs : List RawSeg)
    (blocks : List BlockRec) (region : Bytes) : DeltaFile where
  blockSize := effectiveBlockSize blockSize
  targetSize := target.length
  baseSize := base.length
  baseHash := (fnv1a64 base).toNat
  segs := segs
  blocks := blocks
  region := region

/-- The counts fit where the literals fit in one block. -/
theorem fitsIn32_of {z : Zstd} {env : GenEnv} {base target : Bytes} {blockSize : UInt32}
    {segs : List RawSeg} {lit : Spill} {polls : ℕ} {blocks : List BlockRec} {out : Spill}
    (hscan : scanTarget env base target = some (segs, lit, polls))
    (hpack : packBlocks z env (effectiveBlockSize blockSize) lit.data lit.data.length 0 polls []
      Spill.empty = some (blocks, out)) (hsegs : segs.length < 2 ^ 32)
    (hlit : lit.data.length ≤ effectiveBlockSize blockSize)
    (hframe : (z.compress (slice lit.data 0 (effectiveBlockSize blockSize)) ZLEVEL).length < 2 ^ 32)
    (hblocks : blocks.length < 2 ^ 32) : FitsIn32 z env base target blockSize := by
  intro segs' lit' polls' h
  rw [hscan] at h
  obtain ⟨rfl, rfl, rfl⟩ := by simpa using h
  refine ⟨hsegs, ?_, ?_⟩
  · intro k hk
    obtain rfl : k = 0 := by
      rcases Nat.eq_zero_or_pos k with h0 | hpos
      · exact h0
      · have hmul := Nat.le_mul_of_pos_left (effectiveBlockSize blockSize) hpos
        omega
    rwa [Nat.zero_mul]
  · intro blocks' out' hpack'
    rw [hpack] at hpack'
    obtain ⟨rfl, rfl⟩ := by simpa using hpack'
    exact hblocks

/-- What a faultless generation writes from its scan and its blocks. -/
theorem generateDelta_encode {z : Zstd} {env : GenEnv} (henv : env.Faultless) {base target : Bytes}
    {blockSize : UInt32} {segs : List RawSeg} {lit : Spill} {polls : ℕ} {blocks : List BlockRec}
    {out : Spill} (hscan : scanTarget env base target = some (segs, lit, polls))
    (hok : lit.ok = true)
    (hpack : packBlocks z env (effectiveBlockSize blockSize) lit.data lit.data.length 0 polls []
      Spill.empty = some (blocks, out)) :
    generateDelta z env base target blockSize
      = (deltaFileOf base target blockSize segs blocks out.data).encode z := by
  simp only [generateDelta, henv.litOpen, henv.litClose, henv.litIn, henv.cmpOpen, henv.cmpClose,
    henv.cmpIn, henv.cmpRead, hscan, hok, hpack, henv.zCompress_eq]
  rw [gcount_none _ _ le_rfl]
  simp only [ne_eq, not_true_eq_false, Bool.true_eq_false, or_self, if_false]
  rfl

/-- **What a faultless generation returns**: a file whose segments rebuild the target from the base
and the literals, and whose region holds the frames of the literals. -/
theorem generateDelta_eq {z : Zstd} {env : GenEnv} (henv : env.Faultless) {base target : Bytes}
    {blockSize : UInt32} (hfits : FitsIn32 z env base target blockSize) :
    ∃ segs lit blocks out,
      generateDelta z env base target blockSize
        = (deltaFileOf base target blockSize segs blocks out).encode z ∧
      Rebuilds base target target.length segs lit ∧ segs.length < 2 ^ 32 ∧
      blocks.length < 2 ^ 32 ∧
      (∀ k b, blocks[k]? = some b →
        FramedIn z (effectiveBlockSize blockSize) lit.data out k b) ∧
      lit.data.length ≤ blocks.length * effectiveBlockSize blockSize := by
  obtain ⟨segs, lit, polls, hscan, hreb⟩ := scanTarget_rebuilds henv base target
  obtain ⟨hsegs, hclen, hblocks⟩ := hfits segs lit polls hscan
  obtain ⟨blocks, out, hpack, hfr, hcov⟩ := packBlocks_framed henv
    (effectiveBlockSize_pos blockSize).1 hclen lit.data.length polls [] Spill.empty rfl
    (by simp) (by simp)
  rw [List.length_nil, Nat.zero_mul] at hpack
  exact ⟨segs, lit, blocks, out.data, generateDelta_encode henv hscan hreb.ok hpack, hreb, hsegs,
    hblocks blocks out hpack, hfr, hcov⟩

/-- A source that holds exactly the bytes `base`: a plain one that delivers them, or a sound reader
of fewer than `2 ^ 24` delta files whose map stands for them. -/
def Source.Holds (z : Zstd) (src : Source) (base : Bytes) : Prop :=
  match src with
  | .plain src => src.Delivers base
  | .delta bd => bd.addSources.length < 2 ^ 24 ∧
      ∃ under lits, bd.Sound z under lits ∧ mapBytes under lits bd.segs = base

/-- The reader is sound, and its map stands for the bytes `content`. -/
def DeltaByteSource.StandsFor (z : Zstd) (D : DeltaByteSource) (content : Bytes) : Prop :=
  ∃ under lits, D.Sound z under lits ∧ mapBytes under lits D.segs = content

theorem DeltaByteSource.StandsFor.preads_eq {z : Zstd} {D : DeltaByteSource} {content : Bytes}
    (h : D.StandsFor z content) (reads : List (ℕ × ℕ)) (t : ℕ) : ∃ st',
      D.preads z reads ⟨t, [], []⟩ = (.ok (reads.map fun r => slice content r.2 r.1), st') := by
  obtain ⟨under, lits, hsound, rfl⟩ := h
  obtain ⟨st', hst', _⟩ := DeltaByteSource.preads_eq hsound reads (cacheOk_nil _ _ t)
  exact ⟨st', hst'⟩

/-- Applying a parsed delta to a plain base. -/
theorem create_over_plain {z : Zstd} {delta src : ByteSource} {P : Parsed} {io io' : Io}
    {segs : List FlatSeg} {size : ℕ} (hparse : parseDelta z delta io = (.ok P, io'))
    (hbase : src.size = P.baseSize) (hsize : P.targetSize = size)
    (hplace : placeSegs 0 (P.segs.map fun s => ⟨0, s.len, s.srcOff, 0, s.kind⟩) = (segs, size)) :
    create z delta (some (.plain src)) false io = (.ok ⟨src, [P.add], segs, size⟩, io') := by
  have hsame : ¬ (Source.plain src).size ≠ P.baseSize := not_not.2 hbase
  rw [create, Prog.bind_of_ok hparse]
  dsimp only
  rw [if_neg hsame, if_neg Bool.false_ne_true, finish, hplace, hsize]
  dsimp only
  rw [if_neg (not_not.2 rfl)]
  rfl

/-- Applying a parsed delta to the reader of another. -/
theorem create_over_delta {z : Zstd} {delta : ByteSource} {bd : DeltaByteSource} {P : Parsed}
    {io io' : Io} {composed segs : List FlatSeg} {size : ℕ}
    (hparse : parseDelta z delta io = (.ok P, io')) (hbase : bd.targetSize = P.baseSize)
    (hsize : P.targetSize = size)
    (hcompose : composeSegs bd.segs (bd.addSources.length % 2 ^ 32) P.segs = .ok composed)
    (hplace : placeSegs 0 composed = (segs, size)) :
    create z delta (some (.delta bd)) false io
      = (.ok ⟨bd.baseSrc, bd.addSources ++ [P.add], segs, size⟩, io') := by
  have hsame : ¬ (Source.delta bd).size ≠ P.baseSize := not_not.2 hbase
  rw [create, Prog.bind_of_ok hparse]
  dsimp only
  rw [if_neg hsame, hcompose]
  dsimp only
  rw [finish, hplace, hsize]
  dsimp only
  rw [if_neg (not_not.2 rfl)]
  rfl

/-- **Applying a parsed delta to a base that holds its bytes**: the reader stands for the bytes the
delta says, whatever the base is. -/
theorem create_stands {z : Zstd} {delta : ByteSource} {P : Parsed} {base lit : Bytes} {io io₁ : Io}
    (hparse : parseDelta z delta io = (.ok P, io₁)) {src : Source} (hsrc : src.Holds z base)
    (hP : P.InRange base.length lit.length) (hadd : P.add.Holds z lit) (verifyBase : Bool)
    (hverify : verifyBase = true →
      P.baseHash = (fnv1a64 base).toNat ∧ base.length < 2 ^ 63) :
    ∃ (D : DeltaByteSource) (io' : Io),
      create z delta (some src) verifyBase io = (.ok D, io') ∧ D.targetSize = P.targetSize ∧
        D.addSources.length = src.adds.length + 1 ∧
        D.StandsFor z (rawBytes base lit P.segs) := by
  cases src with
  | plain src =>
      obtain ⟨D, io', hD, hsound, hsize, _, hadds, hbytes⟩ :=
        create_plain hparse hsrc hP hadd verifyBase hverify
      exact ⟨D, io', hD, hsize, by rw [hadds]; rfl, base, [lit], hsound, hbytes⟩
  | delta bd =>
      obtain ⟨hn, under, lits, hbd, hmap⟩ := hsrc
      have hlen : bd.targetSize = base.length := by rw [← hbd.length_content, hmap]
      obtain ⟨D, io', hD, hsound, hsize, _, hadds, hbytes⟩ :=
        create_delta hparse hbd hn (hlen ▸ hP) hadd verifyBase
      refine ⟨D, io', hD, hsize, ?_, under, lits ++ [lit], hsound, ?_⟩
      · rw [hadds, List.length_append]
        rfl
      · rw [hbytes, hmap]

/-- The blocks of a generated file hold its literals. -/
theorem holds_of_framed {z : Zstd} (hz : z.RoundTrips) {f : DeltaFile} (hf : f.Fits) {lit : Bytes}
    (hlit : lit.length < 2 ^ 64) (hcov : lit.length ≤ f.blocks.length * f.blockSize)
    (hfr : ∀ k b, f.blocks[k]? = some b → FramedIn z f.blockSize lit f.region k b)
    {delta : ByteSource} (hdelta : delta.Delivers (f.encode z))
    (hmax : (f.encode z).length < 2 ^ 63) : (f.parsed z delta).add.Holds z lit := by
  have hlen := f.length_encode z
  refine ⟨hf.blockSize_pos, hf.blocks_lt, hlit, hcov, ?_⟩
  intro k b hb
  have hk := hfr k b hb
  have hin := hk.inside
  have hadd : add64 (f.regionOff z) b.compOff = f.regionOff z + b.compOff := add64_eq (by omega)
  refine ⟨hk.uncompLen_eq, f.encode z, hdelta, ?_, ?_⟩
  · simp only [DeltaFile.parsed, hadd]
    omega
  · simp only [DeltaFile.parsed, hadd]
    rw [f.slice_region, hk.frame, hk.uncompLen_eq, zDecompress_compress hz]

/-- **A generated delta applies to its base**: when nothing fails during the generation and the
counts fit in their fields, the reader over any source that holds the base stands for the target. -/
theorem generateDelta_applies {z : Zstd} (hz : z.RoundTrips) {env : GenEnv} (henv : env.Faultless)
    {base target : Bytes} (hbase : base.length < 2 ^ 63) (htarget : target.length < 2 ^ 63)
    {blockSize : UInt32} (hfits : FitsIn32 z env base target blockSize)
    (hlen : (generateDelta z env base target blockSize).length < 2 ^ 63) :
    generateDelta z env base target blockSize ≠ [] ∧
      ∀ (delta : ByteSource), delta.Delivers (generateDelta z env base target blockSize) →
        ∀ (src : Source), src.Holds z base → ∀ (verifyBase : Bool) (io : Io),
          ∃ (D : DeltaByteSource) (io' : Io),
            create z delta (some src) verifyBase io = (.ok D, io') ∧
              D.targetSize = target.length ∧ D.addSources.length = src.adds.length + 1 ∧
              D.StandsFor z target := by
  obtain ⟨segs, lit, blocks, out, hgen, hreb, hsegs, hblocks, hfr, hcov⟩ :=
    generateDelta_eq henv hfits
  rw [hgen] at hlen ⊢
  have hencode := (deltaFileOf base target blockSize segs blocks out).length_encode z
  have hlitLe := hreb.lit_le
  have hrawLen : (segs.map RawSeg.len).sum = target.length := by
    rw [← length_rawBytes hreb.inRange, hreb.rebuilt, List.take_length]
  obtain ⟨hbsPos, hbsLt⟩ := effectiveBlockSize_pos blockSize
  have hfile : (deltaFileOf base target blockSize segs blocks out).Fits := by
    refine ⟨hbsPos, hbsLt, ?_, ?_, (fnv1a64 base).toNat_lt, hsegs, hblocks, ?_, ?_, hrawLen⟩
    · simp only [deltaFileOf]
      omega
    · simp only [deltaFileOf]
      omega
    · intro s hs
      have hle : s.len ≤ (segs.map RawSeg.len).sum := List.le_sum_of_mem (List.mem_map_of_mem hs)
      obtain ⟨_, ⟨_, hin⟩ | ⟨_, hin⟩⟩ := hreb.inRange s hs <;> constructor <;> omega
    · intro b hb
      obtain ⟨k, hk⟩ := List.getElem?_of_mem hb
      have hkf := hfr k b hk
      have hin := hkf.inside
      have hout : out.length
      ≤ ((deltaFileOf base target blockSize segs blocks out).encode z).length := by
        rw [hencode]
        exact Nat.le_add_left _ _
      have hulen := hkf.uncompLen_eq
      rw [length_slice] at hulen
      exact ⟨by omega, hkf.compLen_lt, by omega⟩
  refine ⟨?_, ?_⟩
  · apply List.ne_nil_of_length_pos
    rw [hencode, DeltaFile.regionOff]
    omega
  · intro delta hdelta src hsrc verifyBase io
    obtain ⟨io₁, hparse⟩ := parseDelta_encode hz hfile hdelta hlen io
    have hholds := holds_of_framed hz hfile (by omega) hcov hfr hdelta hlen
    have hrange : ((deltaFileOf base target blockSize segs blocks out).parsed z delta).InRange
        base.length lit.data.length := ⟨rfl, hreb.inRange, hrawLen, by
          simp only [DeltaFile.parsed, deltaFileOf]
          omega⟩
    have hraw : rawBytes base lit.data segs = target := by rw [hreb.rebuilt, List.take_length]
    rw [← hraw]
    obtain ⟨D, io', hD, hsize, hadds, hstands⟩ := create_stands hparse hsrc hrange hholds
      verifyBase fun _ => ⟨rfl, hbase⟩
    exact ⟨D, io', hD, hsize.trans (congrArg List.length hraw).symm, hadds, hstands⟩

/-- **A delta applied to its base reads as its target.**  When nothing fails during the generation
and the counts fit in their fields, the delta is not empty, it composes over every source that holds
the base, the source has the size of the target, and every read of it returns the bytes of the
target it asks for, as many of them as there are. -/
theorem generateDelta_roundTrip {z : Zstd} (hz : z.RoundTrips) {env : GenEnv}
    (henv : env.Faultless) {base target : Bytes} (hbase : base.length < 2 ^ 63)
    (htarget : target.length < 2 ^ 63) {blockSize : UInt32}
    (hfits : FitsIn32 z env base target blockSize)
    (hlen : (generateDelta z env base target blockSize).length < 2 ^ 63) :
    generateDelta z env base target blockSize ≠ [] ∧
      ∀ (delta : ByteSource), delta.Delivers (generateDelta z env base target blockSize) →
        ∀ (src : Source), src.Holds z base → ∀ (verifyBase : Bool) (io : Io),
          ∃ (D : DeltaByteSource) (io' : Io),
            create z delta (some src) verifyBase io = (.ok D, io') ∧
              D.targetSize = target.length ∧
              ∀ (reads : List (ℕ × ℕ)) (t : ℕ), ∃ st', D.preads z reads ⟨t, [], []⟩
                = (.ok (reads.map fun r => slice target r.2 r.1), st') := by
  obtain ⟨hne, happlies⟩ := generateDelta_applies hz henv hbase htarget hfits hlen
  refine ⟨hne, fun delta hdelta src hsrc verifyBase io => ?_⟩
  obtain ⟨D, io', hD, hsize, _, hstands⟩ := happlies delta hdelta src hsrc verifyBase io
  exact ⟨D, io', hD, hsize, hstands.preads_eq⟩

/-! ### A generation with a literal and a COPY -/

/-- The segment table of the generation below: one literal byte, then a whole window. -/
def oneByteTable : Bytes := [(⟨KIND_ADD, 1, 0⟩ : RawSeg), ⟨KIND_COPY, 256, 0⟩].flatMap RawSeg.encode

/-- The frame of that table at the level of the deltas. -/
def oneByteTableFrame : Bytes :=
  [40, 181, 47, 253, 32, 34, 109, 0, 0, 40, 1, 1, 0, 1, 0, 2, 0, 224, 192, 8, 24, 2]

/-- A frame of one raw block, which is what a buffer too short to shrink becomes. -/
def storedFrame (x : Bytes) : Bytes :=
  [40, 181, 47, 253, 32] ++ leBytes 1 x.length ++ leBytes 3 (8 * x.length + 1) ++ x

/-- A compressor that stores everything but that one table. -/
def storingZstd : Zstd where
  compress x _ := if x = oneByteTable then oneByteTableFrame else storedFrame x
  decompress frame cap :=
    if frame = oneByteTableFrame then some oneByteTable
    else if (frame.drop 9).length ≤ cap then some (frame.drop 9) else none

/-- Its block is raw, which the three lowest bits of the block's header say. -/
theorem storedFrame_ne (x : Bytes) {frame : Bytes}
    (h : (frame[6]?).map (fun b => b.toNat % 8) ≠ some 1) : storedFrame x ≠ frame := by
  rintro rfl
  refine h ?_
  simp only [storedFrame, leBytes, List.cons_append, List.nil_append, List.getElem?_cons_succ,
    List.getElem?_cons_zero, Option.map_some, Option.some.injEq]
  rw [UInt8.toNat_ofNat']
  omega

/-- A compressor that packs the given buffers into the given frames and stores everything else. -/
def packingZstd (packed : List (Bytes × Bytes)) : Zstd where
  compress x _ := (packed.lookup x).getD (storedFrame x)
  decompress frame cap :=
    match packed.find? fun e => e.2 = frame with
    | some e => if e.1.length ≤ cap then some e.1 else none
    | none => if (frame.drop 9).length ≤ cap then some (frame.drop 9) else none

theorem packingZstd_roundTrips {packed : List (Bytes × Bytes)}
    (hraw : ∀ e ∈ packed, (e.2[6]?).map (fun b => b.toNat % 8) ≠ some 1)
    (hinj : ∀ e ∈ packed, ∀ e' ∈ packed, e.2 = e'.2 → e.1 = e'.1) :
    (packingZstd packed).RoundTrips := by
  intro x level
  dsimp only [packingZstd]
  cases hx : packed.lookup x with
  | some frame =>
      have hmem : (x, frame) ∈ packed := by
        obtain ⟨l₁, l₂, rfl, _⟩ := List.lookup_eq_some_iff.1 hx
        simp
      rw [Option.getD_some]
      cases hfind : packed.find? fun e => e.2 = frame with
      | none =>
          have hne := List.find?_eq_none.1 hfind _ hmem
          simp at hne
      | some e =>
          have he : e.2 = frame := by simpa using List.find?_some hfind
          obtain rfl : e.1 = x := hinj e (List.mem_of_find?_eq_some hfind) _ hmem he
          exact if_pos le_rfl
  | none =>
      have hfind : (packed.find? fun e => e.2 = storedFrame x) = none := by
        refine List.find?_eq_none.2 fun e he hc => ?_
        exact storedFrame_ne x (hraw e he) (by simpa using hc : e.2 = storedFrame x).symm
      have hdrop : (storedFrame x).drop 9 = x := by simp [storedFrame, leBytes]
      rw [Option.getD_none, hfind]
      dsimp only
      rw [hdrop]
      exact if_pos le_rfl

theorem storingZstd_roundTrips : storingZstd.RoundTrips := by
  intro x level
  by_cases hx : x = oneByteTable
  · simp [storingZstd, hx]
  · have hdrop : (storedFrame x).drop 9 = x := by
      simp [storedFrame, leBytes]
    have hne : storedFrame x ≠ oneByteTableFrame := storedFrame_ne x (by decide)
    simp only [storingZstd, if_neg hx, if_neg hne, hdrop, le_refl, if_true]

/-- Calls that all succeed, and no callback. -/
def quietEnv : GenEnv where
  litOpen := true
  litWrite _ := none
  litClose := true
  litIn := true
  litRead _ := none
  cmpOpen := true
  cmpWrite _ := none
  cmpClose := true
  cmpIn := true
  cmpRead := none
  zFails _ := false
  progress := none

theorem quietEnv_faultless : quietEnv.Faultless := by
  constructor <;> simp [quietEnv]

section Turns

variable {base target : Bytes} {index : List (UInt64 × ℕ)} {st : Scan}

/-- Where no window is left the scan has ended. -/
theorem scanLoop_end (fuel : ℕ) (hp : target.length < st.p + ANCHOR) :
    scanLoop quietEnv base target index fuel st = some st := by
  cases fuel with
  | zero => rfl
  | succ fuel => rw [scanLoop, if_pos hp]

/-- A turn that finds no match. -/
theorem scanLoop_roll {k p litStart polls : ℕ} {h g : UInt64} {segs : List RawSeg} {lit : Spill}
    (hp : p + ANCHOR ≤ target.length)
    (hm : findMatch base target index ⟨p, litStart, h, 0, polls, segs, lit⟩ = none)
    (hh : (Scan.roll target ⟨p, litStart, h, 0, polls, segs, lit⟩).h = g) :
    scanLoop quietEnv base target index (k + 1) ⟨p, litStart, h, 0, polls, segs, lit⟩
      = scanLoop quietEnv base target index k ⟨p + 1, litStart, g, 0, polls, segs, lit⟩ := by
  have hturn : scanTurn quietEnv base target index ⟨p, litStart, h, 0, polls, segs, lit⟩
      = ⟨p + 1, litStart, g, 0, polls, segs, lit⟩ := by
    rw [scanTurn, hm, ← hh]
    rfl
  rw [scanLoop, if_neg (by dsimp only; omega), ← hturn]
  rfl

/-- A turn that finds a match. -/
theorem scanLoop_match {k p o n b polls : ℕ} {h g : UInt64} {segs : List RawSeg} {lit : Spill}
    {litStart : ℕ} {r : List RawSeg} {l : Spill} (hp : p + ANCHOR ≤ target.length)
    (hm : findMatch base target index ⟨p, litStart, h, 0, polls, segs, lit⟩ = some o)
    (hlen : extendLen base target o p base.length ANCHOR = n)
    (hback : extendBack base target litStart o p o 0 = b)
    (hadd : emitAdd quietEnv target litStart (p - b) segs lit = (r, l))
    (hh : (if p + n + ANCHOR ≤ target.length then hashWin (target.drop (p + n)) else h) = g) :
    scanLoop quietEnv base target index (k + 1) ⟨p, litStart, h, 0, polls, segs, lit⟩
      = scanLoop quietEnv base target index k ⟨p + n, p + n, g, 0, polls,
          r ++ [⟨KIND_COPY, n + b, o - b⟩], l⟩ := by
  have hturn : scanTurn quietEnv base target index ⟨p, litStart, h, 0, polls, segs, lit⟩
      = ⟨p + n, p + n, g, 0, polls, r ++ [⟨KIND_COPY, n + b, o - b⟩],
          l⟩ := by
    rw [scanTurn, hm]
    dsimp only
    rw [Scan.copy, hlen, hback]
    dsimp only
    rw [hadd, hh]
  rw [scanLoop, if_neg (by dsimp only; omega), ← hturn]
  rfl

end Turns

/-- **From a version to itself** all is one COPY. -/
theorem scanTarget_self {v : Bytes} (h : ANCHOR ≤ v.length) :
    scanTarget quietEnv v v = some ([⟨KIND_COPY, v.length, 0⟩], Spill.empty, 0) := by
  have hA : ANCHOR = 256 := rfl
  have hindex : anchorIndex v = (hashWin v, 0) :: (anchorIndex v).tail := by
    have hpos : 0 < v.length / ANCHOR := Nat.div_pos h (by decide)
    obtain ⟨n, hn⟩ := Nat.exists_eq_succ_of_ne_zero hpos.ne'
    rw [anchorIndex, hn, List.range_succ_eq_map, List.map_cons, List.tail_cons, Nat.zero_mul,
      List.drop_zero]
  have hm : findMatch v v (anchorIndex v) ⟨0, 0, hashWin v, 0, 0, [], Spill.empty⟩ = some 0 := by
    rw [findMatch, hindex]
    dsimp only
    rw [List.lookup_cons_self]
    dsimp only
    rw [if_pos ⟨by omega, rfl⟩]
  have hlen : extendLen v v 0 0 v.length ANCHOR = v.length :=
    extendLen_eq rfl (by omega) (by omega) (by omega) _ _ h (by omega)
  have hloop : scanLoop quietEnv v v (anchorIndex v) v.length
      ⟨0, 0, hashWin v, 0, 0, [], Spill.empty⟩
        = some ⟨v.length, v.length, hashWin v, 0, 0, [⟨KIND_COPY, v.length, 0⟩], Spill.empty⟩ := by
    obtain ⟨n, hn⟩ := Nat.exists_eq_succ_of_ne_zero (show v.length ≠ 0 by omega)
    have hturn : scanLoop quietEnv v v (anchorIndex v) (n + 1)
        ⟨0, 0, hashWin v, 0, 0, [], Spill.empty⟩ = scanLoop quietEnv v v (anchorIndex v) n
          ⟨0 + v.length, 0 + v.length, hashWin v, 0, 0, [⟨KIND_COPY, v.length, 0⟩], Spill.empty⟩ :=
      scanLoop_match (by omega) hm hlen rfl rfl (if_neg (by omega))
    rw [← Nat.succ_eq_add_one, ← hn, scanLoop_end n (by dsimp only; omega), Nat.zero_add] at hturn
    exact hturn
  rw [scanTarget, hloop]
  dsimp only
  rw [emitAdd, if_pos le_rfl]

/-- A base of one window. -/
def windowBase : Bytes := List.replicate 256 7

/-- That window after one byte that the base does not have. -/
def windowTarget : Bytes := 1 :: List.replicate 256 7

/-- The delta between the two. -/
def windowDelta : Bytes := generateDelta storingZstd quietEnv windowBase windowTarget 0

theorem windowDelta_length : windowDelta.length < 2 ^ 63 := by decide +kernel

theorem windowBase_length : windowBase.length < 2 ^ 63 := by decide +kernel

theorem window_scanTarget : scanTarget quietEnv windowBase windowTarget
    = some ([⟨KIND_ADD, 1, 0⟩, ⟨KIND_COPY, 256, 0⟩], ⟨[1], 1, true⟩, 0) := by decide +kernel

theorem window_packBlocks : packBlocks storingZstd quietEnv (effectiveBlockSize 0) [1] 1 0 0 []
    Spill.empty = some ([⟨0, 10, 1⟩], ⟨storedFrame [1], 1, true⟩) := by decide +kernel

theorem window_fits : FitsIn32 storingZstd quietEnv windowBase windowTarget 0 :=
  fitsIn32_of window_scanTarget window_packBlocks (by decide) (by decide) (by decide) (by decide)

/-- The delta of the window is applied to its base, checked against the hash, and read. -/
theorem windowDelta_roundTrip :
    windowDelta ≠ [] ∧ ∃ (D : DeltaByteSource) (io' : Io) (st' : ReadState),
      create storingZstd (memByteSource windowDelta (windowDelta_length.trans (by decide)))
          (some (.plain (memByteSource windowBase (windowBase_length.trans (by decide))))) true
          ⟨0, []⟩ = (.ok D, io') ∧
        D.targetSize = 257 ∧
        D.preads storingZstd [(4, 0), (10, 250)] ⟨0, [], []⟩
          = (.ok [[1, 7, 7, 7], [7, 7, 7, 7, 7, 7, 7]], st') := by
  obtain ⟨hne, hall⟩ := generateDelta_roundTrip storingZstd_roundTrips quietEnv_faultless
    windowBase_length (by decide +kernel : windowTarget.length < 2 ^ 63) window_fits windowDelta_length
  obtain ⟨D, io', hD, hsize, hreads⟩ := hall _ (memByteSource_delivers windowDelta _)
    (.plain _) (memByteSource_delivers windowBase (windowBase_length.trans (by decide))) true
    ⟨0, []⟩
  obtain ⟨st', hst'⟩ := hreads [(4, 0), (10, 250)] 0
  have hslices : [(4, 0), (10, 250)].map (fun r => slice windowTarget r.2 r.1)
      = [[1, 7, 7, 7], [7, 7, 7, 7, 7, 7, 7]] := by decide +kernel
  exact ⟨hne, D, io', st', hD, hsize.trans (by decide +kernel), hslices ▸ hst'⟩

end VidyaGodFS
