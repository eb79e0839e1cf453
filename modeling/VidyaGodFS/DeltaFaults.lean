/-
**What becomes of a generation in which a call fails.**

`generateDelta` looks at what its scratch files and its callback answer, and returns the empty byte
string when one of them fails.  At the compressor it does not look: a compression that fails yields
an empty vector, which is written out as if it were a frame, and the generation goes on.

Main definitions:

* `GenFault`, `Loud` — a call that failed, and that a failure other than the compressor's is among them;
* `scanFaults`, `packFaults`, `generateFaults` — the calls that fail in the course of a generation;
* `GenEnv.mended` — the same environment where nothing fails;
* `CountsFit` — the numbers of segments and of blocks fit in their fields;
* `RebuildsTarget` — a delta that composes over its base and stands for its target;
* `NeverFalse` — a failed generation returns nothing, and what is returned rebuilds the target.

Main results:

* `generateDelta_nil_iff` — **what makes a generation return nothing**;
* `generateDelta_mended` — without a failure, a generation is one where nothing can fail;
* `neverFalse_iff` — **when a failed generation never looks like a delta**.
-/

import VidyaGodFS.DeltaMatch
import VidyaGodFS.DeltaRefuse

set_option relaxedAutoImplicit false
set_option autoImplicit false

namespace VidyaGodFS

/-! ### The calls that fail -/

/-- A call that failed: a scratch file that was not opened, not closed, not written in full or not
read back in full, a compression, or a callback that asked to stop. -/
inductive GenFault
  | openFailed
  | closeFailed
  | writeFailed
  | readShort
  | compressFailed
  | cancelled
  deriving DecidableEq, Repr

/-- A call other than a compression failed. -/
def Loud (l : List GenFault) : Prop := ∃ f ∈ l, f ≠ .compressFailed

@[simp] theorem loud_nil : ¬ Loud [] := by simp [Loud]

@[simp] theorem loud_singleton (f : GenFault) : Loud [f] ↔ f ≠ .compressFailed := by simp [Loud]

@[simp] theorem loud_append (l l' : List GenFault) : Loud (l ++ l') ↔ Loud l ∨ Loud l' := by
  simp only [Loud, List.mem_append]
  constructor
  · rintro ⟨f, hf | hf, hne⟩
    · exact Or.inl ⟨f, hf, hne⟩
    · exact Or.inr ⟨f, hf, hne⟩
  · rintro (⟨f, hf, hne⟩ | ⟨f, hf, hne⟩)
    · exact ⟨f, Or.inl hf, hne⟩
    · exact ⟨f, Or.inr hf, hne⟩

/-- The write of literals from `lo` to `hi`, if there are any. -/
def emitFaults (env : GenEnv) (lo hi : ℕ) (lit : Spill) : List GenFault :=
  if hi ≤ lo then [] else if (env.litWrite lit.writes).isSome then [.writeFailed] else []

/-- One turn of the scan. -/
def turnFaults (env : GenEnv) (base target : Bytes) (index : List (UInt64 × ℕ)) (st : Scan) :
    List GenFault :=
  match findMatch base target index st with
  | none => []
  | some o =>
      emitFaults env st.litStart (st.p - extendBack base target st.litStart o st.p o 0) st.lit

/-- The scan, up to its end or to the callback that stops it. -/
def scanFaults (env : GenEnv) (base target : Bytes) (index : List (UInt64 × ℕ)) :
    ℕ → Scan → List GenFault
  | 0, _ => []
  | fuel + 1, st =>
      if target.length < st.p + ANCHOR then [] else
        match st.pollDue env target with
        | none => [.cancelled]
        | some st =>
            turnFaults env base target index st ++
              scanFaults env base target index fuel (scanTurn env base target index st)

/-- The scan of a whole target, and the write of the literals after it. -/
def scanTargetFaults (env : GenEnv) (base target : Bytes) : List GenFault :=
  let start : Scan := ⟨0, 0, hashWin target, 0, 0, [], Spill.empty⟩
  scanFaults env base target (anchorIndex base) target.length start ++
    match scanLoop env base target (anchorIndex base) target.length start with
    | none => []
    | some st => emitFaults env st.litStart target.length st.lit

/-- The compression number `k`. -/
def zFaults (env : GenEnv) (k : ℕ) : List GenFault := if env.zFails k then [.compressFailed] else []

/-- The packing of the literals, up to its end or to the failure that stops it. -/
def packFaults (z : Zstd) (env : GenEnv) (blockSize : ℕ) (lit : Bytes) :
    ℕ → ℕ → ℕ → List BlockRec → Spill → List GenFault
  | 0, _, _, _, _ => []
  | fuel + 1, o, polls, blocks, out =>
      if lit.length ≤ o then [] else
        match env.poll polls 1 o lit.length with
        | none => [.cancelled]
        | some polls =>
            let ul := min blockSize (lit.length - o)
            if gcount (env.litRead blocks.length) ul (lit.length - o) ≠ ul then [.readShort] else
              let c := env.zCompress z blocks.length (slice lit o ul)
              let next := out.write env.cmpWrite c
              zFaults env blocks.length ++
                if (env.cmpWrite out.writes).isSome then [.writeFailed] else
                  packFaults z env blockSize lit fuel (o + blockSize) polls
                    (blocks ++ [⟨out.data.length, c.length % 2 ^ 32, ul⟩]) next

/-- **The calls that fail in the course of a generation**, in their order. -/
def generateFaults (z : Zstd) (env : GenEnv) (base target : Bytes) (blockSize : UInt32) :
    List GenFault :=
  if env.litOpen = false then [.openFailed] else
    scanTargetFaults env base target ++
    match scanTarget env base target with
    | none => []
    | some (_, lit, polls) =>
        (if env.litClose = false then [.closeFailed] else []) ++
        if env.litClose = false ∨ lit.ok = false then [] else
        if env.litIn = false ∨ env.cmpOpen = false then [.openFailed] else
          packFaults z env (effectiveBlockSize blockSize) lit.data lit.data.length 0 polls []
            Spill.empty ++
          match packBlocks z env (effectiveBlockSize blockSize) lit.data lit.data.length 0 polls []
              Spill.empty with
          | none => []
          | some (blocks, out) =>
              if env.cmpClose = false then [.closeFailed] else
                zFaults env blocks.length ++ (zFaults env (blocks.length + 1) ++
                  if env.cmpIn = false then [.openFailed] else
                  if gcount env.cmpRead out.data.length out.data.length ≠ out.data.length then
                    [.readShort]
                  else [])

/-! ### What makes a generation return nothing -/

section Nil

variable {env : GenEnv} {base target : Bytes} {index : List (UInt64 × ℕ)}

@[simp] theorem not_loud_zFaults (k : ℕ) : ¬ Loud (zFaults env k) := by
  rw [zFaults]
  split <;> simp

/-- A scratch file that a write failed on says so ever after. -/
theorem Spill.write_ok (fails : ℕ → Option ℕ) (s : Spill) (bs : Bytes) :
    (s.write fails bs).ok = (s.ok && (fails s.writes).isNone) := by
  rw [Spill.write]
  cases fails s.writes <;> simp

/-- So do the literals, after those between two offsets are written. -/
theorem emitAdd_ok (lo hi : ℕ) (segs : List RawSeg) (lit : Spill) :
    (emitAdd env target lo hi segs lit).2.ok = false ↔
      lit.ok = false ∨ Loud (emitFaults env lo hi lit) := by
  rw [emitAdd, emitFaults]
  by_cases hle : hi ≤ lo
  · simp [hle]
  · rw [if_neg hle, if_neg hle, Spill.write_ok]
    cases env.litWrite lit.writes <;> simp

/-- And after a turn of the scan. -/
theorem scanTurn_ok (st : Scan) :
    (scanTurn env base target index st).lit.ok = false ↔
      st.lit.ok = false ∨ Loud (turnFaults env base target index st) := by
  rw [scanTurn, turnFaults]
  cases findMatch base target index st with
  | none => simp [Scan.roll]
  | some o => exact emitAdd_ok _ _ _ _

/-- A poll that is passed leaves the literals alone. -/
theorem pollDue_lit {st st' : Scan} (h : st.pollDue env target = some st') : st'.lit = st.lit := by
  obtain ⟨polls, nextPoll, rfl⟩ := pollDue_some h
  rfl

/-- **The scan** is stopped only by the callback; else its literals say whether a write failed. -/
theorem scanLoop_loud : ∀ (fuel : ℕ) (st : Scan),
    match scanLoop env base target index fuel st with
    | none => Loud (scanFaults env base target index fuel st)
    | some st' => st'.lit.ok = false ↔
        st.lit.ok = false ∨ Loud (scanFaults env base target index fuel st) := by
  intro fuel
  induction fuel with
  | zero => intro st; simp [scanLoop, scanFaults]
  | succ fuel ih =>
      intro st
      rw [scanLoop, scanFaults]
      by_cases hend : target.length < st.p + ANCHOR
      · simp [hend]
      rw [if_neg hend, if_neg hend]
      cases hpoll : st.pollDue env target with
      | none => simp
      | some st₁ =>
          dsimp only
          have hrest := ih (scanTurn env base target index st₁)
          cases hloop : scanLoop env base target index fuel (scanTurn env base target index st₁) with
          | none =>
              rw [hloop] at hrest
              exact (loud_append _ _).2 (Or.inr hrest)
          | some st' =>
              rw [hloop] at hrest
              dsimp only at hrest ⊢
              rw [hrest, scanTurn_ok, pollDue_lit hpoll, loud_append, or_assoc]

/-- The scan of a whole target. -/
theorem scanTarget_loud (env : GenEnv) (base target : Bytes) :
    match scanTarget env base target with
    | none => Loud (scanTargetFaults env base target)
    | some (_, lit, _) => lit.ok = false ↔ Loud (scanTargetFaults env base target) := by
  have hloop := @scanLoop_loud env base target (anchorIndex base) target.length
    ⟨0, 0, hashWin target, 0, 0, [], Spill.empty⟩
  rw [scanTarget, scanTargetFaults]
  dsimp only
  cases hscan : scanLoop env base target (anchorIndex base) target.length
      ⟨0, 0, hashWin target, 0, 0, [], Spill.empty⟩ with
  | none =>
      rw [hscan] at hloop
      exact (loud_append _ _).2 (Or.inl hloop)
  | some st =>
      rw [hscan] at hloop
      dsimp only at hloop ⊢
      rw [emitAdd_ok, hloop, loud_append]
      simp [Spill.empty]

/-- **The packing** is stopped by any failure but a compression. -/
theorem packBlocks_loud (z : Zstd) (env : GenEnv) (blockSize : ℕ) (lit : Bytes) :
    ∀ (fuel o polls : ℕ) (blocks : List BlockRec) (out : Spill), out.ok = true →
      (packBlocks z env blockSize lit fuel o polls blocks out = none ↔
        Loud (packFaults z env blockSize lit fuel o polls blocks out)) := by
  intro fuel
  induction fuel with
  | zero => intro o polls blocks out _; simp [packBlocks, packFaults]
  | succ fuel ih =>
      intro o polls blocks out hok
      rw [packBlocks, packFaults]
      by_cases hend : lit.length ≤ o
      · simp [hend]
      rw [if_neg hend, if_neg hend]
      cases env.poll polls 1 o lit.length with
      | none => simp
      | some polls' =>
          dsimp only
          by_cases hread : gcount (env.litRead blocks.length) (min blockSize (lit.length - o))
              (lit.length - o) ≠ min blockSize (lit.length - o)
          · simp [hread]
          rw [if_neg hread, if_neg hread, Spill.write_ok, hok, Bool.true_and]
          cases hwrite : env.cmpWrite out.writes with
          | some k => simp
          | none =>
              have hnext : (out.write env.cmpWrite (env.zCompress z blocks.length
                  (slice lit o (min blockSize (lit.length - o))))).ok = true := by
                rw [Spill.write_ok, hok, hwrite]
                rfl
              rw [loud_append]
              simpa using ih _ polls' _ _ hnext

/-- **What makes a generation return nothing**: a call that fails, other than a compression. -/
theorem generateDelta_nil_iff (z : Zstd) (env : GenEnv) (base target : Bytes) (blockSize : UInt32) :
    generateDelta z env base target blockSize = [] ↔
      Loud (generateFaults z env base target blockSize) := by
  have hscan := scanTarget_loud env base target
  rw [generateDelta, generateFaults]
  dsimp only
  by_cases hopen : env.litOpen = false
  · simp [hopen]
  rw [if_neg hopen, if_neg hopen, loud_append]
  rcases htarget : scanTarget env base target with _ | ⟨segs, lit, polls⟩
  · rw [htarget] at hscan
    simpa using hscan
  rw [htarget] at hscan
  dsimp only at hscan ⊢
  rw [← hscan, loud_append]
  by_cases hclose : env.litClose = false
  · simp [hclose]
  by_cases hlit : lit.ok = false
  · simp [hlit]
  have hspilled : ¬ (env.litClose = false ∨ lit.ok = false) := not_or.2 ⟨hclose, hlit⟩
  rw [if_neg hspilled, if_neg hspilled, if_neg hclose, or_iff_right hlit, or_iff_right loud_nil]
  by_cases hin : env.litIn = false ∨ env.cmpOpen = false
  · simp [hin]
  rw [if_neg hin, if_neg hin, loud_append]
  have hpack := packBlocks_loud z env (effectiveBlockSize blockSize) lit.data lit.data.length 0 polls []
    Spill.empty rfl
  rw [← hpack]
  rcases packBlocks z env (effectiveBlockSize blockSize) lit.data lit.data.length 0 polls []
    Spill.empty with _ | ⟨blocks, out⟩
  · simp
  dsimp only
  by_cases hcmpClose : env.cmpClose = false
  · simp [hcmpClose]
  by_cases hcmpIn : env.cmpIn = false
  · simp [hcmpClose, hcmpIn]
  by_cases hshort : gcount env.cmpRead out.data.length out.data.length ≠ out.data.length
  · simp [hcmpClose, hcmpIn, hshort]
  · simp [hcmpClose, hcmpIn, hshort, encodeDelta, encodeHeader, MAGIC]

end Nil

/-! ### A generation without a failure -/

/-- The same environment where nothing fails, and the callback goes on. -/
def GenEnv.mended (env : GenEnv) : GenEnv where
  litOpen := true
  litWrite _ := none
  litClose := true
  litIn := true
  litRead _ := none
  cmpOpen := true
  cmpWrite _ := none
  cmpClose := true
  cmpIn := true
  cmpRead := none
  zFails _ := false
  progress := env.progress.map fun _ _ _ _ _ => true

theorem GenEnv.mended_faultless (env : GenEnv) : env.mended.Faultless where
  litOpen := rfl
  litWrite := fun _ => rfl
  litClose := rfl
  litIn := rfl
  litRead := fun _ => rfl
  cmpOpen := rfl
  cmpWrite := fun _ => rfl
  cmpClose := rfl
  cmpIn := rfl
  cmpRead := rfl
  zFails := fun _ => rfl
  progress := by
    intro f hf k stage done total
    obtain ⟨g, _, rfl⟩ := Option.map_eq_some_iff.1 hf
    rfl

section Mended

variable {env : GenEnv} {base target : Bytes} {index : List (UInt64 × ℕ)}

/-- A poll that is passed is passed. -/
theorem poll_mended {polls stage done total polls' : ℕ}
    (h : env.poll polls stage done total = some polls') :
    env.mended.poll polls stage done total = some polls' := by
  rw [GenEnv.poll] at h ⊢
  cases hf : env.progress with
  | none =>
      rw [hf] at h
      simpa [GenEnv.mended, hf] using h
  | some f =>
      rw [hf] at h
      dsimp only at h
      split at h
      · simpa [GenEnv.mended, hf] using h
      · cases h

theorem pollDue_mended {st st' : Scan} (h : st.pollDue env target = some st') :
    st.pollDue env.mended target = some st' := by
  rw [Scan.pollDue] at h ⊢
  have hsome : env.mended.progress.isSome = env.progress.isSome := by simp [GenEnv.mended]
  rw [hsome]
  by_cases hdue : env.progress.isSome ∧ st.nextPoll ≤ st.p
  · rw [if_pos hdue] at h ⊢
    cases hpoll : env.poll st.polls 0 st.p target.length with
    | none =>
        rw [hpoll] at h
        cases h
    | some polls =>
        rw [hpoll] at h
        rw [poll_mended hpoll]
        exact h
  · rw [if_neg hdue] at h ⊢
    exact h

/-- A write that does not fail is a write where none can. -/
theorem emitAdd_mended {lo hi : ℕ} {lit : Spill} (h : emitFaults env lo hi lit = [])
    (segs : List RawSeg) :
    emitAdd env.mended target lo hi segs lit = emitAdd env target lo hi segs lit := by
  rw [emitFaults] at h
  rw [emitAdd, emitAdd]
  by_cases hle : hi ≤ lo
  · rw [if_pos hle, if_pos hle]
  · rw [if_neg hle] at h
    rw [if_neg hle, if_neg hle, Spill.write, Spill.write]
    cases hw : env.litWrite lit.writes with
    | none => rfl
    | some k => simp [hw] at h

theorem scanTurn_mended {st : Scan} (h : turnFaults env base target index st = []) :
    scanTurn env.mended base target index st = scanTurn env base target index st := by
  rw [turnFaults] at h
  rw [scanTurn, scanTurn]
  cases hm : findMatch base target index st with
  | none => rfl
  | some o =>
      rw [hm] at h
      dsimp only at h ⊢
      rw [Scan.copy, Scan.copy, emitAdd_mended h]

theorem scanLoop_mended : ∀ (fuel : ℕ) (st : Scan),
    scanFaults env base target index fuel st = [] →
    scanLoop env.mended base target index fuel st = scanLoop env base target index fuel st := by
  intro fuel
  induction fuel with
  | zero => intro st _; rfl
  | succ fuel ih =>
      intro st h
      rw [scanFaults] at h
      rw [scanLoop, scanLoop]
      by_cases hend : target.length < st.p + ANCHOR
      · rw [if_pos hend, if_pos hend]
      · rw [if_neg hend] at h
        rw [if_neg hend, if_neg hend]
        cases hpoll : st.pollDue env target with
        | none => simp [hpoll] at h
        | some st₁ =>
            rw [hpoll] at h
            obtain ⟨hturn, hrest⟩ := List.append_eq_nil_iff.1 h
            rw [pollDue_mended hpoll]
            dsimp only
            rw [scanTurn_mended hturn, ih _ hrest]

theorem scanTarget_mended (h : scanTargetFaults env base target = []) :
    scanTarget env.mended base target = scanTarget env base target := by
  rw [scanTargetFaults] at h
  obtain ⟨hscan, hemit⟩ := List.append_eq_nil_iff.1 h
  rw [scanTarget, scanTarget, scanLoop_mended _ _ hscan]
  cases hloop : scanLoop env base target (anchorIndex base) target.length
      ⟨0, 0, hashWin target, 0, 0, [], Spill.empty⟩ with
  | none => rfl
  | some st =>
      rw [hloop] at hemit
      dsimp only at hemit ⊢
      rw [emitAdd_mended hemit]

theorem zCompress_mended {k : ℕ} (h : zFaults env k = []) (z : Zstd) (x : Bytes) :
    env.zCompress z k x = z.compress x ZLEVEL := by
  rw [zFaults] at h
  rw [GenEnv.zCompress]
  split at h
  · cases h
  · rename_i hz
    rw [if_neg hz]

/-- A packing in which nothing fails is one where nothing can. -/
theorem packBlocks_mended (z : Zstd) (blockSize : ℕ) (lit : Bytes) :
    ∀ (fuel o polls : ℕ) (blocks : List BlockRec) (out : Spill),
      packFaults z env blockSize lit fuel o polls blocks out = [] →
      packBlocks z env.mended blockSize lit fuel o polls blocks out
        = packBlocks z env blockSize lit fuel o polls blocks out := by
  intro fuel
  induction fuel with
  | zero => intro o polls blocks out _; rfl
  | succ fuel ih =>
      intro o polls blocks out h
      rw [packFaults] at h
      rw [packBlocks, packBlocks]
      by_cases hend : lit.length ≤ o
      · rw [if_pos hend, if_pos hend]
      rw [if_neg hend] at h
      rw [if_neg hend, if_neg hend]
      cases hpoll : env.poll polls 1 o lit.length with
      | none => simp [hpoll] at h
      | some polls' =>
          rw [hpoll] at h
          rw [poll_mended hpoll]
          dsimp only at h ⊢
          by_cases hread : gcount (env.litRead blocks.length) (min blockSize (lit.length - o))
              (lit.length - o) ≠ min blockSize (lit.length - o)
          · simp [hread] at h
          rw [if_neg hread] at h
          obtain ⟨hz, hrest⟩ := List.append_eq_nil_iff.1 h
          have hmended : ¬ gcount (env.mended.litRead blocks.length) (min blockSize (lit.length - o))
              (lit.length - o) ≠ min blockSize (lit.length - o) :=
            not_not.2 (gcount_none _ _ (Nat.min_le_right _ _))
          rw [if_neg hread, if_neg hmended, zCompress_mended hz,
            (GenEnv.mended_faultless env).zCompress_eq]
          rw [zCompress_mended hz] at hrest
          cases hw : env.cmpWrite out.writes with
          | some k => simp [hw] at hrest
          | none =>
              rw [hw] at hrest
              have hwrite : ∀ bs, out.write env.mended.cmpWrite bs = out.write env.cmpWrite bs := by
                intro bs
                rw [Spill.write, Spill.write, hw]
                rfl
              rw [hwrite]
              split
              · rfl
              · exact ih _ polls' _ _ (by simpa using hrest)

/-- **Without a failure**, a generation is one where nothing can fail: the delta is written from its
scan and its blocks. -/
theorem generateDelta_mended {z : Zstd} {blockSize : UInt32}
    (h : generateFaults z env base target blockSize = []) :
    ∃ segs lit polls blocks out, scanTarget env base target = some (segs, lit, polls) ∧
      scanTarget env.mended base target = some (segs, lit, polls) ∧
      packBlocks z env (effectiveBlockSize blockSize) lit.data lit.data.length 0 polls []
        Spill.empty = some (blocks, out) ∧
      packBlocks z env.mended (effectiveBlockSize blockSize) lit.data lit.data.length 0 polls []
        Spill.empty = some (blocks, out) ∧
      generateDelta z env base target blockSize
        = (deltaFileOf base target blockSize segs blocks out.data).encode z ∧
      generateDelta z env.mended base target blockSize
        = generateDelta z env base target blockSize := by
  have hne : generateDelta z env base target blockSize ≠ [] := by
    rw [Ne, generateDelta_nil_iff, h]
    exact loud_nil
  rw [generateFaults] at h
  by_cases hopen : env.litOpen = false
  · simp [hopen] at h
  rw [if_neg hopen] at h
  obtain ⟨hscanF, hrest⟩ := List.append_eq_nil_iff.1 h
  have hscan := scanTarget_mended hscanF
  have hloud := scanTarget_loud env base target
  rw [hscanF] at hloud
  rcases htarget : scanTarget env base target with _ | ⟨segs, lit, polls⟩
  · rw [htarget] at hloud
    exact absurd hloud loud_nil
  rw [htarget] at hloud hrest hscan
  have hlit : ¬ lit.ok = false := fun hl => loud_nil (hloud.1 hl)
  obtain ⟨hclose, hpacked⟩ := List.append_eq_nil_iff.1 hrest
  have hclosed : ¬ env.litClose = false := by
    intro hc
    simp [hc] at hclose
  have hspilled : ¬ (env.litClose = false ∨ lit.ok = false) := not_or.2 ⟨hclosed, hlit⟩
  rw [if_neg hspilled] at hpacked
  by_cases hin : env.litIn = false ∨ env.cmpOpen = false
  · simp [hin] at hpacked
  rw [if_neg hin] at hpacked
  obtain ⟨hpackF, hend⟩ := List.append_eq_nil_iff.1 hpacked
  have hpack := packBlocks_mended z (effectiveBlockSize blockSize) lit.data lit.data.length 0 polls []
    Spill.empty hpackF
  rcases hblocks : packBlocks z env (effectiveBlockSize blockSize) lit.data lit.data.length 0 polls
      [] Spill.empty with _ | ⟨blocks, out⟩
  · have hloud := (packBlocks_loud z env (effectiveBlockSize blockSize) lit.data lit.data.length 0
      polls [] Spill.empty rfl).1 hblocks
    rw [hpackF] at hloud
    exact absurd hloud loud_nil
  rw [hblocks] at hend hpack
  dsimp only at hend
  by_cases hcmpClose : env.cmpClose = false
  · simp [hcmpClose] at hend
  rw [if_neg hcmpClose] at hend
  obtain ⟨hz₁, hend⟩ := List.append_eq_nil_iff.1 hend
  obtain ⟨hz₂, hend⟩ := List.append_eq_nil_iff.1 hend
  by_cases hcmpIn : env.cmpIn = false
  · simp [hcmpIn] at hend
  rw [if_neg hcmpIn] at hend
  by_cases hshort : gcount env.cmpRead out.data.length out.data.length ≠ out.data.length
  · simp [hshort] at hend
  have henc : generateDelta z env base target blockSize
      = (deltaFileOf base target blockSize segs blocks out.data).encode z := by
    rw [generateDelta]
    dsimp only
    rw [if_neg hopen, htarget]
    dsimp only
    rw [if_neg hspilled, if_neg hin, hblocks]
    dsimp only
    rw [if_neg hcmpClose, if_neg hcmpIn, if_neg hshort, zCompress_mended hz₁, zCompress_mended hz₂]
    rfl
  refine ⟨segs, lit, polls, blocks, out, rfl, hscan, hblocks, hpack, henc, ?_⟩
  rw [henc]
  exact generateDelta_encode (GenEnv.mended_faultless env) hscan (by simpa using hlit) hpack

end Mended

/-! ### The counts of a file that is not refused -/

/-- The fields of a written file that its parser reads the tables by. -/
theorem DeltaFile.encode_fields (f : DeltaFile) (z : Zstd) (hmax : (f.encode z).length < 2 ^ 63) :
    rd64 (f.encode z) (HEADER_SIZE + 8) = f.segs.length * 17 % 2 ^ 64 ∧
      rd64 (f.encode z) (blkOff (f.encode z) + 8) = f.blocks.length * 16 % 2 ^ 64 := by
  have hlen := f.length_encode z
  have hreg : f.regionOff z = 44 + (16 + (z.compress f.segRaw ZLEVEL).length)
    + (16 + (z.compress f.blkRaw ZLEVEL).length) := rfl
  have h8 : (256 : ℕ) ^ 8 = 2 ^ 64 := by norm_num
  generalize hhdr : encodeHeader f.blockSize f.targetSize f.baseSize f.baseHash f.segs.length
    f.blocks.length = hdr
  have hhdrLen : hdr.length = HEADER_SIZE := by rw [← hhdr, length_encodeHeader, HEADER_SIZE]
  have hbytes : f.encode z = hdr ++ (encodeTable (z.compress f.segRaw ZLEVEL) f.segRaw.length ++
      (encodeTable (z.compress f.blkRaw ZLEVEL) f.blkRaw.length ++ f.region)) := by
    rw [← hhdr, DeltaFile.encode, encodeDelta]
  have hclen : rd64 (f.encode z) HEADER_SIZE = (z.compress f.segRaw ZLEVEL).length := by
    rw [rd64, slice_of_append hdr (leBytes 8 (z.compress f.segRaw ZLEVEL).length) _
      (by rw [hbytes, encodeTable, List.append_assoc]) hhdrLen (length_leBytes _ _),
      leNat_leBytes (by omega)]
  have hsegLen : slice (f.encode z) (HEADER_SIZE + 8) 8 = leBytes 8 f.segRaw.length :=
    slice_of_append (hdr ++ leBytes 8 (z.compress f.segRaw ZLEVEL).length) _
      (z.compress f.segRaw ZLEVEL ++
        (encodeTable (z.compress f.blkRaw ZLEVEL) f.blkRaw.length ++ f.region))
      (by rw [hbytes, encodeTable]; simp only [List.append_assoc]) (by simp [hhdrLen])
      (length_leBytes _ _)
  have hblkLen : slice (f.encode z) (blkOff (f.encode z) + 8) 8 = leBytes 8 f.blkRaw.length :=
    slice_of_append (hdr ++ encodeTable (z.compress f.segRaw ZLEVEL) f.segRaw.length ++
        leBytes 8 (z.compress f.blkRaw ZLEVEL).length) _
      (z.compress f.blkRaw ZLEVEL ++ f.region)
      (by rw [hbytes, encodeTable, encodeTable]; simp only [List.append_assoc])
      (by rw [blkOff, hclen]; simp [hhdrLen, Nat.add_assoc]) (length_leBytes _ _)
  rw [rd64, rd64, hsegLen, hblkLen, leNat_leBytes_mod, leNat_leBytes_mod, h8, f.length_segRaw,
    f.length_blkRaw]
  exact ⟨rfl, rfl⟩

/-- A written file that parses has counts that fit in their fields. -/
theorem DeltaFile.counts_of_good {f : DeltaFile} {z : Zstd} (hmax : (f.encode z).length < 2 ^ 63)
    (hsegs : 17 * f.segs.length < 2 ^ 63) (hblocks : 16 * f.blocks.length < 2 ^ 63)
    (h : FileGood z (f.encode z)) : f.segs.length < 2 ^ 32 ∧ f.blocks.length < 2 ^ 32 := by
  obtain ⟨hseg, hblk⟩ := f.encode_fields z hmax
  rw [Nat.mod_eq_of_lt (by omega)] at hseg hblk
  have hsegTable : rd64 (f.encode z) (HEADER_SIZE + 8) = rd32 (f.encode z) 36 * 17 := h.2.1.1.1.2
  have hblkTable : rd64 (f.encode z) (blkOff (f.encode z) + 8) = rd32 (f.encode z) 40 * 16 :=
    h.2.2.1.2
  rw [hseg] at hsegTable
  rw [hblk] at hblkTable
  have hnum : ∀ off, rd32 (f.encode z) off < 2 ^ 32 := fun off => leNat_slice_lt _ _ (by norm_num)
  have h36 := hnum 36
  have h40 := hnum 40
  omega

/-! ### When a failed generation never looks like a delta -/

section AtWorstRefused

variable (z : Zstd) (env : GenEnv) (base target : Bytes) (blockSize : UInt32)

/-- The numbers of segments and of blocks fit in their fields. -/
def CountsFit : Prop :=
  ∀ segs lit polls blocks out, scanTarget env base target = some (segs, lit, polls) →
    packBlocks z env (effectiveBlockSize blockSize) lit.data lit.data.length 0 polls []
      Spill.empty = some (blocks, out) → segs.length < 2 ^ 32 ∧ blocks.length < 2 ^ 32

/-- Every buffer of the generation has a length that a vector can have, and every frame of literals
one that its field can hold. -/
structure BuffersFit : Prop where
  base_lt : base.length < 2 ^ 63
  target_lt : target.length < 2 ^ 63
  delta_lt : (generateDelta z env base target blockSize).length < 2 ^ 63
  tables : ∀ segs lit polls blocks out, scanTarget env base target = some (segs, lit, polls) →
    packBlocks z env (effectiveBlockSize blockSize) lit.data lit.data.length 0 polls []
      Spill.empty = some (blocks, out) → 17 * segs.length < 2 ^ 63 ∧ 16 * blocks.length < 2 ^ 63
  frames : ∀ segs lit polls, scanTarget env base target = some (segs, lit, polls) →
    ∀ k, k * effectiveBlockSize blockSize < lit.data.length →
      (z.compress (slice lit.data (k * effectiveBlockSize blockSize)
        (effectiveBlockSize blockSize)) ZLEVEL).length < 2 ^ 32

/-- **The bytes `d` rebuild the target**: from any source that delivers them they compose over any
source that holds the base, and every read of the reader returns the bytes of the target. -/
def RebuildsTarget (d : Bytes) : Prop :=
  ∀ (delta : ByteSource), delta.Delivers d → ∀ (src : Source), src.Holds z base →
    ∀ (verifyBase : Bool) (io : Io), ∃ (D : DeltaByteSource) (io' : Io),
      create z delta (some src) verifyBase io = (.ok D, io') ∧ D.targetSize = target.length ∧
        ∀ (reads : List (ℕ × ℕ)) (t : ℕ), ∃ st', D.preads z reads ⟨t, [], []⟩
          = (.ok (reads.map fun r => slice target r.2 r.1), st')

/-- **A failed generation never looks like a delta**: when a call fails nothing is returned, and what
is returned rebuilds the target. -/
def NeverFalse : Prop :=
  (generateFaults z env base target blockSize ≠ [] →
    generateDelta z env base target blockSize = []) ∧
  (generateDelta z env base target blockSize ≠ [] →
    RebuildsTarget z base target (generateDelta z env base target blockSize))

variable {z env base target blockSize}

/-- A generation without a failure, of counts that fit, rebuilds the target. -/
theorem rebuildsTarget_of_quiet (hz : z.RoundTrips) (hfit : BuffersFit z env base target blockSize)
    (hquiet : generateFaults z env base target blockSize = [])
    (hcounts : CountsFit z env base target blockSize) :
    RebuildsTarget z base target (generateDelta z env base target blockSize) := by
  obtain ⟨segs, lit, polls, blocks, out, hscan, hscan', hpack, hpack', -, heq⟩ :=
    generateDelta_mended hquiet
  obtain ⟨hsegs, hblocks⟩ := hcounts segs lit polls blocks out hscan hpack
  have hfits : FitsIn32 z env.mended base target blockSize := by
    intro segs' lit' polls' h
    rw [hscan'] at h
    obtain ⟨rfl, rfl, rfl⟩ := by simpa using h
    refine ⟨hsegs, hfit.frames segs lit polls hscan, fun blocks' out' h => ?_⟩
    rw [hpack'] at h
    obtain ⟨rfl, rfl⟩ := by simpa using h
    exact hblocks
  have hround := generateDelta_roundTrip hz env.mended_faultless hfit.base_lt hfit.target_lt hfits
    (heq ▸ hfit.delta_lt)
  rw [heq] at hround
  exact hround.2

/-- What a generation without a failure returns is refused where its counts do not fit. -/
theorem countsFit_of_rebuilds (hfit : BuffersFit z env base target blockSize)
    (hquiet : generateFaults z env base target blockSize = [])
    (h : RebuildsTarget z base target (generateDelta z env base target blockSize)) :
    CountsFit z env base target blockSize := by
  obtain ⟨segs, lit, polls, blocks, out, hscan, -, hpack, -, henc, -⟩ := generateDelta_mended hquiet
  intro segs' lit' polls' blocks' out' hscan' hpack'
  rw [hscan] at hscan'
  obtain ⟨rfl, rfl, rfl⟩ := by simpa using hscan'
  rw [hpack] at hpack'
  obtain ⟨rfl, rfl⟩ := by simpa using hpack'
  have hmax := hfit.delta_lt
  obtain ⟨hsegs, hblocks⟩ := hfit.tables segs lit polls blocks out hscan hpack
  rw [henc] at h hmax
  have hbase := hfit.base_lt
  have hbaseLt : base.length < 2 ^ 64 := by omega
  have hfileLt :
        ((deltaFileOf base target blockSize segs blocks out.data).encode z).length < 2 ^ 64 := by
    omega
  -- from memory, over the base in memory, the parse goes through
  obtain ⟨D, io', hD, -⟩ := h _ (memByteSource_delivers _ hfileLt) (.plain (memByteSource base hbaseLt))
    (memByteSource_delivers base hbaseLt) false ⟨0, []⟩
  obtain ⟨P, b, segs', io₁, -, hparse, -⟩ := create_inv hD
  obtain ⟨t', heq⟩ := parseDelta_eq (z := z) (memByteSource_delivers _ hfileLt)
    (memByteSource_endsAtSize _ hfileLt) 0
  rw [heq] at hparse
  have hgood := (parseBytes_ends z _ _).parses.1 ⟨P, (Prod.mk.inj hparse).1⟩
  exact DeltaFile.counts_of_good hmax hsegs hblocks hgood

end AtWorstRefused

/-- **When a failed generation never looks like a delta**: exactly when each compression that fails
is not the only failure, and the counts fit in their fields where nothing fails. -/
theorem neverFalse_iff {z : Zstd} (hz : z.RoundTrips) {env : GenEnv} {base target : Bytes}
    {blockSize : UInt32} (hfit : BuffersFit z env base target blockSize) :
    NeverFalse z env base target blockSize ↔
      (.compressFailed ∈ generateFaults z env base target blockSize →
        ∃ f ∈ generateFaults z env base target blockSize, f ≠ .compressFailed) ∧
      (generateFaults z env base target blockSize = [] → CountsFit z env base target blockSize) := by
  have hnil := generateDelta_nil_iff z env base target blockSize
  constructor
  · rintro ⟨hempty, hrebuilds⟩
    refine ⟨fun hmem => hnil.1 (hempty (List.ne_nil_of_mem hmem)), fun hquiet => ?_⟩
    refine countsFit_of_rebuilds hfit hquiet (hrebuilds ?_)
    rw [Ne, hnil, hquiet]
    exact loud_nil
  · rintro ⟨hloud, hcounts⟩
    have hempty : generateFaults z env base target blockSize ≠ [] →
        generateDelta z env base target blockSize = [] := by
      intro hne
      obtain ⟨f, hf⟩ := List.exists_mem_of_ne_nil _ hne
      rw [hnil]
      by_cases hz : f = .compressFailed
      · exact hloud (hz ▸ hf)
      · exact ⟨f, hf, hz⟩
    refine ⟨hempty, fun hne => ?_⟩
    have hquiet : generateFaults z env base target blockSize = [] := by
      by_contra h
      exact hne (hempty h)
    exact rebuildsTarget_of_quiet hz hfit hquiet (hcounts hquiet)

/-- Calls that all succeed but the compression of the first block. -/
def silentEnv : GenEnv := { quietEnv with zFails := fun k => k == 0 }

/-- **A failed generation can look like a delta**: the one literal of the target is lost in a
compression that fails, and a delta is returned. -/
theorem silentFault_looks_like_delta :
    generateFaults storingZstd silentEnv windowBase windowTarget 0 = [.compressFailed] ∧
      generateDelta storingZstd silentEnv windowBase windowTarget 0 ≠ [] ∧
      ¬ NeverFalse storingZstd silentEnv windowBase windowTarget 0 := by
  have hfaults : generateFaults storingZstd silentEnv windowBase windowTarget 0
      = [.compressFailed] := by decide +kernel
  have hne : generateDelta storingZstd silentEnv windowBase windowTarget 0 ≠ [] := by
    rw [Ne, generateDelta_nil_iff, hfaults, loud_singleton]
    exact fun h => h rfl
  exact ⟨hfaults, hne, fun h => hne (h.1 (by rw [hfaults]; simp))⟩

/-- Of the same generation where nothing fails, all buffers fit. -/
theorem window_buffersFit : BuffersFit storingZstd quietEnv windowBase windowTarget 0 := by
  have hscan : ∀ {segs lit polls}, scanTarget quietEnv windowBase windowTarget
      = some (segs, lit, polls) → segs = [⟨KIND_ADD, 1, 0⟩, ⟨KIND_COPY, 256, 0⟩] ∧
        lit = ⟨[1], 1, true⟩ ∧ polls = 0 := by
    intro segs lit polls h
    rw [window_scanTarget] at h
    obtain ⟨rfl, rfl, rfl⟩ := by simpa using h
    exact ⟨rfl, rfl, rfl⟩
  refine ⟨windowBase_length, by decide +kernel, windowDelta_length, ?_, ?_⟩
  · intro segs lit polls blocks out h hpack
    obtain ⟨rfl, rfl, rfl⟩ := hscan h
    have hpack' : some ([(⟨0, 10, 1⟩ : BlockRec)], (⟨storedFrame [1], 1, true⟩ : Spill))
        = some (blocks, out) := window_packBlocks.symm.trans hpack
    obtain ⟨rfl, rfl⟩ := Prod.mk.inj (Option.some_inj.1 hpack')
    exact ⟨by decide, by decide⟩
  · intro segs lit polls h k hk
    obtain ⟨rfl, rfl, rfl⟩ := hscan h
    exact (window_fits _ _ _ window_scanTarget).2.1 k hk

/-- Whether that generation can look like a delta falsely comes down to its failures, which are
none. -/
theorem window_neverFalse_iff :
    NeverFalse storingZstd quietEnv windowBase windowTarget 0 ↔
      (.compressFailed ∈ generateFaults storingZstd quietEnv windowBase windowTarget 0 →
        ∃ f ∈ generateFaults storingZstd quietEnv windowBase windowTarget 0,
          f ≠ .compressFailed) ∧
      (generateFaults storingZstd quietEnv windowBase windowTarget 0 = [] →
        CountsFit storingZstd quietEnv windowBase windowTarget 0) :=
  neverFalse_iff storingZstd_roundTrips window_buffersFit

end VidyaGodFS
