/-
**Chains of deltas are flat.**

A chain applies one delta file after the other, the first over a plain source.  The reader of a
chain never walks it: `create` rewrites every delta through the map of the one before.  This module
says what a well-formed delta file is, in terms of the bytes of the file alone, and proves that over
a chain of well-formed deltas the rewritten map reads exactly as the two-level reader would that
applies the last delta to the bytes of the chain.

The reader finds a literal by dividing its offset by the block size, so a block that is *longer*
than the block size is read right only from its start; `longBlock_not_flattened` exhibits the
difference.  `Parsed.LastFits` excludes it.

Main definitions:

* `AddSource.blockBytes`, `AddSource.literals` — the literals of a file;
* `Parsed.WellFormed`, `Parsed.LastFits`, `WellFormedDelta` — well-formed delta files;
* `Chain` — the readers that chains of deltas build.

Main results:

* `parseDelta_follows` — a source that delivers a file is parsed as the file in memory is;
* `Chain.sound` — the reader of a chain is sound;
* `create_flattens` — **flattening preserves what is read**.
-/

import VidyaGodFS.DeltaRoundTrip

set_option relaxedAutoImplicit false
set_option autoImplicit false

namespace VidyaGodFS

/-! ### Parsing a delivered file -/

/-- An exact read of a buffer that succeeds stays inside it. -/
theorem preadAllLoop_mem {data : Bytes} (h : data.length < 2 ^ 64) :
    ∀ (fuel n off : ℕ) (out bs : Bytes) (t t' : ℕ), n ≤ fuel →
      ((memByteSource data h).preadAllLoop fuel n off out : Prog ℕ DeltaErr _) t
        = (.ok (some bs), t') →
      n = 0 ∨ off + n ≤ data.length := by
  intro fuel
  induction fuel with
  | zero => exact fun n off out bs t t' hn _ => Or.inl (by omega)
  | succ fuel ih =>
      intro n off out bs t t' hn hrun
      rcases Nat.eq_zero_or_pos n with rfl | hpos
      · exact Or.inl rfl
      · refine Or.inr ?_
        rw [ByteSource.preadAllLoop, if_neg (by omega)] at hrun
        have hread : ((memByteSource data h).read n off : Prog ℕ DeltaErr _) t
            = (.ok (.ok (slice data off n)), t + 1) := rfl
        rw [Prog.bind_of_ok hread] at hrun
        have hlen := length_slice data off n
        cases hs : slice data off n with
        | nil =>
            rw [hs] at hrun
            simp at hrun
        | cons b l =>
            rw [hs] at hrun hlen
            dsimp only at hrun
            have hone : 0 < (b :: l).length := by simp
            -- something was read, so the offset lies inside; what follows the read does too
            rw [add64_eq (by omega)] at hrun
            rcases ih (n - (b :: l).length) (off + (b :: l).length) _ bs _ t' (by omega) hrun with
              h0 | hin <;> omega

/-- A program that starts with a read of a buffer and fails without it is followed by the same
program over every source that delivers the buffer. -/
theorem fetch_bind_follows {α β : Type} {R : α → β → Prop} {data : Bytes}
    (h : data.length < 2 ^ 64) {src : ByteSource} (hsrc : src.Delivers data) {n off : ℕ}
    (hn : 0 < n) {k : Option Bytes → Prog Io DeltaErr α} {k' : Option Bytes → Prog Io DeltaErr β}
    {e : DeltaErr} (hnone : k none = Prog.fail e)
    (hsome : ∀ bs, Prog.Follows R (k (some bs)) (k' (some bs))) :
    Prog.Follows R (fetch (memByteSource data h) n off >>= k) (fetch src n off >>= k') := by
  rintro io a io₁ hrun io'
  rcases hfetch : fetch (memByteSource data h) n off io with ⟨e' | r, io₂⟩
  · rw [Prog.bind_of_error hfetch] at hrun
    simp at hrun
  · rw [Prog.bind_of_ok hfetch] at hrun
    cases r with
    | none =>
        rw [hnone] at hrun
        simp at hrun
    | some bs =>
        have hmem : ((memByteSource data h).preadAll n off : Prog ℕ DeltaErr _) io.clock
            = (.ok (some bs), io₂.clock) := by
          rw [fetch, Prog.zoom_apply] at hfetch
          obtain ⟨hfst, hsnd⟩ := Prod.mk.inj hfetch
          rw [← hfst, ← hsnd]
        rcases preadAllLoop_mem h n n off [] bs _ _ le_rfl hmem with h0 | hin
        · omega
        · obtain ⟨t₁, h₁⟩ := fetch_delivers (memByteSource_delivers data h) n off hin io
          obtain ⟨t₂, h₂⟩ := fetch_delivers hsrc n off hin io'
          rw [h₁] at hfetch
          have hbs : slice data off n = bs := by simpa using (Prod.mk.inj hfetch).1
          rw [hbs] at h₂
          obtain ⟨b, io₃, hb, hR⟩ := hsome bs io₂ a io₁ hrun { io' with clock := t₂ }
          exact ⟨b, io₃, by rw [Prog.bind_of_ok h₂, hb], hR⟩

/-- A vector that is built once is built again. -/
theorem newVec_follows (n : ℕ) : Prog.Follows (fun _ _ => True) (newVec n) (newVec n) := by
  rintro io a io₁ hrun io'
  by_cases hn : 2 ^ 63 ≤ n
  · rw [newVec, if_pos hn] at hrun
    simp at hrun
  · exact ⟨(), _, newVec_of_lt (by omega) io', trivial⟩

theorem readTable_follows (z : Zstd) {data : Bytes} (h : data.length < 2 ^ 64) {src : ByteSource}
    (hsrc : src.Delivers data) (msgs : TableMsgs) (off count width : ℕ) :
    Prog.Follows Eq (readTable z (memByteSource data h) msgs off count width)
      (readTable z src msgs off count width) := by
  refine fetch_bind_follows h hsrc (by decide) rfl ?_
  intro lens
  dsimp only
  by_cases hulen : leNat (slice lens 8 8) ≠ count * width
  · rw [if_pos hulen]
    exact Prog.Follows.fail
  · rw [if_neg hulen, if_neg hulen]
    refine Prog.Follows.bind (newVec_follows _) ?_
    rintro _ _ _
    -- the frame, read unless it is empty
    have htail : ∀ comp : Bytes, Prog.Follows Eq
        (do newVec (leNat (slice lens 8 8))
            if (zDecompress z comp (leNat (slice lens 8 8))).length ≠ leNat (slice lens 8 8) then
              refuse msgs.corrupt
            else pure (zDecompress z comp (leNat (slice lens 8 8)), leNat (slice lens 0 8)) :
          Prog Io DeltaErr (Bytes × ℕ))
        (do newVec (leNat (slice lens 8 8))
            if (zDecompress z comp (leNat (slice lens 8 8))).length ≠ leNat (slice lens 8 8) then
              refuse msgs.corrupt
            else pure (zDecompress z comp (leNat (slice lens 8 8)), leNat (slice lens 0 8)) :
          Prog Io DeltaErr (Bytes × ℕ)) := by
      intro comp
      refine Prog.Follows.bind (newVec_follows _) ?_
      rintro _ _ _
      by_cases hraw : (zDecompress z comp (leNat (slice lens 8 8))).length
          ≠ leNat (slice lens 8 8)
      · rw [if_pos hraw]
        exact Prog.Follows.fail
      · rw [if_neg hraw]
        exact Prog.Follows.pure rfl
    by_cases hclen : leNat (slice lens 0 8) = 0
    · simp only [if_pos hclen]
      exact htail []
    · simp only [if_neg hclen]
      exact fetch_bind_follows h hsrc (Nat.pos_of_ne_zero hclen) rfl htail

/-- What a parse says of a file, with the literals read from another source of its bytes. -/
def Parsed.onFile (P : Parsed) (src : ByteSource) : Parsed :=
  { P with add := { P.add with file := src } }

/-- **A source that delivers a file is parsed as the file in memory is.** -/
theorem parseDelta_follows (z : Zstd) {data : Bytes} (h : data.length < 2 ^ 64) {src : ByteSource}
    (hsrc : src.Delivers data) :
    Prog.Follows (fun P P' => P' = P.onFile src) (parseDelta z (memByteSource data h))
      (parseDelta z src) := by
  refine fetch_bind_follows h hsrc (by decide) rfl ?_
  intro hdr
  dsimp only
  by_cases hmagic : slice hdr 0 4 ≠ MAGIC
  · rw [if_pos hmagic]
    exact Prog.Follows.fail
  by_cases hver : leNat (slice hdr 4 4) ≠ VERSION
  · rw [if_neg hmagic, if_pos hver]
    exact Prog.Follows.fail
  by_cases hbs : leNat (slice hdr 8 4) = 0
  · rw [if_neg hmagic, if_neg hver, if_pos hbs]
    exact Prog.Follows.fail
  rw [if_neg hmagic, if_neg hver, if_neg hbs, if_neg hmagic, if_neg hver, if_neg hbs]
  refine Prog.Follows.bind (readTable_follows z h hsrc _ _ _ _) ?_
  rintro ⟨rawSegs, clen⟩ _ rfl
  dsimp only
  by_cases hsum : sumLen (cutRecords 17 RawSeg.decode (leNat (slice hdr 36 4)) rawSegs)
      ≠ leNat (slice hdr 12 8)
  · rw [if_pos hsum]
    exact Prog.Follows.fail
  rw [if_neg hsum, if_neg hsum]
  refine Prog.Follows.bind (readTable_follows z h hsrc _ _ _ _) ?_
  rintro ⟨rawBlks, clen'⟩ _ rfl
  exact Prog.Follows.pure rfl

/-- What every parse that succeeds ensures. -/
structure Parsed.Checked (P : Parsed) : Prop where
  blockSize_pos : 0 < P.add.blockSize
  blockSize_lt : P.add.blockSize < 2 ^ 32
  blocks_lt : P.add.blocks.length < 2 ^ 32
  block_fits : ∀ b ∈ P.add.blocks, b.uncompLen < 2 ^ 32

/-- A field of `w` bytes is below `256 ^ w`. -/
theorem leNat_slice_lt (l : Bytes) (off : ℕ) {w m : ℕ} (hm : 256 ^ w = m) :
    leNat (slice l off w) < m := by
  have hlt := leNat_lt (slice l off w)
  have hlen : (slice l off w).length ≤ w := by
    rw [length_slice]
    omega
  exact hm ▸ lt_of_lt_of_le hlt (Nat.pow_le_pow_right (by decide) hlen)

theorem mem_cutRecords {β : Type} {w : ℕ} {rd : Bytes → β} {n : ℕ} {bs : Bytes} {x : β}
    (h : x ∈ cutRecords w rd n bs) : ∃ r, x = rd r := by
  induction n generalizing bs with
  | zero => simp [cutRecords] at h
  | succ n ih =>
      rw [cutRecords] at h
      rcases List.mem_cons.1 h with rfl | h
      · exact ⟨_, rfl⟩
      · exact ih h

theorem parseDelta_checked (z : Zstd) (src : ByteSource) :
    Prog.Triple (fun _ => True) (parseDelta z src) (fun P _ => P.Checked) fun _ _ => True := by
  refine Prog.Triple.bind (Prog.Triple.triv _) ?_
  intro hdr
  cases hdr with
  | none => exact Prog.Triple.fail fun _ _ => trivial
  | some hdr =>
      dsimp only
      split
      · exact Prog.Triple.fail fun _ _ => trivial
      split
      · exact Prog.Triple.fail fun _ _ => trivial
      split
      · exact Prog.Triple.fail fun _ _ => trivial
      rename_i hbs
      refine Prog.Triple.bind (Prog.Triple.triv _) ?_
      rintro ⟨rawSegs, clen⟩
      dsimp only
      split
      · exact Prog.Triple.fail fun _ _ => trivial
      refine Prog.Triple.bind (Prog.Triple.triv _) ?_
      rintro ⟨rawBlks, clen'⟩
      refine Prog.Triple.pure fun _ _ => ⟨Nat.pos_of_ne_zero hbs, ?_, ?_, ?_⟩
      · exact leNat_slice_lt _ _ (by norm_num)
      · rw [length_cutRecords]
        exact leNat_slice_lt _ _ (by norm_num)
      · intro b hb
        obtain ⟨r, rfl⟩ := mem_cutRecords hb
        exact leNat_slice_lt _ _ (by norm_num)

/-! ### Well-formed delta files -/

/-- The literals of a block, as its frame in the file decompresses. -/
def AddSource.blockBytes (z : Zstd) (A : AddSource) (file : Bytes) (b : BlockRec) : Bytes :=
  zDecompress z (slice file (add64 A.regionOff b.compOff) b.compLen) b.uncompLen

/-- The literal stream of a file: its blocks, one after the other. -/
def AddSource.literals (z : Zstd) (A : AddSource) (file : Bytes) : Bytes :=
  (A.blocks.map (A.blockBytes z file)).flatten

/-- **A well-formed delta** over a base of `baseLen` bytes: its segments are in range and cover the
target, every block decompresses to its declared length, and all blocks but the last hold exactly
the block size. -/
structure Parsed.WellFormed (z : Zstd) (P : Parsed) (file : Bytes) (baseLen : ℕ) : Prop where
  inRange : P.InRange baseLen (P.add.literals z file).length
  inFile : ∀ b ∈ P.add.blocks, add64 P.add.regionOff b.compOff + b.compLen ≤ file.length
  declared : ∀ b ∈ P.add.blocks, (P.add.blockBytes z file b).length = b.uncompLen
  full : ∀ (k : ℕ) (b : BlockRec), P.add.blocks[k]? = some b → k + 1 < P.add.blocks.length →
    b.uncompLen = P.add.blockSize

/-- The last block holds no more than the block size. -/
def Parsed.LastFits (P : Parsed) : Prop :=
  ∀ (k : ℕ) (b : BlockRec), P.add.blocks[k]? = some b → k + 1 = P.add.blocks.length →
    b.uncompLen ≤ P.add.blockSize

/-- A source that delivers a delta file which is well formed over `baseLen` bytes and satisfies
`extra`. -/
def WellFormedDelta (z : Zstd) (extra : Parsed → Prop) (delta : ByteSource) (baseLen : ℕ) : Prop :=
  ∃ (file : Bytes) (h : file.length < 2 ^ 64) (P : Parsed) (io io₁ : Io), delta.Delivers file ∧
    parseDelta z (memByteSource file h) io = (.ok P, io₁) ∧ P.WellFormed z file baseLen ∧ extra P

/-- The blocks of a well-formed file hold its literal stream. -/
theorem Parsed.WellFormed.holds {z : Zstd} {P : Parsed} {file : Bytes} {baseLen : ℕ}
    (h : P.WellFormed z file baseLen) (hlast : P.LastFits) (hchk : P.Checked) {delta : ByteSource}
    (hdelta : delta.Delivers file) : (P.onFile delta).add.Holds z (P.add.literals z file) := by
  have hle : ∀ p ∈ P.add.blocks.map (P.add.blockBytes z file), p.length ≤ P.add.blockSize := by
    intro p hp
    obtain ⟨b, hb, rfl⟩ := List.mem_map.1 hp
    rw [h.declared b hb]
    obtain ⟨k, hk⟩ := List.getElem?_of_mem hb
    have hlt := (List.getElem?_eq_some_iff.1 hk).1
    rcases Nat.lt_or_ge (k + 1) P.add.blocks.length with hk1 | hk1
    · exact (h.full k b hk hk1).le
    · exact hlast k b hk (by omega)
  have hfull : ∀ i p, (P.add.blocks.map (P.add.blockBytes z file))[i]? = some p →
      i + 1 < (P.add.blocks.map (P.add.blockBytes z file)).length → p.length = P.add.blockSize := by
    intro i p hi hlt
    rw [List.getElem?_map, Option.map_eq_some_iff] at hi
    obtain ⟨b, hb, rfl⟩ := hi
    rw [List.length_map] at hlt
    rw [h.declared b (List.mem_of_getElem? hb), h.full i b hb hlt]
  have hcov : (P.add.literals z file).length ≤ P.add.blocks.length * P.add.blockSize := by
    have hcov := length_flatten_le hle
    rwa [List.length_map] at hcov
  refine ⟨hchk.blockSize_pos, hchk.blocks_lt, ?_, hcov, ?_⟩
  · have hbs := hchk.blockSize_lt
    have hbl := hchk.blocks_lt
    calc (P.add.literals z file).length ≤ P.add.blocks.length * P.add.blockSize := hcov
      _ ≤ (2 ^ 32 - 1) * (2 ^ 32 - 1) := Nat.mul_le_mul (by omega) (by omega)
      _ < 2 ^ 64 := by decide
  · intro k b hb
    have hb' : P.add.blocks[k]? = some b := hb
    have hmem := List.mem_of_getElem? hb'
    have hpiece : slice (P.add.literals z file) (k * P.add.blockSize) P.add.blockSize
        = P.add.blockBytes z file b :=
      slice_flatten_pieces hfull hle (by rw [List.getElem?_map, hb', Option.map_some])
    refine ⟨?_, file, hdelta, h.inFile b hmem, ?_⟩
    · exact (h.declared b hmem).symm.trans (congrArg List.length hpiece.symm)
    · exact hpiece.symm

/-- A well-formed delta file parses from any state, to segments and blocks that `create` can
apply. -/
theorem WellFormedDelta.parse {z : Zstd} {delta : ByteSource} {baseLen : ℕ}
    (h : WellFormedDelta z Parsed.LastFits delta baseLen) :
    ∃ (P : Parsed) (lit : Bytes), (∀ io, ∃ io₁, parseDelta z delta io = (.ok P, io₁)) ∧
      P.InRange baseLen lit.length ∧ P.add.Holds z lit := by
  obtain ⟨file, hfile, P, io₀, io₁, hdelta, hparse, hwf, hlast⟩ := h
  have hchk : P.Checked := by
    have hpost := parseDelta_checked z (memByteSource file hfile) io₀ trivial
    rw [hparse] at hpost
    exact hpost
  refine ⟨P.onFile delta, P.add.literals z file, ?_, ?_, hwf.holds hlast hchk hdelta⟩
  · intro io
    obtain ⟨_, io₂, hio, rfl⟩ := parseDelta_follows z hfile hdelta io₀ P io₁ hparse io
    exact ⟨io₂, hio⟩
  · have hin := hwf.inRange
    exact ⟨hin.baseSize_eq, hin.inRange, hin.covers, hin.targetSize_lt⟩

/-! ### Chains -/

/-- **The readers that chains of `k` delta files build** over the plain source `src`, every file
well formed over what the chain before it reads as. -/
inductive Chain (z : Zstd) (extra : Parsed → Prop) (src : ByteSource) :
    ℕ → DeltaByteSource → Prop
  | first {delta : ByteSource} {verifyBase : Bool} {io io' : Io} {D : DeltaByteSource} :
      WellFormedDelta z extra delta src.size →
      create z delta (some (.plain src)) verifyBase io = (.ok D, io') → Chain z extra src 1 D
  | next {k : ℕ} {b : DeltaByteSource} {delta : ByteSource} {verifyBase : Bool} {io io' : Io}
      {D : DeltaByteSource} :
      Chain z extra src k b → WellFormedDelta z extra delta b.targetSize →
      create z delta (some (.delta b)) verifyBase io = (.ok D, io') → Chain z extra src (k + 1) D

/-- The end of `create` does not look at the state. -/
theorem finish_ok {src : ByteSource} {adds : List AddSource} {segs : List FlatSeg} {size : ℕ}
    {io io' : Io} {D : DeltaByteSource} (h : finish src adds segs size io = (.ok D, io'))
    (io₁ : Io) : finish src adds segs size io₁ = (.ok D, io₁) := by
  rw [finish] at h ⊢
  by_cases hsize : (placeSegs 0 segs).2 ≠ size
  · rw [if_pos hsize] at h
    simp [refuse] at h
  · rw [if_neg hsize, Prog.pure_apply] at h ⊢
    rw [(Prod.mk.inj h).1]

/-- What is composed with the check of the base is composed without it. -/
theorem create_unverified {z : Zstd} {delta src : ByteSource} {verifyBase : Bool} {io io' : Io}
    {D : DeltaByteSource}
    (h : create z delta (some (.plain src)) verifyBase io = (.ok D, io')) :
    ∃ io₁, create z delta (some (.plain src)) false io = (.ok D, io₁) := by
  cases verifyBase with
  | false => exact ⟨io', h⟩
  | true =>
      rcases hparse : parseDelta z delta io with ⟨e | P, io₁⟩
      · rw [create, Prog.bind_of_error hparse] at h
        simp at h
      · rw [create, Prog.bind_of_ok hparse] at h ⊢
        dsimp only at h ⊢
        by_cases hsize : (Source.plain src).size ≠ P.baseSize
        · rw [if_pos hsize] at h
          simp [refuse] at h
        · rw [if_neg hsize, if_pos rfl] at h
          rw [if_neg hsize]
          rcases hcheck : checkBase src P io₁ with ⟨e | _, io₂⟩
          · rw [Prog.bind_of_error hcheck] at h
            simp at h
          · rw [Prog.bind_of_ok hcheck] at h
            exact ⟨io₁, finish_ok h io₁⟩

/-- **The reader of a chain is sound**, over the bytes of the plain source and one stream of
literals a file. -/
theorem Chain.sound {z : Zstd} {src : ByteSource} {base : Bytes} (hsrc : src.Delivers base) {k : ℕ}
    {b : DeltaByteSource} (h : Chain z Parsed.LastFits src k b) (hk : k < 2 ^ 24) :
    ∃ lits, b.Sound z base lits ∧ b.addSources.length = k ∧ b.baseSrc = src := by
  induction h with
  | first hd hcreate =>
      rename_i io _ D
      obtain ⟨P, lit, hparse, hrange, hadd⟩ := hd.parse
      obtain ⟨io₁, hio₁⟩ := hparse io
      rw [hsrc.size_eq] at hrange
      obtain ⟨D', io₂, hD', hsound, _, hbase, hadds, _⟩ :=
        create_plain hio₁ hsrc hrange hadd false (by simp)
      obtain ⟨io₃, hD⟩ := create_unverified hcreate
      obtain rfl : D = D' := by
        rw [hD] at hD'
        simpa using (Prod.mk.inj hD').1
      exact ⟨[lit], hsound, by rw [hadds]; rfl, hbase⟩
  | next hchain hd hcreate ih =>
      rename_i k b delta v io io' D
      obtain ⟨lits, hb, hlen, hbase⟩ := ih (by omega)
      obtain ⟨P, lit, hparse, hrange, hadd⟩ := hd.parse
      obtain ⟨io₁, hio₁⟩ := hparse io
      obtain ⟨D', io₂, hD', hsound, _, hbase', hadds, _⟩ :=
        create_delta hio₁ hb (by omega) hrange hadd v
      obtain rfl : D = D' := by
        rw [hcreate] at hD'
        simpa using (Prod.mk.inj hD').1
      exact ⟨lits ++ [lit], hsound, by rw [hadds, List.length_append, hlen]; rfl,
        hbase'.trans hbase⟩

/-! ### Flattening -/

/-- The blocks of a file that holds literals declare their length. -/
theorem AddSource.Holds.sum_uncompLen {z : Zstd} {A : AddSource} {lit : Bytes}
    (h : A.Holds z lit) : (A.blocks.map BlockRec.uncompLen).sum = lit.length := by
  -- the first `m` blocks declare what the literals hold up to `m` times the block size
  have htake : ∀ m, m ≤ A.blocks.length →
      ((A.blocks.take m).map BlockRec.uncompLen).sum = min lit.length (m * A.blockSize) := by
    intro m
    induction m with
    | zero => simp
    | succ m ih =>
        intro hm
        have hb := List.getElem?_eq_getElem (l := A.blocks) (i := m) (by omega)
        have hu := (h.block m _ hb).1
        rw [length_slice] at hu
        rw [List.take_add_one, hb, List.map_append, List.sum_append, ih (by omega), Nat.succ_mul]
        simp only [Option.toList_some, List.map_cons, List.map_nil, List.sum_cons, List.sum_nil, hu]
        omega
  have hall := htake A.blocks.length le_rfl
  have hcov := h.covers
  rw [List.take_length] at hall
  omega

/-- **The map of a flat reader**: ordered, without gaps, its segments not empty, COPYs inside the
ultimate base and ADDs inside the literals that their file declares. -/
structure DeltaByteSource.IsFlat (D : DeltaByteSource) (src : ByteSource) : Prop where
  baseSrc_eq : D.baseSrc = src
  placed : Placed 0 D.segs
  covers : totalLen D.segs = D.targetSize
  inRange : ∀ s ∈ D.segs, 0 < s.len ∧
    (s.kind = KIND_COPY ∧ s.srcOff + s.len ≤ src.size ∨
      s.kind = KIND_ADD ∧ ∃ A, D.addSources[s.addSrc]? = some A ∧
        s.srcOff + s.len ≤ (A.blocks.map BlockRec.uncompLen).sum)

theorem DeltaByteSource.Sound.isFlat {z : Zstd} {D : DeltaByteSource} {base : Bytes}
    {lits : List Bytes} (h : D.Sound z base lits) : D.IsFlat D.baseSrc := by
  refine ⟨rfl, h.placed, h.total, ?_⟩
  intro s hs
  obtain ⟨hpos, ⟨hk, hin⟩ | ⟨hk, lit, hlit, hin⟩⟩ := h.inRange s hs
  · exact ⟨hpos, Or.inl ⟨hk, h.base_delivers.size_eq ▸ hin⟩⟩
  · have hi : s.addSrc < D.addSources.length :=
      h.adds.length_eq ▸ (List.getElem?_eq_some_iff.1 hlit).1
    have hA := List.getElem?_eq_getElem hi
    exact ⟨hpos, Or.inr ⟨hk, _, hA, (h.adds.holds _ _ _ hA hlit).sum_uncompLen ▸ hin⟩⟩

/-- What `create` makes of a delta over the reader `b`: a flat reader over `src` whose reads are
those of the unflattened reader, which applies the delta to the buffer `content`. -/
def Flattens (z : Zstd) (src : ByteSource) (b : DeltaByteSource) (delta : ByteSource)
    (content : Bytes) : Prop :=
  ∀ (verifyBase : Bool) (io io₁ : Io) (h : content.length < 2 ^ 64),
    ∃ (D U : DeltaByteSource) (io₂ io₃ : Io),
      create z delta (some (.delta b)) verifyBase io = (.ok D, io₂) ∧
        create z delta (some (.plain (memByteSource content h))) false io₁ = (.ok U, io₃) ∧
        D.IsFlat src ∧
        ∀ (reads : List (ℕ × ℕ)) (t t' : ℕ), ∃ (bytes : List Bytes) (st st' : ReadState),
          D.preads z reads ⟨t, [], []⟩ = (.ok bytes, st) ∧
            U.preads z reads ⟨t', [], []⟩ = (.ok bytes, st')

/-- **Flattening a chain of deltas preserves what is read.**  Over the reader `b` of a chain of
well-formed deltas, whose reads are the slices of some bytes `content`, a well-formed delta composes
to a flat reader over the ultimate base, and every run of reads of it returns the bytes that the
unflattened reader over `content` returns. -/
theorem create_flattens {z : Zstd} {src : ByteSource} {base : Bytes} (hsrc : src.Delivers base)
    {k : ℕ} (hk : k < 2 ^ 24) {b : DeltaByteSource} (hb : Chain z Parsed.LastFits src k b)
    {delta : ByteSource} (hd : WellFormedDelta z Parsed.LastFits delta b.targetSize) :
    ∃ content : Bytes, content.length = b.targetSize ∧
      (∀ (reads : List (ℕ × ℕ)) (t : ℕ), ∃ st, b.preads z reads ⟨t, [], []⟩
        = (.ok (reads.map fun r => slice content r.2 r.1), st)) ∧
      Flattens z src b delta content := by
  obtain ⟨lits, hsound, hlen, hbase⟩ := hb.sound hsrc hk
  refine ⟨mapBytes base lits b.segs, hsound.length_content, ?_, ?_⟩
  · intro reads t
    obtain ⟨st, hst, _⟩ := DeltaByteSource.preads_eq hsound reads (cacheOk_nil _ _ t)
    exact ⟨st, hst⟩
  · intro verifyBase io io₁ hc
    obtain ⟨P, lit, hparse, hrange, hadd⟩ := hd.parse
    -- the flattened reader, and the one over the buffer
    obtain ⟨ioP, hP⟩ := hparse io
    obtain ⟨D, io₂, hD, hDs, _, hDbase, _, hDbytes⟩ :=
      create_delta hP hsound (by omega) hrange hadd verifyBase
    obtain ⟨ioP', hP'⟩ := hparse io₁
    obtain ⟨U, io₃, hU, hUs, _, _, _, hUbytes⟩ := create_plain hP' (memByteSource_delivers _ hc)
      (hsound.length_content ▸ hrange) hadd false (by simp)
    have hflat := hDs.isFlat
    rw [hDbase.trans hbase] at hflat
    refine ⟨D, U, io₂, io₃, hD, hU, hflat, ?_⟩
    intro reads t t'
    obtain ⟨st, hst, _⟩ := DeltaByteSource.preads_eq hDs reads (cacheOk_nil _ _ t)
    obtain ⟨st', hst', _⟩ := DeltaByteSource.preads_eq hUs reads (cacheOk_nil _ _ t')
    rw [hDbytes] at hst
    rw [hUbytes] at hst'
    exact ⟨_, st, st', hst, hst'⟩

/-! ### A chain of one file, with a short last block and with a long one -/

/-- A file of six literal bytes over the empty base, in the given blocks. -/
def sixFile (blocks : List BlockRec) (region : Bytes) : DeltaFile where
  blockSize := 4
  targetSize := 6
  baseSize := 0
  baseHash := 0
  segs := [⟨KIND_ADD, 6, 0⟩]
  blocks := blocks
  region := region

/-- The six bytes in a block of four and a block of two. -/
def shortFile : DeltaFile :=
  sixFile [⟨0, 13, 4⟩, ⟨13, 11, 2⟩] (storedFrame [1, 2, 3, 4] ++ storedFrame [5, 6])

/-- The six bytes in one block, which is longer than the block size. -/
def longFile : DeltaFile := sixFile [⟨0, 15, 6⟩] (storedFrame [1, 2, 3, 4, 5, 6])

/-- A file that copies the last two bytes of a base of six. -/
def tailFile : DeltaFile where
  blockSize := 4
  targetSize := 2
  baseSize := 6
  baseHash := 0
  segs := [⟨KIND_COPY, 2, 4⟩]
  blocks := []
  region := []

theorem short_encode_lt : (shortFile.encode storingZstd).length < 2 ^ 63 := by decide +kernel

theorem long_encode_lt : (longFile.encode storingZstd).length < 2 ^ 63 := by decide +kernel

theorem tail_encode_lt : (tailFile.encode storingZstd).length < 2 ^ 63 := by decide +kernel

def shortDelta : ByteSource :=
  memByteSource (shortFile.encode storingZstd) (short_encode_lt.trans (by decide))

def longDelta : ByteSource :=
  memByteSource (longFile.encode storingZstd) (long_encode_lt.trans (by decide))

def tailDelta : ByteSource :=
  memByteSource (tailFile.encode storingZstd) (tail_encode_lt.trans (by decide))

/-- The empty base. -/
def emptySource : ByteSource := memByteSource [] length_nil_lt

theorem sixFile_fits {blocks : List BlockRec} {region : Bytes} (hn : blocks.length < 2 ^ 32)
    (hb : ∀ b ∈ blocks, b.Fits) : (sixFile blocks region).Fits := by
  have h4 : 4 < 2 ^ 32 := by decide
  have h6 : 6 < 2 ^ 64 := by decide
  refine ⟨Nat.succ_pos 3, h4, h6, Nat.two_pow_pos 64, Nat.two_pow_pos 64,
    Nat.one_lt_two_pow (by decide), hn, ?_, hb, rfl⟩
  intro s hs
  obtain rfl := List.mem_singleton.1 hs
  exact ⟨by decide, by decide⟩

theorem shortFile_fits : shortFile.Fits := by
  refine sixFile_fits (by decide) ?_
  intro b hb
  rcases List.mem_pair.1 hb with rfl | rfl <;> exact ⟨by decide, by decide, by decide⟩

theorem longFile_fits : longFile.Fits := by
  refine sixFile_fits (by decide) ?_
  intro b hb
  obtain rfl := List.mem_singleton.1 hb
  exact ⟨by decide, by decide, by decide⟩

theorem tailFile_fits : tailFile.Fits := by
  refine ⟨by decide, by decide, by decide, by decide, by decide, by decide, by decide, ?_, ?_, rfl⟩
  · intro s hs
    obtain rfl := List.mem_singleton.1 hs
    exact ⟨by decide, by decide⟩
  · intro b hb
    simp [tailFile] at hb

theorem tailFile_wellFormed {extra : Parsed → Prop}
    (h : extra (tailFile.parsed storingZstd tailDelta)) :
    WellFormedDelta storingZstd extra tailDelta 6 := by
  obtain ⟨io₁, hparse⟩ := parseDelta_encode storingZstd_roundTrips tailFile_fits
    (memByteSource_delivers _ (tail_encode_lt.trans (by decide))) tail_encode_lt ⟨0, []⟩
  refine ⟨_, _, _, _, io₁, memByteSource_delivers _ _, hparse, ⟨⟨rfl, ?_, rfl, by decide⟩, ?_, ?_,
    ?_⟩, h⟩
  · intro s hs
    obtain rfl := List.mem_singleton.1 hs
    exact ⟨by decide, Or.inl ⟨rfl, by decide⟩⟩
  · intro b hb
    simp [DeltaFile.parsed, tailFile] at hb
  · intro b hb
    simp [DeltaFile.parsed, tailFile] at hb
  · intro k b hb
    simp [DeltaFile.parsed, tailFile] at hb

/-- The reader of the file with the short last block. -/
theorem shortFile_chain : ∃ b : DeltaByteSource,
    Chain storingZstd Parsed.LastFits emptySource 1 b ∧ b.targetSize = 6 := by
  have hdelivers := memByteSource_delivers _ (short_encode_lt.trans (by decide : 2 ^ 63 < 2 ^ 64))
  obtain ⟨io₁, hparse⟩ : ∃ io₁, parseDelta storingZstd shortDelta ⟨0, []⟩
      = (.ok (shortFile.parsed storingZstd shortDelta), io₁) :=
    parseDelta_encode storingZstd_roundTrips shortFile_fits hdelivers short_encode_lt ⟨0, []⟩
  have hlast : (shortFile.parsed storingZstd shortDelta).LastFits := by
    intro k b hb hk
    obtain rfl : k = 1 := by
      simp only [DeltaFile.parsed, shortFile, sixFile, List.length_cons, List.length_nil] at hk
      omega
    obtain rfl : (⟨13, 11, 2⟩ : BlockRec) = b := by
      simpa [DeltaFile.parsed, shortFile, sixFile] using hb
    decide
  have hwf : (shortFile.parsed storingZstd shortDelta).WellFormed storingZstd
      (shortFile.encode storingZstd) 0 := by
    refine ⟨⟨rfl, ?_, rfl, by decide⟩, ?_, ?_, ?_⟩
    · intro s hs
      obtain rfl := List.mem_singleton.1 hs
      exact ⟨by decide, Or.inr ⟨rfl, by decide +kernel⟩⟩
    · intro b hb
      rcases List.mem_pair.1 hb with rfl | rfl <;> decide +kernel
    · intro b hb
      rcases List.mem_pair.1 hb with rfl | rfl <;> decide +kernel
    · intro k b hb hk
      obtain rfl : k = 0 := by
        simp only [DeltaFile.parsed, shortFile, sixFile, List.length_cons, List.length_nil] at hk
        omega
      obtain rfl : (⟨0, 13, 4⟩ : BlockRec) = b := by
        simpa [DeltaFile.parsed, shortFile, sixFile] using hb
      rfl
  have hd : WellFormedDelta storingZstd Parsed.LastFits shortDelta emptySource.size :=
    ⟨_, _, _, _, io₁, hdelivers, hparse, hwf, hlast⟩
  obtain ⟨P, lit, hP, hrange, hadd⟩ := hd.parse
  obtain ⟨io₂, hio₂⟩ := hP ⟨0, []⟩
  obtain ⟨D, io', hD, _, hsize, _⟩ := create_plain hio₂
    (memByteSource_delivers [] (by decide)) hrange hadd false (by simp)
  rw [hparse] at hio₂
  obtain rfl : shortFile.parsed storingZstd shortDelta = P := by simpa using (Prod.mk.inj hio₂).1
  exact ⟨D, Chain.first hd hD, hsize⟩

/-- A delta over the reader of that chain composes to a flat reader. -/
theorem shortFile_flattens : ∃ (b : DeltaByteSource) (content : Bytes),
    content.length = b.targetSize ∧ b.targetSize = 6 ∧
      Flattens storingZstd emptySource b tailDelta content := by
  obtain ⟨b, hb, hsize⟩ := shortFile_chain
  obtain ⟨content, hlen, _, hflat⟩ := create_flattens
    (memByteSource_delivers [] (by decide)) (by decide) hb
    (hsize ▸ tailFile_wellFormed (by intro k b hb; simp [DeltaFile.parsed, tailFile] at hb))
  exact ⟨b, content, hlen, hsize, hflat⟩

/-- The reader of the file whose block is longer than the block size. -/
def longReader : DeltaByteSource where
  baseSrc := emptySource
  addSources := [(longFile.parsed storingZstd longDelta).add]
  segs := [⟨0, 6, 0, 0, KIND_ADD⟩]
  targetSize := 6

/-- The flattened reader of its last two bytes. -/
def longTailReader : DeltaByteSource where
  baseSrc := emptySource
  addSources := [(longFile.parsed storingZstd longDelta).add,
    (tailFile.parsed storingZstd tailDelta).add]
  segs := [⟨0, 2, 4, 0, KIND_ADD⟩]
  targetSize := 2

theorem longFile_chain : Chain storingZstd (fun _ => True) emptySource 1 longReader := by
  have hdelivers := memByteSource_delivers _ (long_encode_lt.trans (by decide : 2 ^ 63 < 2 ^ 64))
  obtain ⟨io₁, hparse⟩ : ∃ io₁, parseDelta storingZstd longDelta ⟨0, []⟩
      = (.ok (longFile.parsed storingZstd longDelta), io₁) :=
    parseDelta_encode storingZstd_roundTrips longFile_fits hdelivers long_encode_lt ⟨0, []⟩
  have hwf : (longFile.parsed storingZstd longDelta).WellFormed storingZstd
      (longFile.encode storingZstd) 0 := by
    refine ⟨⟨rfl, ?_, rfl, by decide⟩, ?_, ?_, ?_⟩
    · intro s hs
      obtain rfl := List.mem_singleton.1 hs
      exact ⟨by decide, Or.inr ⟨rfl, by decide +kernel⟩⟩
    · intro b hb
      obtain rfl := List.mem_singleton.1 hb
      decide +kernel
    · intro b hb
      obtain rfl := List.mem_singleton.1 hb
      decide +kernel
    · intro k b _ hk
      simp only [DeltaFile.parsed, longFile, sixFile, List.length_cons, List.length_nil] at hk
      omega
  have hcreate : create storingZstd longDelta (some (.plain emptySource)) false ⟨0, []⟩
      = (.ok longReader, io₁) := by
    rw [create, Prog.bind_of_ok hparse]
    rfl
  exact Chain.first ⟨_, _, _, _, io₁, hdelivers, hparse, hwf, trivial⟩ hcreate

/-- **A block longer than the block size is not flattened.**  The file decompresses to its declared
length and its reader yields all six bytes in one read, but the reader of the last two of them fails
where the unflattened reader returns them. -/
theorem longBlock_not_flattened :
    Chain storingZstd (fun _ => True) emptySource 1 longReader ∧
      WellFormedDelta storingZstd (fun _ => True) tailDelta longReader.targetSize ∧
      (∃ st, longReader.preads storingZstd [(6, 0)] ⟨0, [], []⟩
        = (.ok [[1, 2, 3, 4, 5, 6]], st)) ∧
      ¬ Flattens storingZstd emptySource longReader tailDelta [1, 2, 3, 4, 5, 6] := by
  refine ⟨longFile_chain, tailFile_wellFormed trivial, ⟨⟨_, _, _⟩, rfl⟩, ?_⟩
  intro hflat
  obtain ⟨io₁, hparse⟩ : ∃ io₁, parseDelta storingZstd tailDelta ⟨0, []⟩
      = (.ok (tailFile.parsed storingZstd tailDelta), io₁) :=
    parseDelta_encode storingZstd_roundTrips tailFile_fits
      (memByteSource_delivers _ (tail_encode_lt.trans (by decide))) tail_encode_lt ⟨0, []⟩
  have hcreate : create storingZstd tailDelta (some (.delta longReader)) false ⟨0, []⟩
      = (.ok longTailReader, io₁) := by
    rw [create, Prog.bind_of_ok hparse]
    rfl
  obtain ⟨D, U, io₂, io₃, hD, _, _, hreads⟩ := hflat false ⟨0, []⟩ ⟨0, []⟩ (by decide)
  obtain rfl : longTailReader = D := by
    rw [hcreate] at hD
    simpa using (Prod.mk.inj hD).1
  obtain ⟨bytes, st, st', hst, _⟩ := hreads [(2, 0)] 0 0
  have heio : longTailReader.preads storingZstd [(2, 0)] ⟨0, [], []⟩
      = (.error (.errno .eio), ⟨0, [], []⟩) := rfl
  rw [heio] at hst
  simp at hst

end VidyaGodFS
