/-
**The check of a delta against its target.**

`verifyDelta` composes the delta over its base and compares what the reader yields with the target,
in chunks of 8 MiB, the last one shorter.  Before each chunk the callback is asked whether to go on;
after the last it is told once more, and its answer is not looked at.

What a reader yields at an offset can depend on where the read started: a literal block may be longer
than the block size, and a read that comes from before goes on to its end, where one that starts past
the block size takes the next block.  In a map without such blocks every read yields the same bytes.

Main definitions:

* `DeltaByteSource.preadAll` — an exact read of a reader;
* `verifyLoop`, `verifyDelta` — the check;
* `DeltaByteSource.ReadsAs` — every read returns the bytes of one content;
* `Approves` — the callback goes on at each chunk;
* `DeltaByteSource.byteAt`, `DeltaByteSource.InBlocks` — the byte that a map stands for at an offset,
  and maps without a block longer than the block size.

Main results:

* `verifyLoop_iff` — the chunks cover every byte;
* `verifyDelta_readsAs` — the check of a reader that reads as one content;
* `DeltaByteSource.readsAs_byteAt` — a readable map without long blocks reads as its bytes;
* `verifyDelta_iff` — **what verification accepts**;
* `longBlock_verified`, `longChain_refused` — a file accepted though bytes of it read alone differ, and
  a chain of generated files of which the last is refused;
* `longChain_misread` — the reader of that chain does not read as the target.
-/

import VidyaGodFS.BlockCache
import VidyaGodFS.ChainArchive
import VidyaGodFS.DeltaAccept
import VidyaGodFS.DeltaMatch

set_option relaxedAutoImplicit false
set_option autoImplicit false

namespace VidyaGodFS

/-! ### The check -/

namespace DeltaByteSource

/-- The loop of `preadAll` over a reader, with `n` bytes to go at `off`.  Every turn that goes on has
read a byte. -/
def preadAllLoop (z : Zstd) (D : DeltaByteSource) :
    ℕ → ℕ → ℕ → Bytes → Prog ReadState ReadErr (Option Bytes)
  | 0, _, _, done => pure (some done)
  | fuel + 1, n, off, done =>
      if n = 0 then pure (some done) else do
        match ← Prog.attempt (D.pread z n off) with
        | .error (.errno _) => pure none
        | .error .hang => Prog.fail .hang
        | .ok [] => pure none
        | .ok (b :: bs) =>
            D.preadAllLoop z fuel (n - (b :: bs).length) (add64 off (b :: bs).length)
              (done ++ b :: bs)

/-- Exactly `n` bytes of the target at `off`; `none` on its end or on an error. -/
def preadAll (z : Zstd) (D : DeltaByteSource) (n off : ℕ) : Prog ReadState ReadErr (Option Bytes) :=
  D.preadAllLoop z n n off []

end DeltaByteSource

/-- Why a verification does not return true: a message, an exception, or a read that never ends. -/
inductive VerifyErr
  | refused (msg : String)
  | threw
  | hang
  deriving DecidableEq, Repr

/-- The callback: the number of its call, the stage, done and total. -/
abbrev ProgressFn : Type := ℕ → ℕ → ℕ → ℕ → Bool

/-- The length of a chunk: 8 MiB. -/
def CH : ℕ := 8388608

/-- An exact read of the reader, whose one error is a read that never ends. -/
def reconstruct (z : Zstd) (D : DeltaByteSource) (n off : ℕ) :
    Prog ReadState VerifyErr (Option Bytes) := fun s =>
  match D.preadAll z n off s with
  | (.ok r, s') => (.ok r, s')
  | (.error _, s') => (.error .hang, s')

/-- An exact read of the target, on the clock. -/
def readTarget (target : ByteSource) (n off : ℕ) : Prog ReadState VerifyErr (Option Bytes) :=
  Prog.zoom ReadState.clock (fun t s => { s with clock := t }) (target.preadAll n off)

/-- The loop over the chunks of `ch` bytes from `off` on, after `polls` calls of the callback. -/
def verifyLoop (z : Zstd) (D : DeltaByteSource) (target : ByteSource) (progress : Option ProgressFn)
    (ch N : ℕ) : ℕ → ℕ → ℕ → Prog ReadState VerifyErr Unit
  | 0, _, off => if N ≤ off then pure () else Prog.fail .hang
  | fuel + 1, polls, off =>
      if N ≤ off then pure () else
      if progress.any fun f => !f polls 2 off N then Prog.fail (.refused "cancelled") else do
        let want := min ch (N - off)
        match ← reconstruct z D want off with
        | none => Prog.fail (.refused ("reconstruction read failed at " ++ toString off))
        | some a =>
            match ← readTarget target want off with
            | none => Prog.fail (.refused ("target read failed at " ++ toString off))
            | some b =>
                if a ≠ b then Prog.fail (.refused ("byte mismatch in chunk at " ++ toString off))
                else verifyLoop z D target progress ch N fuel (polls + 1) (off + want)

/-- **The check of the delta `delta` over `base` against `target`**, from the clock `t` on.  The
report of the end does not change the result. -/
def verifyDelta (z : Zstd) (delta : Bytes) (hlt : delta.length < 2 ^ 64) (base : Option Source)
    (target : ByteSource) (progress : Option ProgressFn) (t : ℕ) : Except VerifyErr Unit :=
  match create z (memByteSource delta hlt) base false ⟨t, []⟩ with
  | (.error .threw, _) => .error .threw
  | (.error (.refused derr), _) => .error (.refused ("compose failed: " ++ derr))
  | (.ok D, io) =>
      let N := target.size
      if D.targetSize ≠ N then
        .error (.refused ("size mismatch: reconstructed " ++ toString D.targetSize ++ " vs target "
          ++ toString N))
      else (verifyLoop z D target progress CH N N 0 0 ⟨io.clock, [], []⟩).1

/-! ### What the check accepts of a reader that reads as one content -/

/-- **Every read returns the bytes of `content`**, whatever was read before and whatever the clock. -/
def DeltaByteSource.ReadsAs (z : Zstd) (D : DeltaByteSource) (content : Bytes) : Prop :=
  content.length = D.targetSize ∧ ∃ I : ReadState → Prop, (∀ t, I ⟨t, [], []⟩) ∧
    (∀ s t, I s → I { s with clock := t }) ∧
    ∀ n off s, I s → ∃ s', D.pread z n off s = (.ok (slice content off n), s') ∧ I s'

/-- **The callback goes on** at each chunk: its call number `k` comes before the chunk number `k`. -/
def Approves (progress : Option ProgressFn) (N : ℕ) : Prop :=
  ∀ f, progress = some f → ∀ k, k * CH < N → f k 2 (k * CH) N = true

section Loop

variable {z : Zstd} {D : DeltaByteSource} {content : Bytes} {I : ReadState → Prop}

/-- A read that returns all its bytes is exact. -/
theorem reconstruct_of_pread {n off : ℕ} {bs : Bytes} {s s' : ReadState} (hpos : 0 < n)
    (hread : D.pread z n off s = (.ok bs, s')) (hlen : bs.length = n) :
    reconstruct z D n off s = (.ok (some bs), s') := by
  obtain ⟨m, rfl⟩ : ∃ m, n = m + 1 := ⟨n - 1, by omega⟩
  obtain ⟨b, bs, rfl⟩ : ∃ b bs', bs = b :: bs' := List.exists_cons_of_length_pos (by omega)
  have hstep : Prog.attempt (D.pread z (m + 1) off) s
      = ((.ok (.ok (b :: bs)), s') : Except ReadErr (Except ReadErr Bytes) × ReadState) := by
    rw [Prog.attempt_apply, hread]
  have hall : D.preadAll z (m + 1) off s = (.ok (some (b :: bs)), s') := by
    rw [DeltaByteSource.preadAll, DeltaByteSource.preadAllLoop, if_neg (by omega),
      Prog.bind_of_ok hstep]
    dsimp only
    rw [hlen, Nat.sub_self, List.nil_append]
    cases m <;> rfl
  rw [reconstruct, hall]

/-- A read of the target inside its bytes. -/
theorem readTarget_delivers {target : ByteSource} {tbytes : Bytes} (h : target.Delivers tbytes)
    {n off : ℕ} (hin : off + n ≤ tbytes.length) (s : ReadState) :
    ∃ t', readTarget target n off s = (.ok (some (slice tbytes off n)), { s with clock := t' }) := by
  obtain ⟨t', h₂⟩ := ByteSource.preadAll_delivers (ε := VerifyErr) h hin s.clock
  exact ⟨t', by rw [readTarget, Prog.zoom_apply, h₂]⟩

/-- Two byte strings agree from `off` on when they agree on the first bytes from there and from there
on. -/
theorem drop_eq_iff_slice (a b : Bytes) (off n : ℕ) :
    a.drop off = b.drop off ↔
      slice a off n = slice b off n ∧ a.drop (off + n) = b.drop (off + n) := by
  have hsplit : ∀ l : Bytes, l.drop off = slice l off n ++ l.drop (off + n) := by
    intro l
    rw [slice, ← List.drop_drop, List.take_append_drop]
  constructor
  · intro h
    exact ⟨by rw [slice, slice, h], by rw [← List.drop_drop, ← List.drop_drop, h]⟩
  · rintro ⟨hfirst, hrest⟩
    rw [hsplit a, hsplit b, hfirst, hrest]

/-- **The chunks cover every byte**: from the chunk number `k` on the loop accepts exactly when the
rest of the content is the rest of the target, and the callback goes on at each chunk. -/
theorem verifyLoop_iff {target : ByteSource} {tbytes : Bytes} {ch N : ℕ}
    (hch : 0 < ch) (progress : Option ProgressFn) (hclock : ∀ s t, I s → I { s with clock := t })
    (hread : ∀ n off s, I s → ∃ s', D.pread z n off s = (.ok (slice content off n), s') ∧ I s')
    (htarget : target.Delivers tbytes) (hcontent : content.length = N) (hN : tbytes.length = N) :
    ∀ (fuel k : ℕ) (s : ReadState), N ≤ min (k * ch) N + fuel → I s →
      ((verifyLoop z D target progress ch N fuel k (min (k * ch) N) s).1 = .ok () ↔
        content.drop (min (k * ch) N) = tbytes.drop (min (k * ch) N) ∧
          ∀ f, progress = some f → ∀ j, k ≤ j → j * ch < N → f j 2 (j * ch) N = true) := by
  -- past the end nothing is left to compare
  have hdone : ∀ k, N ≤ k * ch → (content.drop (min (k * ch) N) = tbytes.drop (min (k * ch) N) ∧
      ∀ f, progress = some f → ∀ j, k ≤ j → j * ch < N → f j 2 (j * ch) N = true) := by
    intro k hk
    refine ⟨?_, fun f _ j hj hlt => ?_⟩
    · rw [Nat.min_eq_right hk, List.drop_of_length_le (by omega), List.drop_of_length_le (by omega)]
    · have := Nat.mul_le_mul_right ch hj
      omega
  intro fuel
  induction fuel with
  | zero =>
      intro k s hf _
      have hk : N ≤ k * ch := by omega
      rw [verifyLoop, if_pos (by omega)]
      exact iff_of_true rfl (hdone k hk)
  | succ fuel ih =>
      intro k s hf hs
      rw [verifyLoop]
      by_cases hk : N ≤ k * ch
      · rw [if_pos (by omega)]
        exact iff_of_true rfl (hdone k hk)
      have hoff : min (k * ch) N = k * ch := by omega
      rw [hoff, if_neg hk]
      by_cases hcancel : progress.any fun f => !f k 2 (k * ch) N
      · rw [if_pos hcancel]
        refine iff_of_false (by simp) ?_
        rintro ⟨_, happ⟩
        cases progress with
        | none => simp at hcancel
        | some f => simp [happ f rfl k le_rfl (Nat.not_le.1 hk)] at hcancel
      rw [if_neg hcancel]
      have hgo : ∀ f, progress = some f → f k 2 (k * ch) N = true := by
        rintro f rfl
        simpa using hcancel
      have hpos : 0 < min ch (N - k * ch) := by
        omega
      obtain ⟨s₁, hpread, hs₁⟩ := hread (min ch (N - k * ch)) (k * ch) s hs
      have h₁ := reconstruct_of_pread hpos hpread (length_slice_of_le (by omega))
      obtain ⟨t', h₂⟩ := readTarget_delivers htarget
        (by omega : k * ch + min ch (N - k * ch) ≤ tbytes.length) s₁
      rw [Prog.bind_of_ok h₁]
      dsimp only
      rw [Prog.bind_of_ok h₂]
      dsimp only
      have hnext : k * ch + min ch (N - k * ch) = min ((k + 1) * ch) N := by
        rw [Nat.succ_mul]
        omega
      rw [drop_eq_iff_slice content tbytes (k * ch) (min ch (N - k * ch)), hnext]
      by_cases heq : slice content (k * ch) (min ch (N - k * ch))
          ≠ slice tbytes (k * ch) (min ch (N - k * ch))
      · rw [if_pos heq]
        exact iff_of_false (by simp) fun h => heq h.1.1
      · rw [if_neg heq, ih (k + 1) _ (by omega) (hclock _ _ hs₁)]
        rw [not_not] at heq
        constructor
        · rintro ⟨hrest, happ⟩
          refine ⟨⟨heq, hrest⟩, fun f hf' j hj hlt => ?_⟩
          rcases Nat.eq_or_lt_of_le hj with rfl | hlt'
          · exact hgo f hf'
          · exact happ f hf' j hlt' hlt
        · rintro ⟨⟨_, hrest⟩, happ⟩
          exact ⟨hrest, fun f hf' j hj hlt => happ f hf' j (by omega) hlt⟩

end Loop

/-- **What the check accepts**: of a delta that composes to a reader which reads as one content, that
the content is the target and the callback goes on. -/
theorem verifyDelta_readsAs {z : Zstd} {delta : Bytes} {hlt : delta.length < 2 ^ 64}
    {base : Option Source} {target : ByteSource} {tbytes content : Bytes} {t : ℕ}
    {D : DeltaByteSource} {io : Io}
    (hcreate : create z (memByteSource delta hlt) base false ⟨t, []⟩ = (.ok D, io))
    (hreads : D.ReadsAs z content) (htarget : target.Delivers tbytes)
    (progress : Option ProgressFn) :
    verifyDelta z delta hlt base target progress t = .ok () ↔
      content = tbytes ∧ Approves progress tbytes.length := by
  obtain ⟨hlen, I, hfresh, hclock, hread⟩ := hreads
  rw [verifyDelta, hcreate]
  dsimp only
  by_cases hsize : D.targetSize ≠ target.size
  · rw [if_pos hsize]
    refine iff_of_false (by simp) ?_
    rintro ⟨rfl, _⟩
    exact hsize (hlen.symm.trans htarget.size_eq.symm)
  · rw [if_neg hsize]
    rw [not_not] at hsize
    have hN : tbytes.length = target.size := htarget.size_eq.symm
    have hloop := verifyLoop_iff (by simp [CH] : 0 < CH) progress hclock hread htarget
        (hlen.trans hsize) hN target.size 0
      ⟨io.clock, [], []⟩ (by omega) (hfresh _)
    rw [Nat.zero_mul, Nat.zero_min, List.drop_zero, List.drop_zero] at hloop
    rw [hloop, Approves, hN]
    simp

/-- A sound reader reads as the bytes it stands for. -/
theorem DeltaByteSource.StandsFor.reads_content {z : Zstd} {D : DeltaByteSource} {content : Bytes}
    (h : D.StandsFor z content) : D.ReadsAs z content := by
  obtain ⟨under, lits, hsound, rfl⟩ := h
  exact ⟨hsound.length_content, CacheOk D.addSources lits, cacheOk_nil _ _,
    fun _ t hs => CacheOk.clock hs t, fun n off _ hs => DeltaByteSource.pread_eq hsound n off hs⟩

/-! ### The bytes of a readable map -/

/-- The literal at `x`, where its block can be read. -/
def litByte (z : Zstd) (A : AddSource) (x : ℕ) : UInt8 :=
  match (loadBlock z A (x / A.blockSize) ⟨0, [], []⟩).1 with
  | .ok (some raw) => raw.getD (x % A.blockSize) 0
  | _ => 0

/-- The byte of the base at `x`, where it can be read. -/
def baseByte (src : ByteSource) (x : ℕ) : UInt8 :=
  match src.pread 0 1 x with
  | .ok (c :: _) => c
  | _ => 0

namespace DeltaByteSource

/-- The byte that a segment stands for, `i` bytes after its start. -/
def segByte (z : Zstd) (D : DeltaByteSource) (s : FlatSeg) (i : ℕ) : UInt8 :=
  if s.kind = KIND_COPY then baseByte D.baseSrc (s.srcOff + i)
  else
    match D.addSources[s.addSrc]? with
    | none => 0
    | some A => litByte z A (s.srcOff + i)

/-- **The byte that a map stands for** at the offset `o`. -/
def byteAt (z : Zstd) (D : DeltaByteSource) (o : ℕ) : UInt8 :=
  match D.segs[segAt D.segs o]? with
  | none => 0
  | some s => D.segByte z s (o - s.targetOff)

/-- No block of literals is longer than the block size of its file. -/
def InBlocks (D : DeltaByteSource) : Prop :=
  ∀ A ∈ D.addSources, ∀ b ∈ A.blocks, b.uncompLen ≤ A.blockSize

/-- **Every cached block is what reading the block of its key gives.** -/
def CacheTrue (z : Zstd) (D : DeltaByteSource) (s : ReadState) : Prop :=
  ∀ (q : BlockAsk D) (raw : Bytes), s.cache.lookup q.key = some raw → q.Gives z (some raw)

variable {z : Zstd} {D : DeltaByteSource}

theorem cacheTrue_nil (t : ℕ) : D.CacheTrue z ⟨t, [], []⟩ := fun q raw h => by simp at h

theorem CacheTrue.clock {s : ReadState} (h : D.CacheTrue z s) (t : ℕ) :
    D.CacheTrue z { s with clock := t } := h

/-- The base at an offset inside it. -/
theorem baseByte_eq {src : ByteSource} {base : Bytes} (h : src.Delivers base) {x : ℕ}
    (hx : x < base.length) : baseByte src x = base.getD x 0 := by
  obtain ⟨k, hk, hk1, hread⟩ := h.read_eq (t := 0) Nat.zero_lt_one (by omega : x + 1 ≤ base.length)
  obtain rfl : k = 1 := by omega
  rw [baseByte, hread, slice_eq_valuesFrom (by omega) 0, valuesFrom_one]

/-- **A block of a file that delivers** is read in its declared length, and its bytes are the
literals from its multiple of the block size on. -/
theorem gives_of_sized (hdel : D.Delivers z) (q : BlockAsk D) {b : BlockRec}
    (hb : q.A.blocks[q.blk]? = some b) : ∃ raw, q.Gives z (some raw) ∧ raw.length = b.uncompLen ∧
      ∀ i, i < q.A.blockSize → litByte z q.A (q.blk * q.A.blockSize + i) = raw.getD i 0 := by
  obtain ⟨file, hfile, hin, hlen⟩ := hdel.2 q.A (List.mem_of_getElem? q.held) b
    (List.mem_of_getElem? hb)
  have hget : q.A.blocks.getD q.blk ⟨0, 0, 0⟩ = b := by
    rw [List.getD_eq_getElem?_getD, hb, Option.getD_some]
  have hgives : q.Gives z (some (zDecompress z
      (slice file (add64 q.A.regionOff b.compOff) b.compLen) b.uncompLen)) := by
    intro s
    obtain ⟨t', hframe⟩ : ∃ t', (if b.compLen = 0 then pure (some [])
        else readFile q.A.file b.compLen (add64 q.A.regionOff b.compOff) :
          Prog ReadState ReadErr (Option Bytes)) s
        = (.ok (some (slice file (add64 q.A.regionOff b.compOff) b.compLen)),
            { s with clock := t' }) := by
      by_cases h0 : b.compLen = 0
      · exact ⟨s.clock, by rw [if_pos h0, h0, slice_zero]; rfl⟩
      · rw [if_neg h0]
        exact readFile_delivers hfile _ _ hin s
    rw [loadBlock, hget, Prog.bind_of_ok hframe]
    dsimp only
    rw [if_neg (not_not.2 hlen)]
    rfl
  refine ⟨_, hgives, hlen, fun i hi => ?_⟩
  have hdiv : (q.blk * q.A.blockSize + i) / q.A.blockSize = q.blk := by
    rw [Nat.mul_comm, Nat.mul_add_div (by omega), Nat.div_eq_of_lt hi, Nat.add_zero]
  have hmod : (q.blk * q.A.blockSize + i) % q.A.blockSize = i := by
    rw [Nat.add_comm, Nat.add_mul_mod_self_right, Nat.mod_eq_of_lt hi]
  rw [litByte, hdiv, hmod, hgives]

/-- A block is read right, from a cache that is right, which stays so. -/
theorem getAddBlock_gives (hF : KeysApart (D.addSources[·]?)) {q : BlockAsk D} {raw : Bytes}
    (hq : q.Gives z (some raw)) {s : ReadState} (hs : D.CacheTrue z s) :
    ∃ s', getAddBlock z q.addSrc q.A q.blk s = (.ok (some raw), s') ∧ D.CacheTrue z s' := by
  rw [getAddBlock_parts]
  cases hlook : s.cache.lookup (blockKey q.addSrc q.blk) with
  | some raw' =>
      obtain rfl : raw' = raw := by
        have hfirst := hs q raw' hlook ⟨0, [], []⟩
        rw [hq ⟨0, [], []⟩] at hfirst
        simpa using hfirst.symm
      exact ⟨s, rfl, hs⟩
  | none =>
      obtain ⟨r, t', hrun⟩ := loadBlock_run z q.A q.blk s
      obtain rfl : r = some raw := by
        have hfirst := hq s
        rw [hrun] at hfirst
        exact Except.ok.inj hfirst
      rw [hrun]
      refine ⟨_, rfl, fun q' raw' h => ?_⟩
      rcases lookup_remember h with ⟨hkey, rfl⟩ | hold
      · rw [BlockAsk.eq_of_key hF (hkey : q'.key = q.key)]
        exact hq
      · exact hs q' raw' hold

/-- **Literals that lie in their blocks are read right.** -/
theorem readAddLoop_bytes (hF : KeysApart (D.addSources[·]?)) (hdel : D.Delivers z)
    (hlong : D.InBlocks) {i : ℕ} {A : AddSource} (hA : D.addSources[i]? = some A) :
    ∀ (fuel n o : ℕ) (out : Bytes) (s : ReadState), n ≤ fuel → o + n < 2 ^ 64 →
      (∀ x, o ≤ x → x < o + n → A.InBlock x) → D.CacheTrue z s →
      ∃ s', readAddLoop z i A fuel n o out s = (.ok (out ++ valuesFrom (litByte z A) o n), s') ∧
        D.CacheTrue z s' := by
  intro fuel
  induction fuel with
  | zero =>
      intro n o out s hn _ _ hs
      obtain rfl : n = 0 := by omega
      exact ⟨s, by simp [readAddLoop], hs⟩
  | succ fuel ih =>
      intro n o out s hn ho hin hs
      rcases Nat.eq_zero_or_pos n with rfl | hpos
      · exact ⟨s, by simp [readAddLoop], hs⟩
      obtain ⟨b, hb, hlt⟩ := hin o le_rfl (by omega)
      have hblk := (List.getElem?_eq_some_iff.1 hb).1
      have hshort := hlong A (List.mem_of_getElem? hA) b (List.mem_of_getElem? hb)
      obtain ⟨raw, hgives, hlen, hbytes⟩ := gives_of_sized hdel ⟨i, o / A.blockSize, A, hA, hblk⟩ hb
      obtain ⟨s₁, h₁, hs₁⟩ := getAddBlock_gives hF hgives hs
      dsimp only at h₁ hbytes
      have ho' : o / A.blockSize * A.blockSize + o % A.blockSize = o :=
        Nat.div_add_mod' o A.blockSize
      generalize htake : min n (raw.length - o % A.blockSize) = k
      -- the bytes of the block from the offset on
      have hpart : slice raw (o % A.blockSize) k = valuesFrom (litByte z A) o k := by
        rw [slice_eq_valuesFrom (by omega) 0]
        refine valuesFrom_congr fun j hj => ?_
        rw [← hbytes (o % A.blockSize + j) (by omega), ← Nat.add_assoc, ho']
      obtain ⟨s₂, h₂, hs₂⟩ := ih (n - k) (o + k) (out ++ valuesFrom (litByte z A) o k) s₁ (by omega)
        (by omega) (fun x hx hx' => hin x (by omega) (by omega)) hs₁
      refine ⟨s₂, ?_, hs₂⟩
      rw [readAddLoop, if_neg (by omega), if_neg (by omega), Prog.bind_of_ok h₁]
      dsimp only
      rw [if_neg (by omega), htake, hpart, add64_eq (by omega), h₂, List.append_assoc,
        valuesFrom_append, Nat.add_sub_cancel' (by omega)]

/-- **A part of a segment is read right.** -/
theorem readSeg_bytes (hD : Built z D) (hF : KeysApart (D.addSources[·]?)) (hdel : D.Delivers z)
    (hlong : D.InBlocks) {s : FlatSeg} (hs : s.Fits D.baseSrc D.addSources)
    (hhole : s.NoHole D.addSources) {skip chunk : ℕ} (hin : skip + chunk ≤ s.len) {st : ReadState}
    (hst : D.CacheTrue z st) :
    ∃ st', D.readSeg z s skip chunk st = (.ok (valuesFrom (D.segByte z s) skip chunk), st') ∧
      D.CacheTrue z st' := by
  have hend := hs.end_lt hD
  rw [readSeg, add64_eq (by omega)]
  by_cases hk : s.kind = KIND_COPY
  · obtain ⟨_, ⟨_, hr⟩ | ⟨hk', _⟩⟩ := hs
    · obtain ⟨base, hbase⟩ := hdel.1
      have hlen := hbase.size_eq
      obtain ⟨t', ht'⟩ := readCopy_eq hbase chunk (s.srcOff + skip) (by omega) st
      refine ⟨_, ?_, hst.clock t'⟩
      have hpart : slice base (s.srcOff + skip) chunk = valuesFrom (D.segByte z s) skip chunk := by
        rw [slice_eq_valuesFrom (by omega) 0]
        refine valuesFrom_congr fun j hj => ?_
        rw [segByte, if_pos hk, baseByte_eq hbase (by omega), Nat.add_assoc]
      rw [if_pos hk, ht', hpart]
    · rw [hk] at hk'
      exact absurd hk' (by decide)
  · obtain ⟨_, ⟨hk', _⟩ | ⟨hk', A, hA, hr⟩⟩ := hs
    · exact absurd hk' hk
    · obtain ⟨st', hst', htrue⟩ := readAddLoop_bytes hF hdel hlong hA chunk chunk (s.srcOff + skip) []
        st le_rfl (by omega) (fun x hx hx' => hhole hk' A hA x (by omega) (by omega)) hst
      refine ⟨st', ?_, htrue⟩
      have hpart : valuesFrom (litByte z A) (s.srcOff + skip) chunk
          = valuesFrom (D.segByte z s) skip chunk := by
        refine valuesFrom_congr fun j _ => ?_
        rw [segByte, if_neg hk, hA, Nat.add_assoc]
      rw [if_neg hk, hA]
      dsimp only
      rw [readAdd, hst', List.nil_append, hpart]

/-- In a map in order the byte at an offset is the one of the segment that covers it. -/
theorem byteAt_eq (hflat : D.IsFlat D.baseSrc) {s : FlatSeg} (hs : s ∈ D.segs) {o : ℕ}
    (ho : s.targetOff ≤ o ∧ o < s.targetOff + s.len) (hlt : o < D.targetSize) :
    D.byteAt z o = D.segByte z s (o - s.targetOff) := by
  have htot := hflat.covers
  obtain ⟨s', rest, hdrop, hlo, hhi⟩ := segAt_spec hflat.placed (o := o) (by omega)
  have hget : D.segs[segAt D.segs o]? = some s' := by
    rw [← List.head?_drop, hdrop]
    rfl
  obtain rfl := hflat.placed.cover_unique hs (List.mem_of_getElem? hget) ho ⟨hlo, hhi⟩
  rw [byteAt, hget]

/-- The loop of a read over segments without holes yields the bytes of the map. -/
theorem preadSegs_bytes (hD : Built z D) (hF : KeysApart (D.addSources[·]?)) (hdel : D.Delivers z)
    (hlong : D.InBlocks) {off want : ℕ} (hoff : off + want < 2 ^ 64) :
    ∀ (segs : List FlatSeg) (t done : ℕ) (out : Bytes) (st : ReadState),
      (∀ s ∈ segs, s.Fits D.baseSrc D.addSources ∧ s.NoHole D.addSources ∧
        ∀ o, s.targetOff ≤ o → o < s.targetOff + s.len →
          D.byteAt z o = D.segByte z s (o - s.targetOff)) → Placed t segs →
      t + totalLen segs < 2 ^ 64 → t ≤ off + done → done ≤ want →
      off + want ≤ t + totalLen segs → (∀ s ∈ segs.head?, off + done < t + s.len) →
      D.CacheTrue z st →
      ∃ st', D.preadSegs z off want segs done (off + done) out st
          = (.ok (out ++ valuesFrom (D.byteAt z) (off + done) (want - done)), st') ∧
        D.CacheTrue z st' := by
  intro segs
  induction segs with
  | nil =>
      intro t done out st _ _ _ ht hdone hend _ hst
      rw [totalLen_nil] at hend
      have hfull : want - done = 0 := by omega
      exact ⟨st, by rw [hfull]; simp [preadSegs], hst⟩
  | cons s segs ih =>
      intro t done out st hr hpl hlt ht hdone hend hhead hst
      obtain ⟨rfl, hpl'⟩ := hpl
      rw [totalLen_cons] at hlt hend
      have hin := hhead s rfl
      obtain ⟨hs, hhole, hbyte⟩ := hr s (by simp)
      by_cases hfull : want ≤ done
      · exact ⟨st, by rw [preadSegs_full hfull, Nat.sub_eq_zero_of_le hfull]; simp, hst⟩
      rw [preadSegs, if_neg hfull]
      dsimp only
      rw [add64_eq (by omega), if_neg (by omega), add64_eq hoff,
        sub64_eq (by omega) (by omega), sub64_eq (by omega) (by omega)]
      generalize hchunk : min (s.targetOff + s.len) (off + want) - (off + done) = chunk
      obtain ⟨st₁, h₁, hst₁⟩ := readSeg_bytes hD hF hdel hlong hs hhole
        (by omega : off + done - s.targetOff + chunk ≤ s.len) hst
      have hpart : valuesFrom (D.segByte z s) (off + done - s.targetOff) chunk
          = valuesFrom (D.byteAt z) (off + done) chunk := by
        refine valuesFrom_congr fun j hj => ?_
        rw [hbyte (off + done + j) (by omega) (by omega)]
        congr 1
        omega
      rw [Prog.bind_of_ok h₁, hpart, add64_eq (by omega), add64_eq (by omega), Nat.add_assoc off]
      by_cases hcase : off + want ≤ s.targetOff + s.len
      · -- the range ends in this segment
        have hall : want - done = chunk := by omega
        exact ⟨st₁, by rw [preadSegs_full (by omega), hall], hst₁⟩
      · -- the range goes on in the next segment
        obtain ⟨st₂, h₂, hst₂⟩ := ih (s.targetOff + s.len) (done + chunk)
          (out ++ valuesFrom (D.byteAt z) (off + done) chunk) st₁
          (fun s' hs' => hr s' (by simp [hs'])) hpl' (by omega) (by omega) (by omega) (by omega)
          (by
            intro s' hs'
            have hpos := (hr s' (List.mem_cons_of_mem _ (List.mem_of_mem_head? hs'))).1.1
            omega) hst₁
        refine ⟨st₂, ?_, hst₂⟩
        have hrest : want - done = chunk + (want - (done + chunk)) := by omega
        rw [h₂, List.append_assoc, ← Nat.add_assoc, valuesFrom_append, ← hrest]

/-- **A readable map without long blocks reads as its bytes.** -/
theorem readsAs_byteAt (hD : Built z D) (hn : D.addSources.length ≤ 2 ^ 24)
    (hflat : D.IsFlat D.baseSrc) (hdel : D.Delivers z) (hread : D.Readable z)
    (hlong : D.InBlocks) : D.ReadsAs z (valuesFrom (D.byteAt z) 0 D.targetSize) := by
  have hF := hD.keysApart hn
  have hsz := hD.targetSize_lt
  have hhole := noHole_of_readable hF hflat
    (fun s hs => FlatSeg.Fits.end_lt hD (hflat.inRange s hs)) hsz hread
  refine ⟨by simp, D.CacheTrue z, cacheTrue_nil, fun s t hs => hs.clock t, fun n off st hst => ?_⟩
  rw [slice_valuesFrom, Nat.zero_add]
  have htot := hflat.covers
  by_cases hend : D.targetSize ≤ off ∨ D.segs = []
  · have hpast : D.targetSize ≤ off := by
      rcases hend with hle | hnil
      · exact hle
      · rw [hnil, totalLen_nil] at htot
        omega
    refine ⟨st, ?_, hst⟩
    rw [pread, if_pos hend, Nat.sub_eq_zero_of_le hpast, Nat.min_zero]
    rfl
  · obtain ⟨s, rest, hdrop, hlo, hhi⟩ := segAt_spec hflat.placed (o := off) (by omega)
    have hsplit : D.segs = D.segs.take (segAt D.segs off) ++ s :: rest := by
      rw [← hdrop, List.take_append_drop]
    have hmem : ∀ x ∈ s :: rest, x ∈ D.segs := by
      intro x hx
      rw [hsplit]
      exact List.mem_append_right _ hx
    have hpl := hflat.placed
    rw [hsplit] at hpl
    have hpl' := hpl.append
    rw [Nat.zero_add] at hpl'
    have hstart : s.targetOff = totalLen (D.segs.take (segAt D.segs off)) := hpl'.1
    have hsum := htot
    rw [hsplit, totalLen_append] at hsum
    have hr : ∀ x ∈ s :: rest, x.Fits D.baseSrc D.addSources ∧ x.NoHole D.addSources ∧
        ∀ o, x.targetOff ≤ o → o < x.targetOff + x.len →
          D.byteAt z o = D.segByte z x (o - x.targetOff) := by
      intro x hx
      refine ⟨hflat.inRange x (hmem x hx), hhole x (hmem x hx), fun o hlo hhi => ?_⟩
      have hin := hflat.placed.end_le (hmem x hx)
      exact byteAt_eq hflat (hmem x hx) ⟨hlo, hhi⟩ (by omega)
    obtain ⟨st', h', hst'⟩ := preadSegs_bytes hD hF hdel hlong
      (by omega : off + min n (D.targetSize - off) < 2 ^ 64) (s :: rest) s.targetOff 0 [] st hr
      (hstart ▸ hpl') (by omega) (by omega) (by omega) (by omega)
      (by
        intro s' hs'
        obtain rfl : s = s' := by simpa using hs'
        omega) hst
    refine ⟨st', ?_, hst'⟩
    rw [Nat.add_zero] at h'
    rw [pread, if_neg hend, hdrop, h', List.nil_append, Nat.sub_zero]

end DeltaByteSource

/-! ### What verification accepts -/

/-- A reader reads as `content`, when every one of its bytes, read alone, is that of `content`. -/
theorem DeltaByteSource.ReadsAs.eq_iff {z : Zstd} {D : DeltaByteSource} {content tbytes : Bytes}
    (h : D.ReadsAs z content) (hlen : tbytes.length = D.targetSize) :
    content = tbytes ↔ ∀ o < D.targetSize, ∀ t,
      (D.pread z 1 o ⟨t, [], []⟩).1 = .ok [tbytes.getD o 0] := by
  obtain ⟨hsize, I, hfresh, _, hread⟩ := h
  have hbyte : ∀ o < D.targetSize, ∀ t,
      (D.pread z 1 o ⟨t, [], []⟩).1 = .ok [content.getD o 0] := by
    intro o ho t
    obtain ⟨s', hs', _⟩ := hread 1 o ⟨t, [], []⟩ (hfresh t)
    rw [hs', slice_eq_valuesFrom (by omega) 0, valuesFrom_one]
  constructor
  · rintro rfl
    exact hbyte
  · intro hsame
    refine List.ext_getElem (by omega) fun o ho ho' => ?_
    have hboth := (hbyte o (by omega) 0).symm.trans (hsame o (by omega) 0)
    simpa [List.getD_eq_getElem?_getD, ho, ho'] using hboth

/-- **What verification accepts.**  A delta that `create` accepts with a readable flat map of at most
`2 ^ 24` files, none of which has a block longer than its block size, is verified exactly when the
size is that of the target, every byte, read alone, is the target's at its offset, and the callback
goes on at each chunk; and the delta that is generated for the target is verified exactly when the
callback goes on. -/
theorem verifyDelta_iff {z : Zstd} {target : ByteSource} {tbytes : Bytes}
    (htarget : target.Delivers tbytes) (progress : Option ProgressFn) (t : ℕ) :
    (∀ (delta : Bytes) (hlt : delta.length < 2 ^ 64) (base : Source) (D : DeltaByteSource) (io : Io),
      (∀ bd, base = .delta bd → Built z bd) →
      create z (memByteSource delta hlt) (some base) false ⟨t, []⟩ = (.ok D, io) →
      D.addSources.length ≤ 2 ^ 24 → D.IsFlat D.baseSrc → D.Delivers z → D.Readable z →
      D.InBlocks →
        (verifyDelta z delta hlt (some base) target progress t = .ok () ↔
          D.targetSize = target.size ∧
            (∀ o < D.targetSize, ∀ t', (D.pread z 1 o ⟨t', [], []⟩).1 = .ok [tbytes.getD o 0]) ∧
            Approves progress target.size)) ∧
    ∀ (env : GenEnv) (base : Bytes) (blockSize : UInt32) (src : Source), z.RoundTrips →
      env.Faultless → base.length < 2 ^ 63 → tbytes.length < 2 ^ 63 →
      FitsIn32 z env base tbytes blockSize → src.Holds z base →
      ∀ hlt : (generateDelta z env base tbytes blockSize).length < 2 ^ 63,
        (verifyDelta z (generateDelta z env base tbytes blockSize) (hlt.trans (by decide)) (some src)
          target progress t = .ok () ↔ Approves progress target.size) := by
  have hN : tbytes.length = target.size := htarget.size_eq.symm
  refine ⟨?_, ?_⟩
  · intro delta hlt base D io hbase hcreate hn hflat hdel hread hlong
    have hD : Built z D := by
      cases base with
      | plain src => exact .plain hcreate
      | delta bd => exact .delta (hbase bd rfl) hcreate
    have hreads := DeltaByteSource.readsAs_byteAt hD hn hflat hdel hread hlong
    rw [verifyDelta_readsAs hcreate hreads htarget progress, hN]
    constructor
    · rintro ⟨heq, happ⟩
      have hsize : tbytes.length = D.targetSize := by
        rw [← heq]
        exact hreads.1
      exact ⟨hsize.symm.trans hN, (hreads.eq_iff hsize).1 heq, happ⟩
    · rintro ⟨hsize, hsame, happ⟩
      exact ⟨(hreads.eq_iff (hN.trans hsize.symm)).2 hsame, happ⟩
  · intro env base blockSize src hz henv hb ht hfits hsrc hlt
    obtain ⟨_, happly⟩ := generateDelta_applies hz henv hb ht hfits hlt
    obtain ⟨D, io', hcreate, _, _, hstands⟩ := happly _ (memByteSource_delivers _ _) src hsrc false
      ⟨t, []⟩
    rw [verifyDelta_readsAs hcreate hstands.reads_content htarget progress, hN]
    exact and_iff_right rfl

/-! ### A delta whose bytes depend on where a read starts -/

/-- A file of three literals in a block of two and one of one, of which the target has two. -/
def pairFile (blockSize : ℕ) : DeltaFile where
  blockSize := blockSize
  targetSize := 2
  baseSize := 0
  baseHash := 0
  segs := [⟨KIND_ADD, 2, 0⟩]
  blocks := [⟨0, 11, 2⟩, ⟨11, 10, 1⟩]
  region := storedFrame [5, 6] ++ storedFrame [7]

theorem pair_encode_lt (blockSize : ℕ) :
    ((pairFile blockSize).encode storingZstd).length < 2 ^ 63 := by
  have hlen : ((pairFile 0).encode storingZstd).length < 2 ^ 63 := by decide +kernel
  rw [DeltaFile.length_encode, DeltaFile.regionOff] at hlen ⊢
  exact hlen

def pairDelta (blockSize : ℕ) : ByteSource :=
  memByteSource ((pairFile blockSize).encode storingZstd)
    ((pair_encode_lt blockSize).trans (by decide))

/-- The literals of that file. -/
def pairAdd (blockSize : ℕ) : AddSource :=
  ((pairFile blockSize).parsed storingZstd (pairDelta blockSize)).add

/-- Its reader over the empty base. -/
def pairReader (blockSize : ℕ) : DeltaByteSource where
  baseSrc := emptySource
  addSources := [pairAdd blockSize]
  segs := [⟨0, 2, 0, 0, KIND_ADD⟩]
  targetSize := 2

section Pair

variable {blockSize : ℕ} (h : blockSize = 1 ∨ blockSize = 2)

include h

theorem pairFile_fits : (pairFile blockSize).Fits := by
  have hseg : ∀ s ∈ (pairFile blockSize).segs, s.Fits := by
    intro s hs
    obtain rfl := List.mem_singleton.1 hs
    exact ⟨by decide, by decide⟩
  have hblk : ∀ b ∈ (pairFile blockSize).blocks, b.Fits := by
    intro b hb
    rcases List.mem_pair.1 hb with rfl | rfl <;> exact ⟨by decide, by decide, by decide⟩
  rcases h with rfl | rfl <;>
    exact ⟨by decide, by decide, by decide, by decide, by decide, by decide, by decide, hseg, hblk, rfl⟩

theorem pairFile_create : ∃ io₁, create storingZstd (pairDelta blockSize)
    (some (.plain emptySource)) false ⟨0, []⟩ = (.ok (pairReader blockSize), io₁) := by
  obtain ⟨io₁, hparse⟩ : ∃ io₁, parseDelta storingZstd (pairDelta blockSize) ⟨0, []⟩
      = (.ok ((pairFile blockSize).parsed storingZstd (pairDelta blockSize)), io₁) :=
    parseDelta_encode storingZstd_roundTrips (pairFile_fits h)
      (memByteSource_delivers _ ((pair_encode_lt blockSize).trans (by decide)))
      (pair_encode_lt blockSize) ⟨0, []⟩
  refine ⟨io₁, ?_⟩
  rw [create, Prog.bind_of_ok hparse]
  rfl

theorem pairReader_sound : (pairReader blockSize).IsFlat emptySource ∧
    (pairReader blockSize).Delivers storingZstd ∧ (pairReader blockSize).Readable storingZstd := by
  obtain ⟨io₁, hcreate⟩ := pairFile_create h
  have hflat : (pairReader blockSize).IsFlat emptySource := by
    refine ⟨rfl, ⟨rfl, trivial⟩, rfl, ?_⟩
    intro s hs
    obtain rfl := List.mem_singleton.1 hs
    exact ⟨Nat.two_pos, Or.inr ⟨rfl, pairAdd blockSize, rfl, (by decide : 0 + 2 ≤ [2, 1].sum)⟩⟩
  have hdel : (pairReader blockSize).Delivers storingZstd := by
    refine ⟨⟨[], memByteSource_delivers [] (by decide)⟩, ?_⟩
    intro A hA b hb
    obtain rfl := List.mem_singleton.1 hA
    refine ⟨_, memByteSource_delivers _ ((pair_encode_lt blockSize).trans (by decide)), ?_⟩
    rcases h with rfl | rfl <;> rcases List.mem_pair.1 hb with rfl | rfl <;>
      exact ⟨by decide +kernel, by decide +kernel⟩
  have hD : Built storingZstd (pairReader blockSize) := .plain hcreate
  refine ⟨hflat, hdel, DeltaByteSource.readable_of_noHole hD (hD.keysApart (by simp [pairReader])) hflat
    (by simp [pairReader]) hdel ?_⟩
  intro s hs _ A hA o _ hhi
  obtain rfl := List.mem_singleton.1 hs
  obtain rfl : pairAdd blockSize = A := Option.some_inj.1 hA
  have ho : o = 0 ∨ o = 1 := by
    dsimp only at hhi
    omega
  rcases h with rfl | rfl <;> rcases ho with rfl | rfl <;> exact ⟨_, rfl, by decide⟩

end Pair

/-- **A block longer than the block size is verified as it is read from its start.**  The map of that
file, of blocks of one byte, is flat and readable, and the check of it against the bytes 5 and 6
returns true; the second byte, read alone, is 7. -/
theorem longBlock_verified :
    (∃ io₁, create storingZstd (pairDelta 1) (some (.plain emptySource)) false ⟨0, []⟩
      = (.ok (pairReader 1), io₁)) ∧
    (pairReader 1).IsFlat emptySource ∧ (pairReader 1).Delivers storingZstd ∧
    (pairReader 1).Readable storingZstd ∧ (memByteSource [5, 6] (by decide)).Delivers [5, 6] ∧
    verifyDelta storingZstd ((pairFile 1).encode storingZstd) ((pair_encode_lt 1).trans (by decide))
      (some (.plain emptySource)) (memByteSource [5, 6] (by decide)) none 0 = .ok () ∧
    ((pairReader 1).pread storingZstd 1 1 ⟨0, [], []⟩).1 = .ok [7] := by
  obtain ⟨io₁, hcreate⟩ := pairFile_create (.inl rfl)
  obtain ⟨hflat, hdel, hread⟩ := pairReader_sound (.inl rfl)
  refine ⟨⟨io₁, hcreate⟩, hflat, hdel, hread, memByteSource_delivers _ _, ?_, rfl⟩
  rw [verifyDelta, show create storingZstd (memByteSource ((pairFile 1).encode storingZstd) _)
    (some (.plain emptySource)) false ⟨0, []⟩ = _ from hcreate]
  rfl

/-! ### A chain of too many files -/

/-- Up to the limit the readers of the chain stand for the second version. -/
theorem chainReader_standsFor :
    ∀ k < 2 ^ 24, (chainReader k).StandsFor chainZstd (versionOf 0 1) := by
  -- what `create` returns for a generated file stands for its target
  have hstep : ∀ (src : Source) {d : ByteSource} {D : DeltaByteSource} {base : Bytes},
      DeltaOf chainZstd d base (versionOf 0 1) → src.Holds chainZstd base →
      (∃ io', create chainZstd d (some src) false ⟨0, []⟩ = (.ok D, io')) →
        D.StandsFor chainZstd (versionOf 0 1) := by
    rintro src d D base ⟨env, bs, henv, hb, ht, hfits, hlen, hd⟩ hsrc ⟨io', hD⟩
    obtain ⟨D', io₁, hD', _, _, hstands⟩ := (generateDelta_applies chainZstd_roundTrips henv hb ht hfits
      hlen).2 d hd src hsrc false ⟨0, []⟩
    rw [hD] at hD'
    obtain rfl : D = D' := Except.ok.inj (Prod.mk.inj hD').1
    exact hstands
  intro k
  induction k with
  | zero =>
      exact fun _ => hstep (.plain (versionSource 0 0)) firstDelta_of
        (versionSource_delivers 0 0) create_first
  | succ k ih =>
      intro hk
      refine hstep (.delta (chainReader k)) sameDelta_of ⟨?_, ih (by omega)⟩ (create_same k)
      rw [chainReader, List.length_cons, List.length_replicate]
      exact hk

theorem chainReader_built (k : ℕ) : Built chainZstd (chainReader k) := by
  induction k with
  | zero =>
      obtain ⟨io', h⟩ := create_first
      exact .plain h
  | succ k ih =>
      obtain ⟨io', h⟩ := create_same k
      exact .delta ih h

/-- In one read of the whole version, the byte of the first file is taken from the block of the last. -/
theorem lastReader_whole {k : ℕ} (hk : k + 1 = 2 ^ 24) (t : ℕ) : ∃ st',
    (lastReader k).pread chainZstd 781 0 ⟨t, [], []⟩
      = (.ok (slice (versionOf 0 0) 0 510 ++ [2] ++ [2] ++ slice (versionOf 0 0) 512 269), st') := by
  have hk' : k + 1 = 16777216 := hk
  have hlast := lastReader_adds (k := k)
  rw [hk'] at hlast
  have hfirst : (lastReader k).addSources[0]? = some (firstFile.parsed chainZstd firstDelta).add := rfl
  have hcopy : ∀ (n off : ℕ), off + n ≤ 781 → ∀ st : ReadState, ∃ t',
      (lastReader k).readSeg chainZstd ⟨off, n, off, 0, KIND_COPY⟩ 0 n st
        = (.ok (slice (versionOf 0 0) off n), { st with clock := t' }) := by
    intro n off hin st
    obtain ⟨t', ht'⟩ := readCopy_eq (versionSource_delivers 0 0) n off
      (by rw [versionOf_length]; exact hin) st
    refine ⟨t', ?_⟩
    rw [DeltaByteSource.readSeg, if_pos rfl, add64_eq (by dsimp only; omega)]
    exact ht'
  have hsegs : (lastReader k).segs = [⟨0, 510, 0, 0, KIND_COPY⟩, ⟨510, 1, 0, 16777216, KIND_ADD⟩,
      ⟨511, 1, 0, 0, KIND_ADD⟩, ⟨512, 269, 512, 0, KIND_COPY⟩] := by
    rw [lastReader, hk']
    rfl
  have hat : segAt (lastReader k).segs 0 = 0 := by
    rw [hsegs]
    decide
  obtain ⟨t₁, h₁⟩ := hcopy 510 0 (by decide) ⟨t, [], []⟩
  have h₂ : (lastReader k).readSeg chainZstd ⟨510, 1, 0, 16777216, KIND_ADD⟩ 0 1 ⟨t₁, [], []⟩
      = (.ok [2], ⟨t₁ + 1, [(0, [2])], [0]⟩) := by
    rw [DeltaByteSource.readSeg, if_neg (by decide), hlast]
    rfl
  have h₃ : (lastReader k).readSeg chainZstd ⟨511, 1, 0, 0, KIND_ADD⟩ 0 1 ⟨t₁ + 1, [(0, [2])], [0]⟩
      = (.ok [2], ⟨t₁ + 1, [(0, [2])], [0]⟩) := by
    rw [DeltaByteSource.readSeg, if_neg (by decide), hfirst]
    rfl
  obtain ⟨t₄, h₄⟩ := hcopy 269 512 (by decide) ⟨t₁ + 1, [(0, [2])], [0]⟩
  have hsize : (lastReader k).targetSize = 781 := rfl
  refine ⟨⟨t₄, [(0, [2])], [0]⟩, ?_⟩
  rw [DeltaByteSource.pread, hat, hsize, hsegs, if_neg (by simp), List.drop_zero,
    DeltaByteSource.preadSegs_turn (by decide) (by decide) (by decide) (by decide) h₁,
    show add64 0 510 = 510 by decide,
    DeltaByteSource.preadSegs_turn (by decide) (by decide) (by decide) (by decide) h₂,
    show add64 510 1 = 511 by decide,
    DeltaByteSource.preadSegs_turn (by decide) (by decide) (by decide) (by decide) h₃,
    show add64 511 1 = 512 by decide,
    DeltaByteSource.preadSegs_turn (by decide) (by decide) (by decide) (by decide) h₄]
  rfl

/-- **Past the limit a generated delta is refused.**  The base reads as the second version, of
`2 ^ 24` files; the delta from it to the third is not verified against the third. -/
theorem longChain_refused {k : ℕ} (hk : k + 1 = 2 ^ 24) :
    verifyDelta chainZstd (lastFile.encode chainZstd) (lastFile_lt.trans (by decide))
      (some (.delta (chainReader k))) (versionSource 2 1) none 0 ≠ .ok () := by
  obtain ⟨io', hcreate⟩ := create_last k
  obtain ⟨st', hread⟩ := lastReader_whole hk io'.clock
  have hsize : (versionSource 2 1).size = 781 := versionOf_length 2 1
  have hwhole := reconstruct_of_pread (by decide) hread (by decide +kernel)
  obtain ⟨t', htarget⟩ := readTarget_delivers (versionSource_delivers 2 1)
    (by rw [versionOf_length] : 0 + 781 ≤ (versionOf 2 1).length) st'
  rw [verifyDelta, show create chainZstd (memByteSource (lastFile.encode chainZstd) _)
    (some (.delta (chainReader k))) false ⟨0, []⟩ = _ from hcreate]
  dsimp only
  rw [hsize, if_neg (by simp [lastReader]), show 781 = 780 + 1 from rfl, verifyLoop, if_neg (by decide),
    if_neg (by simp), show min CH (780 + 1 - 0) = 781 by decide, Prog.bind_of_ok hwhole]
  dsimp only
  rw [Prog.bind_of_ok htarget]
  dsimp only
  rw [if_pos (by decide +kernel)]
  simp

/-- **Past the limit a generated delta is misread.**  The base is the reader of a chain of `2 ^ 24`
generated files and reads as the second version; the delta generated from that version to the third
composes over it, and a read of the whole reader returns other bytes than the third version. -/
theorem longChain_misread :
    ∃ (bd : DeltaByteSource) (base target : Bytes) (delta : ByteSource),
      Built chainZstd bd ∧ bd.addSources.length = 2 ^ 24 ∧ bd.StandsFor chainZstd base ∧
      chainZstd.RoundTrips ∧ DeltaOf chainZstd delta base target ∧
      ∃ (D : DeltaByteSource) (io' : Io) (out : Bytes) (st' : ReadState),
        create chainZstd delta (some (.delta bd)) false ⟨0, []⟩ = (.ok D, io') ∧
        D.pread chainZstd target.length 0 ⟨0, [], []⟩ = (.ok out, st') ∧ out ≠ target := by
  obtain ⟨k, hk⟩ : ∃ k, k + 1 = 2 ^ 24 := ⟨2 ^ 24 - 1, by decide⟩
  obtain ⟨io', hcreate⟩ := create_last k
  obtain ⟨st', hread⟩ := lastReader_whole hk 0
  rw [← versionOf_length 2 1] at hread
  refine ⟨chainReader k, versionOf 0 1, versionOf 2 1, lastDelta, chainReader_built k, ?_,
    chainReader_standsFor k (by omega), chainZstd_roundTrips, lastDelta_of, lastReader k, io', _, st',
    hcreate, hread, by decide +kernel⟩
  rw [chainReader, List.length_cons, List.length_replicate, hk]

theorem lastFile_generated : generateDelta chainZstd quietEnv (versionOf 0 1) (versionOf 2 1) 0
    = lastFile.encode chainZstd := by
  rw [generateDelta_encode quietEnv_faultless last_scan rfl last_packBlocks, lastFile]

/-- **Where verification goes wrong**: it accepts a file with a block longer than the block size, of a
flat readable map, one byte of which is not the target's when it is read alone; and it refuses a
generated delta when its base is a reader of `2 ^ 24` files. -/
theorem verifyDelta_exceptions :
    (∃ (delta : Bytes) (hlt : delta.length < 2 ^ 64) (D : DeltaByteSource) (io : Io) (tbytes : Bytes)
      (ht : tbytes.length < 2 ^ 64),
      create storingZstd (memByteSource delta hlt) (some (.plain emptySource)) false ⟨0, []⟩
        = (.ok D, io) ∧
      D.addSources.length = 1 ∧ D.IsFlat emptySource ∧ D.Delivers storingZstd ∧
      D.Readable storingZstd ∧
      verifyDelta storingZstd delta hlt (some (.plain emptySource)) (memByteSource tbytes ht) none 0
        = .ok () ∧
      ∃ o < D.targetSize, (D.pread storingZstd 1 o ⟨0, [], []⟩).1 ≠ .ok [tbytes.getD o 0]) ∧
    ∃ (bd : DeltaByteSource) (base tbytes : Bytes) (ht : tbytes.length < 2 ^ 64)
      (hlt : (generateDelta chainZstd quietEnv base tbytes 0).length < 2 ^ 64),
      Built chainZstd bd ∧ bd.addSources.length = 2 ^ 24 ∧ bd.StandsFor chainZstd base ∧
      chainZstd.RoundTrips ∧ quietEnv.Faultless ∧
      verifyDelta chainZstd (generateDelta chainZstd quietEnv base tbytes 0) hlt (some (.delta bd))
        (memByteSource tbytes ht) none 0 ≠ .ok () := by
  constructor
  · obtain ⟨⟨io₁, hcreate⟩, hflat, hdel, hread, _, hverify, hbyte⟩ := longBlock_verified
    refine ⟨_, _, pairReader 1, io₁, [5, 6], by decide, hcreate, rfl, hflat, hdel, hread, hverify, 1,
      by decide, ?_⟩
    rw [hbyte]
    decide
  · obtain ⟨k, hk⟩ : ∃ k, k + 1 = 2 ^ 24 := ⟨2 ^ 24 - 1, by decide⟩
    have hgen := lastFile_generated
    refine ⟨chainReader k, versionOf 0 1, versionOf 2 1, (versionOf_lt 2 1).trans (by decide),
      by rw [hgen]; exact lastFile_lt.trans (by decide), chainReader_built k, ?_,
      chainReader_standsFor k (by omega), chainZstd_roundTrips, quietEnv_faultless, ?_⟩
    · rw [chainReader, List.length_cons, List.length_replicate, hk]
    · have hrefused := longChain_refused hk
      simp only [hgen]
      exact hrefused

/-- With blocks of two bytes the file is verified, as every byte is the target's; and so is the delta
that is generated for the windows. -/
theorem shortBlocks_verified :
    verifyDelta storingZstd ((pairFile 2).encode storingZstd) ((pair_encode_lt 2).trans (by decide))
      (some (.plain emptySource)) (memByteSource [5, 6] (by decide)) none 0 = .ok () ∧
    verifyDelta storingZstd windowDelta (windowDelta_length.trans (by decide))
      (some (.plain (memByteSource windowBase (windowBase_length.trans (by decide)))))
      (memByteSource windowTarget (by decide +kernel)) (some fun _ _ _ _ => true) 0 = .ok () := by
  obtain ⟨io₁, hcreate⟩ := pairFile_create (.inr rfl)
  obtain ⟨hflat, hdel, hread⟩ := pairReader_sound (.inr rfl)
  refine ⟨((verifyDelta_iff (memByteSource_delivers [5, 6] (by decide)) none 0).1 _ _
    (.plain emptySource) (pairReader 2) io₁ (by simp) hcreate (by decide) hflat hdel hread ?_).2
    ⟨rfl, ?_, fun f hf => by simp at hf⟩, ?_⟩
  · intro A hA b hb
    obtain rfl := List.mem_singleton.1 hA
    rcases List.mem_pair.1 hb with rfl | rfl <;> decide
  · intro o ho t
    have ho' : o = 0 ∨ o = 1 := by
      have : o < 2 := ho
      omega
    rcases ho' with rfl | rfl <;> rfl
  · exact ((verifyDelta_iff (memByteSource_delivers windowTarget _) _ 0).2 quietEnv windowBase 0 (.plain _)
      storingZstd_roundTrips quietEnv_faultless windowBase_length (by decide +kernel) window_fits
      (memByteSource_delivers windowBase _) windowDelta_length).2 fun f hf k _ => by
        obtain rfl := Option.some_inj.1 hf
        rfl

end VidyaGodFS
