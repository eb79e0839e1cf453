/-
**The reader reads its map.**

A delta source is *sound* over the bytes of its ultimate base and the literals of its files when its
base delivers, the blocks of each file decompress to the literals, and its segments are placed one
after the other, none of them empty, each inside the base or inside the literals of its file.  Every
range read from a sound source is then the slice of the bytes the segments stand for, whatever the
short reads of the base and whatever the cache holds; and the cache goes on holding what the blocks
decompress to.

Main definitions:

* `AddSource.Holds` — the literals behind a block index;
* `CacheOk` — every cached block is the block its key names;
* `FlatSeg.bytes`, `FlatSeg.InRange`, `Placed` — what a segment stands for, and the shape of a map;
* `DeltaByteSource.Sound`, `DeltaByteSource.content` — sound sources and their bytes.

Main results:

* `blockKey_inj` — keys of different blocks differ, up to `2 ^ 24` files;
* `getAddBlock_eq`, `readAdd_eq` — literals are read right, from the cache or from the file;
* `segAt_spec` — the binary search finds the segment that covers an offset;
* `DeltaByteSource.pread_eq` — **a read returns the slice of the content**.
-/

import VidyaGodFS.DeltaSource

set_option relaxedAutoImplicit false
set_option autoImplicit false

namespace VidyaGodFS

/-! ### The cache -/

/-- A key is the number of the file above the number of the block. -/
theorem blockKey_split {i blk : ℕ} (hi : i < 2 ^ 24) (hblk : blk < 2 ^ 40) :
    blockKey i blk / 2 ^ 40 = i ∧ blockKey i blk % 2 ^ 40 = blk := by
  have hshift : (i <<< 40) % 2 ^ 64 = i * 2 ^ 40 := by
    rw [Nat.shiftLeft_eq, Nat.mod_eq_of_lt (by omega)]
  rw [blockKey, hshift]
  constructor
  · rw [Nat.xor_div_two_pow, Nat.mul_div_cancel _ (Nat.two_pow_pos 40), Nat.div_eq_of_lt hblk,
      Nat.xor_zero]
  · rw [Nat.xor_mod_two_pow, Nat.mul_mod_left, Nat.mod_eq_of_lt hblk, Nat.zero_xor]

/-- **Keys of different blocks differ**, as long as there are no more than `2 ^ 24` files. -/
theorem blockKey_inj {i j b c : ℕ} (hi : i < 2 ^ 24) (hj : j < 2 ^ 24) (hb : b < 2 ^ 40)
    (hc : c < 2 ^ 40) (h : blockKey i b = blockKey j c) : i = j ∧ b = c := by
  have h₁ := blockKey_split hi hb
  have h₂ := blockKey_split hj hc
  rw [h] at h₁
  omega

theorem lookup_eraseKey (old key : ℕ) (cache : List (ℕ × Bytes)) :
    (eraseKey old cache).lookup key = if key = old then none else cache.lookup key := by
  induction cache with
  | nil => simp [eraseKey]
  | cons e cache ih =>
      obtain ⟨k, raw⟩ := e
      rw [eraseKey] at ih ⊢
      by_cases hk : k = old
      · rw [List.filter_cons_of_neg (by simpa using hk), ih]
        by_cases hkey : key = old
        · rw [if_pos hkey, if_pos hkey]
        · rw [if_neg hkey, if_neg hkey, List.lookup_cons,
            beq_false_of_ne (fun h => hkey (h.trans hk))]
      · rw [List.filter_cons_of_pos (by simpa using hk), List.lookup_cons, List.lookup_cons, ih]
        by_cases hkk : key = k
        · subst hkk
          simp [hk]
        · simp [beq_false_of_ne hkk]

/-- What a cache holds after a block was entered: that block under its key, or what it held. -/
theorem lookup_remember {s : ReadState} {key k : ℕ} {raw r : Bytes}
    (h : (s.remember key raw).cache.lookup k = some r) :
    (k = key ∧ r = raw) ∨ s.cache.lookup k = some r := by
  -- the entry just made, or an older one
  have hcons : ((key, raw) :: s.cache).lookup k = some r →
      (k = key ∧ r = raw) ∨ s.cache.lookup k = some r := by
    intro hk
    rw [List.lookup_cons] at hk
    by_cases hkk : k = key
    · subst hkk
      rw [beq_self_eq_true] at hk
      exact Or.inl ⟨rfl, (Option.some_inj.1 hk).symm⟩
    · rw [beq_false_of_ne hkk] at hk
      exact Or.inr hk
  rw [ReadState.remember] at h
  split at h
  · exact Or.inr h
  · split at h
    · exact Or.inr h
    · rename_i old fifo _
      by_cases hcap : CacheCap < fifo.length + 1
      · rw [if_pos hcap] at h
        dsimp only at h
        rw [lookup_eraseKey] at h
        by_cases hold : k = old
        · rw [if_pos hold] at h
          exact absurd h (by simp)
        · rw [if_neg hold] at h
          exact hcons h
      · rw [if_neg hcap] at h
        exact hcons h

/-! ### The literals of a file -/

/-- The file of `A` yields the literals `lit`: each block decompresses to the literals between two
multiples of the block size, to fewer at the end of the literals. -/
structure AddSource.Holds (z : Zstd) (A : AddSource) (lit : Bytes) : Prop where
  blockSize_pos : 0 < A.blockSize
  blocks_lt : A.blocks.length < 2 ^ 32
  lit_lt : lit.length < 2 ^ 64
  covers : lit.length ≤ A.blocks.length * A.blockSize
  block : ∀ (blk : ℕ) (b : BlockRec), A.blocks[blk]? = some b →
    b.uncompLen = (slice lit (blk * A.blockSize) A.blockSize).length ∧
      ∃ file, A.file.Delivers file ∧ add64 A.regionOff b.compOff + b.compLen ≤ file.length ∧
        zDecompress z (slice file (add64 A.regionOff b.compOff) b.compLen) b.uncompLen
          = slice lit (blk * A.blockSize) A.blockSize

/-- The files of a reader hold these literals. -/
structure AddsHold (z : Zstd) (adds : List AddSource) (lits : List Bytes) : Prop where
  adds_le : adds.length ≤ 2 ^ 24
  length_eq : lits.length = adds.length
  holds : ∀ (i : ℕ) (A : AddSource) (lit : Bytes), adds[i]? = some A → lits[i]? = some lit →
    A.Holds z lit

/-- **Every cached block is the block its key names.** -/
def CacheOk (adds : List AddSource) (lits : List Bytes) (s : ReadState) : Prop :=
  ∀ (i blk : ℕ) (A : AddSource) (lit raw : Bytes), adds[i]? = some A → lits[i]? = some lit →
    blk < A.blocks.length → s.cache.lookup (blockKey i blk) = some raw →
      raw = slice lit (blk * A.blockSize) A.blockSize

/-- An empty cache holds nothing wrong. -/
theorem cacheOk_nil (adds : List AddSource) (lits : List Bytes) (t : ℕ) :
    CacheOk adds lits ⟨t, [], []⟩ := by
  intro i blk A lit raw _ _ _ h
  simp at h

section Literals

variable {z : Zstd} {adds : List AddSource} {lits : List Bytes} {i : ℕ} {A : AddSource}
  {lit : Bytes} {s : ReadState}

theorem CacheOk.clock (h : CacheOk adds lits s) (t : ℕ) :
    CacheOk adds lits { s with clock := t } := h

/-- Entering a right block keeps the cache right. -/
theorem CacheOk.remember (hok : CacheOk adds lits s) (hadds : AddsHold z adds lits)
    (hA : adds[i]? = some A) (hlit : lits[i]? = some lit) {blk : ℕ} (hblk : blk < A.blocks.length) :
    CacheOk adds lits
      (s.remember (blockKey i blk) (slice lit (blk * A.blockSize) A.blockSize)) := by
  intro j c A' lit' raw hA' hlit' hc hlook
  rcases lookup_remember hlook with ⟨hkey, rfl⟩ | hold
  · have hi := (List.getElem?_eq_some_iff.1 hA).1
    have hj := (List.getElem?_eq_some_iff.1 hA').1
    have hle := hadds.adds_le
    have hb := (hadds.holds i A lit hA hlit).blocks_lt
    have hb' := (hadds.holds j A' lit' hA' hlit').blocks_lt
    obtain ⟨rfl, rfl⟩ := blockKey_inj (by omega) (by omega) (by omega) (by omega) hkey
    rw [hA] at hA'
    rw [hlit] at hlit'
    obtain rfl := Option.some_inj.1 hA'
    obtain rfl := Option.some_inj.1 hlit'
    rfl
  · exact hok j c A' lit' raw hA' hlit' hc hold

/-- An exact read of a delta file that delivers, on the clock of the reader. -/
theorem readFile_delivers {src : ByteSource} {content : Bytes} (h : src.Delivers content)
    (n off : ℕ) (ho : off + n ≤ content.length) (s : ReadState) :
    ∃ t', readFile src n off s = (.ok (some (slice content off n)), { s with clock := t' }) := by
  obtain ⟨t', ht'⟩ := ByteSource.preadAll_delivers (ε := ReadErr) h ho s.clock
  exact ⟨t', by rw [readFile, Prog.zoom_apply, ht']⟩

/-- **A literal block is read right**, from the cache or from the file. -/
theorem getAddBlock_eq (hadds : AddsHold z adds lits) (hA : adds[i]? = some A)
    (hlit : lits[i]? = some lit) {blk : ℕ} (hblk : blk < A.blocks.length)
    (hok : CacheOk adds lits s) :
    ∃ s', getAddBlock z i A blk s
        = (.ok (some (slice lit (blk * A.blockSize) A.blockSize)), s') ∧
      CacheOk adds lits s' := by
  have hstart : (Prog.gets fun s : ReadState => s.cache.lookup (blockKey i blk) :
      Prog ReadState ReadErr _) s = (.ok (s.cache.lookup (blockKey i blk)), s) := rfl
  rw [getAddBlock, Prog.bind_of_ok hstart]
  cases hlook : s.cache.lookup (blockKey i blk) with
  | some raw =>
      obtain rfl := hok i blk A lit raw hA hlit hblk hlook
      exact ⟨s, rfl, hok⟩
  | none =>
      obtain ⟨b, hb⟩ : ∃ b, A.blocks[blk]? = some b := ⟨_, List.getElem?_eq_getElem hblk⟩
      obtain ⟨hulen, file, hfile, hin, hdec⟩ := (hadds.holds i A lit hA hlit).block blk b hb
      have hget : A.blocks.getD blk ⟨0, 0, 0⟩ = b := by
        rw [List.getD_eq_getElem?_getD, hb, Option.getD_some]
      -- the frame, read unless it is empty
      obtain ⟨t', hframe⟩ : ∃ t', (if b.compLen = 0 then pure (some [])
          else readFile A.file b.compLen (add64 A.regionOff b.compOff) :
            Prog ReadState ReadErr (Option Bytes)) s
          = (.ok (some (slice file (add64 A.regionOff b.compOff) b.compLen)),
              { s with clock := t' }) := by
        by_cases h0 : b.compLen = 0
        · exact ⟨s.clock, by rw [if_pos h0, h0, slice_zero]; rfl⟩
        · rw [if_neg h0]
          exact readFile_delivers hfile _ _ hin s
      dsimp only
      rw [hget, Prog.bind_of_ok hframe]
      dsimp only
      rw [hdec, if_neg (not_not.2 hulen.symm)]
      exact ⟨_, rfl, (hok.clock t').remember hadds hA hlit hblk⟩

/-- The block that holds the literal at `x`, and what of it comes from `x` on. -/
theorem slice_block (A : AddSource) (lit : Bytes) (hbs : 0 < A.blockSize) (x n : ℕ) :
    slice (slice lit (x / A.blockSize * A.blockSize) A.blockSize) (x % A.blockSize)
      (min n ((slice lit (x / A.blockSize * A.blockSize) A.blockSize).length - x % A.blockSize))
      = slice lit x (min n ((slice lit (x / A.blockSize * A.blockSize) A.blockSize).length
          - x % A.blockSize)) := by
  have hx : x / A.blockSize * A.blockSize + x % A.blockSize = x := Nat.div_add_mod' x A.blockSize
  have hmod := Nat.mod_lt x hbs
  rw [length_slice]
  rw [slice_slice (by omega), hx]

theorem readAddLoop_eq (hadds : AddsHold z adds lits) (hA : adds[i]? = some A)
    (hlit : lits[i]? = some lit) :
    ∀ (fuel n addOff : ℕ) (out : Bytes) (s : ReadState), n ≤ fuel → addOff + n ≤ lit.length →
      CacheOk adds lits s →
      ∃ s', readAddLoop z i A fuel n addOff out s = (.ok (out ++ slice lit addOff n), s') ∧
        CacheOk adds lits s' := by
  have hold := hadds.holds i A lit hA hlit
  have hbs := hold.blockSize_pos
  have hcov := hold.covers
  have hlt := hold.lit_lt
  intro fuel
  induction fuel with
  | zero =>
      intro n addOff out s hn _ hok
      obtain rfl : n = 0 := by omega
      exact ⟨s, by simp [readAddLoop], hok⟩
  | succ fuel ih =>
      intro n addOff out s hn ho hok
      rcases Nat.eq_zero_or_pos n with rfl | hpos
      · exact ⟨s, by simp [readAddLoop], hok⟩
      · -- the block is there, and the offset lies inside it
        have hblk : addOff / A.blockSize < A.blocks.length := by
          rw [Nat.div_lt_iff_lt_mul hbs]
          omega
        have hx : addOff / A.blockSize * A.blockSize + addOff % A.blockSize = addOff :=
          Nat.div_add_mod' addOff A.blockSize
        have hmod := Nat.mod_lt addOff hbs
        have hlen := length_slice lit (addOff / A.blockSize * A.blockSize) A.blockSize
        obtain ⟨s₁, h₁, hok₁⟩ := getAddBlock_eq hadds hA hlit hblk hok
        have hblock := slice_block A lit hbs addOff n
        rw [readAddLoop, if_neg (by omega)]
        dsimp only
        rw [if_neg (by omega), Prog.bind_of_ok h₁]
        dsimp only
        rw [if_neg (by omega), hblock]
        generalize htake : min n ((slice lit (addOff / A.blockSize * A.blockSize)
          A.blockSize).length - addOff % A.blockSize) = k
        obtain ⟨s₂, h₂, hok₂⟩ :=
          ih (n - k) (addOff + k) (out ++ slice lit addOff k) s₁ (by omega) (by omega) hok₁
        refine ⟨s₂, ?_, hok₂⟩
        rw [add64_eq (by omega), h₂, List.append_assoc, slice_append_slice,
          Nat.add_sub_cancel' (by omega)]

/-- **A range of the literals is read right.** -/
theorem readAdd_eq (hadds : AddsHold z adds lits) (hA : adds[i]? = some A)
    (hlit : lits[i]? = some lit) (n addOff : ℕ) (ho : addOff + n ≤ lit.length)
    (hok : CacheOk adds lits s) :
    ∃ s', readAdd z i A n addOff s = (.ok (slice lit addOff n), s') ∧ CacheOk adds lits s' := by
  obtain ⟨s', h, hok'⟩ := readAddLoop_eq hadds hA hlit n n addOff [] s le_rfl ho hok
  exact ⟨s', by rw [readAdd, h, List.nil_append], hok'⟩

/-! ### The base -/

theorem readCopyLoop_eq {src : ByteSource} {content : Bytes} (hsrc : src.Delivers content) :
    ∀ (fuel n off : ℕ) (out : Bytes) (s : ReadState), n ≤ fuel → off + n ≤ content.length →
      ∃ t', readCopyLoop src fuel n off out s
        = (.ok (out ++ slice content off n), { s with clock := t' }) := by
  intro fuel
  induction fuel with
  | zero =>
      intro n off out s hn _
      obtain rfl : n = 0 := by omega
      exact ⟨s.clock, by simp [readCopyLoop]⟩
  | succ fuel ih =>
      intro n off out s hn ho
      rcases Nat.eq_zero_or_pos n with rfl | hpos
      · exact ⟨s.clock, by simp [readCopyLoop]⟩
      · have hlt := hsrc.length_lt
        obtain ⟨k, hk, hkn, hread⟩ := hsrc.read_eq (t := s.clock) hpos ho
        have hlen : (slice content off k).length = k := length_slice_of_le (by omega)
        obtain ⟨b, bs, hbs⟩ : ∃ b bs, slice content off k = b :: bs :=
          List.exists_cons_of_length_pos (by omega)
        obtain ⟨t', ht'⟩ := ih (n - k) (off + k) (out ++ slice content off k)
          { s with clock := s.clock + 1 } (by omega) (by omega)
        have hstep : readBase src n off s
            = (.ok (.ok (b :: bs)), { s with clock := s.clock + 1 }) := by
          rw [readBase, Prog.zoom_apply, ByteSource.read, hread, hbs]
        refine ⟨t', ?_⟩
        rw [hbs] at hlen
        rw [readCopyLoop, if_neg (by omega), Prog.bind_of_ok hstep]
        dsimp only
        rw [hlen, add64_eq (by omega), ← hbs, ht', List.append_assoc, slice_append_slice,
          Nat.add_sub_cancel' hkn]

/-- **A range of a base that delivers is read right**, across its short reads. -/
theorem readCopy_eq {src : ByteSource} {content : Bytes} (hsrc : src.Delivers content) (n off : ℕ)
    (ho : off + n ≤ content.length) (s : ReadState) :
    ∃ t', readCopy src n off s = (.ok (slice content off n), { s with clock := t' }) := by
  obtain ⟨t', h⟩ := readCopyLoop_eq hsrc n n off [] s le_rfl ho
  exact ⟨t', by rw [readCopy, h, List.nil_append]⟩

end Literals

/-! ### The map -/

/-- The segments start one after the other, the first at `t`. -/
def Placed : ℕ → List FlatSeg → Prop
  | _, [] => True
  | t, s :: segs => s.targetOff = t ∧ Placed (t + s.len) segs

/-- The length of a map. -/
def totalLen (segs : List FlatSeg) : ℕ := (segs.map FlatSeg.len).sum

@[simp] theorem totalLen_nil : totalLen [] = 0 := rfl

@[simp] theorem totalLen_cons (s : FlatSeg) (segs : List FlatSeg) :
    totalLen (s :: segs) = s.len + totalLen segs := rfl

@[simp] theorem totalLen_append (segs segs' : List FlatSeg) :
    totalLen (segs ++ segs') = totalLen segs + totalLen segs' := by
  simp [totalLen]

theorem Placed.append {t : ℕ} {segs segs' : List FlatSeg} (h : Placed t (segs ++ segs')) :
    Placed (t + totalLen segs) segs' := by
  induction segs generalizing t with
  | nil => simpa using h
  | cons s segs ih =>
      have := ih h.2
      rwa [Nat.add_assoc] at this

/-- The prefix sums place the segments. -/
theorem placeSegs_spec {t : ℕ} {segs : List FlatSeg} (h : t + totalLen segs < 2 ^ 64) :
    Placed t (placeSegs t segs).1 ∧ (placeSegs t segs).2 = t + totalLen segs := by
  induction segs generalizing t with
  | nil => exact ⟨trivial, by simp [placeSegs]⟩
  | cons s segs ih =>
      rw [totalLen_cons] at h
      obtain ⟨hplaced, hend⟩ := ih (t := t + s.len) (by omega)
      rw [placeSegs, add64_eq (by omega)]
      exact ⟨⟨rfl, hplaced⟩, by rw [hend, totalLen_cons, Nat.add_assoc]⟩

/-- Placing the segments changes where they start and nothing else. -/
theorem mem_placeSegs {t : ℕ} {segs : List FlatSeg} {s : FlatSeg} (h : s ∈ (placeSegs t segs).1) :
    ∃ s₀ ∈ segs, s = { s₀ with targetOff := s.targetOff } := by
  induction segs generalizing t with
  | nil => simp [placeSegs] at h
  | cons s₁ segs ih =>
      rw [placeSegs] at h
      rcases List.mem_cons.1 h with rfl | h
      · exact ⟨s₁, by simp, rfl⟩
      · obtain ⟨s₀, hs₀, heq⟩ := ih h
        exact ⟨s₀, by simp [hs₀], heq⟩

theorem totalLen_placeSegs (t : ℕ) (segs : List FlatSeg) :
    totalLen (placeSegs t segs).1 = totalLen segs := by
  induction segs generalizing t with
  | nil => rfl
  | cons s segs ih => rw [placeSegs, totalLen_cons, totalLen_cons, ih]

/-- In a placed map a later segment starts where the lengths before it end. -/
theorem Placed.getElem? {t : ℕ} {segs : List FlatSeg} (h : Placed t segs) {i : ℕ} {s : FlatSeg}
    (hs : segs[i]? = some s) : s.targetOff = t + totalLen (segs.take i) := by
  induction segs generalizing t i with
  | nil => simp at hs
  | cons s₁ segs ih =>
      cases i with
      | zero =>
          obtain rfl : s₁ = s := by simpa using hs
          simpa using h.1
      | succ i =>
          rw [List.getElem?_cons_succ] at hs
          rw [ih h.2 hs, List.take_succ_cons, totalLen_cons, Nat.add_assoc]

theorem totalLen_take_mono (segs : List FlatSeg) {i j : ℕ} (h : i ≤ j) :
    totalLen (segs.take i) ≤ totalLen (segs.take j) := by
  have hsplit : segs.take j = segs.take i ++ (segs.take j).drop i := by
    conv_lhs => rw [← List.take_append_drop i (segs.take j), List.take_take, Nat.min_eq_left h]
  rw [hsplit, totalLen_append]
  omega

/-- **The binary search finds the segment that covers an offset.** -/
theorem segAt_spec {segs : List FlatSeg} (hpl : Placed 0 segs) {o : ℕ} (ho : o < totalLen segs) :
    ∃ s rest, segs.drop (segAt segs o) = s :: rest ∧ s.targetOff ≤ o ∧ o < s.targetOff + s.len := by
  have hpart : Partitioned (fun s : FlatSeg => decide (o < s.targetOff)) segs := by
    intro i j s s' hij hs hs' hp
    rw [decide_eq_true_eq] at hp ⊢
    rw [hpl.getElem? hs] at hp
    rw [hpl.getElem? hs']
    have := totalLen_take_mono segs hij
    omega
  obtain ⟨hle, hlo, hhi⟩ := upperBound_spec hpart
  generalize hu : upperBound (fun s : FlatSeg => decide (o < s.targetOff)) segs = u at hle hlo hhi
  have hne : segs ≠ [] := by
    rintro rfl
    simp at ho
  obtain ⟨s₀, segs₀, rfl⟩ := List.exists_cons_of_ne_nil hne
  -- the first segment starts at 0, so the search ends after it
  have hu0 : u ≠ 0 := by
    rintro rfl
    have := hhi 0 s₀ le_rfl rfl
    rw [decide_eq_true_eq, hpl.1] at this
    omega
  obtain ⟨i, rfl⟩ : ∃ i, u = i + 1 := ⟨u - 1, by omega⟩
  have hi : i < (s₀ :: segs₀).length := by omega
  obtain ⟨s, hs⟩ : ∃ s, (s₀ :: segs₀)[i]? = some s := ⟨_, List.getElem?_eq_getElem hi⟩
  refine ⟨s, (s₀ :: segs₀).drop (i + 1), ?_, ?_, ?_⟩
  · rw [segAt, hu, Nat.add_sub_cancel, List.drop_eq_getElem_cons hi]
    rw [List.getElem?_eq_getElem hi] at hs
    rw [Option.some_inj.1 hs]
  · have := hlo i s (by omega) hs
    simpa using this
  · -- the next segment, or the end of the map, lies past the offset
    have hend : s.targetOff + s.len = totalLen ((s₀ :: segs₀).take (i + 1)) := by
      rw [hpl.getElem? hs, List.take_add_one, hs, totalLen_append]
      simp
    rw [hend]
    by_cases hlast : i + 1 < (s₀ :: segs₀).length
    · have hnext := hhi (i + 1) _ le_rfl (List.getElem?_eq_getElem hlast)
      rw [decide_eq_true_eq, hpl.getElem? (List.getElem?_eq_getElem hlast), Nat.zero_add] at hnext
      exact hnext
    · rw [List.take_of_length_le (by omega)]
      exact ho

/-! ### What the map stands for -/

/-- The bytes a segment stands for. -/
def FlatSeg.bytes (base : Bytes) (lits : List Bytes) (s : FlatSeg) : Bytes :=
  if s.kind = KIND_COPY then slice base s.srcOff s.len
  else slice (lits.getD s.addSrc []) s.srcOff s.len

/-- A segment that is not empty and lies inside the base, or inside the literals of its file. -/
def FlatSeg.InRange (base : Bytes) (lits : List Bytes) (s : FlatSeg) : Prop :=
  0 < s.len ∧
    (s.kind = KIND_COPY ∧ s.srcOff + s.len ≤ base.length ∨
      s.kind = KIND_ADD ∧ ∃ lit, lits[s.addSrc]? = some lit ∧ s.srcOff + s.len ≤ lit.length)

theorem FlatSeg.InRange.length_bytes {base : Bytes} {lits : List Bytes} {s : FlatSeg}
    (h : s.InRange base lits) : (s.bytes base lits).length = s.len := by
  obtain ⟨_, ⟨hk, hin⟩ | ⟨hk, lit, hlit, hin⟩⟩ := h
  · rw [FlatSeg.bytes, if_pos hk, length_slice_of_le hin]
  · have hget : lits.getD s.addSrc [] = lit := by
      rw [List.getD_eq_getElem?_getD, hlit, Option.getD_some]
    rw [FlatSeg.bytes, if_neg (by rw [hk]; decide), hget, length_slice_of_le hin]

/-- The bytes of a map. -/
def mapBytes (base : Bytes) (lits : List Bytes) (segs : List FlatSeg) : Bytes :=
  segs.flatMap (FlatSeg.bytes base lits)

@[simp] theorem mapBytes_nil (base : Bytes) (lits : List Bytes) : mapBytes base lits [] = [] := rfl

@[simp] theorem mapBytes_cons (base : Bytes) (lits : List Bytes) (s : FlatSeg)
    (segs : List FlatSeg) :
    mapBytes base lits (s :: segs) = s.bytes base lits ++ mapBytes base lits segs := rfl

@[simp] theorem mapBytes_append (base : Bytes) (lits : List Bytes) (segs segs' : List FlatSeg) :
    mapBytes base lits (segs ++ segs') = mapBytes base lits segs ++ mapBytes base lits segs' := by
  simp [mapBytes]

theorem length_mapBytes {base : Bytes} {lits : List Bytes} {segs : List FlatSeg}
    (h : ∀ s ∈ segs, s.InRange base lits) : (mapBytes base lits segs).length = totalLen segs := by
  induction segs with
  | nil => rfl
  | cons s segs ih =>
      rw [mapBytes_cons, List.length_append, (h s (by simp)).length_bytes, totalLen_cons,
        ih fun s' hs' => h s' (by simp [hs'])]

namespace DeltaByteSource

/-- **A sound source**: its base delivers `base`, its files hold `lits`, and its segments are in
range and placed one after the other over the whole target. -/
structure Sound (z : Zstd) (D : DeltaByteSource) (base : Bytes) (lits : List Bytes) : Prop where
  base_delivers : D.baseSrc.Delivers base
  adds : AddsHold z D.addSources lits
  inRange : ∀ s ∈ D.segs, s.InRange base lits
  placed : Placed 0 D.segs
  total : totalLen D.segs = D.targetSize
  size_lt : D.targetSize < 2 ^ 64

variable {z : Zstd} {D : DeltaByteSource} {base : Bytes} {lits : List Bytes}

theorem Sound.length_content (h : D.Sound z base lits) :
    (mapBytes base lits D.segs).length = D.targetSize := by
  rw [length_mapBytes h.inRange, h.total]

/-- **A part of a segment is read right.** -/
theorem readSeg_eq (h : D.Sound z base lits) {s : FlatSeg} (hs : s.InRange base lits)
    (skip chunk : ℕ) (hin : skip + chunk ≤ s.len) {st : ReadState}
    (hok : CacheOk D.addSources lits st) :
    ∃ st', D.readSeg z s skip chunk st = (.ok (slice (s.bytes base lits) skip chunk), st') ∧
      CacheOk D.addSources lits st' := by
  obtain ⟨_, ⟨hk, hr⟩ | ⟨hk, lit, hlit, hr⟩⟩ := hs
  · have hlt := h.base_delivers.length_lt
    obtain ⟨t', ht'⟩ := readCopy_eq h.base_delivers chunk (s.srcOff + skip) (by omega) st
    refine ⟨_, ?_, hok.clock t'⟩
    rw [readSeg, if_pos hk, add64_eq (by omega), ht', FlatSeg.bytes, if_pos hk,
      slice_slice (by omega)]
  · have hne : ¬ s.kind = KIND_COPY := by rw [hk]; decide
    have hi : s.addSrc < D.addSources.length := by
      rw [← h.adds.length_eq]
      exact (List.getElem?_eq_some_iff.1 hlit).1
    have hA := List.getElem?_eq_getElem hi
    have hlt := (h.adds.holds _ _ _ hA hlit).lit_lt
    obtain ⟨st', hst', hok'⟩ := readAdd_eq h.adds hA hlit chunk (s.srcOff + skip)
      (by omega) hok
    have hget : lits.getD s.addSrc [] = lit := by
      rw [List.getD_eq_getElem?_getD, hlit, Option.getD_some]
    refine ⟨st', ?_, hok'⟩
    rw [readSeg, if_neg hne, hA]
    dsimp only
    rw [add64_eq (by omega), hst', FlatSeg.bytes, if_neg hne, hget, slice_slice (by omega)]

/-- A loop that has all it wants returns it. -/
theorem preadSegs_full {off want : ℕ} {segs : List FlatSeg} {done pos : ℕ} {out : Bytes}
    (h : want ≤ done) (st : ReadState) :
    D.preadSegs z off want segs done pos out st = (.ok out, st) := by
  cases segs with
  | nil => rfl
  | cons s segs => rw [preadSegs, if_pos h, Prog.pure_apply]

/-- One segment of a read. -/
theorem preadSegs_turn {off want m pos : ℕ} {s : FlatSeg}
    {rest : List FlatSeg} {out bytes : Bytes} {st st' : ReadState} {i n : ℕ} (hm : m < want)
    (hpos : s.targetOff ≤ pos ∧ pos < add64 s.targetOff s.len)
    (hn : sub64 (min (add64 s.targetOff s.len) (add64 off want)) pos = n)
    (hi : sub64 pos s.targetOff = i) (hread : D.readSeg z s i n st = (.ok bytes, st')) :
    D.preadSegs z off want (s :: rest) m pos out st
      = D.preadSegs z off want rest (add64 m n) (add64 pos n) (out ++ bytes) st' := by
  have hin : ¬ (pos < s.targetOff ∨ add64 s.targetOff s.len ≤ pos) := by omega
  rw [preadSegs, if_neg (by omega)]
  dsimp only
  rw [if_neg hin, hn, hi, Prog.bind_of_ok hread]

/-- The loop of a read over the segments from `t` on: what is still wanted comes from the segments
still to come. -/
theorem preadSegs_eq (h : D.Sound z base lits) (off want : ℕ) (hoff : off + want < 2 ^ 64) :
    ∀ (segs : List FlatSeg) (t done : ℕ) (out : Bytes) (st : ReadState),
      (∀ s ∈ segs, s.InRange base lits) → Placed t segs → t + totalLen segs < 2 ^ 64 →
      t ≤ off + done → done ≤ want → off + want ≤ t + totalLen segs →
      (∀ s ∈ segs.head?, off + done < t + s.len) → CacheOk D.addSources lits st →
      ∃ st', D.preadSegs z off want segs done (off + done) out st
          = (.ok (out ++ slice (mapBytes base lits segs) (off + done - t) (want - done)), st') ∧
        CacheOk D.addSources lits st' := by
  intro segs
  induction segs with
  | nil =>
      intro t done out st _ _ _ ht hdone hend _ hok
      rw [totalLen_nil] at hend
      exact ⟨st, by simp [preadSegs, slice], hok⟩
  | cons s segs ih =>
      intro t done out st hr hpl hlt ht hdone hend hhead hok
      obtain ⟨rfl, hpl'⟩ := hpl
      rw [totalLen_cons] at hlt hend
      have hin := hhead s rfl
      have hs := hr s (by simp)
      by_cases hfull : want ≤ done
      · exact ⟨st, by rw [preadSegs, if_pos hfull, Nat.sub_eq_zero_of_le hfull]; simp, hok⟩
      · rw [preadSegs, if_neg hfull]
        dsimp only
        rw [add64_eq (by omega), if_neg (by omega), add64_eq hoff,
          sub64_eq (by omega) (by omega), sub64_eq (by omega) (by omega)]
        have hlen := hs.length_bytes
        by_cases hcase : off + want ≤ s.targetOff + s.len
        · -- the range ends in this segment
          have hchunk : min (s.targetOff + s.len) (off + want) - (off + done) = want - done := by
            omega
          obtain ⟨st₁, h₁, hok₁⟩ := readSeg_eq h hs (off + done - s.targetOff) (want - done)
            (by omega) hok
          refine ⟨st₁, ?_, hok₁⟩
          rw [hchunk, Prog.bind_of_ok h₁, add64_eq (by omega), preadSegs_full (by omega),
            mapBytes_cons, slice_append_left (by omega)]
        · -- the range goes on in the next segment
          have hchunk : min (s.targetOff + s.len) (off + want) - (off + done)
              = s.targetOff + s.len - (off + done) := by omega
          obtain ⟨st₁, h₁, hok₁⟩ := readSeg_eq h hs (off + done - s.targetOff)
            (s.targetOff + s.len - (off + done)) (by omega) hok
          have hnext : off + (done + (s.targetOff + s.len - (off + done)))
              = s.targetOff + s.len := by omega
          obtain ⟨st₂, h₂, hok₂⟩ := ih (s.targetOff + s.len)
            (done + (s.targetOff + s.len - (off + done)))
            (out ++ slice (s.bytes base lits) (off + done - s.targetOff)
              (s.targetOff + s.len - (off + done))) st₁
            (fun s' hs' => hr s' (by simp [hs'])) hpl' (by omega) (by omega) (by omega) (by omega)
            (by
              intro s' hs'
              have hpos := (hr s' (List.mem_cons_of_mem _ (List.mem_of_mem_head? hs'))).1
              omega) hok₁
          refine ⟨st₂, ?_, hok₂⟩
          have hpos : off + done + (s.targetOff + s.len - (off + done))
              = off + (done + (s.targetOff + s.len - (off + done))) := by omega
          have hleft : s.len - (off + done - s.targetOff) = s.targetOff + s.len - (off + done) := by
            omega
          have hrest : want - done - (s.targetOff + s.len - (off + done))
              = want - (done + (s.targetOff + s.len - (off + done))) := by omega
          rw [hchunk, Prog.bind_of_ok h₁, add64_eq (by omega), add64_eq (by omega), hpos, h₂, hnext,
            Nat.sub_self, mapBytes_cons, slice_append (by omega) (by omega), hlen, hleft, hrest,
            List.append_assoc]

/-- **A read returns the slice of the content**: from any state whose cache is right, as many of
the bytes asked for as there are, and a cache that is right. -/
theorem pread_eq (h : D.Sound z base lits) (n off : ℕ) {st : ReadState}
    (hok : CacheOk D.addSources lits st) :
    ∃ st', D.pread z n off st = (.ok (slice (mapBytes base lits D.segs) off n), st') ∧
      CacheOk D.addSources lits st' := by
  have hlen := h.length_content
  have htot := h.total
  have hsz := h.size_lt
  rw [pread]
  by_cases hend : D.targetSize ≤ off ∨ D.segs = []
  · -- past the end, or an empty target
    have hpast : D.targetSize ≤ off := by
      rcases hend with hle | hnil
      · exact hle
      · rw [hnil, totalLen_nil] at htot
        omega
    exact ⟨st, by rw [if_pos hend, slice_of_length_le (by omega), Prog.pure_apply], hok⟩
  · have hoff : off < D.targetSize := by omega
    obtain ⟨s, rest, hdrop, hlo, hhi⟩ := segAt_spec h.placed (o := off) (by omega)
    have hsplit : D.segs = D.segs.take (segAt D.segs off) ++ s :: rest := by
      rw [← hdrop, List.take_append_drop]
    generalize hpre : D.segs.take (segAt D.segs off) = front at hsplit
    have hr := h.inRange
    have hpl := h.placed
    rw [hsplit] at hr hpl htot
    have hpl' := hpl.append
    rw [Nat.zero_add] at hpl'
    have hstart : s.targetOff = totalLen front := hpl'.1
    rw [totalLen_append] at htot
    have hfront : (mapBytes base lits front).length = totalLen front :=
      length_mapBytes fun s' hs' => hr s' (List.mem_append_left _ hs')
    obtain ⟨st', h', hok'⟩ := preadSegs_eq h off (min n (D.targetSize - off))
      (by omega) (s :: rest) s.targetOff 0 [] st
      (fun s' hs' => hr s' (List.mem_append_right _ hs')) (hstart ▸ hpl') (by omega) (by omega)
      (by omega) (by omega)
      (by
        intro s' hs'
        obtain rfl : s = s' := by simpa using hs'
        omega) hok
    refine ⟨st', ?_, hok'⟩
    rw [Nat.add_zero] at h'
    have hcut : slice (mapBytes base lits D.segs) off n
        = slice (mapBytes base lits D.segs) off (min n (D.targetSize - off)) := by
      rw [slice_min, hlen]
    rw [if_neg hend, hdrop, h', List.nil_append, Nat.sub_zero, hcut]
    conv_rhs => rw [hsplit, mapBytes_append, slice_append_right (by omega), hfront, ← hstart]

/-- One read after the other, from the state the one before left. -/
def preads (z : Zstd) (D : DeltaByteSource) : List (ℕ × ℕ) → Prog ReadState ReadErr (List Bytes)
  | [] => pure []
  | (n, off) :: reads => do
      let bs ← D.pread z n off
      let rest ← D.preads z reads
      pure (bs :: rest)

/-- **Any run of reads returns the slices of the content**, whatever was read before. -/
theorem preads_eq (h : D.Sound z base lits) (reads : List (ℕ × ℕ)) {st : ReadState}
    (hok : CacheOk D.addSources lits st) :
    ∃ st', D.preads z reads st
        = (.ok (reads.map fun r => slice (mapBytes base lits D.segs) r.2 r.1), st') ∧
      CacheOk D.addSources lits st' := by
  induction reads generalizing st with
  | nil => exact ⟨st, rfl, hok⟩
  | cons r reads ih =>
      obtain ⟨n, off⟩ := r
      obtain ⟨st₁, h₁, hok₁⟩ := pread_eq h n off hok
      obtain ⟨st₂, h₂, hok₂⟩ := ih hok₁
      refine ⟨st₂, ?_, hok₂⟩
      rw [preads, Prog.bind_of_ok h₁, Prog.bind_of_ok h₂]
      rfl

end DeltaByteSource

end VidyaGodFS
