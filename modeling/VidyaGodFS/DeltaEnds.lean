/-
**Which reads of literals end.**

The loop of `readAdd` goes on by what is left of a block after the offset inside it.  The lengths of
the blocks come from the file.  A walk over the declared lengths tells what the loop does: it passes
through a block as long as the offset lies inside it, stops with an error where the block is missing
or ends before the offset, and stays where it is for ever when the offset is the exact end of a
block.  `Stuck` is the third case.  No check of the parser and none of the loop excludes it.

Whether a read that is not stuck comes to all its bytes is up to the file, the compressor and the
cache; that it ends is not.

Main definitions:

* `AddSource.Stuck`, `AddSource.Through` — walks over the block index that come to the exact end of
  a block, and walks that find all their bytes;
* `CacheFits` — every cached block has the length its record declares;
* `AddSource.Yields` — files whose blocks all come;
* `Built` — the readers that `create` returns;
* `DeltaByteSource.Stalls` — a read of the map that comes to a stuck range of literals;
* `DeltaByteSource.readingFrom` — the same map over another base and other files.

Main results:

* `readAddLoop_ends`, `readAddLoop_hangs` — the loop ends from a walk that is not stuck, and a stuck
  one hangs however long it is run;
* `reads_end_iff` — **a read ends whatever the files deliver exactly when it is not stuck**;
* `shortBlock_hangs` — a file that `create` accepts and whose read never ends.
-/

import VidyaGodFS.DeltaChain

set_option relaxedAutoImplicit false
set_option autoImplicit false

namespace VidyaGodFS

/-! ### Walks over a block index -/

/-- **A walk that gets stuck**: with `n` bytes to go at `o`, taking from every block what its record
declares, it comes to the exact end of a block with bytes still to go. -/
inductive AddSource.Stuck (A : AddSource) : ℕ → ℕ → Prop
  | here {n o : ℕ} {b : BlockRec} : 0 < n → A.blocks[o / A.blockSize]? = some b →
      b.uncompLen = o % A.blockSize → A.Stuck n o
  | next {n o : ℕ} {b : BlockRec} : A.blocks[o / A.blockSize]? = some b →
      o % A.blockSize < b.uncompLen →
      A.Stuck (n - (b.uncompLen - o % A.blockSize)) (add64 o (b.uncompLen - o % A.blockSize)) →
      A.Stuck n o

/-- A walk that finds all its `n` bytes. -/
inductive AddSource.Through (A : AddSource) : ℕ → ℕ → Prop
  | done {o : ℕ} : A.Through 0 o
  | next {n o : ℕ} {b : BlockRec} : A.blocks[o / A.blockSize]? = some b →
      o % A.blockSize < b.uncompLen →
      A.Through (n - (b.uncompLen - o % A.blockSize)) (add64 o (b.uncompLen - o % A.blockSize)) →
      A.Through n o

theorem AddSource.Stuck.pos {A : AddSource} {n o : ℕ} (h : A.Stuck n o) : 0 < n := by
  induction h with
  | here hn _ _ => exact hn
  | next _ _ _ ih => omega

/-- **A range inside the literals of a file is never stuck.** -/
theorem AddSource.Holds.not_stuck {z : Zstd} {A : AddSource} {lit : Bytes} (h : A.Holds z lit)
    {n o : ℕ} (hin : o + n ≤ lit.length) : ¬ A.Stuck n o := by
  intro hstuck
  have hlit := h.lit_lt
  have hbs := h.blockSize_pos
  induction hstuck with
  | here hpos hb hend =>
      rename_i n o b
      have hlen := (h.block _ b hb).1
      rw [length_slice] at hlen
      have hx := Nat.div_add_mod' o A.blockSize
      have hmod := Nat.mod_lt o hbs
      omega
  | next hb hlt hrest ih =>
      rename_i n o b
      have hpos := hrest.pos
      refine ih ?_
      rw [add64_eq (by omega)]
      omega

/-! ### The lengths of cached blocks -/

/-- The keys of different blocks of the files `F`, given by number, differ. -/
def KeysApart (F : ℕ → Option AddSource) : Prop :=
  ∀ (i j : ℕ) (A A' : AddSource) (blk blk' : ℕ), F i = some A → F j = some A' →
    blk < A.blocks.length → blk' < A'.blocks.length → blockKey i blk = blockKey j blk' →
    i = j ∧ blk = blk'

/-- Every cached block of the files `F` has the length that its record declares. -/
def CacheFits (F : ℕ → Option AddSource) (s : ReadState) : Prop :=
  ∀ (i blk : ℕ) (A : AddSource) (b : BlockRec) (raw : Bytes), F i = some A →
    A.blocks[blk]? = some b → s.cache.lookup (blockKey i blk) = some raw →
      raw.length = b.uncompLen

/-- The one file `A`, under the number `i`. -/
def oneFile (i : ℕ) (A : AddSource) (j : ℕ) : Option AddSource := if j = i then some A else none

theorem oneFile_self (i : ℕ) (A : AddSource) : oneFile i A i = some A := if_pos rfl

theorem oneFile_eq {i j : ℕ} {A B : AddSource} (h : oneFile i A j = some B) : j = i ∧ B = A := by
  rw [oneFile] at h
  split at h
  · exact ⟨‹_›, (Option.some_inj.1 h).symm⟩
  · simp at h

/-- The keys of one file always differ, whatever its number. -/
theorem keysApart_oneFile (i : ℕ) (A : AddSource) : KeysApart (oneFile i A) := by
  intro j k B B' blk blk' hj hk _ _ hkey
  obtain rfl : j = k := (oneFile_eq hj).1.trans (oneFile_eq hk).1.symm
  refine ⟨rfl, ?_⟩
  have hxor := congrArg (fun x => (j <<< 40) % 2 ^ 64 ^^^ x) hkey
  simpa [blockKey, ← Nat.xor_assoc] using hxor

/-- So do those of up to `2 ^ 24` files. -/
theorem keysApart_list {adds : List AddSource} (hn : adds.length ≤ 2 ^ 24)
    (hblk : ∀ A ∈ adds, A.blocks.length < 2 ^ 32) : KeysApart (adds[·]?) := by
  intro i j A A' blk blk' hi hj hb hb' hkey
  have hi' := (List.getElem?_eq_some_iff.1 hi).1
  have hj' := (List.getElem?_eq_some_iff.1 hj).1
  have hA := hblk A (List.mem_of_getElem? hi)
  have hA' := hblk A' (List.mem_of_getElem? hj)
  exact blockKey_inj (by omega) (by omega) (by omega) (by omega) hkey

/-- An empty cache holds no block of the wrong length. -/
theorem cacheFits_nil (F : ℕ → Option AddSource) (t : ℕ) : CacheFits F ⟨t, [], []⟩ := by
  intro i blk A b raw _ _ h
  simp at h

section Literals

variable {F : ℕ → Option AddSource} {z : Zstd} {i blk : ℕ} {A : AddSource} {b : BlockRec}

/-- Entering a block of its declared length keeps the lengths. -/
theorem CacheFits.remember {s : ReadState} (h : CacheFits F s) (hF : KeysApart F)
    (hA : F i = some A) (hb : A.blocks[blk]? = some b) {raw : Bytes}
    (hraw : raw.length = b.uncompLen) : CacheFits F (s.remember (blockKey i blk) raw) := by
  intro j c A' b' raw' hA' hb' hlook
  rcases lookup_remember hlook with ⟨hkey, rfl⟩ | hold
  · obtain ⟨rfl, rfl⟩ := hF j i A' A c blk hA' hA (List.getElem?_eq_some_iff.1 hb').1
      (List.getElem?_eq_some_iff.1 hb).1 hkey
    rw [hA] at hA'
    obtain rfl := Option.some_inj.1 hA'
    rw [hb] at hb'
    obtain rfl := Option.some_inj.1 hb'
    exact hraw
  · exact h j c A' b' raw' hA' hb' hold

/-- A block read from the cache or from the file has its declared length, and so has every block
cached then. -/
theorem getAddBlock_fits (hF : KeysApart F) (hA : F i = some A) (hb : A.blocks[blk]? = some b)
    (file : ByteSource) :
    Prog.Triple (CacheFits F) (getAddBlock z i { A with file := file } blk)
      (fun r s => CacheFits F s ∧ ∀ raw, r = some raw → raw.length = b.uncompLen)
      (fun _ _ => False) := by
  intro s hs
  have hstart : (Prog.gets fun s : ReadState => s.cache.lookup (blockKey i blk) :
      Prog ReadState ReadErr _) s = (.ok (s.cache.lookup (blockKey i blk)), s) := rfl
  rw [getAddBlock, Prog.bind_of_ok hstart]
  cases hlook : s.cache.lookup (blockKey i blk) with
  | some raw =>
      refine ⟨hs, ?_⟩
      intro raw' hraw
      exact hs i blk A b raw' hA hb (hlook.trans hraw)
  | none =>
      have hget : A.blocks.getD blk ⟨0, 0, 0⟩ = b := by
        rw [List.getD_eq_getElem?_getD, hb, Option.getD_some]
      -- the frame, read unless it is empty
      obtain ⟨r, t', hframe⟩ : ∃ r t', (if b.compLen = 0 then pure (some [])
          else readFile file b.compLen (add64 A.regionOff b.compOff) :
            Prog ReadState ReadErr (Option Bytes)) s = (.ok r, { s with clock := t' }) := by
        split
        · exact ⟨_, s.clock, rfl⟩
        · obtain ⟨r, t', h⟩ := file.preadAllLoop_ok (ε := ReadErr) b.compLen b.compLen
            (add64 A.regionOff b.compOff) [] s.clock
          exact ⟨r, t', by rw [readFile, Prog.zoom_apply, ByteSource.preadAll, h]⟩
      dsimp only
      rw [hget, Prog.bind_of_ok hframe]
      cases r with
      | none => exact ⟨hs, by simp⟩
      | some comp =>
          dsimp only
          split
          · exact ⟨hs, by simp⟩
          · rename_i hlen
            rw [not_not] at hlen
            refine ⟨CacheFits.remember (s := { s with clock := t' }) hs hF hA hb hlen, ?_⟩
            intro raw hraw
            exact Option.some_inj.1 hraw ▸ hlen

/-- **The loop ends from a walk that is not stuck**, with all its bytes or with an error number. -/
theorem readAddLoop_ends (hF : KeysApart F) (hA : F i = some A) (file : ByteSource) :
    ∀ (fuel n o : ℕ) (out : Bytes), n ≤ fuel → ¬ A.Stuck n o →
      Prog.Triple (CacheFits F) (readAddLoop z i { A with file := file } fuel n o out)
        (fun bs s => CacheFits F s ∧ bs.length = out.length + n ∧ A.Through n o)
        (fun e _ => e ≠ .hang) := by
  intro fuel
  induction fuel with
  | zero =>
      intro n o out hn _
      obtain rfl : n = 0 := by omega
      exact Prog.Triple.pure fun s hs => ⟨hs, rfl, .done⟩
  | succ fuel ih =>
      intro n o out hn hstuck
      rw [readAddLoop]
      split
      · subst n
        exact Prog.Triple.pure fun s hs => ⟨hs, rfl, .done⟩
      rename_i hpos
      dsimp only
      split
      · exact Prog.Triple.fail fun s _ => by simp
      rename_i hblk
      obtain ⟨b, hb⟩ : ∃ b, A.blocks[o / A.blockSize]? = some b :=
        ⟨_, List.getElem?_eq_getElem (by omega)⟩
      refine Prog.Triple.bind ((getAddBlock_fits hF hA hb file).conseq (fun _ h => h)
        (fun _ _ h => h) (fun _ _ h => h.elim)) ?_
      rintro (_ | raw)
      · exact Prog.Triple.fail fun s _ => by simp
      dsimp only
      split
      · exact Prog.Triple.fail fun s _ => by simp
      rename_i hle
      -- the block has its declared length, and the offset is not its end
      rintro s ⟨hs, hraw⟩
      have hlen := hraw raw rfl
      have hne : b.uncompLen ≠ o % A.blockSize := fun h => hstuck (.here (by omega) hb h)
      have hcut : (slice raw (o % A.blockSize)
          (min n (raw.length - o % A.blockSize))).length
            = min n (raw.length - o % A.blockSize) := length_slice_of_le (by omega)
      rcases Nat.lt_or_ge (b.uncompLen - o % A.blockSize) n with hlt | hge
      · -- the block is used up
        rw [hlen, Nat.min_eq_right hlt.le] at hcut ⊢
        refine (ih _ _ _ (by omega) fun h => hstuck (.next hb (by omega) h)).conseq
          (fun _ h => h) ?_ (fun _ _ h => h) s hs
        rintro bs s' ⟨hs', hbs, hthrough⟩
        refine ⟨hs', ?_, .next hb (by omega) hthrough⟩
        rw [hbs, List.length_append, hcut]
        omega
      · -- the rest of the range lies in this block
        rw [hlen, Nat.min_eq_left hge] at hcut ⊢
        refine (ih _ _ _ (by omega) fun h => absurd h.pos (by omega)).conseq
          (fun _ h => h) ?_ (fun _ _ h => h) s hs
        rintro bs s' ⟨hs', hbs, _⟩
        refine ⟨hs', ?_, .next hb (by omega) (Nat.sub_eq_zero_of_le hge ▸ .done)⟩
        rw [hbs, List.length_append, hcut]
        omega

end Literals

/-! ### Files whose blocks all come -/

/-- The frame of a block, read from its file unless it is empty. -/
def readFrame (A : AddSource) (b : BlockRec) : Prog ReadState ReadErr (Option Bytes) :=
  if b.compLen = 0 then pure (some []) else readFile A.file b.compLen (add64 A.regionOff b.compOff)

/-- Every block of the file comes, in the length its record declares. -/
def AddSource.Yields (z : Zstd) (A : AddSource) : Prop :=
  ∀ b ∈ A.blocks, ∀ s : ReadState, ∃ comp t',
    readFrame A b s = (.ok (some comp), { s with clock := t' }) ∧
      (zDecompress z comp b.uncompLen).length = b.uncompLen

section Yields

variable {F : ℕ → Option AddSource} {z : Zstd} {i blk : ℕ} {A : AddSource} {b : BlockRec}
  {file : ByteSource}

/-- A block of such a file comes in its declared length, from the cache or from the file. -/
theorem getAddBlock_yields (hy : AddSource.Yields z { A with file := file }) (hF : KeysApart F)
    (hA : F i = some A) (hb : A.blocks[blk]? = some b) :
    Prog.Triple (CacheFits F) (getAddBlock z i { A with file := file } blk)
      (fun r s => CacheFits F s ∧ ∃ raw, r = some raw ∧ raw.length = b.uncompLen)
      (fun _ _ => False) := by
  intro s hs
  have hfits := getAddBlock_fits (z := z) hF hA hb file s hs
  -- the block is there
  obtain ⟨raw, s', hrun⟩ : ∃ raw s',
      getAddBlock z i { A with file := file } blk s = (.ok (some raw), s') := by
    have hstart : (Prog.gets fun s : ReadState => s.cache.lookup (blockKey i blk) :
        Prog ReadState ReadErr _) s = (.ok (s.cache.lookup (blockKey i blk)), s) := rfl
    rw [getAddBlock, Prog.bind_of_ok hstart]
    cases hlook : s.cache.lookup (blockKey i blk) with
    | some raw => exact ⟨raw, s, rfl⟩
    | none =>
        have hget : A.blocks.getD blk ⟨0, 0, 0⟩ = b := by
          rw [List.getD_eq_getElem?_getD, hb, Option.getD_some]
        obtain ⟨comp, t', hframe, hlen⟩ := hy b (List.mem_of_getElem? hb) s
        rw [readFrame] at hframe
        dsimp only at hframe ⊢
        rw [hget, Prog.bind_of_ok hframe]
        dsimp only
        rw [if_neg (not_not.2 hlen)]
        exact ⟨_, _, rfl⟩
  rw [hrun] at hfits ⊢
  exact ⟨hfits.1, raw, rfl, hfits.2 raw rfl⟩

/-- **From a stuck walk the loop never ends**, however many turns it is given. -/
theorem readAddLoop_hangs (hy : AddSource.Yields z { A with file := file }) (hF : KeysApart F)
    (hA : F i = some A) {n o : ℕ} (h : A.Stuck n o) :
    o < 2 ^ 64 → ∀ (fuel : ℕ) (out : Bytes), Prog.Triple (CacheFits F)
      (readAddLoop z i { A with file := file } fuel n o out)
        (fun _ _ => False) (fun e _ => e = .hang) := by
  induction h with
  | here hpos hb hend =>
      rename_i n o b
      intro ho fuel
      have hblk := (List.getElem?_eq_some_iff.1 hb).1
      induction fuel with
      | zero =>
          intro out
          rw [readAddLoop, if_neg (by omega)]
          exact Prog.Triple.fail fun _ _ => rfl
      | succ fuel ih =>
          intro out
          rw [readAddLoop, if_neg (by omega)]
          dsimp only
          rw [if_neg (by omega)]
          refine Prog.Triple.bind ((getAddBlock_yields hy hF hA hb).conseq (fun _ h => h)
            (fun _ _ h => h) (fun _ _ h => h.elim)) ?_
          rintro r s ⟨hs, raw, rfl, hlen⟩
          dsimp only
          -- nothing is left of the block, so the turn changes nothing
          have htake : min n (raw.length - o % A.blockSize) = 0 := by omega
          rw [if_neg (by omega), htake, Nat.sub_zero, add64_eq (by omega), Nat.add_zero]
          exact ih _ s hs
  | next hb hlt hstuck ih =>
      rename_i n o b
      intro ho fuel out
      have hblk := (List.getElem?_eq_some_iff.1 hb).1
      have hrest := hstuck.pos
      cases fuel with
      | zero =>
          rw [readAddLoop, if_neg (by omega)]
          exact Prog.Triple.fail fun _ _ => rfl
      | succ fuel =>
          rw [readAddLoop, if_neg (by omega)]
          dsimp only
          rw [if_neg (by omega)]
          refine Prog.Triple.bind ((getAddBlock_yields hy hF hA hb).conseq (fun _ h => h)
            (fun _ _ h => h) (fun _ _ h => h.elim)) ?_
          rintro r s ⟨hs, raw, rfl, hlen⟩
          dsimp only
          have htake : min n (raw.length - o % A.blockSize) = b.uncompLen - o % A.blockSize := by
            omega
          rw [if_neg (by omega), htake]
          exact ih (Nat.mod_lt _ (Nat.two_pow_pos 64)) fuel _ s hs

/-- **A walk that finds its bytes returns them.** -/
theorem readAddLoop_through (hy : AddSource.Yields z { A with file := file }) (hF : KeysApart F)
    (hA : F i = some A) {n o : ℕ} (h : A.Through n o) :
    ∀ (fuel : ℕ) (out : Bytes), n ≤ fuel → Prog.Triple (CacheFits F)
      (readAddLoop z i { A with file := file } fuel n o out)
        (fun bs s => CacheFits F s ∧ bs.length = out.length + n) (fun _ _ => False) := by
  induction h with
  | done =>
      intro fuel out _ s hs
      cases fuel <;> exact ⟨hs, rfl⟩
  | next hb hlt hthrough ih =>
      rename_i n o b
      intro fuel out hn
      have hblk := (List.getElem?_eq_some_iff.1 hb).1
      rcases Nat.eq_zero_or_pos n with rfl | hpos
      · intro s hs
        cases fuel <;> exact ⟨hs, rfl⟩
      · obtain ⟨fuel, rfl⟩ : ∃ f, fuel = f + 1 := ⟨fuel - 1, by omega⟩
        rw [readAddLoop, if_neg (by omega)]
        dsimp only
        rw [if_neg (by omega)]
        refine Prog.Triple.bind ((getAddBlock_yields hy hF hA hb).conseq (fun _ h => h)
          (fun _ _ h => h) (fun _ _ h => h.elim)) ?_
        rintro r s ⟨hs, raw, rfl, hlen⟩
        dsimp only
        have hcut : (slice raw (o % A.blockSize)
            (min n (raw.length - o % A.blockSize))).length
              = min n (raw.length - o % A.blockSize) := length_slice_of_le (by omega)
        rw [hlen] at hcut
        rw [if_neg (by omega), hlen]
        rcases Nat.lt_or_ge (b.uncompLen - o % A.blockSize) n with hlt' | hge
        · rw [Nat.min_eq_right hlt'.le] at hcut ⊢
          refine (ih fuel _ (by omega)).conseq (fun _ h => h) ?_ (fun _ _ h => h) s hs
          rintro bs s' ⟨hs', hbs⟩
          refine ⟨hs', ?_⟩
          rw [hbs, List.length_append, hcut]
          omega
        · rw [Nat.min_eq_left hge] at hcut ⊢
          rw [Nat.sub_self]
          have hall : (out ++ slice raw (o % A.blockSize) n).length = out.length + n := by
            rw [List.length_append, hcut]
          cases fuel <;> exact ⟨hs, hall⟩

end Yields

/-! A file and a compressor that never fail. -/

/-- A source that returns all it is asked for. -/
def endlessSource : ByteSource where
  size := 0
  pread _ n _ := .ok (List.replicate n 0)
  size_lt := by decide
  length_pread_le := by
    intro t n off bs hbs
    obtain rfl := Except.ok.inj hbs
    rw [List.length_replicate]

/-- A compressor whose every frame decompresses to the length asked for. -/
def blankZstd : Zstd where
  compress _ _ := []
  decompress _ cap := some (List.replicate cap 0)

theorem length_zDecompress_blank (frame : Bytes) (n : ℕ) :
    (zDecompress blankZstd frame n).length = n := by
  simp [zDecompress, blankZstd]

theorem readFile_endless (n off : ℕ) (s : ReadState) :
    ∃ bs t', readFile endlessSource n off s = (.ok (some bs), { s with clock := t' }) := by
  cases n with
  | zero => exact ⟨_, s.clock, rfl⟩
  | succ n =>
      refine ⟨List.replicate (n + 1) 0, s.clock + 1, ?_⟩
      rw [readFile, Prog.zoom_apply, ByteSource.preadAll, ByteSource.preadAllLoop,
        if_neg (by omega)]
      have hstep : (endlessSource.read (n + 1) off : Prog ℕ ReadErr _) s.clock
          = (.ok (.ok (0 :: List.replicate n 0)), s.clock + 1) := rfl
      rw [Prog.bind_of_ok hstep]
      dsimp only
      rw [List.length_cons, List.length_replicate, Nat.sub_self]
      cases n <;> rfl

theorem yields_endless (A : AddSource) :
    AddSource.Yields blankZstd { A with file := endlessSource } := by
  intro b _ s
  rw [readFrame]
  split
  · exact ⟨[], s.clock, rfl, length_zDecompress_blank _ _⟩
  · obtain ⟨bs, t', h⟩ := readFile_endless b.compLen (add64 A.regionOff b.compOff) s
    exact ⟨bs, t', h, length_zDecompress_blank _ _⟩

/-! ### Readers that `create` returned -/

/-- The flat map before its segments are placed: the segments of the file over a plain base,
rewritten through the map of a base that is a reader. -/
def Composes (base : Source) (P : Parsed) (segs : List FlatSeg) : Prop :=
  match base with
  | .plain _ => segs = P.segs.map fun s => ⟨0, s.len, s.srcOff, 0, s.kind⟩
  | .delta bd => composeSegs bd.segs (bd.addSources.length % 2 ^ 32) P.segs = .ok segs

/-- The plain source under a base. -/
def Source.ultimate : Source → ByteSource
  | .plain src => src
  | .delta bd => bd.baseSrc

theorem finish_inv {src : ByteSource} {adds : List AddSource} {segs : List FlatSeg} {size : ℕ}
    {io io' : Io} {D : DeltaByteSource} (h : finish src adds segs size io = (.ok D, io')) :
    (placeSegs 0 segs).2 = size ∧ D = ⟨src, adds, (placeSegs 0 segs).1, size⟩ := by
  rw [finish] at h
  split at h
  · simp [refuse] at h
  · rename_i hsize
    exact ⟨not_not.1 hsize, (Except.ok.inj (Prod.mk.inj h).1).symm⟩

/-- **What a delta that was accepted says.** -/
theorem create_inv {z : Zstd} {delta : ByteSource} {base : Option Source} {v : Bool} {io io' : Io}
    {D : DeltaByteSource} (h : create z delta base v io = (.ok D, io')) :
    ∃ (P : Parsed) (b : Source) (segs : List FlatSeg) (io₁ : Io), base = some b ∧
      parseDelta z delta io = (.ok P, io₁) ∧ b.size = P.baseSize ∧ Composes b P segs ∧
      (placeSegs 0 segs).2 = P.targetSize ∧
      D = ⟨b.ultimate, b.adds ++ [P.add], (placeSegs 0 segs).1, P.targetSize⟩ := by
  rcases hparse : parseDelta z delta io with ⟨e | P, io₁⟩
  · rw [create, Prog.bind_of_error hparse] at h
    simp at h
  rw [create, Prog.bind_of_ok hparse] at h
  cases base with
  | none => simp [refuse] at h
  | some b =>
      dsimp only at h
      split at h
      · simp [refuse] at h
      rename_i hsize
      rw [not_not] at hsize
      cases b with
      | delta bd =>
          dsimp only at h
          rcases hsegs : composeSegs bd.segs (bd.addSources.length % 2 ^ 32) P.segs with e | segs
          · rw [hsegs] at h
            simp [refuse] at h
          · rw [hsegs] at h
            obtain ⟨hend, hD⟩ := finish_inv h
            exact ⟨P, _, segs, io₁, rfl, rfl, hsize, hsegs, hend, hD⟩
      | plain src =>
          dsimp only at h
          cases v with
          | false =>
              obtain ⟨hend, hD⟩ := finish_inv h
              exact ⟨P, _, _, io₁, rfl, rfl, hsize, rfl, hend, hD⟩
          | true =>
              rw [if_pos rfl] at h
              rcases hcheck : checkBase src P io₁ with ⟨e | u, io₂⟩
              · rw [Prog.bind_of_error hcheck] at h
                simp at h
              · rw [Prog.bind_of_ok hcheck] at h
                obtain ⟨hend, hD⟩ := finish_inv h
                exact ⟨P, _, _, io₁, rfl, rfl, hsize, rfl, hend, hD⟩

/-- **The readers that `create` returns**, over a plain base or over a reader it returned. -/
inductive Built (z : Zstd) : DeltaByteSource → Prop
  | plain {delta src : ByteSource} {v : Bool} {io io' : Io} {D : DeltaByteSource} :
      create z delta (some (.plain src)) v io = (.ok D, io') → Built z D
  | delta {bd : DeltaByteSource} {delta : ByteSource} {v : Bool} {io io' : Io}
      {D : DeltaByteSource} : Built z bd →
      create z delta (some (.delta bd)) v io = (.ok D, io') → Built z D

theorem parseDelta_inv {z : Zstd} {delta : ByteSource} {io io₁ : Io} {P : Parsed}
    (h : parseDelta z delta io = (.ok P, io₁)) : P.Checked := by
  have hpost := parseDelta_checked z delta io trivial
  rw [h] at hpost
  exact hpost

/-- The files of such a reader were parsed. -/
theorem Built.parsed {z : Zstd} {D : DeltaByteSource} (h : Built z D) :
    ∀ A ∈ D.addSources, ∃ P : Parsed, P.Checked ∧ A = P.add := by
  induction h with
  | plain hcreate =>
      obtain ⟨P, b, segs, io₁, hb, hparse, _, _, _, rfl⟩ := create_inv hcreate
      obtain rfl := Option.some_inj.1 hb
      intro A hA
      exact ⟨P, parseDelta_inv hparse, List.mem_singleton.1 hA⟩
  | delta _ hcreate ih =>
      obtain ⟨P, b, segs, io₁, hb, hparse, _, _, _, rfl⟩ := create_inv hcreate
      obtain rfl := Option.some_inj.1 hb
      intro A hA
      rcases List.mem_append.1 hA with hA | hA
      · exact ih A hA
      · exact ⟨P, parseDelta_inv hparse, List.mem_singleton.1 hA⟩

theorem Built.keysApart {z : Zstd} {D : DeltaByteSource} (h : Built z D)
    (hn : D.addSources.length ≤ 2 ^ 24) : KeysApart (D.addSources[·]?) := by
  refine keysApart_list hn ?_
  intro A hA
  obtain ⟨P, hP, rfl⟩ := h.parsed A hA
  exact hP.blocks_lt

/-! ### Reads of a map -/

namespace DeltaByteSource

variable {z : Zstd} {D : DeltaByteSource}

/-- The same map over another base, its literals in other files. -/
def readingFrom (D : DeltaByteSource) (base : ByteSource) (files : AddSource → ByteSource) :
    DeltaByteSource :=
  { D with
    baseSrc := base
    addSources := D.addSources.map fun A => { A with file := files A } }

/-- The part of a segment that a read takes is a stuck range of literals. -/
def PartStuck (D : DeltaByteSource) (s : FlatSeg) (skip chunk : ℕ) : Prop :=
  s.kind ≠ KIND_COPY ∧
    ∃ A, D.addSources[s.addSrc]? = some A ∧ A.Stuck chunk (add64 s.srcOff skip)

/-- The part of a segment that a read takes is a part of the base, or literals that are there. -/
def PartThrough (D : DeltaByteSource) (s : FlatSeg) (skip chunk : ℕ) : Prop :=
  s.kind = KIND_COPY ∨
    ∃ A, D.addSources[s.addSrc]? = some A ∧ A.Through chunk (add64 s.srcOff skip)

/-- The loop of a read over these segments comes to a stuck range of literals. -/
def StallsFrom (D : DeltaByteSource) (off want : ℕ) : List FlatSeg → ℕ → ℕ → Prop
  | [], _, _ => False
  | s :: rest, done, pos =>
      let segEnd := add64 s.targetOff s.len
      let chunk := sub64 (min segEnd (add64 off want)) pos
      done < want ∧ s.targetOff ≤ pos ∧ pos < segEnd ∧
        (D.PartStuck s (sub64 pos s.targetOff) chunk ∨
          D.PartThrough s (sub64 pos s.targetOff) chunk ∧
            D.StallsFrom off want rest (add64 done chunk) (add64 pos chunk))

/-- **A read of `n` bytes at `off` comes to a stuck range of literals.** -/
def Stalls (D : DeltaByteSource) (n off : ℕ) : Prop :=
  off < D.targetSize ∧
    D.StallsFrom off (min n (D.targetSize - off)) (D.segs.drop (segAt D.segs off)) 0 off

/-! What the loop does, whatever the files deliver. -/

/-- A range of the base comes, or fails with an error number; the cache is left as it is. -/
theorem readCopyLoop_ends {F : ℕ → Option AddSource} (src : ByteSource) :
    ∀ (fuel n off : ℕ) (out : Bytes), Prog.Triple (CacheFits F) (readCopyLoop src fuel n off out)
      (fun _ s => CacheFits F s) (fun e _ => e ≠ .hang) := by
  intro fuel
  induction fuel with
  | zero => exact fun _ _ _ => Prog.Triple.pure fun _ hs => hs
  | succ fuel ih =>
      intro n off out
      rw [readCopyLoop]
      split
      · exact Prog.Triple.pure fun _ hs => hs
      · refine Prog.Triple.bind (Q := fun _ s => CacheFits F s) (fun s hs => hs) ?_
        rintro (e | _ | ⟨c, bs⟩)
        · exact Prog.Triple.fail fun _ _ => by simp
        · exact Prog.Triple.fail fun _ _ => by simp
        · exact ih _ _ _

theorem readSeg_ends (hF : KeysApart (D.addSources[·]?)) (base : ByteSource)
    (files : AddSource → ByteSource) (s : FlatSeg) (skip chunk : ℕ)
    (h : ¬ D.PartStuck s skip chunk) :
    Prog.Triple (CacheFits (D.addSources[·]?)) ((D.readingFrom base files).readSeg z s skip chunk)
      (fun _ st => CacheFits (D.addSources[·]?) st ∧ D.PartThrough s skip chunk)
      (fun e _ => e ≠ .hang) := by
  rw [readSeg]
  split
  · rename_i hk
    exact (readCopyLoop_ends _ _ _ _ _).conseq (fun _ hs => hs) (fun _ _ hs => ⟨hs, Or.inl hk⟩)
      (fun _ _ he => he)
  · rename_i hk
    cases hA : D.addSources[s.addSrc]? with
    | none =>
        have hnone : (D.readingFrom base files).addSources[s.addSrc]? = none := by
          rw [readingFrom, List.getElem?_map, hA, Option.map_none]
        rw [hnone]
        exact Prog.Triple.fail fun _ _ => by simp
    | some A =>
        have hsome : (D.readingFrom base files).addSources[s.addSrc]?
            = some { A with file := files A } := by
          rw [readingFrom, List.getElem?_map, hA, Option.map_some]
        rw [hsome]
        refine (readAddLoop_ends hF hA (files A) chunk chunk _ [] le_rfl
          fun hstuck => h ⟨hk, A, hA, hstuck⟩).conseq (fun _ hs => hs) ?_ (fun _ _ he => he)
        rintro bs st ⟨hst, _, hthrough⟩
        exact ⟨hst, Or.inr ⟨A, hA, hthrough⟩⟩

theorem preadSegs_ends (hF : KeysApart (D.addSources[·]?)) (base : ByteSource)
    (files : AddSource → ByteSource) (off want : ℕ) :
    ∀ (segs : List FlatSeg) (done pos : ℕ) (out : Bytes), ¬ D.StallsFrom off want segs done pos →
      Prog.Triple (CacheFits (D.addSources[·]?))
        ((D.readingFrom base files).preadSegs z off want segs done pos out)
        (fun _ _ => True) (fun e _ => e ≠ .hang) := by
  intro segs
  induction segs with
  | nil => exact fun _ _ _ _ => Prog.Triple.pure fun _ _ => trivial
  | cons s rest ih =>
      intro done pos out h
      rw [preadSegs]
      split
      · exact Prog.Triple.pure fun _ _ => trivial
      rename_i hdone
      dsimp only
      split
      · exact Prog.Triple.fail fun _ _ => by simp
      rename_i hin
      rw [StallsFrom] at h
      -- this part is not stuck, and what comes after it is not once it is through
      have hpart := fun hp => h ⟨by omega, by omega, by omega, hp⟩
      refine Prog.Triple.bind (readSeg_ends hF base files s _ _ fun hs => hpart (Or.inl hs)) ?_
      rintro bytes st ⟨hst, hthrough⟩
      exact ih _ _ _ (fun hs => hpart (Or.inr ⟨hthrough, hs⟩)) st hst

/-! What it does when nothing fails. -/

/-- A range of a source that returns all it is asked for. -/
theorem readCopyLoop_endless {F : ℕ → Option AddSource} (fuel n off : ℕ) (out : Bytes) :
    Prog.Triple (CacheFits F) (readCopyLoop endlessSource fuel n off out)
      (fun _ s => CacheFits F s) (fun _ _ => False) := by
  cases fuel with
  | zero => exact Prog.Triple.pure fun _ hs => hs
  | succ fuel =>
      rw [readCopyLoop]
      split
      · exact Prog.Triple.pure fun _ hs => hs
      · obtain ⟨n, rfl⟩ : ∃ m, n = m + 1 := ⟨n - 1, by omega⟩
        intro s hs
        have hstep : readBase endlessSource (n + 1) off s
            = (.ok (.ok (0 :: List.replicate n 0)), { s with clock := s.clock + 1 }) := rfl
        rw [Prog.bind_of_ok hstep]
        dsimp only
        rw [List.length_cons, List.length_replicate, Nat.sub_self]
        cases fuel <;> exact hs

/-- The reader with the base, the files and the compressor that never fail. -/
def endless (D : DeltaByteSource) : DeltaByteSource :=
  D.readingFrom endlessSource fun _ => endlessSource

theorem readSeg_endless {s : FlatSeg} {skip chunk : ℕ} (hF : KeysApart (D.addSources[·]?))
    (h : D.PartThrough s skip chunk) :
    Prog.Triple (CacheFits (D.addSources[·]?)) (D.endless.readSeg blankZstd s skip chunk)
      (fun _ st => CacheFits (D.addSources[·]?) st) (fun _ _ => False) := by
  rw [readSeg]
  split
  · exact readCopyLoop_endless _ _ _ _
  · rename_i hk
    rcases h with hk' | ⟨A, hA, hthrough⟩
    · exact absurd hk' hk
    · have hsome : D.endless.addSources[s.addSrc]? = some { A with file := endlessSource } := by
        rw [endless, readingFrom, List.getElem?_map, hA, Option.map_some]
      rw [hsome]
      exact (readAddLoop_through (yields_endless A) hF hA hthrough chunk [] le_rfl).conseq
        (fun _ h => h) (fun _ _ h => h.1) (fun _ _ h => h)

theorem readSeg_hangs {s : FlatSeg} {skip chunk : ℕ} (hF : KeysApart (D.addSources[·]?))
    (h : D.PartStuck s skip chunk) :
    Prog.Triple (CacheFits (D.addSources[·]?)) (D.endless.readSeg blankZstd s skip chunk)
      (fun _ _ => False) (fun e _ => e = .hang) := by
  obtain ⟨hk, A, hA, hstuck⟩ := h
  have hsome : D.endless.addSources[s.addSrc]? = some { A with file := endlessSource } := by
    rw [endless, readingFrom, List.getElem?_map, hA, Option.map_some]
  rw [readSeg, if_neg hk, hsome]
  exact readAddLoop_hangs (yields_endless A) hF hA hstuck (Nat.mod_lt _ (Nat.two_pow_pos 64))
    chunk []

theorem preadSegs_hangs (hF : KeysApart (D.addSources[·]?)) (off want : ℕ) :
    ∀ (segs : List FlatSeg) (done pos : ℕ) (out : Bytes), D.StallsFrom off want segs done pos →
      Prog.Triple (CacheFits (D.addSources[·]?))
        (D.endless.preadSegs blankZstd off want segs done pos out)
        (fun _ _ => False) (fun e _ => e = .hang) := by
  intro segs
  induction segs with
  | nil => exact fun _ _ _ h => h.elim
  | cons s rest ih =>
      rintro done pos out ⟨hdone, hlo, hhi, hpart⟩
      rw [preadSegs, if_neg (by omega)]
      dsimp only
      rw [if_neg (by omega)]
      rcases hpart with hstuck | ⟨hthrough, hrest⟩
      · exact Prog.Triple.bind (readSeg_hangs hF hstuck) fun _ _ hf => hf.elim
      · refine Prog.Triple.bind ((readSeg_endless hF hthrough).conseq (fun _ hs => hs)
          (fun _ _ hs => hs) (fun _ _ hf => hf.elim)) ?_
        exact fun bytes => ih _ _ _ hrest

/-- **A read of a map ends, whatever its base and its files deliver, exactly when it does not come
to a stuck range of literals.** -/
theorem pread_ends_iff (hF : KeysApart (D.addSources[·]?)) (n off : ℕ) :
    (∀ (z : Zstd) (base : ByteSource) (files : AddSource → ByteSource) (s : ReadState),
      CacheFits (D.addSources[·]?) s → ((D.readingFrom base files).pread z n off s).1 ≠ .error .hang) ↔
      ¬ D.Stalls n off := by
  constructor
  · rintro hends ⟨hoff, hstalls⟩
    have hrun := preadSegs_hangs hF off (min n (D.targetSize - off)) _ 0 off [] hstalls
      ⟨0, [], []⟩ (cacheFits_nil _ 0)
    have hne : ¬ (D.endless.targetSize ≤ off ∨ D.endless.segs = []) := by
      rintro (hle | hnil)
      · exact absurd hle (by change ¬ D.targetSize ≤ off; omega)
      · have hsegs : D.segs = [] := hnil
        rw [hsegs, List.drop_nil] at hstalls
        exact hstalls
    refine hends blankZstd endlessSource (fun _ => endlessSource) ⟨0, [], []⟩ (cacheFits_nil _ 0) ?_
    change (D.endless.pread blankZstd n off ⟨0, [], []⟩).1 = _
    rw [pread, if_neg hne]
    rcases hres : D.endless.preadSegs blankZstd off (min n (D.targetSize - off))
      (D.segs.drop (segAt D.segs off)) 0 off [] ⟨0, [], []⟩ with ⟨e | bs, s'⟩
    · rw [hres] at hrun
      obtain rfl : e = .hang := hrun
      exact congrArg Prod.fst hres
    · rw [hres] at hrun
      exact hrun.elim
  · intro hstalls z base files s hs
    rw [pread]
    split
    · simp
    · rename_i hin
      have hoff : off < D.targetSize := by
        have : ¬ (D.targetSize ≤ off ∨ D.segs = []) := hin
        omega
      have hrun := preadSegs_ends (z := z) hF base files off (min n (D.targetSize - off)) _ 0 off []
        (fun h => hstalls ⟨hoff, h⟩) s hs
      intro hres
      rcases hpair : (D.readingFrom base files).preadSegs z off (min n (D.targetSize - off))
        (D.segs.drop (segAt D.segs off)) 0 off [] s with ⟨e | bs, s'⟩
      · rw [hpair] at hrun
        have he : e = .hang := by
          have := (congrArg Prod.fst hpair).symm.trans hres
          simpa using this
        exact hrun he
      · have := (congrArg Prod.fst hpair).symm.trans hres
        simp at this

end DeltaByteSource

/-! ### The reads that end -/

/-- A read of `n` literals ended: with all of them, or with an error number. -/
def Ends (n : ℕ) : Except ReadErr Bytes → Prop
  | .ok bs => bs.length = n
  | .error e => e ≠ .hang

/-- A read of one file's literals ends, whatever the file delivers and the cache holds, exactly when
its walk is not stuck. -/
theorem readAdd_ends_iff (i : ℕ) (A : AddSource) (n : ℕ) {addOff : ℕ} (ho : addOff < 2 ^ 64) :
    (∀ (z : Zstd) (file : ByteSource) (s : ReadState), CacheFits (oneFile i A) s →
      Ends n (readAdd z i { A with file := file } n addOff s).1) ↔ ¬ A.Stuck n addOff := by
  constructor
  · intro hends hstuck
    have hrun := readAddLoop_hangs (yields_endless A) (keysApart_oneFile i A) (oneFile_self i A)
      hstuck ho n [] ⟨0, [], []⟩ (cacheFits_nil _ 0)
    have hend := hends blankZstd endlessSource ⟨0, [], []⟩ (cacheFits_nil _ 0)
    rw [readAdd] at hend
    rcases hres : readAddLoop blankZstd i { A with file := endlessSource } n n addOff []
      ⟨0, [], []⟩ with ⟨e | bs, s'⟩
    · rw [hres] at hrun hend
      exact hend hrun
    · rw [hres] at hrun
      exact hrun.elim
  · intro hstuck z file s hs
    have hrun := readAddLoop_ends (z := z) (keysApart_oneFile i A) (oneFile_self i A) file n n
      addOff [] le_rfl hstuck s hs
    rw [readAdd]
    rcases hres : readAddLoop z i { A with file := file } n n addOff [] s with ⟨e | bs, s'⟩
    · rw [hres] at hrun
      exact hrun
    · rw [hres] at hrun
      obtain ⟨_, hlen, _⟩ := hrun
      rwa [List.length_nil, Nat.zero_add] at hlen

/-- **Which reads end.**  A read of the literals of a file ends, with all of them or with an error
number, whatever the file delivers, the compressor makes of it and the cache holds, exactly when its
walk over the block index is not stuck.  A read of a reader that `create` returned, of no more than
`2 ^ 24` files, ends exactly when it does not come to a stuck range of literals. -/
theorem reads_end_iff (n off : ℕ) :
    (∀ (i : ℕ) (A : AddSource), 0 < A.blockSize → off < 2 ^ 64 →
      ((∀ (z : Zstd) (file : ByteSource) (s : ReadState), CacheFits (oneFile i A) s →
        Ends n (readAdd z i { A with file := file } n off s).1) ↔ ¬ A.Stuck n off)) ∧
    ∀ (z : Zstd) (D : DeltaByteSource), Built z D → D.addSources.length ≤ 2 ^ 24 →
      ((∀ (z : Zstd) (base : ByteSource) (files : AddSource → ByteSource) (s : ReadState),
        CacheFits (D.addSources[·]?) s →
          ((D.readingFrom base files).pread z n off s).1 ≠ .error .hang) ↔ ¬ D.Stalls n off) := by
  refine ⟨fun i A _ ho => readAdd_ends_iff i A n ho, ?_⟩
  intro z D hD hn
  exact DeltaByteSource.pread_ends_iff (hD.keysApart hn) n off

/-! ### A file whose read never ends -/

/-- A file of three literals, in one block of two. -/
def stuckFile : DeltaFile where
  blockSize := 4
  targetSize := 3
  baseSize := 0
  baseHash := 0
  segs := [⟨KIND_ADD, 3, 0⟩]
  blocks := [⟨0, 11, 2⟩]
  region := storedFrame [5, 6]

theorem stuck_encode_lt : (stuckFile.encode storingZstd).length < 2 ^ 63 := by decide +kernel

def stuckDelta : ByteSource :=
  memByteSource (stuckFile.encode storingZstd) (stuck_encode_lt.trans (by decide))

theorem stuckFile_fits : stuckFile.Fits := by
  refine ⟨by decide, by decide, by decide, by decide, by decide, by decide, by decide, ?_, ?_, rfl⟩
  · intro s hs
    obtain rfl := List.mem_singleton.1 hs
    exact ⟨by decide, by decide⟩
  · intro b hb
    obtain rfl := List.mem_singleton.1 hb
    exact ⟨by decide, by decide, by decide⟩

/-- The literals of that file. -/
def stuckAdd : AddSource := (stuckFile.parsed storingZstd stuckDelta).add

/-- Its reader over the empty base. -/
def stuckReader : DeltaByteSource where
  baseSrc := emptySource
  addSources := [stuckAdd]
  segs := [⟨0, 3, 0, 0, KIND_ADD⟩]
  targetSize := 3

theorem stuckFile_create : ∃ io₁, create storingZstd stuckDelta (some (.plain emptySource)) false
    ⟨0, []⟩ = (.ok stuckReader, io₁) := by
  have hdelivers := memByteSource_delivers _ (stuck_encode_lt.trans (by decide : 2 ^ 63 < 2 ^ 64))
  obtain ⟨io₁, hparse⟩ : ∃ io₁, parseDelta storingZstd stuckDelta ⟨0, []⟩
      = (.ok (stuckFile.parsed storingZstd stuckDelta), io₁) :=
    parseDelta_encode storingZstd_roundTrips stuckFile_fits hdelivers stuck_encode_lt ⟨0, []⟩
  refine ⟨io₁, ?_⟩
  rw [create, Prog.bind_of_ok hparse]
  rfl

/-- **A block shorter than the block size stops a read for ever.**  The file parses, its block
decompresses to the length it declares, and `create` accepts it; the read of its three bytes takes
the two of the block and then stays at the end of it. -/
theorem shortBlock_hangs :
    (∃ io₁, create storingZstd stuckDelta (some (.plain emptySource)) false ⟨0, []⟩
      = (.ok stuckReader, io₁)) ∧
    0 < stuckAdd.blockSize ∧
    ¬ Ends 3 (readAdd storingZstd 0 stuckAdd 3 0 ⟨0, [], []⟩).1 ∧
    (stuckReader.pread storingZstd 3 0 ⟨0, [], []⟩).1 = .error .hang := by
  refine ⟨stuckFile_create, by decide, ?_, rfl⟩
  have hres : (readAdd storingZstd 0 stuckAdd 3 0 ⟨0, [], []⟩).1 = .error .hang := rfl
  rw [hres]
  exact fun h => h rfl

/-- A read of the two literals of that block is not stuck, and one of its reader neither. -/
theorem stuckFile_ends :
    (∀ (z : Zstd) (file : ByteSource) (s : ReadState), CacheFits (oneFile 0 stuckAdd) s →
      Ends 2 (readAdd z 0 { stuckAdd with file := file } 2 0 s).1) ∧
    ∀ (z : Zstd) (base : ByteSource) (files : AddSource → ByteSource) (s : ReadState),
      CacheFits (stuckReader.addSources[·]?) s →
        ((stuckReader.readingFrom base files).pread z 2 0 s).1 ≠ .error .hang := by
  have hwalk : ¬ stuckAdd.Stuck 2 0 := by
    intro h
    cases h with
    | here _ hb hend =>
        obtain rfl : (⟨0, 11, 2⟩ : BlockRec) = _ := Option.some_inj.1 hb
        exact absurd hend (by decide)
    | next hb _ hrest =>
        obtain rfl : (⟨0, 11, 2⟩ : BlockRec) = _ := Option.some_inj.1 hb
        exact absurd hrest.pos (by decide)
  obtain ⟨io₁, hcreate⟩ := stuckFile_create
  refine ⟨((reads_end_iff 2 0).1 0 stuckAdd (by decide) (by decide)).2 hwalk,
    ((reads_end_iff 2 0).2 storingZstd stuckReader (.plain hcreate) (by decide)).2 ?_⟩
  rintro ⟨_, _, _, _, ⟨_, A, hA, hstuck⟩ | ⟨_, hrest⟩⟩
  · obtain rfl : stuckAdd = A := Option.some_inj.1 hA
    exact hwalk hstuck
  · exact hrest

end VidyaGodFS
