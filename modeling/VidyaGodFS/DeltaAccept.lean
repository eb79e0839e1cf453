/-
**Which accepted deltas are fully readable.**

`create` checks little of the segment table of a delta: that the lengths, added up on 64 bits, come
to the size of the target, and over the reader of another delta that every range it rewrites is
covered there.  Over a plain base a segment of any kind, an empty one and one outside the base are
taken as they are; literals are never checked against the block index.  This module says which
tables give a map that is in order, in range and readable everywhere.

Over the reader of another delta a COPY is taken for parts of the segments it meets there, and these
decide, whether or not that reader is readable itself.  Over one that is, only the *own* segments of
the delta can go wrong: its ranges of literals, and a COPY whose end wraps around `2 ^ 64`, which is
rewritten as one piece of its full length.

Main definitions:

* `FlatSeg.Fits`, `FlatSeg.NoHole` — segments in range, and segments whose literals all lie in
  their blocks;
* `DeltaByteSource.Delivers`, `DeltaByteSource.Readable`, `DeltaByteSource.Sane` — readers whose
  sources deliver, whose every read returns all its bytes, and the maps an accepted delta is to
  yield;
* `Parsed.pieces` — the ranges of the sources that the entries of a table are taken for;
* `Parsed.ownSegs` — the segments of a map that do not come from the map of the base.

Main results:

* `DeltaByteSource.readable_of_noHole`, `DeltaByteSource.noHole_of_readable` — a flat map is readable
  exactly when none of its literals is missing;
* `Composes.parts` — the segments of a map are its own ones and parts of segments of the base;
* `Composes.eq_pieces` — the segments of an accepted delta are the pieces of its table;
* `create_sane_iff` — **an accepted delta yields a readable flat map exactly when its true lengths
  come to the target and its pieces are in range**;
* `farCopy_accepted` — a table that is accepted and yields no readable map.
-/

import VidyaGodFS.DeltaEnds

set_option relaxedAutoImplicit false
set_option autoImplicit false

namespace VidyaGodFS

/-! ### Segments in range -/

/-- A segment that is not empty and lies inside the base, or inside the literals that its file
declares. -/
def FlatSeg.Fits (src : ByteSource) (adds : List AddSource) (s : FlatSeg) : Prop :=
  0 < s.len ∧
    (s.kind = KIND_COPY ∧ s.srcOff + s.len ≤ src.size ∨
      s.kind = KIND_ADD ∧ ∃ A, adds[s.addSrc]? = some A ∧
        s.srcOff + s.len ≤ (A.blocks.map BlockRec.uncompLen).sum)

/-- The literal at `o` lies in its block. -/
def AddSource.InBlock (A : AddSource) (o : ℕ) : Prop :=
  ∃ b, A.blocks[o / A.blockSize]? = some b ∧ o % A.blockSize < b.uncompLen

/-- All literals of the segment lie in their blocks. -/
def FlatSeg.NoHole (adds : List AddSource) (s : FlatSeg) : Prop :=
  s.kind = KIND_ADD → ∀ A, adds[s.addSrc]? = some A →
    ∀ o, s.srcOff ≤ o → o < s.srcOff + s.len → A.InBlock o

/-- A walk over literals that lie in their blocks finds all of them. -/
theorem AddSource.through_of_inBlock {A : AddSource} :
    ∀ (n o : ℕ), o + n ≤ 2 ^ 64 → (∀ x, o ≤ x → x < o + n → A.InBlock x) → A.Through n o := by
  intro n
  induction n using Nat.strong_induction_on with
  | _ n ih =>
      intro o ho hin
      rcases Nat.eq_zero_or_pos n with rfl | hpos
      · exact .done
      · obtain ⟨b, hb, hlt⟩ := hin o le_rfl (by omega)
        refine .next hb hlt ?_
        rcases Nat.lt_or_ge (b.uncompLen - o % A.blockSize) n with hcut | hge
        · rw [add64_eq (by omega)]
          exact ih _ (by omega) _ (by omega) fun x hx hx' => hin x (by omega) (by omega)
        · rw [Nat.sub_eq_zero_of_le hge]
          exact .done

/-- The blocks of a file come in their declared lengths: the file delivers the bytes of every block,
and they decompress. -/
def AddSource.Sized (z : Zstd) (A : AddSource) : Prop :=
  ∀ b ∈ A.blocks, ∃ file, A.file.Delivers file ∧
    add64 A.regionOff b.compOff + b.compLen ≤ file.length ∧
      (zDecompress z (slice file (add64 A.regionOff b.compOff) b.compLen) b.uncompLen).length
        = b.uncompLen

theorem AddSource.Sized.yields {z : Zstd} {A : AddSource} (h : A.Sized z) : A.Yields z := by
  intro b hb s
  obtain ⟨file, hfile, hin, hlen⟩ := h b hb
  rw [readFrame]
  split
  · rename_i h0
    rw [h0, slice_zero] at hlen
    exact ⟨[], s.clock, rfl, hlen⟩
  · obtain ⟨t', ht'⟩ := readFile_delivers hfile _ _ hin s
    exact ⟨_, t', ht', hlen⟩

/-- A segment of a placed map ends inside it. -/
theorem Placed.end_le {t : ℕ} {segs : List FlatSeg} (h : Placed t segs) {s : FlatSeg}
    (hs : s ∈ segs) : s.targetOff + s.len ≤ t + totalLen segs := by
  induction segs generalizing t with
  | nil => simp at hs
  | cons x segs ih =>
      rw [totalLen_cons]
      obtain ⟨rfl, hrest⟩ := h
      rcases List.mem_cons.1 hs with rfl | hs
      · omega
      · have := ih hrest hs
        omega

/-- In a placed map no two segments cover one offset. -/
theorem Placed.cover_unique {t : ℕ} {segs : List FlatSeg} (h : Placed t segs) {s s' : FlatSeg}
    (hs : s ∈ segs) (hs' : s' ∈ segs) {o : ℕ} (ho : s.targetOff ≤ o ∧ o < s.targetOff + s.len)
    (ho' : s'.targetOff ≤ o ∧ o < s'.targetOff + s'.len) : s = s' := by
  induction segs generalizing t with
  | nil => simp at hs
  | cons x segs ih =>
      -- what follows the first segment starts where it ends
      have hlater : ∀ y ∈ segs, x.targetOff + x.len ≤ y.targetOff := by
        intro y hy
        obtain ⟨i, hi⟩ := List.getElem?_of_mem hy
        have := h.2.getElem? hi
        have := h.1
        omega
      rcases List.mem_cons.1 hs with rfl | hs₁ <;> rcases List.mem_cons.1 hs' with rfl | hs₂
      · rfl
      · have := hlater s' hs₂
        omega
      · have := hlater s hs₁
        omega
      · exact ih h.2 hs₁ hs₂

/-- The literals that a file declares are fewer than `2 ^ 64`. -/
theorem sum_uncompLen_lt {P : Parsed} (h : P.Checked) :
    (P.add.blocks.map BlockRec.uncompLen).sum < 2 ^ 64 := by
  have hsum : ∀ l : List BlockRec, (∀ b ∈ l, b.uncompLen < 2 ^ 32) →
      (l.map BlockRec.uncompLen).sum ≤ l.length * (2 ^ 32 - 1) := by
    intro l
    induction l with
    | nil => simp
    | cons b l ih =>
        intro hl
        have hb := hl b (by simp)
        have hrest := ih fun b' hb' => hl b' (by simp [hb'])
        rw [List.map_cons, List.sum_cons, List.length_cons, Nat.succ_mul]
        omega
  have hlen := h.blocks_lt
  calc (P.add.blocks.map BlockRec.uncompLen).sum
      ≤ P.add.blocks.length * (2 ^ 32 - 1) := hsum _ h.block_fits
    _ ≤ (2 ^ 32 - 1) * (2 ^ 32 - 1) := Nat.mul_le_mul_right _ (by omega)
    _ < 2 ^ 64 := by decide

/-- The source range of a segment in range stays below `2 ^ 64`. -/
theorem FlatSeg.Fits.end_lt {z : Zstd} {D : DeltaByteSource} (hD : Built z D) {s : FlatSeg}
    (hs : s.Fits D.baseSrc D.addSources) : s.srcOff + s.len < 2 ^ 64 := by
  obtain ⟨_, ⟨_, hin⟩ | ⟨_, A, hA, hin⟩⟩ := hs
  · have := D.baseSrc.size_lt
    omega
  · obtain ⟨P, hP, rfl⟩ := hD.parsed A (List.mem_of_getElem? hA)
    have := sum_uncompLen_lt hP
    omega

namespace DeltaByteSource

variable {z : Zstd} {D : DeltaByteSource}

/-- The base delivers its bytes, and the blocks of every file come in their declared lengths. -/
def Delivers (z : Zstd) (D : DeltaByteSource) : Prop :=
  (∃ base, D.baseSrc.Delivers base) ∧ ∀ A ∈ D.addSources, A.Sized z

/-- **Every read inside the target returns all its bytes**, whatever was read before. -/
def Readable (z : Zstd) (D : DeltaByteSource) : Prop :=
  ∀ n off, off < D.targetSize → Prog.Triple (CacheFits (D.addSources[·]?)) (D.pread z n off)
    (fun bs s => CacheFits (D.addSources[·]?) s ∧ bs.length = min n (D.targetSize - off))
    (fun _ _ => False)

/-- **What an accepted delta is to yield**: a map in order and in range which, when its sources
deliver, is readable everywhere. -/
def Sane (z : Zstd) (D : DeltaByteSource) : Prop :=
  D.IsFlat D.baseSrc ∧ (D.Delivers z → D.Readable z)

/-! ### Readable maps -/

/-- A part of a segment without holes comes in full. -/
theorem readSeg_length (hD : Built z D) (hF : KeysApart (D.addSources[·]?)) (hdel : D.Delivers z)
    {s : FlatSeg} (hs : s.Fits D.baseSrc D.addSources) (hhole : s.NoHole D.addSources)
    {skip chunk : ℕ} (hin : skip + chunk ≤ s.len) :
    Prog.Triple (CacheFits (D.addSources[·]?)) (D.readSeg z s skip chunk)
      (fun bs st => CacheFits (D.addSources[·]?) st ∧ bs.length = chunk) (fun _ _ => False) := by
  have hend := hs.end_lt hD
  obtain ⟨⟨base, hbase⟩, hadds⟩ := hdel
  rw [readSeg, add64_eq (by omega)]
  split
  · rename_i hk
    obtain ⟨_, ⟨_, hr⟩ | ⟨hk', _⟩⟩ := hs
    · intro st hst
      have hlen := hbase.size_eq
      obtain ⟨t', ht'⟩ := readCopy_eq hbase chunk (s.srcOff + skip) (by omega) st
      rw [ht']
      exact ⟨hst, length_slice_of_le (by omega)⟩
    · rw [hk] at hk'
      exact absurd hk' (by decide)
  · rename_i hk
    obtain ⟨_, ⟨hk', _⟩ | ⟨hk', A, hA, hr⟩⟩ := hs
    · exact absurd hk' hk
    · rw [hA]
      have hthrough : A.Through chunk (s.srcOff + skip) :=
        AddSource.through_of_inBlock _ _ (by omega)
          fun x hx hx' => hhole hk' A hA x (by omega) (by omega)
      have hy := (hadds A (List.mem_of_getElem? hA)).yields
      refine (readAddLoop_through hy hF hA hthrough chunk [] le_rfl).conseq
        (fun _ h => h) ?_ (fun _ _ h => h)
      rintro bs st ⟨hst, hlen⟩
      exact ⟨hst, by rw [hlen, List.length_nil, Nat.zero_add]⟩

/-- The loop of a read over segments without holes comes to all the bytes that are wanted. -/
theorem preadSegs_length (hD : Built z D) (hF : KeysApart (D.addSources[·]?))
    (hdel : D.Delivers z) {off want : ℕ} (hoff : off + want < 2 ^ 64) :
    ∀ (segs : List FlatSeg) (t done : ℕ) (out : Bytes),
      (∀ s ∈ segs, s.Fits D.baseSrc D.addSources ∧ s.NoHole D.addSources) → Placed t segs →
      t + totalLen segs < 2 ^ 64 → t ≤ off + done → done ≤ want →
      off + want ≤ t + totalLen segs → (∀ s ∈ segs.head?, off + done < t + s.len) →
      Prog.Triple (CacheFits (D.addSources[·]?))
        (D.preadSegs z off want segs done (off + done) out)
        (fun bs st => CacheFits (D.addSources[·]?) st ∧ bs.length = out.length + (want - done))
        (fun _ _ => False) := by
  intro segs
  induction segs with
  | nil =>
      intro t done out _ _ _ ht hdone hend _
      rw [totalLen_nil] at hend
      exact Prog.Triple.pure fun st hst => ⟨hst, by omega⟩
  | cons s segs ih =>
      intro t done out hr hpl hlt ht hdone hend hhead
      obtain ⟨rfl, hpl'⟩ := hpl
      rw [totalLen_cons] at hlt hend
      have hin := hhead s rfl
      obtain ⟨hs, hhole⟩ := hr s (by simp)
      rw [preadSegs]
      split
      · exact Prog.Triple.pure fun st hst => ⟨hst, by omega⟩
      rename_i hfull
      dsimp only
      rw [add64_eq (by omega), if_neg (by omega), add64_eq hoff,
        sub64_eq (by omega) (by omega), sub64_eq (by omega) (by omega)]
      generalize hchunk : min (s.targetOff + s.len) (off + want) - (off + done) = chunk
      refine Prog.Triple.bind ((readSeg_length hD hF hdel hs hhole (by omega)).conseq
        (fun _ h => h) (fun _ _ h => h) (fun _ _ h => h)) ?_
      rintro bytes st ⟨hst, hlen⟩
      rw [add64_eq (by omega), add64_eq (by omega), Nat.add_assoc]
      by_cases hcase : off + want ≤ s.targetOff + s.len
      · -- the range ends in this segment
        rw [preadSegs_full (by omega)]
        exact ⟨hst, by rw [List.length_append, hlen]; omega⟩
      · -- the range goes on in the next segment
        refine (ih (s.targetOff + s.len) (done + chunk) _ (fun s' hs' => hr s' (by simp [hs']))
          hpl' (by omega) (by omega) (by omega) (by omega) ?_).conseq (fun _ h => h) ?_
          (fun _ _ h => h) st hst
        · intro s' hs'
          have hpos := (hr s' (List.mem_cons_of_mem _ (List.mem_of_mem_head? hs'))).1.1
          omega
        · rintro bs st' ⟨hst', hbs⟩
          refine ⟨hst', ?_⟩
          rw [hbs, List.length_append, hlen]
          omega

/-- A flat map whose segments have no holes is readable. -/
theorem readable_of_noHole (hD : Built z D) (hF : KeysApart (D.addSources[·]?))
    (hflat : D.IsFlat D.baseSrc) (hsz : D.targetSize < 2 ^ 64) (hdel : D.Delivers z)
    (hhole : ∀ s ∈ D.segs, s.NoHole D.addSources) : D.Readable z := by
  intro n off hoff
  have htot := hflat.covers
  obtain ⟨s, rest, hdrop, hlo, hhi⟩ := segAt_spec hflat.placed (o := off) (by omega)
  have hsplit : D.segs = D.segs.take (segAt D.segs off) ++ s :: rest := by
    rw [← hdrop, List.take_append_drop]
  have hmem : ∀ x ∈ s :: rest, x ∈ D.segs := by
    intro x hx
    rw [hsplit]
    exact List.mem_append_right _ hx
  have hpl := hflat.placed
  rw [hsplit] at hpl htot
  have hpl' := hpl.append
  rw [Nat.zero_add] at hpl'
  have hstart : s.targetOff = totalLen (D.segs.take (segAt D.segs off)) := hpl'.1
  rw [totalLen_append] at htot
  have hne : ¬ (D.targetSize ≤ off ∨ D.segs = []) := by
    rintro (hle | hnil)
    · omega
    · rw [hnil] at hsplit
      simp at hsplit
  rw [pread, if_neg hne, hdrop]
  have hend : off + min n (D.targetSize - off) < 2 ^ 64 := by omega
  have hloop := preadSegs_length hD hF hdel hend (s :: rest) s.targetOff 0 []
    (fun x hx => ⟨hflat.inRange x (hmem x hx), hhole x (hmem x hx)⟩) (hstart ▸ hpl') (by omega)
    (by omega) (by omega) (by omega)
    (by
      intro s' hs'
      obtain rfl : s = s' := by simpa using hs'
      omega)
  refine hloop.conseq (fun _ h => h) ?_ (fun _ _ h => h)
  rintro bs st ⟨hst, hlen⟩
  exact ⟨hst, by rw [hlen, List.length_nil, Nat.zero_add, Nat.sub_zero]⟩

/-- A literal that is not in its block is not read. -/
theorem readAdd_hole {F : ℕ → Option AddSource} {i : ℕ} {A : AddSource} (hF : KeysApart F)
    (hA : F i = some A) {o : ℕ} (h : ¬ A.InBlock o) :
    Prog.Triple (CacheFits F) (readAdd z i A 1 o) (fun _ _ => False) (fun _ _ => True) := by
  rw [readAdd, readAddLoop, if_neg (by decide)]
  dsimp only
  split
  · exact Prog.Triple.fail fun _ _ => trivial
  rename_i hblk
  obtain ⟨b, hb⟩ : ∃ b, A.blocks[o / A.blockSize]? = some b :=
    ⟨_, List.getElem?_eq_getElem (by omega)⟩
  refine Prog.Triple.bind ((getAddBlock_fits hF hA hb A.file).conseq (fun _ h => h)
    (fun _ _ h => h) (fun _ _ h => h.elim)) ?_
  rintro (_ | raw)
  · exact Prog.Triple.fail fun _ _ => trivial
  dsimp only
  split
  · exact Prog.Triple.fail fun _ _ => trivial
  rintro s ⟨hs, hraw⟩
  have hlen := hraw raw rfl
  -- nothing is left of the block, and the one turn is used up
  have hend : ¬ o % A.blockSize < b.uncompLen := fun hlt => h ⟨b, hb, hlt⟩
  have htake : min 1 (raw.length - o % A.blockSize) = 0 := by omega
  rw [htake, Nat.sub_zero, readAddLoop, if_neg (by decide)]
  trivial

/-- In a readable map no literal is missing. -/
theorem noHole_of_readable (hF : KeysApart (D.addSources[·]?)) (hflat : D.IsFlat D.baseSrc)
    (hend : ∀ s ∈ D.segs, s.srcOff + s.len < 2 ^ 64) (hsz : D.targetSize < 2 ^ 64)
    (hread : D.Readable z) : ∀ s ∈ D.segs, s.NoHole D.addSources := by
  intro s hs hk A hA o hlo hhi
  by_contra hhole
  -- the read of the one byte of the target that this literal is
  have htot := hflat.covers
  have hsrc := hend s hs
  obtain ⟨i, hi⟩ := List.getElem?_of_mem hs
  have hplace := hflat.placed.getElem? hi
  have hle : totalLen (D.segs.take (i + 1)) ≤ totalLen D.segs := by
    have hmono := totalLen_take_mono D.segs (List.getElem?_eq_some_iff.1 hi).1
    rwa [List.take_length] at hmono
  rw [List.take_add_one, hi, totalLen_append] at hle
  simp only [Option.toList_some, totalLen_cons, totalLen_nil, Nat.add_zero] at hle
  rw [Nat.zero_add] at hplace
  generalize hpos : s.targetOff + (o - s.srcOff) = pos
  obtain ⟨s', rest, hdrop, hlo', hhi'⟩ := segAt_spec hflat.placed (o := pos) (by omega)
  have hs' : s' ∈ D.segs := List.mem_of_mem_drop (hdrop ▸ List.mem_cons_self)
  obtain rfl : s = s' := hflat.placed.cover_unique hs hs' ⟨by omega, by omega⟩ ⟨hlo', hhi'⟩
  have hne : ¬ (D.targetSize ≤ pos ∨ D.segs = []) := by
    rintro (hle | hnil)
    · omega
    · rw [hnil] at hs
      simp at hs
  have hrun := hread 1 pos (by omega)
  rw [pread, if_neg hne, hdrop, preadSegs, if_neg (by omega)] at hrun
  dsimp only at hrun
  have hchunk : sub64 (min (add64 s.targetOff s.len) (add64 pos (min 1 (D.targetSize - pos)))) pos
      = 1 := by
    rw [add64_eq (by omega), add64_eq (by omega), sub64_eq (by omega) (by omega)]
    omega
  have hskip : add64 s.srcOff (sub64 pos s.targetOff) = o := by
    rw [sub64_eq (by omega) (by omega), add64_eq (by omega)]
    omega
  have hkind : ¬ s.kind = KIND_COPY := by
    rw [hk]
    decide
  rw [add64_eq (by omega), if_neg (by omega), ← add64_eq (a := s.targetOff) (by omega), hchunk,
    readSeg, if_neg hkind, hA, hskip] at hrun
  dsimp only at hrun
  have hstart := cacheFits_nil (D.addSources[·]?) 0
  have hnot := readAdd_hole (z := z) hF hA hhole ⟨0, [], []⟩ hstart
  have hrun' := hrun ⟨0, [], []⟩ hstart
  rcases hres : readAdd z s.addSrc A 1 o ⟨0, [], []⟩ with ⟨e | bs, st⟩
  · rw [Prog.bind_of_error hres] at hrun'
    exact hrun'
  · rw [hres] at hnot
    exact hnot

end DeltaByteSource

/-! ### The segments of a composed map -/

/-- A part of a segment: the same source, a range inside its range. -/
structure FlatSeg.PartOf (p s : FlatSeg) : Prop where
  kind_eq : p.kind = s.kind
  addSrc_eq : p.addSrc = s.addSrc
  len_pos : 0 < p.len
  le_srcOff : s.srcOff ≤ p.srcOff
  end_le : p.srcOff + p.len ≤ s.srcOff + s.len

theorem FlatSeg.PartOf.fits {p s : FlatSeg} {src : ByteSource} {adds : List AddSource}
    (h : p.PartOf s) (hs : s.Fits src adds) : p.Fits src adds := by
  have hend := h.end_le
  obtain ⟨_, ⟨hk, hin⟩ | ⟨hk, A, hA, hin⟩⟩ := hs
  · exact ⟨h.len_pos, Or.inl ⟨h.kind_eq.trans hk, hend.trans hin⟩⟩
  · exact ⟨h.len_pos, Or.inr ⟨h.kind_eq.trans hk, A, h.addSrc_eq ▸ hA, hend.trans hin⟩⟩

theorem FlatSeg.PartOf.noHole {p s : FlatSeg} {adds : List AddSource} (h : p.PartOf s)
    (hs : s.NoHole adds) : p.NoHole adds := by
  intro hk A hA o hlo hhi
  have hle := h.le_srcOff
  have hend := h.end_le
  exact hs (h.kind_eq ▸ hk) A (h.addSrc_eq ▸ hA) o (by omega) (by omega)

/-- One more file leaves the segments of the files before it in range. -/
theorem FlatSeg.Fits.append {s : FlatSeg} {src : ByteSource} {adds : List AddSource}
    (h : s.Fits src adds) (A' : AddSource) : s.Fits src (adds ++ [A']) := by
  obtain ⟨hpos, hcopy | ⟨hk, A, hA, hin⟩⟩ := h
  · exact ⟨hpos, Or.inl hcopy⟩
  · have hlt := (List.getElem?_eq_some_iff.1 hA).1
    exact ⟨hpos, Or.inr ⟨hk, A, by rw [List.getElem?_append_left hlt, hA], hin⟩⟩

theorem FlatSeg.NoHole.append {s : FlatSeg} {src : ByteSource} {adds : List AddSource}
    (h : s.NoHole adds) (hs : s.Fits src adds) (A' : AddSource) : s.NoHole (adds ++ [A']) := by
  intro hk A hA
  obtain ⟨_, ⟨hk', _⟩ | ⟨_, B, hB, _⟩⟩ := hs
  · rw [hk] at hk'
    exact absurd hk' (by decide)
  · rw [List.getElem?_append_left (List.getElem?_eq_some_iff.1 hB).1] at hA
    exact h hk A hA

/-- The one piece that a COPY whose end wraps around is rewritten as. -/
def wrappedPiece (B : List FlatSeg) (s : RawSeg) : List FlatSeg :=
  match B.drop (segAt B s.srcOff) with
  | [] => []
  | bs :: _ => [⟨0, s.len, add64 bs.srcOff (sub64 s.srcOff bs.targetOff), bs.addSrc, bs.kind⟩]

/-- **The own segments of a delta** over a base: over a plain base all of them; over the reader of
another delta its literals, and its COPYs whose end wraps around. -/
def Parsed.ownSegs (P : Parsed) : Source → List FlatSeg
  | .plain _ => P.segs.map fun s => ⟨0, s.len, s.srcOff, 0, s.kind⟩
  | .delta bd => P.segs.flatMap fun s =>
      if s.kind = KIND_ADD then
        [⟨0, s.len, s.srcOff, bd.addSources.length % 2 ^ 32, KIND_ADD⟩]
      else if s.srcOff + s.len < 2 ^ 64 then [] else wrappedPiece bd.segs s

/-- A COPY that does not wrap is cut into parts of segments of the base. -/
theorem composeCopy_parts :
    ∀ (B : List FlatSeg) (t m rem : ℕ) (out : List FlatSeg), Placed t B → t + totalLen B < 2 ^ 64 →
      (∀ s ∈ B, s.srcOff + s.len < 2 ^ 64) → m + rem < 2 ^ 64 → composeCopy B m rem = .ok out →
      totalLen out = rem ∧ ∀ p ∈ out, ∃ s ∈ B, p.PartOf s := by
  intro B
  induction B with
  | nil =>
      intro t m rem out _ _ _ _ h
      rw [composeCopy] at h
      split at h
      · simp at h
      · obtain rfl := Except.ok.inj h
        exact ⟨by rw [totalLen_nil]; omega, by simp⟩
  | cons s B ih =>
      intro t m rem out hpl hlt hsrc hwrap h
      obtain ⟨rfl, hpl'⟩ := hpl
      rw [totalLen_cons] at hlt
      have hs := hsrc s (by simp)
      rw [composeCopy] at h
      split at h
      · obtain rfl := Except.ok.inj h
        exact ⟨by rw [totalLen_nil]; omega, by simp⟩
      rename_i hrem
      dsimp only at h
      rw [add64_eq (by omega)] at h
      split at h
      · simp at h
      rename_i hin
      rw [add64_eq hwrap, sub64_eq (a := min _ _) (by omega) (by omega)] at h
      generalize htake : min (s.targetOff + s.len) (m + rem) - m = take at h
      rw [add64_eq (by omega), sub64_eq (a := rem) (by omega) (by omega),
        sub64_eq (a := m) (by omega) (by omega), add64_eq (by omega)] at h
      split at h
      · simp at h
      rename_i rest hrest
      obtain rfl := Except.ok.inj h
      obtain ⟨htot, hparts⟩ := ih _ _ _ _ hpl' (by omega)
        (fun s' hs' => hsrc s' (by simp [hs'])) (by omega) hrest
      refine ⟨by rw [totalLen_cons, htot]; dsimp only; omega, ?_⟩
      intro p hp
      rcases List.mem_cons.1 hp with rfl | hp
      · exact ⟨s, by simp, rfl, rfl, by dsimp only; omega, by dsimp only; omega,
          by dsimp only; omega⟩
      · obtain ⟨s', hs', hpart⟩ := hparts p hp
        exact ⟨s', by simp [hs'], hpart⟩

/-- A COPY that wraps is rewritten as one piece. -/
theorem composeCopy_wraps {bs : FlatSeg} {B out : List FlatSeg} {m rem : ℕ}
    (hend : bs.targetOff + bs.len < 2 ^ 64) (hm : m < 2 ^ 64) (hrem : rem < 2 ^ 64)
    (hwrap : 2 ^ 64 ≤ m + rem) (h : composeCopy (bs :: B) m rem = .ok out) :
    out = [⟨0, rem, add64 bs.srcOff (sub64 m bs.targetOff), bs.addSrc, bs.kind⟩] := by
  rw [composeCopy, if_neg (by omega)] at h
  dsimp only at h
  rw [add64_eq hend] at h
  split at h
  · simp at h
  rename_i hin
  have hadd : add64 m rem = m + rem - 2 ^ 64 := by
    unfold add64
    omega
  have htake : sub64 (min (bs.targetOff + bs.len) (add64 m rem)) m = rem := by
    rw [hadd, Nat.min_eq_right (by omega)]
    unfold sub64
    omega
  have hrest : composeCopy B (add64 m rem) (sub64 rem rem) = .ok [] := by
    rw [sub64_eq le_rfl hrem, Nat.sub_self]
    cases B <;> simp [composeCopy]
  rw [htake, hrest] at h
  exact (Except.ok.inj h).symm

/-- What the fields of a parsed table hold: 64-bit numbers. -/
structure Parsed.Bounded (P : Parsed) : Prop where
  seg_fits : ∀ s ∈ P.segs, s.Fits
  targetSize_lt : P.targetSize < 2 ^ 64

theorem parseDelta_bounded (z : Zstd) (src : ByteSource) :
    Prog.Triple (fun _ => True) (parseDelta z src) (fun P _ => P.Bounded) fun _ _ => True := by
  refine Prog.Triple.bind (Prog.Triple.triv _) ?_
  intro hdr
  cases hdr with
  | none => exact Prog.Triple.fail fun _ _ => trivial
  | some hdr =>
      dsimp only
      split
      · exact Prog.Triple.fail fun _ _ => trivial
      split
      · exact Prog.Triple.fail fun _ _ => trivial
      split
      · exact Prog.Triple.fail fun _ _ => trivial
      refine Prog.Triple.bind (Prog.Triple.triv _) ?_
      rintro ⟨rawSegs, clen⟩
      dsimp only
      split
      · exact Prog.Triple.fail fun _ _ => trivial
      refine Prog.Triple.bind (Prog.Triple.triv _) ?_
      rintro ⟨rawBlks, clen'⟩
      refine Prog.Triple.pure fun _ _ => ⟨?_, leNat_slice_lt _ _ (by norm_num)⟩
      intro s hs
      obtain ⟨r, rfl⟩ := mem_cutRecords hs
      exact ⟨leNat_slice_lt _ _ (by norm_num), leNat_slice_lt _ _ (by norm_num)⟩

/-- **What composing makes of a table** over a flat map: its own segments and parts of segments of
the base, of the true total length. -/
theorem composeSegs_parts {bd : DeltaByteSource} (hpl : Placed 0 bd.segs)
    (hlt : totalLen bd.segs < 2 ^ 64) (hsrc : ∀ s ∈ bd.segs, s.srcOff + s.len < 2 ^ 64)
    (P : Parsed) :
    ∀ (segs : List RawSeg) (out : List FlatSeg), (∀ s ∈ segs, s.Fits) →
      composeSegs bd.segs (bd.addSources.length % 2 ^ 32) segs = .ok out →
      totalLen out = (segs.map RawSeg.len).sum ∧
        (∀ p ∈ out, p ∈ { P with segs := segs }.ownSegs (.delta bd) ∨
          ∃ s ∈ bd.segs, p.PartOf s) ∧
        ∀ p ∈ { P with segs := segs }.ownSegs (.delta bd), p ∈ out := by
  intro segs
  induction segs with
  | nil =>
      intro out _ h
      obtain rfl := Except.ok.inj h
      exact ⟨rfl, by simp, by simp [Parsed.ownSegs]⟩
  | cons s segs ih =>
      intro out hfits h
      rw [composeSegs] at h
      split at h
      · simp at h
      rename_i here hhere
      split at h
      · simp at h
      rename_i rest hrest
      obtain rfl := Except.ok.inj h
      obtain ⟨htot, hout, hown⟩ := ih rest (fun s' hs' => hfits s' (by simp [hs'])) hrest
      -- the pieces of this segment
      obtain ⟨own, howns, hlen, hpieces, hmem⟩ : ∃ own : List FlatSeg,
          { P with segs := s :: segs }.ownSegs (.delta bd)
            = own ++ { P with segs := segs }.ownSegs (.delta bd) ∧
          totalLen here = s.len ∧ (∀ p ∈ here, p ∈ own ∨ ∃ s ∈ bd.segs, p.PartOf s) ∧
          ∀ p ∈ own, p ∈ here := by
        refine ⟨_, List.flatMap_cons, ?_⟩
        obtain ⟨hl, ho⟩ := hfits s (by simp)
        by_cases hk : s.kind = KIND_ADD
        · rw [if_pos hk] at hhere ⊢
          obtain rfl := Except.ok.inj hhere
          exact ⟨by simp, fun p hp => Or.inl hp, fun p hp => hp⟩
        · rw [if_neg hk] at hhere ⊢
          have hsplit := List.take_append_drop (segAt bd.segs s.srcOff) bd.segs
          by_cases hwrap : s.srcOff + s.len < 2 ^ 64
          · rw [if_pos hwrap]
            have hpl' := (hsplit.symm ▸ hpl).append
            have hlt' := congrArg totalLen hsplit
            rw [totalLen_append] at hlt'
            obtain ⟨htot', hparts⟩ := composeCopy_parts _ _ _ _ _ hpl' (by omega)
              (fun s' hs' => hsrc s' (List.mem_of_mem_drop hs')) hwrap hhere
            refine ⟨htot', ?_, by simp⟩
            intro p hp
            obtain ⟨s', hs', hpart⟩ := hparts p hp
            exact Or.inr ⟨s', List.mem_of_mem_drop hs', hpart⟩
          · rw [if_neg hwrap, wrappedPiece]
            cases hdrop : bd.segs.drop (segAt bd.segs s.srcOff) with
            | nil =>
                rw [hdrop, composeCopy, if_pos (by omega)] at hhere
                simp at hhere
            | cons bs B =>
                rw [hdrop] at hhere
                have hbs : bs ∈ bd.segs := List.mem_of_mem_drop (hdrop ▸ List.mem_cons_self)
                obtain ⟨i, hi⟩ := List.getElem?_of_mem hbs
                have hplace := hpl.getElem? hi
                have hle := totalLen_take_mono bd.segs (List.getElem?_eq_some_iff.1 hi).1
                rw [List.take_length, List.take_add_one, hi, totalLen_append] at hle
                simp only [Option.toList_some, totalLen_cons, totalLen_nil, Nat.add_zero] at hle
                obtain rfl := composeCopy_wraps (by omega) ho hl (by omega) hhere
                exact ⟨by simp, fun p hp => Or.inl hp, fun p hp => hp⟩
      refine ⟨by rw [totalLen_append, hlen, htot, List.map_cons, List.sum_cons], ?_, ?_⟩
      · intro p hp
        rw [howns]
        rcases List.mem_append.1 hp with hp | hp
        · exact (hpieces p hp).imp_left fun h => List.mem_append_left _ h
        · exact (hout p hp).imp_left fun h => List.mem_append_right _ h
      · intro p hp
        rw [howns] at hp
        rcases List.mem_append.1 hp with hp | hp
        · exact List.mem_append_left _ (hmem p hp)
        · exact List.mem_append_right _ (hown p hp)

/-! ### Accepted deltas -/

/-- A plain base, or a reader that `create` returned and that is what an accepted delta is to
yield. -/
def Source.Sane (z : Zstd) : Source → Prop
  | .plain _ => True
  | .delta bd => Built z bd ∧ bd.Sane z

/-- The sources of a delta over the base `b` deliver. -/
def Parsed.Delivers (z : Zstd) (P : Parsed) (b : Source) : Prop :=
  (∃ base, b.ultimate.Delivers base) ∧ ∀ A ∈ b.adds ++ [P.add], A.Sized z

/-- **The table is right for the base**: its lengths truly add up to the size of the target, and its
own segments are in range and, when the sources deliver, have no holes. -/
def Parsed.Applies (z : Zstd) (P : Parsed) (b : Source) : Prop :=
  (P.segs.map RawSeg.len).sum = P.targetSize ∧
    ∀ s ∈ P.ownSegs b, s.Fits b.ultimate (b.adds ++ [P.add]) ∧
      (P.Delivers z b → s.NoHole (b.adds ++ [P.add]))

theorem parseDelta_fields {z : Zstd} {delta : ByteSource} {io io₁ : Io} {P : Parsed}
    (h : parseDelta z delta io = (.ok P, io₁)) : P.Bounded := by
  have hpost := parseDelta_bounded z delta io trivial
  rw [h] at hpost
  exact hpost

theorem Built.targetSize_lt {z : Zstd} {D : DeltaByteSource} (h : Built z D) :
    D.targetSize < 2 ^ 64 := by
  cases h with
  | plain hcreate =>
      obtain ⟨P, b, segs, io₁, _, hparse, _, _, _, rfl⟩ := create_inv hcreate
      exact (parseDelta_fields hparse).targetSize_lt
  | delta _ hcreate =>
      obtain ⟨P, b, segs, io₁, _, hparse, _, _, _, rfl⟩ := create_inv hcreate
      exact (parseDelta_fields hparse).targetSize_lt

/-- The map of a base. -/
def Source.segs : Source → List FlatSeg
  | .plain _ => []
  | .delta bd => bd.segs

/-- **The segments of an accepted delta** are its own ones and parts of segments of the base. -/
theorem Composes.parts {z : Zstd} {b : Source} {P : Parsed} {segs : List FlatSeg}
    (h : Composes b P segs) (hb : b.Sane z) (hP : P.Bounded) :
    totalLen segs = (P.segs.map RawSeg.len).sum ∧
      (∀ p ∈ segs, p ∈ P.ownSegs b ∨ ∃ s ∈ b.segs, p.PartOf s) ∧ ∀ p ∈ P.ownSegs b, p ∈ segs := by
  cases b with
  | plain src =>
      have heq : segs = P.segs.map fun s => ⟨0, s.len, s.srcOff, 0, s.kind⟩ := h
      subst heq
      exact ⟨totalLen_flat P.segs, fun p hp => Or.inl hp, fun p hp => hp⟩
  | delta bd =>
      obtain ⟨hbuilt, hflat, _⟩ := hb
      have hlt := hbuilt.targetSize_lt
      exact composeSegs_parts hflat.placed (by rw [hflat.covers]; exact hlt)
        (fun s hs => FlatSeg.Fits.end_lt hbuilt (hflat.inRange s hs)) P P.segs segs hP.seg_fits h

/-- The segments of the base are in range, and have no holes when its sources deliver. -/
theorem Source.Sane.segs_fit {z : Zstd} {b : Source} (h : b.Sane z) (hn : b.adds.length ≤ 2 ^ 24) :
    ∀ s ∈ b.segs, s.Fits b.ultimate b.adds ∧
      ((∃ base, b.ultimate.Delivers base) → (∀ A ∈ b.adds, A.Sized z) → s.NoHole b.adds) := by
  cases b with
  | plain src => simp [Source.segs]
  | delta bd =>
      obtain ⟨hbuilt, hflat, hread⟩ := h
      intro s hs
      refine ⟨hflat.inRange s hs, fun hbase hadds => ?_⟩
      exact DeltaByteSource.noHole_of_readable (hbuilt.keysApart hn) hflat
        (fun s' hs' => FlatSeg.Fits.end_lt hbuilt (hflat.inRange s' hs')) hbuilt.targetSize_lt
        (hread ⟨hbase, hadds⟩) s hs

theorem mem_placeSegs_of_mem {t : ℕ} {segs : List FlatSeg} {s : FlatSeg} (h : s ∈ segs) :
    ∃ s' ∈ (placeSegs t segs).1, s' = { s with targetOff := s'.targetOff } := by
  induction segs generalizing t with
  | nil => simp at h
  | cons x segs ih =>
      rw [placeSegs]
      rcases List.mem_cons.1 h with rfl | h
      · exact ⟨_, List.mem_cons_self, rfl⟩
      · obtain ⟨s', hs', heq⟩ := ih (t := add64 t x.len) h
        exact ⟨s', List.mem_cons_of_mem _ hs', heq⟩

/-! ### The pieces of a table -/

/-- A plain base, or a reader that `create` returned, whatever its table said. -/
def Source.Accepted (z : Zstd) : Source → Prop
  | .plain _ => True
  | .delta bd => Built z bd

theorem Source.Sane.accepted {z : Zstd} {b : Source} (h : b.Sane z) : b.Accepted z := by
  cases b with
  | plain src => exact trivial
  | delta bd => exact h.1

/-- The parts of segments one after the other that `len` bytes from the offset `m` on are. -/
def cutSegs : List FlatSeg → ℕ → ℕ → List FlatSeg
  | [], _, _ => []
  | s :: B, m, len =>
      if len = 0 then [] else
        let part := min (s.targetOff + s.len - m) len
        ⟨0, part, add64 s.srcOff (m - s.targetOff), s.addSrc, s.kind⟩
          :: cutSegs B (m + part) (len - part)

/-- **What an entry of a table is taken for** over a base: over a plain one itself; over a reader
itself if it is a literal, and otherwise the parts of the reader's segments that its range meets,
from the one that covers its start on.  A COPY whose end wraps around is taken for one range. -/
def RawSeg.pieces (s : RawSeg) : Source → List FlatSeg
  | .plain _ => [⟨0, s.len, s.srcOff, 0, s.kind⟩]
  | .delta bd =>
      if s.kind = KIND_ADD then [⟨0, s.len, s.srcOff, bd.addSources.length % 2 ^ 32, KIND_ADD⟩]
      else if s.srcOff + s.len < 2 ^ 64 then
        cutSegs (bd.segs.drop (segAt bd.segs s.srcOff)) s.srcOff s.len
      else wrappedPiece bd.segs s

def Parsed.pieces (P : Parsed) (b : Source) : List FlatSeg := P.segs.flatMap fun s => s.pieces b

/-- **The pieces are right**: the lengths of the table truly add up to the size of the target, and
every piece its entries are taken for is in range and, when the sources deliver, has no holes. -/
def Parsed.PiecesFit (z : Zstd) (P : Parsed) (b : Source) : Prop :=
  (P.segs.map RawSeg.len).sum = P.targetSize ∧
    ∀ s ∈ P.pieces b, s.Fits b.ultimate (b.adds ++ [P.add]) ∧
      (P.Delivers z b → s.NoHole (b.adds ++ [P.add]))

/-- A segment whose fields are 64-bit numbers. -/
structure FlatSeg.Words (s : FlatSeg) : Prop where
  targetOff_lt : s.targetOff < 2 ^ 64
  len_lt : s.len < 2 ^ 64

theorem composeCopy_len_lt :
    ∀ (B : List FlatSeg) (m rem : ℕ) (out : List FlatSeg), composeCopy B m rem = .ok out →
      ∀ p ∈ out, p.len < 2 ^ 64 := by
  intro B
  induction B with
  | nil =>
      intro m rem out h
      rw [composeCopy] at h
      split at h
      · simp at h
      · obtain rfl := Except.ok.inj h
        simp
  | cons s B ih =>
      intro m rem out h
      rw [composeCopy] at h
      split at h
      · obtain rfl := Except.ok.inj h
        simp
      dsimp only at h
      split at h
      · simp at h
      split at h
      · simp at h
      rename_i rest hrest
      obtain rfl := Except.ok.inj h
      intro p hp
      rcases List.mem_cons.1 hp with rfl | hp
      · exact Nat.mod_lt _ (by norm_num)
      · exact ih _ _ _ hrest p hp

theorem composeSegs_len_lt {B : List FlatSeg} {thisAdd : ℕ} :
    ∀ (segs : List RawSeg) (out : List FlatSeg), (∀ s ∈ segs, s.Fits) →
      composeSegs B thisAdd segs = .ok out → ∀ p ∈ out, p.len < 2 ^ 64 := by
  intro segs
  induction segs with
  | nil =>
      intro out _ h
      obtain rfl := Except.ok.inj h
      simp
  | cons s segs ih =>
      intro out hfits h
      rw [composeSegs] at h
      split at h
      · simp at h
      rename_i here hhere
      split at h
      · simp at h
      rename_i rest hrest
      obtain rfl := Except.ok.inj h
      intro p hp
      rcases List.mem_append.1 hp with hp | hp
      · split at hhere
        · obtain rfl := Except.ok.inj hhere
          obtain rfl := List.mem_singleton.1 hp
          exact (hfits s (by simp)).1
        · exact composeCopy_len_lt _ _ _ _ hhere p hp
      · exact ih rest (fun s' hs' => hfits s' (by simp [hs'])) hrest p hp

theorem Composes.len_lt {b : Source} {P : Parsed} {segs : List FlatSeg} (h : Composes b P segs)
    (hP : P.Bounded) : ∀ p ∈ segs, p.len < 2 ^ 64 := by
  cases b with
  | plain src =>
      have heq : segs = P.segs.map fun s => ⟨0, s.len, s.srcOff, 0, s.kind⟩ := h
      intro p hp
      rw [heq] at hp
      obtain ⟨s, hs, rfl⟩ := List.mem_map.1 hp
      exact (hP.seg_fits s hs).1
  | delta bd => exact composeSegs_len_lt _ _ hP.seg_fits h

theorem placeSegs_words {t : ℕ} {segs : List FlatSeg} (ht : t < 2 ^ 64)
    (h : ∀ s ∈ segs, s.len < 2 ^ 64) : ∀ s ∈ (placeSegs t segs).1, s.Words := by
  induction segs generalizing t with
  | nil => simp [placeSegs]
  | cons x segs ih =>
      intro s hs
      rw [placeSegs] at hs
      rcases List.mem_cons.1 hs with rfl | hs
      · exact ⟨ht, h x (by simp)⟩
      · exact ih (Nat.mod_lt _ (by norm_num)) (fun y hy => h y (by simp [hy])) s hs

/-- The map of every reader that `create` returned is one of 64-bit numbers. -/
theorem Built.words {z : Zstd} {D : DeltaByteSource} (h : Built z D) : ∀ s ∈ D.segs, s.Words := by
  cases h with
  | plain hcreate =>
      obtain ⟨P, b, segs, io₁, _, hparse, _, hsegs, _, rfl⟩ := create_inv hcreate
      exact placeSegs_words (by norm_num) (hsegs.len_lt (parseDelta_fields hparse))
  | delta _ hcreate =>
      obtain ⟨P, b, segs, io₁, _, hparse, _, hsegs, _, rfl⟩ := create_inv hcreate
      exact placeSegs_words (by norm_num) (hsegs.len_lt (parseDelta_fields hparse))

/-- A COPY that does not wrap is cut along the segments it meets, whatever these are. -/
theorem composeCopy_cut :
    ∀ (B : List FlatSeg) (m rem : ℕ) (out : List FlatSeg), (∀ s ∈ B, s.Words) → m + rem < 2 ^ 64 →
      composeCopy B m rem = .ok out → out = cutSegs B m rem ∧ totalLen out = rem := by
  intro B
  induction B with
  | nil =>
      intro m rem out _ _ h
      rw [composeCopy] at h
      split at h
      · simp at h
      · obtain rfl := Except.ok.inj h
        exact ⟨rfl, by rw [totalLen_nil]; omega⟩
  | cons s B ih =>
      intro m rem out hB hfit h
      obtain ⟨hto, hlen⟩ := hB s (by simp)
      rw [composeCopy] at h
      rw [cutSegs]
      split at h
      · rename_i hrem
        obtain rfl := Except.ok.inj h
        rw [if_pos hrem]
        exact ⟨rfl, hrem.symm⟩
      rename_i hrem
      rw [if_neg hrem]
      dsimp only at h ⊢
      split at h
      · simp at h
      rename_i hin
      -- a segment that wraps around covers nothing, so this one does not
      have hend : s.targetOff + s.len < 2 ^ 64 := by
        by_contra hwrap
        unfold add64 at hin
        omega
      rw [add64_eq hend] at h hin
      have htake : sub64 (min (s.targetOff + s.len) (add64 m rem)) m
          = min (s.targetOff + s.len - m) rem := by
        rw [add64_eq hfit, sub64_eq (by omega) (by omega)]
        omega
      rw [htake] at h
      generalize htk : min (s.targetOff + s.len - m) rem = take at h ⊢
      have hle : take ≤ rem := by omega
      rw [add64_eq (a := m) (by omega), sub64_eq (a := rem) hle (by omega),
        sub64_eq (a := m) (by omega) (by omega)] at h
      split at h
      · simp at h
      rename_i rest hrest
      obtain rfl := Except.ok.inj h
      obtain ⟨hcut, htot⟩ := ih _ _ _ (fun s' hs' => hB s' (by simp [hs'])) (by omega) hrest
      refine ⟨by rw [hcut], ?_⟩
      rw [totalLen_cons, htot]
      dsimp only
      omega

/-- The pieces of one entry over a reader. -/
theorem composeEntry_pieces {bd : DeltaByteSource} (hB : ∀ s ∈ bd.segs, s.Words) {s : RawSeg}
    (hs : s.Fits) {here : List FlatSeg}
    (h : (if s.kind = KIND_ADD then
        .ok [⟨0, s.len, s.srcOff, bd.addSources.length % 2 ^ 32, KIND_ADD⟩]
      else composeCopy (bd.segs.drop (segAt bd.segs s.srcOff)) s.srcOff s.len) = .ok here) :
    here = s.pieces (.delta bd) ∧ totalLen here = s.len := by
  obtain ⟨hl, ho⟩ := hs
  rw [RawSeg.pieces]
  by_cases hk : s.kind = KIND_ADD
  · rw [if_pos hk] at h ⊢
    obtain rfl := Except.ok.inj h
    exact ⟨rfl, by simp⟩
  rw [if_neg hk] at h ⊢
  by_cases hwrap : s.srcOff + s.len < 2 ^ 64
  · rw [if_pos hwrap]
    exact composeCopy_cut _ _ _ _ (fun s' hs' => hB s' (List.mem_of_mem_drop hs')) hwrap h
  · rw [if_neg hwrap, wrappedPiece]
    cases hdrop : bd.segs.drop (segAt bd.segs s.srcOff) with
    | nil =>
        rw [hdrop, composeCopy, if_pos (by omega)] at h
        simp at h
    | cons bs B =>
        rw [hdrop] at h
        obtain ⟨hto, hlen⟩ := hB bs (List.mem_of_mem_drop (hdrop ▸ List.mem_cons_self))
        have hend : bs.targetOff + bs.len < 2 ^ 64 := by
          by_contra hover
          rw [composeCopy, if_neg (by omega)] at h
          dsimp only at h
          rw [if_pos (by unfold add64; omega)] at h
          simp at h
        obtain rfl := composeCopy_wraps hend ho hl (by omega) h
        exact ⟨rfl, by simp⟩

/-- **The segments of an accepted delta are the pieces of its table.** -/
theorem Composes.eq_pieces {z : Zstd} {b : Source} {P : Parsed} {segs : List FlatSeg}
    (h : Composes b P segs) (hb : b.Accepted z) (hP : P.Bounded) :
    segs = P.pieces b ∧ totalLen segs = (P.segs.map RawSeg.len).sum := by
  cases b with
  | plain src =>
      have heq : segs = P.segs.map fun s => ⟨0, s.len, s.srcOff, 0, s.kind⟩ := h
      subst heq
      refine ⟨?_, totalLen_flat P.segs⟩
      rw [Parsed.pieces, List.map_eq_flatMap]
      rfl
  | delta bd =>
      have hB := Built.words hb
      have hcut : ∀ (l : List RawSeg) (out : List FlatSeg), (∀ s ∈ l, s.Fits) →
          composeSegs bd.segs (bd.addSources.length % 2 ^ 32) l = .ok out →
          out = (l.flatMap fun s => s.pieces (.delta bd)) ∧
            totalLen out = (l.map RawSeg.len).sum := by
        intro l
        induction l with
        | nil =>
            intro out _ hout
            obtain rfl := Except.ok.inj hout
            exact ⟨rfl, rfl⟩
        | cons s l ih =>
            intro out hfits hout
            rw [composeSegs] at hout
            split at hout
            · simp at hout
            rename_i here hhere
            split at hout
            · simp at hout
            rename_i rest hrest
            obtain rfl := Except.ok.inj hout
            obtain ⟨hpieces, hlen⟩ := composeEntry_pieces hB (hfits s (by simp)) hhere
            obtain ⟨hrestEq, hrestLen⟩ := ih rest (fun s' hs' => hfits s' (by simp [hs'])) hrest
            rw [List.flatMap_cons, totalLen_append, List.map_cons, List.sum_cons, hlen, hrestLen]
            exact ⟨by rw [hpieces, hrestEq], rfl⟩
      exact hcut P.segs segs hP.seg_fits h

/-- **One accepted delta**, over any base: the map is as it should be exactly when the pieces of the
table are. -/
theorem sane_iff_piecesFit {z : Zstd} {delta : ByteSource} {b : Source} {v : Bool} {io io' : Io}
    {D : DeltaByteSource} (h : create z delta (some b) v io = (.ok D, io')) (hb : b.Accepted z)
    (hn : D.addSources.length ≤ 2 ^ 24) :
    ∃ (P : Parsed) (io₁ : Io), parseDelta z delta io = (.ok P, io₁) ∧
      (D.Sane z ↔ P.PiecesFit z b) := by
  have hD : Built z D := by
    cases b with
    | plain src => exact .plain h
    | delta bd => exact .delta hb h
  obtain ⟨P, b', segs, io₁, heq, hparse, hsize, hsegs, hend, rfl⟩ := create_inv h
  obtain rfl := Option.some_inj.1 heq
  refine ⟨P, io₁, hparse, ?_⟩
  have hP := parseDelta_fields hparse
  obtain ⟨hpieces, htot⟩ := hsegs.eq_pieces hb hP
  have hF := hD.keysApart hn
  constructor
  · rintro ⟨hflat, hread⟩
    have hcov := hflat.covers
    rw [totalLen_placeSegs, htot] at hcov
    refine ⟨hcov, ?_⟩
    intro s hs
    rw [← hpieces] at hs
    obtain ⟨s', hs', heq'⟩ := mem_placeSegs_of_mem (t := 0) hs
    have hfit := hflat.inRange s' hs'
    rw [heq'] at hfit
    refine ⟨hfit, fun hdel => ?_⟩
    have hhole := DeltaByteSource.noHole_of_readable hF hflat
      (fun x hx => FlatSeg.Fits.end_lt hD (hflat.inRange x hx)) hP.targetSize_lt (hread hdel) s' hs'
    rw [heq'] at hhole
    exact hhole
  · rintro ⟨hsum, happ⟩
    rw [← hpieces] at happ
    rw [hsum] at htot
    have hlt := hP.targetSize_lt
    have hfits : 0 + totalLen segs < 2 ^ 64 := by omega
    obtain ⟨hplaced, hstop⟩ := placeSegs_spec hfits
    have hflat : DeltaByteSource.IsFlat
        ⟨b.ultimate, b.adds ++ [P.add], (placeSegs 0 segs).1, P.targetSize⟩ b.ultimate := by
      refine ⟨rfl, hplaced, (totalLen_placeSegs 0 segs).trans htot, ?_⟩
      intro s hs
      obtain ⟨s₀, hs₀, heq'⟩ := mem_placeSegs hs
      rw [heq']
      exact (happ s₀ hs₀).1
    refine ⟨hflat, fun hdel => ?_⟩
    refine DeltaByteSource.readable_of_noHole hD hF hflat hlt hdel ?_
    intro s hs
    obtain ⟨s₀, hs₀, heq'⟩ := mem_placeSegs hs
    rw [heq']
    exact (happ s₀ hs₀).2 hdel

/-- Over a base that is plain or as it should be, only the own segments can go wrong. -/
theorem sane_iff_applies {z : Zstd} {delta : ByteSource} {b : Source} {v : Bool} {io io' : Io}
    {D : DeltaByteSource} (h : create z delta (some b) v io = (.ok D, io')) (hb : b.Sane z)
    (hn : D.addSources.length ≤ 2 ^ 24) :
    ∃ (P : Parsed) (io₁ : Io), parseDelta z delta io = (.ok P, io₁) ∧
      (D.Sane z ↔ P.Applies z b) := by
  obtain ⟨P, io₁, hparse, hiff⟩ := sane_iff_piecesFit h hb.accepted hn
  refine ⟨P, io₁, hparse, hiff.trans ?_⟩
  obtain ⟨P', b', segs, io₂, heq, hparse', hsize, hsegs, hend, rfl⟩ := create_inv h
  obtain rfl := Option.some_inj.1 heq
  rw [hparse] at hparse'
  obtain rfl : P = P' := Except.ok.inj (Prod.mk.inj hparse').1
  have hP := parseDelta_fields hparse
  obtain ⟨_, hparts, hown⟩ := hsegs.parts hb hP
  rw [(hsegs.eq_pieces hb.accepted hP).1] at hparts hown
  dsimp only at hn
  have hnb : b.adds.length ≤ 2 ^ 24 := by
    rw [List.length_append] at hn
    omega
  have hbase := hb.segs_fit hnb
  constructor
  · rintro ⟨hsum, hfit⟩
    exact ⟨hsum, fun s hs => hfit s (hown s hs)⟩
  · rintro ⟨hsum, happ⟩
    refine ⟨hsum, ?_⟩
    intro s hs
    -- an own segment, or a part of one of the base
    rcases hparts s hs with hs' | ⟨x, hx, hpart⟩
    · exact happ s hs'
    · obtain ⟨hfit, hhole⟩ := hbase x hx
      refine ⟨hpart.fits (hfit.append _), fun hdel => hpart.noHole ?_⟩
      exact (hhole hdel.1 fun A hA => hdel.2 A (List.mem_append_left _ hA)).append hfit _

/-- Chains of accepted deltas whose tables are each right for what lies under them. -/
inductive AppliedChain (z : Zstd) : Source → Prop
  | plain {src : ByteSource} : AppliedChain z (.plain src)
  | delta {b : Source} {delta : ByteSource} {v : Bool} {io io' io₁ : Io} {D : DeltaByteSource}
      {P : Parsed} : AppliedChain z b → create z delta (some b) v io = (.ok D, io') →
      parseDelta z delta io = (.ok P, io₁) → P.Applies z b → AppliedChain z (.delta D)

theorem AppliedChain.sane {z : Zstd} {b : Source} (h : AppliedChain z b)
    (hn : b.adds.length ≤ 2 ^ 24) : b.Sane z := by
  induction h with
  | plain => exact trivial
  | delta hchain hcreate hparse happ ih =>
      rename_i b delta v io io' io₁ D P
      have hadds : D.addSources = b.adds ++ [P.add] := by
        obtain ⟨P', b', segs, io₂, heq, hparse', _, _, _, rfl⟩ := create_inv hcreate
        obtain rfl := Option.some_inj.1 heq
        rw [hparse] at hparse'
        obtain rfl : P = P' := Except.ok.inj (Prod.mk.inj hparse').1
        rfl
      have hnD : D.addSources.length ≤ 2 ^ 24 := hn
      have hb : b.Sane z := ih (by rw [hadds, List.length_append] at hnD; omega)
      obtain ⟨P', io₂, hparse', hiff⟩ := sane_iff_applies hcreate hb hnD
      rw [hparse] at hparse'
      obtain rfl : P = P' := Except.ok.inj (Prod.mk.inj hparse').1
      refine ⟨?_, hiff.2 happ⟩
      cases b with
      | plain src => exact .plain hcreate
      | delta bd => exact .delta hb.1 hcreate

/-- **Which accepted deltas yield a readable flat map.**  An accepted delta does exactly when the
pieces its table is taken for are right, whatever reader its base is.  Over a base that is plain, or
a reader whose map is so, this comes down to the own segments of the table; and so every chain of
deltas whose tables are right yields such a map. -/
theorem create_sane_iff (z : Zstd) :
    (∀ (delta : ByteSource) (b : Source) (v : Bool) (io io' : Io) (D : DeltaByteSource),
      create z delta (some b) v io = (.ok D, io') → b.Accepted z → D.addSources.length ≤ 2 ^ 24 →
        ∃ (P : Parsed) (io₁ : Io), parseDelta z delta io = (.ok P, io₁) ∧
          (D.Sane z ↔ P.PiecesFit z b)) ∧
    (∀ (delta : ByteSource) (b : Source) (v : Bool) (io io' : Io) (D : DeltaByteSource),
      create z delta (some b) v io = (.ok D, io') → b.Sane z → D.addSources.length ≤ 2 ^ 24 →
        ∃ (P : Parsed) (io₁ : Io), parseDelta z delta io = (.ok P, io₁) ∧
          (D.Sane z ↔ P.Applies z b)) ∧
    ∀ D : DeltaByteSource, AppliedChain z (.delta D) → D.addSources.length ≤ 2 ^ 24 → D.Sane z :=
  ⟨fun _ _ _ _ _ _ h hb hn => sane_iff_piecesFit h hb hn,
    fun _ _ _ _ _ _ h hb hn => sane_iff_applies h hb hn, fun _ h hn => (h.sane hn).2⟩

/-! ### A table that is accepted and not readable -/

/-- A file that copies three bytes of an empty base. -/
def farFile : DeltaFile where
  blockSize := 4
  targetSize := 3
  baseSize := 0
  baseHash := 0
  segs := [⟨KIND_COPY, 3, 0⟩]
  blocks := []
  region := []

theorem far_encode_lt : (farFile.encode storingZstd).length < 2 ^ 63 := by decide +kernel

def farDelta : ByteSource :=
  memByteSource (farFile.encode storingZstd) (far_encode_lt.trans (by decide))

theorem farFile_fits : farFile.Fits := by
  refine ⟨by decide, by decide, by decide, by decide, by decide, by decide, by decide, ?_, ?_, rfl⟩
  · intro s hs
    obtain rfl := List.mem_singleton.1 hs
    exact ⟨by decide, by decide⟩
  · intro b hb
    simp [farFile] at hb

/-- Its reader over the empty base. -/
def farReader : DeltaByteSource where
  baseSrc := emptySource
  addSources := [(farFile.parsed storingZstd farDelta).add]
  segs := [⟨0, 3, 0, 0, KIND_COPY⟩]
  targetSize := 3

theorem farFile_create : ∃ io₁, create storingZstd farDelta (some (.plain emptySource)) false
    ⟨0, []⟩ = (.ok farReader, io₁) := by
  obtain ⟨io₁, hparse⟩ : ∃ io₁, parseDelta storingZstd farDelta ⟨0, []⟩
      = (.ok (farFile.parsed storingZstd farDelta), io₁) :=
    parseDelta_encode storingZstd_roundTrips farFile_fits
      (memByteSource_delivers _ (far_encode_lt.trans (by decide))) far_encode_lt ⟨0, []⟩
  refine ⟨io₁, ?_⟩
  rw [create, Prog.bind_of_ok hparse]
  rfl

theorem farCopy_range : ¬ farReader.IsFlat emptySource := by
  intro hflat
  obtain ⟨_, ⟨_, hin⟩ | ⟨hk, _⟩⟩ := hflat.inRange ⟨0, 3, 0, 0, KIND_COPY⟩ (by simp [farReader])
  · exact absurd hin (by decide)
  · exact absurd hk (by decide)

/-- **A COPY outside the base is accepted.**  The map that `create` yields is not in range, and
though base and file deliver, a read inside the target fails with `EIO`. -/
theorem farCopy_accepted :
    (∃ io₁, create storingZstd farDelta (some (.plain emptySource)) false ⟨0, []⟩
      = (.ok farReader, io₁)) ∧
    ¬ farReader.IsFlat emptySource ∧ farReader.Delivers storingZstd ∧
    (farReader.pread storingZstd 3 0 ⟨0, [], []⟩).1 = .error (.errno .eio) := by
  refine ⟨farFile_create, farCopy_range, ⟨⟨[], memByteSource_delivers [] (by decide)⟩, ?_⟩, rfl⟩
  intro A hA b hb
  obtain rfl := List.mem_singleton.1 hA
  simp [DeltaFile.parsed, farFile] at hb

/-- A file that takes nothing of a base of three bytes. -/
def emptiedFile : DeltaFile where
  blockSize := 4
  targetSize := 0
  baseSize := 3
  baseHash := 0
  segs := []
  blocks := []
  region := []

theorem emptied_encode_lt : (emptiedFile.encode storingZstd).length < 2 ^ 63 := by decide +kernel

def emptiedDelta : ByteSource :=
  memByteSource (emptiedFile.encode storingZstd) (emptied_encode_lt.trans (by decide))

theorem emptiedFile_fits : emptiedFile.Fits := by
  refine ⟨by decide, by decide, by decide, by decide, by decide, by decide, by decide, ?_, ?_, rfl⟩
  · intro s hs
    simp [emptiedFile] at hs
  · intro b hb
    simp [emptiedFile] at hb

/-- Its reader over the reader of the file above. -/
def emptiedReader : DeltaByteSource where
  baseSrc := emptySource
  addSources := [(farFile.parsed storingZstd farDelta).add,
    (emptiedFile.parsed storingZstd emptiedDelta).add]
  segs := []
  targetSize := 0

theorem emptied_parse : ∃ io₁, parseDelta storingZstd emptiedDelta ⟨0, []⟩
    = (.ok (emptiedFile.parsed storingZstd emptiedDelta), io₁) :=
  parseDelta_encode storingZstd_roundTrips emptiedFile_fits
    (memByteSource_delivers _ (emptied_encode_lt.trans (by decide))) emptied_encode_lt ⟨0, []⟩

theorem emptied_create : ∃ io₁, create storingZstd emptiedDelta (some (.delta farReader)) false
    ⟨0, []⟩ = (.ok emptiedReader, io₁) := by
  obtain ⟨io₁, hparse⟩ := emptied_parse
  refine ⟨io₁, ?_⟩
  rw [create, Prog.bind_of_ok hparse]
  rfl

/-- Over a reader that is not as it should be there is one that is: no piece of its table is taken
from what is wrong below. -/
theorem emptied_sane : ¬ farReader.Sane storingZstd ∧ emptiedReader.Sane storingZstd := by
  refine ⟨fun h => farCopy_range h.1, ?_⟩
  obtain ⟨io₁, hfar⟩ := farFile_create
  obtain ⟨io₂, hcreate⟩ := emptied_create
  obtain ⟨P, io₃, hparse, hiff⟩ := (create_sane_iff storingZstd).1 emptiedDelta (.delta farReader)
    false _ _ emptiedReader hcreate (Built.plain hfar) (by decide)
  obtain ⟨io₄, hparse'⟩ := emptied_parse
  rw [hparse'] at hparse
  obtain rfl := Except.ok.inj (Prod.mk.inj hparse).1
  refine hiff.2 ⟨rfl, ?_⟩
  intro s hs
  exact absurd hs List.not_mem_nil

end VidyaGodFS
