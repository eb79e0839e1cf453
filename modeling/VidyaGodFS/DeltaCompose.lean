/-
**Applying a delta to a base.**

A delta says how its target is put together from bytes of its immediate base and from its own
literals.  `create` turns this into a flat map over the *ultimate* base: over a plain base the
segments are taken as they are, over the reader of another delta each COPY is cut along the
segments of that reader and rewritten through them.  Both ways the map stands for the bytes the
delta says, and the source is sound, so that every read of it is right.

Main definitions:

* `RawSeg.bytes`, `rawBytes` — the bytes a segment, and a list of segments, stands for;
* `RawSeg.InRange`, `Parsed.InRange` — the segments of a delta lie inside the base and inside the
  literals, and cover the target.

Main results:

* `composeCopy_spec` — a COPY rewritten through a map stands for the same bytes of what the map
  stands for;
* `composeSegs_spec` — so do the segments of a whole delta;
* `create_plain`, `create_delta` — **the source `create` returns is sound, and stands for the bytes
  the delta says**.
-/

import VidyaGodFS.DeltaReader

set_option relaxedAutoImplicit false
set_option autoImplicit false

namespace VidyaGodFS

/-! ### What a delta stands for -/

/-- The bytes a segment of a delta stands for, over its immediate base and its literals. -/
def RawSeg.bytes (base lit : Bytes) (s : RawSeg) : Bytes :=
  if s.kind = KIND_COPY then slice base s.srcOff s.len else slice lit s.srcOff s.len

/-- The bytes of the target that a list of segments builds. -/
def rawBytes (base lit : Bytes) (segs : List RawSeg) : Bytes := segs.flatMap (RawSeg.bytes base lit)

/-- A segment that is not empty and lies inside the base, or inside the literals. -/
def RawSeg.InRange (baseLen litLen : ℕ) (s : RawSeg) : Prop :=
  0 < s.len ∧
    (s.kind = KIND_COPY ∧ s.srcOff + s.len ≤ baseLen ∨
      s.kind = KIND_ADD ∧ s.srcOff + s.len ≤ litLen)

@[simp] theorem rawBytes_nil (base lit : Bytes) : rawBytes base lit [] = [] := rfl

@[simp] theorem rawBytes_cons (base lit : Bytes) (s : RawSeg) (segs : List RawSeg) :
    rawBytes base lit (s :: segs) = s.bytes base lit ++ rawBytes base lit segs := rfl

@[simp] theorem rawBytes_append (base lit : Bytes) (segs segs' : List RawSeg) :
    rawBytes base lit (segs ++ segs') = rawBytes base lit segs ++ rawBytes base lit segs' := by
  simp [rawBytes]

theorem KIND_ADD_ne_COPY : ¬ KIND_ADD = KIND_COPY := by decide

theorem RawSeg.InRange.length_bytes {base lit : Bytes} {s : RawSeg}
    (h : s.InRange base.length lit.length) : (s.bytes base lit).length = s.len := by
  obtain ⟨_, ⟨hk, hin⟩ | ⟨hk, hin⟩⟩ := h
  · rw [RawSeg.bytes, if_pos hk, length_slice_of_le hin]
  · rw [RawSeg.bytes, if_neg (by rw [hk]; decide), length_slice_of_le hin]

theorem length_rawBytes {base lit : Bytes} {segs : List RawSeg}
    (h : ∀ s ∈ segs, s.InRange base.length lit.length) :
    (rawBytes base lit segs).length = (segs.map RawSeg.len).sum := by
  induction segs with
  | nil => rfl
  | cons s segs ih =>
      rw [rawBytes_cons, List.length_append, (h s (by simp)).length_bytes, List.map_cons,
        List.sum_cons, ih fun s' hs' => h s' (by simp [hs'])]

/-- The segments of a delta lie in its base and its literals, and their lengths are that of the
target. -/
structure Parsed.InRange (P : Parsed) (baseLen litLen : ℕ) : Prop where
  baseSize_eq : P.baseSize = baseLen
  inRange : ∀ s ∈ P.segs, s.InRange baseLen litLen
  covers : (P.segs.map RawSeg.len).sum = P.targetSize
  targetSize_lt : P.targetSize < 2 ^ 64

/-! ### The flat map -/

/-- Placing the segments leaves their bytes as they are. -/
theorem mapBytes_placeSegs (base : Bytes) (lits : List Bytes) (t : ℕ) (segs : List FlatSeg) :
    mapBytes base lits (placeSegs t segs).1 = mapBytes base lits segs := by
  induction segs generalizing t with
  | nil => rfl
  | cons s segs ih =>
      rw [placeSegs, mapBytes_cons, mapBytes_cons, ih]
      rfl

/-- The end of `create` over segments that are in range and cover the target. -/
theorem finish_spec {z : Zstd} {src : ByteSource} {base : Bytes} {adds : List AddSource}
    {lits : List Bytes} (segs : List FlatSeg) (hsrc : src.Delivers base)
    (hadds : AddsHold z adds lits) (hr : ∀ s ∈ segs, s.InRange base lits)
    (hlt : totalLen segs < 2 ^ 64) :
    ∃ D : DeltaByteSource, (∀ io, finish src adds segs (totalLen segs) io = (.ok D, io)) ∧
      D.Sound z base lits ∧ D.targetSize = totalLen segs ∧ D.baseSrc = src ∧
      D.addSources = adds ∧ mapBytes base lits D.segs = mapBytes base lits segs := by
  obtain ⟨hplaced, hend⟩ : Placed 0 (placeSegs 0 segs).1 ∧ (placeSegs 0 segs).2 = 0 + totalLen segs :=
    placeSegs_spec (by omega)
  rw [Nat.zero_add] at hend
  refine ⟨⟨src, adds, (placeSegs 0 segs).1, totalLen segs⟩, ?_, ?_, rfl, rfl, rfl,
    mapBytes_placeSegs ..⟩
  · intro io
    rw [finish, if_neg (not_not.2 hend), Prog.pure_apply]
  · refine ⟨hsrc, hadds, ?_, hplaced, totalLen_placeSegs .., hlt⟩
    intro s hs
    obtain ⟨s₀, hs₀, heq⟩ := mem_placeSegs hs
    rw [heq]
    exact hr s₀ hs₀

/-- A segment of a delta over a plain base, as a segment of the flat map. -/
theorem RawSeg.InRange.flat {base lit : Bytes} {s : RawSeg}
    (h : s.InRange base.length lit.length) :
    (⟨0, s.len, s.srcOff, 0, s.kind⟩ : FlatSeg).InRange base [lit] := by
  obtain ⟨hpos, ⟨hk, hin⟩ | ⟨hk, hin⟩⟩ := h
  · exact ⟨hpos, Or.inl ⟨hk, hin⟩⟩
  · exact ⟨hpos, Or.inr ⟨hk, lit, rfl, hin⟩⟩

theorem mapBytes_flat (base lit : Bytes) (segs : List RawSeg) :
    mapBytes base [lit] (segs.map fun s => ⟨0, s.len, s.srcOff, 0, s.kind⟩)
      = rawBytes base lit segs := by
  induction segs with
  | nil => rfl
  | cons s segs ih =>
      rw [List.map_cons, mapBytes_cons, rawBytes_cons, ih]
      rfl

theorem totalLen_flat (segs : List RawSeg) :
    totalLen (segs.map fun s => ⟨0, s.len, s.srcOff, 0, s.kind⟩) = (segs.map RawSeg.len).sum := by
  rw [totalLen, List.map_map]
  rfl

/-! ### Rewriting through the map of the base -/

section Compose

variable {base : Bytes} {lits : List Bytes}

/-- The rest of a map after a segment in range, as a slice of the bytes. -/
theorem slice_mapBytes_cons {s : FlatSeg} {B : List FlatSeg} {m rem : ℕ}
    (hs : s.InRange base lits) (hm : m ≤ s.len) (hrem : s.len ≤ m + rem) :
    slice (mapBytes base lits (s :: B)) m rem
      = slice (s.bytes base lits) m (s.len - m)
        ++ slice (mapBytes base lits B) 0 (rem - (s.len - m)) := by
  rw [mapBytes_cons, slice_append (by rw [hs.length_bytes]; exact hm)
    (by rw [hs.length_bytes]; exact hrem), hs.length_bytes]

/-- A part of a segment is a segment that stands for that part of the bytes. -/
theorem FlatSeg.bytes_part {s : FlatSeg} {skip take : ℕ} (h : skip + take ≤ s.len) :
    FlatSeg.bytes base lits ⟨0, take, s.srcOff + skip, s.addSrc, s.kind⟩
      = slice (s.bytes base lits) skip take := by
  by_cases hk : s.kind = KIND_COPY
  · rw [FlatSeg.bytes, FlatSeg.bytes, if_pos hk, if_pos hk, slice_slice h]
  · rw [FlatSeg.bytes, FlatSeg.bytes, if_neg hk, if_neg hk, slice_slice h]

theorem FlatSeg.InRange.part {s : FlatSeg} (hs : s.InRange base lits) {skip take : ℕ}
    (h : skip + take ≤ s.len) (hpos : 0 < take) :
    (⟨0, take, s.srcOff + skip, s.addSrc, s.kind⟩ : FlatSeg).InRange base lits := by
  refine ⟨hpos, ?_⟩
  obtain ⟨_, ⟨hk, hin⟩ | ⟨hk, lit, hlit, hin⟩⟩ := hs
  · exact Or.inl ⟨hk, by dsimp only; omega⟩
  · exact Or.inr ⟨hk, lit, hlit, by dsimp only; omega⟩

/-- A segment in range starts below `2 ^ 64`. -/
theorem FlatSeg.InRange.end_lt {s : FlatSeg} (hs : s.InRange base lits)
    (hb : base.length < 2 ^ 64) (hl : ∀ lit ∈ lits, lit.length < 2 ^ 64) :
    s.srcOff + s.len < 2 ^ 64 := by
  obtain ⟨_, ⟨_, hin⟩ | ⟨_, lit, hlit, hin⟩⟩ := hs
  · omega
  · have := hl lit (List.mem_of_getElem? hlit)
    omega

/-- **A COPY rewritten through a map stands for the same bytes**: it is cut along the segments, and
every piece lies where its segment lies. -/
theorem composeCopy_spec (hb : base.length < 2 ^ 64) (hl : ∀ lit ∈ lits, lit.length < 2 ^ 64) :
    ∀ (B : List FlatSeg) (t m rem : ℕ), (∀ s ∈ B, s.InRange base lits) → Placed t B →
      t + totalLen B < 2 ^ 64 → t ≤ m → m + rem ≤ t + totalLen B →
      (∀ s ∈ B.head?, m < t + s.len) →
      ∃ out, composeCopy B m rem = .ok out ∧ (∀ s ∈ out, s.InRange base lits) ∧
        totalLen out = rem ∧ mapBytes base lits out = slice (mapBytes base lits B) (m - t) rem := by
  intro B
  induction B with
  | nil =>
      intro t m rem _ _ _ ht hend _
      rw [totalLen_nil] at hend
      obtain rfl : rem = 0 := by omega
      exact ⟨[], by simp [composeCopy], by simp, rfl, by simp⟩
  | cons s B ih =>
      intro t m rem hr hpl hlt ht hend hhead
      obtain ⟨rfl, hpl'⟩ := hpl
      rw [totalLen_cons] at hlt hend
      have hin := hhead s rfl
      have hs := hr s (by simp)
      have hsrc := hs.end_lt hb hl
      rcases Nat.eq_zero_or_pos rem with rfl | hpos
      · exact ⟨[], by simp [composeCopy], by simp, rfl, by simp⟩
      · rw [composeCopy, if_neg (by omega)]
        dsimp only
        have hend' : add64 m rem = m + rem := add64_eq (by omega)
        have hskip : sub64 m s.targetOff = m - s.targetOff := sub64_eq ht (by omega)
        have hat : add64 s.srcOff (m - s.targetOff) = s.srcOff + (m - s.targetOff) :=
          add64_eq (by omega)
        rw [add64_eq (by omega), if_neg (by omega), hend', hskip, hat]
        by_cases hcase : m + rem ≤ s.targetOff + s.len
        · -- the COPY ends in this segment
          have htake : sub64 (min (s.targetOff + s.len) (m + rem)) m = rem := by
            rw [sub64_eq (by omega) (by omega)]
            omega
          have hrest : composeCopy B (m + rem) (sub64 rem rem) = .ok [] := by
            rw [sub64_eq le_rfl (by omega), Nat.sub_self]
            cases B <;> simp [composeCopy]
          rw [htake, hend', hrest]
          refine ⟨_, rfl, ?_, ?_, ?_⟩
          · intro s' hs'
            obtain rfl := List.mem_singleton.1 hs'
            exact hs.part (by omega) hpos
          · rw [totalLen_cons, totalLen_nil, Nat.add_zero]
          · rw [mapBytes_cons, mapBytes_nil, List.append_nil, FlatSeg.bytes_part (by omega),
              mapBytes_cons, slice_append_left (by rw [hs.length_bytes]; omega)]
        · -- the COPY goes on in the next segment
          have htake : sub64 (min (s.targetOff + s.len) (m + rem)) m = s.targetOff + s.len - m := by
            rw [sub64_eq (by omega) (by omega)]
            omega
          have hleft' : sub64 rem (s.targetOff + s.len - m) = rem - (s.targetOff + s.len - m) :=
            sub64_eq (by omega) (by omega)
          have hnext : m + (s.targetOff + s.len - m) = s.targetOff + s.len := by omega
          obtain ⟨out, hout, hrout, htot, hbytes⟩ := ih (s.targetOff + s.len)
            (s.targetOff + s.len) (rem - (s.targetOff + s.len - m))
            (fun s' hs' => hr s' (by simp [hs'])) hpl' (by omega) le_rfl (by omega)
            (by
              intro s' hs'
              have hpos' := (hr s' (List.mem_cons_of_mem _ (List.mem_of_mem_head? hs'))).1
              omega)
          rw [htake, add64_eq (by omega), hnext, hleft', hout]
          refine ⟨_, rfl, ?_, ?_, ?_⟩
          · intro s' hs'
            rcases List.mem_cons.1 hs' with rfl | hs'
            · exact hs.part (by omega) (by omega)
            · exact hrout s' hs'
          · rw [totalLen_cons, htot]
            dsimp only
            omega
          · have hleft : s.targetOff + s.len - m = s.len - (m - s.targetOff) := by omega
            rw [mapBytes_cons, FlatSeg.bytes_part (by omega), hbytes, Nat.sub_self,
              slice_mapBytes_cons hs (by omega) (by omega), hleft]

/-- A COPY anywhere in a placed map, from the segment the binary search finds on. -/
theorem composeCopy_segAt (hb : base.length < 2 ^ 64) (hl : ∀ lit ∈ lits, lit.length < 2 ^ 64)
    {B : List FlatSeg} (hr : ∀ s ∈ B, s.InRange base lits) (hpl : Placed 0 B)
    (hlt : totalLen B < 2 ^ 64) {m rem : ℕ} (hpos : 0 < rem) (hend : m + rem ≤ totalLen B) :
    ∃ out, composeCopy (B.drop (segAt B m)) m rem = .ok out ∧ (∀ s ∈ out, s.InRange base lits) ∧
      totalLen out = rem ∧ mapBytes base lits out = slice (mapBytes base lits B) m rem := by
  obtain ⟨s, rest, hdrop, hlo, hhi⟩ := segAt_spec hpl (o := m) (by omega)
  have hsplit : B = B.take (segAt B m) ++ s :: rest := by rw [← hdrop, List.take_append_drop]
  rw [hdrop]
  generalize B.take (segAt B m) = front at hsplit
  subst hsplit
  have hpl' := hpl.append
  rw [Nat.zero_add] at hpl'
  have hstart : s.targetOff = totalLen front := hpl'.1
  rw [totalLen_append] at hlt hend
  have hfront : (mapBytes base lits front).length = totalLen front :=
    length_mapBytes fun s' hs' => hr s' (List.mem_append_left _ hs')
  obtain ⟨out, hout, hrout, htot, hbytes⟩ := composeCopy_spec hb hl (s :: rest) s.targetOff m rem
    (fun s' hs' => hr s' (List.mem_append_right _ hs')) (hstart ▸ hpl') (by omega) hlo (by omega)
    (by
      intro s' hs'
      obtain rfl : s = s' := by simpa using hs'
      exact hhi)
  refine ⟨out, hout, hrout, htot, ?_⟩
  rw [hbytes, mapBytes_append, slice_append_right (by omega), hfront, hstart]

/-- One more file of literals leaves the segments of the files before it as they are. -/
theorem FlatSeg.InRange.append {s : FlatSeg} (hs : s.InRange base lits) (lit : Bytes) :
    s.InRange base (lits ++ [lit]) ∧
      s.bytes base (lits ++ [lit]) = s.bytes base lits := by
  obtain ⟨hpos, ⟨hk, hin⟩ | ⟨hk, lit', hlit, hin⟩⟩ := hs
  · refine ⟨⟨hpos, Or.inl ⟨hk, hin⟩⟩, ?_⟩
    rw [FlatSeg.bytes, FlatSeg.bytes, if_pos hk, if_pos hk]
  · have hlt := (List.getElem?_eq_some_iff.1 hlit).1
    have hlit' : (lits ++ [lit])[s.addSrc]? = some lit' := by
      rw [List.getElem?_append_left hlt, hlit]
    refine ⟨⟨hpos, Or.inr ⟨hk, lit', hlit', hin⟩⟩, ?_⟩
    rw [FlatSeg.bytes, FlatSeg.bytes, if_neg (by rw [hk]; decide), if_neg (by rw [hk]; decide),
      List.getD_eq_getElem?_getD, List.getD_eq_getElem?_getD, hlit', hlit]

theorem mapBytes_append_lit {segs : List FlatSeg} (h : ∀ s ∈ segs, s.InRange base lits)
    (lit : Bytes) : mapBytes base (lits ++ [lit]) segs = mapBytes base lits segs :=
  List.flatMap_congr fun s hs => ((h s hs).append lit).2

/-- **The segments of a delta, rewritten through the map of its base, stand for the bytes the delta
says.** -/
theorem composeSegs_spec (hb : base.length < 2 ^ 64) (hl : ∀ lit ∈ lits, lit.length < 2 ^ 64)
    {B : List FlatSeg} (hr : ∀ s ∈ B, s.InRange base lits) (hpl : Placed 0 B)
    (hlt : totalLen B < 2 ^ 64) (lit : Bytes) :
    ∀ segs : List RawSeg, (∀ s ∈ segs, s.InRange (totalLen B) lit.length) →
      ∃ out, composeSegs B lits.length segs = .ok out ∧
        (∀ s ∈ out, s.InRange base (lits ++ [lit])) ∧
        totalLen out = (segs.map RawSeg.len).sum ∧
        mapBytes base (lits ++ [lit]) out = rawBytes (mapBytes base lits B) lit segs := by
  intro segs
  induction segs with
  | nil => exact fun _ => ⟨[], rfl, by simp, rfl, rfl⟩
  | cons s segs ih =>
      intro hsegs
      obtain ⟨rest, hrest, hrrest, htot, hbytes⟩ := ih fun s' hs' => hsegs s' (by simp [hs'])
      -- the pieces of this segment
      obtain ⟨here, hhere, hrhere, hlen, hpiece⟩ : ∃ here,
          (if s.kind = KIND_ADD then .ok [⟨0, s.len, s.srcOff, lits.length, KIND_ADD⟩]
            else composeCopy (B.drop (segAt B s.srcOff)) s.srcOff s.len :
              Except String (List FlatSeg)) = .ok here ∧
          (∀ s' ∈ here, s'.InRange base (lits ++ [lit])) ∧ totalLen here = s.len ∧
          mapBytes base (lits ++ [lit]) here = s.bytes (mapBytes base lits B) lit := by
        have hnew : (lits ++ [lit])[lits.length]? = some lit := by simp
        obtain ⟨hpos, ⟨hk, hin⟩ | ⟨hk, hin⟩⟩ := hsegs s (by simp)
        · obtain ⟨here, hhere, hrhere, hlen, hpiece⟩ := composeCopy_segAt hb hl hr hpl hlt hpos hin
          refine ⟨here, ?_, fun s' hs' => ((hrhere s' hs').append lit).1, hlen, ?_⟩
          · rw [if_neg (by rw [hk]; decide), hhere]
          · rw [mapBytes_append_lit hrhere, hpiece, RawSeg.bytes, if_pos hk]
        · refine ⟨_, if_pos hk, ?_, by simp, ?_⟩
          · intro s' hs'
            obtain rfl := List.mem_singleton.1 hs'
            exact ⟨hpos, Or.inr ⟨rfl, lit, hnew, hin⟩⟩
          · rw [mapBytes_cons, mapBytes_nil, List.append_nil, FlatSeg.bytes, if_neg KIND_ADD_ne_COPY,
              List.getD_eq_getElem?_getD, hnew, Option.getD_some, RawSeg.bytes,
              if_neg (by rw [hk]; decide)]
      refine ⟨here ++ rest, ?_, ?_, ?_, ?_⟩
      · rw [composeSegs, hhere]
        dsimp only
        rw [hrest]
      · intro s' hs'
        rcases List.mem_append.1 hs' with hs' | hs'
        · exact hrhere s' hs'
        · exact hrrest s' hs'
      · rw [totalLen_append, hlen, htot, List.map_cons, List.sum_cons]
      · rw [mapBytes_append, hpiece, hbytes, rawBytes_cons]

end Compose

/-! ### `create` -/

section Create

variable {z : Zstd} {delta src : ByteSource} {P : Parsed} {base lit : Bytes} {io io₁ : Io}

/-- One file of literals. -/
theorem addsHold_one {A : AddSource} (h : A.Holds z lit) : AddsHold z [A] [lit] := by
  refine ⟨by simp, rfl, ?_⟩
  intro i A' lit' hA hlit
  cases i with
  | zero =>
      obtain rfl : A = A' := by simpa using hA
      obtain rfl : lit = lit' := by simpa using hlit
      exact h
  | succ i => simp at hA

/-- One more file of literals. -/
theorem AddsHold.append {adds : List AddSource} {lits : List Bytes} {A : AddSource}
    (h : AddsHold z adds lits) (hA : A.Holds z lit) (hn : adds.length < 2 ^ 24) :
    AddsHold z (adds ++ [A]) (lits ++ [lit]) := by
  have hlen := h.length_eq
  refine ⟨by simp; omega, by simp [hlen], ?_⟩
  intro i A' lit' hA' hlit'
  by_cases hi : i < adds.length
  · rw [List.getElem?_append_left hi] at hA'
    rw [List.getElem?_append_left (by omega)] at hlit'
    exact h.holds i A' lit' hA' hlit'
  · rw [List.getElem?_append_right (by omega), List.getElem?_singleton] at hA'
    rw [List.getElem?_append_right (by omega), List.getElem?_singleton] at hlit'
    split at hA'
    · rw [if_pos (by omega)] at hlit'
      rw [← Option.some_inj.1 hA', ← Option.some_inj.1 hlit']
      exact hA
    · simp at hA'

theorem AddsHold.lit_lt {adds : List AddSource} {lits : List Bytes} (h : AddsHold z adds lits) :
    ∀ lit ∈ lits, lit.length < 2 ^ 64 := by
  intro lit hlit
  obtain ⟨i, hi⟩ := List.getElem?_of_mem hlit
  have hlt : i < adds.length := h.length_eq ▸ (List.getElem?_eq_some_iff.1 hi).1
  exact (h.holds i _ lit (List.getElem?_eq_getElem hlt) hi).lit_lt

/-- The check of a base that delivers the bytes the header names. -/
theorem checkBase_spec (hsrc : src.Delivers base) (hsize : P.baseSize = base.length)
    (hmax : base.length < 2 ^ 63) (hhash : P.baseHash = (fnv1a64 base).toNat) (io : Io) :
    ∃ io', checkBase src P io = (.ok (), io') := by
  obtain ⟨t', ht'⟩ := fetch_delivers hsrc base.length 0 (by omega)
    { io with asked := base.length :: io.asked }
  refine ⟨{ clock := t', asked := base.length :: io.asked }, ?_⟩
  rw [checkBase, hsize, Prog.bind_of_ok (newVec_of_lt hmax io), Prog.bind_of_ok ht',
    slice_zero_length]
  dsimp only
  rw [if_neg (not_not.2 hhash.symm), Prog.pure_apply]

/-- **A delta over a plain base**: `create` returns a sound source, which stands for the bytes the
delta says. -/
theorem create_plain (hparse : parseDelta z delta io = (.ok P, io₁)) (hsrc : src.Delivers base)
    (hP : P.InRange base.length lit.length) (hadd : P.add.Holds z lit) (verifyBase : Bool)
    (hverify : verifyBase = true →
      P.baseHash = (fnv1a64 base).toNat ∧ base.length < 2 ^ 63) :
    ∃ (D : DeltaByteSource) (io' : Io),
      create z delta (some (.plain src)) verifyBase io = (.ok D, io') ∧ D.Sound z base [lit] ∧
        D.targetSize = P.targetSize ∧ D.baseSrc = src ∧ D.addSources = [P.add] ∧
        mapBytes base [lit] D.segs = rawBytes base lit P.segs := by
  have htot := totalLen_flat P.segs
  rw [hP.covers] at htot
  obtain ⟨D, hD, hsound, hsize, hbase, hadds, hbytes⟩ := finish_spec
    (P.segs.map fun s => ⟨0, s.len, s.srcOff, 0, s.kind⟩) hsrc (addsHold_one hadd)
    (by
      intro s hs
      obtain ⟨s₀, hs₀, rfl⟩ := List.mem_map.1 hs
      exact (hP.inRange s₀ hs₀).flat)
    (by rw [htot]; exact hP.targetSize_lt)
  rw [htot] at hD hsize
  have hbs : ¬ (Source.plain src).size ≠ P.baseSize :=
    not_not.2 (hsrc.size_eq.trans hP.baseSize_eq.symm)
  rw [create, Prog.bind_of_ok hparse]
  dsimp only
  rw [if_neg hbs]
  have hsum : D.Sound z base [lit] ∧ D.targetSize = P.targetSize ∧ D.baseSrc = src ∧
      D.addSources = [P.add] ∧ mapBytes base [lit] D.segs = rawBytes base lit P.segs :=
    ⟨hsound, hsize, hbase, hadds, by rw [hbytes, mapBytes_flat]⟩
  cases verifyBase with
  | false => exact ⟨D, io₁, hD io₁, hsum⟩
  | true =>
      obtain ⟨hhash, hmax⟩ := hverify rfl
      obtain ⟨io₂, hcheck⟩ := checkBase_spec hsrc hP.baseSize_eq hmax hhash io₁
      refine ⟨D, io₂, ?_, hsum⟩
      rw [if_pos rfl, Prog.bind_of_ok hcheck]
      exact hD io₂

/-- **A delta over the reader of another delta**: `create` returns a sound source over the same
ultimate base, which stands for the bytes the delta says of what that reader stands for. -/
theorem create_delta {bd : DeltaByteSource} {lits : List Bytes}
    (hparse : parseDelta z delta io = (.ok P, io₁)) (hbd : bd.Sound z base lits)
    (hn : bd.addSources.length < 2 ^ 24) (hP : P.InRange bd.targetSize lit.length)
    (hadd : P.add.Holds z lit) (verifyBase : Bool) :
    ∃ (D : DeltaByteSource) (io' : Io),
      create z delta (some (.delta bd)) verifyBase io = (.ok D, io') ∧
        D.Sound z base (lits ++ [lit]) ∧ D.targetSize = P.targetSize ∧ D.baseSrc = bd.baseSrc ∧
        D.addSources = bd.addSources ++ [P.add] ∧
        mapBytes base (lits ++ [lit]) D.segs = rawBytes (mapBytes base lits bd.segs) lit P.segs := by
  have hthis : bd.addSources.length % 2 ^ 32 = lits.length := by
    rw [Nat.mod_eq_of_lt (by omega), hbd.adds.length_eq]
  have htot := hbd.total
  have hlt := hbd.size_lt
  obtain ⟨segs, hsegs, hrange, hlen, hbytes⟩ := composeSegs_spec hbd.base_delivers.length_lt
    hbd.adds.lit_lt hbd.inRange hbd.placed (by omega) lit P.segs (by rw [htot]; exact hP.inRange)
  rw [hP.covers] at hlen
  obtain ⟨D, hD, hsound, hsize, hbase, hadds, hmap⟩ := finish_spec segs
    hbd.base_delivers (hbd.adds.append hadd hn) hrange (by rw [hlen]; exact hP.targetSize_lt)
  rw [hlen] at hD hsize
  refine ⟨D, io₁, ?_, hsound, hsize, hbase, hadds, hmap.trans hbytes⟩
  have hbs : ¬ (Source.delta bd).size ≠ P.baseSize := not_not.2 hP.baseSize_eq.symm
  rw [create, Prog.bind_of_ok hparse]
  dsimp only
  rw [if_neg hbs, hthis, hsegs]
  exact hD io₁

end Create

end VidyaGodFS
