/-
**Which malformed deltas are refused.**

The parser reads from the file how long each compressed table is and asks for a buffer of that
length before it reads the table.  A file that ends before the length it declares is refused, but the
buffer was asked for; and a length that no vector can have makes `std::vector` throw, which nothing
on the way out of `create` catches.  All else that can be wrong with a file comes back as a message.

On a file that delivers its bytes the parser is a function of those bytes, `parseBytes`, and the
buffers it asks for can be told from them.  Memory that runs out is not modelled: a vector that can
have its length is built.

Main definitions:

* `tableOutcome`, `parseBytes` — the parse as a function of the bytes, with the buffers asked for;
* `frameAsks` — of these, the buffers for compressed tables;
* `AtWorstRefused` — a call of `create` comes back, and asked for no buffer longer than the file;
* `Declares`, `TableFits`, `TableGood` — what the bytes say of a table;
* `DeclaresWithin` — no table that is reached declares a compressed length beyond the file;
* `ParseEnds` — how a parse ends, by what the bytes say.

Main results:

* `parseDelta_eq` — the parser is the function of the bytes;
* `parseBytes_ends` — how it ends, whatever the file;
* `create_atWorstRefused_iff` — **which files are at worst refused**;
* `longTable_not_refused` — two files that are not.
-/

import VidyaGodFS.DeltaAccept
import VidyaGodFS.ZipPlain

set_option relaxedAutoImplicit false
set_option autoImplicit false

namespace VidyaGodFS

/-! ### The parse as a function of the bytes -/

/-- The table at `off`, of `count` records of `width` bytes, and the buffers asked for so far. -/
def tableOutcome (z : Zstd) (bytes : Bytes) (msgs : TableMsgs) (off count width : ℕ)
    (asked : List ℕ) : Except DeltaErr (Bytes × ℕ) × List ℕ :=
  let clen := rd64 bytes off
  let raw := zDecompress z (slice bytes (off + 16) clen) (count * width)
  if bytes.length < off + 16 then (.error (.refused msgs.shortLens), asked) else
  if rd64 bytes (off + 8) ≠ count * width then (.error (.refused msgs.mismatch), asked) else
  if 2 ^ 63 ≤ clen then (.error .threw, clen :: asked) else
  if clen ≠ 0 ∧ bytes.length < off + 16 + clen then (.error (.refused msgs.short), clen :: asked) else
  if raw.length ≠ count * width then
    (.error (.refused msgs.corrupt), count * width :: clen :: asked)
  else (.ok (raw, clen), count * width :: clen :: asked)

/-- The whole file; `delta` is the source its literals stay in. -/
def parseBytes (z : Zstd) (delta : ByteSource) (bytes : Bytes) :
    Except DeltaErr Parsed × List ℕ :=
  if bytes.length < HEADER_SIZE then (.error (.refused "vgdelta: short header"), []) else
  if slice bytes 0 4 ≠ MAGIC then (.error (.refused "vgdelta: bad magic"), []) else
  if rd32 bytes 4 ≠ VERSION then (.error (.refused "vgdelta: unsupported version"), []) else
  if rd32 bytes 8 = 0 then (.error (.refused "vgdelta: zero block size"), []) else
  match tableOutcome z bytes segMsgs HEADER_SIZE (rd32 bytes 36) 17 [] with
  | (.error e, asked) => (.error e, asked)
  | (.ok (rawSegs, clen), asked) =>
      let segs := cutRecords 17 RawSeg.decode (rd32 bytes 36) rawSegs
      if sumLen segs ≠ rd64 bytes 12 then
        (.error (.refused "vgdelta: segments do not cover target"), asked)
      else
        match tableOutcome z bytes blkMsgs (HEADER_SIZE + (16 + clen)) (rd32 bytes 40) 16 asked with
        | (.error e, asked) => (.error e, asked)
        | (.ok (rawBlks, clen'), asked) =>
            (.ok ⟨rd64 bytes 12, rd64 bytes 20, rd64 bytes 28, segs, ⟨delta,
              add64 (HEADER_SIZE + (16 + clen)) (add64 16 clen'), rd32 bytes 8,
              cutRecords 16 BlockRec.decode (rd32 bytes 40) rawBlks⟩⟩, asked)

/-- A table that is read lies inside the file. -/
theorem tableOutcome_inside {z : Zstd} {bytes raw : Bytes} {msgs : TableMsgs}
    {off count width clen : ℕ} {asked asked' : List ℕ}
    (h : tableOutcome z bytes msgs off count width asked = (.ok (raw, clen), asked')) :
    off + 16 + clen ≤ bytes.length := by
  rw [tableOutcome] at h
  split at h
  · cases h
  split at h
  · cases h
  split at h
  · cases h
  split at h
  · cases h
  split at h
  · cases h
  · cases h
    omega

section Bytes

variable {z : Zstd} {delta : ByteSource} {bytes : Bytes}

/-- An exact read of a file, on the clock. -/
theorem fetch_bytesAt (h : delta.Delivers bytes) (hend : delta.EndsAtSize) (n off : ℕ) (io : Io) :
    ∃ t', fetch delta n off io = (.ok (bytesAt bytes n off), { io with clock := t' }) := by
  obtain ⟨t', ht'⟩ := preadAll_bytesAt (ε := DeltaErr) h hend n off io.clock
  exact ⟨t', by rw [fetch, Prog.zoom_apply, ht']⟩

/-- **A table is read as the bytes have it.** -/
theorem readTable_eq (h : delta.Delivers bytes) (hend : delta.EndsAtSize) (msgs : TableMsgs)
    (off count width : ℕ) (hcw : count * width < 2 ^ 63) (io : Io) :
    ∃ t', readTable z delta msgs off count width io
      = ((tableOutcome z bytes msgs off count width io.asked).1,
        ⟨t', (tableOutcome z bytes msgs off count width io.asked).2⟩) := by
  have hlt := h.length_lt
  obtain ⟨t₁, h₁⟩ := fetch_bytesAt h hend 16 off io
  rw [readTable, Prog.bind_of_ok h₁, tableOutcome, bytesAt]
  dsimp only
  by_cases hlens : bytes.length < off + 16
  · rw [if_neg (by omega), if_pos hlens]
    exact ⟨t₁, rfl⟩
  · have hclen : leNat (slice (slice bytes off 16) 0 8) = rd64 bytes off := by
      rw [slice_slice (by omega), Nat.add_zero, rd64]
    have hulen : leNat (slice (slice bytes off 16) 8 8) = rd64 bytes (off + 8) := by
      rw [slice_slice (by omega), rd64]
    rw [if_pos (Or.inr (by omega)), if_neg hlens]
    dsimp only
    rw [hclen, hulen]
    by_cases hmis : rd64 bytes (off + 8) ≠ count * width
    · rw [if_pos hmis, if_pos hmis]
      exact ⟨t₁, rfl⟩
    · rw [if_neg hmis, if_neg hmis, not_not.1 hmis]
      by_cases hbig : 2 ^ 63 ≤ rd64 bytes off
      · have hvec : newVec (rd64 bytes off) { io with clock := t₁ }
            = (.error .threw, ⟨t₁, rd64 bytes off :: io.asked⟩) := by
          rw [newVec, if_pos hbig]
        rw [Prog.bind_of_error hvec, if_pos hbig]
        exact ⟨t₁, rfl⟩
      · rw [Prog.bind_of_ok (newVec_of_lt (by omega) _), if_neg hbig]
        -- the frame, from inside the file or not at all
        obtain ⟨t₂, h₂⟩ : ∃ t₂, (if rd64 bytes off = 0 then pure (some [])
            else fetch delta (rd64 bytes off) (add64 off 16)) ⟨t₁, rd64 bytes off :: io.asked⟩
            = (.ok (bytesAt bytes (rd64 bytes off) (off + 16)),
              ⟨t₂, rd64 bytes off :: io.asked⟩) := by
          by_cases h0 : rd64 bytes off = 0
          · rw [if_pos h0, bytesAt, if_pos (Or.inl h0), h0, slice_zero]
            exact ⟨t₁, rfl⟩
          · rw [if_neg h0, add64_eq (by omega)]
            exact fetch_bytesAt h hend _ _ _
        rw [Prog.bind_of_ok h₂, bytesAt]
        by_cases hshort : rd64 bytes off ≠ 0 ∧ bytes.length < off + 16 + rd64 bytes off
        · rw [if_neg (by omega), if_pos hshort]
          exact ⟨t₂, rfl⟩
        · rw [if_pos (by omega), if_neg hshort]
          dsimp only
          rw [Prog.bind_of_ok (newVec_of_lt hcw _)]
          by_cases hraw : (zDecompress z (slice bytes (off + 16) (rd64 bytes off))
              (count * width)).length ≠ count * width
          · rw [if_pos hraw, if_pos hraw]
            exact ⟨t₂, rfl⟩
          · rw [if_neg hraw, if_neg hraw]
            exact ⟨t₂, rfl⟩

/-- **The parser is the function of the bytes**, whatever short reads its source makes. -/
theorem parseDelta_eq (h : delta.Delivers bytes) (hend : delta.EndsAtSize) (t : ℕ) :
    ∃ t', parseDelta z delta ⟨t, []⟩
      = ((parseBytes z delta bytes).1, ⟨t', (parseBytes z delta bytes).2⟩) := by
  have hlt := h.length_lt
  obtain ⟨t₁, h₁⟩ := fetch_bytesAt h hend HEADER_SIZE 0 ⟨t, []⟩
  have hH : HEADER_SIZE = 44 := rfl
  rw [parseDelta, Prog.bind_of_ok h₁, parseBytes, bytesAt]
  dsimp only
  by_cases hshort : bytes.length < HEADER_SIZE
  · rw [if_neg (by omega), if_pos hshort]
    exact ⟨t₁, rfl⟩
  · -- the fields of the header
    have hfield : ∀ off n, off + n ≤ HEADER_SIZE →
        slice (slice bytes 0 HEADER_SIZE) off n = slice bytes off n := by
      intro off n hn
      rw [slice_slice hn, Nat.zero_add]
    have h32 : ∀ off, off + 4 ≤ HEADER_SIZE →
        leNat (slice (slice bytes 0 HEADER_SIZE) off 4) = rd32 bytes off :=
      fun off hn => congrArg leNat (hfield off 4 hn)
    have h64 : ∀ off, off + 8 ≤ HEADER_SIZE →
        leNat (slice (slice bytes 0 HEADER_SIZE) off 8) = rd64 bytes off :=
      fun off hn => congrArg leNat (hfield off 8 hn)
    rw [if_pos (Or.inr (by omega)), if_neg hshort]
    dsimp only
    rw [hfield 0 4 (by decide), h32 4 (by decide), h32 8 (by decide), h64 12 (by decide),
      h64 20 (by decide), h64 28 (by decide), h32 36 (by decide), h32 40 (by decide)]
    by_cases hmagic : slice bytes 0 4 ≠ MAGIC
    · rw [if_pos hmagic, if_pos hmagic]
      exact ⟨t₁, rfl⟩
    rw [if_neg hmagic, if_neg hmagic]
    by_cases hver : rd32 bytes 4 ≠ VERSION
    · rw [if_pos hver, if_pos hver]
      exact ⟨t₁, rfl⟩
    rw [if_neg hver, if_neg hver]
    by_cases hbs : rd32 bytes 8 = 0
    · rw [if_pos hbs, if_pos hbs]
      exact ⟨t₁, rfl⟩
    rw [if_neg hbs, if_neg hbs]
    -- the two tables
    have hnum : ∀ off, rd32 bytes off < 2 ^ 32 := fun off => leNat_slice_lt _ _ (by norm_num)
    have hseg := hnum 36
    have hblk := hnum 40
    obtain ⟨t₂, h₂⟩ := readTable_eq (z := z) h hend segMsgs HEADER_SIZE (rd32 bytes 36) 17 (by omega)
      ⟨t₁, []⟩
    cases hout : tableOutcome z bytes segMsgs HEADER_SIZE (rd32 bytes 36) 17 [] with
    | mk r asked =>
        rw [hout] at h₂
        rcases r with e | ⟨rawSegs, clen⟩
        · rw [Prog.bind_of_error h₂]
          exact ⟨t₂, rfl⟩
        · have hin := tableOutcome_inside hout
          rw [Prog.bind_of_ok h₂]
          dsimp only
          by_cases hsum : sumLen (cutRecords 17 RawSeg.decode (rd32 bytes 36) rawSegs) ≠ rd64 bytes 12
          · rw [if_pos hsum, if_pos hsum]
            exact ⟨t₂, rfl⟩
          · rw [if_neg hsum, if_neg hsum, add64_eq (a := 16) (by omega), add64_eq (by omega)]
            obtain ⟨t₃, h₃⟩ := readTable_eq (z := z) h hend blkMsgs (HEADER_SIZE + (16 + clen))
              (rd32 bytes 40) 16 (by omega) ⟨t₂, asked⟩
            cases hout₂ : tableOutcome z bytes blkMsgs (HEADER_SIZE + (16 + clen)) (rd32 bytes 40) 16
                asked with
            | mk r asked' =>
                rw [hout₂] at h₃
                rcases r with e | ⟨rawBlks, clen'⟩
                · rw [Prog.bind_of_error h₃]
                  exact ⟨t₃, rfl⟩
                · rw [Prog.bind_of_ok h₃]
                  exact ⟨t₃, rfl⟩

end Bytes

/-! ### What the bytes say -/

/-- The buffers for compressed tables: of those that a parse asks for, last first, the first and the
third. -/
def frameAsks (asked : List ℕ) : List ℕ :=
  (asked.reverse[0]?).toList ++ (asked.reverse[2]?).toList

/-- **A call of `create` on the file `bytes` at worst refuses it**: it returns a source or a message,
and no buffer it asked for to hold a compressed table is longer than the file. -/
def AtWorstRefused (bytes : Bytes) (r : Except DeltaErr DeltaByteSource × Io) : Prop :=
  ((∃ D, r.1 = .ok D) ∨ ∃ msg, r.1 = .error (.refused msg)) ∧
    ∀ n ∈ frameAsks r.2.asked, n ≤ bytes.length

/-- The two lengths of a table stand at `off`, and its raw length is that of `count` records of
`width` bytes. -/
def Declares (bytes : Bytes) (off count width : ℕ) : Prop :=
  off + 16 ≤ bytes.length ∧ rd64 bytes (off + 8) = count * width

/-- **The declared length of the compressed table is no longer than the file**, and one that a vector
can have. -/
def TableFits (bytes : Bytes) (off count width : ℕ) : Prop :=
  Declares bytes off count width → rd64 bytes off ≤ bytes.length ∧ rd64 bytes off < 2 ^ 63

/-- The table at `off` is there in full, of a length that a vector can have, and decompresses to its
raw length. -/
def TableGood (z : Zstd) (bytes : Bytes) (off count width : ℕ) : Prop :=
  Declares bytes off count width ∧ rd64 bytes off < 2 ^ 63 ∧
    (rd64 bytes off = 0 ∨ off + 16 + rd64 bytes off ≤ bytes.length) ∧
    (zDecompress z (slice bytes (off + 16) (rd64 bytes off)) (count * width)).length = count * width

/-- The header says that this is a delta. -/
def HeaderGood (bytes : Bytes) : Prop :=
  HEADER_SIZE ≤ bytes.length ∧ slice bytes 0 4 = MAGIC ∧ rd32 bytes 4 = VERSION ∧ rd32 bytes 8 ≠ 0

/-- The segment table is there, and its segments make up the target. -/
def SegsGood (z : Zstd) (bytes : Bytes) : Prop :=
  TableGood z bytes HEADER_SIZE (rd32 bytes 36) 17 ∧
    sumLen (cutRecords 17 RawSeg.decode (rd32 bytes 36) (zDecompress z
      (slice bytes (HEADER_SIZE + 16) (rd64 bytes HEADER_SIZE)) (rd32 bytes 36 * 17)))
      = rd64 bytes 12

/-- Where the block index stands. -/
def blkOff (bytes : Bytes) : ℕ := HEADER_SIZE + (16 + rd64 bytes HEADER_SIZE)

/-- **What a file must not declare**: a compressed segment table longer than the file, or, after a
good segment table, a compressed block index longer than the file. -/
def DeclaresWithin (z : Zstd) (bytes : Bytes) : Prop :=
  HeaderGood bytes → TableFits bytes HEADER_SIZE (rd32 bytes 36) 17 ∧
    (SegsGood z bytes → TableFits bytes (blkOff bytes) (rd32 bytes 40) 16)

/-- The whole file parses. -/
def FileGood (z : Zstd) (bytes : Bytes) : Prop :=
  HeaderGood bytes ∧ SegsGood z bytes ∧ TableGood z bytes (blkOff bytes) (rd32 bytes 40) 16

/-- The base that an authoring check would read into a buffer has a length that a vector can have. -/
def CheckFits (z : Zstd) (bytes : Bytes) (base : Option Source) (verifyBase : Bool) : Prop :=
  verifyBase = true → ∀ src, base = some (.plain src) → FileGood z bytes →
    src.size = rd64 bytes 20 → src.size < 2 ^ 63

/-- How a table comes out, by what the bytes say of it. -/
inductive TableRun (z : Zstd) (bytes : Bytes) (off count width : ℕ) (asked : List ℕ) :
    Except DeltaErr (Bytes × ℕ) × List ℕ → Prop
  | unread (msg : String) : ¬ Declares bytes off count width →
      TableRun z bytes off count width asked (.error (.refused msg), asked)
  | threw : Declares bytes off count width → 2 ^ 63 ≤ rd64 bytes off →
      TableRun z bytes off count width asked (.error .threw, rd64 bytes off :: asked)
  | bad (msg : String) {more : List ℕ} : Declares bytes off count width → rd64 bytes off < 2 ^ 63 →
      ¬ TableGood z bytes off count width → more.length ≤ 1 →
      TableRun z bytes off count width asked
        (.error (.refused msg), more ++ rd64 bytes off :: asked)
  | good : TableGood z bytes off count width →
      TableRun z bytes off count width asked
        (.ok (zDecompress z (slice bytes (off + 16) (rd64 bytes off)) (count * width),
          rd64 bytes off), count * width :: rd64 bytes off :: asked)

theorem tableOutcome_run (z : Zstd) (bytes : Bytes) (msgs : TableMsgs) (off count width : ℕ)
    (asked : List ℕ) :
    TableRun z bytes off count width asked
      (tableOutcome z bytes msgs off count width asked) := by
  rw [tableOutcome]
  split
  · exact .unread _ fun h => by have := h.1; omega
  · rename_i hlens
    split
    · rename_i hmis
      exact .unread _ fun h => hmis h.2
    · rename_i hmis
      have hdecl : Declares bytes off count width := ⟨by omega, not_not.1 hmis⟩
      split
      · rename_i hbig
        exact .threw hdecl hbig
      · rename_i hbig
        split
        · rename_i hshort
          have hbad : ¬ TableGood z bytes off count width := fun hgood => by
            have := hgood.2.2.1
            omega
          exact @TableRun.bad z bytes off count width asked _ [] hdecl (by omega) hbad (by simp)
        · rename_i hshort
          split
          · rename_i hraw
            exact @TableRun.bad z bytes off count width asked _ [_] hdecl (by omega)
              (fun hgood => hraw hgood.2.2.2) (by simp)
          · rename_i hraw
            exact .good ⟨hdecl, by omega, by omega, not_not.1 hraw⟩

/-- A call that does not throw comes back with a source or with a message. -/
theorem settled_iff {α : Type} {r : Except DeltaErr α} :
    ((∃ D, r = .ok D) ∨ ∃ msg, r = .error (.refused msg)) ↔ r ≠ .error .threw := by
  rcases r with e | D
  · cases e <;> simp
  · simp

/-- The end of `create` throws nothing and asks for nothing. -/
theorem finish_settles (base : ByteSource) (adds : List AddSource) (segs : List FlatSeg)
    (targetSize : ℕ) (io : Io) :
    (finish base adds segs targetSize io).1 ≠ .error .threw ∧
      (finish base adds segs targetSize io).2 = io := by
  rw [finish]
  split
  · exact ⟨by simp [refuse], rfl⟩
  · exact ⟨by simp, rfl⟩

/-- The check of a base throws exactly when no vector can have the length of the base. -/
theorem checkBase_run (base : ByteSource) (P : Parsed) (io : Io) :
    ∃ r t', checkBase base P io = (r, ⟨t', P.baseSize :: io.asked⟩) ∧
      (r = .error .threw ↔ 2 ^ 63 ≤ P.baseSize) := by
  rw [checkBase]
  by_cases hbig : 2 ^ 63 ≤ P.baseSize
  · have hvec : newVec P.baseSize io
        = (.error .threw, { io with asked := P.baseSize :: io.asked }) := by
      rw [newVec, if_pos hbig]
    rw [Prog.bind_of_error hvec]
    exact ⟨_, io.clock, rfl, iff_of_true rfl hbig⟩
  · rw [Prog.bind_of_ok (newVec_of_lt (by omega) io)]
    obtain ⟨r, t', hread⟩ := preadAll_ends (ε := DeltaErr) base P.baseSize 0 io.clock
    have hfetch : fetch base P.baseSize 0 { io with asked := P.baseSize :: io.asked }
        = (.ok r, ⟨t', P.baseSize :: io.asked⟩) := by
      rw [fetch, Prog.zoom_apply, hread]
    rw [Prog.bind_of_ok hfetch]
    rcases r with _ | b
    · exact ⟨_, t', rfl, iff_of_false (by simp) hbig⟩
    · dsimp only
      split
      · exact ⟨_, t', rfl, iff_of_false (by simp) hbig⟩
      · exact ⟨_, t', rfl, iff_of_false (by simp) hbig⟩

/-- **After the parse** nothing throws but the buffer for a base to be checked, and it is the last
one asked for. -/
theorem create_after {z : Zstd} {delta : ByteSource} {io io₁ : Io} {P : Parsed}
    (h : parseDelta z delta io = (.ok P, io₁)) (base : Option Source) (v : Bool) :
    ((create z delta base v io).1 ≠ .error .threw ↔
      (v = true → ∀ src, base = some (.plain src) → src.size = P.baseSize → src.size < 2 ^ 63)) ∧
    ((create z delta base v io).2.asked = io₁.asked ∨
      (create z delta base v io).2.asked = P.baseSize :: io₁.asked) := by
  rw [create, Prog.bind_of_ok h]
  cases base with
  | none => exact ⟨by simp [refuse], Or.inl rfl⟩
  | some b =>
      dsimp only
      by_cases hsize : b.size ≠ P.baseSize
      · rw [if_pos hsize]
        refine ⟨⟨fun _ _ src hsrc heq => ?_, fun _ => by simp [refuse]⟩, Or.inl rfl⟩
        obtain rfl := Option.some_inj.1 hsrc
        exact absurd heq hsize
      · rw [if_neg hsize]
        cases b with
        | delta bd =>
            dsimp only
            rcases hsegs : composeSegs bd.segs (bd.addSources.length % 2 ^ 32) P.segs with e | segs
            · exact ⟨by simp [refuse], Or.inl rfl⟩
            · obtain ⟨hthrew, hio⟩ := finish_settles bd.baseSrc (bd.addSources ++ [P.add]) segs
                P.targetSize io₁
              exact ⟨by simp [hthrew], Or.inl (by rw [hio])⟩
        | plain src =>
            dsimp only
            have hfinish := finish_settles src [P.add]
              (P.segs.map fun s => ⟨0, s.len, s.srcOff, 0, s.kind⟩) P.targetSize
            cases v with
            | false =>
                obtain ⟨hthrew, hio⟩ := hfinish io₁
                exact ⟨⟨fun _ hv => by simp at hv, fun _ => hthrew⟩, Or.inl (congrArg Io.asked hio)⟩
            | true =>
                rw [not_not] at hsize
                have hsrc : src.size = P.baseSize := hsize
                rw [if_pos rfl]
                obtain ⟨r, t', hcheck, hthrew⟩ := checkBase_run src P io₁
                rcases r with e | u
                · rw [Prog.bind_of_error hcheck]
                  refine ⟨?_, Or.inr rfl⟩
                  have hiff : (Except.error e : Except DeltaErr DeltaByteSource) = .error .threw ↔
                      2 ^ 63 ≤ P.baseSize := by
                    rw [← hthrew]
                    simp
                  rw [Ne, hiff, not_le]
                  exact ⟨fun hlt _ _ heq _ => by
                    obtain rfl := Source.plain.inj (Option.some_inj.1 heq)
                    rwa [hsrc], fun hlt => hsrc ▸ hlt rfl src rfl hsrc⟩
                · rw [Prog.bind_of_ok hcheck]
                  obtain ⟨hres, hio⟩ := hfinish ⟨t', P.baseSize :: io₁.asked⟩
                  have hlt : P.baseSize < 2 ^ 63 := by
                    by_contra hge
                    exact absurd (hthrew.2 (by omega)) (by simp)
                  refine ⟨⟨fun _ _ src' heq hsz => ?_, fun _ => hres⟩, Or.inr (congrArg Io.asked hio)⟩
                  rw [hsz]
                  exact hlt

/-! ### Which files are refused -/

/-- What is asked for after the third buffer holds no compressed table. -/
theorem frameAsks_cons {asked : List ℕ} (n : ℕ) (h : 3 ≤ asked.length) :
    frameAsks (n :: asked) = frameAsks asked := by
  have hrev : 3 ≤ asked.reverse.length := by rwa [List.length_reverse]
  rw [frameAsks, frameAsks, List.reverse_cons, List.getElem?_append_left (by omega),
    List.getElem?_append_left (by omega)]

/-- A table that is there in full is no longer than the file. -/
theorem TableGood.fits {z : Zstd} {bytes : Bytes} {off count width : ℕ}
    (h : TableGood z bytes off count width) :
    rd64 bytes off ≤ bytes.length ∧ rd64 bytes off < 2 ^ 63 := by
  obtain ⟨_, hlt, hin, _⟩ := h
  exact ⟨by omega, hlt⟩

/-- How a parse of the file `bytes` ends: it asks for no compressed table longer than the file, and
does not throw, exactly when the file declares none; and it goes through exactly when the file is
good. -/
structure ParseEnds (z : Zstd) (bytes : Bytes) (r : Except DeltaErr Parsed × List ℕ) : Prop where
  within : (r.1 ≠ .error .threw ∧ ∀ n ∈ frameAsks r.2, n ≤ bytes.length) ↔ DeclaresWithin z bytes
  parses : (∃ P, r.1 = .ok P) ↔ FileGood z bytes
  fields : ∀ P, r.1 = .ok P → P.baseSize = rd64 bytes 20 ∧ 3 ≤ r.2.length

section Ends

variable {z : Zstd} {bytes : Bytes}

/-- A file that is not good is refused. -/
theorem ParseEnds.refused {msg : String} {asked : List ℕ} (hfile : ¬ FileGood z bytes)
    (hiff : (∀ n ∈ frameAsks asked, n ≤ bytes.length) ↔ DeclaresWithin z bytes) :
    ParseEnds z bytes (.error (.refused msg), asked) where
  within := ⟨fun h => hiff.1 h.2, fun h => ⟨by simp, hiff.2 h⟩⟩
  parses := iff_of_false (by simp) hfile
  fields P hP := by simp at hP

/-- A file with a table that no vector can hold is not. -/
theorem ParseEnds.threw {asked : List ℕ} (hfile : ¬ FileGood z bytes)
    (hwithin : ¬ DeclaresWithin z bytes) : ParseEnds z bytes (.error .threw, asked) where
  within := iff_of_false (fun h => h.1 rfl) hwithin
  parses := iff_of_false (by simp) hfile
  fields P hP := by simp at hP

/-- A file whose header is wrong is refused before anything is asked for. -/
theorem ParseEnds.header {msg : String} (h : ¬ HeaderGood bytes) :
    ParseEnds z bytes (.error (.refused msg), []) :=
  .refused (fun hfile => h hfile.1)
    (iff_of_true (by simp [frameAsks]) fun hgood => absurd hgood h)

/-- **The segment table goes wrong.** -/
theorem segTable_ends (hgood : HeaderGood bytes) {e : DeltaErr} {asked : List ℕ}
    (hrun : TableRun z bytes HEADER_SIZE (rd32 bytes 36) 17 [] (.error e, asked)) :
    ParseEnds z bytes (.error e, asked) := by
  cases hrun with
  | unread msg hdecl =>
      exact .refused (fun hfile => hdecl hfile.2.1.1.1) (iff_of_true (by simp [frameAsks])
        fun _ => ⟨fun h => absurd h hdecl, fun h => absurd h.1.1 hdecl⟩)
  | threw hdecl hbig =>
      refine .threw ?_ ?_
      · intro hfile
        have := hfile.2.1.1.2.1
        omega
      · intro hwithin
        have := ((hwithin hgood).1 hdecl).2
        omega
  | @bad msg more hdecl hlt htab hmore =>
      have hasks : frameAsks (more ++ [rd64 bytes HEADER_SIZE]) = [rd64 bytes HEADER_SIZE] := by
        rcases more with _ | ⟨n, _ | ⟨m, more⟩⟩
        · rfl
        · rfl
        · simp at hmore
      refine .refused (fun hfile => htab hfile.2.1.1) ?_
      rw [hasks]
      constructor
      · intro hle _
        exact ⟨fun _ => ⟨hle _ (by simp), hlt⟩, fun hsegs => absurd hsegs.1 htab⟩
      · intro hwithin n hn
        obtain rfl := List.mem_singleton.1 hn
        exact ((hwithin hgood).1 hdecl).1

/-- After a good segment table it is the block index that must not be declared too long. -/
theorem declaresWithin_iff (hgood : HeaderGood bytes) (hsegs : SegsGood z bytes) :
    DeclaresWithin z bytes ↔ TableFits bytes (blkOff bytes) (rd32 bytes 40) 16 :=
  ⟨fun h => (h hgood).2 hsegs, fun h _ => ⟨fun _ => hsegs.1.fits, fun _ => h⟩⟩

/-- **The block index goes wrong**, after a good segment table. -/
theorem blkTable_ends (hgood : HeaderGood bytes) (hsegs : SegsGood z bytes) {e : DeltaErr}
    {asked : List ℕ} (hrun : TableRun z bytes (blkOff bytes) (rd32 bytes 40) 16
      [rd32 bytes 36 * 17, rd64 bytes HEADER_SIZE] (.error e, asked)) :
    ParseEnds z bytes (.error e, asked) := by
  have hfits := hsegs.1.fits
  have hwithin := declaresWithin_iff hgood hsegs
  cases hrun with
  | unread msg hdecl =>
      refine .refused (fun hfile => hdecl hfile.2.2.1) (iff_of_true ?_ ?_)
      · intro n hn
        obtain rfl : n = rd64 bytes HEADER_SIZE := by simpa [frameAsks] using hn
        exact hfits.1
      · exact hwithin.2 fun h => absurd h hdecl
  | threw hdecl hbig =>
      refine .threw ?_ ?_
      · intro hfile
        have := hfile.2.2.2.1
        omega
      · intro h
        have := (hwithin.1 h hdecl).2
        omega
  | @bad msg more hdecl hlt htab hmore =>
      have hasks : frameAsks (more ++ rd64 bytes (blkOff bytes) :: [rd32 bytes 36 * 17,
          rd64 bytes HEADER_SIZE]) = [rd64 bytes HEADER_SIZE, rd64 bytes (blkOff bytes)] := by
        rcases more with _ | ⟨n, _ | ⟨m, more⟩⟩
        · rfl
        · rfl
        · simp at hmore
      refine .refused (fun hfile => htab hfile.2.2) ?_
      rw [hasks, hwithin]
      constructor
      · exact fun hle _ => ⟨hle _ (by simp), hlt⟩
      · intro hfit n hn
        rcases List.mem_pair.1 hn with rfl | rfl
        · exact hfits.1
        · exact (hfit hdecl).1

/-- Both tables are there. -/
theorem ParseEnds.parsed (hgood : HeaderGood bytes) (hsegs : SegsGood z bytes)
    (htab : TableGood z bytes (blkOff bytes) (rd32 bytes 40) 16) {P : Parsed}
    (hP : P.baseSize = rd64 bytes 20) {n m : ℕ} :
    ParseEnds z bytes (.ok P, [m, rd64 bytes (blkOff bytes), n, rd64 bytes HEADER_SIZE]) where
  within := by
    refine iff_of_true ⟨by simp, fun x hx => ?_⟩
      ((declaresWithin_iff hgood hsegs).2 fun _ => htab.fits)
    obtain rfl | rfl : x = rd64 bytes HEADER_SIZE ∨ x = rd64 bytes (blkOff bytes) := by
      simpa [frameAsks] using hx
    · exact hsegs.1.fits.1
    · exact htab.fits.1
  parses := iff_of_true ⟨_, rfl⟩ ⟨hgood, hsegs, htab⟩
  fields Q hQ := by
    obtain rfl := Except.ok.inj hQ
    exact ⟨hP, by simp⟩

/-- **The parse**, whatever the file. -/
theorem parseBytes_ends (z : Zstd) (delta : ByteSource) (bytes : Bytes) :
    ParseEnds z bytes (parseBytes z delta bytes) := by
  rw [parseBytes]
  by_cases hshort : bytes.length < HEADER_SIZE
  · rw [if_pos hshort]
    exact .header fun h => absurd h.1 (by omega)
  rw [if_neg hshort]
  by_cases hmagic : slice bytes 0 4 ≠ MAGIC
  · rw [if_pos hmagic]
    exact .header fun h => hmagic h.2.1
  rw [if_neg hmagic]
  by_cases hver : rd32 bytes 4 ≠ VERSION
  · rw [if_pos hver]
    exact .header fun h => hver h.2.2.1
  rw [if_neg hver]
  by_cases hbs : rd32 bytes 8 = 0
  · rw [if_pos hbs]
    exact .header fun h => h.2.2.2 hbs
  rw [if_neg hbs]
  have hgood : HeaderGood bytes := ⟨by omega, not_not.1 hmagic, not_not.1 hver, hbs⟩
  -- the segment table
  have hrun := tableOutcome_run z bytes segMsgs HEADER_SIZE (rd32 bytes 36) 17 []
  generalize tableOutcome z bytes segMsgs HEADER_SIZE (rd32 bytes 36) 17 [] = first at hrun ⊢
  rcases first with ⟨e | ⟨rawSegs, clen⟩, asked⟩
  · exact segTable_ends hgood hrun
  cases hrun with
  | good htab =>
      dsimp only
      by_cases hsum : sumLen (cutRecords 17 RawSeg.decode (rd32 bytes 36) (zDecompress z
          (slice bytes (HEADER_SIZE + 16) (rd64 bytes HEADER_SIZE)) (rd32 bytes 36 * 17)))
          ≠ rd64 bytes 12
      · rw [if_pos hsum]
        refine .refused (fun hfile => hsum hfile.2.1.2) (iff_of_true ?_ ?_)
        · intro n hn
          obtain rfl : n = rd64 bytes HEADER_SIZE := by simpa [frameAsks] using hn
          exact htab.fits.1
        · exact fun _ => ⟨fun _ => htab.fits, fun hsegs => absurd hsegs.2 hsum⟩
      rw [if_neg hsum]
      have hsegs : SegsGood z bytes := ⟨htab, not_not.1 hsum⟩
      -- the block index
      have hrun := tableOutcome_run z bytes blkMsgs (blkOff bytes) (rd32 bytes 40) 16
        [rd32 bytes 36 * 17, rd64 bytes HEADER_SIZE]
      rw [← blkOff]
      generalize tableOutcome z bytes blkMsgs (blkOff bytes) (rd32 bytes 40) 16
        [rd32 bytes 36 * 17, rd64 bytes HEADER_SIZE] = second at hrun ⊢
      rcases second with ⟨e | ⟨rawBlks, clen'⟩, asked⟩
      · exact blkTable_ends hgood hsegs hrun
      cases hrun with
      | good htab₂ => exact .parsed hgood hsegs htab₂ rfl

end Ends

/-- **Which files are at worst refused**: those that declare no compressed table longer than
themselves, over a base that an authoring check can hold. -/
theorem create_atWorstRefused_iff (z : Zstd) {delta : ByteSource} {bytes : Bytes}
    (h : delta.Delivers bytes) (hend : delta.EndsAtSize) (base : Option Source) (v : Bool) (t : ℕ) :
    AtWorstRefused bytes (create z delta base v ⟨t, []⟩) ↔
      DeclaresWithin z bytes ∧ CheckFits z bytes base v := by
  obtain ⟨hasks, hok, hfields⟩ := parseBytes_ends z delta bytes
  obtain ⟨t', hparse⟩ := parseDelta_eq (z := z) h hend t
  rw [AtWorstRefused, settled_iff]
  rcases hres : parseBytes z delta bytes with ⟨e | P, asked⟩
  · rw [hres] at hparse hasks hok
    have hcheck : CheckFits z bytes base v := by
      intro _ _ _ hfile
      obtain ⟨P, hP⟩ := hok.2 hfile
      simp at hP
    rw [create, Prog.bind_of_error hparse, ← hasks]
    simp [hcheck]
  · rw [hres] at hparse hasks hok hfields
    obtain ⟨hbase, hlen⟩ := hfields P rfl
    have hfile : FileGood z bytes := hok.1 ⟨P, rfl⟩
    obtain ⟨hthrew, hasked⟩ := create_after hparse base v
    have hframes : frameAsks (create z delta base v ⟨t, []⟩).2.asked = frameAsks asked := by
      rcases hasked with heq | heq
      · rw [heq]
      · rw [heq]
        exact frameAsks_cons _ hlen
    rw [hframes, hthrew, ← hasks, hbase]
    constructor
    · rintro ⟨hfits, hle⟩
      exact ⟨⟨by simp, hle⟩, fun hv src hsrc _ hsize => hfits hv src hsrc hsize⟩
    · rintro ⟨⟨_, hle⟩, hcheck⟩
      exact ⟨fun hv src hsrc hsize => hcheck hv src hsrc hfile hsize, hle⟩

/-! ### A file that is not refused -/

/-- A file of 60 bytes which declares a compressed segment table of `clen` bytes. -/
def longTable (clen : ℕ) : Bytes :=
  encodeHeader 4 0 0 0 0 0 ++ (leBytes 8 clen ++ leBytes 8 0)

theorem length_longTable (clen : ℕ) : (longTable clen).length = 60 := by
  simp [longTable]

/-- Such a file, in memory. -/
def longTableDelta (clen : ℕ) : ByteSource :=
  memByteSource (longTable clen) (by rw [length_longTable]; decide)

/-- **A bad delta can be fatal**: one of these files makes `create` throw, and another makes it ask
for a tebibyte before it refuses the file. -/
theorem longTable_not_refused :
    (create storingZstd (longTableDelta (2 ^ 63)) (some (.plain emptySource)) false ⟨0, []⟩).1
      = .error .threw ∧
    ¬ AtWorstRefused (longTable (2 ^ 40))
      (create storingZstd (longTableDelta (2 ^ 40)) (some (.plain emptySource)) false ⟨0, []⟩) := by
  refine ⟨rfl, ?_⟩
  rintro ⟨_, hle⟩
  have hlong := hle (2 ^ 40) (by decide +kernel)
  rw [length_longTable] at hlong
  omega

/-- Whether a file without any table is refused comes down to what it declares, which is nothing. -/
theorem shortTable_atWorstRefused_iff :
    AtWorstRefused (longTable 0)
        (create storingZstd (longTableDelta 0) (some (.plain emptySource)) false ⟨0, []⟩) ↔
      DeclaresWithin storingZstd (longTable 0) ∧
        CheckFits storingZstd (longTable 0) (some (.plain emptySource)) false :=
  create_atWorstRefused_iff storingZstd (memByteSource_delivers _ _) (memByteSource_endsAtSize _ _)
    (some (.plain emptySource)) false 0

end VidyaGodFS
