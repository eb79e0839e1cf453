/-
**What the archive stores is what is read.**

An archive is described here as a file format, without the program: an end record, a central
directory of records wherever it says, for each of them a local header wherever that says, and the
data after it.  Numbers that do not fit in their fields stand in ZIP64 records, behind sentinels.
On such an archive the walk finds every record, and the index gives, for every name whose last
record is a stored file, exactly that record's bytes.

Main definitions:

* `ByteSource.Serves` — a source whose reads are short at its end only;
* `ZipRecord`, `CentralAt`, `LocalAt`, `EndAt`, `CentralDir`, `WellFormed` — the format;
* `Reports` — the library tells of the records.

Main results:

* `walkRecords_centralDir`, `findCentralDir_endAt` — the walk finds the records;
* `lookup_putOffset` — **of the records of one name the last one counts**;
* `buildZipIndex_stored` — **a stored entry is read as the archive stores it**.
-/

import VidyaGodFS.ZipScan

set_option relaxedAutoImplicit false
set_option autoImplicit false

namespace VidyaGodFS

open Posix

variable {ε σ : Type}

/-! ### The format -/

/-- The source holds the bytes `content`, and its reads are short at the end only. -/
structure ByteSource.Serves (src : ByteSource) (content : Bytes) : Prop where
  size_eq : src.size = content.length
  read : ∀ t n off, off < content.length → src.pread t n off = .ok (slice content off n)

theorem ByteSource.Serves.delivers {src : ByteSource} {content : Bytes} (h : src.Serves content) :
    src.Delivers content where
  size_eq := h.size_eq
  read := by
    intro t n off hn ho
    refine ⟨slice content off n, h.read t n off ho, ?_, List.take_prefix _ _⟩
    apply List.ne_nil_of_length_pos
    rw [length_slice]
    omega

/-- One record of an archive. -/
structure ZipRecord where
  name : Bytes
  method : ℕ
  encrypted : Bool
  compSize : ℕ
  uncompSize : ℕ
  /-- Where its local header lies. -/
  lhOffset : ℕ

/-- A block of an extra field: its id, its length, its data. -/
def encodeBlock (b : ℕ × Bytes) : Bytes := leBytes 2 b.1 ++ (leBytes 2 b.2.length ++ b.2)

/-- What the ZIP64 block holds for a field: its value, where the field is a sentinel. -/
def widened (field value : ℕ) : Bytes := if field = SENTINEL32 then leBytes 8 value else []

/-- A field of 32 bits has its value, or a sentinel. -/
def FieldOf (field value : ℕ) : Prop :=
  value < 2 ^ 64 ∧ (field ≠ SENTINEL32 → value = field)

/-- The blocks of the extra field of a record.  Where one of the three fields is a sentinel, the
first ZIP64 block has the values of those that are, in order. -/
structure ExtraOf (blocks : List (ℕ × Bytes)) (uncomp32 comp32 lh32 : ℕ) (R : ZipRecord) :
    Prop where
  fits : ∀ b ∈ blocks, b.1 < 2 ^ 16 ∧ b.2.length < 2 ^ 16
  uncomp : FieldOf uncomp32 R.uncompSize
  comp : FieldOf comp32 R.compSize
  lh : FieldOf lh32 R.lhOffset
  zip64 : uncomp32 = SENTINEL32 ∨ comp32 = SENTINEL32 ∨ lh32 = SENTINEL32 →
    ∃ before after rest, blocks = before ++ (0x0001, widened uncomp32 R.uncompSize ++
      (widened comp32 R.compSize ++ (widened lh32 R.lhOffset ++ rest))) :: after ∧
      ∀ b ∈ before, b.1 ≠ 0x0001

/-- **The record `R` stands at `pos`** in the central directory, and the next one at `next`. -/
structure CentralAt (content : Bytes) (pos : ℕ) (R : ZipRecord) (next : ℕ) : Prop where
  sig : rd32 content pos = 0x02014b50
  encrypted : R.encrypted = (rd16 content (pos + 8)).testBit 0
  method : rd16 content (pos + 10) = R.method
  next_eq : next = pos + (46 + rd16 content (pos + 28) + rd16 content (pos + 30)
    + rd16 content (pos + 32))
  inside : next ≤ content.length
  name : R.name = slice content (pos + 46) (rd16 content (pos + 28))
  extra : ∃ blocks, slice content (pos + (46 + rd16 content (pos + 28))) (rd16 content (pos + 30))
      = blocks.flatMap encodeBlock ∧
    ExtraOf blocks (rd32 content (pos + 24)) (rd32 content (pos + 20)) (rd32 content (pos + 42)) R

namespace ZipRecord

variable (R : ZipRecord)

/-- Where the data of the record lies: after the local header, whose name and extra field have
lengths of their own. -/
def dataAt (content : Bytes) : ℕ :=
  R.lhOffset + (30 + rd16 content (R.lhOffset + 26) + rd16 content (R.lhOffset + 28))

/-- **What the archive stores** for the record. -/
def content (bytes : Bytes) : Bytes := slice bytes (R.dataAt bytes) R.compSize

/-- A file, neither compressed nor encrypted. -/
def IsStored : Prop := R.method = 0 ∧ R.encrypted = false ∧ R.name.getLast? ≠ some 47

end ZipRecord

/-- **The record's local header and data stand where it says**, before the end record. -/
structure LocalAt (content : Bytes) (R : ZipRecord) : Prop where
  sig : rd32 content R.lhOffset = 0x04034b50
  inside : R.dataAt content + R.compSize + 22 ≤ content.length
  plain : R.method = 0 → R.encrypted = false → R.compSize = R.uncompSize

/-- **The end record**, with no comment, says that there are `total` records from `cdOffset` on; or
it has a sentinel, and the ZIP64 end record says so. -/
structure EndAt (content : Bytes) (total cdOffset : ℕ) : Prop where
  inside : 22 ≤ content.length
  sig : rd32 content (content.length - 22) = 0x06054b50
  comment : rd16 content (content.length - 22 + 20) = 0
  tells :
    (rd16 content (content.length - 22 + 10) = total ∧ total ≠ SENTINEL16 ∧
      rd32 content (content.length - 22 + 16) = cdOffset ∧ cdOffset ≠ SENTINEL32) ∨
    ((rd16 content (content.length - 22 + 10) = SENTINEL16 ∨
        rd32 content (content.length - 22 + 16) = SENTINEL32) ∧
      42 ≤ content.length ∧ rd32 content (content.length - 42) = 0x07064b50 ∧
      ∃ z64, rd64 content (content.length - 42 + 8) = z64 ∧ z64 + 56 ≤ content.length ∧
        rd32 content z64 = 0x06064b50 ∧ rd64 content (z64 + 32) = total ∧
        rd64 content (z64 + 48) = cdOffset)

/-- The records that stand from `pos` on, one after the other. -/
inductive CentralDir (content : Bytes) : ℕ → List ZipRecord → Prop
  | nil (pos : ℕ) : CentralDir content pos []
  | cons {pos next : ℕ} {R : ZipRecord} {recs : List ZipRecord} : CentralAt content pos R next →
      CentralDir content next recs → CentralDir content pos (R :: recs)

/-- **An archive with the records `recs`.** -/
structure WellFormed (content : Bytes) (recs : List ZipRecord) : Prop where
  directory : ∃ cdOffset, EndAt content recs.length cdOffset ∧ CentralDir content cdOffset recs
  locals : ∀ R ∈ recs, LocalAt content R

/-! ### Reading inside a buffer that was read -/

theorem rd16_slice {content : Bytes} {pos n k : ℕ} (h : k + 2 ≤ n) :
    rd16 (slice content pos n) k = rd16 content (pos + k) := by
  rw [rd16, rd16, slice_slice h]

theorem rd32_slice {content : Bytes} {pos n k : ℕ} (h : k + 4 ≤ n) :
    rd32 (slice content pos n) k = rd32 content (pos + k) := by
  rw [rd32, rd32, slice_slice h]

theorem rd64_slice {content : Bytes} {pos n k : ℕ} (h : k + 8 ≤ n) :
    rd64 (slice content pos n) k = rd64 content (pos + k) := by
  rw [rd64, rd64, slice_slice h]

/-! ### The ZIP64 block -/

@[simp] theorem length_encodeBlock (b : ℕ × Bytes) : (encodeBlock b).length = 4 + b.2.length := by
  simp [encodeBlock]
  omega

/-- The id and the length of a block, read where it stands. -/
theorem rd16_encodeBlock {extra A C : Bytes} {b : ℕ × Bytes} (hb : b.1 < 2 ^ 16)
    (hlen : b.2.length < 2 ^ 16) (hextra : extra = A ++ (encodeBlock b ++ C)) :
    rd16 extra A.length = b.1 ∧ rd16 extra (A.length + 2) = b.2.length := by
  have h2 : (256 : ℕ) ^ 2 = 2 ^ 16 := by norm_num
  constructor
  · have hid : slice extra A.length 2 = leBytes 2 b.1 :=
      slice_of_append A _ (leBytes 2 b.2.length ++ (b.2 ++ C)) (by simp [hextra, encodeBlock]) rfl
        (by simp)
    rw [rd16, hid, leNat_leBytes (h2 ▸ hb)]
  · have hsz : slice extra (A.length + 2) 2 = leBytes 2 b.2.length :=
      slice_of_append (A ++ leBytes 2 b.1) _ (b.2 ++ C) (by simp [hextra, encodeBlock]) (by simp)
        (by simp)
    rw [rd16, hsz, leNat_leBytes (h2 ▸ hlen)]

/-- The walk over the blocks comes to the ZIP64 one. -/
theorem zip64Offset_before {extra C : Bytes} {before : List (ℕ × Bytes)} (u c lh : ℕ)
    (hfits : ∀ b ∈ before, b.1 < 2 ^ 16 ∧ b.2.length < 2 ^ 16)
    (hid : ∀ b ∈ before, b.1 ≠ 0x0001) :
    ∀ (A : Bytes) (fuel : ℕ), extra = A ++ (before.flatMap encodeBlock ++ C) →
      zip64Offset extra u c lh (fuel + before.length) A.length
        = zip64Offset extra u c lh fuel (A ++ before.flatMap encodeBlock).length := by
  induction before with
  | nil => simp
  | cons b before ih =>
      intro A fuel hextra
      obtain ⟨hb, hlen⟩ := hfits b List.mem_cons_self
      rw [List.flatMap_cons, List.append_assoc] at hextra
      obtain ⟨hrd, hrdlen⟩ := rd16_encodeBlock hb hlen hextra
      have hle : extra.length = A.length + (4 + b.2.length) +
          (before.flatMap encodeBlock ++ C).length := by
        rw [hextra, List.length_append, List.length_append, length_encodeBlock]
        omega
      rw [List.length_cons, ← Nat.add_assoc, zip64Offset, if_pos (by omega)]
      dsimp only
      rw [hrd, hrdlen, if_neg (by omega), if_neg (hid b List.mem_cons_self)]
      have hnext := ih (fun b hb => hfits b (List.mem_cons_of_mem _ hb))
        (fun b hb => hid b (List.mem_cons_of_mem _ hb)) (A ++ encodeBlock b) fuel
        (by rw [hextra, List.append_assoc])
      rw [List.length_append, length_encodeBlock, ← Nat.add_assoc] at hnext
      rw [hnext, List.flatMap_cons, List.append_assoc]

theorem length_widened (field value : ℕ) :
    (widened field value).length = if field = SENTINEL32 then 8 else 0 := by
  rw [widened]
  split
  · exact length_leBytes 8 value
  · rfl

theorem length_le_flatMap_encodeBlock (blocks : List (ℕ × Bytes)) :
    blocks.length ≤ (blocks.flatMap encodeBlock).length := by
  induction blocks with
  | nil => simp
  | cons b blocks ih =>
      rw [List.length_cons, List.flatMap_cons, List.length_append, length_encodeBlock]
      omega

/-- A value of the ZIP64 block is stepped over, where it stands there. -/
theorem step_widened (field value : ℕ) {f stop : ℕ}
    (h : f + (widened field value).length ≤ stop) :
    (if field = SENTINEL32 ∧ f + 8 ≤ stop then f + 8 else f)
      = f + (widened field value).length := by
  rw [length_widened] at h ⊢
  by_cases hs : field = SENTINEL32
  · rw [if_pos hs] at h ⊢
    rw [if_pos ⟨hs, h⟩]
  · rw [if_neg hs, if_neg fun hc => hs hc.1, Nat.add_zero]

/-- The ZIP64 block is read: the values before that of the offset are stepped over. -/
theorem zip64Offset_block {extra A C rest : Bytes} {u c uncomp comp lh : ℕ} (fuel : ℕ)
    (hlh : lh < 2 ^ 64)
    (hlen : (widened u uncomp ++ (widened c comp ++ (leBytes 8 lh ++ rest))).length < 2 ^ 16)
    (hextra : extra = A ++ (encodeBlock (0x0001,
      widened u uncomp ++ (widened c comp ++ (leBytes 8 lh ++ rest))) ++ C)) :
    zip64Offset extra u c SENTINEL32 (fuel + 1) A.length = lh := by
  obtain ⟨hid, hsz⟩ := rd16_encodeBlock (by norm_num) hlen hextra
  have hread : rd64 extra (A.length + 4 + (widened u uncomp).length + (widened c comp).length)
      = lh := by
    have hslice : slice extra (A.length + 4 + (widened u uncomp).length + (widened c comp).length) 8
        = leBytes 8 lh := by
      refine slice_of_append (A ++ (leBytes 2 0x0001 ++ (leBytes 2
        (widened u uncomp ++ (widened c comp ++ (leBytes 8 lh ++ rest))).length ++
          (widened u uncomp ++ widened c comp)))) _ (rest ++ C) ?_ ?_ (length_leBytes 8 _)
      · rw [hextra, encodeBlock]
        simp only [List.append_assoc]
      · simp only [List.length_append, length_leBytes]
        omega
    have h8 : (256 : ℕ) ^ 8 = 2 ^ 64 := by norm_num
    rw [rd64, hslice, leNat_leBytes (h8 ▸ hlh)]
  have hlen' := congrArg List.length hextra
  simp only [List.length_append, length_encodeBlock, length_leBytes] at hlen' hsz
  rw [zip64Offset, if_pos (by omega)]
  dsimp only
  rw [hid, hsz, if_neg (by omega), if_pos rfl, step_widened u uncomp (by omega),
    step_widened c comp (by omega), if_pos (by omega), hread]

/-- **The offset of a local header that does not fit** is found in the ZIP64 block. -/
theorem zip64Offset_extraOf {blocks : List (ℕ × Bytes)} {u c : ℕ} {R : ZipRecord}
    (h : ExtraOf blocks u c SENTINEL32 R) :
    zip64Offset (blocks.flatMap encodeBlock) u c SENTINEL32 (blocks.flatMap encodeBlock).length 0
      = R.lhOffset := by
  obtain ⟨before, after, rest, hblocks, hid⟩ := h.zip64 (Or.inr (Or.inr rfl))
  have hwide : widened SENTINEL32 R.lhOffset = leBytes 8 R.lhOffset := if_pos rfl
  rw [hwide] at hblocks
  have hfits := h.fits _ (hblocks ▸ List.mem_append_right _ List.mem_cons_self)
  have hextra : blocks.flatMap encodeBlock = before.flatMap encodeBlock ++ (encodeBlock (0x0001,
      widened u R.uncompSize ++ (widened c R.compSize ++ (leBytes 8 R.lhOffset ++ rest))) ++
        after.flatMap encodeBlock) := by
    rw [hblocks, List.flatMap_append, List.flatMap_cons]
  have hlong := length_le_flatMap_encodeBlock before
  have hlen := congrArg List.length hextra
  rw [List.length_append, List.length_append, length_encodeBlock] at hlen
  obtain ⟨fuel, hfuel⟩ : ∃ fuel, (blocks.flatMap encodeBlock).length = fuel + 1 + before.length :=
    ⟨(blocks.flatMap encodeBlock).length - 1 - before.length, by omega⟩
  have hwalk := zip64Offset_before u c SENTINEL32
    (fun b hb => h.fits b (hblocks ▸ List.mem_append_left _ hb)) hid [] (fuel + 1) hextra
  rw [← hfuel, List.nil_append] at hwalk
  exact hwalk.trans (zip64Offset_block fuel h.lh.1 hfits.2 hextra)

/-! ### The walk -/

/-- The offset of the local header of a record of the directory. -/
theorem recordOffset_centralAt {src : ByteSource} {bytes : Bytes} (h : src.Delivers bytes)
    {pos next : ℕ} {R : ZipRecord} (hat : CentralAt bytes pos R next) (t : ℕ) :
    ∃ t', (recordOffset src (slice bytes pos 46) pos : Prog ℕ ε ℕ) t = (.ok R.lhOffset, t') := by
  have hlt := h.length_lt
  have hnext := hat.next_eq
  have hinside := hat.inside
  obtain ⟨blocks, hextra, hfields⟩ := hat.extra
  rw [recordOffset, rd32_slice (by omega), rd32_slice (by omega), rd32_slice (by omega),
    rd16_slice (by omega), rd16_slice (by omega)]
  split
  · rename_i hsent
    have hin : pos + (46 + rd16 bytes (pos + 28)) + rd16 bytes (pos + 30) ≤ bytes.length := by
      omega
    obtain ⟨t', ht'⟩ := ByteSource.preadAll_delivers (ε := ε) h hin t
    refine ⟨t', ?_⟩
    rw [add64_eq (by omega), Prog.bind_of_ok ht']
    dsimp only
    rw [hsent] at hfields ⊢
    rw [hextra, zip64Offset_extraOf hfields]
    rfl
  · rename_i hsent
    exact ⟨t, by rw [hfields.lh.2 hsent]; rfl⟩

/-- **The walk finds the records**, one after the other. -/
theorem walkRecords_centralDir {src : ByteSource} {bytes : Bytes} (h : src.Delivers bytes)
    (cb : σ → Bytes → ℕ → ℕ → σ × Bool) (hcb : ∀ s name method lh, (cb s name method lh).2 = true)
    {pos : ℕ} {recs : List ZipRecord} (hdir : CentralDir bytes pos recs) (s : σ) (t : ℕ) :
    ∃ t', (walkRecords src cb recs.length pos s : Prog ℕ ε _) t
      = (.ok (true, recs.foldl (fun s R => (cb s R.name R.method R.lhOffset).1) s), t') := by
  induction hdir generalizing s t with
  | nil pos => exact ⟨t, rfl⟩
  | @cons pos next R recs hat _ ih =>
      have hlt := h.length_lt
      have hnext := hat.next_eq
      have hinside := hat.inside
      have hin₁ : pos + 46 ≤ bytes.length := by omega
      obtain ⟨t₁, ht₁⟩ := ByteSource.preadAll_delivers (ε := ε) h hin₁ t
      have hin₂ : pos + 46 + rd16 bytes (pos + 28) ≤ bytes.length := by omega
      obtain ⟨t₂, ht₂⟩ := ByteSource.preadAll_delivers (ε := ε) h hin₂ t₁
      obtain ⟨t₃, ht₃⟩ := recordOffset_centralAt (ε := ε) h hat t₂
      obtain ⟨t', ht'⟩ := ih (cb s R.name R.method R.lhOffset).1 t₃
      refine ⟨t', ?_⟩
      have hgo := hcb s R.name R.method R.lhOffset
      rw [List.length_cons, walkRecords, Prog.bind_of_ok ht₁]
      dsimp only
      rw [rd32_slice (by omega), Nat.add_zero, hat.sig, if_neg (by simp),
        rd16_slice (by omega), rd16_slice (by omega), rd16_slice (by omega), rd16_slice (by omega),
        add64_eq (by omega), Prog.bind_of_ok ht₂]
      dsimp only
      rw [Prog.bind_of_ok ht₃, ← hat.name, hat.method, hgo, if_pos rfl, add64_eq (by omega),
        ← hnext, ht', List.foldl_cons]

theorem findEocd_of_sig {buf : Bytes} {i : ℕ} (h : rd32 buf i = 0x06054b50) :
    findEocd buf i = some i := by
  cases i with
  | zero => rw [findEocd, if_pos h]
  | succ i => rw [findEocd, if_pos h]

/-- **The end record is found**, and what it tells of the directory. -/
theorem findCentralDir_endAt {src : ByteSource} {bytes : Bytes} (h : src.Delivers bytes)
    {total cdOffset : ℕ} (hend : EndAt bytes total cdOffset) (t : ℕ) :
    ∃ t', (findCentralDir src : Prog ℕ ε _) t = (.ok (some (total, cdOffset)), t') := by
  have hlt := h.length_lt
  have hinside := hend.inside
  rw [findCentralDir, h.size_eq, if_neg (by omega)]
  generalize htail : min bytes.length (22 + 65535) = tail
  have htail_le : 22 ≤ tail ∧ tail ≤ bytes.length := by omega
  have hin₁ : bytes.length - tail + tail ≤ bytes.length := by omega
  obtain ⟨t₁, ht₁⟩ := ByteSource.preadAll_delivers (ε := ε) h hin₁ t
  -- the offsets in the tail are those in the file
  have hat : ∀ k, bytes.length - tail + (tail - 22 + k) = bytes.length - 22 + k := by omega
  have hsig : rd32 (slice bytes (bytes.length - tail) tail) (tail - 22) = 0x06054b50 := by
    rw [rd32_slice (by omega), ← hend.sig]
    exact congrArg (rd32 bytes) (hat 0)
  rw [Prog.bind_of_ok ht₁]
  dsimp only
  rw [findEocd_of_sig hsig]
  dsimp only
  rw [rd16_slice (by omega), rd32_slice (by omega), hat, hat]
  rcases hend.tells with ⟨htotal, hne, hcd, hne'⟩ | ⟨hsent, hlong, hloc, z64, hz, hzin, hzsig, hzn, hzcd⟩
  · rw [htotal, hcd, if_neg (by rintro (hc | hc); exacts [hne' hc, hne hc])]
    exact ⟨t₁, rfl⟩
  · have hoff : bytes.length - tail + (tail - 22) - 20 = bytes.length - 42 := by omega
    have hin₂ : bytes.length - 42 + 20 ≤ bytes.length := by omega
    obtain ⟨t₂, ht₂⟩ := ByteSource.preadAll_delivers (ε := ε) h hin₂ t₁
    obtain ⟨t₃, ht₃⟩ := ByteSource.preadAll_delivers (ε := ε) h hzin t₂
    refine ⟨t₃, ?_⟩
    rw [if_pos hsent.symm, if_neg (by omega), hoff, Prog.bind_of_ok ht₂]
    dsimp only
    rw [rd32_slice (by omega), Nat.add_zero, hloc, if_neg (by simp), rd64_slice (by omega), hz,
      Prog.bind_of_ok ht₃]
    dsimp only
    rw [rd32_slice (by omega), Nat.add_zero, hzsig, if_neg (by simp), rd64_slice (by omega),
      rd64_slice (by omega), hzn, hzcd]
    rfl

/-! ### The offsets by name -/

theorem lookup_filter_ne {κ α : Type} [DecidableEq κ] [BEq κ] [LawfulBEq κ] {m : List (κ × α)}
    {k q : κ} (h : q ≠ k) :
    (m.filter (·.1 ≠ k)).lookup q = m.lookup q := by
  induction m with
  | nil => rfl
  | cons x m ih =>
      rw [List.filter_cons]
      split
      · rw [List.lookup_cons, List.lookup_cons, ih]
      · rename_i hx
        have hx' : x.1 = k := by simpa using hx
        rw [List.lookup_cons, ih, beq_false_of_ne fun hq => h (hq.trans hx')]

theorem lookup_setKey {κ α : Type} [DecidableEq κ] [BEq κ] [LawfulBEq κ] (m : List (κ × α))
    (k q : κ) (v : α) : (setKey m k v).lookup q = if q = k then some v else m.lookup q := by
  rw [setKey, List.lookup_cons]
  by_cases h : q = k
  · rw [if_pos h, h, beq_self_eq_true]
  · rw [if_neg h, beq_false_of_ne h, lookup_filter_ne h]

/-- The offset of a record joins the offsets by name. -/
def putOffset (out : List (Path × ℕ)) (R : ZipRecord) : List (Path × ℕ) :=
  if normalizeVPath R.name = [] then out else setKey out (normalizeVPath R.name) R.lhOffset

/-- The offsets are those of the records. -/
theorem centralDirOffsets_wellFormed {src : ByteSource} {bytes : Bytes} (h : src.Delivers bytes)
    {recs : List ZipRecord} (hzip : WellFormed bytes recs) (t : ℕ) :
    ∃ t', (centralDirOffsets src : Prog ℕ ε _) t = (.ok (recs.foldl putOffset []), t') := by
  obtain ⟨cdOffset, hend, hdir⟩ := hzip.directory
  obtain ⟨t₁, ht₁⟩ := findCentralDir_endAt (ε := ε) h hend t
  obtain ⟨t', ht'⟩ := walkRecords_centralDir (ε := ε) h
    (fun (out : List (Path × ℕ)) raw (_ : ℕ) lhOffset =>
      (if normalizeVPath raw = [] then out else setKey out (normalizeVPath raw) lhOffset, true))
    (fun _ _ _ _ => rfl) hdir [] t₁
  have hwalk : (walkCentralDir src (fun (out : List (Path × ℕ)) raw (_ : ℕ) lhOffset =>
      (if normalizeVPath raw = [] then out else setKey out (normalizeVPath raw) lhOffset, true)) [] :
        Prog ℕ ε _) t = (.ok (true, recs.foldl putOffset []), t') := by
    rw [walkCentralDir, Prog.bind_of_ok ht₁]
    exact ht'
  exact ⟨t', by rw [centralDirOffsets, Prog.bind_of_ok hwalk]; rfl⟩

/-- **Of the records of one name the last one counts.** -/
theorem lookup_putOffset {pre post : List ZipRecord} {R : ZipRecord}
    (hne : normalizeVPath R.name ≠ [])
    (hlast : ∀ R' ∈ post, normalizeVPath R'.name ≠ normalizeVPath R.name) :
    ((pre ++ R :: post).foldl putOffset []).lookup (normalizeVPath R.name) = some R.lhOffset := by
  rw [List.foldl_append, List.foldl_cons]
  -- nothing after it has its name
  have hkeep : ∀ (post : List ZipRecord) (out : List (Path × ℕ)),
      (∀ R' ∈ post, normalizeVPath R'.name ≠ normalizeVPath R.name) →
      (post.foldl putOffset out).lookup (normalizeVPath R.name)
        = out.lookup (normalizeVPath R.name) := by
    intro post
    induction post with
    | nil => exact fun _ _ => rfl
    | cons R' post ih =>
        intro out hlast
        rw [List.foldl_cons, ih _ fun R'' hR'' => hlast R'' (List.mem_cons_of_mem _ hR''), putOffset]
        split
        · rfl
        · rw [lookup_setKey, if_neg (hlast R' List.mem_cons_self).symm]
  rw [hkeep post _ hlast, putOffset, if_neg hne, lookup_setKey, if_pos rfl]

/-! ### The index -/

/-- **What the library tells of a record**: its raw name, size, method and whether it is
encrypted. -/
structure ReportsRecord (st : ZipStat) (R : ZipRecord) : Prop where
  name : st.name = some R.name
  size : st.size = some R.uncompSize
  method : st.compMethod = some R.method
  encryption : ∃ m, st.encryptionMethod = some m ∧ (m = 0 ↔ R.encrypted = false)

/-- **The library reports the records** of the archive, in order. -/
def Reports (lib : Libzip ε) (src : ByteSource) (recs : List ZipRecord) : Prop :=
  ∀ t, ∃ stats t', lib src t = (.ok (some stats), t') ∧
    List.Forall₂ (fun st R => ∃ s, st = some s ∧ ReportsRecord s R) stats recs

theorem ReportsRecord.isStored {st : ZipStat} {R : ZipRecord} (h : ReportsRecord st R)
    (hR : R.IsStored) : st.isStored = true := by
  obtain ⟨m, hm, hiff⟩ := h.encryption
  rw [ZipStat.isStored, h.method, hm, hR.1, hiff.2 hR.2.1]
  rfl

theorem localDataOffset_ends (src : ByteSource) (lhOffset t : ℕ) :
    ∃ r t', (localDataOffset src lhOffset : Prog ℕ ε ℕ) t = (.ok r, t') := by
  obtain ⟨r, t', ht'⟩ := src.preadAllLoop_ok (ε := ε) 30 30 lhOffset [] t
  rw [localDataOffset, ByteSource.preadAll, Prog.bind_of_ok ht']
  cases r with
  | none => exact ⟨_, t', rfl⟩
  | some lh =>
      dsimp only
      split
      · exact ⟨_, t', rfl⟩
      · exact ⟨_, t', rfl⟩

theorem storedOffset_ends (src : ByteSource) (offsets : List (Path × ℕ)) (vrel : Path) (t : ℕ) :
    ∃ r t', (storedOffset src offsets vrel : Prog ℕ ε _) t = (.ok r, t') := by
  rw [storedOffset]
  cases offsets.lookup vrel with
  | none => exact ⟨none, t, rfl⟩
  | some lhOffset =>
      obtain ⟨r, t', ht'⟩ := localDataOffset_ends (ε := ε) src lhOffset t
      exact ⟨_, t', Prog.bind_of_ok ht'⟩

/-- **Where the data of a record lies** is found by its local header. -/
theorem storedOffset_localAt {src : ByteSource} {bytes : Bytes} (h : src.Delivers bytes)
    {R : ZipRecord} (hlocal : LocalAt bytes R) {offsets : List (Path × ℕ)} {vrel : Path}
    (hoff : offsets.lookup vrel = some R.lhOffset) (t : ℕ) :
    ∃ t', (storedOffset src offsets vrel : Prog ℕ ε _) t
      = (.ok (some (R.dataAt bytes)), t') := by
  have hlt := h.length_lt
  have hinside := hlocal.inside
  rw [ZipRecord.dataAt] at hinside ⊢
  have hin : R.lhOffset + 30 ≤ bytes.length := by omega
  obtain ⟨t', ht'⟩ := ByteSource.preadAll_delivers (ε := ε) h hin t
  have hlh : (localDataOffset src R.lhOffset : Prog ℕ ε ℕ) t
      = (.ok (R.lhOffset + (30 + rd16 bytes (R.lhOffset + 26) + rd16 bytes (R.lhOffset + 28))),
        t') := by
    rw [localDataOffset, Prog.bind_of_ok ht']
    dsimp only
    rw [rd32_slice (by omega), Nat.add_zero, hlocal.sig, if_neg (by simp), rd16_slice (by omega),
      rd16_slice (by omega), add64_eq (by omega)]
    rfl
  refine ⟨t', ?_⟩
  rw [storedOffset, hoff]
  dsimp only
  rw [Prog.bind_of_ok hlh, UINT64_MAX, if_neg (by omega)]
  rfl

theorem entry_add (Z : ZipIndex) (e : ZipEntry) (q : Path) :
    (Z.add e).entry q = if q = e.name then some e else Z.entry q := lookup_setKey Z.byName _ _ _

/-- One entry of the archive leaves the entries of other names alone. -/
theorem addStat_keeps (src : ByteSource) (offsets : List (Path × ℕ)) (Z : ZipIndex) (raw : Bytes)
    (st : ZipStat) (t : ℕ) :
    ∃ Z' t', (addStat src offsets Z raw st : Prog ℕ ε _) t = (.ok Z', t') ∧ Z'.src = Z.src ∧
      ∀ q, q = [] ∨ q ≠ normalizeVPath raw → Z'.entry q = Z.entry q := by
  rw [addStat]
  dsimp only
  split
  · exact ⟨Z, t, rfl, rfl, fun _ _ => rfl⟩
  · rename_i hne
    have hkeep : ∀ (e : ZipEntry), e.name = normalizeVPath raw →
        ∀ q, q = [] ∨ q ≠ normalizeVPath raw → (Z.add e).entry q = Z.entry q := by
      rintro e hname q hq
      rw [entry_add, if_neg]
      rw [hname]
      rcases hq with rfl | hq
      · exact fun heq => hne heq.symm
      · exact hq
    split
    · exact ⟨_, t, rfl, rfl, hkeep _ rfl⟩
    · split
      · obtain ⟨r, t', ht'⟩ := storedOffset_ends (ε := ε) src offsets (normalizeVPath raw) t
        exact ⟨_, t', Prog.bind_of_ok ht', rfl, hkeep _ rfl⟩
      · exact ⟨_, t, rfl, rfl, hkeep _ rfl⟩

/-- **A stored entry joins the index** with the place of its data. -/
theorem addStat_stored {src : ByteSource} {bytes : Bytes} (h : src.Delivers bytes) {R : ZipRecord}
    (hlocal : LocalAt bytes R) (hR : R.IsStored) (hne : normalizeVPath R.name ≠ [])
    {st : ZipStat} (hst : ReportsRecord st R) {offsets : List (Path × ℕ)}
    (hoff : offsets.lookup (normalizeVPath R.name) = some R.lhOffset) (Z : ZipIndex) (t : ℕ) :
    ∃ Z' t', (addStat src offsets Z R.name st : Prog ℕ ε _) t = (.ok Z', t') ∧ Z'.src = Z.src ∧
      Z'.entry (normalizeVPath R.name) = some ⟨normalizeVPath R.name, R.uncompSize, false,
        st.isSymlink, true, R.dataAt bytes⟩ := by
  obtain ⟨t', ht'⟩ := storedOffset_localAt (ε := ε) h hlocal hoff t
  refine ⟨Z.add ⟨normalizeVPath R.name, R.uncompSize, false, st.isSymlink, true,
    R.dataAt bytes⟩, t', ?_, rfl, ?_⟩
  · rw [addStat]
    dsimp only
    rw [if_neg hne, if_neg hR.2.2, if_pos (hst.isStored hR), Prog.bind_of_ok ht', hst.size]
    rfl
  · rw [entry_add, if_pos rfl]

/-- The loop leaves the entries alone that it does not come to. -/
theorem addStats_keeps (src : ByteSource) (offsets : List (Path × ℕ))
    (stats : List (Option ZipStat)) (Z : ZipIndex) (t : ℕ) :
    ∃ Z' t', (addStats src offsets stats Z : Prog ℕ ε _) t = (.ok Z', t') ∧ Z'.src = Z.src ∧
      ∀ q, (q = [] ∨ ∀ s raw, some s ∈ stats → s.name = some raw → q ≠ normalizeVPath raw) →
        Z'.entry q = Z.entry q := by
  induction stats generalizing Z t with
  | nil => exact ⟨Z, t, rfl, rfl, fun _ _ => rfl⟩
  | cons st stats ih =>
      rw [addStats]
      have hrest : ∀ q, (q = [] ∨ ∀ s raw, some s ∈ st :: stats → s.name = some raw →
          q ≠ normalizeVPath raw) →
          (q = [] ∨ ∀ s raw, some s ∈ stats → s.name = some raw → q ≠ normalizeVPath raw) :=
        fun q hq => hq.imp_right fun h s raw hs => h s raw (List.mem_cons_of_mem _ hs)
      rcases hst : (st.bind fun st => st.name.map fun raw => (raw, st)) with _ | ⟨raw, s⟩
      · obtain ⟨Z', t', h, hsrc, hkeep⟩ := ih Z t
        exact ⟨Z', t', h, hsrc, fun q hq => hkeep q (hrest q hq)⟩
      · obtain ⟨Z₁, t₁, h₁, hsrc₁, hkeep₁⟩ := addStat_keeps (ε := ε) src offsets Z raw s t
        obtain ⟨Z', t', h, hsrc, hkeep⟩ := ih Z₁ t₁
        refine ⟨Z', t', (Prog.bind_of_ok h₁).trans h, hsrc.trans hsrc₁, fun q hq => ?_⟩
        obtain ⟨s', rfl, hs'⟩ := Option.bind_eq_some_iff.1 hst
        obtain ⟨raw', hname, hpair⟩ := Option.map_eq_some_iff.1 hs'
        obtain ⟨rfl, rfl⟩ := Prod.mk.inj hpair
        rw [hkeep q (hrest q hq), hkeep₁ q (hq.imp_right fun h => h s' raw' List.mem_cons_self hname)]

/-- The index of an archive reads from the archive. -/
theorem buildZipIndex_src {lib : Libzip ε} {src : ByteSource} {t : ℕ} {Z : ZipIndex}
    (h : (buildZipIndex lib src t).1.toOption.join = some Z) : Z.src = src := by
  have hend : ∀ t Z, (buildZipIndex lib src t).1 = .ok (some Z) → Z.src = src := by
    intro t Z hZ
    cases hlib : lib src t with
    | mk r t₁ =>
        rcases r with e | _ | stats
        · rw [buildZipIndex, Prog.bind_of_error hlib] at hZ
          simp at hZ
        · rw [buildZipIndex, Prog.bind_of_ok hlib] at hZ
          cases hZ
        · cases hoff : (centralDirOffsets src : Prog ℕ ε _) t₁ with
          | mk r t₂ =>
              rcases r with e | offsets
              · rw [buildZipIndex, Prog.bind_of_ok hlib] at hZ
                dsimp only at hZ
                rw [Prog.bind_of_error hoff] at hZ
                simp at hZ
              · obtain ⟨Z', t', hadd, hsrc, _⟩ := addStats_keeps (ε := ε) src offsets stats
                  ⟨src, [], []⟩ t₂
                rw [buildZipIndex, Prog.bind_of_ok hlib] at hZ
                dsimp only at hZ
                rw [Prog.bind_of_ok hoff, Prog.bind_of_ok hadd] at hZ
                cases hZ
                exact hsrc
  cases hb : (buildZipIndex lib src t).1 with
  | error e =>
      rw [hb] at h
      simp [Except.toOption] at h
  | ok r =>
      rw [hb] at h
      obtain rfl : r = some Z := h
      exact hend t Z hb

theorem addStats_append (src : ByteSource) (offsets : List (Path × ℕ))
    (stats stats' : List (Option ZipStat)) (Z : ZipIndex) :
    (addStats src offsets (stats ++ stats') Z : Prog ℕ ε _)
      = addStats src offsets stats Z >>= addStats src offsets stats' := by
  induction stats generalizing Z with
  | nil => rfl
  | cons st stats ih =>
      rw [List.cons_append, addStats, addStats]
      rcases (st.bind fun st => st.name.map fun raw => (raw, st)) with _ | ⟨raw, s⟩
      · exact ih Z
      · exact (congrArg (addStat src offsets Z raw s >>= ·) (funext ih)).trans
          (Prog.bind_assoc_apply _ _ _).symm

/-- **The entry of a name** is that of its last record, where that is a stored file. -/
theorem addStats_stored {src : ByteSource} {bytes : Bytes} (h : src.Delivers bytes)
    {pre post : List ZipRecord} {R : ZipRecord} (hlocal : LocalAt bytes R) (hR : R.IsStored)
    (hne : normalizeVPath R.name ≠ [])
    (hlast : ∀ R' ∈ post, normalizeVPath R'.name ≠ normalizeVPath R.name)
    {stats : List (Option ZipStat)}
    (hstats : List.Forall₂ (fun st R => ∃ s, st = some s ∧ ReportsRecord s R) stats
      (pre ++ R :: post))
    {offsets : List (Path × ℕ)} (hoff : offsets.lookup (normalizeVPath R.name) = some R.lhOffset)
    (Z : ZipIndex) (t : ℕ) :
    ∃ Z' t' symlink, (addStats src offsets stats Z : Prog ℕ ε _) t = (.ok Z', t') ∧
      Z'.src = Z.src ∧ Z'.entry (normalizeVPath R.name) = some ⟨normalizeVPath R.name,
        R.uncompSize, false, symlink, true, R.dataAt bytes⟩ := by
  have hafter := List.forall₂_drop_append stats pre (R :: post) hstats
  obtain ⟨st, stats', ⟨s, rfl, hs⟩, hpost, hdrop⟩ := List.forall₂_cons_right_iff.1 hafter
  have hsplit : stats = stats.take pre.length ++ (some s :: stats') := by
    rw [← hdrop, List.take_append_drop]
  obtain ⟨Z₁, t₁, h₁, hsrc₁, _⟩ :=
    addStats_keeps (ε := ε) src offsets (stats.take pre.length) Z t
  obtain ⟨Z₂, t₂, h₂, hsrc₂, hentry⟩ := addStat_stored (ε := ε) h hlocal hR hne hs hoff Z₁ t₁
  obtain ⟨Z', t', h', hsrc', hkeep⟩ := addStats_keeps (ε := ε) src offsets stats' Z₂ t₂
  refine ⟨Z', t', s.isSymlink, ?_, ?_, ?_⟩
  · rw [hsplit, addStats_append, Prog.bind_of_ok h₁, addStats]
    have hname : ((some s).bind fun st => st.name.map fun raw => (raw, st)) = some (R.name, s) := by
      rw [Option.bind_some, hs.name]
      rfl
    rw [hname]
    exact (Prog.bind_of_ok h₂).trans h'
  · rw [hsrc', hsrc₂, hsrc₁]
  · rw [hkeep _ (Or.inr ?_), hentry]
    intro s' raw hs' hraw heq
    obtain ⟨i, hi⟩ := List.getElem?_of_mem hs'
    obtain ⟨R', hR', s'', hs'', hrep⟩ : ∃ R' ∈ post, ∃ s'', some s' = some s'' ∧
        ReportsRecord s'' R' := by
      have hlen := hpost.length_eq
      have hilt := (List.getElem?_eq_some_iff.1 hi).1
      have hget := (List.forall₂_iff_get.1 hpost).2 i hilt (hlen ▸ hilt)
      rw [List.get_eq_getElem, (List.getElem?_eq_some_iff.1 hi).2] at hget
      exact ⟨_, List.get_mem _ _, hget⟩
    obtain rfl := Option.some_inj.1 hs''
    have hraw' : R'.name = raw := Option.some_inj.1 (hrep.name.symm.trans hraw)
    exact hlast R' hR' (by rw [hraw', heq])

/-- **A stored entry is read as the archive stores it.**  On an archive whose records the library
reports, every name other than the root whose last record is a stored file has an entry, and a read
of it gives the bytes of that record that are in the range asked for. -/
theorem buildZipIndex_stored (lib : Libzip ε) (src : ByteSource) (bytes : Bytes)
    (recs : List ZipRecord) (hsrc : src.Serves bytes) (hzip : WellFormed bytes recs)
    (hlib : Reports lib src recs) (t : ℕ) :
    ∃ Z t', buildZipIndex lib src t = (.ok (some Z), t') ∧
      ∀ pre R post, recs = pre ++ R :: post → R.IsStored → normalizeVPath R.name ≠ [] →
        (∀ R' ∈ post, normalizeVPath R'.name ≠ normalizeVPath R.name) →
        ∃ E reader, Z.entry (normalizeVPath R.name) = some E ∧ E.stored = true ∧
          E.size = (R.content bytes).length ∧ openZipEntry Z E = .ok reader ∧
          ∀ n off, n < 2 ^ 31 → off < 2 ^ 63 →
            readZipEntry reader n off = .ok (slice (R.content bytes) off n) := by
  have hdel := hsrc.delivers
  obtain ⟨stats, t₁, hopen, hstats⟩ := hlib t
  obtain ⟨t₂, hoffsets⟩ := centralDirOffsets_wellFormed (ε := ε) hdel hzip t₁
  obtain ⟨Z, t', hadd, _, _⟩ := addStats_keeps (ε := ε) src (recs.foldl putOffset []) stats
    ⟨src, [], []⟩ t₂
  refine ⟨Z, t', ?_, ?_⟩
  · rw [buildZipIndex, Prog.bind_of_ok hopen]
    dsimp only
    rw [Prog.bind_of_ok hoffsets, Prog.bind_of_ok hadd]
    rfl
  · rintro pre R post rfl hR hne hlast
    have hlocal := hzip.locals R (by simp)
    obtain ⟨Z', t'', symlink, hadd', hsrc', hentry⟩ := addStats_stored (ε := ε) hdel hlocal hR hne
      hlast hstats (lookup_putOffset hne hlast) ⟨src, [], []⟩ t₂
    obtain ⟨rfl, -⟩ : Z' = Z ∧ t'' = t' := by
      rw [hadd] at hadd'
      cases hadd'
      exact ⟨rfl, rfl⟩
    have hlt := hdel.length_lt
    have hinside := hlocal.inside
    have hplain := hlocal.plain hR.1 hR.2.1
    have hlen : (R.content bytes).length = R.uncompSize := by
      rw [ZipRecord.content, length_slice_of_le (by omega), hplain]
    refine ⟨_, ⟨Z'.src, R.dataAt bytes, R.uncompSize⟩, hentry, rfl, hlen.symm, rfl, ?_⟩
    intro n off _ hoff
    rw [readZipEntry, if_pos hoff]
    dsimp only
    split
    · rename_i hpast
      rw [slice_of_length_le (by omega)]
    · rename_i hin
      rw [hsrc', hsrc.read _ _ _ (by omega), slice_min (R.content bytes), hlen,
        ZipRecord.content, slice_slice (by omega)]

/-- The root is no entry of an index. -/
theorem buildZipIndex_root {lib : Libzip ε} {src : ByteSource} {bytes : Bytes}
    (hsrc : src.Serves bytes) {recs : List ZipRecord} (hzip : WellFormed bytes recs) {Z : ZipIndex}
    {t t' : ℕ} (h : buildZipIndex lib src t = (.ok (some Z), t')) : Z.entry [] = none := by
  rw [buildZipIndex] at h
  rcases hopen : lib src t with ⟨e | _ | stats, t₁⟩
  · rw [Prog.bind_of_error hopen] at h
    simp at h
  · rw [Prog.bind_of_ok hopen] at h
    simp at h
  · obtain ⟨t₂, hoffsets⟩ := centralDirOffsets_wellFormed (ε := ε) hsrc.delivers hzip t₁
    obtain ⟨Z', t₃, hadd, _, hkeep⟩ := addStats_keeps (ε := ε) src (recs.foldl putOffset []) stats
      ⟨src, [], []⟩ t₂
    rw [Prog.bind_of_ok hopen] at h
    dsimp only at h
    rw [Prog.bind_of_ok hoffsets, Prog.bind_of_ok hadd] at h
    cases h
    exact hkeep [] (Or.inl rfl)

/-! An archive of one entry. -/

/-- A library that reports the given records. -/
def reporting (recs : List ZipRecord) : Libzip Unit := fun _ => pure (some (recs.map fun R =>
  some ⟨some R.name, some R.uncompSize, some R.method, some (if R.encrypted then 1 else 0), none⟩))

theorem reports_reporting (src : ByteSource) (recs : List ZipRecord) :
    Reports (reporting recs) src recs := by
  intro t
  refine ⟨_, t, rfl, ?_⟩
  rw [List.forall₂_map_left_iff, List.forall₂_same]
  intro R _
  refine ⟨_, rfl, rfl, rfl, rfl, _, rfl, ?_⟩
  cases R.encrypted with
  | false => simp
  | true => simp

/-- The local header of a stored file, and its data. -/
def localBytes (name data : Bytes) : Bytes :=
  leBytes 4 0x04034b50 ++ leBytes 10 20 ++ leBytes 4 0 ++ leBytes 4 data.length
    ++ leBytes 4 data.length ++ leBytes 2 name.length ++ leBytes 2 0 ++ name ++ data

/-- Its record in the central directory. -/
def centralBytes (name : Bytes) (size lhOffset : ℕ) : Bytes :=
  leBytes 4 0x02014b50 ++ leBytes 12 20 ++ leBytes 4 0 ++ leBytes 4 size ++ leBytes 4 size
    ++ leBytes 2 name.length ++ leBytes 4 0 ++ leBytes 8 0 ++ leBytes 4 lhOffset ++ name

/-- An archive of two stored files, one with no name and one with the name `a`. -/
def twoEntryZip : Bytes :=
  localBytes [] [0x68] ++ localBytes [0x61] [0x68, 0x69]
    ++ centralBytes [] 1 0 ++ centralBytes [0x61] 2 31
    ++ leBytes 4 0x06054b50 ++ leBytes 4 0 ++ leBytes 2 2 ++ leBytes 2 2 ++ leBytes 4 93
    ++ leBytes 4 64 ++ leBytes 2 0

def namelessEntry : ZipRecord := ⟨[], 0, false, 1, 1, 0⟩

def namedEntry : ZipRecord := ⟨[0x61], 0, false, 2, 2, 31⟩

theorem twoEntryZip_wellFormed : WellFormed twoEntryZip [namelessEntry, namedEntry] := by
  refine ⟨⟨64, ⟨by decide +kernel, by decide +kernel, by decide +kernel,
    Or.inl (by decide +kernel)⟩, ?_⟩, ?_⟩
  · refine @CentralDir.cons _ 64 110 _ _ ?_ (@CentralDir.cons _ 110 157 _ _ ?_ (.nil 157))
    · refine ⟨by decide +kernel, by decide +kernel, by decide +kernel, by decide +kernel,
        by decide +kernel, by decide +kernel, [], by decide +kernel, ?_⟩
      exact ⟨by simp, ⟨by decide +kernel, by decide +kernel⟩,
        ⟨by decide +kernel, by decide +kernel⟩, ⟨by decide +kernel, by decide +kernel⟩,
        fun h => absurd h (by decide +kernel)⟩
    · refine ⟨by decide +kernel, by decide +kernel, by decide +kernel, by decide +kernel,
        by decide +kernel, by decide +kernel, [], by decide +kernel, ?_⟩
      exact ⟨by simp, ⟨by decide +kernel, by decide +kernel⟩,
        ⟨by decide +kernel, by decide +kernel⟩, ⟨by decide +kernel, by decide +kernel⟩,
        fun h => absurd h (by decide +kernel)⟩
  · intro R hR
    rcases List.mem_cons.1 hR with rfl | hR
    · exact ⟨by decide +kernel, by decide +kernel, fun _ _ => rfl⟩
    · obtain rfl := List.mem_singleton.1 hR
      exact ⟨by decide +kernel, by decide +kernel, fun _ _ => rfl⟩

/-- Its source. -/
def twoEntrySource : ByteSource := memByteSource twoEntryZip (by decide +kernel)

theorem twoEntrySource_serves : twoEntrySource.Serves twoEntryZip :=
  ⟨rfl, fun _ _ _ _ => rfl⟩

/-- The file with the name is read as it is stored. -/
theorem twoEntryZip_read : ∃ Z t' E reader,
    buildZipIndex (reporting [namelessEntry, namedEntry]) twoEntrySource 0 = (.ok (some Z), t') ∧
      Z.entry (normalizeVPath [0x61]) = some E ∧ openZipEntry Z E = .ok reader ∧
      readZipEntry reader 100 1 = .ok [0x69] := by
  obtain ⟨Z, t', hbuild, hread⟩ := buildZipIndex_stored (reporting [namelessEntry, namedEntry])
    twoEntrySource twoEntryZip _ twoEntrySource_serves twoEntryZip_wellFormed
    (reports_reporting _ _) 0
  obtain ⟨E, reader, hE, _, _, hopen, hbytes⟩ := hread [namelessEntry] namedEntry [] rfl
    ⟨rfl, rfl, by decide⟩ (by decide) (by simp)
  exact ⟨Z, t', E, reader, hbuild, hE, hopen, (hbytes 100 1 (by decide) (by decide)).trans rfl⟩

/-- The file with no name is a stored file of the archive, and no entry of the index. -/
theorem twoEntryZip_nameless : WellFormed twoEntryZip [namelessEntry, namedEntry] ∧
    Reports (reporting [namelessEntry, namedEntry]) twoEntrySource [namelessEntry, namedEntry] ∧
    namelessEntry.IsStored ∧ normalizeVPath namedEntry.name ≠ normalizeVPath namelessEntry.name ∧
    ∀ Z t', buildZipIndex (reporting [namelessEntry, namedEntry]) twoEntrySource 0
      = (.ok (some Z), t') → Z.entry (normalizeVPath namelessEntry.name) = none :=
  ⟨twoEntryZip_wellFormed, reports_reporting _ _, ⟨rfl, rfl, by decide⟩, by decide,
    fun _ _ h => buildZipIndex_root twoEntrySource_serves twoEntryZip_wellFormed h⟩

end VidyaGodFS
