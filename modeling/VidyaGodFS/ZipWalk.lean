/-
**The walk is safe on any bytes.**

Counts, offsets and lengths all come from the archive, and any of them may be wrong.  The walk is
written here once more, with every access to a buffer checked: one that lies outside is a fault, and
so is a loop that does not come to its end.  It turns out to be the walk itself, so there are no
faults.  A record takes 46 bytes at least, which bounds the number of records that are called back.

Main definitions:

* `Fault`, `at16`, `at32`, `at64` — accesses that are checked;
* `findCentralDirChecked`, `recordOffsetChecked`, `walkRecordsChecked`, `walkCentralDirChecked` —
  the walk with every access checked;
* `ByteSource.EmptyPastSize` — a read that begins at or past the size gives nothing;
* `ByteSource.EndsAtSize` — nothing is read at or past the size;
* `counting` — a callback that counts its calls.

Main results:

* `preadAll_some` — what an exact read has read;
* `walkCentralDirChecked_eq` — **no access lies outside of its buffer**;
* `walkCentralDir_safe` — **the walk ends, after at most one call for every 46 bytes** begun;
* `tornRecord_callsTwice` — a read that runs past the size may give one call more than the records
  that fit.
-/

import VidyaGodFS.ZipScan

set_option relaxedAutoImplicit false
set_option autoImplicit false

namespace VidyaGodFS

variable {ε σ : Type}

/-! ### The walk with checks -/

/-- What must not happen: an access outside of a buffer, or a loop without an end. -/
inductive Fault
  | outside
  | endless
  deriving DecidableEq, Repr

/-- An access to `n` bytes of the buffer at `off`. -/
def inBuffer (p : Bytes) (off n : ℕ) (read : Bytes → ℕ → ℕ) : Prog ℕ Fault ℕ :=
  if off + n ≤ p.length then pure (read p off) else Prog.fail .outside

def at16 (p : Bytes) (off : ℕ) : Prog ℕ Fault ℕ := inBuffer p off 2 rd16

def at32 (p : Bytes) (off : ℕ) : Prog ℕ Fault ℕ := inBuffer p off 4 rd32

def at64 (p : Bytes) (off : ℕ) : Prog ℕ Fault ℕ := inBuffer p off 8 rd64

/-- `findEocd`, checked. -/
def findEocdChecked (buf : Bytes) : ℕ → Prog ℕ Fault (Option ℕ)
  | 0 => do
      let sig ← at32 buf 0
      pure (if sig = 0x06054b50 then some 0 else none)
  | i + 1 => do
      let sig ← at32 buf (i + 1)
      if sig = 0x06054b50 then pure (some (i + 1)) else findEocdChecked buf i

/-- `findCentralDir`, checked. -/
def findCentralDirChecked (src : ByteSource) : Prog ℕ Fault (Option (ℕ × ℕ)) :=
  if src.size < 22 then pure none else do
    let tail := min src.size (22 + 65535)
    let some buf ← src.preadAll tail (src.size - tail) | pure none
    match ← findEocdChecked buf (tail - 22) with
    | none => pure none
    | some eocd => do
        let totalEntries ← at16 buf (eocd + 10)
        let cdOffset ← at32 buf (eocd + 16)
        let eocdFileOff := src.size - tail + eocd
        if cdOffset = SENTINEL32 ∨ totalEntries = SENTINEL16 then
          if eocdFileOff < 20 then pure none else do
            let some loc ← src.preadAll 20 (eocdFileOff - 20) | pure none
            let locSig ← at32 loc 0
            if locSig ≠ 0x07064b50 then pure none else do
              let z64off ← at64 loc 8
              let some z64 ← src.preadAll 56 z64off | pure none
              let z64Sig ← at32 z64 0
              if z64Sig ≠ 0x06064b50 then pure none else do
                let totalEntries ← at64 z64 32
                let cdOffset ← at64 z64 48
                pure (some (totalEntries, cdOffset))
        else pure (some (totalEntries, cdOffset))

/-- `zip64Offset`, checked: it has to end before its turns do. -/
def zip64OffsetChecked (extra : Bytes) (uncompSize32 compSize32 lhOffset : ℕ) :
    ℕ → ℕ → Prog ℕ Fault ℕ
  | 0, e => if e + 4 ≤ extra.length then Prog.fail .endless else pure lhOffset
  | fuel + 1, e =>
      if e + 4 ≤ extra.length then do
        let id ← at16 extra e
        let sz ← at16 extra (e + 2)
        if extra.length < e + 4 + sz then pure lhOffset
        else if id = 0x0001 then
          let stop := e + 4 + sz
          let f := e + 4
          let f := if uncompSize32 = SENTINEL32 ∧ f + 8 ≤ stop then f + 8 else f
          let f := if compSize32 = SENTINEL32 ∧ f + 8 ≤ stop then f + 8 else f
          if f + 8 ≤ stop then at64 extra f else pure lhOffset
        else zip64OffsetChecked extra uncompSize32 compSize32 lhOffset fuel (e + 4 + sz)
      else pure lhOffset

/-- `recordOffset`, checked. -/
def recordOffsetChecked (src : ByteSource) (hdr : Bytes) (pos : ℕ) : Prog ℕ Fault ℕ := do
  let lhOffset ← at32 hdr 42
  let nameLen ← at16 hdr 28
  let extraLen ← at16 hdr 30
  let compSize32 ← at32 hdr 20
  let uncompSize32 ← at32 hdr 24
  if lhOffset = SENTINEL32 then do
    match ← src.preadAll extraLen (add64 pos (46 + nameLen)) with
    | none => pure lhOffset
    | some extra => zip64OffsetChecked extra uncompSize32 compSize32 lhOffset extraLen 0
  else pure lhOffset

/-- The first `n` bytes of a buffer, as a string is made of them. -/
def stringOf (p : Bytes) (n : ℕ) : Prog ℕ Fault Bytes :=
  if n ≤ p.length then pure (p.take n) else Prog.fail .outside

/-- `walkRecords`, checked. -/
def walkRecordsChecked (src : ByteSource) (cb : σ → Bytes → ℕ → ℕ → σ × Bool) :
    ℕ → ℕ → σ → Prog ℕ Fault (Bool × σ)
  | 0, _, s => pure (true, s)
  | n + 1, pos, s => do
      let some hdr ← src.preadAll 46 pos | pure (false, s)
      let sig ← at32 hdr 0
      if sig ≠ 0x02014b50 then pure (false, s) else do
        let method ← at16 hdr 10
        let nameLen ← at16 hdr 28
        let extraLen ← at16 hdr 30
        let commLen ← at16 hdr 32
        let some buf ← src.preadAll nameLen (add64 pos 46) | pure (false, s)
        let lhOffset ← recordOffsetChecked src hdr pos
        let name ← stringOf buf nameLen
        let (s, go) := cb s name method lhOffset
        if go then
          walkRecordsChecked src cb n (add64 pos (46 + nameLen + extraLen + commLen)) s
        else pure (true, s)

def walkCentralDirChecked (src : ByteSource) (cb : σ → Bytes → ℕ → ℕ → σ × Bool) (s : σ) :
    Prog ℕ Fault (Bool × σ) := do
  match ← findCentralDirChecked src with
  | none => pure (false, s)
  | some (totalEntries, cdOffset) => walkRecordsChecked src cb totalEntries cdOffset s

/-! ### What an exact read has read -/

/-- A read that begins at or past the size of the source gives no byte.  One that begins before it
may run past it. -/
def ByteSource.EmptyPastSize (src : ByteSource) : Prop :=
  ∀ t n off bs, src.pread t n off = .ok bs → src.size ≤ off → bs = []

/-- No byte at or past the size of the source is ever returned. -/
def ByteSource.EndsAtSize (src : ByteSource) : Prop :=
  ∀ t n off bs, src.pread t n off = .ok bs → bs ≠ [] → off + bs.length ≤ src.size

theorem ByteSource.EndsAtSize.emptyPastSize {src : ByteSource} (h : src.EndsAtSize) :
    src.EmptyPastSize := by
  intro t n off bs hread hoff
  by_contra hne
  have hin := h t n off bs hread hne
  have hpos := List.length_pos_of_ne_nil hne
  omega

theorem preadAllLoop_some {src : ByteSource} :
    ∀ (fuel n off : ℕ) (done out : Bytes) (t t' : ℕ), n ≤ fuel →
      (src.preadAllLoop fuel n off done : Prog ℕ ε _) t = (.ok (some out), t') →
      out.length = done.length + n ∧ (src.EndsAtSize → 0 < n → off + n ≤ src.size) := by
  intro fuel
  induction fuel with
  | zero =>
      intro n off done out t t' hn h
      obtain rfl : done = out := by
        rw [ByteSource.preadAllLoop] at h
        simpa using congrArg Prod.fst h
      exact ⟨by omega, by omega⟩
  | succ fuel ih =>
      intro n off done out t t' hn h
      rw [ByteSource.preadAllLoop] at h
      by_cases hzero : n = 0
      · rw [if_pos hzero] at h
        obtain rfl : done = out := by simpa using congrArg Prod.fst h
        exact ⟨by omega, by omega⟩
      · rw [if_neg hzero] at h
        have hstep : (src.read n off : Prog ℕ ε _) t = (.ok (src.pread t n off), t + 1) := rfl
        rw [Prog.bind_of_ok hstep] at h
        rcases hread : src.pread t n off with e | _ | ⟨b, bs⟩
        · rw [hread] at h
          cases h
        · rw [hread] at h
          cases h
        · rw [hread] at h
          dsimp only at h
          have hle := src.length_pread_le hread
          have hpos : 0 < (b :: bs).length := by simp
          obtain ⟨hlen, hin⟩ := ih _ _ _ _ _ _ (by omega) h
          rw [List.length_append] at hlen
          refine ⟨by omega, fun hend _ => ?_⟩
          have hfirst := hend t n off _ hread (by simp)
          have hsize := src.size_lt
          rw [add64_eq (by omega)] at hin
          rcases Nat.eq_zero_or_pos (n - (b :: bs).length) with hrest | hrest
          · omega
          · have := hin hend hrest
            omega

/-- **An exact read has read as many bytes as were asked for**, and where nothing is read past the
size they lie before it. -/
theorem preadAll_some {src : ByteSource} {n off t t' : ℕ} {out : Bytes}
    (h : (src.preadAll n off : Prog ℕ ε _) t = (.ok (some out), t')) :
    out.length = n ∧ (src.EndsAtSize → 0 < n → off + n ≤ src.size) := by
  obtain ⟨hlen, hin⟩ := preadAllLoop_some n n off [] out t t' le_rfl h
  exact ⟨by simpa using hlen, hin⟩

/-- An exact read of at least one byte has begun before the size. -/
theorem preadAll_begins {src : ByteSource} (hempty : src.EmptyPastSize) {n off t t' : ℕ}
    {out : Bytes} (hn : 0 < n)
    (h : (src.preadAll n off : Prog ℕ ε _) t = (.ok (some out), t')) : off < src.size := by
  by_contra hoff
  obtain ⟨n, rfl⟩ := Nat.exists_eq_add_of_lt hn
  rw [ByteSource.preadAll, ByteSource.preadAllLoop, if_neg (by omega)] at h
  have hstep : (src.read (0 + n + 1) off : Prog ℕ ε _) t
      = (.ok (src.pread t (0 + n + 1) off), t + 1) := rfl
  rw [Prog.bind_of_ok hstep] at h
  rcases hread : src.pread t (0 + n + 1) off with e | bs
  · rw [hread] at h
    cases h
  · obtain rfl := hempty t _ off bs hread (Nat.le_of_not_lt hoff)
    rw [hread] at h
    cases h

/-! ### No access lies outside -/

theorem inBuffer_eq {p : Bytes} {off n : ℕ} (h : off + n ≤ p.length) (read : Bytes → ℕ → ℕ) :
    inBuffer p off n read = pure (read p off) := if_pos h

theorem at16_eq {p : Bytes} {off : ℕ} (h : off + 2 ≤ p.length) : at16 p off = pure (rd16 p off) :=
  inBuffer_eq h rd16

theorem at32_eq {p : Bytes} {off : ℕ} (h : off + 4 ≤ p.length) : at32 p off = pure (rd32 p off) :=
  inBuffer_eq h rd32

theorem at64_eq {p : Bytes} {off : ℕ} (h : off + 8 ≤ p.length) : at64 p off = pure (rd64 p off) :=
  inBuffer_eq h rd64

theorem findEocdChecked_eq {buf : Bytes} :
    ∀ {i : ℕ}, i + 4 ≤ buf.length → findEocdChecked buf i = pure (findEocd buf i) := by
  intro i
  induction i with
  | zero =>
      intro h
      rw [findEocdChecked, at32_eq h, Prog.pure_bind, findEocd]
  | succ i ih =>
      intro h
      rw [findEocdChecked, at32_eq h, Prog.pure_bind, ih (by omega), findEocd]
      split
      · rfl
      · rfl

/-- The end record that is found begins where it can end. -/
theorem findEocd_le {buf : Bytes} : ∀ {i j : ℕ}, findEocd buf i = some j → j ≤ i := by
  intro i
  induction i with
  | zero =>
      intro j h
      rw [findEocd] at h
      split at h
      · exact (Option.some_inj.1 h).ge
      · cases h
  | succ i ih =>
      intro j h
      rw [findEocd] at h
      split at h
      · exact (Option.some_inj.1 h).ge
      · exact (ih h).trans (Nat.le_succ i)

theorem findCentralDirChecked_eq (src : ByteSource) (t : ℕ) :
    findCentralDirChecked src t = findCentralDir src t := by
  rw [findCentralDirChecked, findCentralDir]
  split
  · rfl
  · refine Prog.bind_congr_apply fun buf t₁ hbuf => ?_
    cases buf with
    | none => rfl
    | some buf =>
        obtain ⟨hlen, -⟩ := preadAll_some hbuf
        dsimp only
        rw [findEocdChecked_eq (by omega), Prog.pure_bind]
        cases hfind : findEocd buf (min src.size (22 + 65535) - 22) with
        | none => rfl
        | some eocd =>
            have hle := findEocd_le hfind
            dsimp only
            rw [at16_eq (by omega), Prog.pure_bind, at32_eq (by omega), Prog.pure_bind]
            split
            · split
              · rfl
              · refine Prog.bind_congr_apply fun loc t₂ hloc => ?_
                cases loc with
                | none => rfl
                | some loc =>
                    obtain ⟨hloclen, -⟩ := preadAll_some hloc
                    dsimp only
                    rw [at32_eq (by omega), Prog.pure_bind]
                    split
                    · rfl
                    · rw [at64_eq (by omega), Prog.pure_bind]
                      refine Prog.bind_congr_apply fun z64 t₃ hz64 => ?_
                      cases z64 with
                      | none => rfl
                      | some z64 =>
                          obtain ⟨hzlen, -⟩ := preadAll_some hz64
                          dsimp only
                          rw [at32_eq (by omega), Prog.pure_bind]
                          split
                          · rfl
                          · rw [at64_eq (by omega), Prog.pure_bind, at64_eq (by omega),
                              Prog.pure_bind]
            · rfl

/-- The loop over the extra field ends, for every turn goes on by four bytes at least. -/
theorem zip64OffsetChecked_eq {extra : Bytes} (u c lh : ℕ) :
    ∀ (fuel e : ℕ), extra.length ≤ e + fuel →
      zip64OffsetChecked extra u c lh fuel e = pure (zip64Offset extra u c lh fuel e) := by
  intro fuel
  induction fuel with
  | zero =>
      intro e hlen
      rw [zip64OffsetChecked, if_neg (by omega), zip64Offset]
  | succ fuel ih =>
      intro e hlen
      rw [zip64OffsetChecked, zip64Offset]
      split
      · rw [at16_eq (by omega), Prog.pure_bind, at16_eq (by omega), Prog.pure_bind]
        dsimp only
        split
        · rfl
        · rename_i hin
          split
          · have hread : ∀ f, (if f + 8 ≤ e + 4 + rd16 extra (e + 2) then at64 extra f else pure lh)
                = pure (if f + 8 ≤ e + 4 + rd16 extra (e + 2) then rd64 extra f else lh) := by
              intro f
              split
              · exact at64_eq (by omega)
              · rfl
            exact hread _
          · exact ih _ (by omega)
      · rfl

theorem recordOffsetChecked_eq (src : ByteSource) {hdr : Bytes} (hlen : hdr.length = 46)
    (pos t : ℕ) : recordOffsetChecked src hdr pos t = recordOffset src hdr pos t := by
  rw [recordOffsetChecked, at32_eq (by omega), Prog.pure_bind, at16_eq (by omega), Prog.pure_bind,
    at16_eq (by omega), Prog.pure_bind, at32_eq (by omega), Prog.pure_bind, at32_eq (by omega),
    Prog.pure_bind, recordOffset]
  split
  · refine Prog.bind_congr_apply fun extra t₁ hextra => ?_
    cases extra with
    | none => rfl
    | some extra =>
        obtain ⟨helen, -⟩ := preadAll_some hextra
        dsimp only
        rw [← helen, zip64OffsetChecked_eq _ _ _ _ _ (by omega)]
  · rfl

theorem walkRecordsChecked_eq (src : ByteSource) (cb : σ → Bytes → ℕ → ℕ → σ × Bool) :
    ∀ (n pos : ℕ) (s : σ) (t : ℕ),
      walkRecordsChecked src cb n pos s t = walkRecords src cb n pos s t := by
  intro n
  induction n with
  | zero => exact fun _ _ _ => rfl
  | succ n ih =>
      intro pos s t
      rw [walkRecordsChecked, walkRecords]
      refine Prog.bind_congr_apply fun hdr t₁ hhdr => ?_
      cases hdr with
      | none => rfl
      | some hdr =>
          obtain ⟨hlen, -⟩ := preadAll_some hhdr
          dsimp only
          rw [at32_eq (by omega), Prog.pure_bind]
          split
          · rfl
          · rw [at16_eq (by omega), Prog.pure_bind, at16_eq (by omega), Prog.pure_bind,
              at16_eq (by omega), Prog.pure_bind, at16_eq (by omega), Prog.pure_bind]
            refine Prog.bind_congr_apply fun name t₂ hname => ?_
            cases name with
            | none => rfl
            | some name =>
                obtain ⟨hnamelen, -⟩ := preadAll_some hname
                dsimp only
                have hlh := recordOffsetChecked_eq src hlen pos t₂
                rcases hrun : (recordOffset src hdr pos : Prog ℕ Fault ℕ) t₂ with ⟨e | lh, t₃⟩
                · rw [Prog.bind_of_error (hlh.trans hrun), Prog.bind_of_error hrun]
                · rw [Prog.bind_of_ok (hlh.trans hrun), Prog.bind_of_ok hrun, stringOf,
                    if_pos hnamelen.ge, Prog.pure_bind, ← hnamelen, List.take_length]
                  split
                  · exact ih _ _ _
                  · rfl

/-- **No access of the walk lies outside of its buffer**, and its inner loop ends: the walk with
checks is the walk. -/
theorem walkCentralDirChecked_eq (src : ByteSource) (cb : σ → Bytes → ℕ → ℕ → σ × Bool) (s : σ)
    (t : ℕ) : walkCentralDirChecked src cb s t = walkCentralDir src cb s t := by
  rw [walkCentralDirChecked, walkCentralDir]
  have hfind := findCentralDirChecked_eq src t
  rcases hrun : (findCentralDir src : Prog ℕ Fault _) t with ⟨e | _ | ⟨total, cdOffset⟩, t₁⟩
  · rw [Prog.bind_of_error (hfind.trans hrun), Prog.bind_of_error hrun]
  · rw [Prog.bind_of_ok (hfind.trans hrun), Prog.bind_of_ok hrun]
  · rw [Prog.bind_of_ok (hfind.trans hrun), Prog.bind_of_ok hrun]
    exact walkRecordsChecked_eq src cb _ _ _ _

/-! ### The walk ends -/

theorem rd16_lt (p : Bytes) (off : ℕ) : rd16 p off < 2 ^ 16 := by
  have hlt := leNat_lt (slice p off 2)
  have hlen : (slice p off 2).length ≤ 2 := by
    rw [length_slice]
    omega
  exact hlt.trans_le ((Nat.pow_le_pow_right (by norm_num) hlen).trans (by norm_num))

theorem preadAll_ends (src : ByteSource) (n off t : ℕ) :
    ∃ r t', (src.preadAll n off : Prog ℕ ε _) t = (.ok r, t') :=
  src.preadAllLoop_ok n n off [] t

theorem findCentralDir_ends (src : ByteSource) (t : ℕ) :
    ∃ r t', (findCentralDir src : Prog ℕ ε _) t = (.ok r, t') := by
  rw [findCentralDir]
  split
  · exact ⟨_, t, rfl⟩
  · obtain ⟨r, t₁, h₁⟩ := preadAll_ends (ε := ε) src (min src.size (22 + 65535))
      (src.size - min src.size (22 + 65535)) t
    rw [Prog.bind_of_ok h₁]
    cases r with
    | none => exact ⟨_, t₁, rfl⟩
    | some buf =>
        dsimp only
        cases findEocd buf (min src.size (22 + 65535) - 22) with
        | none => exact ⟨_, t₁, rfl⟩
        | some eocd =>
            dsimp only
            split
            · split
              · exact ⟨_, t₁, rfl⟩
              · obtain ⟨r, t₂, h₂⟩ := preadAll_ends (ε := ε) src 20
                  (src.size - min src.size (22 + 65535) + eocd - 20) t₁
                rw [Prog.bind_of_ok h₂]
                cases r with
                | none => exact ⟨_, t₂, rfl⟩
                | some loc =>
                    dsimp only
                    split
                    · exact ⟨_, t₂, rfl⟩
                    · obtain ⟨r, t₃, h₃⟩ := preadAll_ends (ε := ε) src 56 (rd64 loc 8) t₂
                      rw [Prog.bind_of_ok h₃]
                      cases r with
                      | none => exact ⟨_, t₃, rfl⟩
                      | some z64 =>
                          dsimp only
                          split
                          · exact ⟨_, t₃, rfl⟩
                          · exact ⟨_, t₃, rfl⟩
            · exact ⟨_, t₁, rfl⟩

theorem recordOffset_ends (src : ByteSource) (hdr : Bytes) (pos t : ℕ) :
    ∃ lh t', (recordOffset src hdr pos : Prog ℕ ε ℕ) t = (.ok lh, t') := by
  rw [recordOffset]
  split
  · obtain ⟨r, t₁, h₁⟩ := preadAll_ends (ε := ε) src (rd16 hdr 30)
      (add64 pos (46 + rd16 hdr 28)) t
    rw [Prog.bind_of_ok h₁]
    cases r with
    | none => exact ⟨_, t₁, rfl⟩
    | some extra => exact ⟨_, t₁, rfl⟩
  · exact ⟨_, t, rfl⟩

/-- The callback `cb`, and the number of its calls. -/
def counting (cb : σ → Bytes → ℕ → ℕ → σ × Bool) (s : σ × ℕ) (name : Bytes) (method lhOffset : ℕ) :
    (σ × ℕ) × Bool :=
  (((cb s.1 name method lhOffset).1, s.2 + 1), (cb s.1 name method lhOffset).2)

/-- **Every record that is called back begins 46 bytes after the one before it, inside the source**,
from `pos` on; where nothing is read past the size it lies inside the source. -/
theorem walkRecords_calls {src : ByteSource} (hsize : src.size < 2 ^ 63)
    (hempty : src.EmptyPastSize) (cb : σ → Bytes → ℕ → ℕ → σ × Bool) :
    ∀ (n pos : ℕ) (s : σ) (k t : ℕ), ∃ found s' k' t',
      (walkRecords src (counting cb) n pos (s, k) : Prog ℕ ε _) t = (.ok (found, (s', k')), t') ∧
        (k' = k ∨ k < k' ∧ pos + 46 * (k' - k) < src.size + 46 ∧
          (src.EndsAtSize → pos + 46 * (k' - k) ≤ src.size)) := by
  intro n
  induction n with
  | zero => exact fun pos s k t => ⟨true, s, k, t, rfl, Or.inl rfl⟩
  | succ n ih =>
      intro pos s k t
      rw [walkRecords]
      obtain ⟨r, t₁, h₁⟩ := preadAll_ends (ε := ε) src 46 pos t
      rw [Prog.bind_of_ok h₁]
      cases r with
      | none => exact ⟨false, s, k, t₁, rfl, Or.inl rfl⟩
      | some hdr =>
          have hin : pos < src.size := preadAll_begins hempty (by omega) h₁
          have hall : src.EndsAtSize → pos + 46 ≤ src.size := fun hend =>
            (preadAll_some h₁).2 hend (by omega)
          dsimp only
          split
          · exact ⟨false, s, k, t₁, rfl, Or.inl rfl⟩
          · obtain ⟨r, t₂, h₂⟩ := preadAll_ends (ε := ε) src (rd16 hdr 28) (add64 pos 46) t₁
            rw [Prog.bind_of_ok h₂]
            cases r with
            | none => exact ⟨false, s, k, t₂, rfl, Or.inl rfl⟩
            | some name =>
                obtain ⟨lh, t₃, h₃⟩ := recordOffset_ends (ε := ε) src hdr pos t₂
                dsimp only
                rw [Prog.bind_of_ok h₃, counting]
                dsimp only
                split
                · -- the next record begins behind this one, and the position does not wrap
                  have h28 := rd16_lt hdr 28
                  have h30 := rd16_lt hdr 30
                  have h32 := rd16_lt hdr 32
                  rw [add64_eq (by omega)]
                  obtain ⟨found, s', k', t', hrun, hk⟩ := ih
                    (pos + (46 + rd16 hdr 28 + rd16 hdr 30 + rd16 hdr 32))
                    (cb s name (rd16 hdr 10) lh).1 (k + 1) t₃
                  refine ⟨found, s', k', t', hrun, Or.inr ?_⟩
                  rcases hk with rfl | ⟨hlt, hbegun, hwhole⟩
                  · exact ⟨by omega, by omega, fun hend => by have := hall hend; omega⟩
                  · exact ⟨by omega, by omega, fun hend => by have := hwhole hend; omega⟩
                · exact ⟨true, _, k + 1, t₃, rfl, Or.inr
                    ⟨by omega, by omega, fun hend => by have := hall hend; omega⟩⟩

/-- **The walk is safe on any bytes.**  Whatever the source holds and whatever the callback says,
the walk ends with no access outside of a buffer, and the callback is called at most once for every
46 bytes of the source, begun or, where nothing is read past the size, whole. -/
theorem walkCentralDir_safe (src : ByteSource) (hsize : src.size < 2 ^ 63)
    (hempty : src.EmptyPastSize) (cb : σ → Bytes → ℕ → ℕ → σ × Bool) (s : σ) (t : ℕ) :
    ∃ found s' calls t', walkCentralDirChecked src (counting cb) (s, 0) t
        = (.ok (found, (s', calls)), t') ∧
      walkCentralDir src (counting cb) (s, 0) t
        = ((.ok (found, (s', calls)) : Except Fault _), t') ∧
      calls ≤ (src.size + 45) / 46 ∧ (src.EndsAtSize → calls ≤ src.size / 46) := by
  have hsame := walkCentralDirChecked_eq src (counting cb) (s, 0) t
  obtain ⟨r, t₁, h₁⟩ := findCentralDir_ends (ε := Fault) src t
  have hrun : ∃ found s' calls t', walkCentralDir src (counting cb) (s, 0) t
      = ((.ok (found, (s', calls)) : Except Fault _), t') ∧
        calls ≤ (src.size + 45) / 46 ∧ (src.EndsAtSize → calls ≤ src.size / 46) := by
    rw [walkCentralDir, Prog.bind_of_ok h₁]
    cases r with
    | none => exact ⟨false, s, 0, t₁, rfl, Nat.zero_le _, fun _ => Nat.zero_le _⟩
    | some r =>
        obtain ⟨found, s', k', t', hwalk, hk⟩ := walkRecords_calls (ε := Fault) hsize hempty cb
          r.1 r.2 s 0 t₁
        refine ⟨found, s', k', t', hwalk, ?_, fun hend => ?_⟩
        · rw [Nat.le_div_iff_mul_le (by norm_num)]
          omega
        · rw [Nat.le_div_iff_mul_le (by norm_num)]
          rcases hk with rfl | ⟨-, -, hwhole⟩
          · omega
          · have := hwhole hend
            omega
  obtain ⟨found, s', calls, t', hwalk, hcalls⟩ := hrun
  exact ⟨found, s', calls, t', hsame.trans hwalk, hwalk, hcalls⟩

/-- Nothing is read past the end of a buffer. -/
theorem memByteSource_endsAtSize (data : Bytes) (h : data.length < 2 ^ 64) :
    (memByteSource data h).EndsAtSize := by
  intro t n off bs hread hne
  obtain rfl := Except.ok.inj hread
  have hpos := List.length_pos_of_ne_nil hne
  change off + (slice data off n).length ≤ data.length
  rw [length_slice] at hpos ⊢
  omega

/-- One record, and an end record that promises 65534 of them. -/
def boastingZip : Bytes :=
  leBytes 46 0x02014b50 ++ leBytes 4 0x06054b50 ++ leBytes 6 0 ++ leBytes 2 0xfffe ++ leBytes 10 0

/-- Its walk ends after one call. -/
theorem boastingZip_safe : ∃ found calls t',
    walkCentralDirChecked (memByteSource boastingZip (by decide))
        (counting fun (_ : Unit) _ _ _ => ((), true)) ((), 0) 0 = (.ok (found, ((), calls)), t') ∧
      calls ≤ 1 := by
  obtain ⟨found, s', calls, t', hrun, _, _, hcalls⟩ := walkCentralDir_safe
    (memByteSource boastingZip (by decide)) (by decide)
    (memByteSource_endsAtSize _ _).emptyPastSize (fun (_ : Unit) _ _ _ => ((), true)) () 0
  exact ⟨found, calls, t', hrun, hcalls (memByteSource_endsAtSize _ _)⟩

/-- Two records, the first of them with an end record inside that promises two, from the start of
the file. -/
def tornRecord : Bytes :=
  leBytes 4 0x02014b50 ++ leBytes 4 0x06054b50 ++ leBytes 6 0 ++ leBytes 2 2 ++ leBytes 30 0
    ++ leBytes 46 0x02014b50

/-- A file of 47 bytes by its size, whose reads run past it when they begin before it: it has grown
since its size was taken. -/
def tornRecordSource : ByteSource where
  size := 47
  pread _ n off := .ok (if 47 ≤ off then [] else slice tornRecord off n)
  size_lt := by decide
  length_pread_le := by
    intro t n off bs hbs
    obtain rfl := Except.ok.inj hbs
    split
    · exact Nat.zero_le _
    · rw [length_slice]
      omega

/-- **A read that runs past the size gives one call more**: two records are called back, though only
one of them fits in the 47 bytes. -/
theorem tornRecord_callsTwice :
    tornRecordSource.EmptyPastSize ∧ tornRecordSource.size < 2 ^ 63 ∧
      ∃ found t', walkCentralDir tornRecordSource (counting fun (_ : Unit) _ _ _ => ((), true))
          ((), 0) 0 = ((.ok (found, ((), 2)) : Except Fault _), t') ∧
        ¬ 2 ≤ tornRecordSource.size / 46 := by
  refine ⟨?_, by decide, true, ?_⟩
  · intro t n off bs hread hoff
    have h47 : 47 ≤ off := hoff
    exact ((Except.ok.inj hread).symm.trans (if_pos h47))
  · exact ⟨3, by rfl, by decide⟩

end VidyaGodFS
