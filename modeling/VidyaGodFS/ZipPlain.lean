/-
**Where the directory of a plain archive is looked for.**

An archive ends with its end record and a comment of any bytes.  The walk looks for the end record
by its signature, from the end on, and takes the first place it comes to; it does not ask whether
the comment that would follow has the length the record says.  So a comment that holds the
signature hides the record, and a number that is a sentinel in a ZIP64 archive is taken for one.

Here is described what a plain archive is, what the walk takes for the end record, and what it then
lists, and it is proved when the two are the same.

Main definitions:

* `LastEnd`, `Tells` — the place that is taken for the end record, and what it tells;
* `Called`, `RecordAt`, `Listed` — what is listed from an offset on;
* `PlainAt`, `PlainZip` — a plain archive;
* `FindsAll` — the walk comes to every record.

Main results:

* `findCentralDir_iff`, `walkRecords_listed`, `listed_of_walkRecords` — what the walk finds;
* `walkCentralDir_plain_iff` — **when the records of a plain archive are found**.
-/

import VidyaGodFS.ZipWalk
import VidyaGodFS.ZipStored

set_option relaxedAutoImplicit false
set_option autoImplicit false

namespace VidyaGodFS

variable {ε σ : Type}

/-! ### Reading a source that holds bytes -/

/-- What an exact read of `n` bytes at `off` comes to. -/
def bytesAt (bytes : Bytes) (n off : ℕ) : Option Bytes :=
  if n = 0 ∨ off + n ≤ bytes.length then some (slice bytes off n) else none

theorem preadAll_bytesAt {src : ByteSource} {bytes : Bytes} (h : src.Delivers bytes)
    (hend : src.EndsAtSize) (n off t : ℕ) :
    ∃ t', (src.preadAll n off : Prog ℕ ε _) t = (.ok (bytesAt bytes n off), t') := by
  rw [bytesAt]
  split
  · rename_i hin
    rcases hin with rfl | hin
    · exact ⟨t, by rw [slice_zero]; rfl⟩
    · exact ByteSource.preadAll_delivers h hin t
  · rename_i hout
    obtain ⟨r, t', hrun⟩ := preadAll_ends (ε := ε) src n off t
    cases r with
    | none => exact ⟨t', hrun⟩
    | some out =>
        have hsize := h.size_eq
        have := (preadAll_some hrun).2 hend (by omega)
        omega

/-! ### The end record -/

/-- **The last place, near enough to the end, where the signature of an end record stands**, with
room for the record. -/
structure LastEnd (bytes : Bytes) (e : ℕ) : Prop where
  inside : e + 22 ≤ bytes.length
  near : bytes.length ≤ e + 22 + 65535
  sig : rd32 bytes e = 0x06054b50
  last : ∀ e', e < e' → e' + 22 ≤ bytes.length → rd32 bytes e' ≠ 0x06054b50

theorem LastEnd.unique {bytes : Bytes} {e e' : ℕ} (h : LastEnd bytes e) (h' : LastEnd bytes e') :
    e = e' := by
  rcases Nat.lt_trichotomy e e' with hlt | heq | hlt
  · exact absurd h'.sig (h.last e' hlt h'.inside)
  · exact heq
  · exact absurd h.sig (h'.last e hlt h.inside)

/-- **What an end record at `e` tells**: there are `total` records from `off` on.  It says so itself,
or it has a sentinel and a ZIP64 record says so. -/
def Tells (bytes : Bytes) (e total off : ℕ) : Prop :=
  (rd16 bytes (e + 10) = total ∧ total ≠ SENTINEL16 ∧ rd32 bytes (e + 16) = off ∧
    off ≠ SENTINEL32) ∨
  ((rd32 bytes (e + 16) = SENTINEL32 ∨ rd16 bytes (e + 10) = SENTINEL16) ∧ 20 ≤ e ∧
    rd32 bytes (e - 20) = 0x07064b50 ∧
    rd64 bytes (e - 20 + 8) + 56 ≤ bytes.length ∧
    rd32 bytes (rd64 bytes (e - 20 + 8)) = 0x06064b50 ∧
    rd64 bytes (rd64 bytes (e - 20 + 8) + 32) = total ∧
    rd64 bytes (rd64 bytes (e - 20 + 8) + 48) = off)

/-- The scan comes to the last place. -/
theorem findEocd_iff {buf : Bytes} : ∀ {i j : ℕ}, findEocd buf i = some j ↔
    j ≤ i ∧ rd32 buf j = 0x06054b50 ∧ ∀ k, j < k → k ≤ i → rd32 buf k ≠ 0x06054b50 := by
  intro i
  induction i with
  | zero =>
      intro j
      rw [findEocd]
      constructor
      · intro h
        split at h
        · rename_i hsig
          obtain rfl := Option.some_inj.1 h
          exact ⟨le_rfl, hsig, by omega⟩
        · cases h
      · rintro ⟨hj, hsig, _⟩
        obtain rfl := Nat.le_zero.1 hj
        rw [if_pos hsig]
  | succ i ih =>
      intro j
      rw [findEocd]
      by_cases hsig : rd32 buf (i + 1) = 0x06054b50
      · rw [if_pos hsig]
        constructor
        · intro h
          obtain rfl := Option.some_inj.1 h
          exact ⟨le_rfl, hsig, by omega⟩
        · rintro ⟨hj, _, hlast⟩
          by_contra hne
          exact hlast (i + 1) (by rw [Option.some_inj] at hne; omega) le_rfl hsig
      · rw [if_neg hsig, ih]
        constructor
        · rintro ⟨hj, hjsig, hlast⟩
          refine ⟨by omega, hjsig, fun k hjk hki => ?_⟩
          rcases Nat.lt_or_eq_of_le hki with hlt | rfl
          · exact hlast k hjk (by omega)
          · exact hsig
        · rintro ⟨hj, hjsig, hlast⟩
          have hne : j ≠ i + 1 := by
            rintro rfl
            exact hsig hjsig
          exact ⟨by omega, hjsig, fun k hjk hki => hlast k hjk (by omega)⟩

/-- What the last end record tells is told. -/
theorem LastEnd.tells_iff {bytes : Bytes} {e total off : ℕ} (h : LastEnd bytes e) :
    (∃ e', LastEnd bytes e' ∧ Tells bytes e' total off) ↔ Tells bytes e total off := by
  constructor
  · rintro ⟨e', he', htells⟩
    rwa [h.unique he']
  · exact fun htells => ⟨e, h, htells⟩

/-- **The last end record is the one that the scan of the tail comes to.** -/
theorem lastEnd_iff_findEocd {bytes : Bytes} {tail : ℕ} (hlong : 22 ≤ bytes.length)
    (htail : min bytes.length (22 + 65535) = tail) {e : ℕ} :
    LastEnd bytes e ↔ ∃ j, findEocd (slice bytes (bytes.length - tail) tail) (tail - 22) = some j ∧
      e = bytes.length - tail + j := by
  -- a place in the tail, and the place in the file
  have hsig : ∀ k, k + 22 ≤ tail → rd32 (slice bytes (bytes.length - tail) tail) k
      = rd32 bytes (bytes.length - tail + k) := fun k hk => rd32_slice (by omega)
  constructor
  · rintro ⟨hin, hnear, hesig, hno⟩
    refine ⟨e - (bytes.length - tail), findEocd_iff.2 ⟨by omega, ?_, ?_⟩, by omega⟩
    · rw [hsig _ (by omega), ← hesig]
      congr 1
      omega
    · intro k hk hk'
      rw [hsig _ (by omega)]
      exact hno _ (by omega) (by omega)
  · rintro ⟨j, hj, rfl⟩
    obtain ⟨hjle, hjsig, hno⟩ := findEocd_iff.1 hj
    refine ⟨by omega, by omega, by rw [← hsig _ (by omega), hjsig], ?_⟩
    intro e' he' hin'
    have := hno (e' - (bytes.length - tail)) (by omega) (by omega)
    rw [hsig _ (by omega)] at this
    have hback : bytes.length - tail + (e' - (bytes.length - tail)) = e' := by omega
    rwa [hback] at this

/-- An end record with a sentinel leaves it to the ZIP64 record. -/
theorem tells_of_sentinel {bytes : Bytes} {e total off : ℕ}
    (hsent : rd32 bytes (e + 16) = SENTINEL32 ∨ rd16 bytes (e + 10) = SENTINEL16) :
    Tells bytes e total off ↔ 20 ≤ e ∧ rd32 bytes (e - 20) = 0x07064b50 ∧
      rd64 bytes (e - 20 + 8) + 56 ≤ bytes.length ∧
      rd32 bytes (rd64 bytes (e - 20 + 8)) = 0x06064b50 ∧
      rd64 bytes (rd64 bytes (e - 20 + 8) + 32) = total ∧
      rd64 bytes (rd64 bytes (e - 20 + 8) + 48) = off := by
  constructor
  · rintro (⟨htotal, hne, hoff, hne'⟩ | ⟨-, hzip64⟩)
    · rcases hsent with hsent | hsent
      · exact absurd (hoff.symm.trans hsent) hne'
      · exact absurd (htotal.symm.trans hsent) hne
    · exact hzip64
  · exact fun hzip64 => Or.inr ⟨hsent, hzip64⟩

/-- **The directory is looked for where the last end record says.** -/
theorem findCentralDir_iff {src : ByteSource} {bytes : Bytes} (h : src.Delivers bytes)
    (hend : src.EndsAtSize) (t : ℕ) :
    ∃ r t', (findCentralDir src : Prog ℕ ε _) t = (.ok r, t') ∧
      ∀ total off, r = some (total, off) ↔ ∃ e, LastEnd bytes e ∧ Tells bytes e total off := by
  rw [findCentralDir, h.size_eq]
  split
  · rename_i hshort
    refine ⟨none, t, rfl, fun total off => ⟨by rintro ⟨⟩, ?_⟩⟩
    rintro ⟨e, hlast, -⟩
    have := hlast.inside
    omega
  · rename_i hlong
    generalize htail : min bytes.length (22 + 65535) = tail
    have hle : 22 ≤ tail ∧ tail ≤ bytes.length := by omega
    have hin : bytes.length - tail + tail ≤ bytes.length := by omega
    obtain ⟨t₁, h₁⟩ := ByteSource.preadAll_delivers (ε := ε) h hin t
    rw [Prog.bind_of_ok h₁]
    dsimp only
    have hlast : ∀ e, LastEnd bytes e ↔ _ := fun e =>
      lastEnd_iff_findEocd (Nat.le_of_not_lt hlong) htail
    cases hfind : findEocd (slice bytes (bytes.length - tail) tail) (tail - 22) with
    | none =>
        refine ⟨none, t₁, rfl, fun total off => ⟨by rintro ⟨⟩, ?_⟩⟩
        rintro ⟨e, he, -⟩
        obtain ⟨j, hj, -⟩ := (hlast e).1 he
        rw [hfind] at hj
        cases hj
    | some j =>
        obtain ⟨e, he⟩ : ∃ e, e = bytes.length - tail + j := ⟨_, rfl⟩
        have heLast : LastEnd bytes e := (hlast e).2 ⟨j, hfind, he⟩
        have hjle := (findEocd_iff.1 hfind).1
        simp only [heLast.tells_iff]
        have hat : ∀ k, bytes.length - tail + (j + k) = e + k := by omega
        rw [rd16_slice (by omega), rd32_slice (by omega), hat, hat, ← he]
        by_cases hsent : rd32 bytes (e + 16) = SENTINEL32 ∨ rd16 bytes (e + 10) = SENTINEL16
        · -- the ZIP64 record, if all of it is there
          rw [if_pos hsent]
          simp only [tells_of_sentinel hsent]
          have hein := heLast.inside
          by_cases hroom : e < 20
          · rw [if_pos hroom]
            refine ⟨none, t₁, rfl, fun total off => ⟨by rintro ⟨⟩, ?_⟩⟩
            rintro ⟨h20, -⟩
            omega
          · rw [if_neg hroom]
            have hlocin : e - 20 + 20 ≤ bytes.length := by omega
            obtain ⟨t₂, h₂⟩ := ByteSource.preadAll_delivers (ε := ε) h hlocin t₁
            rw [Prog.bind_of_ok h₂]
            dsimp only
            rw [rd32_slice (by omega), rd64_slice (by omega), Nat.add_zero]
            by_cases hloc : rd32 bytes (e - 20) = 0x07064b50
            · rw [if_neg (not_not.2 hloc)]
              obtain ⟨t₃, h₃⟩ := preadAll_bytesAt (ε := ε) h hend 56 (rd64 bytes (e - 20 + 8)) t₂
              rw [Prog.bind_of_ok h₃, bytesAt]
              by_cases hzin : rd64 bytes (e - 20 + 8) + 56 ≤ bytes.length
              · rw [if_pos (Or.inr hzin)]
                dsimp only
                rw [rd32_slice (by omega), rd64_slice (by omega), rd64_slice (by omega),
                  Nat.add_zero]
                by_cases hzsig : rd32 bytes (rd64 bytes (e - 20 + 8)) = 0x06064b50
                · rw [if_neg (not_not.2 hzsig)]
                  refine ⟨_, t₃, rfl, fun total off => ?_⟩
                  rw [Option.some_inj, Prod.mk.injEq]
                  constructor
                  · rintro ⟨htotal, hoff⟩
                    exact ⟨by omega, hloc, hzin, hzsig, htotal, hoff⟩
                  · rintro ⟨-, -, -, -, htotal, hoff⟩
                    exact ⟨htotal, hoff⟩
                · rw [if_pos hzsig]
                  refine ⟨none, t₃, rfl, fun total off => ⟨by rintro ⟨⟩, ?_⟩⟩
                  rintro ⟨-, -, -, hsig', -⟩
                  exact absurd hsig' hzsig
              · rw [if_neg (by omega)]
                refine ⟨none, t₃, rfl, fun total off => ⟨by rintro ⟨⟩, ?_⟩⟩
                rintro ⟨-, -, hin', -⟩
                exact absurd hin' hzin
            · rw [if_pos hloc]
              refine ⟨none, t₂, rfl, fun total off => ⟨by rintro ⟨⟩, ?_⟩⟩
              rintro ⟨-, hloc', -⟩
              exact absurd hloc' hloc
        · rw [if_neg hsent]
          rw [not_or] at hsent
          refine ⟨_, t₁, rfl, fun total off => ?_⟩
          rw [Option.some_inj, Prod.mk.injEq]
          constructor
          · rintro ⟨rfl, rfl⟩
            exact Or.inl ⟨rfl, hsent.2, rfl, hsent.1⟩
          · rintro (⟨htotal, -, hoff, -⟩ | ⟨hsent', -⟩)
            · exact ⟨htotal, hoff⟩
            · exact absurd hsent' (not_or.2 hsent)

/-! ### The records from an offset on -/

/-- What the callback is told of a record. -/
structure Called where
  name : Bytes
  method : ℕ
  lhOffset : ℕ
  deriving DecidableEq, Repr

/-- The offset of the local header that a record at `pos` tells. -/
def offsetAt (bytes : Bytes) (pos : ℕ) : ℕ :=
  if rd32 bytes (pos + 42) = SENTINEL32 then
    match bytesAt bytes (rd16 bytes (pos + 30)) (add64 pos (46 + rd16 bytes (pos + 28))) with
    | none => SENTINEL32
    | some extra => zip64Offset extra (rd32 bytes (pos + 24)) (rd32 bytes (pos + 20)) SENTINEL32
        extra.length 0
  else rd32 bytes (pos + 42)

/-- **A record stands at `pos` that tells `c`**, and the next one is looked for at `next`. -/
structure RecordAt (bytes : Bytes) (pos : ℕ) (c : Called) (next : ℕ) : Prop where
  inside : pos + 46 ≤ bytes.length
  sig : rd32 bytes pos = 0x02014b50
  named : bytesAt bytes (rd16 bytes (pos + 28)) (add64 pos 46) = some c.name
  method : c.method = rd16 bytes (pos + 10)
  lhOffset : c.lhOffset = offsetAt bytes pos
  next_eq : next = add64 pos (46 + rd16 bytes (pos + 28) + rd16 bytes (pos + 30)
    + rd16 bytes (pos + 32))

/-- The records that are listed from `pos` on. -/
inductive Listed (bytes : Bytes) : ℕ → List Called → Prop
  | nil (pos : ℕ) : Listed bytes pos []
  | cons {pos next : ℕ} {c : Called} {l : List Called} : RecordAt bytes pos c next →
      Listed bytes next l → Listed bytes pos (c :: l)

/-- Calling back. -/
def callBack (cb : σ → Bytes → ℕ → ℕ → σ × Bool) (s : σ) (c : Called) : σ :=
  (cb s c.name c.method c.lhOffset).1

/-- Calling back for one record after the other, until the callback stops. -/
def callUntil (cb : σ → Bytes → ℕ → ℕ → σ × Bool) : σ → List Called → σ
  | s, [] => s
  | s, c :: l =>
      if (cb s c.name c.method c.lhOffset).2 then callUntil cb (callBack cb s c) l
      else callBack cb s c

theorem callUntil_of_goes {cb : σ → Bytes → ℕ → ℕ → σ × Bool}
    (hcb : ∀ s name method lh, (cb s name method lh).2 = true) (l : List Called) (s : σ) :
    callUntil cb s l = l.foldl (callBack cb) s := by
  induction l generalizing s with
  | nil => rfl
  | cons c l ih => rw [callUntil, if_pos (hcb _ _ _ _), ih, List.foldl_cons]

theorem recordOffset_offsetAt {src : ByteSource} {bytes : Bytes} (h : src.Delivers bytes)
    (hend : src.EndsAtSize) (pos t : ℕ) :
    ∃ t', (recordOffset src (slice bytes pos 46) pos : Prog ℕ ε ℕ) t
      = (.ok (offsetAt bytes pos), t') := by
  rw [recordOffset, offsetAt, rd32_slice (by omega), rd32_slice (by omega), rd32_slice (by omega),
    rd16_slice (by omega), rd16_slice (by omega)]
  split
  · rename_i hsent
    obtain ⟨t', ht'⟩ := preadAll_bytesAt (ε := ε) h hend (rd16 bytes (pos + 30))
      (add64 pos (46 + rd16 bytes (pos + 28))) t
    rw [Prog.bind_of_ok ht', hsent]
    cases bytesAt bytes (rd16 bytes (pos + 30)) (add64 pos (46 + rd16 bytes (pos + 28))) with
    | none => exact ⟨t', rfl⟩
    | some extra => exact ⟨t', rfl⟩
  · exact ⟨t, rfl⟩

/-- **One turn of the walk**: a record is called back, or there is none and the walk fails. -/
theorem walkRecords_turn {src : ByteSource} {bytes : Bytes} (h : src.Delivers bytes)
    (hend : src.EndsAtSize) (cb : σ → Bytes → ℕ → ℕ → σ × Bool) (n pos : ℕ) (s : σ) (t : ℕ) :
    (∃ c next t', RecordAt bytes pos c next ∧ (walkRecords src cb (n + 1) pos s : Prog ℕ ε _) t
      = if (cb s c.name c.method c.lhOffset).2 then walkRecords src cb n next (callBack cb s c) t'
        else (.ok (true, callBack cb s c), t')) ∨
    ((∀ c next, ¬ RecordAt bytes pos c next) ∧
      ∃ t', (walkRecords src cb (n + 1) pos s : Prog ℕ ε _) t = (.ok (false, s), t')) := by
  rw [walkRecords]
  obtain ⟨t₁, h₁⟩ := preadAll_bytesAt (ε := ε) h hend 46 pos t
  rw [Prog.bind_of_ok h₁, bytesAt]
  by_cases hin : pos + 46 ≤ bytes.length
  · rw [if_pos (Or.inr hin)]
    dsimp only
    rw [rd32_slice (by omega), Nat.add_zero, rd16_slice (by omega), rd16_slice (by omega),
      rd16_slice (by omega), rd16_slice (by omega)]
    by_cases hsig : rd32 bytes pos = 0x02014b50
    · rw [if_neg (not_not.2 hsig)]
      obtain ⟨t₂, h₂⟩ := preadAll_bytesAt (ε := ε) h hend (rd16 bytes (pos + 28)) (add64 pos 46) t₁
      rw [Prog.bind_of_ok h₂]
      cases hname : bytesAt bytes (rd16 bytes (pos + 28)) (add64 pos 46) with
      | none =>
          refine Or.inr ⟨fun c next hrec => ?_, t₂, rfl⟩
          rw [hrec.named] at hname
          cases hname
      | some name =>
          obtain ⟨t₃, h₃⟩ := recordOffset_offsetAt (ε := ε) h hend pos t₂
          dsimp only
          rw [Prog.bind_of_ok h₃]
          refine Or.inl ⟨⟨name, rd16 bytes (pos + 10), offsetAt bytes pos⟩, _, t₃,
            ⟨hin, hsig, hname, rfl, rfl, rfl⟩, ?_⟩
          split
          · rfl
          · rfl
    · rw [if_pos hsig]
      exact Or.inr ⟨fun c next hrec => hsig hrec.sig, t₁, rfl⟩
  · rw [if_neg (by omega)]
    exact Or.inr ⟨fun c next hrec => hin hrec.inside, t₁, rfl⟩

theorem RecordAt.unique {bytes : Bytes} {pos next next' : ℕ} {c c' : Called}
    (h : RecordAt bytes pos c next) (h' : RecordAt bytes pos c' next') : c = c' ∧ next = next' := by
  obtain ⟨name, method, lh⟩ := c
  obtain ⟨name', method', lh'⟩ := c'
  have hname : name = name' := Option.some_inj.1 (h.named.symm.trans h'.named)
  have hmethod : method = method' := h.method.trans h'.method.symm
  have hlh : lh = lh' := h.lhOffset.trans h'.lhOffset.symm
  exact ⟨by rw [hname, hmethod, hlh], h.next_eq.trans h'.next_eq.symm⟩

/-- **The walk calls back the records that are listed**, until the callback stops. -/
theorem walkRecords_listed {src : ByteSource} {bytes : Bytes} (h : src.Delivers bytes)
    (hend : src.EndsAtSize) (cb : σ → Bytes → ℕ → ℕ → σ × Bool) {pos : ℕ} {l : List Called}
    (hl : Listed bytes pos l) (s : σ) (t : ℕ) :
    ∃ t', (walkRecords src cb l.length pos s : Prog ℕ ε _) t
      = (.ok (true, callUntil cb s l), t') := by
  induction hl generalizing s t with
  | nil pos => exact ⟨t, rfl⟩
  | @cons pos next c l hrec _ ih =>
      rcases walkRecords_turn (ε := ε) h hend cb l.length pos s t with
        ⟨c', next', t₁, hrec', hrun⟩ | ⟨hno, -⟩
      · obtain ⟨rfl, rfl⟩ := hrec.unique hrec'
        rw [callUntil]
        by_cases hgo : (cb s c.name c.method c.lhOffset).2 = true
        · rw [if_pos hgo] at hrun ⊢
          obtain ⟨t', ht'⟩ := ih (callBack cb s c) t₁
          exact ⟨t', hrun.trans ht'⟩
        · rw [if_neg hgo] at hrun ⊢
          exact ⟨t₁, hrun⟩
      · exact absurd hrec (hno c next)

/-- The callback that keeps what it is told. -/
def collect (l : List Called) (name : Bytes) (method lhOffset : ℕ) : List Called × Bool :=
  (l ++ [⟨name, method, lhOffset⟩], true)

theorem foldl_collect (l acc : List Called) : l.foldl (callBack collect) acc = acc ++ l := by
  induction l generalizing acc with
  | nil => simp
  | cons c l ih =>
      rw [List.foldl_cons, ih, callBack, collect]
      simp

/-- **What a walk that succeeds has called back is listed.** -/
theorem listed_of_walkRecords {src : ByteSource} {bytes : Bytes} (h : src.Delivers bytes)
    (hend : src.EndsAtSize) :
    ∀ (n pos : ℕ) (acc out : List Called) (t t' : ℕ),
      (walkRecords src collect n pos acc : Prog ℕ ε _) t = (.ok (true, out), t') →
      ∃ l, out = acc ++ l ∧ l.length = n ∧ Listed bytes pos l := by
  intro n
  induction n with
  | zero =>
      intro pos acc out t t' hrun
      obtain rfl : acc = out := by
        rw [walkRecords] at hrun
        simpa using congrArg Prod.fst hrun
      exact ⟨[], by simp, rfl, .nil pos⟩
  | succ n ih =>
      intro pos acc out t t' hrun
      rcases walkRecords_turn (ε := ε) h hend collect n pos acc t with
        ⟨c, next, t₁, hrec, hturn⟩ | ⟨-, t₁, hfail⟩
      · have hgo : (collect acc c.name c.method c.lhOffset).2 = true := rfl
        rw [hturn, if_pos hgo] at hrun
        obtain ⟨l, hout, hlen, hl⟩ := ih _ _ _ _ _ hrun
        refine ⟨c :: l, ?_, by rw [List.length_cons, hlen], .cons hrec hl⟩
        rw [hout, callBack, collect]
        simp
      · rw [hfail] at hrun
        simp at hrun

/-! ### Plain archives -/

/-- **The record `R` stands at `pos`** in the directory of a plain archive, and the next one at
`next`: its fields hold its numbers, and its extra field has no ZIP64 block. -/
structure PlainAt (bytes : Bytes) (pos : ℕ) (R : ZipRecord) (next : ℕ) : Prop where
  sig : rd32 bytes pos = 0x02014b50
  method : rd16 bytes (pos + 10) = R.method
  next_eq : next = pos + (46 + rd16 bytes (pos + 28) + rd16 bytes (pos + 30)
    + rd16 bytes (pos + 32))
  inside : next ≤ bytes.length
  name : R.name = slice bytes (pos + 46) (rd16 bytes (pos + 28))
  lhOffset : rd32 bytes (pos + 42) = R.lhOffset
  extra : ∃ blocks : List (ℕ × Bytes),
    slice bytes (pos + (46 + rd16 bytes (pos + 28))) (rd16 bytes (pos + 30))
      = blocks.flatMap encodeBlock ∧
    ∀ b ∈ blocks, b.1 < 2 ^ 16 ∧ b.2.length < 2 ^ 16 ∧ b.1 ≠ 0x0001

/-- The records of a plain archive from `pos` on. -/
inductive PlainDir (bytes : Bytes) : ℕ → List ZipRecord → Prop
  | nil (pos : ℕ) : PlainDir bytes pos []
  | cons {pos next : ℕ} {R : ZipRecord} {recs : List ZipRecord} : PlainAt bytes pos R next →
      PlainDir bytes next recs → PlainDir bytes pos (R :: recs)

/-- **A plain archive** with the records `recs` from `cdOffset` on: its end record stands before the
comment, and its fields hold the number of the records, their offset and the comment's length. -/
structure PlainZip (bytes : Bytes) (recs : List ZipRecord) (cdOffset : ℕ) (comment : Bytes) :
    Prop where
  comment_le : comment.length ≤ 65535
  ends : ∃ e, bytes.length = e + 22 + comment.length ∧ rd32 bytes e = 0x06054b50 ∧
    rd16 bytes (e + 10) = recs.length ∧ rd32 bytes (e + 16) = cdOffset ∧
    rd16 bytes (e + 20) = comment.length ∧ slice bytes (e + 22) comment.length = comment
  records : PlainDir bytes cdOffset recs

/-- What the callback is to be told of a record. -/
def ZipRecord.called (R : ZipRecord) : Called := ⟨R.name, R.method, R.lhOffset⟩

/-- Where no block is a ZIP64 one, the field of the record counts, whatever it holds. -/
theorem zip64Offset_plain {blocks : List (ℕ × Bytes)} (u c lh : ℕ)
    (hfits : ∀ b ∈ blocks, b.1 < 2 ^ 16 ∧ b.2.length < 2 ^ 16)
    (hid : ∀ b ∈ blocks, b.1 ≠ 0x0001) :
    zip64Offset (blocks.flatMap encodeBlock) u c lh (blocks.flatMap encodeBlock).length 0 = lh := by
  obtain ⟨fuel, hfuel⟩ := Nat.exists_eq_add_of_le' (length_le_flatMap_encodeBlock blocks)
  have hwalk := zip64Offset_before u c lh hfits hid [] fuel
    (show blocks.flatMap encodeBlock = [] ++ (blocks.flatMap encodeBlock ++ []) by simp)
  rw [← hfuel, List.length_nil, List.nil_append] at hwalk
  rw [hwalk]
  cases fuel with
  | zero => rfl
  | succ fuel => rw [zip64Offset, if_neg (by omega)]

/-- A record of a plain archive is one that the walk lists. -/
theorem PlainAt.recordAt {bytes : Bytes} {pos next : ℕ} {R : ZipRecord}
    (h : PlainAt bytes pos R next) (hlt : bytes.length < 2 ^ 64) :
    RecordAt bytes pos R.called next := by
  have hnext := h.next_eq
  have hinside := h.inside
  have hsmall : ∀ k, k ≤ 46 + rd16 bytes (pos + 28) + rd16 bytes (pos + 30)
      + rd16 bytes (pos + 32) → add64 pos k = pos + k := fun k hk => add64_eq (by omega)
  refine ⟨by omega, h.sig, ?_, h.method.symm, ?_, ?_⟩
  · rw [hsmall _ (by omega), bytesAt, if_pos (by omega)]
    exact congrArg some h.name.symm
  · obtain ⟨blocks, hextra, hblocks⟩ := h.extra
    rw [offsetAt]
    split
    · rename_i hsent
      rw [hsmall _ (by omega), bytesAt, if_pos (by omega), hextra]
      dsimp only
      rw [zip64Offset_plain _ _ _ (fun b hb => ⟨(hblocks b hb).1, (hblocks b hb).2.1⟩)
        fun b hb => (hblocks b hb).2.2]
      exact h.lhOffset.symm.trans hsent
    · exact h.lhOffset.symm
  · rw [hsmall _ le_rfl, hnext]

theorem PlainDir.listed {bytes : Bytes} {pos : ℕ} {recs : List ZipRecord}
    (h : PlainDir bytes pos recs) (hlt : bytes.length < 2 ^ 64) :
    Listed bytes pos (recs.map ZipRecord.called) := by
  induction h with
  | nil pos => exact .nil pos
  | cons hat _ ih => exact .cons (hat.recordAt hlt) ih

/-- **The walk finds the records `l`**: a callback that never stops is called once for each of them,
in order, and the walk succeeds. -/
def FindsAll (ε : Type) (src : ByteSource) (l : List Called) : Prop :=
  ∀ (σ : Type) (cb : σ → Bytes → ℕ → ℕ → σ × Bool),
    (∀ s name method lh, (cb s name method lh).2 = true) → ∀ (s : σ) (t : ℕ),
    ∃ t', (walkCentralDir src cb s : Prog ℕ ε _) t = (.ok (true, l.foldl (callBack cb) s), t')

/-- Nothing after the end record looks like one, and neither of its numbers is a sentinel. -/
def EndsPlainly (bytes : Bytes) (recs : List ZipRecord) (cdOffset : ℕ) (comment : Bytes) : Prop :=
  recs.length ≠ SENTINEL16 ∧ cdOffset ≠ SENTINEL32 ∧
    ∀ e', bytes.length < e' + 22 + comment.length → e' + 22 ≤ bytes.length →
      rd32 bytes e' ≠ 0x06054b50

/-- What is taken for the end record is another place, or it has a sentinel, and yet it tells of the
same records. -/
def TellsTheSame (bytes : Bytes) (recs : List ZipRecord) (cdOffset : ℕ) (comment : Bytes) : Prop :=
  ∃ e off, LastEnd bytes e ∧ (e + 22 + comment.length ≠ bytes.length ∨
      recs.length = SENTINEL16 ∨ cdOffset = SENTINEL32) ∧
    Tells bytes e recs.length off ∧ Listed bytes off (recs.map ZipRecord.called)

/-- The walk finds the records that its end record tells of, and no others. -/
theorem findsAll_iff {src : ByteSource} {bytes : Bytes} (h : src.Delivers bytes)
    (hend : src.EndsAtSize) {l : List Called} :
    FindsAll ε src l ↔
      ∃ e off, LastEnd bytes e ∧ Tells bytes e l.length off ∧ Listed bytes off l := by
  constructor
  · intro hall
    obtain ⟨t', hwalk⟩ := hall _ collect (fun _ _ _ _ => rfl) [] 0
    obtain ⟨r, t₁, hfind, hr⟩ := findCentralDir_iff (ε := ε) h hend 0
    rw [walkCentralDir, Prog.bind_of_ok hfind] at hwalk
    cases r with
    | none => simp at hwalk
    | some r =>
        obtain ⟨e, hlast, htells⟩ := (hr r.1 r.2).1 rfl
        obtain ⟨l', hout, hlen, hl⟩ := listed_of_walkRecords h hend _ _ _ _ _ _ hwalk
        rw [foldl_collect, List.nil_append, List.nil_append] at hout
        subst hout
        exact ⟨e, r.2, hlast, hlen ▸ htells, hl⟩
  · rintro ⟨e, off, hlast, htells, hl⟩ σ cb hcb s t
    obtain ⟨r, t₁, hfind, hr⟩ := findCentralDir_iff (ε := ε) h hend t
    obtain rfl := (hr _ _).2 ⟨e, hlast, htells⟩
    obtain ⟨t', hwalk⟩ := walkRecords_listed (ε := ε) h hend cb hl s t₁
    rw [callUntil_of_goes hcb] at hwalk
    exact ⟨t', (Prog.bind_of_ok hfind).trans hwalk⟩

/-- The records of a well-formed archive are found, be they in ZIP64 form or not. -/
theorem WellFormed.findsAll {src : ByteSource} {bytes : Bytes} (h : src.Delivers bytes)
    {recs : List ZipRecord} (hzip : WellFormed bytes recs) :
    FindsAll ε src (recs.map ZipRecord.called) := by
  intro σ cb hcb s t
  obtain ⟨cdOffset, hend, hdir⟩ := hzip.directory
  obtain ⟨t₁, ht₁⟩ := findCentralDir_endAt (ε := ε) h hend t
  obtain ⟨t', ht'⟩ := walkRecords_centralDir (ε := ε) h cb hcb hdir s t₁
  refine ⟨t', ?_⟩
  rw [walkCentralDir, Prog.bind_of_ok ht₁, List.foldl_map]
  exact ht'

/-- A walk that finds all records calls back for them until its callback stops. -/
theorem FindsAll.until {src : ByteSource} {bytes : Bytes} (h : src.Delivers bytes)
    (hend : src.EndsAtSize) {l : List Called} (hall : FindsAll ε src l)
    (cb : σ → Bytes → ℕ → ℕ → σ × Bool) (s : σ) (t : ℕ) :
    ∃ t', (walkCentralDir src cb s : Prog ℕ ε _) t = (.ok (true, callUntil cb s l), t') := by
  obtain ⟨e, off, hlast, htells, hl⟩ := (findsAll_iff h hend).1 hall
  obtain ⟨r, t₁, hfind, hr⟩ := findCentralDir_iff (ε := ε) h hend t
  obtain rfl := (hr _ _).2 ⟨e, hlast, htells⟩
  obtain ⟨t', hwalk⟩ := walkRecords_listed (ε := ε) h hend cb hl s t₁
  exact ⟨t', (Prog.bind_of_ok hfind).trans hwalk⟩

/-- **When the records of a plain archive are found**: nothing after its end record looks like one
and neither of its numbers is a sentinel, or what is found instead tells of the same records. -/
theorem walkCentralDir_plain_iff {src : ByteSource} {bytes : Bytes} (h : src.Delivers bytes)
    (hend : src.EndsAtSize) {recs : List ZipRecord} {cdOffset : ℕ} {comment : Bytes}
    (hzip : PlainZip bytes recs cdOffset comment) :
    FindsAll ε src (recs.map ZipRecord.called) ↔
      EndsPlainly bytes recs cdOffset comment ∨ TellsTheSame bytes recs cdOffset comment := by
  obtain ⟨e, hlen, hsig, htotal, hcd, -, -⟩ := hzip.ends
  have hle := hzip.comment_le
  rw [findsAll_iff h hend, List.length_map]
  constructor
  · rintro ⟨e', off, hlast, htells, hl⟩
    by_cases hother : e' + 22 + comment.length ≠ bytes.length ∨ recs.length = SENTINEL16 ∨
        cdOffset = SENTINEL32
    · exact Or.inr ⟨e', off, hlast, hother, htells, hl⟩
    · obtain ⟨hown, hcount, hoff⟩ := by simpa only [not_or, not_not] using hother
      exact Or.inl ⟨hcount, hoff, fun k hk hin => hlast.last k (by omega) hin⟩
  · rintro (⟨hcount, hoff, hplain⟩ | ⟨e', off, hlast, -, htells, hl⟩)
    · exact ⟨e, cdOffset, ⟨by omega, by omega, hsig, fun k hk hin => hplain k (by omega) hin⟩,
        Or.inl ⟨htotal, hcount, hcd, hoff⟩, hzip.records.listed h.length_lt⟩
    · exact ⟨e', off, hlast, htells, hl⟩

/-! An archive of one empty file, with a comment. -/

/-- A stored file `a` without bytes, and the comment after the end record. -/
def commentedZip (comment : Bytes) : Bytes :=
  localBytes [0x61] [] ++ centralBytes [0x61] 0 0
    ++ leBytes 4 0x06054b50 ++ leBytes 4 0 ++ leBytes 2 1 ++ leBytes 2 1 ++ leBytes 4 47
    ++ leBytes 4 31 ++ leBytes 2 comment.length ++ comment

def emptyFile : ZipRecord := ⟨[0x61], 0, false, 0, 0, 0⟩

/-- A comment that holds the signature of an end record. -/
def signedComment : Bytes := leBytes 22 0x06054b50

theorem commentedZip_plain : PlainZip (commentedZip [0x68, 0x69]) [emptyFile] 31 [0x68, 0x69] where
  comment_le := by decide
  ends := ⟨78, by decide +kernel⟩
  records := @PlainDir.cons _ 31 78 _ _ ⟨by decide +kernel, by decide +kernel, by decide +kernel,
    by decide +kernel, by decide +kernel, by decide +kernel, [], by decide +kernel, by simp⟩ (.nil 78)

/-- With a comment in words the file is found. -/
theorem commentedZip_found :
    FindsAll Unit (memByteSource (commentedZip [0x68, 0x69]) (by decide)) [emptyFile.called] :=
  (walkCentralDir_plain_iff (memByteSource_delivers _ _) (memByteSource_endsAtSize _ _)
    commentedZip_plain).2 (Or.inl ⟨by decide, by decide, by
      intro e' h h'
      have hlen : (commentedZip [0x68, 0x69]).length = 102 := by decide +kernel
      rw [hlen] at h h'
      have hlt : e' = 79 ∨ e' = 80 := by
        simp only [List.length_cons, List.length_nil] at h
        omega
      rcases hlt with rfl | rfl
      · decide +kernel
      · decide +kernel⟩)

/-- The archive with the signature in its comment. -/
def signedSource : ByteSource := memByteSource (commentedZip signedComment) (by decide)

/-- Its walk succeeds, and comes to no record. -/
theorem signedSource_walk :
    ((walkCentralDir signedSource collect [] : Prog ℕ Unit _) 0).1.toOption = some (true, []) := by
  decide +kernel

theorem not_findsAll_signed : ¬ FindsAll Unit signedSource [emptyFile.called] := by
  intro hall
  have hwalk := hall (List Called) collect (fun _ _ _ _ => rfl) [] 0
  have hnone := signedSource_walk
  generalize walkCentralDir signedSource collect [] 0 = r at hwalk hnone
  obtain ⟨t', rfl⟩ := hwalk
  rw [foldl_collect] at hnone
  simp [Except.toOption] at hnone

/-- With the signature in its comment the file is not found. -/
theorem signedZip_lost :
    PlainZip (commentedZip signedComment) [emptyFile] 31 signedComment ∧
      LocalAt (commentedZip signedComment) emptyFile ∧
      signedSource.Delivers (commentedZip signedComment) ∧ signedSource.EndsAtSize ∧
      ¬ FindsAll Unit signedSource [emptyFile.called] := by
  refine ⟨⟨by decide, ⟨78, by decide +kernel⟩, ?_⟩, ⟨by decide +kernel, by decide +kernel,
    fun _ _ => rfl⟩, memByteSource_delivers _ _, memByteSource_endsAtSize _ _,
    not_findsAll_signed⟩
  exact @PlainDir.cons _ 31 78 _ _ ⟨by decide +kernel, by decide +kernel, by decide +kernel,
    by decide +kernel, by decide +kernel, by decide +kernel, [], by decide +kernel, by simp⟩
    (.nil 78)

end VidyaGodFS
