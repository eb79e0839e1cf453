/-
**Byte sources.**

A byte source is a random-access, read-only stream: `pread` returns up to the number of bytes asked
for, or an error, and `preadAll` turns short reads into exact ones.  What a source answers may
differ from one call to the next (how much of a range a read returns is not a function of the
range), so `pread` is given the number of the call in the run of the whole program, its *clock*,
which every call advances; any behaviour over a run is a function of the clock.

64-bit unsigned arithmetic is written out: `add64` and `sub64` wrap.

Main definitions:

* `Bytes`, `add64`, `sub64`;
* `ByteSource`, `ByteSource.read`, `ByteSource.preadAll` — the stream and its exact read;
* `memByteSource` — a buffer in memory;
* `ByteSource.Delivers` — the source holds exactly the given bytes, whatever short reads it makes.

Main results:

* `ByteSource.preadAll_delivers` — **an exact read inside a source that delivers succeeds** and
  returns the slice asked for;
* `memByteSource_delivers` — a buffer delivers its bytes.
-/

import VidyaGodFS.Prog
import VidyaGodFS.Slice
import VidyaGodFS.Tree

set_option relaxedAutoImplicit false
set_option autoImplicit false

namespace VidyaGodFS

export Posix (Errno)

/-- A byte string. -/
abbrev Bytes : Type := List UInt8

/-! ### 64-bit arithmetic -/

/-- `a + b` on `uint64_t`. -/
def add64 (a b : ℕ) : ℕ := (a + b) % 2 ^ 64

/-- `a - b` on `uint64_t`. -/
def sub64 (a b : ℕ) : ℕ := (a + 2 ^ 64 - b) % 2 ^ 64

theorem add64_eq {a b : ℕ} (h : a + b < 2 ^ 64) : add64 a b = a + b := Nat.mod_eq_of_lt h

theorem sub64_eq {a b : ℕ} (hb : b ≤ a) (ha : a < 2 ^ 64) : sub64 a b = a - b := by
  unfold sub64
  omega

/-! ### The stream -/

/-- A random-access stream of `size` bytes.  `pread clock n off` is what the call number `clock` of
the run returns when it asks for `n` bytes at `off`: never more bytes than were asked for. -/
structure ByteSource where
  /-- The declared size, a `uint64_t`. -/
  size : ℕ
  /-- Up to `n` bytes at `off`, or an error. -/
  pread : ℕ → ℕ → ℕ → Except Errno Bytes
  size_lt : size < 2 ^ 64
  length_pread_le : ∀ {t n off : ℕ} {bs : Bytes}, pread t n off = .ok bs → bs.length ≤ n

namespace ByteSource

variable {ε : Type}

/-- One call of `pread`, which advances the clock. -/
def read (src : ByteSource) (n off : ℕ) : Prog ℕ ε (Except Errno Bytes) := fun t =>
  (.ok (src.pread t n off), t + 1)

/-- The loop of `preadAll` with `n` bytes to go at `off` and `done` already in the buffer.  Every
turn that goes on has read a byte, so `n` turns are enough. -/
def preadAllLoop (src : ByteSource) : ℕ → ℕ → ℕ → Bytes → Prog ℕ ε (Option Bytes)
  | 0, _, _, done => pure (some done)
  | fuel + 1, n, off, done =>
      if n = 0 then pure (some done) else do
        match ← src.read n off with
        | .error _ => pure none
        | .ok [] => pure none
        | .ok (b :: bs) =>
            src.preadAllLoop fuel (n - (b :: bs).length) (add64 off (b :: bs).length)
              (done ++ b :: bs)

/-- Exactly `n` bytes at `off` across any short reads; `none` on the end of the stream or on an
error. -/
def preadAll (src : ByteSource) (n off : ℕ) : Prog ℕ ε (Option Bytes) :=
  src.preadAllLoop n n off []

/-- **The source holds exactly the bytes `content`**: it has their length, and a read inside them
returns at least one byte, all of them the right ones.  Nothing is said about how many. -/
structure Delivers (src : ByteSource) (content : Bytes) : Prop where
  size_eq : src.size = content.length
  read : ∀ t n off, 0 < n → off < content.length →
    ∃ bs, src.pread t n off = .ok bs ∧ bs ≠ [] ∧ bs <+: content.drop off

theorem Delivers.length_lt {src : ByteSource} {content : Bytes} (h : src.Delivers content) :
    content.length < 2 ^ 64 := h.size_eq ▸ src.size_lt

/-- One read inside a source that delivers: some of the bytes asked for. -/
theorem Delivers.read_eq {src : ByteSource} {content : Bytes} (h : src.Delivers content)
    {t n off : ℕ} (hn : 0 < n) (ho : off + n ≤ content.length) :
    ∃ k, 0 < k ∧ k ≤ n ∧ src.pread t n off = .ok (slice content off k) := by
  obtain ⟨bs, hbs, hne, hpre⟩ := h.read t n off hn (by omega)
  refine ⟨bs.length, List.length_pos_of_ne_nil hne, src.length_pread_le hbs, ?_⟩
  rw [hbs, ← eq_slice_of_prefix hpre]

/-- An exact read comes to a result, whatever the source answers. -/
theorem preadAllLoop_ok (src : ByteSource) :
    ∀ (fuel n off : ℕ) (out : Bytes) (t : ℕ),
      ∃ r t', (src.preadAllLoop fuel n off out : Prog ℕ ε _) t = (.ok r, t') := by
  intro fuel
  induction fuel with
  | zero => exact fun n off out t => ⟨_, t, rfl⟩
  | succ fuel ih =>
      intro n off out t
      rw [preadAllLoop]
      split
      · exact ⟨_, t, rfl⟩
      · have hstep : (src.read n off : Prog ℕ ε _) t = (.ok (src.pread t n off), t + 1) := rfl
        rw [Prog.bind_of_ok hstep]
        rcases src.pread t n off with e | _ | ⟨c, bs⟩
        · exact ⟨_, _, rfl⟩
        · exact ⟨_, _, rfl⟩
        · exact ih _ _ _ _

theorem preadAllLoop_delivers {src : ByteSource} {content : Bytes} (h : src.Delivers content) :
    ∀ (fuel n off : ℕ) (done : Bytes) (t : ℕ), n ≤ fuel → off + n ≤ content.length →
      ∃ t', (src.preadAllLoop fuel n off done : Prog ℕ ε _) t
        = (.ok (some (done ++ slice content off n)), t') := by
  intro fuel
  induction fuel with
  | zero =>
      intro n off done t hn _
      obtain rfl : n = 0 := by omega
      exact ⟨t, by simp [preadAllLoop]⟩
  | succ fuel ih =>
      intro n off done t hn ho
      rcases Nat.eq_zero_or_pos n with rfl | hpos
      · exact ⟨t, by simp [preadAllLoop]⟩
      · have hlt := h.length_lt
        obtain ⟨k, hk, hkn, hread⟩ := h.read_eq (t := t) hpos ho
        have hlen : (slice content off k).length = k := length_slice_of_le (by omega)
        obtain ⟨b, bs, hbs⟩ : ∃ b bs, slice content off k = b :: bs :=
          List.exists_cons_of_length_pos (by omega)
        obtain ⟨t', ht'⟩ :=
          ih (n - k) (off + k) (done ++ slice content off k) (t + 1) (by omega) (by omega)
        refine ⟨t', ?_⟩
        have hstep : (src.read n off : Prog ℕ ε _) t = (.ok (.ok (b :: bs)), t + 1) := by
          rw [ByteSource.read, hread, hbs]
        rw [hbs] at hlen
        rw [preadAllLoop, if_neg (by omega), Prog.bind_of_ok hstep]
        dsimp only
        rw [hlen, add64_eq (by omega), ← hbs, ht', List.append_assoc, slice_append_slice,
          Nat.add_sub_cancel' hkn]

/-- **An exact read inside a source that delivers succeeds.** -/
theorem preadAll_delivers {src : ByteSource} {content : Bytes} (h : src.Delivers content)
    {n off : ℕ} (ho : off + n ≤ content.length) (t : ℕ) :
    ∃ t', (src.preadAll n off : Prog ℕ ε _) t = (.ok (some (slice content off n)), t') := by
  obtain ⟨t', ht'⟩ := preadAllLoop_delivers (ε := ε) h n n off [] t le_rfl ho
  exact ⟨t', by rw [preadAll, ht', List.nil_append]⟩

end ByteSource

theorem length_nil_lt : ([] : Bytes).length < 2 ^ 64 := by decide

/-- A buffer in memory.  It is shorter than the address space. -/
def memByteSource (data : Bytes) (h : data.length < 2 ^ 64) : ByteSource where
  size := data.length
  pread _ n off := .ok (slice data off n)
  size_lt := h
  length_pread_le := by
    intro t n off bs hbs
    obtain rfl := Except.ok.inj hbs
    rw [length_slice]
    omega

/-- A buffer delivers its bytes. -/
theorem memByteSource_delivers (data : Bytes) (h : data.length < 2 ^ 64) :
    (memByteSource data h).Delivers data where
  size_eq := rfl
  read := by
    intro t n off hn ho
    refine ⟨slice data off n, rfl, ?_, List.take_prefix _ _⟩
    apply List.ne_nil_of_length_pos
    rw [length_slice]
    omega

end VidyaGodFS
