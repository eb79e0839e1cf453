/-
**Streams one after the other.**

A delta over several bases reads them as one: `ConcatByteSource` lays its parts one after the other
and sends each read to the part that covers the offset, cut where that part ends by its declared
size.  Parts may be empty or missing, and then share their start with the part after them; the search
takes the last part that starts at or before the offset, which is the one that is not empty.

Main definitions:

* `Part`, `ConcatByteSource`, `ConcatByteSource.ofSources` — the parts and where they start;
* `ConcatByteSource.partAt`, `ConcatByteSource.pread` — the search and the read;
* `ByteSource.DeliversInside`, `PartOf` — a part that gives the right bytes as long as no more are
  asked for than it declares.

Main results:

* `ConcatByteSource.partAt_spec` — the search finds the part that covers an offset;
* `ConcatByteSource.pread_exact` — **a read of the concatenation returns the slice of it**, in full;
* `ConcatByteSource.asSource_delivers` — the concatenation is a stream that delivers.
-/

import VidyaGodFS.Bisect
import VidyaGodFS.ByteSource

set_option relaxedAutoImplicit false
set_option autoImplicit false

namespace VidyaGodFS

/-! ### The parts -/

/-- A part: its stream, unless that is null, where it starts and how long it is. -/
structure Part where
  src : Option ByteSource
  start : ℕ
  len : ℕ

/-- Streams laid one after the other. -/
structure ConcatByteSource where
  parts : List Part
  total : ℕ

/-- The size a part declares; a null one has none. -/
def declaredLen : Option ByteSource → ℕ
  | none => 0
  | some src => src.size

/-- The parts from `start` on, and where they end. -/
def layParts : ℕ → List (Option ByteSource) → List Part × ℕ
  | start, [] => ([], start)
  | start, s :: sources =>
      let rest := layParts (add64 start (declaredLen s)) sources
      (⟨s, start, declaredLen s⟩ :: rest.1, rest.2)

/-- Why a read of a concatenation yields nothing: it never ends, or it goes through a null part. -/
inductive ConcatErr
  | hang
  | crash
  deriving DecidableEq, Repr

namespace ConcatByteSource

def ofSources (sources : List (Option ByteSource)) : ConcatByteSource :=
  ⟨(layParts 0 sources).1, (layParts 0 sources).2⟩

/-- The index of the last part that starts at or before `pos`. -/
def partAt (C : ConcatByteSource) (pos : ℕ) : ℕ :=
  lastAmong (fun pt => decide (pt.start ≤ pos)) C.parts

/-- The loop of `pread` with `n` bytes to go at `pos` and `out` in the buffer.  Every turn that goes
on has read a byte, so a run that needs more turns than bytes does not end. -/
def preadLoop (C : ConcatByteSource) : ℕ → ℕ → ℕ → Bytes → Prog ℕ ConcatErr (Except Errno Bytes)
  | 0, n, pos, out => if n = 0 ∨ C.total ≤ pos then pure (.ok out) else Prog.fail .hang
  | fuel + 1, n, pos, out =>
      if n = 0 ∨ C.total ≤ pos then pure (.ok out) else
        match C.parts[C.partAt pos]? with
        | none => Prog.fail .crash
        | some pt =>
            if pt.len = 0 ∨ add64 pt.start pt.len ≤ pos then pure (.ok out) else
              let skip := sub64 pos pt.start
              match pt.src with
              | none => Prog.fail .crash
              | some src => do
                  match ← src.read (min n (sub64 pt.len skip)) skip with
                  | .error e => pure (if out = [] then .error e else .ok out)
                  | .ok [] => pure (.ok out)
                  | .ok (b :: bs) =>
                      C.preadLoop fuel (n - (b :: bs).length) (add64 pos (b :: bs).length)
                        (out ++ b :: bs)

/-- Up to `n` bytes of the concatenation at `off`. -/
def pread (C : ConcatByteSource) (n off : ℕ) : Prog ℕ ConcatErr (Except Errno Bytes) :=
  if C.total ≤ off then pure (.ok []) else C.preadLoop n n off []

end ConcatByteSource

/-! ### What the parts give -/

/-- **The source gives the bytes `content` to reads inside them**: it declares their length, and a
read that stays inside returns at least one byte, all of them right.  What a read returns that goes
past the declared size is left open. -/
structure ByteSource.DeliversInside (src : ByteSource) (content : Bytes) : Prop where
  size_eq : src.size = content.length
  read : ∀ t n off, 0 < n → off + n ≤ content.length →
    ∃ bs, src.pread t n off = .ok bs ∧ bs ≠ [] ∧ bs <+: content.drop off

theorem ByteSource.Delivers.inside {src : ByteSource} {content : Bytes}
    (h : src.Delivers content) : src.DeliversInside content where
  size_eq := h.size_eq
  read := fun t n off hn ho => h.read t n off hn (by omega)

/-- One read inside the declared size: some of the bytes asked for. -/
theorem ByteSource.DeliversInside.read_eq {src : ByteSource} {content : Bytes}
    (h : src.DeliversInside content) {t n off : ℕ} (hn : 0 < n) (ho : off + n ≤ content.length) :
    ∃ k, 0 < k ∧ k ≤ n ∧ src.pread t n off = .ok (slice content off k) := by
  obtain ⟨bs, hbs, hne, hpre⟩ := h.read t n off hn ho
  refine ⟨bs.length, List.length_pos_of_ne_nil hne, src.length_pread_le hbs, ?_⟩
  rw [hbs, ← eq_slice_of_prefix hpre]

/-- The part has the bytes `content`: none if it is null. -/
def PartOf : Option ByteSource → Bytes → Prop
  | none, content => content = []
  | some src, content => src.DeliversInside content

theorem PartOf.declaredLen_eq {s : Option ByteSource} {content : Bytes} (h : PartOf s content) :
    declaredLen s = content.length := by
  cases s with
  | none =>
      obtain rfl := h
      rfl
  | some src => exact ByteSource.DeliversInside.size_eq h

/-! ### The search -/

/-- The part number `k` starts where the parts before it end. -/
theorem layParts_getElem? {sources : List (Option ByteSource)} {contents : List Bytes}
    (h : List.Forall₂ PartOf sources contents) :
    ∀ (start : ℕ), start + contents.flatten.length < 2 ^ 64 →
      (layParts start sources).2 = start + contents.flatten.length ∧
      ∀ k : ℕ, (layParts start sources).1[k]? = (sources[k]?).map fun s =>
        Part.mk s (start + (contents.take k).flatten.length) (declaredLen s) := by
  induction h with
  | nil => exact fun start _ => ⟨rfl, fun k => rfl⟩
  | @cons s c sources contents hs _ ih =>
      intro start hlt
      rw [List.flatten_cons, List.length_append] at hlt ⊢
      have hlen := hs.declaredLen_eq
      obtain ⟨htotal, hparts⟩ := ih (start + c.length) (by omega)
      rw [layParts, hlen, add64_eq (by omega)]
      refine ⟨by rw [htotal, Nat.add_assoc], fun k => ?_⟩
      cases k with
      | zero => simp [hlen]
      | succ k =>
          rw [List.getElem?_cons_succ, hparts, List.getElem?_cons_succ, List.take_succ_cons,
            List.flatten_cons, List.length_append, Nat.add_assoc]

theorem length_take_flatten_mono (contents : List Bytes) {i j : ℕ} (h : i ≤ j) :
    (contents.take i).flatten.length ≤ (contents.take j).flatten.length :=
  ((List.take_prefix_take_left h).flatten).length_le

namespace ConcatByteSource

variable {sources : List (Option ByteSource)} {contents : List Bytes}

theorem total_ofSources (h : List.Forall₂ PartOf sources contents)
    (hlt : contents.flatten.length < 2 ^ 64) :
    (ofSources sources).total = contents.flatten.length := by
  have htotal := (layParts_getElem? h 0 (by omega)).1
  rwa [Nat.zero_add] at htotal

/-- **The search finds the part that covers an offset**: the bytes before it and its own ones up to
the offset are those of the concatenation. -/
theorem partAt_spec (h : List.Forall₂ PartOf sources contents)
    (hlt : contents.flatten.length < 2 ^ 64) {pos : ℕ} (hpos : pos < contents.flatten.length) :
    ∃ s pre c post, (ofSources sources).parts[(ofSources sources).partAt pos]?
        = some ⟨s, pre.flatten.length, c.length⟩ ∧ PartOf s c ∧ contents = pre ++ c :: post ∧
      pre.flatten.length ≤ pos ∧ pos < pre.flatten.length + c.length := by
  have hparts : ∀ k : ℕ, (ofSources sources).parts[k]? = (sources[k]?).map fun s =>
      Part.mk s (contents.take k).flatten.length (declaredLen s) := by
    intro k
    rw [ofSources, (layParts_getElem? h 0 (by omega)).2 k, Nat.zero_add]
  have hlen := h.length_eq
  have hcontents : contents ≠ [] := by
    rintro rfl
    simp at hpos
  -- the starts go up
  have hmono : Partitioned (fun pt => !decide (pt.start ≤ pos)) (ofSources sources).parts := by
    intro i j x y hij hx hy hnot
    rw [hparts, Option.map_eq_some_iff] at hx hy
    obtain ⟨s, _, rfl⟩ := hx
    obtain ⟨s', _, rfl⟩ := hy
    have := length_take_flatten_mono contents hij
    simp only [Bool.not_eq_true', decide_eq_false_iff_not, Nat.not_le] at hnot ⊢
    omega
  have hfirst : ((ofSources sources).parts[0]?).any (fun pt => decide (pt.start ≤ pos)) = true := by
    obtain ⟨s, hs⟩ : ∃ s, sources[0]? = some s :=
      ⟨_, List.getElem?_eq_getElem (by rw [hlen]; exact List.length_pos_of_ne_nil hcontents)⟩
    rw [hparts, hs]
    simp
  obtain ⟨pt, hpt, hle, hafter⟩ := lastAmong_spec hmono hfirst
  rw [partAt]
  generalize lastAmong (fun pt : Part => decide (pt.start ≤ pos)) (ofSources sources).parts = k
    at hpt hafter ⊢
  rw [hparts, Option.map_eq_some_iff] at hpt
  obtain ⟨s, hs, rfl⟩ := hpt
  obtain ⟨hk, rfl⟩ := List.getElem?_eq_some_iff.1 hs
  have hk' : k < contents.length := hlen ▸ hk
  have hpart : PartOf sources[k] contents[k] := (List.forall₂_iff_get.1 h).2 k hk hk'
  refine ⟨_, contents.take k, _, contents.drop (k + 1), ?_, hpart, ?_, of_decide_eq_true hle, ?_⟩
  · rw [hparts, hs, Option.map_some, hpart.declaredLen_eq]
  · rw [← List.drop_eq_getElem_cons hk', List.take_append_drop]
  · -- the part after it, or the end of the concatenation, is past the offset
    have hsucc : (contents.take (k + 1)).flatten.length
        = (contents.take k).flatten.length + contents[k].length := by
      rw [List.take_succ_eq_append_getElem hk', List.flatten_append, List.length_append,
        List.flatten_singleton]
    rw [← hsucc]
    by_cases hnext : k + 1 < sources.length
    · have hpast := hafter _ _ (Nat.lt_succ_self k)
        (by rw [hparts, List.getElem?_eq_getElem hnext]; rfl)
      exact Nat.not_le.1 (of_decide_eq_false hpast)
    · rw [List.take_of_length_le (by omega)]
      exact hpos

/-- The loop of a read, with `n` bytes to go at `pos`. -/
theorem preadLoop_eq (h : List.Forall₂ PartOf sources contents)
    (hlt : contents.flatten.length < 2 ^ 64) :
    ∀ (fuel n pos : ℕ) (out : Bytes) (t : ℕ), n ≤ fuel → ∃ t',
      (ofSources sources).preadLoop fuel n pos out t
        = (.ok (.ok (out ++ slice contents.flatten pos n)), t') := by
  have htotal := total_ofSources h hlt
  -- nothing is to go, or nothing is there
  have hdone : ∀ (n pos : ℕ) (out : Bytes), n = 0 ∨ contents.flatten.length ≤ pos →
      out = out ++ slice contents.flatten pos n := by
    rintro n pos out (rfl | hpos)
    · rw [slice_zero, List.append_nil]
    · rw [slice_of_length_le hpos, List.append_nil]
  intro fuel
  induction fuel with
  | zero =>
      intro n pos out t hn
      have hstop : n = 0 ∨ (ofSources sources).total ≤ pos := Or.inl (Nat.le_zero.1 hn)
      rw [preadLoop, if_pos hstop, ← hdone n pos out (htotal ▸ hstop)]
      exact ⟨t, rfl⟩
  | succ fuel ih =>
      intro n pos out t hn
      rw [preadLoop]
      by_cases hstop : n = 0 ∨ (ofSources sources).total ≤ pos
      · rw [if_pos hstop, ← hdone n pos out (htotal ▸ hstop)]
        exact ⟨t, rfl⟩
      · rw [if_neg hstop]
        rw [htotal, not_or, Nat.not_le] at hstop
        obtain ⟨hn0, hpos⟩ := hstop
        obtain ⟨s, pre, c, post, hpt, hs, rfl, hstart, hend⟩ := partAt_spec h hlt hpos
        have hflat : (pre ++ c :: post).flatten = pre.flatten ++ (c ++ post.flatten) := by
          rw [List.flatten_append, List.flatten_cons]
        have hsum := congrArg List.length hflat
        rw [List.length_append, List.length_append] at hsum
        rw [hpt]
        dsimp only
        rw [add64_eq (by omega), if_neg (by omega), sub64_eq hstart (by omega)]
        cases s with
        | none =>
            -- a null part covers nothing
            obtain rfl := hs
            rw [List.length_nil] at hend
            omega
        | some src =>
            rw [sub64_eq (by omega) (by omega)]
            have hask : 0 < min n (c.length - (pos - pre.flatten.length)) := by omega
            have hin : pos - pre.flatten.length + min n (c.length - (pos - pre.flatten.length))
                ≤ c.length := by omega
            obtain ⟨k, hk, hkn, hread⟩ := ByteSource.DeliversInside.read_eq (t := t) hs hask hin
            have hslice : slice c (pos - pre.flatten.length) k
                = slice (pre ++ c :: post).flatten pos k := by
              rw [hflat, slice_append_right hstart, slice_append_left (by omega)]
            have hlen : (slice (pre ++ c :: post).flatten pos k).length = k :=
              length_slice_of_le (by omega)
            obtain ⟨b, bs, hbs⟩ : ∃ b bs, slice (pre ++ c :: post).flatten pos k = b :: bs :=
              List.exists_cons_of_length_pos (by omega)
            obtain ⟨t', ht'⟩ := ih (n - k) (pos + k)
              (out ++ slice (pre ++ c :: post).flatten pos k) (t + 1) (by omega)
            refine ⟨t', ?_⟩
            have hstep : (src.read (min n (c.length - (pos - pre.flatten.length)))
                (pos - pre.flatten.length) : Prog ℕ ConcatErr _) t = (.ok (.ok (b :: bs)), t + 1) := by
              rw [ByteSource.read, hread, hslice, hbs]
            rw [hbs] at hlen
            dsimp only
            rw [Prog.bind_of_ok hstep]
            dsimp only
            rw [hlen, add64_eq (by omega), ← hbs, ht', List.append_assoc, slice_append_slice,
              Nat.add_sub_cancel' (by omega)]

theorem pread_slice (h : List.Forall₂ PartOf sources contents)
    (hlt : contents.flatten.length < 2 ^ 64) (n off t : ℕ) :
    ∃ t', (ofSources sources).pread n off t = (.ok (.ok (slice contents.flatten off n)), t') := by
  rw [pread, total_ofSources h hlt]
  by_cases hoff : contents.flatten.length ≤ off
  · rw [if_pos hoff, slice_of_length_le hoff]
    exact ⟨t, rfl⟩
  · rw [if_neg hoff]
    exact preadLoop_eq h hlt n n off [] t le_rfl

/-- **A read of the concatenation returns the slice of it**: from parts that give their bytes to reads
inside them, whatever short reads they make and whatever they hold past their declared sizes, a read
ends with exactly the bytes from `off` on, `n` of them or all there are. -/
theorem pread_exact (h : List.Forall₂ PartOf sources contents)
    (hlt : contents.flatten.length < 2 ^ 64) (n off t : ℕ) :
    ∃ bs t', (ofSources sources).pread n off t = (.ok (.ok bs), t') ∧
      bs.length = min n ((ofSources sources).total - off) ∧
      bs = slice contents.flatten off n := by
  obtain ⟨t', ht'⟩ := pread_slice h hlt n off t
  refine ⟨_, t', ht', ?_, rfl⟩
  rw [length_slice, total_ofSources h hlt]

/-- The concatenation as a stream, for what is built over it.  The size is a `uint64_t`, and a read
never yields more than was asked for; one that does not end yields nothing. -/
def asSource (C : ConcatByteSource) : ByteSource where
  size := C.total % 2 ^ 64
  pread t n off :=
    match (C.pread n off t).1 with
    | .ok (.ok bs) => .ok (bs.take n)
    | .ok (.error e) => .error e
    | .error _ => .error .eio
  size_lt := Nat.mod_lt _ (by decide)
  length_pread_le := by
    intro t n off bs hbs
    split at hbs
    · obtain rfl := Except.ok.inj hbs
      exact List.length_take_le ..
    · simp at hbs
    · simp at hbs

/-- **The concatenation delivers the bytes of its parts**, so it can be the base of a delta or a part
of another concatenation. -/
theorem asSource_delivers (h : List.Forall₂ PartOf sources contents)
    (hlt : contents.flatten.length < 2 ^ 64) :
    (ofSources sources).asSource.Delivers contents.flatten where
  size_eq := by
    change (ofSources sources).total % 2 ^ 64 = _
    rw [total_ofSources h hlt, Nat.mod_eq_of_lt hlt]
  read := by
    intro t n off hn ho
    obtain ⟨t', hread⟩ := pread_slice h hlt n off t
    refine ⟨slice contents.flatten off n, ?_, ?_, List.take_prefix _ _⟩
    · dsimp only [asSource]
      rw [hread]
      dsimp only
      rw [List.take_of_length_le (by rw [length_slice]; omega)]
    · apply List.ne_nil_of_length_pos
      rw [length_slice]
      omega

end ConcatByteSource

/-! Two parts with a seam between them. -/

/-- A file that is longer than the size it is declared with. -/
def overReadingSource (content beyond : Bytes) (h : content.length < 2 ^ 64) : ByteSource where
  size := content.length
  pread _ n off := .ok (slice (content ++ beyond) off n)
  size_lt := h
  length_pread_le := by
    intro t n off bs hbs
    obtain rfl := Except.ok.inj hbs
    rw [length_slice]
    omega

theorem overReadingSource_inside (content beyond : Bytes) (h : content.length < 2 ^ 64) :
    (overReadingSource content beyond h).DeliversInside content where
  size_eq := rfl
  read := by
    intro t n off hn ho
    refine ⟨slice content off n, congrArg Except.ok (slice_append_left ho), ?_, List.take_prefix _ _⟩
    apply List.ne_nil_of_length_pos
    rw [length_slice_of_le ho]
    exact hn

/-- An empty part, a part with two bytes `Z` past its end, a null part and a part of two bytes. -/
def seamParts : List (Option ByteSource) :=
  [some (memByteSource [] length_nil_lt),
    some (overReadingSource [0x78, 0x78] [0x5a, 0x5a] (by decide)), none,
    some (memByteSource [0x59, 0x59] (by decide))]

/-- A read that starts before the seam shows nothing of what lies past it in the first file. -/
theorem seamParts_read : ∃ bs t', (ConcatByteSource.ofSources seamParts).pread 3 1 0
      = (.ok (.ok bs), t') ∧ bs.length = min 3 ((ConcatByteSource.ofSources seamParts).total - 1) ∧
    bs = slice [0x78, 0x78, 0x59, 0x59] 1 3 := by
  have hparts : List.Forall₂ PartOf seamParts [[], [0x78, 0x78], [], [0x59, 0x59]] :=
    .cons (memByteSource_delivers _ _).inside (.cons (overReadingSource_inside _ _ _)
      (.cons rfl (.cons (memByteSource_delivers _ _).inside .nil)))
  exact ConcatByteSource.pread_exact hparts (by decide) 3 1 0

example : slice ([0x78, 0x78, 0x59, 0x59] : Bytes) 1 3 = [0x78, 0x59, 0x59] := rfl

end VidyaGodFS
