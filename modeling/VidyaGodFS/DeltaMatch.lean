/-
**The matcher leaves no findable window as literals.**

The scan looks at each position of the target that no COPY has covered, and asks the index for the
hash of the window there.  The hash is rolled along from one position to the next and computed anew
after a match, and it is at every position the hash of the window; so, where windows of the base that
differ have different hashes, a position the scan passed by starts no window of the base.  The
literals between two COPYs are such positions only.

Main definitions:

* `AnchorWindow` — a window of the target that is an aligned window of the base;
* `HashesApart` — aligned windows of the base that differ have different hashes;
* `Examines` — the states in which the scan looks at a position;
* `AddsClear`, `CopyMeets` — no ADD has such a window in it, and a COPY meets one;
* `MatchInv` — the invariant of the scan.

Main results:

* `hashWin_roll`, `Examines.hash` — **the rolling hash is the hash of the window**;
* `matcher_finds` — **no ADD contains a window of the base**, and a long run that base and target
  have in common is stored as a COPY at least in part.
-/

import Mathlib.Data.List.GetD
import Mathlib.Data.UInt
import VidyaGodFS.RollingHash
import VidyaGodFS.DeltaRoundTrip

set_option relaxedAutoImplicit false
set_option autoImplicit false

namespace VidyaGodFS

open scoped UInt64.CommRing

/-! ### The rolling hash -/

theorem hashWin_eq (bs : Bytes) :
    hashWin bs = polyHash RK_R UInt8.toUInt64 (bs.take ANCHOR) := rfl

theorem powRLoop_eq (fuel e : ℕ) (r b : UInt64) : powRLoop fuel e r b = powBySquaring fuel e r b := by
  induction fuel generalizing e r b with
  | zero => rfl
  | succ fuel ih =>
      rw [powRLoop, powBySquaring, ih]

theorem powR_eq (e : ℕ) (he : e < 2 ^ 64) : powR e = RK_R ^ e := by
  rw [powR, powRLoop_eq, powBySquaring_eq 64 e 1 RK_R he, one_mul]

/-- The window at `p`, by its first byte and the rest. -/
theorem take_drop_cons {target : Bytes} {p : ℕ} (h : p + ANCHOR ≤ target.length) :
    (target.drop p).take ANCHOR = target.getD p 0 :: (target.drop (p + 1)).take (ANCHOR - 1) := by
  have hp : p < target.length := by
    rw [ANCHOR] at h
    omega
  rw [List.drop_eq_getElem_cons hp, List.getD_eq_getElem _ _ hp]
  rfl

/-- The next window, by the rest of this one and the byte after it. -/
theorem take_drop_concat {target : Bytes} {p : ℕ} (h : p + ANCHOR < target.length) :
    (target.drop (p + 1)).take ANCHOR
      = (target.drop (p + 1)).take (ANCHOR - 1) ++ [target.getD (p + ANCHOR) 0] := by
  have hA : ANCHOR = 256 := rfl
  have hat : (target.drop (p + 1))[ANCHOR - 1]? = some (target.getD (p + ANCHOR) 0) := by
    rw [List.getElem?_drop, List.getD_eq_getElem _ _ h]
    exact List.getElem?_eq_getElem h
  have hsucc : (target.drop (p + 1)).take (ANCHOR - 1 + 1)
      = (target.drop (p + 1)).take (ANCHOR - 1) ++ (target.drop (p + 1))[ANCHOR - 1]?.toList :=
    List.take_add_one
  rwa [hat] at hsucc

/-- **The hash rolls**: the hash of the next window from that of this one. -/
theorem hashWin_roll {target : Bytes} {p : ℕ} (h : p + ANCHOR < target.length) :
    hashWin (target.drop (p + 1))
      = (hashWin (target.drop p) - (target.getD p 0).toUInt64 * powR (ANCHOR - 1)) * RK_R
        + (target.getD (p + ANCHOR) 0).toUInt64 := by
  have hA : ANCHOR = 256 := rfl
  have hlen : ((target.drop (p + 1)).take (ANCHOR - 1)).length = ANCHOR - 1 := by
    rw [List.length_take, List.length_drop]
    omega
  have hcons : (target.drop p).take ANCHOR = _ := take_drop_cons (by omega)
  rw [hashWin_eq, hashWin_eq, take_drop_concat h, hcons, powR_eq _ (by decide),
    polyHash_roll RK_R UInt8.toUInt64 (target.getD p 0), hlen]

/-! ### Windows of the base -/

/-- The window of the target at `q` is an aligned window of the base. -/
def AnchorWindow (base target : Bytes) (q : ℕ) : Prop :=
  q + ANCHOR ≤ target.length ∧ ∃ k, (k + 1) * ANCHOR ≤ base.length ∧
    slice target q ANCHOR = slice base (k * ANCHOR) ANCHOR

/-- Aligned windows of the base with one hash are equal. -/
def HashesApart (base : Bytes) : Prop :=
  ∀ i j, (i + 1) * ANCHOR ≤ base.length → (j + 1) * ANCHOR ≤ base.length →
    hashWin (base.drop (i * ANCHOR)) = hashWin (base.drop (j * ANCHOR)) →
    slice base (i * ANCHOR) ANCHOR = slice base (j * ANCHOR) ANCHOR

/-- Equal windows have one hash. -/
theorem hashWin_congr {bs bs' : Bytes} {i j : ℕ} (h : slice bs i ANCHOR = slice bs' j ANCHOR) :
    hashWin (bs.drop i) = hashWin (bs'.drop j) := by
  rw [slice, slice] at h
  rw [hashWin_eq, hashWin_eq, h]

/-- The index finds some window of a hash that there is. -/
theorem lookup_anchorIndex {base : Bytes} {k : ℕ} (hk : (k + 1) * ANCHOR ≤ base.length) :
    ∃ i, (i + 1) * ANCHOR ≤ base.length ∧
      (anchorIndex base).lookup (hashWin (base.drop (k * ANCHOR))) = some (i * ANCHOR) ∧
      hashWin (base.drop (i * ANCHOR)) = hashWin (base.drop (k * ANCHOR)) := by
  have hA : 0 < ANCHOR := by decide
  have hfind : ∀ l : List ℕ, k ∈ l → ∃ i ∈ l,
      (l.map fun k => (hashWin (base.drop (k * ANCHOR)), k * ANCHOR)).lookup
        (hashWin (base.drop (k * ANCHOR))) = some (i * ANCHOR) ∧
      hashWin (base.drop (i * ANCHOR)) = hashWin (base.drop (k * ANCHOR)) := by
    intro l
    induction l with
    | nil => exact fun h => absurd h List.not_mem_nil
    | cons i l ih =>
        intro hmem
        rw [List.map_cons, List.lookup_cons]
        by_cases hi : hashWin (base.drop (k * ANCHOR)) = hashWin (base.drop (i * ANCHOR))
        · rw [hi, beq_self_eq_true]
          exact ⟨i, List.mem_cons_self, rfl, rfl⟩
        · rw [beq_false_of_ne hi]
          rcases List.mem_cons.1 hmem with rfl | hmem
          · exact absurd rfl hi
          · obtain ⟨j, hj, hlook, hhash⟩ := ih hmem
            exact ⟨j, List.mem_cons_of_mem _ hj, hlook, hhash⟩
  obtain ⟨i, hi, hlook, hhash⟩ := hfind (List.range (base.length / ANCHOR))
    (List.mem_range.2 ((Nat.le_div_iff_mul_le hA).2 hk))
  exact ⟨i, (Nat.le_div_iff_mul_le hA).1 (List.mem_range.1 hi), hlook, hhash⟩

/-- **A window of the base is found**, at a position whose hash is right. -/
theorem findMatch_ne_none {base target : Bytes} (hapart : HashesApart base) {st : Scan}
    (hh : st.h = hashWin (target.drop st.p)) (hw : AnchorWindow base target st.p) :
    findMatch base target (anchorIndex base) st ≠ none := by
  obtain ⟨_, k, hk, heq⟩ := hw
  obtain ⟨i, hi, hlook, hhash⟩ := lookup_anchorIndex hk
  rw [findMatch, hh, hashWin_congr heq, hlook]
  dsimp only
  rw [if_pos ⟨by rwa [Nat.succ_mul] at hi, (hapart i k hi hk hhash).trans heq.symm⟩]
  simp

/-! ### The segments -/

/-- The length of the target that the segments make up. -/
def rawLen (segs : List RawSeg) : ℕ := (segs.map RawSeg.len).sum

@[simp] theorem rawLen_concat (segs : List RawSeg) (s : RawSeg) :
    rawLen (segs ++ [s]) = rawLen segs + s.len := by
  simp [rawLen]

/-- **No ADD contains an aligned window of the base.** -/
def AddsClear (base target : Bytes) (segs : List RawSeg) : Prop :=
  ∀ pre s post, segs = pre ++ s :: post → s.kind = KIND_ADD →
    ∀ q, rawLen pre ≤ q → q + ANCHOR ≤ rawLen pre + s.len → ¬ AnchorWindow base target q

/-- A COPY shares a byte with the window at `q`. -/
def CopyMeets (segs : List RawSeg) (q n : ℕ) : Prop :=
  ∃ pre s post, segs = pre ++ s :: post ∧ s.kind = KIND_COPY ∧ rawLen pre < q + n ∧
    q < rawLen pre + s.len

theorem CopyMeets.concat {segs : List RawSeg} {q n : ℕ} (h : CopyMeets segs q n) (s : RawSeg) :
    CopyMeets (segs ++ [s]) q n := by
  obtain ⟨pre, c, post, rfl, hc⟩ := h
  exact ⟨pre, c, post ++ [s], by rw [List.append_assoc, List.cons_append], hc⟩

theorem AddsClear.concat {base target : Bytes} {segs : List RawSeg} {s : RawSeg}
    (h : AddsClear base target segs) (hs : s.kind = KIND_ADD → ∀ q, rawLen segs ≤ q →
      q + ANCHOR ≤ rawLen segs + s.len → ¬ AnchorWindow base target q) :
    AddsClear base target (segs ++ [s]) := by
  intro pre x post heq hx
  rcases List.eq_nil_or_concat' post with rfl | ⟨post, y, rfl⟩
  · obtain ⟨rfl, hlast⟩ := List.append_inj' heq rfl
    obtain rfl := (List.cons.inj hlast).1
    exact hs hx
  · rw [← List.cons_append, ← List.append_assoc] at heq
    exact h pre x post (List.append_inj' heq rfl).1 hx

section Emit

variable {env : GenEnv} {base target : Bytes} {lo : ℕ} {segs : List RawSeg}

theorem rawLen_emitAdd {hi : ℕ} (lit : Spill) (hseg : rawLen segs = lo) (hle : lo ≤ hi) :
    rawLen (emitAdd env target lo hi segs lit).1 = hi := by
  rw [emitAdd]
  split
  · dsimp only
    omega
  · rw [rawLen_concat]
    dsimp only
    omega

/-- Literals without a window of the base. -/
theorem AddsClear.emitAdd {hi : ℕ} (lit : Spill) (h : AddsClear base target segs)
    (hseg : rawLen segs = lo)
    (hclear : ∀ q, lo ≤ q → q + ANCHOR ≤ hi → ¬ AnchorWindow base target q) :
    AddsClear base target (emitAdd env target lo hi segs lit).1 := by
  rw [VidyaGodFS.emitAdd]
  split
  · exact h
  · rename_i hlt
    refine h.concat fun _ q hq hend => hclear q (by omega) ?_
    dsimp only at hend
    omega

theorem CopyMeets.emitAdd {hi q n : ℕ} (lit : Spill) (h : CopyMeets segs q n) :
    CopyMeets (emitAdd env target lo hi segs lit).1 q n := by
  rw [VidyaGodFS.emitAdd]
  split
  · exact h
  · exact h.concat _

end Emit

/-! ### The scan -/

/-- The states in which the scan of `target` is about to look at a position. -/
inductive Examines (env : GenEnv) (base target : Bytes) : Scan → Prop
  | start : Examines env base target ⟨0, 0, hashWin target, 0, 0, [], Spill.empty⟩
  | turn {st st' : Scan} : Examines env base target st → st.p + ANCHOR ≤ target.length →
      st.pollDue env target = some st' →
      Examines env base target (scanTurn env base target (anchorIndex base) st')

/-- A poll that does not abort changes nothing but when the next one is due. -/
theorem pollDue_some {env : GenEnv} {target : Bytes} {st st' : Scan}
    (h : st.pollDue env target = some st') :
    ∃ polls nextPoll, st' = { st with polls := polls, nextPoll := nextPoll } := by
  rw [Scan.pollDue] at h
  split at h
  · cases hpoll : env.poll st.polls 0 st.p target.length with
    | none =>
        rw [hpoll] at h
        cases h
    | some polls =>
        rw [hpoll] at h
        exact ⟨polls, _, (Option.some_inj.1 h).symm⟩
  · exact ⟨st.polls, st.nextPoll, (Option.some_inj.1 h).symm⟩

section Scan

variable {env : GenEnv} {base target : Bytes}

/-- The hash of a state is that of the window at its position. -/
def Scan.HashRight (target : Bytes) (st : Scan) : Prop :=
  st.p + ANCHOR ≤ target.length → st.h = hashWin (target.drop st.p)

/-- **A turn keeps the hash right**, after a miss by rolling it and after a match by hashing anew. -/
theorem Scan.HashRight.turn {st : Scan} (h : st.HashRight target)
    (hp : st.p + ANCHOR ≤ target.length) (index : List (UInt64 × ℕ)) :
    (scanTurn env base target index st).HashRight target := by
  rw [scanTurn]
  cases findMatch base target index st with
  | none =>
      intro hnext
      dsimp only [Scan.roll] at hnext ⊢
      rw [if_pos (by omega), h hp, hashWin_roll (by omega)]
  | some o =>
      intro hnext
      dsimp only [Scan.copy] at hnext ⊢
      rw [if_pos hnext]

/-- **At every position the scan looks at, the hash is that of the window there.** -/
theorem Examines.hash {st : Scan} (h : Examines env base target st) : st.HashRight target := by
  induction h with
  | start => exact fun _ => rfl
  | @turn st st' _ hp hpoll ih =>
      obtain ⟨polls, nextPoll, rfl⟩ := pollDue_some hpoll
      have hpolled : ({ st with polls := polls, nextPoll := nextPoll } : Scan).HashRight target := ih
      exact hpolled.turn hp _

/-- The invariant of the scan: the segments make up the target as far as the pending literals, the
ADDs among them have no window of the base and each window meets a COPY, and no window of the base
starts at a pending literal. -/
structure MatchInv (base target : Bytes) (st : Scan) : Prop where
  litStart_le : st.litStart ≤ st.p
  placed : rawLen st.segs = st.litStart
  clear : AddsClear base target st.segs
  met : ∀ q, q < st.litStart → AnchorWindow base target q → CopyMeets st.segs q ANCHOR
  passed : ∀ q, st.litStart ≤ q → q < st.p → ¬ AnchorWindow base target q

/-- **A turn of the scan keeps the invariant**, and moves on. -/
theorem MatchInv.turn (hapart : HashesApart base) {st : Scan} (h : MatchInv base target st)
    (hhash : st.HashRight target) (hp : st.p + ANCHOR ≤ target.length) :
    MatchInv base target (scanTurn env base target (anchorIndex base) st) ∧
      st.p < (scanTurn env base target (anchorIndex base) st).p := by
  have hA : ANCHOR = 256 := rfl
  have hle := h.litStart_le
  rw [scanTurn]
  cases hm : findMatch base target (anchorIndex base) st with
  | none =>
      -- the position starts no window of the base
      refine ⟨⟨Nat.le_succ_of_le hle, h.placed, h.clear, h.met, fun q hq hlt hw => ?_⟩,
        Nat.lt_succ_self _⟩
      dsimp only [Scan.roll] at hlt
      rcases Nat.lt_succ_iff_lt_or_eq.1 hlt with hlt | rfl
      · exact h.passed q hq hlt hw
      · exact findMatch_ne_none hapart (hhash hp) hw hm
  | some o =>
      obtain ⟨ho, heq⟩ := findMatch_eq_some hm
      obtain ⟨len, hlen, hge, -, -, -⟩ :=
        extendLen_spec base target o st.p base.length ANCHOR ho hp heq
      obtain ⟨back, hback, hbp, -, -⟩ :=
        extendBack_spec base target o hle o 0 (by omega) (by omega) (by simp)
      simp only [Scan.copy, hlen, hback]
      have hat : rawLen (emitAdd env target st.litStart (st.p - back) st.segs st.lit).1
          = st.p - back := rawLen_emitAdd st.lit h.placed (by omega)
      refine ⟨⟨le_rfl, ?_, ?_, fun q hq hw => ?_, fun q hq hlt => ?_⟩, by omega⟩
      · rw [rawLen_concat, hat]
        dsimp only
        omega
      · refine (h.clear.emitAdd st.lit h.placed fun q hq hend => ?_).concat fun hadd => ?_
        · exact h.passed q hq (by omega)
        · exact absurd hadd.symm KIND_ADD_ne_COPY
      · by_cases hlit : q < st.litStart
        · exact ((h.met q hlit hw).emitAdd st.lit).concat _
        · by_cases hlt : q < st.p
          · exact absurd hw (h.passed q (Nat.not_lt.1 hlit) hlt)
          · -- the window starts in the COPY of this turn
            refine ⟨_, _, [], rfl, rfl, ?_, ?_⟩
            · rw [hat]
              omega
            · rw [hat]
              dsimp only at hq ⊢
              omega
      · exact absurd (Nat.lt_of_le_of_lt hq hlt) (Nat.lt_irrefl _)

/-- The invariant holds of the states the scan goes through. -/
theorem Examines.inv (hapart : HashesApart base) {st : Scan} (h : Examines env base target st) :
    MatchInv base target st := by
  induction h with
  | start =>
      refine ⟨le_rfl, rfl, fun pre s post heq => ?_, fun q hq => absurd hq (Nat.not_lt_zero q),
        fun q _ hq => absurd hq (Nat.not_lt_zero q)⟩
      exact absurd heq.symm (by simp)
  | @turn st st' hst hp hpoll ih =>
      have hhash := hst.hash
      obtain ⟨polls, nextPoll, rfl⟩ := pollDue_some hpoll
      have ih' : MatchInv base target { st with polls := polls, nextPoll := nextPoll } :=
        ⟨ih.litStart_le, ih.placed, ih.clear, ih.met, ih.passed⟩
      exact (ih'.turn hapart hhash hp).1

/-- The scan goes through such states, and ends in one with no window left. -/
theorem Examines.loop (hapart : HashesApart base) :
    ∀ (fuel : ℕ) (st st' : Scan), Examines env base target st → target.length ≤ st.p + fuel →
      scanLoop env base target (anchorIndex base) fuel st = some st' →
      Examines env base target st' ∧ target.length < st'.p + ANCHOR := by
  have hA : ANCHOR = 256 := rfl
  intro fuel
  induction fuel with
  | zero =>
      intro st st' h hf hrun
      obtain rfl := Option.some_inj.1 hrun
      exact ⟨h, by omega⟩
  | succ fuel ih =>
      intro st st' h hf hrun
      rw [scanLoop] at hrun
      by_cases hend : target.length < st.p + ANCHOR
      · rw [if_pos hend] at hrun
        obtain rfl := Option.some_inj.1 hrun
        exact ⟨h, hend⟩
      · rw [if_neg hend] at hrun
        have hp := Nat.not_lt.1 hend
        cases hpoll : st.pollDue env target with
        | none =>
            rw [hpoll] at hrun
            cases hrun
        | some st₁ =>
            rw [hpoll] at hrun
            have hinv := h.inv hapart
            have hhash := h.hash
            have hturn := h.turn hp hpoll
            obtain ⟨polls, nextPoll, rfl⟩ := pollDue_some hpoll
            have hinv₁ : MatchInv base target { st with polls := polls, nextPoll := nextPoll } :=
              ⟨hinv.litStart_le, hinv.placed, hinv.clear, hinv.met, hinv.passed⟩
            have hlt : st.p < (scanTurn env base target (anchorIndex base)
                { st with polls := polls, nextPoll := nextPoll }).p :=
              (hinv₁.turn hapart hhash hp).2
            exact ih _ _ hturn (by omega) hrun

/-- The segments of a whole scan: no ADD has a window of the base in it, and each such window meets
a COPY. -/
theorem scanTarget_clear (hapart : HashesApart base) {segs : List RawSeg} {lit : Spill} {polls : ℕ}
    (h : scanTarget env base target = some (segs, lit, polls)) :
    AddsClear base target segs ∧ ∀ q, AnchorWindow base target q → CopyMeets segs q ANCHOR := by
  rw [scanTarget] at h
  cases hloop : scanLoop env base target (anchorIndex base) target.length
      ⟨0, 0, hashWin target, 0, 0, [], Spill.empty⟩ with
  | none =>
      rw [hloop] at h
      cases h
  | some st =>
      rw [hloop] at h
      obtain ⟨rfl, -⟩ := Prod.mk.inj (Option.some_inj.1 h)
      obtain ⟨hst, hend⟩ := Examines.loop hapart target.length _ st .start (Nat.le_add_left _ _) hloop
      have hinv := hst.inv hapart
      -- the scan passed by every window that starts at a literal of the tail
      have htail : ∀ q, st.litStart ≤ q → ¬ AnchorWindow base target q := fun q hq hw =>
        hinv.passed q hq (by have := hw.1; omega) hw
      refine ⟨hinv.clear.emitAdd st.lit hinv.placed fun q hq _ => htail q hq, fun q hw => ?_⟩
      by_cases hlit : q < st.litStart
      · exact (hinv.met q hlit hw).emitAdd st.lit
      · exact absurd hw (htail q (Nat.not_lt.1 hlit))

end Scan

/-- A run that base and target have in common, as long as two windows less one byte, has an aligned
window of the base in it. -/
theorem exists_anchorWindow {base target : Bytes} {o p n : ℕ} (hn : 2 * ANCHOR - 1 ≤ n)
    (ho : o + n ≤ base.length) (hp : p + n ≤ target.length)
    (heq : slice base o n = slice target p n) :
    ∃ q, p ≤ q ∧ q + ANCHOR ≤ p + n ∧ AnchorWindow base target q := by
  have hA : ANCHOR = 256 := rfl
  -- the first aligned window from `o` on
  obtain ⟨k, hk, hlt⟩ : ∃ k, o ≤ k * ANCHOR ∧ k * ANCHOR < o + ANCHOR :=
    ⟨(o + 255) / 256, by rw [hA]; omega, by rw [hA]; omega⟩
  have hin : k * ANCHOR - o + ANCHOR ≤ n := by omega
  refine ⟨p + (k * ANCHOR - o), Nat.le_add_right _ _, by omega, by omega, k, ?_, ?_⟩
  · rw [Nat.succ_mul]
    omega
  · have hb : slice (slice base o n) (k * ANCHOR - o) ANCHOR
        = slice base (o + (k * ANCHOR - o)) ANCHOR :=
      slice_slice hin
    rw [← slice_slice hin, ← heq, hb, Nat.add_sub_cancel' hk]

/-- **The matcher leaves no findable window as literals.**  At every position the scan looks at, the
rolling hash is the hash of the window there.  So, where aligned windows of the base that differ have
different hashes, no ADD contains an aligned window of the base, and a run that base and target have
in common is stored as a COPY at least in part once it is as long as two windows less one byte. -/
theorem matcher_finds (env : GenEnv) (base target : Bytes) (hapart : HashesApart base) :
    (∀ st, Examines env base target st → st.p + ANCHOR ≤ target.length →
      st.h = hashWin (target.drop st.p)) ∧
    ∀ segs lit polls, scanTarget env base target = some (segs, lit, polls) →
      (∀ pre s post, segs = pre ++ s :: post → s.kind = KIND_ADD →
        ∀ q k, rawLen pre ≤ q → q + ANCHOR ≤ rawLen pre + s.len →
          (k + 1) * ANCHOR ≤ base.length →
          slice target q ANCHOR ≠ slice base (k * ANCHOR) ANCHOR) ∧
      ∀ o p n, 2 * ANCHOR - 1 ≤ n → o + n ≤ base.length → p + n ≤ target.length →
        slice base o n = slice target p n → CopyMeets segs p n := by
  refine ⟨fun st hst => hst.hash, fun segs lit polls hscan => ?_⟩
  obtain ⟨hclear, hmeets⟩ := scanTarget_clear hapart hscan
  refine ⟨fun pre s post hseg hadd q k hq hend hk heq => ?_, fun o p n hn ho hp heq => ?_⟩
  · -- the window of the base is a whole one, so that of the target lies inside
    have hlen := congrArg List.length heq
    rw [Nat.succ_mul] at hk
    rw [length_slice, length_slice_of_le hk] at hlen
    have hA : ANCHOR = 256 := rfl
    exact hclear pre s post hseg hadd q hq hend ⟨by omega, k, by rwa [Nat.succ_mul], heq⟩
  · obtain ⟨q, hpq, hqn, hw⟩ := exists_anchorWindow hn ho hp heq
    obtain ⟨pre, s, post, hseg, hcopy, hstart, hend⟩ := hmeets q hw
    exact ⟨pre, s, post, hseg, hcopy, by omega, by omega⟩

/-! A base of two windows. -/

def twoWindows : Bytes := List.replicate 256 7 ++ List.replicate 256 9

theorem length_twoWindows : twoWindows.length = 512 := by
  rw [twoWindows, List.length_append, List.length_replicate, List.length_replicate]

theorem twoWindows_apart : HashesApart twoWindows := by
  have hne : hashWin (twoWindows.drop (0 * ANCHOR)) ≠ hashWin (twoWindows.drop (1 * ANCHOR)) := by
    decide +kernel
  have hlt : ∀ k, (k + 1) * ANCHOR ≤ twoWindows.length → k = 0 ∨ k = 1 := by
    intro k hk
    rw [length_twoWindows, ANCHOR] at hk
    omega
  intro i j hi hj hhash
  rcases hlt i hi with rfl | rfl
  · rcases hlt j hj with rfl | rfl
    · rfl
    · exact absurd hhash hne
  · rcases hlt j hj with rfl | rfl
    · exact absurd hhash.symm hne
    · rfl

/-- New bytes, more than a window of them, and then the base. -/
def prefixedWindows : Bytes := List.replicate 300 5 ++ twoWindows

theorem prefixedWindows_scan :
    (scanTarget quietEnv twoWindows prefixedWindows).map Prod.fst =
      some [⟨KIND_ADD, 300, 0⟩, ⟨KIND_COPY, 512, 0⟩] := by decide +kernel

/-- What is new is an ADD with no window of the base in it, and what they have in common a COPY. -/
theorem prefixedWindows_found :
    slice prefixedWindows 3 ANCHOR ≠ slice twoWindows (1 * ANCHOR) ANCHOR ∧
      CopyMeets [⟨KIND_ADD, 300, 0⟩, ⟨KIND_COPY, 512, 0⟩] 300 512 := by
  obtain ⟨⟨segs, lit, polls⟩, hscan, rfl⟩ := Option.map_eq_some_iff.1 prefixedWindows_scan
  have hlen : prefixedWindows.length = 812 := by
    rw [prefixedWindows, List.length_append, List.length_replicate, length_twoWindows]
  obtain ⟨hadd, hcopy⟩ := (matcher_finds quietEnv twoWindows prefixedWindows twoWindows_apart).2 _ _ _ hscan
  refine ⟨hadd [] ⟨KIND_ADD, 300, 0⟩ [⟨KIND_COPY, 512, 0⟩] rfl rfl 3 1 (Nat.zero_le 3) (by decide) ?_,
    hcopy 0 300 512 (by decide) length_twoWindows.ge hlen.ge ?_⟩
  · exact length_twoWindows.ge
  · rw [prefixedWindows, slice, slice, List.drop_left' (by rw [List.length_replicate]), List.drop_zero]

end VidyaGodFS
