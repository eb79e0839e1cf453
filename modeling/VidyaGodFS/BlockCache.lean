/-
**The cache of literal blocks, under any interleaving of its readers.**

A call of `GetAddBlock` takes the lock of the cache twice: to look for its block, and to enter the
block it has read and decompressed in between, with the lock released.  Between the two other calls
may enter the same block or evict others.  Here the calls are numbered by a type of any size, and a
step is one critical section of one of them, or its reading between the two.

Main definitions:

* `BlockAsk` — a call: a file of the reader by its number, and a block that it has;
* `loadBlock`, `BlockAsk.Gives` — reading and decompressing a block, and what comes of it;
* `CallPhase`, `CacheCalls`, `CallStep` — how far the calls have come, and their steps;
* `CacheKept` — the keys of the cache are those of the queue, each once, and at most `CacheCap`;
* `CallsInv` — the invariant of the steps.

Main results:

* `getAddBlock_alone` — a call that is not interrupted is `getAddBlock`;
* `CacheKept.remember` — entering a block keeps the cache in order;
* `blockCache_transparent` — **every call returns its own block**, whatever the interleaving, and the
  cache stays in order and bounded.
-/

import Mathlib.Logic.Relation
import Mathlib.Logic.Function.Basic
import VidyaGodFS.DeltaEnds
import VidyaGodFS.ZipPlain

set_option relaxedAutoImplicit false
set_option autoImplicit false

namespace VidyaGodFS

/-! ### The cache and its queue -/

/-- **The cache is in order**: its keys are those of the queue, newest first, each once, and no more
than it may hold. -/
structure CacheKept (s : ReadState) : Prop where
  keys : s.cache.map Prod.fst = s.fifo.reverse
  nodup : s.fifo.Nodup
  bounded : s.fifo.length ≤ CacheCap

theorem cacheKept_nil (t : ℕ) : CacheKept ⟨t, [], []⟩ := ⟨rfl, List.nodup_nil, Nat.zero_le _⟩

theorem CacheKept.clock {s : ReadState} (h : CacheKept s) (t : ℕ) :
    CacheKept { s with clock := t } := ⟨h.keys, h.nodup, h.bounded⟩

/-- A key that the cache does not find is not in the queue. -/
theorem CacheKept.notMem {s : ReadState} (h : CacheKept s) {key : ℕ}
    (hkey : s.cache.lookup key = none) : key ∉ s.fifo := by
  intro hmem
  have hcache : key ∈ s.cache.map Prod.fst := by
    rw [h.keys]
    exact List.mem_reverse.2 hmem
  obtain ⟨e, he, rfl⟩ := List.mem_map.1 hcache
  have := List.lookup_eq_none_iff.1 hkey e he
  simp at this

/-- **Entering a block keeps the cache in order**: a new key goes to the end of the queue, and past
the capacity the key at its head leaves both. -/
theorem CacheKept.remember {s : ReadState} (h : CacheKept s) (key : ℕ) (raw : Bytes) :
    CacheKept (s.remember key raw) := by
  rw [ReadState.remember]
  by_cases hin : (s.cache.lookup key).isSome
  · rwa [if_pos hin]
  rw [if_neg hin]
  have hnew : key ∉ s.fifo := h.notMem (Option.not_isSome_iff_eq_none.1 hin)
  have hnodup : (s.fifo ++ [key]).Nodup := by
    rw [List.nodup_append]
    exact ⟨h.nodup, List.nodup_singleton key, fun a ha b hb => by
      obtain rfl := List.mem_singleton.1 hb
      rintro rfl
      exact hnew ha⟩
  have hkeys : ((key, raw) :: s.cache).map Prod.fst = (s.fifo ++ [key]).reverse := by
    rw [List.map_cons, h.keys, List.reverse_append, List.reverse_singleton, List.singleton_append]
  have hlen : (s.fifo ++ [key]).length ≤ CacheCap + 1 := by
    rw [List.length_append, List.length_singleton]
    exact Nat.succ_le_succ h.bounded
  dsimp only
  split
  · exact h
  · rename_i old fifo hqueue
    rw [hqueue] at hnodup hkeys hlen
    rw [List.length_cons] at hlen
    by_cases hcap : CacheCap < fifo.length + 1
    · rw [if_pos hcap]
      obtain ⟨hold, hrest⟩ := List.nodup_cons.1 hnodup
      refine ⟨?_, hrest, Nat.le_of_succ_le_succ hlen⟩
      calc (eraseKey old ((key, raw) :: s.cache)).map Prod.fst
          = (((key, raw) :: s.cache).map Prod.fst).filter (fun k => decide (k ≠ old)) := by
            rw [eraseKey, List.filter_map]
            rfl
        _ = fifo.reverse := by
            rw [hkeys, List.reverse_cons, List.filter_append, List.filter_eq_self.2]
            · simp
            · intro k hk
              have : k ≠ old := fun heq => hold (heq ▸ List.mem_reverse.1 hk)
              simpa using this
    · rw [if_neg hcap]
      exact ⟨hkeys, hnodup, by simpa using Nat.not_lt.1 hcap⟩

/-! ### The calls -/

/-- A call of `GetAddBlock`: it names a file of the reader by its number, and a block of it. -/
structure BlockAsk (D : DeltaByteSource) where
  addSrc : ℕ
  blk : ℕ
  A : AddSource
  held : D.addSources[addSrc]? = some A
  blk_lt : blk < A.blocks.length

/-- The part of a call outside the lock: the block is read and decompressed. -/
def loadBlock (z : Zstd) (A : AddSource) (blk : ℕ) : Prog ReadState ReadErr (Option Bytes) := do
  let b := A.blocks.getD blk ⟨0, 0, 0⟩
  match ← (if b.compLen = 0 then pure (some [])
      else readFile A.file b.compLen (add64 A.regionOff b.compOff)) with
  | none => pure none
  | some comp => do
      let raw := zDecompress z comp b.uncompLen
      if raw.length ≠ b.uncompLen then pure none else pure (some raw)

/-- It fails with no error of its own, and touches nothing but the clock. -/
theorem loadBlock_run (z : Zstd) (A : AddSource) (blk : ℕ) (s : ReadState) :
    ∃ r t', loadBlock z A blk s = (.ok r, { s with clock := t' }) := by
  obtain ⟨r, t', hframe⟩ : ∃ r t', (if (A.blocks.getD blk ⟨0, 0, 0⟩).compLen = 0 then pure (some [])
      else readFile A.file (A.blocks.getD blk ⟨0, 0, 0⟩).compLen
        (add64 A.regionOff (A.blocks.getD blk ⟨0, 0, 0⟩).compOff) :
        Prog ReadState ReadErr (Option Bytes)) s = (.ok r, { s with clock := t' }) := by
    split
    · exact ⟨_, s.clock, rfl⟩
    · obtain ⟨r, t', h⟩ := preadAll_ends (ε := ReadErr) A.file
        (A.blocks.getD blk ⟨0, 0, 0⟩).compLen
        (add64 A.regionOff (A.blocks.getD blk ⟨0, 0, 0⟩).compOff) s.clock
      exact ⟨r, t', by rw [readFile, Prog.zoom_apply, h]⟩
  rw [loadBlock, Prog.bind_of_ok hframe]
  cases r with
  | none => exact ⟨none, t', rfl⟩
  | some comp =>
      dsimp only
      split
      · exact ⟨none, t', rfl⟩
      · exact ⟨_, t', rfl⟩

/-- **The three parts of a call**: the lookup, the reading, and the insertion. -/
theorem getAddBlock_parts (z : Zstd) (i : ℕ) (A : AddSource) (blk : ℕ) (s : ReadState) :
    getAddBlock z i A blk s =
      match s.cache.lookup (blockKey i blk) with
      | some raw => (.ok (some raw), s)
      | none =>
          match loadBlock z A blk s with
          | (.error e, s') => (.error e, s')
          | (.ok none, s') => (.ok none, s')
          | (.ok (some raw), s') => (.ok (some raw), s'.remember (blockKey i blk) raw) := by
  have hstart : (Prog.gets fun s : ReadState => s.cache.lookup (blockKey i blk) :
      Prog ReadState ReadErr _) s = (.ok (s.cache.lookup (blockKey i blk)), s) := rfl
  rw [getAddBlock, Prog.bind_of_ok hstart]
  cases s.cache.lookup (blockKey i blk) with
  | some raw => rfl
  | none =>
      dsimp only
      rw [loadBlock]
      rcases hframe : (if (A.blocks.getD blk ⟨0, 0, 0⟩).compLen = 0 then pure (some [])
          else readFile A.file (A.blocks.getD blk ⟨0, 0, 0⟩).compLen
            (add64 A.regionOff (A.blocks.getD blk ⟨0, 0, 0⟩).compOff) :
            Prog ReadState ReadErr (Option Bytes)) s with ⟨e | _ | comp, s'⟩
      · rw [Prog.bind_of_error hframe, Prog.bind_of_error hframe]
      · rw [Prog.bind_of_ok hframe, Prog.bind_of_ok hframe]
        rfl
      · rw [Prog.bind_of_ok hframe, Prog.bind_of_ok hframe]
        dsimp only
        split
        · rfl
        · rfl

namespace BlockAsk

variable {z : Zstd} {D : DeltaByteSource}

/-- The key of the block. -/
def key (q : BlockAsk D) : ℕ := blockKey q.addSrc q.blk

/-- **What reading and decompressing the block gives**, whenever it is done. -/
def Gives (z : Zstd) (q : BlockAsk D) (r : Option Bytes) : Prop :=
  ∀ s, (loadBlock z q.A q.blk s).1 = .ok r

/-- CacheCalls with one key ask for one block. -/
theorem eq_of_key (hF : KeysApart (D.addSources[·]?)) {q q' : BlockAsk D} (h : q.key = q'.key) :
    q = q' := by
  obtain ⟨i, blk, A, hA, hlt⟩ := q
  obtain ⟨j, blk', A', hA', hlt'⟩ := q'
  obtain ⟨rfl, rfl⟩ := hF i j A A' blk blk' hA hA' hlt hlt' h
  obtain rfl : A = A' := Option.some_inj.1 (hA.symm.trans hA')
  rfl

end BlockAsk

/-- The bytes of the files are fixed: whenever a block is read, the same comes of it. -/
def DeltaByteSource.BlocksFixed (z : Zstd) (D : DeltaByteSource) : Prop :=
  ∀ q : BlockAsk D, ∃ r, q.Gives z r

/-- So it is when the files deliver their bytes, however short some of them are. -/
theorem blocksFixed_of_delivers {z : Zstd} {D : DeltaByteSource}
    (h : ∀ A ∈ D.addSources, ∃ bytes, A.file.Delivers bytes ∧ A.file.EndsAtSize) :
    D.BlocksFixed z := by
  rintro ⟨i, blk, A, hA, _⟩
  obtain ⟨bytes, hfile, hend⟩ := h A (List.mem_of_getElem? hA)
  generalize hb : A.blocks.getD blk ⟨0, 0, 0⟩ = b
  -- the frame is a part of the bytes, or it is cut off
  have hframe : ∃ comp, ∀ s : ReadState, ∃ s', (if b.compLen = 0 then pure (some [])
      else readFile A.file b.compLen (add64 A.regionOff b.compOff) :
        Prog ReadState ReadErr (Option Bytes)) s = (.ok comp, s') := by
    by_cases h0 : b.compLen = 0
    · exact ⟨some [], fun s => ⟨s, by rw [if_pos h0]; rfl⟩⟩
    · refine ⟨bytesAt bytes b.compLen (add64 A.regionOff b.compOff), fun s => ?_⟩
      obtain ⟨t', ht'⟩ := preadAll_bytesAt (ε := ReadErr) hfile hend b.compLen
        (add64 A.regionOff b.compOff) s.clock
      exact ⟨{ s with clock := t' }, by rw [if_neg h0, readFile, Prog.zoom_apply, ht']⟩
  obtain ⟨comp, hcomp⟩ := hframe
  refine ⟨comp.bind fun comp => if (zDecompress z comp b.uncompLen).length ≠ b.uncompLen then none
    else some (zDecompress z comp b.uncompLen), fun s => ?_⟩
  obtain ⟨s', hs'⟩ := hcomp s
  dsimp only
  rw [loadBlock, hb, Prog.bind_of_ok hs']
  cases comp with
  | none => rfl
  | some comp =>
      dsimp only [Option.bind_some]
      split
      · rfl
      · rfl

/-! ### The steps -/

/-- How far a call has come: it has not looked yet, it has not found its block, it holds the block it
has read, or it has returned. -/
inductive CallPhase
  | waiting
  | missed
  | loaded (raw : Bytes)
  | returned (r : Option Bytes)

/-- All calls, by their numbers, and the cache they share. -/
structure CacheCalls (ι : Type) where
  shared : ReadState
  phase : ι → CallPhase

/-- No call has begun, and the cache is empty. -/
def CacheCalls.start {ι : Type} (t : ℕ) : CacheCalls ι := ⟨⟨t, [], []⟩, fun _ => .waiting⟩

/-- What a phase promises for its call: a block it holds, or returns, is what reading it gives. -/
def PhaseRight {D : DeltaByteSource} (z : Zstd) (q : BlockAsk D) : CallPhase → Prop
  | .waiting => True
  | .missed => True
  | .loaded raw => q.Gives z (some raw)
  | .returned r => q.Gives z r

/-- **The invariant**: the cache is in order, each entry is what reading the block of its key gives,
and so is what the calls hold. -/
structure CallsInv {ι : Type} {D : DeltaByteSource} (z : Zstd) (asks : ι → BlockAsk D)
    (c : CacheCalls ι) : Prop where
  kept : CacheKept c.shared
  cached : ∀ (q : BlockAsk D) (raw : Bytes), c.shared.cache.lookup q.key = some raw →
    q.Gives z (some raw)
  phases : ∀ i, PhaseRight z (asks i) (c.phase i)

theorem CallsInv.start {ι : Type} {D : DeltaByteSource} {z : Zstd} {asks : ι → BlockAsk D} (t : ℕ) :
    CallsInv z asks (CacheCalls.start t) where
  kept := cacheKept_nil t
  cached := fun q raw h => by simp [CacheCalls.start] at h
  phases := fun _ => trivial

section Steps

variable {ι : Type} [DecidableEq ι] {z : Zstd} {D : DeltaByteSource} {asks : ι → BlockAsk D}

/-- The call `i` moves on, and leaves the cache as `s`. -/
def CacheCalls.set (c : CacheCalls ι) (i : ι) (s : ReadState) (p : CallPhase) : CacheCalls ι :=
  ⟨s, Function.update c.phase i p⟩

/-- **A step of the call `i`**: its lookup, its reading, or its insertion. -/
inductive CallStep (z : Zstd) (asks : ι → BlockAsk D) (i : ι) (c : CacheCalls ι) : CacheCalls ι → Prop
  | hit {raw : Bytes} : c.phase i = .waiting → c.shared.cache.lookup (asks i).key = some raw →
      CallStep z asks i c (c.set i c.shared (.returned (some raw)))
  | miss : c.phase i = .waiting → c.shared.cache.lookup (asks i).key = none →
      CallStep z asks i c (c.set i c.shared .missed)
  | fail {s : ReadState} : c.phase i = .missed →
      loadBlock z (asks i).A (asks i).blk c.shared = (.ok none, s) →
      CallStep z asks i c (c.set i s (.returned none))
  | load {raw : Bytes} {s : ReadState} : c.phase i = .missed →
      loadBlock z (asks i).A (asks i).blk c.shared = (.ok (some raw), s) →
      CallStep z asks i c (c.set i s (.loaded raw))
  | insert {raw : Bytes} : c.phase i = .loaded raw →
      CallStep z asks i c
        (c.set i (c.shared.remember (asks i).key raw) (.returned (some raw)))

/-- Any calls taking steps in any order. -/
def CallsRun (z : Zstd) (asks : ι → BlockAsk D) : CacheCalls ι → CacheCalls ι → Prop :=
  Relation.ReflTransGen fun c c' => ∃ i, CallStep z asks i c c'

@[simp] theorem CacheCalls.set_phase_self (c : CacheCalls ι) (i : ι) (s : ReadState) (p : CallPhase) :
    (c.set i s p).phase i = p := by
  simp [CacheCalls.set]

theorem CacheCalls.set_phase_of_ne (c : CacheCalls ι) {i j : ι} (h : j ≠ i) (s : ReadState)
    (p : CallPhase) :
    (c.set i s p).phase j = c.phase j := by
  simp [CacheCalls.set, h]

/-- A step keeps the invariant if it leaves the cache right, and its call. -/
theorem CallsInv.set {c : CacheCalls ι} (h : CallsInv z asks c) {i : ι} {s : ReadState} {p : CallPhase}
    (hkept : CacheKept s) (hcached : ∀ (q : BlockAsk D) (raw : Bytes),
      s.cache.lookup q.key = some raw → q.Gives z (some raw))
    (hp : PhaseRight z (asks i) p) : CallsInv z asks (c.set i s p) where
  kept := hkept
  cached := hcached
  phases := fun j => by
    by_cases hj : j = i
    · subst hj
      rwa [CacheCalls.set_phase_self]
    · rw [CacheCalls.set_phase_of_ne c hj]
      exact h.phases j

/-- **A step keeps the invariant**, when the files are fixed and the keys of blocks differ. -/
theorem CallStep.inv (hF : KeysApart (D.addSources[·]?)) (hfix : D.BlocksFixed z) {i : ι}
    {c c' : CacheCalls ι} (hstep : CallStep z asks i c c') (h : CallsInv z asks c) :
    CallsInv z asks c' := by
  -- what a reading yields now, it yields always; and it leaves the cache alone
  have hload : ∀ {r : Option Bytes} {s : ReadState},
      loadBlock z (asks i).A (asks i).blk c.shared = (.ok r, s) →
      (asks i).Gives z r ∧ ∃ t', s = { c.shared with clock := t' } := by
    intro r s hrun
    obtain ⟨r₀, hr₀⟩ := hfix (asks i)
    have hfirst := hr₀ c.shared
    rw [hrun] at hfirst
    obtain rfl := Except.ok.inj hfirst
    obtain ⟨r₁, t', hrun'⟩ := loadBlock_run z (asks i).A (asks i).blk c.shared
    rw [hrun] at hrun'
    obtain rfl := (Prod.mk.inj hrun').2
    exact ⟨hr₀, t', rfl⟩
  cases hstep with
  | hit hp hlook => exact h.set h.kept h.cached (h.cached _ _ hlook)
  | miss hp hlook => exact h.set h.kept h.cached trivial
  | fail hp hrun =>
      obtain ⟨hgives, t', rfl⟩ := hload hrun
      exact h.set (h.kept.clock t') h.cached hgives
  | load hp hrun =>
      obtain ⟨hgives, t', rfl⟩ := hload hrun
      exact h.set (h.kept.clock t') h.cached hgives
  | @insert raw hp =>
      have hgives : (asks i).Gives z (some raw) := by
        have hphase := h.phases i
        rwa [hp] at hphase
      refine h.set (h.kept.remember _ _) ?_ hgives
      intro q raw' hlook
      rcases lookup_remember hlook with ⟨hkey, rfl⟩ | hold
      · rw [BlockAsk.eq_of_key hF hkey]
        exact hgives
      · exact h.cached q raw' hold

theorem CallsRun.refl {c : CacheCalls ι} : CallsRun z asks c c := Relation.ReflTransGen.refl

theorem CallsRun.step {i : ι} {c c' c'' : CacheCalls ι} (h : CallsRun z asks c c')
    (hstep : CallStep z asks i c' c'') : CallsRun z asks c c'' := h.tail ⟨i, hstep⟩

/-- The invariant holds after any steps. -/
theorem CallsRun.inv (hF : KeysApart (D.addSources[·]?)) (hfix : D.BlocksFixed z) {c c' : CacheCalls ι}
    (hrun : CallsRun z asks c c') (h : CallsInv z asks c) : CallsInv z asks c' := by
  induction hrun with
  | refl => exact h
  | tail _ hstep ih =>
      obtain ⟨i, hstep⟩ := hstep
      exact hstep.inv hF hfix ih

/-- A call that has not returned can take a step, whatever the others do. -/
theorem CallStep.exists (c : CacheCalls ι) (i : ι) :
    (∃ r, c.phase i = .returned r) ∨ ∃ c', CallStep z asks i c c' := by
  cases hp : c.phase i with
  | waiting =>
      cases hlook : c.shared.cache.lookup (asks i).key with
      | none => exact Or.inr ⟨_, .miss hp hlook⟩
      | some raw => exact Or.inr ⟨_, .hit hp hlook⟩
  | missed =>
      obtain ⟨_ | raw, t', hrun⟩ := loadBlock_run z (asks i).A (asks i).blk c.shared
      · exact Or.inr ⟨_, .fail hp hrun⟩
      · exact Or.inr ⟨_, .load hp hrun⟩
  | loaded raw => exact Or.inr ⟨_, .insert hp⟩
  | returned r => exact Or.inl ⟨r, rfl⟩

/-- **A call that is not interrupted is `getAddBlock`**: it returns the same, and leaves the cache
the same. -/
theorem getAddBlock_alone (c : CacheCalls ι) {i : ι} (hp : c.phase i = .waiting) :
    ∃ c' r, CallsRun z asks c c' ∧ c'.phase i = .returned r ∧
      getAddBlock z (asks i).addSrc (asks i).A (asks i).blk c.shared = (.ok r, c'.shared) := by
  rw [getAddBlock_parts]
  cases hlook : c.shared.cache.lookup (blockKey (asks i).addSrc (asks i).blk) with
  | some raw =>
      exact ⟨_, some raw, CallsRun.refl.step (.hit hp hlook), c.set_phase_self i _ _, rfl⟩
  | none =>
      have hmiss : CallStep z asks i c (c.set i c.shared .missed) := .miss hp hlook
      have hp₁ := c.set_phase_self i c.shared .missed
      obtain ⟨_ | raw, t', hrun⟩ := loadBlock_run z (asks i).A (asks i).blk c.shared
      · refine ⟨_, none, (CallsRun.refl.step hmiss).step (.fail hp₁ hrun),
          CacheCalls.set_phase_self _ i _ _, ?_⟩
        rw [hrun]
        rfl
      · have hload : CallStep z asks i (c.set i c.shared .missed)
            ((c.set i c.shared .missed).set i { c.shared with clock := t' } (.loaded raw)) :=
          .load hp₁ hrun
        refine ⟨_, some raw, ((CallsRun.refl.step hmiss).step hload).step
          (.insert (CacheCalls.set_phase_self _ i _ _)), CacheCalls.set_phase_self _ i _ _, ?_⟩
        rw [hrun]
        rfl

end Steps

/-- **The cache is transparent and bounded.**  However the calls interleave, each that has returned
has returned what reading and decompressing its block gives, none exactly when that fails; each that
has not can go on; and the keys of the cache are those of the queue, each once, and at most
`CacheCap`. -/
theorem blockCache_transparent {ι : Type} [DecidableEq ι] {z : Zstd} {D : DeltaByteSource}
    (hD : Built z D) (hn : D.addSources.length ≤ 2 ^ 24) (hfix : D.BlocksFixed z)
    (asks : ι → BlockAsk D) {t : ℕ} {c : CacheCalls ι} (hrun : CallsRun z asks (CacheCalls.start t) c) :
    (∀ i r, c.phase i = .returned r → (asks i).Gives z r) ∧
      (∀ i, (∃ r, c.phase i = .returned r) ∨ ∃ c', CallStep z asks i c c') ∧
      (c.shared.cache.map Prod.fst).Perm c.shared.fifo ∧ c.shared.fifo.Nodup ∧
      c.shared.fifo.length ≤ CacheCap := by
  have hinv := hrun.inv (hD.keysApart hn) hfix (CallsInv.start t)
  refine ⟨fun i r hr => ?_, CallStep.exists c, ?_, hinv.kept.nodup, hinv.kept.bounded⟩
  · have hphase := hinv.phases i
    rwa [hr] at hphase
  · rw [hinv.kept.keys]
    exact c.shared.fifo.reverse_perm

/-- Two calls for the one block of a file, which both miss it. -/
def raceAsks : Bool → BlockAsk stuckReader := fun _ => ⟨0, 0, stuckAdd, rfl, by decide⟩

/-- Both return the block, and it is entered once. -/
theorem race_transparent :
    (raceAsks true).Gives storingZstd (some [5, 6]) ∧
      (raceAsks false).Gives storingZstd (some [5, 6]) ∧
      ∃ c, CallsRun storingZstd raceAsks (CacheCalls.start 0) c ∧ c.shared.fifo = [0] ∧
        (c.shared.cache.map Prod.fst).Perm c.shared.fifo := by
  obtain ⟨io₁, hcreate⟩ := stuckFile_create
  have hfix : stuckReader.BlocksFixed storingZstd := by
    refine blocksFixed_of_delivers ?_
    intro A hA
    obtain rfl := List.mem_singleton.1 hA
    exact ⟨_, memByteSource_delivers _ _, memByteSource_endsAtSize _ _⟩
  obtain ⟨c, hrun, ht, hf, hfifo⟩ : ∃ c, CallsRun storingZstd raceAsks (CacheCalls.start 0) c ∧
      c.phase true = .returned (some [5, 6]) ∧ c.phase false = .returned (some [5, 6]) ∧
      c.shared.fifo = [0] := by
    let c₀ : CacheCalls Bool := CacheCalls.start 0
    let c₁ := c₀.set true c₀.shared .missed
    let c₂ := c₁.set false c₁.shared .missed
    let c₃ := c₂.set true (loadBlock storingZstd stuckAdd 0 c₂.shared).2 (.loaded [5, 6])
    let c₄ := c₃.set false (loadBlock storingZstd stuckAdd 0 c₃.shared).2 (.loaded [5, 6])
    let c₅ := c₄.set true (c₄.shared.remember 0 [5, 6]) (.returned (some [5, 6]))
    let c₆ := c₅.set false (c₅.shared.remember 0 [5, 6]) (.returned (some [5, 6]))
    have h₁ : CallStep storingZstd raceAsks true c₀ c₁ := .miss rfl rfl
    have h₂ : CallStep storingZstd raceAsks false c₁ c₂ := .miss rfl rfl
    have h₃ : CallStep storingZstd raceAsks true c₂ c₃ := .load rfl rfl
    have h₄ : CallStep storingZstd raceAsks false c₃ c₄ := .load rfl rfl
    have h₅ : CallStep storingZstd raceAsks true c₄ c₅ := .insert rfl
    have h₆ : CallStep storingZstd raceAsks false c₅ c₆ := .insert rfl
    refine ⟨c₆, ?_, rfl, rfl, rfl⟩
    have hmiss : CallsRun storingZstd raceAsks c₀ c₂ := (CallsRun.refl.step h₁).step h₂
    exact (((hmiss.step h₃).step h₄).step h₅).step h₆
  have hall := blockCache_transparent (.plain hcreate) (by decide) hfix raceAsks hrun
  exact ⟨hall.1 true _ ht, hall.1 false _ hf, c, hrun, hfifo, hall.2.2.1⟩

end VidyaGodFS
