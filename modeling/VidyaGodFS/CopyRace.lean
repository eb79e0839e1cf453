/-
**Opening one file, under any interleaving of the calls.**

A call that opens a file of a read-only layer for writing copies it up first: it takes the lock of the
path, makes the copy's file at the path where all lookups find it, and fills it piece by piece.  Other
calls look at that path, and open what they find there, without the lock.  Here the calls are numbered
by a type of any size and cut into their single calls on the host, and every call on the host but a
lookup may fail.  What is fixed is the bytes that the layer has for the file, and that the copy's path
is one that a lookup tries before the layer: in the writelayer, or in a kept folder above the layer.
Nothing else makes, moves or removes a file at that path.

Main definitions:

* `CopyAsk` — a call: opening the file, or cutting it;
* `CopyState` — what the calls share: the files that were made at the copy's path, and the lock;
* `CopyPlace`, `CopyMove` — how far a call has come, and its moves;
* `CopyHandle.content` — what a handle reads;
* `WritesWhole`, `OpensWhole` — no call gets at a copy that is being filled, to change it, or at all;
* `ReadsWhole`, `SparesWrites` — no read is torn, and no write is written over by a copy-up.

Main results:

* `copyUp_onceFilled` — **a copy that has been filled is not touched by a copy-up again**, only by
  writes and truncates, and one call at a time is copying up;
* `copyUp_losesNothing` — **no write is lost** where calls change whole copies only, and what is read
  is at any time a part of the file from its start;
* `copyUp_notTorn` — **no read is torn** where calls open whole copies only;
* `copyUp_whole` — both at once, of all handles and all changes in a run;
* `copyUp_tornRead`, `copyUp_lostWrite` — for every file that is not empty the moves allow both.
-/

import VidyaGodFS.CopyContent
import VidyaGodFS.Interleave

set_option relaxedAutoImplicit false
set_option autoImplicit false

namespace VidyaGodFS

open Posix Interleave

/-! ### What the calls share -/

/-- A change of a file through a handle, or through its path. -/
inductive FileEdit
  | write (off : ℕ) (bs : Bytes)
  | cut (size : ℕ)

/-- The content after a change. -/
def FileEdit.apply (content : Bytes) : FileEdit → Bytes
  | .write off bs => overwrite content off bs
  | .cut size => resize content size

/-- The content after some changes, the oldest first. -/
def replay (content : Bytes) (edits : List FileEdit) : Bytes := edits.foldl FileEdit.apply content

@[simp] theorem replay_nil (content : Bytes) : replay content [] = content := rfl

theorem replay_concat (content : Bytes) (edits : List FileEdit) (e : FileEdit) :
    replay content (edits ++ [e]) = e.apply (replay content edits) := by
  simp [replay]

/-- What the calls share: the file at the copy's path, the bytes of every file that was ever there,
the number of the next one, and who holds the lock.  `filled` tells which files a copy-up has filled,
and with what; `edits` what came after that, or, before, since the file was made. -/
structure CopyState (ι : Type) where
  entry : Option ℕ
  bytes : ℕ → Bytes
  next : ℕ
  holder : Option ι
  filled : ℕ → Option Bytes
  edits : ℕ → List FileEdit

namespace CopyState

variable {ι : Type} (s : CopyState ι)

/-- Nothing was copied up yet. -/
def start : CopyState ι := ⟨none, fun _ => [], 0, none, fun _ => none, fun _ => []⟩

/-- The lock is taken, or let go. -/
def lock (holder : Option ι) : CopyState ι := { s with holder := holder }

/-- A new empty file at the copy's path. -/
def make : CopyState ι :=
  { s with
    entry := some s.next
    bytes := Function.update s.bytes s.next []
    next := s.next + 1 }

/-- The copy-up changes the bytes of its file. -/
def fill (n : ℕ) (bs : Bytes) : CopyState ι := { s with bytes := Function.update s.bytes n bs }

/-- The copy-up is through with its file. -/
def finish (n : ℕ) : CopyState ι :=
  { s with
    filled := Function.update s.filled n (some (s.bytes n))
    edits := Function.update s.edits n [] }

/-- A file that was not filled is taken away. -/
def unlink : CopyState ι := { s with entry := none }

/-- A file is changed through a handle, or through its path. -/
def edit (n : ℕ) (e : FileEdit) : CopyState ι :=
  { s with
    bytes := Function.update s.bytes n (e.apply (s.bytes n))
    edits := Function.update s.edits n (s.edits n ++ [e]) }

end CopyState

/-! ### The calls -/

/-- A call: `VfsOpen`, with the flags that the kernel leaves to it, or `VfsTruncate` of the path. -/
inductive CopyAsk
  | open (access : Access) (trunc append : Bool)
  | cut (size : ℕ)

def CopyAsk.wantWrite : CopyAsk → Bool
  | .open access trunc _ => access.writes || trunc
  | .cut _ => true

/-- What `VfsOpen` gives out: the layer's file, or a file that was made at the copy's path. -/
inductive CopyHandle
  | lower
  | copy (n : ℕ) (access : Access) (append : Bool)

/-- How far a call has come. -/
inductive CopyPlace
  /-- before `Resolve` -/
  | start (a : CopyAsk)
  /-- before the layer's file is opened -/
  | below (a : CopyAsk)
  /-- before the lock -/
  | locking (a : CopyAsk)
  /-- before the copy's path is looked at under the lock -/
  | locked (a : CopyAsk)
  /-- before the copy's file is made -/
  | making (a : CopyAsk)
  /-- `pos` bytes were written to the file `n`, and `buf` was read and not written -/
  | filling (a : CopyAsk) (n pos : ℕ) (buf : Bytes)
  /-- before the file `n` is taken away -/
  | failed (a : CopyAsk) (n : ℕ) (e : Errno)
  /-- before the lock is let go -/
  | leaving (a : CopyAsk) (rc : Except Errno Unit)
  /-- before the copy's path is opened, or cut -/
  | reaching (a : CopyAsk)
  /-- `VfsOpen` has given out a handle -/
  | opened (h : CopyHandle)
  /-- the call has returned, or the handle was closed -/
  | returned (rc : Except Errno Unit)

/-- The lock is held. -/
def CopyPlace.inside : CopyPlace → Bool
  | .locked _ | .making _ | .filling .. | .failed .. | .leaving .. => true
  | _ => false

section

variable {ι : Type}

/-- **The moves of a call `i`**, each a call on the host; `lower` are the bytes of the layer's file. -/
inductive CopyMove (lower : Bytes) (i : ι) (s : CopyState ι) :
    CopyPlace → CopyState ι → CopyPlace → Prop
  -- `Resolve`
  | found {a : CopyAsk} : s.entry.isSome → CopyMove lower i s (.start a) s (.reaching a)
  | readsBelow {a : CopyAsk} : s.entry = none → a.wantWrite = false →
      CopyMove lower i s (.start a) s (.below a)
  | writesBelow {a : CopyAsk} : s.entry = none → a.wantWrite = true →
      CopyMove lower i s (.start a) s (.locking a)
  | openBelow {a : CopyAsk} : CopyMove lower i s (.below a) s (.opened .lower)
  | openBelowFails {a : CopyAsk} {e : Errno} :
      CopyMove lower i s (.below a) s (.returned (.error e))
  -- `CopyUp`
  | lock {a : CopyAsk} : s.holder = none →
      CopyMove lower i s (.locking a) (s.lock (some i)) (.locked a)
  | there {a : CopyAsk} : s.entry.isSome →
      CopyMove lower i s (.locked a) s (.leaving a (.ok ()))
  | vacant {a : CopyAsk} : s.entry = none → CopyMove lower i s (.locked a) s (.making a)
  | make {a : CopyAsk} : s.entry = none →
      CopyMove lower i s (.making a) s.make (.filling a s.next 0 [])
  | remake {a : CopyAsk} {n : ℕ} : s.entry = some n →
      CopyMove lower i s (.making a) (s.fill n []) (.filling a n 0 [])
  | makeFails {a : CopyAsk} {e : Errno} :
      CopyMove lower i s (.making a) s (.leaving a (.error e))
  | read {a : CopyAsk} {n pos : ℕ} {got : Bytes} : got ≠ [] → got.length ≤ copyChunk →
      got <+: lower.drop pos → CopyMove lower i s (.filling a n pos []) s (.filling a n pos got)
  | write {a : CopyAsk} {n pos k : ℕ} {buf : Bytes} : 0 < k → k ≤ buf.length →
      CopyMove lower i s (.filling a n pos buf)
        (s.fill n (overwrite (s.bytes n) pos (buf.take k))) (.filling a n (pos + k) (buf.drop k))
  | copyFails {a : CopyAsk} {n pos : ℕ} {buf : Bytes} {e : Errno} :
      CopyMove lower i s (.filling a n pos buf) s (.failed a n e)
  | ends {a : CopyAsk} {n pos : ℕ} : lower.length ≤ pos →
      CopyMove lower i s (.filling a n pos []) (s.finish n) (.leaving a (.ok ()))
  | unlink {a : CopyAsk} {n : ℕ} {e : Errno} :
      CopyMove lower i s (.failed a n e) s.unlink (.leaving a (.error e))
  | unlinkFails {a : CopyAsk} {n : ℕ} {e : Errno} :
      CopyMove lower i s (.failed a n e) s (.leaving a (.error e))
  | unlock {a : CopyAsk} : CopyMove lower i s (.leaving a (.ok ())) (s.lock none) (.reaching a)
  | unlockFailed {a : CopyAsk} {e : Errno} :
      CopyMove lower i s (.leaving a (.error e)) (s.lock none) (.returned (.error e))
  -- the rest of `VfsOpen`, and of `VfsTruncate`
  | gone {a : CopyAsk} : s.entry = none →
      CopyMove lower i s (.reaching a) s (.returned (.error .enoent))
  | refused {a : CopyAsk} {e : Errno} :
      CopyMove lower i s (.reaching a) s (.returned (.error e))
  | openCopy {access : Access} {append : Bool} {n : ℕ} : s.entry = some n →
      CopyMove lower i s (.reaching (.open access false append)) s (.opened (.copy n access append))
  | openCopyTrunc {access : Access} {append : Bool} {n : ℕ} : s.entry = some n →
      CopyMove lower i s (.reaching (.open access true append)) (s.edit n (.cut 0))
        (.opened (.copy n access append))
  | cutCopy {size n : ℕ} : s.entry = some n →
      CopyMove lower i s (.reaching (.cut size)) (s.edit n (.cut size)) (.returned (.ok ()))
  -- `VfsWrite`, `VfsTruncate` and `VfsRelease` of a handle
  | vfsWrite {n : ℕ} {access : Access} {append : Bool} {off : ℕ} {bs : Bytes} :
      access.writes = true →
      CopyMove lower i s (.opened (.copy n access append))
        (s.edit n (.write (if append then (s.bytes n).length else off) bs))
        (.opened (.copy n access append))
  | vfsTruncate {n : ℕ} {access : Access} {append : Bool} {size : ℕ} : access.writes = true →
      CopyMove lower i s (.opened (.copy n access append)) (s.edit n (.cut size))
        (.opened (.copy n access append))
  | vfsRelease {h : CopyHandle} : CopyMove lower i s (.opened h) s (.returned (.ok ()))

/-- What a handle reads, from its start to its end. -/
def CopyHandle.content (lower : Bytes) (s : CopyState ι) : CopyHandle → Bytes
  | .lower => lower
  | .copy n _ _ => s.bytes n

/-- No call gets to change a copy that is still being filled, or was left half filled. -/
def WritesWhole : Moves ι (CopyState ι) CopyPlace := fun _ s p _ p' =>
  ∀ a n, p = .reaching a → a.wantWrite = true → s.entry = some n →
    (∀ e, p' ≠ .returned (.error e)) → (s.filled n).isSome

/-- No call gets at a copy that is still being filled, or was left half filled. -/
def OpensWhole : Moves ι (CopyState ι) CopyPlace := fun _ s p _ p' =>
  ∀ a n, p = .reaching a → s.entry = some n → (∀ e, p' ≠ .returned (.error e)) →
    (s.filled n).isSome

/-- All calls before their first move. -/
def beginning (asks : ι → CopyAsk) : Threads ι (CopyState ι) CopyPlace :=
  ⟨.start, fun i => .start (asks i)⟩

/-! ### What holds of every run -/

/-- What is known of the shared state: its files are numbered, and a file that was filled has the
content that it was filled with, and the changes that came after. -/
structure CopyKept (s : CopyState ι) : Prop where
  entry_lt : ∀ n, s.entry = some n → n < s.next
  filled_lt : ∀ n, (s.filled n).isSome → n < s.next
  replayed : ∀ n content, s.filled n = some content → s.bytes n = replay content (s.edits n)

/-- What a call knows at its place: that it has the lock, what is at the copy's path, and that its
file has not been filled. -/
def CopyKnows (i : ι) (s : CopyState ι) : CopyPlace → Prop
  | .locked _ | .leaving .. => s.holder = some i
  | .making _ => s.holder = some i ∧ s.entry = none
  | .filling _ n _ _ | .failed _ n _ =>
      s.holder = some i ∧ s.entry = some n ∧ n < s.next ∧ s.filled n = none
  | .opened (.copy n _ _) => n < s.next
  | _ => True

variable {lower : Bytes} {i : ι} {s s' : CopyState ι} {p p' : CopyPlace}

/-- A call that has the lock knows it. -/
theorem CopyKnows.holder (h : CopyKnows i s p) (hp : p.inside = true) : s.holder = some i := by
  cases p with
  | locked a => exact h
  | making a => exact h.1
  | filling a n pos buf => exact h.1
  | failed a n e => exact h.1
  | leaving a rc => exact h
  | _ => cases hp

/-- Files stay numbered, and filled. -/
theorem CopyMove.grows (h : CopyMove lower i s p s' p') :
    s.next ≤ s'.next ∧ ∀ n, (s.filled n).isSome → (s'.filled n).isSome := by
  cases h with
  | make _ => exact ⟨Nat.le_succ _, fun _ hn => hn⟩
  | @ends a n pos hend =>
      refine ⟨le_rfl, fun m hm => ?_⟩
      by_cases hmn : m = n
      · subst hmn
        simp [CopyState.finish]
      · simpa [CopyState.finish, hmn] using hm
  | _ => exact ⟨le_rfl, fun _ hn => hn⟩

/-- **What a call may do while another has the lock**: nothing but change a file, at the copy's path
or through a handle of its own. -/
theorem CopyMove.outside (h : CopyMove lower i s p s' p') (hp : p.inside = false)
    (hs : s.holder ≠ none) :
    s' = s ∨ ∃ n e, s' = s.edit n e ∧
      ((∃ a, p = .reaching a ∧ a.wantWrite = true ∧ s.entry = some n ∧
          ∀ e, p' ≠ .returned (.error e)) ∨
        ∃ access append, p = .opened (.copy n access append) ∧ access.writes = true) := by
  cases h with
  | lock hfree => exact absurd hfree hs
  | @openCopyTrunc access append n hn =>
      refine Or.inr ⟨n, _, rfl, Or.inl ⟨_, rfl, ?_, hn, by rintro e ⟨⟩⟩⟩
      exact Bool.or_true _
  | @cutCopy size n hn =>
      exact Or.inr ⟨n, _, rfl, Or.inl ⟨_, rfl, rfl, hn, by rintro e ⟨⟩⟩⟩
  | @vfsWrite n access append off bs hw =>
      exact Or.inr ⟨n, _, rfl, Or.inr ⟨access, append, rfl, hw⟩⟩
  | @vfsTruncate n access append size hw =>
      exact Or.inr ⟨n, _, rfl, Or.inr ⟨access, append, rfl, hw⟩⟩
  | found _ | readsBelow _ _ | writesBelow _ _ | openBelow | openBelowFails | gone _ | refused
  | openCopy _ | vfsRelease => exact Or.inl rfl
  | _ => cases hp

/-- What a call knows stays true while others move. -/
theorem CopyKnows.others {j : ι} {q : CopyPlace} (hj : j ≠ i) (h : CopyMove lower i s p s' p')
    (hp : CopyKnows i s p) (hq : CopyKnows j s q) : CopyKnows j s' q := by
  cases hin : q.inside with
  | false =>
      cases q with
      | opened handle =>
          cases handle with
          | lower => trivial
          | copy n access append => exact Nat.lt_of_lt_of_le hq h.grows.1
      | locked a => cases hin
      | making a => cases hin
      | filling a n pos buf => cases hin
      | failed a n e => cases hin
      | leaving a rc => cases hin
      | _ => trivial
  | true =>
      -- the other call has the lock, so this one has not
      have hlock := hq.holder hin
      have hout : p.inside = false := by
        by_contra hp'
        have := hp.holder (by simpa using hp')
        exact hj (Option.some.inj (hlock.symm.trans this))
      rcases h.outside hout (by simp [hlock]) with rfl | ⟨n, e, rfl, -⟩
      · exact hq
      · cases q with
        | locked a => exact hq
        | making a => exact hq
        | filling a m pos buf => exact hq
        | failed a m e => exact hq
        | leaving a rc => exact hq
        | _ => cases hin

/-- A file that is being filled may be changed. -/
theorem CopyKept.fill (h : CopyKept s) {n : ℕ} (hn : s.filled n = none) (bs : Bytes) :
    CopyKept (s.fill n bs) where
  entry_lt := h.entry_lt
  filled_lt := h.filled_lt
  replayed := fun m content hm => by
    have hmn : m ≠ n := by
      rintro rfl
      rw [CopyState.fill, hn] at hm
      cases hm
    simpa [CopyState.fill, hmn] using h.replayed m content hm

/-- A change through a handle is the last one of its file. -/
theorem CopyKept.edit (h : CopyKept s) (n : ℕ) (e : FileEdit) : CopyKept (s.edit n e) where
  entry_lt := h.entry_lt
  filled_lt := h.filled_lt
  replayed := fun m content hm => by
    have hold := h.replayed m content hm
    by_cases hmn : m = n
    · subst hmn
      simp [CopyState.edit, replay_concat, ← hold]
    · simpa [CopyState.edit, hmn] using hold

theorem CopyKept.make (h : CopyKept s) : CopyKept s.make where
  entry_lt := fun n hn => by
    obtain rfl := Option.some.inj hn
    exact Nat.lt_succ_self _
  filled_lt := fun n hn => Nat.lt_succ_of_lt (h.filled_lt n hn)
  replayed := fun m content hm => by
    have hmn : m ≠ s.next := (h.filled_lt m (by rw [show s.filled m = _ from hm]; rfl)).ne
    simpa [CopyState.make, hmn] using h.replayed m content hm

theorem CopyKept.finish (h : CopyKept s) {n : ℕ} (hn : n < s.next) : CopyKept (s.finish n) where
  entry_lt := h.entry_lt
  filled_lt := fun m hm => by
    by_cases hmn : m = n
    · exact hmn ▸ hn
    · exact h.filled_lt m (by simpa [CopyState.finish, hmn] using hm)
  replayed := fun m content hm => by
    by_cases hmn : m = n
    · subst hmn
      simpa [CopyState.finish] using hm
    · simpa [CopyState.finish, hmn] using h.replayed m content (by
        simpa [CopyState.finish, hmn] using hm)

/-- **What the calls know of each other's moves**, whatever the order. -/
theorem copyOutline (lower : Bytes) :
    Outline (CopyMove (ι := ι) lower) CopyKept (CopyKnows (ι := ι)) where
  others := fun hj h _ hp hq => hp.others hj h hq
  own := fun {i s s' p p'} h hs hp => by
    cases h with
    | lock _ => exact ⟨⟨hs.entry_lt, hs.filled_lt, hs.replayed⟩, rfl⟩
    | there _ => exact ⟨hs, hp⟩
    | vacant hnone => exact ⟨hs, hp, hnone⟩
    | make hnone =>
        refine ⟨hs.make, hp.1, rfl, Nat.lt_succ_self _, ?_⟩
        exact Option.not_isSome_iff_eq_none.1 fun hfilled =>
          Nat.lt_irrefl _ (hs.filled_lt s.next hfilled)
    | remake hsome =>
        rw [hp.2] at hsome
        cases hsome
    | makeFails => exact ⟨hs, hp.1⟩
    | read _ _ _ => exact ⟨hs, hp⟩
    | write _ _ => exact ⟨hs.fill hp.2.2.2 _, hp⟩
    | copyFails => exact ⟨hs, hp⟩
    | ends _ => exact ⟨hs.finish hp.2.2.1, hp.1⟩
    | unlink => exact ⟨⟨by rintro n ⟨⟩, hs.filled_lt, hs.replayed⟩, hp.1⟩
    | unlinkFails => exact ⟨hs, hp.1⟩
    | unlock => exact ⟨⟨hs.entry_lt, hs.filled_lt, hs.replayed⟩, trivial⟩
    | unlockFailed => exact ⟨⟨hs.entry_lt, hs.filled_lt, hs.replayed⟩, trivial⟩
    | openCopy hn => exact ⟨hs, hs.entry_lt _ hn⟩
    | openCopyTrunc hn => exact ⟨hs.edit _ _, hs.entry_lt _ hn⟩
    | cutCopy hn => exact ⟨hs.edit _ _, trivial⟩
    | vfsWrite _ => exact ⟨hs.edit _ _, hp⟩
    | vfsTruncate _ => exact ⟨hs.edit _ _, hp⟩
    | _ => exact ⟨hs, trivial⟩

/-! ### A copy that has been filled -/

/-- A move leaves a copy that has been filled, or changes it as a handle does. -/
theorem CopyMove.keeps (h : CopyMove lower i s p s' p') (hs : CopyKept s) (hp : CopyKnows i s p)
    {n : ℕ} {content : Bytes} (hn : s.filled n = some content) :
    s'.filled n = some content ∧ ∃ later, s'.edits n = s.edits n ++ later ∧
      s'.bytes n = replay (s.bytes n) later := by
  -- the file of a copy-up in progress is another one
  have hother : ∀ {m}, s.filled m = none → n ≠ m := by
    rintro m hm rfl
    rw [hm] at hn
    cases hn
  have hedit : ∀ m e, (s.edit m e).filled n = some content ∧
      ∃ later, (s.edit m e).edits n = s.edits n ++ later ∧
        (s.edit m e).bytes n = replay (s.bytes n) later := by
    intro m e
    by_cases hnm : n = m
    · subst hnm
      exact ⟨hn, [e], by simp [CopyState.edit], by simp [CopyState.edit, replay]⟩
    · exact ⟨hn, [], by simp [CopyState.edit, hnm], by simp [CopyState.edit, hnm]⟩
  have hsame : s.filled n = some content ∧
      ∃ later, s.edits n = s.edits n ++ later ∧ s.bytes n = replay (s.bytes n) later :=
    ⟨hn, [], by simp, rfl⟩
  cases h with
  | make _ =>
      have hnext : n ≠ s.next := (hs.filled_lt n (by simp [hn])).ne
      exact ⟨hn, [], by simp [CopyState.make], by simp [CopyState.make, hnext]⟩
  | remake hsome =>
      rw [hp.2] at hsome
      cases hsome
  | write _ _ => exact ⟨hn, [], by simp [CopyState.fill], by simp [CopyState.fill, hother hp.2.2.2]⟩
  | ends _ =>
      have hne := hother hp.2.2.2
      exact ⟨by simp [CopyState.finish, hne, hn], [], by simp [CopyState.finish, hne], rfl⟩
  | openCopyTrunc _ => exact hedit _ _
  | cutCopy _ => exact hedit _ _
  | vfsWrite _ => exact hedit _ _
  | vfsTruncate _ => exact hedit _ _
  | _ => exact hsame

/-- At the beginning all is as the calls know it. -/
theorem beginning_knows (asks : ι → CopyAsk) : CopyKept (beginning asks).shared ∧
    ∀ i, CopyKnows i (beginning asks).shared ((beginning asks).place i) :=
  ⟨⟨by rintro n ⟨⟩, by rintro n ⟨⟩, by rintro n content ⟨⟩⟩, fun _ => trivial⟩

/-! ### Where calls change whole copies only -/

/-- What is known of the files: one that was filled was filled with the layer's file, and one that
was not holds a part of it from its start. -/
structure CopyWhole (lower : Bytes) (s : CopyState ι) : Prop where
  filled : ∀ n content, s.filled n = some content → content = lower
  part : ∀ n, s.filled n = none → s.bytes n <+: lower

/-- What a call knows of the bytes: how much of the file its copy-up has written, and that it changes
whole copies only. -/
def CopyHolds (lower : Bytes) (_ : ι) (s : CopyState ι) : CopyPlace → Prop
  | .filling _ n pos buf => s.bytes n = lower.take pos ∧ buf <+: lower.drop pos
  | .opened (.copy n access _) => access.writes = true → (s.filled n).isSome
  | _ => True

theorem CopyWhole.edit (h : CopyWhole lower s) {n : ℕ} (hn : (s.filled n).isSome) (e : FileEdit) :
    CopyWhole lower (s.edit n e) where
  filled := h.filled
  part := fun m hm => by
    have hmn : m ≠ n := by
      rintro rfl
      rw [show s.filled m = none from hm] at hn
      cases hn
    simpa [CopyState.edit, hmn] using h.part m hm

/-- **What the calls know of the bytes**, where calls change whole copies only. -/
theorem wholeOutline (lower : Bytes) :
    Outline (Moves.meeting (CopyMove (ι := ι) lower) WritesWhole)
      (fun s => CopyKept s ∧ CopyWhole lower s)
      (fun i s p => CopyKnows i s p ∧ CopyHolds lower i s p) := by
  refine ((copyOutline lower).mono fun h => h.1).and ?_ ?_
  · rintro i s s' p p' ⟨h, hwhole⟩ hs hp hG hA
    cases h with
    | lock _ => exact ⟨⟨hG.filled, hG.part⟩, trivial⟩
    | make _ =>
        refine ⟨⟨hG.filled, fun n hn => ?_⟩, by simp [CopyState.make], List.nil_prefix⟩
        by_cases hnext : n = s.next
        · subst hnext
          simp [CopyState.make]
        · simpa [CopyState.make, hnext] using hG.part n hn
    | remake hsome =>
        rw [hp.2] at hsome
        cases hsome
    | read _ _ hgot => exact ⟨hG, hA.1, hgot⟩
    | @write a n pos k buf hk hkbuf =>
        have hpiece := overwrite_take hA.2 hk hkbuf
        rw [← hA.1] at hpiece
        refine ⟨⟨hG.filled, fun m hm => ?_⟩, ?_, ?_⟩
        · by_cases hmn : m = n
          · subst hmn
            simpa [CopyState.fill, hpiece] using List.take_prefix _ lower
          · simpa [CopyState.fill, hmn] using hG.part m hm
        · simpa [CopyState.fill] using hpiece
        · obtain ⟨rest, hrest⟩ := hA.2
          refine ⟨rest, ?_⟩
          rw [← List.drop_drop, ← hrest, List.drop_append_of_le_length hkbuf]
    | @ends a n pos hend =>
        refine ⟨⟨fun m content hm => ?_, fun m hm => ?_⟩, trivial⟩
        · by_cases hmn : m = n
          · subst hmn
            obtain rfl : s.bytes m = content := by simpa [CopyState.finish] using hm
            rw [hA.1, List.take_of_length_le hend]
          · exact hG.filled m content (by simpa [CopyState.finish, hmn] using hm)
        · by_cases hmn : m = n
          · subst hmn
            simp [CopyState.finish] at hm
          · exact hG.part m (by simpa [CopyState.finish, hmn] using hm)
    | unlink => exact ⟨⟨hG.filled, hG.part⟩, trivial⟩
    | unlock => exact ⟨⟨hG.filled, hG.part⟩, trivial⟩
    | unlockFailed => exact ⟨⟨hG.filled, hG.part⟩, trivial⟩
    | openCopy hn =>
        refine ⟨hG, fun hw => hwhole _ _ rfl ?_ hn (by rintro e ⟨⟩)⟩
        simpa [CopyAsk.wantWrite] using hw
    | openCopyTrunc hn =>
        have hfilled := hwhole _ _ rfl (by simp [CopyAsk.wantWrite]) hn (by rintro e ⟨⟩)
        exact ⟨hG.edit hfilled _, fun _ => hfilled⟩
    | cutCopy hn =>
        exact ⟨hG.edit (hwhole _ _ rfl rfl hn (by rintro e ⟨⟩)) _, trivial⟩
    | vfsWrite hw => exact ⟨hG.edit (hA hw) _, hA⟩
    | vfsTruncate hw => exact ⟨hG.edit (hA hw) _, hA⟩
    | _ => exact ⟨hG, trivial⟩
  · rintro i j s s' p p' q hj ⟨h, hwhole⟩ hs hp hq hG hA hB
    cases q with
    | opened handle =>
        cases handle with
        | lower => trivial
        | copy n access append => exact fun hw => h.grows.2 n (hB hw)
    | filling a n pos buf =>
        -- the copy-up has the lock, and a change of its file would be one of a copy not whole
        have hout : p.inside = false := by
          by_contra hp'
          have := hp.holder (by simpa using hp')
          exact hj (Option.some.inj (hq.1.symm.trans this))
        rcases h.outside hout (by simp [hq.1]) with rfl | ⟨m, e, rfl, hcause⟩
        · exact hB
        · have hm : (s.filled m).isSome := by
            rcases hcause with ⟨a, rfl, hw, hm, hres⟩ | ⟨access, append, rfl, hw⟩
            · exact hwhole a m rfl hw hm hres
            · exact hA hw
          have hnm : n ≠ m := by
            rintro rfl
            rw [hq.2.2.2] at hm
            cases hm
          exact ⟨by simpa [CopyState.edit, hnm] using hB.1, hB.2⟩
    | _ => trivial

/-- The moves where no call gets at a copy that is not whole. -/
def WholeMove (lower : Bytes) : Moves ι (CopyState ι) CopyPlace :=
  Moves.meeting (CopyMove lower) OpensWhole

/-- A call with a handle on a copy knows that it was filled. -/
def CopySafe (_ : ι) (s : CopyState ι) : CopyPlace → Prop
  | .opened (.copy n _ _) => (s.filled n).isSome
  | _ => True

/-- **What the calls know of their handles**, where calls open whole copies only. -/
theorem safeOutline (lower : Bytes) :
    Outline (WholeMove (ι := ι) lower)
      (fun s => (CopyKept s ∧ CopyWhole lower s) ∧ True)
      (fun i s p => (CopyKnows i s p ∧ CopyHolds lower i s p) ∧ CopySafe i s p) := by
  refine ((wholeOutline lower).mono ?_).and ?_ ?_
  · rintro i s p s' p' ⟨h, hwhole⟩
    exact ⟨h, fun a n hp _ hn hres => hwhole a n hp hn hres⟩
  · rintro i s s' p p' ⟨h, hwhole⟩ - - - hsafe
    refine ⟨trivial, ?_⟩
    cases h with
    | openCopy hn => exact hwhole _ _ rfl hn (by rintro e ⟨⟩)
    | openCopyTrunc hn => exact hwhole _ _ rfl hn (by rintro e ⟨⟩)
    | vfsWrite _ => exact hsafe
    | vfsTruncate _ => exact hsafe
    | _ => trivial
  · rintro i j s s' p p' q hj ⟨h, -⟩ - - - - - hsafe
    cases q with
    | opened handle =>
        cases handle with
        | lower => trivial
        | copy n access append => exact h.grows.2 n hsafe
    | _ => trivial

/-! ### A copy-up that is not interrupted -/

/-- The bytes when `pos` of the file's have been written over what was there. -/
structure Underway (lower : Bytes) (pos : ℕ) (content : Bytes) : Prop where
  pos_le : pos ≤ lower.length
  length_le : content.length ≤ lower.length
  take_eq : content.take pos = lower.take pos

theorem Underway.pos_le_length {pos : ℕ} {content : Bytes} (h : Underway lower pos content) :
    pos ≤ content.length := by
  have hlen := congrArg List.length h.take_eq
  rw [List.length_take, List.length_take, Nat.min_eq_left h.pos_le] at hlen
  omega

/-- At the end it is the file. -/
theorem Underway.eq {content : Bytes} (h : Underway lower lower.length content) :
    content = lower := by
  have htake := h.take_eq
  rwa [List.take_length, List.take_of_length_le h.length_le] at htake

/-- The next piece is written. -/
theorem Underway.write {pos : ℕ} {content got : Bytes} (h : Underway lower pos content)
    (hgot : got <+: lower.drop pos) (hne : got ≠ []) :
    Underway lower (pos + got.length) (overwrite content pos got) := by
  obtain ⟨rest, hrest⟩ := hgot
  have hpos := h.pos_le_length
  have hlen : got.length + rest.length = lower.length - pos := by
    rw [← List.length_append, hrest, List.length_drop]
  have hover : overwrite content pos got
      = content.take pos ++ got ++ content.drop (pos + got.length) := by
    rw [overwrite, if_neg hne, Nat.sub_eq_zero_of_le hpos, List.replicate_zero, List.append_nil]
  have hhead : (content.take pos ++ got).length = pos + got.length := by
    rw [List.length_append, List.length_take, Nat.min_eq_left hpos]
  refine ⟨?_, ?_, ?_⟩
  · have := h.pos_le
    omega
  · have := h.pos_le
    have := h.length_le
    rw [hover, List.length_append, hhead, List.length_drop]
    omega
  · calc (overwrite content pos got).take (pos + got.length)
        = content.take pos ++ got := by rw [hover, ← hhead, List.take_left']; rfl
      _ = lower.take pos ++ (lower.drop pos).take got.length := by
          rw [h.take_eq, ← hrest, List.take_left']
          rfl
      _ = lower.take (pos + got.length) := List.take_add.symm

/-- Only a call that gets at the copy's path has to meet the condition. -/
theorem CopyMove.whole (h : CopyMove lower i s p s' p') (hp : ∀ a, p ≠ .reaching a) :
    WholeMove lower i s p s' p' := ⟨h, fun a _ heq => absurd heq (hp a)⟩

@[simp] theorem CopyState.fill_bytes (s : CopyState ι) (n : ℕ) (bs : Bytes) : (s.fill n bs).bytes n = bs := by
  simp [CopyState.fill]

@[simp] theorem CopyState.fill_fill (s : CopyState ι) (n : ℕ) (bs bs' : Bytes) :
    (s.fill n bs).fill n bs' = s.fill n bs' := by
  simp [CopyState.fill]

theorem CopyState.fill_self {n : ℕ} {bs : Bytes} (h : s.bytes n = bs) : s.fill n bs = s := by
  subst h
  simp [CopyState.fill]

/-- There is a piece to read before the end. -/
theorem piece_pos {pos : ℕ} (hpos : pos < lower.length) :
    0 < ((lower.drop pos).take copyChunk).length := by
  rw [List.length_take, List.length_drop]
  exact Nat.lt_min.2 ⟨copyChunk_pos, Nat.sub_pos_of_lt hpos⟩

/-- One turn of the loop: a piece of the file is read, and written as a whole. -/
theorem fill_turn (a : CopyAsk) (n : ℕ) {pos : ℕ} (hpos : pos < lower.length) :
    Solo (WholeMove lower) i s (.filling a n pos [])
      (s.fill n (overwrite (s.bytes n) pos ((lower.drop pos).take copyChunk)))
      (.filling a n (pos + ((lower.drop pos).take copyChunk).length) []) := by
  have hlen := piece_pos hpos
  have hread : CopyMove lower i s (.filling a n pos []) s
      (.filling a n pos ((lower.drop pos).take copyChunk)) :=
    .read (List.ne_nil_of_length_pos hlen) (List.length_take_le ..) (List.take_prefix ..)
  have hwrite : CopyMove lower i s (.filling a n pos ((lower.drop pos).take copyChunk)) _ _ :=
    .write hlen le_rfl
  rw [List.take_length, List.drop_length] at hwrite
  exact (Solo.single (hread.whole (by rintro b ⟨⟩))).tail (hwrite.whole (by rintro b ⟨⟩))

/-- **The loop to its end**: whatever was written over the file's bytes before, it ends with the file. -/
theorem fill_rest (a : CopyAsk) (n : ℕ) {pos : ℕ} (h : Underway lower pos (s.bytes n)) :
    Solo (WholeMove lower) i s (.filling a n pos []) ((s.fill n lower).finish n)
      (.leaving a (.ok ())) := by
  induction hrest : lower.length - pos using Nat.strong_induction_on generalizing s pos with
  | _ rest ih =>
      rcases Nat.lt_or_ge pos lower.length with hpos | hpos
      · have hlen := piece_pos hpos
        have hnext := h.write (List.take_prefix copyChunk _) (List.ne_nil_of_length_pos hlen)
        have hless : lower.length - (pos + ((lower.drop pos).take copyChunk).length) < rest := by
          omega
        rw [← s.fill_bytes n (overwrite _ _ _)] at hnext
        have hloop := ih _ hless hnext rfl
        rw [CopyState.fill_fill] at hloop
        exact (fill_turn a n hpos).trans hloop
      · obtain rfl : pos = lower.length := le_antisymm h.pos_le hpos
        rw [CopyState.fill_self h.eq]
        exact .single ((CopyMove.ends le_rfl).whole (by rintro b ⟨⟩))

/-- The first `k` turns of the loop into an empty file. -/
theorem fill_turns (a : CopyAsk) {n : ℕ} (hn : s.bytes n = []) {k : ℕ}
    (hk : k * copyChunk ≤ lower.length) :
    Solo (WholeMove lower) i s (.filling a n 0 []) (s.fill n (lower.take (k * copyChunk)))
      (.filling a n (k * copyChunk) []) := by
  induction k with
  | zero =>
      rw [Nat.zero_mul, List.take_zero, CopyState.fill_self hn]
      exact .refl
  | succ k ih =>
      rw [Nat.succ_mul] at hk ⊢
      have hpos : k * copyChunk < lower.length :=
        Nat.lt_of_lt_of_le (Nat.lt_add_of_pos_right copyChunk_pos) hk
      have hlen : ((lower.drop (k * copyChunk)).take copyChunk).length = copyChunk := by
        rw [List.length_take, List.length_drop, Nat.min_eq_left (Nat.le_sub_of_add_le' hk)]
      have hpiece := overwrite_take (List.take_prefix copyChunk (lower.drop (k * copyChunk)))
        (piece_pos hpos) le_rfl
      rw [List.take_length, hlen] at hpiece
      have hturn := fill_turn (i := i) (s := s.fill n (lower.take (k * copyChunk))) a n hpos
      rw [CopyState.fill_bytes, CopyState.fill_fill, hpiece, hlen] at hturn
      exact (ih hpos.le).trans hturn

/-- A call that finds nothing at the copy's path comes to make the copy's file. -/
theorem copyUp_begins {a : CopyAsk} (ha : a.wantWrite = true) (hentry : s.entry = none)
    (hholder : s.holder = none) :
    Solo (WholeMove lower) i s (.start a) (s.lock (some i)).make (.filling a s.next 0 []) := by
  have hwants : CopyMove lower i s (.start a) s (.locking a) := .writesBelow hentry ha
  have hlock : CopyMove lower i s (.locking a) (s.lock (some i)) (.locked a) := .lock hholder
  have hvacant : CopyMove lower i (s.lock (some i)) (.locked a) (s.lock (some i)) (.making a) :=
    .vacant hentry
  have hmake : CopyMove lower i (s.lock (some i)) (.making a) (s.lock (some i)).make
      (.filling a s.next 0 []) := .make hentry
  exact (((Solo.single (hwants.whole (by rintro b ⟨⟩))).tail (hlock.whole (by rintro b ⟨⟩))).tail
    (hvacant.whole (by rintro b ⟨⟩))).tail (hmake.whole (by rintro b ⟨⟩))

/-- A file that was just made is empty. -/
@[simp] theorem CopyState.make_bytes (s : CopyState ι) : s.make.bytes s.next = [] := by
  simp [CopyState.make]

/-- The shared state after a whole copy-up. -/
def CopyState.copied (s : CopyState ι) (lower : Bytes) : CopyState ι :=
  ((s.make.fill s.next lower).finish s.next).lock none

/-- **A call that is not interrupted** copies the file, and opens the copy. -/
theorem copyUp_alone {access : Access} {append : Bool} (hw : access.writes = true)
    (hentry : s.entry = none) (hholder : s.holder = none) :
    Solo (WholeMove lower) i s (.start (.open access false append)) (s.copied lower)
      (.opened (.copy s.next access append)) := by
  have hbegin : Solo (WholeMove lower) i s (.start (.open access false append)) _ _ :=
    copyUp_begins (by simpa [CopyAsk.wantWrite] using hw) hentry hholder
  have hempty : Underway lower 0 ((s.lock (some i)).make.bytes s.next) := by
    rw [show (s.lock (some i)).make.bytes s.next = [] from s.make_bytes]
    exact ⟨Nat.zero_le _, Nat.zero_le _, rfl⟩
  have hrest := fill_rest (i := i) (.open access false append) s.next hempty
  have hunlock : CopyMove lower i (((s.lock (some i)).make.fill s.next lower).finish s.next)
      (.leaving (.open access false append) (.ok ())) (s.copied lower)
      (.reaching (.open access false append)) := .unlock
  have hopen : CopyMove lower i (s.copied lower) (.reaching (.open access false append))
      (s.copied lower) (.opened (.copy s.next access append)) := .openCopy rfl
  refine ((hbegin.trans hrest).tail (hunlock.whole (by rintro b ⟨⟩))).tail ⟨hopen, ?_⟩
  rintro a n - hn -
  obtain rfl := Option.some.inj hn
  simp [CopyState.copied, CopyState.lock, CopyState.finish]

/-! ### The runs -/

variable [DecidableEq ι] {asks : ι → CopyAsk} {c c' : Threads ι (CopyState ι) CopyPlace}

/-- **A copy that has been filled is not touched by a copy-up again**: whatever calls come after, its
content is changed through the handles on it, by opening it to be cut (`O_TRUNC`) and by truncating its
path alone, one change after the other.  And one call at a time is copying up. -/
theorem copyUp_onceFilled (h : Run (CopyMove lower) (beginning asks) c)
    (h' : Run (CopyMove lower) c c') :
    (∀ n content, c.shared.filled n = some content → c'.shared.filled n = some content ∧
      ∃ later, c'.shared.edits n = c.shared.edits n ++ later ∧
        c'.shared.bytes n = replay (c.shared.bytes n) later) ∧
    ∀ i j, (c'.place i).inside = true → (c'.place j).inside = true → i = j := by
  have hknown := (copyOutline lower).run h (beginning_knows asks)
  constructor
  · intro n content hn
    suffices hall : (CopyKept c'.shared ∧ ∀ i, CopyKnows i c'.shared (c'.place i)) ∧
        c'.shared.filled n = some content ∧
        ∃ later, c'.shared.edits n = c.shared.edits n ++ later ∧
          c'.shared.bytes n = replay (c.shared.bytes n) later from hall.2
    induction h' with
    | refl => exact ⟨hknown, hn, [], by simp, rfl⟩
    | @tail d d' _ hstep ih =>
        obtain ⟨hd, hfilled, later, hedits, hbytes⟩ := ih
        refine ⟨(copyOutline lower).step hstep hd, ?_⟩
        cases hstep with
        | @mk i s p hmove =>
            obtain ⟨hfilled', later', hedits', hbytes'⟩ := hmove.keeps hd.1 (hd.2 i) hfilled
            refine ⟨hfilled', later ++ later', ?_, ?_⟩
            · rw [Threads.set_shared, hedits', hedits, List.append_assoc]
            · rw [Threads.set_shared, hbytes', hbytes, replay, replay, replay, List.foldl_append]
  · intro i j hi hj
    have hend := ((copyOutline lower).run h' hknown).2
    exact Option.some.inj (((hend i).holder hi).symm.trans ((hend j).holder hj))

/-- One call that opens a file for reading and writing, and one that opens it for reading. -/
def twoAsks (writer : Bool) : CopyAsk := .open (if writer then .rdwr else .rdonly) false false

/-- The writer is copying the file up, and the reader has found the copy's path. -/
def twoMeet : Threads Bool (CopyState Bool) CopyPlace :=
  ((beginning twoAsks).set true (CopyState.start.lock (some true)).make
    (.filling (twoAsks true) 0 0 [])).set false (CopyState.start.lock (some true)).make
      (.reaching (twoAsks false))

/-- The copy is filled, and the lock was let go. -/
def twoFilled : Threads Bool (CopyState Bool) CopyPlace :=
  (twoMeet.set true ((twoMeet.shared.fill 0 [1, 2, 3]).finish 0) (.leaving (twoAsks true) (.ok ()))).set
    true (((twoMeet.shared.fill 0 [1, 2, 3]).finish 0).lock none) (.reaching (twoAsks true))

/-- First the reader and then the writer has opened the copy. -/
def twoCopied : Threads Bool (CopyState Bool) CopyPlace :=
  (twoFilled.set false twoFilled.shared (.opened (.copy 0 .rdonly false))).set true twoFilled.shared
    (.opened (.copy 0 .rdwr false))

/-- The writer has changed the second byte. -/
def twoWritten : Threads Bool (CopyState Bool) CopyPlace :=
  twoCopied.set true (twoCopied.shared.edit 0 (.write 1 [9])) (.opened (.copy 0 .rdwr false))

theorem twoMeet_run : Run (WholeMove [1, 2, 3]) (beginning twoAsks) twoMeet :=
  ((copyUp_begins (i := true) (a := twoAsks true) rfl rfl rfl).run rfl rfl).tail
    ((CopyMove.found rfl).whole (by rintro a ⟨⟩))

theorem twoFilled_run : Run (WholeMove [1, 2, 3]) twoMeet twoFilled := by
  have hunder : Underway [1, 2, 3] 0 (twoMeet.shared.bytes 0) := ⟨by decide, by decide, rfl⟩
  exact ((fill_rest (i := true) (twoAsks true) 0 hunder).run rfl rfl).tail
    (CopyMove.unlock.whole (by rintro a ⟨⟩))

theorem twoCopied_run : Run (WholeMove [1, 2, 3]) (beginning twoAsks) twoCopied := by
  refine ((twoMeet_run.trans twoFilled_run).tail ⟨.openCopy rfl, ?_⟩).tail ⟨.openCopy rfl, ?_⟩
  · rintro a n - hn -
    obtain rfl := Option.some.inj hn
    rfl
  · rintro a n - hn -
    obtain rfl := Option.some.inj hn
    rfl

theorem twoWritten_run : Run (WholeMove [1, 2, 3]) twoCopied twoWritten :=
  Run.refl.tail ((CopyMove.vfsWrite rfl).whole (by rintro a ⟨⟩))

/-- The reader looks while the writer copies up, and both open the copy. -/
theorem copyUp_onceFilled_two : twoCopied.shared.filled 0 = some [1, 2, 3] ∧
    twoWritten.shared.filled 0 = some [1, 2, 3] ∧ ∃ later,
      twoWritten.shared.edits 0 = twoCopied.shared.edits 0 ++ later ∧
        twoWritten.shared.bytes 0 = replay (twoCopied.shared.bytes 0) later :=
  ⟨rfl, (copyUp_onceFilled (twoCopied_run.mono fun h => h.1) (twoWritten_run.mono fun h => h.1)).1 0
    [1, 2, 3] rfl⟩

/-- **No write is lost**, where calls change whole copies only.  A handle on a copy reads the layer's
file with every change that was made through handles, and a handle on one that is not whole yet is for
reading and reads a part of the file from its start. -/
theorem copyUp_losesNothing (h : Run (Moves.meeting (CopyMove lower) WritesWhole) (beginning asks) c)
    {i : ι} {n : ℕ} {access : Access} {append : Bool}
    (hi : c.place i = .opened (.copy n access append)) :
    (c.shared.filled n = some lower ∧ c.shared.bytes n = replay lower (c.shared.edits n)) ∨
      c.shared.filled n = none ∧ access.writes = false ∧ c.shared.bytes n <+: lower := by
  obtain ⟨hkept, hknows⟩ := beginning_knows asks
  obtain ⟨⟨hkept', hwhole⟩, hcalls⟩ := (wholeOutline lower).run h
    ⟨⟨hkept, by rintro n content ⟨⟩, fun n _ => List.nil_prefix⟩, fun i => ⟨hknows i, trivial⟩⟩
  cases hn : c.shared.filled n with
  | some content =>
      obtain rfl := hwhole.filled n content hn
      exact Or.inl ⟨rfl, hkept'.replayed n content hn⟩
  | none =>
      refine Or.inr ⟨rfl, ?_, hwhole.part n hn⟩
      have hholds := (hcalls i).2
      rw [hi] at hholds
      by_contra hw
      have := hholds (by simpa using hw)
      rw [hn] at this
      cases this

/-- What the reader's handle reads after the writer's change. -/
theorem copyUp_losesNothing_two : twoWritten.shared.bytes 0 = [1, 9, 3] ∧
    (twoWritten.shared.filled 0 = some [1, 2, 3] ∧
        twoWritten.shared.bytes 0 = replay [1, 2, 3] (twoWritten.shared.edits 0) ∨
      twoWritten.shared.filled 0 = none ∧ Access.rdonly.writes = false ∧
        twoWritten.shared.bytes 0 <+: [1, 2, 3]) :=
  ⟨rfl, copyUp_losesNothing (i := false) ((twoCopied_run.trans twoWritten_run).mono fun h =>
    ⟨h.1, fun a n hp _ hn hres => h.2 a n hp hn hres⟩) rfl⟩

/-- **No read is torn**, where calls open whole copies only: every handle reads the layer's file, with
the changes that were made through handles on the same copy. -/
theorem copyUp_notTorn (h : Run (WholeMove lower) (beginning asks) c) {i : ι} {handle : CopyHandle}
    (hi : c.place i = .opened handle) :
    handle = .lower ∨ ∃ n access append, handle = .copy n access append ∧
      c.shared.filled n = some lower ∧
      handle.content lower c.shared = replay lower (c.shared.edits n) := by
  obtain ⟨hkept, hknows⟩ := beginning_knows asks
  obtain ⟨⟨⟨hkept', hwhole⟩, -⟩, hcalls⟩ := (safeOutline lower).run h
    ⟨⟨⟨hkept, by rintro n content ⟨⟩, fun n _ => List.nil_prefix⟩, trivial⟩,
      fun i => ⟨⟨hknows i, trivial⟩, trivial⟩⟩
  cases handle with
  | lower => exact Or.inl rfl
  | copy n access append =>
      have hsafe := (hcalls i).2
      rw [hi] at hsafe
      obtain ⟨content, hn⟩ := Option.isSome_iff_exists.1 hsafe
      obtain rfl := hwhole.filled n content hn
      exact Or.inr ⟨n, access, append, rfl, hn, hkept'.replayed n content hn⟩

/-- The reader, who looked while the copy was being filled, reads all of it. -/
theorem copyUp_notTorn_two : CopyHandle.content [1, 2, 3] twoWritten.shared (.copy 0 .rdonly false)
      = [1, 9, 3] ∧
    (CopyHandle.copy 0 .rdonly false = .lower ∨ ∃ n access append,
      CopyHandle.copy 0 .rdonly false = .copy n access append ∧
      twoWritten.shared.filled n = some [1, 2, 3] ∧
      CopyHandle.content [1, 2, 3] twoWritten.shared (.copy 0 .rdonly false)
        = replay [1, 2, 3] (twoWritten.shared.edits n)) :=
  ⟨rfl, copyUp_notTorn (i := false) (twoCopied_run.trans twoWritten_run) rfl⟩

/-! ### Reads and writes of all calls -/

/-- The changes that were made to the file behind a handle. -/
def CopyHandle.edits (s : CopyState ι) : CopyHandle → List FileEdit
  | .lower => []
  | .copy n _ _ => s.edits n

/-- Every handle reads the layer's file with the changes that calls have made to it. -/
def ReadsWhole (lower : Bytes) (c : Threads ι (CopyState ι) CopyPlace) : Prop :=
  ∀ i handle, c.place i = .opened handle →
    handle.content lower c.shared = replay lower (handle.edits c.shared)

/-- No call that is copying up may move and change a file that a call has changed. -/
def SparesWrites (lower : Bytes) (c : Threads ι (CopyState ι) CopyPlace) : Prop :=
  ∀ j s p, CopyMove lower j c.shared (c.place j) s p → (c.place j).inside = true →
    ∀ n, c.shared.edits n ≠ [] → s.bytes n = c.shared.bytes n

omit [DecidableEq ι] in
/-- Where calls change whole copies only, a file that is not filled has not been changed. -/
theorem editsOutline (lower : Bytes) :
    Outline (Moves.meeting (CopyMove (ι := ι) lower) WritesWhole)
      (fun s => (CopyKept s ∧ CopyWhole lower s) ∧ ∀ n, s.filled n = none → s.edits n = [])
      (fun i s p => (CopyKnows i s p ∧ CopyHolds lower i s p) ∧ True) := by
  refine (wholeOutline lower).and ?_ fun _ _ _ _ _ _ _ _ => trivial
  rintro i s s' p p' ⟨h, hwhole⟩ - ⟨-, hholds⟩ hG -
  refine ⟨fun m hm => ?_, trivial⟩
  -- a change is one of a file that was filled
  have hedit : ∀ {n e}, (s.filled n).isSome → (s.edit n e).filled m = none →
      (s.edit n e).edits m = [] := by
    intro n e hn hm
    have hmn : m ≠ n := by
      rintro rfl
      rw [show s.filled m = none from hm] at hn
      cases hn
    simpa [CopyState.edit, hmn] using hG m hm
  cases h with
  | ends _ =>
      rename_i a n pos hend
      by_cases hmn : m = n
      · subst hmn
        simp [CopyState.finish] at hm
      · simpa [CopyState.finish, hmn] using hG m (by simpa [CopyState.finish, hmn] using hm)
  | openCopyTrunc hn =>
      exact hedit (hwhole _ _ rfl (by simp [CopyAsk.wantWrite]) hn (by rintro e ⟨⟩)) hm
  | cutCopy hn => exact hedit (hwhole _ _ rfl rfl hn (by rintro e ⟨⟩)) hm
  | vfsWrite hw => exact hedit (hholds hw) hm
  | vfsTruncate hw => exact hedit (hholds hw) hm
  | _ => exact hG m hm

/-- **Which runs lose and tear nothing.**  Where a call changes what it finds at the copy's path only
if the copy has been filled, no copy-up in progress writes over a change; and where a call opens what it
finds there only then, every handle reads the layer's file with the changes made to it. -/
theorem copyUp_whole (lower : Bytes) (asks : ι → CopyAsk) :
    (∀ c, Run (Moves.meeting (CopyMove lower) WritesWhole) (beginning asks) c →
      SparesWrites lower c) ∧
    ∀ c, Run (WholeMove lower) (beginning asks) c → ReadsWhole lower c := by
  obtain ⟨hkept, hknows⟩ := beginning_knows asks
  have hwhole : CopyWhole lower (beginning asks).shared :=
    ⟨by rintro n content ⟨⟩, fun n _ => List.nil_prefix⟩
  constructor
  · intro c hrun j s p hmove hin n hn
    obtain ⟨⟨⟨hkept', -⟩, hedits⟩, hcalls⟩ := (editsOutline lower).run hrun
      ⟨⟨⟨hkept, hwhole⟩, fun _ _ => rfl⟩, fun i => ⟨⟨hknows i, trivial⟩, trivial⟩⟩
    have hknow := (hcalls j).1.1
    have hfilled : ∀ {m}, c.shared.filled m = none → n ≠ m := by
      rintro m hm rfl
      exact hn (hedits n hm)
    generalize c.place j = q at hmove hin hknow
    cases hmove with
    | make _ =>
        refine Function.update_of_ne (hfilled ?_) _ _
        exact Option.not_isSome_iff_eq_none.1 fun hs => Nat.lt_irrefl _ (hkept'.filled_lt _ hs)
    | remake hsome =>
        rw [hknow.2] at hsome
        cases hsome
    | write _ _ => exact Function.update_of_ne (hfilled hknow.2.2.2) _ _
    | openCopyTrunc _ | cutCopy _ | vfsWrite _ | vfsTruncate _ => cases hin
    | _ => rfl
  · intro c hrun i handle hi
    obtain ⟨⟨⟨hkept', hwhole'⟩, -⟩, hcalls⟩ := (safeOutline lower).run hrun
      ⟨⟨⟨hkept, hwhole⟩, trivial⟩, fun i => ⟨⟨hknows i, trivial⟩, trivial⟩⟩
    cases handle with
    | lower => rfl
    | copy n access append =>
        have hsafe := (hcalls i).2
        rw [hi] at hsafe
        obtain ⟨content, hn⟩ := Option.isSome_iff_exists.1 hsafe
        obtain rfl := hwhole'.filled n content hn
        exact hkept'.replayed n content hn

/-- What the two calls above see of each other. -/
theorem copyUp_whole_two : SparesWrites [1, 2, 3] twoWritten ∧ ReadsWhole [1, 2, 3] twoWritten :=
  ⟨(copyUp_whole [1, 2, 3] twoAsks).1 twoWritten ((twoCopied_run.trans twoWritten_run).mono fun h =>
      ⟨h.1, fun a n hp _ hn hres => h.2 a n hp hn hres⟩),
    (copyUp_whole [1, 2, 3] twoAsks).2 twoWritten (twoCopied_run.trans twoWritten_run)⟩

/-- Three calls: the first and the last open the file for a change, the one between for reading. -/
def threeAsks (i : Fin 3) : CopyAsk := .open (if i = 1 then .rdonly else .rdwr) false false

/-- The first call has copied one byte of the file. -/
def threeBegun : Threads (Fin 3) (CopyState (Fin 3)) CopyPlace :=
  (((beginning threeAsks).set 0 (CopyState.start.lock (some 0)).make
    (.filling (threeAsks 0) 0 0 [])).set 0 (CopyState.start.lock (some 0)).make
      (.filling (threeAsks 0) 0 0 [1, 2, 3])).set 0
        ((CopyState.start.lock (some 0)).make.fill 0 [1]) (.filling (threeAsks 0) 0 1 [2, 3])

/-- The second has opened what it found. -/
def threeRead : Threads (Fin 3) (CopyState (Fin 3)) CopyPlace :=
  (threeBegun.set 1 threeBegun.shared (.reaching (threeAsks 1))).set 1 threeBegun.shared
    (.opened (.copy 0 .rdonly false))

/-- The third has opened it too, and has written a byte. -/
def threeWritten : Threads (Fin 3) (CopyState (Fin 3)) CopyPlace :=
  ((threeRead.set 2 threeRead.shared (.reaching (threeAsks 2))).set 2 threeRead.shared
    (.opened (.copy 0 .rdwr false))).set 2 (threeRead.shared.edit 0 (.write 1 [9]))
      (.opened (.copy 0 .rdwr false))

theorem threeBegun_run : Run (CopyMove [1, 2, 3]) (beginning threeAsks) threeBegun := by
  have hbegin : Solo (WholeMove [1, 2, 3]) (0 : Fin 3) CopyState.start (.start (threeAsks 0))
      (CopyState.start.lock (some 0)).make (.filling (threeAsks 0) 0 0 []) :=
    copyUp_begins rfl rfl rfl
  refine (((hbegin.mono fun h => h.1).run rfl rfl).tail ?_).tail ?_
  · exact .read (by decide) (by decide) (List.prefix_refl [1, 2, 3])
  · exact .write (k := 1) (by decide) (by decide)

theorem threeRead_run : Run (CopyMove [1, 2, 3]) (beginning threeAsks) threeRead :=
  (threeBegun_run.tail (.found rfl)).tail (.openCopy rfl)

theorem threeWritten_run : Run (CopyMove [1, 2, 3]) (beginning threeAsks) threeWritten :=
  ((threeRead_run.tail (.found rfl)).tail (.openCopy rfl)).tail (.vfsWrite rfl)

/-- **A read is torn and a write is lost**: the reader has the first byte of the file and no change of
anyone, and the copy-up goes on over the byte that the other writer has written. -/
theorem copyUp_torn :
    (Run (CopyMove [1, 2, 3]) (beginning threeAsks) threeRead ∧
      threeRead.place 1 = .opened (.copy 0 .rdonly false) ∧ threeRead.shared.edits 0 = [] ∧
      CopyHandle.content [1, 2, 3] threeRead.shared (.copy 0 .rdonly false) = [1] ∧
      ¬ ReadsWhole [1, 2, 3] threeRead) ∧
    Run (CopyMove [1, 2, 3]) (beginning threeAsks) threeWritten ∧
      threeWritten.place 2 = .opened (.copy 0 .rdwr false) ∧
      threeWritten.shared.edits 0 = [.write 1 [9]] ∧ threeWritten.shared.bytes 0 = [1, 9] ∧
      (∃ s p, CopyMove [1, 2, 3] 0 threeWritten.shared (threeWritten.place 0) s p ∧
        s.bytes 0 = [1, 2, 3]) ∧
      ¬ SparesWrites [1, 2, 3] threeWritten := by
  have hover : CopyMove [1, 2, 3] 0 threeWritten.shared (threeWritten.place 0)
      (threeWritten.shared.fill 0 [1, 2, 3]) (.filling (threeAsks 0) 0 3 []) :=
    .write (k := 2) (by decide) (by decide)
  refine ⟨⟨threeRead_run, rfl, rfl, rfl, fun h => ?_⟩, threeWritten_run, rfl, rfl, rfl,
    ⟨_, _, hover, rfl⟩, fun h => ?_⟩
  · have hreads := h 1 _ rfl
    exact absurd hreads (by decide)
  · have hspared := h 0 _ _ hover rfl 0 (by rintro ⟨⟩)
    exact absurd hspared (by decide)

/-! ### What the moves allow -/

/-- A call that has not moved is at its start. -/
theorem beginning_other {asks : ι → CopyAsk} {i j : ι} (hij : i ≠ j) {a : CopyAsk} (hj : asks j = a)
    (s : CopyState ι) (p : CopyPlace) : ((beginning asks).set i s p).place j = .start a :=
  ((beginning asks).set_place_of_ne hij.symm s p).trans (congrArg _ hj)

/-- While a call copies up, another opens what it has made. -/
theorem opens_meanwhile {asks : ι → CopyAsk} {i j : ι} (hij : i ≠ j) {access : Access} {append : Bool}
    (hj : asks j = .open access false append) {s : CopyState ι} {p : CopyPlace}
    (hcopy : Solo (WholeMove lower) i .start (.start (asks i)) s p) {n : ℕ} (hn : s.entry = some n) :
    Run (CopyMove lower) (beginning asks)
      (((beginning asks).set i s p).set j s (.opened (.copy n access append))) := by
  have hrun : Run (CopyMove lower) (beginning asks) ((beginning asks).set i s p) :=
    (hcopy.mono fun h => h.1).run rfl rfl
  have hopen : Solo (CopyMove lower) j s (.start (.open access false append)) s
      (.opened (.copy n access append)) :=
    (Solo.single (.found (by simp [hn]))).tail (.openCopy hn)
  exact hrun.trans (hopen.run rfl (beginning_other hij hj s p))

/-- A call writes through its handle. -/
theorem writes_through {access : Access} {n : ℕ} {j : ι}
    (hj : c.place j = .opened (.copy n access false)) (hw : access.writes = true) (off : ℕ)
    (bs : Bytes) :
    Run (CopyMove lower) c
      (c.set j (c.shared.edit n (.write off bs)) (.opened (.copy n access false))) :=
  Run.refl.tail (by rw [hj]; exact .vfsWrite hw)

/-- **A read may be torn**: while a call copies a file up, another that opens it for reading finds the
copy, and reads what was copied so far, whatever part of the file that is. -/
theorem copyUp_tornRead (lower : Bytes) {i j : ι} (hij : i ≠ j) {asks : ι → CopyAsk}
    (hi : (asks i).wantWrite = true) {append : Bool} (hj : asks j = .open .rdonly false append) {k : ℕ}
    (hk : k * copyChunk < lower.length) :
    ∃ c, Run (CopyMove lower) (beginning asks) c ∧ c.place j = .opened (.copy 0 .rdonly append) ∧
      c.shared.edits 0 = [] ∧
      CopyHandle.content lower c.shared (.copy 0 .rdonly append) = lower.take (k * copyChunk) := by
  have hmade : (CopyState.start.lock (some i)).make.bytes 0 = [] := CopyState.make_bytes _
  have hcopy := (copyUp_begins hi rfl rfl).trans (fill_turns (i := i) (asks i) hmade hk.le)
  refine ⟨_, opens_meanwhile hij hj hcopy rfl, Threads.set_place_self .., rfl, ?_⟩
  rw [CopyHandle.content, Threads.set_shared, CopyState.fill_bytes]

/-- A file of one byte more than a chunk. -/
def chunkAndByte : Bytes := List.replicate (copyChunk + 1) 7

/-- The reader finds the first chunk, and nothing after it. -/
theorem copyUp_tornRead_two : ∃ c, Run (CopyMove chunkAndByte) (beginning twoAsks) c ∧
    c.place false = .opened (.copy 0 .rdonly false) ∧ c.shared.edits 0 = [] ∧
    CopyHandle.content chunkAndByte c.shared (.copy 0 .rdonly false)
      = List.replicate copyChunk 7 := by
  have hlt : 1 * copyChunk < chunkAndByte.length := by
    rw [chunkAndByte, List.length_replicate, Nat.one_mul]
    exact Nat.lt_succ_self _
  obtain ⟨c, hrun, hplace, hedits, hcontent⟩ := copyUp_tornRead chunkAndByte (i := true) (j := false)
    (by decide) (show (twoAsks true).wantWrite = true from rfl) rfl hlt
  refine ⟨c, hrun, hplace, hedits, hcontent.trans ?_⟩
  rw [Nat.one_mul, chunkAndByte, List.take_replicate, Nat.min_eq_left (Nat.le_succ _)]

/-- **A write may be lost**: while a call copies a file up, another that opens it for writing finds the
copy, and what it writes within the file's length is written over when the copying goes on. -/
theorem copyUp_lostWrite (lower : Bytes) {i j : ι} (hij : i ≠ j) {asks : ι → CopyAsk}
    (hi : (asks i).wantWrite = true) {access : Access} (hw : access.writes = true)
    (hj : asks j = .open access false false) {off : ℕ} {bs : Bytes}
    (hbs : off + bs.length ≤ lower.length) :
    ∃ c c', Run (CopyMove lower) (beginning asks) c ∧ Run (CopyMove lower) c c' ∧
      c.place j = .opened (.copy 0 access false) ∧ c'.place j = .opened (.copy 0 access false) ∧
      c.shared.edits 0 = [.write off bs] ∧ c.shared.bytes 0 = overwrite [] off bs ∧
      c'.shared.filled 0 = some lower ∧ c'.shared.bytes 0 = lower := by
  have hopened := opens_meanwhile hij hj (@copyUp_begins ι lower i _ _ hi rfl rfl) rfl
  have hwrite := hopened.trans (writes_through (Threads.set_place_self ..) hw off bs)
  rw [Threads.set_set] at hwrite
  have hunder : Underway lower 0 (overwrite [] off bs) := by
    refine ⟨Nat.zero_le _, ?_, rfl⟩
    rw [overwrite]
    split
    · exact Nat.zero_le _
    · simpa using hbs
  have hbytes : ∀ s : CopyState ι, s.bytes 0 = [] →
      (s.edit 0 (.write off bs)).bytes 0 = overwrite [] off bs := by
    intro s hs
    simp [CopyState.edit, FileEdit.apply, hs]
  rw [← hbytes _ (CopyState.make_bytes (CopyState.start.lock (some i)))] at hunder
  have hrest := (fill_rest (i := i) (asks i) 0 hunder).mono fun h => h.1
  refine ⟨_, _, hwrite, hrest.run rfl ?_, Threads.set_place_self .., ?_, ?_, ?_, ?_, ?_⟩
  · rw [Threads.set_place_of_ne _ hij, Threads.set_place_self]
    rfl
  · rw [Threads.set_place_of_ne _ hij.symm, Threads.set_place_self]
    rfl
  · simp [CopyState.edit, CopyState.make, CopyState.lock, CopyState.start]
  · exact hbytes _ (CopyState.make_bytes (CopyState.start.lock (some i)))
  · simp [CopyState.finish]
  · simp [CopyState.finish]

/-- Two calls that open for writing. -/
def twoWriters : Bool → CopyAsk := fun _ => .open .rdwr false false

/-- A second writer's byte is written over. -/
theorem copyUp_lostWrite_two : ∃ c c' : Threads Bool (CopyState Bool) CopyPlace,
    Run (CopyMove [1, 2, 3]) (beginning twoWriters) c ∧
    Run (CopyMove [1, 2, 3]) c c' ∧ c.place false = .opened (.copy 0 .rdwr false) ∧
    c'.place false = .opened (.copy 0 .rdwr false) ∧ c.shared.edits 0 = [.write 1 [9]] ∧
    c.shared.bytes 0 = [0, 9] ∧ c'.shared.filled 0 = some [1, 2, 3] ∧
    c'.shared.bytes 0 = [1, 2, 3] :=
  copyUp_lostWrite [1, 2, 3] (i := true) (j := false) (by decide)
    (show (twoWriters true).wantWrite = true from rfl) rfl rfl (show 1 + List.length [9] ≤ 3 by decide)

end

end VidyaGodFS
