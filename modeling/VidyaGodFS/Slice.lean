/-
**Slices of lists, little-endian numbers, and tables of fixed-width records.**

Positioned reads are slices: the `n` elements of a list from position `off` on, or fewer when the
list ends before.  This module collects how slices compose, the little-endian encoding of a natural
number in a fixed number of bytes, and the packing of a list of records into a byte string from
which the records are cut again by their width.  Nothing here is about a particular format.

Main definitions:

* `slice` — the elements of a list from a position on;
* `valuesFrom` — the values of a function from a number on;
* `leBytes`, `leNat` — a number as little-endian bytes, and back;
* `cutRecords` — cutting a byte string into records of a fixed width.

Main results:

* `slice_append_slice`, `slice_slice` — reading on, and reading inside what was read;
* `slice_append_left`, `slice_append_right`, `slice_of_append` — slices of a concatenation;
* `slice_eq_valuesFrom`, `slice_valuesFrom` — slices of lists and of values are values;
* `leNat_leBytes` — the encoding loses nothing that fits in its width;
* `cutRecords_flatMap` — records that are packed come out again;
* `slice_flatten_pieces` — pieces of one length are found at their number.
-/

import Mathlib.Data.List.Basic
import Mathlib.Tactic.Ring

set_option relaxedAutoImplicit false
set_option autoImplicit false

variable {α β : Type}

/-! ### Slices -/

/-- The `n` elements of `l` from position `off` on, fewer when `l` ends before. -/
def slice (l : List α) (off n : ℕ) : List α := (l.drop off).take n

@[simp] theorem length_slice (l : List α) (off n : ℕ) :
    (slice l off n).length = min n (l.length - off) := by
  simp [slice]

theorem length_slice_of_le {l : List α} {off n : ℕ} (h : off + n ≤ l.length) :
    (slice l off n).length = n := by
  rw [length_slice]
  omega

@[simp] theorem slice_zero (l : List α) (off : ℕ) : slice l off 0 = [] := by
  simp [slice]

@[simp] theorem slice_zero_length (l : List α) : slice l 0 l.length = l := by
  simp [slice]

theorem slice_zero_left (l : List α) (n : ℕ) : slice l 0 n = l.take n := by
  simp [slice]

theorem slice_of_length_le {l : List α} {off : ℕ} (h : l.length ≤ off) (n : ℕ) :
    slice l off n = [] := by
  rw [slice, List.drop_eq_nil_of_le h, List.take_nil]

/-- A slice longer than what is left is what is left. -/
theorem slice_min (l : List α) (off n : ℕ) : slice l off n = slice l off (min n (l.length - off)) := by
  rw [slice, slice, List.take_eq_take_iff, List.length_drop]
  omega

/-- **Reading on**: two slices that follow each other are one slice. -/
theorem slice_append_slice (l : List α) (off a b : ℕ) :
    slice l off a ++ slice l (off + a) b = slice l off (a + b) := by
  rw [slice, slice, slice, List.take_add, List.drop_drop]

theorem slice_one (l : List α) (off : ℕ) : slice l off 1 = l[off]?.toList := by
  rw [slice, List.take_one, List.head?_drop]

/-- Equal slices that go on with the same element. -/
theorem slice_succ_eq {l r : List α} {i j n : ℕ} (h : slice l i n = slice r j n)
    (hnext : l[i + n]? = r[j + n]?) : slice l i (n + 1) = slice r j (n + 1) := by
  rw [← slice_append_slice, ← slice_append_slice, h, slice_one, slice_one, hnext]

/-- Equal slices that are preceded by the same element. -/
theorem slice_pred_eq {l r : List α} {i j n : ℕ} (h : slice l (i + 1) n = slice r (j + 1) n)
    (hprev : l[i]? = r[j]?) : slice l i (1 + n) = slice r j (1 + n) := by
  rw [← slice_append_slice, ← slice_append_slice, h, slice_one, slice_one, hprev]

/-- **Reading inside what was read.** -/
theorem slice_slice {l : List α} {a n b m : ℕ} (h : b + m ≤ n) :
    slice (slice l a n) b m = slice l (a + b) m := by
  rw [slice, slice, slice, List.drop_take, List.drop_drop, List.take_take]
  congr 1
  omega

/-- What a short read returns is the slice of its length. -/
theorem eq_slice_of_prefix {bs l : List α} {off : ℕ} (h : bs <+: l.drop off) :
    bs = slice l off bs.length := by
  rw [slice]
  exact List.prefix_iff_eq_take.1 h

theorem slice_append_left {l r : List α} {off n : ℕ} (h : off + n ≤ l.length) :
    slice (l ++ r) off n = slice l off n := by
  rw [slice, slice, List.drop_append_of_le_length (by omega),
    List.take_append_of_le_length (by rw [List.length_drop]; omega)]

theorem slice_append_right {l r : List α} {off n : ℕ} (h : l.length ≤ off) :
    slice (l ++ r) off n = slice r (off - l.length) n := by
  rw [slice, slice, List.drop_append, List.drop_eq_nil_of_le h, List.nil_append]

/-- **Reading back a part** of what a list was put together from. -/
theorem slice_of_append (p m q : List α) {l : List α} {off n : ℕ} (h : l = p ++ (m ++ q))
    (hoff : p.length = off) (hn : m.length = n) : slice l off n = m := by
  subst h hoff hn
  rw [slice_append_right le_rfl, Nat.sub_self, slice_append_left (by omega), slice_zero_length]

/-- A slice across a seam: the rest of the left part, then the start of the right one. -/
theorem slice_append {l r : List α} {off n : ℕ} (ho : off ≤ l.length) (hn : l.length ≤ off + n) :
    slice (l ++ r) off n = slice l off (l.length - off) ++ slice r 0 (n - (l.length - off)) := by
  have hsplit : n = (l.length - off) + (n - (l.length - off)) := by omega
  have hseam : off + (l.length - off) = l.length := by omega
  conv_lhs => rw [hsplit]
  rw [← slice_append_slice, slice_append_left (by omega), slice_append_right (by omega), hseam,
    Nat.sub_self]

/-! ### Values of a function -/

/-- The `n` values of `f` from `off` on. -/
def valuesFrom (f : ℕ → α) (off n : ℕ) : List α := (List.range' off n).map f

@[simp] theorem length_valuesFrom (f : ℕ → α) (off n : ℕ) : (valuesFrom f off n).length = n := by
  simp [valuesFrom]

@[simp] theorem valuesFrom_zero (f : ℕ → α) (off : ℕ) : valuesFrom f off 0 = [] := rfl

theorem valuesFrom_one (f : ℕ → α) (off : ℕ) : valuesFrom f off 1 = [f off] := rfl

theorem valuesFrom_append (f : ℕ → α) (off a b : ℕ) :
    valuesFrom f off a ++ valuesFrom f (off + a) b = valuesFrom f off (a + b) := by
  rw [valuesFrom, valuesFrom, valuesFrom, ← List.map_append, List.range'_append_1]

theorem getElem?_valuesFrom (f : ℕ → α) {off n i : ℕ} (h : i < n) :
    (valuesFrom f off n)[i]? = some (f (off + i)) := by
  rw [valuesFrom, List.getElem?_map, List.getElem?_range' h, Nat.one_mul]
  rfl

theorem valuesFrom_congr {f g : ℕ → α} {off off' n : ℕ}
    (h : ∀ i, i < n → f (off + i) = g (off' + i)) : valuesFrom f off n = valuesFrom g off' n := by
  refine List.ext_getElem? fun i => ?_
  rcases Nat.lt_or_ge i n with hi | hi
  · rw [getElem?_valuesFrom f hi, getElem?_valuesFrom g hi, h i hi]
  · rw [List.getElem?_eq_none (by simpa using hi), List.getElem?_eq_none (by simpa using hi)]

/-- A slice inside a list is the values of its elements. -/
theorem slice_eq_valuesFrom {l : List α} {off n : ℕ} (h : off + n ≤ l.length) (d : α) :
    slice l off n = valuesFrom (fun i => l.getD i d) off n := by
  refine List.ext_getElem? fun i => ?_
  rcases Nat.lt_or_ge i n with hi | hi
  · rw [getElem?_valuesFrom _ hi, slice, List.getElem?_take_of_lt hi, List.getElem?_drop,
      List.getD_eq_getElem?_getD, List.getElem?_eq_getElem (by omega), Option.getD_some]
  · rw [List.getElem?_eq_none (by rw [length_slice]; omega),
      List.getElem?_eq_none (by simpa using hi)]

/-- A slice of values is values. -/
theorem slice_valuesFrom (f : ℕ → α) (a N off n : ℕ) :
    slice (valuesFrom f a N) off n = valuesFrom f (a + off) (min n (N - off)) := by
  refine List.ext_getElem? fun i => ?_
  rcases Nat.lt_or_ge i (min n (N - off)) with hi | hi
  · rw [getElem?_valuesFrom f hi, slice, List.getElem?_take_of_lt (by omega), List.getElem?_drop,
      getElem?_valuesFrom f (by omega), Nat.add_assoc]
  · rw [List.getElem?_eq_none (by rw [length_slice, length_valuesFrom]; exact hi),
      List.getElem?_eq_none (by rwa [length_valuesFrom])]

/-! ### Little-endian numbers -/

/-- The `w` little-endian bytes of `x`; what does not fit is dropped. -/
def leBytes : ℕ → ℕ → List UInt8
  | 0, _ => []
  | w + 1, x => UInt8.ofNat x :: leBytes w (x / 256)

/-- The number that little-endian bytes stand for. -/
def leNat : List UInt8 → ℕ
  | [] => 0
  | b :: bs => b.toNat + 256 * leNat bs

@[simp] theorem length_leBytes (w x : ℕ) : (leBytes w x).length = w := by
  induction w generalizing x with
  | zero => rfl
  | succ w ih => rw [leBytes, List.length_cons, ih]

/-- What is written in `w` bytes is read back, up to the width. -/
theorem leNat_leBytes_mod (w x : ℕ) : leNat (leBytes w x) = x % 256 ^ w := by
  induction w generalizing x with
  | zero => rw [leBytes, leNat, pow_zero, Nat.mod_one]
  | succ w ih =>
      have hw : 256 ^ (w + 1) = 256 * 256 ^ w := pow_succ' 256 w
      rw [leBytes, leNat, ih, UInt8.toNat_ofNat', hw, Nat.mod_mul]

/-- **A number that fits is read back.** -/
theorem leNat_leBytes {w x : ℕ} (h : x < 256 ^ w) : leNat (leBytes w x) = x := by
  rw [leNat_leBytes_mod, Nat.mod_eq_of_lt h]

theorem leNat_lt (bs : List UInt8) : leNat bs < 256 ^ bs.length := by
  induction bs with
  | nil => simp [leNat]
  | cons b bs ih =>
      have hb : b.toNat < 256 := b.toNat_lt
      rw [leNat, List.length_cons, pow_succ]
      omega

/-! ### Records of a fixed width -/

/-- The first `n` records of `w` bytes of a byte string, each read by `rd`. -/
def cutRecords (w : ℕ) (rd : List UInt8 → β) : ℕ → List UInt8 → List β
  | 0, _ => []
  | n + 1, bs => rd (bs.take w) :: cutRecords w rd n (bs.drop w)

@[simp] theorem length_cutRecords (w : ℕ) (rd : List UInt8 → β) (n : ℕ) (bs : List UInt8) :
    (cutRecords w rd n bs).length = n := by
  induction n generalizing bs with
  | zero => rfl
  | succ n ih => rw [cutRecords, List.length_cons, ih]

/-- **Packed records come out again**, when each of them is read back from its own bytes. -/
theorem cutRecords_flatMap {w : ℕ} {rd : List UInt8 → β} {wr : β → List UInt8} {l : List β}
    (hw : ∀ x ∈ l, (wr x).length = w) (hrd : ∀ x ∈ l, rd (wr x) = x) :
    cutRecords w rd l.length (l.flatMap wr) = l := by
  induction l with
  | nil => rfl
  | cons x l ih =>
      have hx : (wr x).length = w := hw x (by simp)
      have htake : (wr x ++ l.flatMap wr).take w = wr x := by rw [← hx, List.take_left]
      have hdrop : (wr x ++ l.flatMap wr).drop w = l.flatMap wr := by rw [← hx, List.drop_left]
      rw [List.length_cons, List.flatMap_cons, cutRecords, htake, hdrop, hrd x (by simp),
        ih (fun y hy => hw y (by simp [hy])) fun y hy => hrd y (by simp [hy])]

/-- Packed records take their width each. -/
theorem length_flatMap_records {w : ℕ} {wr : β → List UInt8} {l : List β}
    (hw : ∀ x ∈ l, (wr x).length = w) : (l.flatMap wr).length = l.length * w := by
  induction l with
  | nil => simp
  | cons x l ih =>
      rw [List.flatMap_cons, List.length_append, hw x (by simp), List.length_cons,
        ih fun y hy => hw y (by simp [hy])]
      ring

/-! ### Pieces of one length -/

/-- **Every piece is the slice at its number**, when all pieces but the last have one length and the
last is not longer. -/
theorem slice_flatten_pieces {n : ℕ} :
    ∀ {pieces : List (List α)},
      (∀ i p, pieces[i]? = some p → i + 1 < pieces.length → p.length = n) →
      (∀ p ∈ pieces, p.length ≤ n) →
      ∀ {k : ℕ} {p : List α}, pieces[k]? = some p → slice pieces.flatten (k * n) n = p := by
  intro pieces
  induction pieces with
  | nil => intro _ _ k p hk; simp at hk
  | cons q pieces ih =>
      intro hfull hle k p hk
      have hfull' : ∀ i p, pieces[i]? = some p → i + 1 < pieces.length → p.length = n := by
        intro i p hi hlt
        exact hfull (i + 1) p (by simpa using hi) (by simpa using hlt)
      cases k with
      | zero =>
          obtain rfl : q = p := by simpa using hk
          rw [Nat.zero_mul, List.flatten_cons]
          cases pieces with
          | nil =>
              have hq := hle q (by simp)
              rw [List.flatten_nil, List.append_nil, slice_min, Nat.sub_zero, Nat.min_eq_right hq,
                slice_zero_length]
          | cons q' pieces =>
              have hq := hfull 0 q rfl (by simp)
              rw [slice_append_left (by omega), ← hq, slice_zero_length]
      | succ k =>
          rw [List.getElem?_cons_succ] at hk
          have hk' := (List.getElem?_eq_some_iff.1 hk).1
          have hq := hfull 0 q rfl (by rw [List.length_cons]; omega)
          have hoff : (k + 1) * n - q.length = k * n := by
            rw [hq, Nat.succ_mul, Nat.add_sub_cancel]
          rw [List.flatten_cons, slice_append_right (by rw [hq, Nat.succ_mul]; omega), hoff]
          exact ih hfull' (fun p hp => hle p (by simp [hp])) hk

/-- Pieces of which all but the last have one length cover no more than their number times it. -/
theorem length_flatten_le {n : ℕ} {pieces : List (List α)} (hle : ∀ p ∈ pieces, p.length ≤ n) :
    pieces.flatten.length ≤ pieces.length * n := by
  induction pieces with
  | nil => simp
  | cons q pieces ih =>
      have hq := hle q (by simp)
      have hrest := ih fun p hp => hle p (by simp [hp])
      rw [List.flatten_cons, List.length_append, List.length_cons, Nat.succ_mul]
      omega
