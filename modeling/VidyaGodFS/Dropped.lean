/-
**A list without some of its entries.**

The entries of a list at the places of `gone` are left out.  Entry `i` of what is left was at the
place `keptAt gone i`, the `i`-th place that is not in `gone`; and `keptBefore gone n` entries are
left of the first `n`.

Main definitions:

* `keptAt`, `keptBefore` — the places that are kept, and how many of them come before a place;
* `dropped` — what is left, each entry with the place it was at.

Main results:

* `getElem?_dropped` — **entry `i` of what is left was at the place `keptAt gone i`.**
-/

import Mathlib.Data.List.Enum
import Mathlib.Data.Nat.Nth

set_option relaxedAutoImplicit false
set_option autoImplicit false

namespace VidyaGodFS

variable {α : Type} {gone : List ℕ}

/-- The place of the `i`-th entry that is kept. -/
noncomputable def keptAt (gone : List ℕ) : ℕ → ℕ := Nat.nth (· ∉ gone)

/-- How many entries are kept of the first `n`. -/
def keptBefore (gone : List ℕ) (n : ℕ) : ℕ := Nat.count (· ∉ gone) n

theorem infinite_kept (gone : List ℕ) : (Set.ofPred (· ∉ gone)).Infinite :=
  gone.toFinset.finite_toSet.infinite_compl.mono fun n hn => by simpa using hn

theorem keptAt_notMem (i : ℕ) : keptAt gone i ∉ gone := Nat.nth_mem_of_infinite (infinite_kept gone) i

theorem keptAt_strictMono : StrictMono (keptAt gone) := Nat.nth_strictMono (infinite_kept gone)

theorem keptAt_injective (gone : List ℕ) : Function.Injective (keptAt gone) :=
  keptAt_strictMono.injective

theorem keptAt_keptBefore {n : ℕ} (h : n ∉ gone) : keptAt gone (keptBefore gone n) = n :=
  Nat.nth_count h

theorem exists_keptAt {n : ℕ} (h : n ∉ gone) : ∃ i, keptAt gone i = n := ⟨_, keptAt_keptBefore h⟩

theorem lt_keptBefore {i n : ℕ} : i < keptBefore gone n ↔ keptAt gone i < n :=
  Nat.lt_nth_iff_count_lt (infinite_kept gone)

theorem keptBefore_succ_of_mem {n : ℕ} (h : n ∈ gone) :
    keptBefore gone (n + 1) = keptBefore gone n := by
  rw [keptBefore, Nat.count_succ, if_neg (not_not.2 h)]
  rfl

theorem keptBefore_succ {n : ℕ} (h : n ∉ gone) :
    keptBefore gone (n + 1) = keptBefore gone n + 1 := by
  rw [keptBefore, Nat.count_succ, if_pos h]
  rfl

/-- What is left of a list, each entry with the place it was at. -/
def dropped (gone : List ℕ) (l : List α) : List (α × ℕ) := l.zipIdx.filter (·.2 ∉ gone)

theorem dropped_concat (l : List α) (a : α) :
    dropped gone (l ++ [a])
      = dropped gone l ++ if l.length ∈ gone then [] else [(a, l.length)] := by
  rw [dropped, List.zipIdx_append, List.filter_append, dropped, List.zipIdx_singleton,
    List.filter_singleton]
  simp

theorem length_dropped (l : List α) : (dropped gone l).length = keptBefore gone l.length := by
  induction l using List.reverseRecOn with
  | nil => rfl
  | append_singleton l a ih =>
      rw [dropped_concat, List.length_append, ih, List.length_append, List.length_singleton]
      split
      · rename_i h
        rw [keptBefore_succ_of_mem h]
        rfl
      · rename_i h
        rw [keptBefore_succ h]
        rfl

/-- **Entry `i` of what is left** was at the place `keptAt gone i`. -/
theorem getElem?_dropped (l : List α) (i : ℕ) :
    (dropped gone l)[i]? = (l[keptAt gone i]?).map fun a => (a, keptAt gone i) := by
  induction l using List.reverseRecOn with
  | nil => simp [dropped]
  | append_singleton l a ih =>
      have hlen : (dropped gone l).length = keptBefore gone l.length := length_dropped l
      rw [dropped_concat]
      rcases Nat.lt_trichotomy i (keptBefore gone l.length) with hlt | heq | hgt
      · -- an entry of `l`
        rw [List.getElem?_append_left (by omega), ih,
          List.getElem?_append_left (lt_keptBefore.1 hlt)]
      · -- the first place that is kept and not in `l`
        have hge : l.length ≤ keptAt gone i := Nat.not_lt.1 fun h => heq.not_lt (lt_keptBefore.2 h)
        rw [List.getElem?_append_right (by omega), List.getElem?_append_right hge, heq, hlen,
          Nat.sub_self, ← heq]
        split
        · rename_i h
          have hne : keptAt gone i ≠ l.length := fun hat => keptAt_notMem i (hat ▸ h)
          rw [List.getElem?_nil, List.getElem?_singleton, if_neg (by omega)]
          rfl
        · rename_i h
          have hat : keptAt gone i = l.length := by rw [heq, keptAt_keptBefore h]
          rw [hat, Nat.sub_self]
          rfl
      · -- past the end
        have hafter : l.length < keptAt gone i := by
          have hge := Nat.not_lt.1 fun h => hgt.not_gt (lt_keptBefore.2 h)
          refine Nat.lt_of_le_of_ne hge fun hat => hgt.ne ?_
          rw [hat, keptBefore, keptAt, Nat.count_nth_of_infinite (infinite_kept gone)]
        have hout : (l ++ [a])[keptAt gone i]? = none :=
          List.getElem?_eq_none (by rw [List.length_append, List.length_singleton]; omega)
        rw [hout, List.getElem?_eq_none]
        · rfl
        · rw [List.length_append, hlen]
          split
          · simp
            omega
          · simp
            omega

end VidyaGodFS
