/-
**Binary search for the end of a prefix.**

`upperBound p l` halves the range that may hold the first element with `p`, as `std::upper_bound`
does, and returns its index.  When no element with `p` comes before one without, the index it
returns really separates the two: that is `upperBound_spec`.  On any other list it returns some
index, whatever the halving happens to meet.

`lastAmong p l` is the search by hand that keeps an element with `p` at the lower end of the range
and none at or above the upper end, and returns the lower end once the range has one element left.

Main definitions:

* `upperBoundLoop`, `upperBound` — the search;
* `lastAmongLoop`, `lastAmong` — the search for the last element of a prefix;
* `Partitioned` — the elements with `p` come last.

Main results:

* `upperBound_spec` — **the index separates the elements without `p` from those with it**;
* `lastAmong_spec` — **the index is that of the last element with `p`**.
-/

import Mathlib.Data.List.Basic
import Mathlib.Tactic.Common

set_option relaxedAutoImplicit false
set_option autoImplicit false

variable {α : Type}

/-- The search in the `len` elements from `first` on.  The range shrinks at every turn, so its
length bounds the turns. -/
def upperBoundLoop (p : α → Bool) (l : List α) : ℕ → ℕ → ℕ → ℕ
  | 0, first, _ => first
  | fuel + 1, first, len =>
      if len = 0 then first else
        match l[first + len / 2]? with
        | none => first
        | some x =>
            if p x then upperBoundLoop p l fuel first (len / 2)
            else upperBoundLoop p l fuel (first + len / 2 + 1) (len - len / 2 - 1)

/-- The index of the first element with `p`, in a list where those come last. -/
def upperBound (p : α → Bool) (l : List α) : ℕ := upperBoundLoop p l l.length 0 l.length

/-- No element with `p` comes before one without. -/
def Partitioned (p : α → Bool) (l : List α) : Prop :=
  ∀ (i j : ℕ) (x y : α), i ≤ j → l[i]? = some x → l[j]? = some y → p x = true → p y = true

theorem upperBoundLoop_spec {p : α → Bool} {l : List α} (hl : Partitioned p l) :
    ∀ (fuel first len : ℕ), len ≤ fuel → first + len ≤ l.length →
      (∀ (i : ℕ) (x : α), i < first → l[i]? = some x → p x = false) →
      (∀ (i : ℕ) (x : α), first + len ≤ i → l[i]? = some x → p x = true) →
      upperBoundLoop p l fuel first len ≤ l.length ∧
        (∀ (i : ℕ) (x : α), i < upperBoundLoop p l fuel first len → l[i]? = some x →
          p x = false) ∧
        ∀ (i : ℕ) (x : α), upperBoundLoop p l fuel first len ≤ i → l[i]? = some x →
          p x = true := by
  intro fuel
  induction fuel with
  | zero =>
      intro first len hfuel hlen hlo hhi
      obtain rfl : len = 0 := by omega
      exact ⟨by simpa [upperBoundLoop] using hlen, hlo, hhi⟩
  | succ fuel ih =>
      intro first len hfuel hlen hlo hhi
      rw [upperBoundLoop]
      by_cases h0 : len = 0
      · subst h0
        rw [if_pos rfl]
        exact ⟨hlen, hlo, hhi⟩
      · have hmid : first + len / 2 < l.length := by omega
        rw [if_neg h0, List.getElem?_eq_getElem hmid]
        dsimp only
        have hx := List.getElem?_eq_getElem hmid
        cases hp : p l[first + len / 2] with
        | true =>
            -- everything from the middle on has `p`
            rw [if_pos rfl]
            refine ih first (len / 2) (by omega) (by omega) hlo ?_
            intro i y hi hy
            exact hl _ i _ y hi hx hy hp
        | false =>
            -- nothing up to the middle has it
            rw [if_neg (by simp)]
            refine ih (first + len / 2 + 1) (len - len / 2 - 1) (by omega) (by omega) ?_ ?_
            · intro i y hi hy
              by_contra hne
              have hpy : p y = true := by simpa using hne
              have := hl i _ y _ (by omega) hy hx hpy
              rw [hp] at this
              exact absurd this (by simp)
            · intro i y hi hy
              exact hhi i y (by omega) hy

/-- **The index separates** the elements without `p` from those with it. -/
theorem upperBound_spec {p : α → Bool} {l : List α} (hl : Partitioned p l) :
    upperBound p l ≤ l.length ∧
      (∀ (i : ℕ) (x : α), i < upperBound p l → l[i]? = some x → p x = false) ∧
      ∀ (i : ℕ) (x : α), upperBound p l ≤ i → l[i]? = some x → p x = true := by
  refine upperBoundLoop_spec hl l.length 0 l.length (Nat.le_refl _) (by omega) ?_ ?_
  · intro i x hi _
    omega
  · intro i x hi hx
    have := (List.getElem?_eq_some_iff.1 hx).1
    omega

/-! ### The last element of a prefix -/

/-- The search in the elements from `lo` to before `hi`. -/
def lastAmongLoop (p : α → Bool) (l : List α) (lo hi : ℕ) : ℕ :=
  if lo + 1 < hi then
    if (l[(lo + hi) / 2]?).any p then lastAmongLoop p l ((lo + hi) / 2) hi
    else lastAmongLoop p l lo ((lo + hi) / 2)
  else lo
termination_by hi - lo
decreasing_by all_goals omega

/-- The index of the last element with `p`, in a list where those come first. -/
def lastAmong (p : α → Bool) (l : List α) : ℕ := lastAmongLoop p l 0 l.length

/-- The range narrows down to an element with `p` that has none after it, on a list where no element
with `p` comes after one without. -/
theorem lastAmongLoop_spec {p : α → Bool} {l : List α}
    (hl : Partitioned (fun x => !p x) l) (lo hi : ℕ)
    (hlo : (l[lo]?).any p = true) (hlen : hi ≤ l.length) (hlt : lo < hi)
    (hhi : ∀ (i : ℕ) (x : α), hi ≤ i → l[i]? = some x → p x = false) :
    (l[lastAmongLoop p l lo hi]?).any p = true ∧
      ∀ (i : ℕ) (x : α), lastAmongLoop p l lo hi < i → l[i]? = some x → p x = false := by
  induction lo, hi using lastAmongLoop.induct p l with
  | case1 lo hi h hmid ih =>
      -- the element in the middle has `p`
      rw [lastAmongLoop, if_pos h, if_pos hmid]
      exact ih hmid hlen (by omega) hhi
  | case2 lo hi h hmid ih =>
      -- it does not, and nothing after it does
      rw [lastAmongLoop, if_pos h, if_neg hmid]
      refine ih hlo (by omega) (by omega) fun i x hi' hx => ?_
      obtain ⟨y, hy⟩ : ∃ y, l[(lo + hi) / 2]? = some y :=
        ⟨_, List.getElem?_eq_getElem (by omega)⟩
      rw [hy, Option.any_some] at hmid
      have hnot := hl _ _ _ _ hi' hy hx (by simpa using hmid)
      simpa using hnot
  | case3 lo hi h =>
      rw [lastAmongLoop, if_neg h]
      exact ⟨hlo, fun i x hi' hx => hhi i x (by omega) hx⟩

/-- **The index is that of the last element with `p`**, in a list whose first element has `p` and
where no element with `p` comes after one without. -/
theorem lastAmong_spec {p : α → Bool} {l : List α}
    (hl : Partitioned (fun x => !p x) l) (h0 : (l[0]?).any p = true) :
    ∃ x, l[lastAmong p l]? = some x ∧ p x = true ∧
      ∀ (i : ℕ) (y : α), lastAmong p l < i → l[i]? = some y → p y = false := by
  have hne : 0 < l.length := by
    cases l with
    | nil => simp at h0
    | cons x l => simp
  obtain ⟨hat, hafter⟩ := lastAmongLoop_spec hl 0 l.length h0 (Nat.le_refl _) hne fun i x hi hx => by
    have := (List.getElem?_eq_some_iff.1 hx).1
    omega
  cases hx : l[lastAmong p l]? with
  | none =>
      rw [← lastAmong, hx] at hat
      cases hat
  | some x =>
      rw [← lastAmong, hx] at hat
      exact ⟨x, rfl, hat, hafter⟩
