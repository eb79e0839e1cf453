/-
**Polynomial hashes of windows.**

The polynomial hash of a word reads its letters as the digits of a number in a base `r`, in a
commutative ring: a hash modulo a power of two is the one over that ring.  When a window moves by one
letter its hash is had from the one before by taking out the first letter and shifting the new one
in, which needs the power of the base that the first letter stands at.

Main definitions:

* `polyHash` — the hash of a word;
* `powBySquaring` — the power, by repeated squaring.

Main results:

* `polyHash_roll` — **the hash of the next window from that of this one**;
* `powBySquaring_eq` — the loop computes the power.
-/

import Mathlib.Algebra.Ring.Defs
import Mathlib.Algebra.Group.Basic
import Mathlib.Data.List.Induction
import Mathlib.Tactic.Ring

set_option relaxedAutoImplicit false
set_option autoImplicit false

variable {α R : Type}

/-! ### The hash -/

section Hash

variable [CommRing R] (r : R) (f : α → R)

/-- The letters of `w` as the digits of a number in base `r`. -/
def polyHash (w : List α) : R := w.foldl (fun h a => h * r + f a) 0

theorem polyHash_concat (w : List α) (a : α) :
    polyHash r f (w ++ [a]) = polyHash r f w * r + f a := by
  rw [polyHash, List.foldl_append]
  rfl

/-- The first letter stands at the highest power. -/
theorem polyHash_cons (a : α) (w : List α) :
    polyHash r f (a :: w) = f a * r ^ w.length + polyHash r f w := by
  induction w using List.reverseRecOn with
  | nil => simp [polyHash]
  | append_singleton w b ih =>
      rw [← List.cons_append, polyHash_concat, polyHash_concat, ih, List.length_append,
        List.length_singleton]
      ring

/-- **The hash of the next window**: the first letter goes, the letter `c` comes. -/
theorem polyHash_roll (a c : α) (w : List α) :
    polyHash r f (w ++ [c]) = (polyHash r f (a :: w) - f a * r ^ w.length) * r + f c := by
  rw [polyHash_concat, polyHash_cons]
  ring

end Hash

/-! ### The power -/

section Power

variable [CommMonoid R]

/-- `acc * b ^ e`; the turns of the loop are the binary digits of `e`. -/
def powBySquaring : ℕ → ℕ → R → R → R
  | 0, _, acc, _ => acc
  | fuel + 1, e, acc, b =>
      if e = 0 then acc else powBySquaring fuel (e / 2) (if e % 2 = 1 then acc * b else acc) (b * b)

/-- **The loop computes the power**, given as many turns as the exponent has digits. -/
theorem powBySquaring_eq : ∀ (fuel e : ℕ) (acc b : R), e < 2 ^ fuel →
    powBySquaring fuel e acc b = acc * b ^ e := by
  intro fuel
  induction fuel with
  | zero =>
      intro e acc b he
      obtain rfl : e = 0 := by omega
      rw [powBySquaring, pow_zero, mul_one]
  | succ fuel ih =>
      intro e acc b he
      rw [powBySquaring]
      by_cases h0 : e = 0
      · subst h0
        rw [if_pos rfl, pow_zero, mul_one]
      · have hhalf : e / 2 < 2 ^ fuel := by omega
        have hsq : (b * b) ^ (e / 2) = b ^ (2 * (e / 2)) := by rw [← pow_two, ← pow_mul]
        rw [if_neg h0, ih _ _ _ hhalf, hsq]
        rcases Nat.mod_two_eq_zero_or_one e with heven | hodd
        · rw [if_neg (by omega), show 2 * (e / 2) = e by omega]
        · rw [if_pos hodd, mul_assoc, ← pow_succ', show 2 * (e / 2) + 1 = e by omega]

end Power
