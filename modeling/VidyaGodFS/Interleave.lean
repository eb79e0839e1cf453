/-
**Threads that interleave.**

Threads share a state, and each is at a place of its own.  A move of a thread changes what is shared
and its own place; the threads move in any order.  What is claimed of the shared state, and of each
thread's place in it, holds in every state of every run when a thread keeps its own claim and does not
interfere with the claims of the others.

Main definitions:

* `Threads`, `Moves`, `Step`, `Run` — the threads, their moves, and runs of them;
* `Solo` — the moves of one thread without interruption;
* `Outline` — claims that no move interferes with.

Main results:

* `Outline.and` — further claims may rest on those at hand;
* `Outline.run` — **the claims hold after every run**;
* `Solo.run` — a thread may always run on its own.
-/

import Mathlib.Logic.Function.Basic
import Mathlib.Logic.Relation

set_option relaxedAutoImplicit false
set_option autoImplicit false

namespace Interleave

/-- What the threads share, and the place that each has come to. -/
structure Threads (ι σ φ : Type) where
  shared : σ
  place : ι → φ

/-- The moves of the threads: what is shared and the place of the thread, before and after. -/
def Moves (ι σ φ : Type) : Type := ι → σ → φ → σ → φ → Prop

variable {ι σ φ : Type}

/-- The moves that meet a condition. -/
def Moves.meeting (move ok : Moves ι σ φ) : Moves ι σ φ := fun i s p s' p' =>
  move i s p s' p' ∧ ok i s p s' p'

/-- The moves of one thread without interruption. -/
inductive Solo (move : Moves ι σ φ) (i : ι) (s : σ) (p : φ) : σ → φ → Prop
  | refl : Solo move i s p s p
  | tail {s' s'' : σ} {p' p'' : φ} :
      Solo move i s p s' p' → move i s' p' s'' p'' → Solo move i s p s'' p''

namespace Solo

variable {move : Moves ι σ φ} {i : ι} {s s' s'' : σ} {p p' p'' : φ}

theorem single (h : move i s p s' p') : Solo move i s p s' p' := .tail .refl h

theorem trans (h : Solo move i s p s' p') (h' : Solo move i s' p' s'' p'') :
    Solo move i s p s'' p'' := by
  induction h' with
  | refl => exact h
  | tail _ hmove ih => exact ih.tail hmove

/-- Moves that are also moves of another kind. -/
theorem mono {move' : Moves ι σ φ} (h : Solo move i s p s' p')
    (hmove : ∀ {s p s' p'}, move i s p s' p' → move' i s p s' p') : Solo move' i s p s' p' := by
  induction h with
  | refl => exact .refl
  | tail _ hlast ih => exact ih.tail (hmove hlast)

end Solo

/-- **Claims that no move interferes with**: a thread keeps what is claimed of the shared state and
of itself, and also what is claimed of the others. -/
structure Outline (move : Moves ι σ φ) (G : σ → Prop) (A : ι → σ → φ → Prop) : Prop where
  own : ∀ {i : ι} {s s' : σ} {p p' : φ}, move i s p s' p' → G s → A i s p → G s' ∧ A i s' p'
  others : ∀ {i j : ι} {s s' : σ} {p p' q : φ}, j ≠ i → move i s p s' p' → G s → A i s p →
    A j s q → A j s' q

variable {move : Moves ι σ φ} {G : σ → Prop} {A : ι → σ → φ → Prop}

/-- Claims that hold of some moves hold of fewer. -/
theorem Outline.mono (h : Outline move G A) {move' : Moves ι σ φ}
    (hmove : ∀ {i s p s' p'}, move' i s p s' p' → move i s p s' p') : Outline move' G A where
  own := fun h' => h.own (hmove h')
  others := fun hj h' => h.others hj (hmove h')

/-- Further claims may rest on those at hand. -/
theorem Outline.and (h : Outline move G A) {G' : σ → Prop} {A' : ι → σ → φ → Prop}
    (hown : ∀ {i s s' p p'}, move i s p s' p' → G s → A i s p → G' s → A' i s p →
      G' s' ∧ A' i s' p')
    (hothers : ∀ {i j s s' p p' q}, j ≠ i → move i s p s' p' → G s → A i s p → A j s q → G' s →
      A' i s p → A' j s q → A' j s' q) :
    Outline move (fun s => G s ∧ G' s) (fun i s p => A i s p ∧ A' i s p) where
  own := fun hmove hG hA => by
    obtain ⟨hG', hA'⟩ := hown hmove hG.1 hA.1 hG.2 hA.2
    exact ⟨⟨(h.own hmove hG.1 hA.1).1, hG'⟩, (h.own hmove hG.1 hA.1).2, hA'⟩
  others := fun hj hmove hG hA hB =>
    ⟨h.others hj hmove hG.1 hA.1 hB.1, hothers hj hmove hG.1 hA.1 hB.1 hG.2 hA.2 hB.2⟩

variable [DecidableEq ι]

/-- The thread `i` moves to `p`, and leaves `s`. -/
def Threads.set (c : Threads ι σ φ) (i : ι) (s : σ) (p : φ) : Threads ι σ φ :=
  ⟨s, Function.update c.place i p⟩

@[simp] theorem Threads.set_shared (c : Threads ι σ φ) (i : ι) (s : σ) (p : φ) :
    (c.set i s p).shared = s := rfl

@[simp] theorem Threads.set_place_self (c : Threads ι σ φ) (i : ι) (s : σ) (p : φ) :
    (c.set i s p).place i = p := Function.update_self ..

theorem Threads.set_place_of_ne (c : Threads ι σ φ) {i j : ι} (h : j ≠ i) (s : σ) (p : φ) :
    (c.set i s p).place j = c.place j := Function.update_of_ne h ..

theorem Threads.set_set (c : Threads ι σ φ) (i : ι) (s s' : σ) (p p' : φ) :
    (c.set i s p).set i s' p' = c.set i s' p' := by
  simp [set]

/-- Some thread makes a move. -/
inductive Step (move : Moves ι σ φ) (c : Threads ι σ φ) : Threads ι σ φ → Prop
  | mk {i : ι} {s : σ} {p : φ} : move i c.shared (c.place i) s p → Step move c (c.set i s p)

/-- Any threads making moves in any order. -/
def Run (move : Moves ι σ φ) : Threads ι σ φ → Threads ι σ φ → Prop :=
  Relation.ReflTransGen (Step move)

namespace Run

variable {c c' c'' : Threads ι σ φ}

theorem refl : Run move c c := Relation.ReflTransGen.refl

theorem trans (h : Run move c c') (h' : Run move c' c'') : Run move c c'' :=
  Relation.ReflTransGen.trans h h'

theorem tail (h : Run move c c') {i : ι} {s : σ} {p : φ}
    (hmove : move i c'.shared (c'.place i) s p) : Run move c (c'.set i s p) :=
  Relation.ReflTransGen.tail h (.mk hmove)

/-- Runs of some moves are runs of more. -/
theorem mono (h : Run move c c') {move' : Moves ι σ φ}
    (hmove : ∀ {i s p s' p'}, move i s p s' p' → move' i s p s' p') : Run move' c c' := by
  induction h with
  | refl => exact refl
  | tail _ hstep ih =>
      obtain ⟨hstep⟩ := hstep
      exact ih.tail (hmove hstep)

end Run

namespace Solo

variable {i : ι} {s s' : σ} {p p' : φ}

/-- **A thread may run on its own**, wherever the others have come to. -/
theorem run (h : Solo move i s p s' p') {c : Threads ι σ φ} (hs : c.shared = s)
    (hp : c.place i = p) : Run move c (c.set i s' p') := by
  induction h with
  | refl =>
      have hc : c.set i s p = c := by
        subst hs hp
        simp [Threads.set]
      rw [hc]
      exact Run.refl
  | tail _ hmove ih =>
      rw [← c.set_set i _ _ _ _]
      exact ih.tail (by simpa using hmove)

end Solo

theorem Outline.step (h : Outline move G A) {c c' : Threads ι σ φ} (hstep : Step move c c')
    (hc : G c.shared ∧ ∀ i, A i c.shared (c.place i)) :
    G c'.shared ∧ ∀ i, A i c'.shared (c'.place i) := by
  obtain ⟨hG, hA⟩ := hc
  cases hstep with
  | @mk i s p hmove =>
      obtain ⟨hG', hown⟩ := h.own hmove hG (hA i)
      refine ⟨hG', fun j => ?_⟩
      by_cases hj : j = i
      · subst hj
        simpa using hown
      · rw [c.set_place_of_ne hj]
        exact h.others hj hmove hG (hA i) (hA j)

/-- **Claims that no move interferes with hold after every run.** -/
theorem Outline.run (h : Outline move G A) {c c' : Threads ι σ φ} (hrun : Run move c c')
    (hc : G c.shared ∧ ∀ i, A i c.shared (c.place i)) :
    G c'.shared ∧ ∀ i, A i c'.shared (c'.place i) := by
  induction hrun with
  | refl => exact hc
  | tail _ hstep ih => exact h.step hstep ih

end Interleave
