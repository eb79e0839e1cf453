/-
**Programs that act on a state and may fail.**

A failed call keeps the effects it had before it failed: an operation that has already removed a
file and then meets an error returns that error *and* leaves the file removed.  `Prog σ ε α` is the
type of such programs, a function from the state to an outcome together with the state left behind,
whatever the outcome.  Nothing in this module is about a particular state or a particular error.

Main definitions:

* `Prog`, with its monad structure and `Prog.fail`;
* `Prog.get`, `Prog.gets`, `Prog.modify` — access to the state;
* `Prog.attempt` — running a program and looking at its error instead of passing it on;
* `Prog.zoom` — running a program on a part of the state;
* `Prog.Triple` — Hoare triples with a postcondition for success and one for failure;
* `Prog.Preserves` — the invariants of a program, kept whether it succeeds or fails;
* `Prog.Follows` — one program succeeding wherever another does.

Main results:

* `Prog.bind_of_ok`, `Prog.bind_of_error` — the two ways a sequence goes on;
* `Prog.Triple.bind` — the rule of sequencing for triples;
* `Prog.Preserves.bind`, `Prog.Preserves.forM` — sequences and loops keep an invariant;
* `Prog.Follows.bind` — sequences follow step by step.
-/

import Mathlib.Logic.Basic
import Mathlib.Tactic.Common

set_option relaxedAutoImplicit false
set_option autoImplicit false

/-- A program over the state `σ` that yields an `α` or fails with an `ε`; either way it leaves a
state behind. -/
def Prog (σ ε α : Type) : Type := σ → Except ε α × σ

namespace Prog

variable {σ τ ε ε' α β : Type}

/-- Sequencing: the second program runs on the state the first one left, unless that failed. -/
protected def bind (m : Prog σ ε α) (f : α → Prog σ ε β) : Prog σ ε β := fun s =>
  match m s with
  | (.ok a, s') => f a s'
  | (.error e, s') => (.error e, s')

instance : Monad (Prog σ ε) where
  pure a := fun s => (.ok a, s)
  bind := Prog.bind

/-- Failing with `e`, the state as it stands. -/
def fail (e : ε) : Prog σ ε α := fun s => (.error e, s)

/-- The current state. -/
def get : Prog σ ε σ := fun s => (.ok s, s)

/-- A value read off the current state. -/
def gets (f : σ → α) : Prog σ ε α := fun s => (.ok (f s), s)

/-- Changing the state. -/
def modify (f : σ → σ) : Prog σ ε Unit := fun s => (.ok (), f s)

/-- Running `m` and yielding its outcome, so that a failure can be looked at. -/
def attempt (m : Prog σ ε α) : Prog σ ε' (Except ε α) := fun s => (.ok (m s).1, (m s).2)

/-- Running a program on the part of the state that `view` shows and `put` replaces. -/
def zoom (view : σ → τ) (put : τ → σ → σ) (m : Prog τ ε α) : Prog σ ε α := fun s =>
  ((m (view s)).1, put (m (view s)).2 s)

/-! ### What the combinators do -/

@[simp] theorem pure_apply (a : α) (s : σ) : (pure a : Prog σ ε α) s = (.ok a, s) := rfl

theorem bind_apply (m : Prog σ ε α) (f : α → Prog σ ε β) (s : σ) :
    (m >>= f) s = match m s with
      | (.ok a, s') => f a s'
      | (.error e, s') => (.error e, s') := rfl

@[simp] theorem fail_apply (e : ε) (s : σ) : (fail e : Prog σ ε α) s = (.error e, s) := rfl

@[simp] theorem get_apply (s : σ) : (get : Prog σ ε σ) s = (.ok s, s) := rfl

@[simp] theorem gets_apply (f : σ → α) (s : σ) : (gets f : Prog σ ε α) s = (.ok (f s), s) := rfl

@[simp] theorem modify_apply (f : σ → σ) (s : σ) :
    (modify f : Prog σ ε Unit) s = (.ok (), f s) := rfl

@[simp] theorem attempt_apply (m : Prog σ ε α) (s : σ) :
    (attempt m : Prog σ ε' (Except ε α)) s = (.ok (m s).1, (m s).2) := rfl

@[simp] theorem zoom_apply (view : σ → τ) (put : τ → σ → σ) (m : Prog τ ε α) (s : σ) :
    zoom view put m s = ((m (view s)).1, put (m (view s)).2 s) := rfl

/-- A sequence whose first part succeeds goes on with the second. -/
theorem bind_of_ok {m : Prog σ ε α} {f : α → Prog σ ε β} {s s' : σ} {a : α}
    (h : m s = (.ok a, s')) : (m >>= f) s = f a s' := by
  rw [bind_apply, h]

/-- A sequence whose first part fails is that failure. -/
theorem bind_of_error {m : Prog σ ε α} {f : α → Prog σ ε β} {s s' : σ} {e : ε}
    (h : m s = (.error e, s')) : (m >>= f) s = (.error e, s') := by
  rw [bind_apply, h]

/-- What holds where the first part of a sequence ends, and where the second ends that goes on from
there, holds where the sequence ends. -/
theorem bind_ends {I : σ → Prop} {m : Prog σ ε α} {f : α → Prog σ ε β} {s : σ} (hm : I (m s).2)
    (hf : ∀ a s', m s = (.ok a, s') → I s' → I (f a s').2) : I ((m >>= f) s).2 := by
  rcases h : m s with ⟨e | a, s'⟩
  · rw [h] at hm
    rw [bind_of_error h]
    exact hm
  · rw [h] at hm
    rw [bind_of_ok h]
    exact hf a s' h hm

/-- Two sequences that begin alike are the same if they go on alike. -/
theorem bind_congr_apply {m : Prog σ ε α} {f g : α → Prog σ ε β} {s : σ}
    (h : ∀ a s', m s = (.ok a, s') → f a s' = g a s') : (m >>= f) s = (m >>= g) s := by
  rcases hm : m s with ⟨e | a, s'⟩
  · rw [bind_of_error hm, bind_of_error hm]
  · rw [bind_of_ok hm, bind_of_ok hm, h a s' hm]

/-- A loop over a list goes on with the rest once a first part is done. -/
theorem forM_append_of_ok {γ : Type} {f : γ → Prog σ ε PUnit} {l l' : List γ} :
    ∀ {s s' : σ}, l.forM f s = (.ok ⟨⟩, s') → (l ++ l').forM f s = l'.forM f s' := by
  induction l with
  | nil =>
      intro s s' h
      obtain rfl : s = s' := congrArg Prod.snd h
      rfl
  | cons x l ih =>
      intro s s' h
      change (f x >>= fun _ => l.forM f) s = _ at h
      change (f x >>= fun _ => (l ++ l').forM f) s = _
      rcases hx : f x s with ⟨e | a, s₁⟩
      · rw [bind_of_error hx] at h
        cases h
      · rw [bind_of_ok hx] at h
        rw [bind_of_ok hx]
        exact ih h

@[simp] theorem pure_bind (a : α) (f : α → Prog σ ε β) : (pure a >>= f) = f a := rfl

@[simp] theorem fail_bind (e : ε) (f : α → Prog σ ε β) : ((fail e : Prog σ ε α) >>= f) = fail e :=
  rfl

@[simp] theorem bind_assoc_apply {γ : Type} (m : Prog σ ε α) (f : α → Prog σ ε β)
    (g : β → Prog σ ε γ) : (m >>= f) >>= g = m >>= fun a => f a >>= g := by
  funext s
  rw [bind_apply, bind_apply, bind_apply]
  rcases m s with ⟨a | e, s'⟩ <;> rfl

/-! ### Hoare triples -/

/-- What is to hold of the outcome `r` of a program: `Q` when it succeeded, `E` when it failed. -/
def Post (Q : α → σ → Prop) (E : ε → σ → Prop) (r : Except ε α × σ) : Prop :=
  match r with
  | (.ok a, s) => Q a s
  | (.error e, s) => E e s

@[simp] theorem post_ok (Q : α → σ → Prop) (E : ε → σ → Prop) (a : α) (s : σ) :
    Post Q E (.ok a, s) ↔ Q a s := Iff.rfl

@[simp] theorem post_error (Q : α → σ → Prop) (E : ε → σ → Prop) (e : ε) (s : σ) :
    Post Q E (.error e, s) ↔ E e s := Iff.rfl

/-- **Hoare triples**: from every state in `P` the program ends in `Q` or fails into `E`. -/
def Triple (P : σ → Prop) (m : Prog σ ε α) (Q : α → σ → Prop) (E : ε → σ → Prop) : Prop :=
  ∀ s, P s → Post Q E (m s)

namespace Triple

variable {P P' : σ → Prop} {Q Q' : α → σ → Prop} {R : β → σ → Prop} {E E' : ε → σ → Prop}

/-- Strengthening the precondition and weakening the postconditions. -/
theorem conseq {m : Prog σ ε α} (h : Triple P m Q E) (hP : ∀ s, P' s → P s)
    (hQ : ∀ a s, Q a s → Q' a s) (hE : ∀ e s, E e s → E' e s) : Triple P' m Q' E' := by
  intro s hs
  have hpost := h s (hP s hs)
  rcases hm : m s with ⟨e | a, s'⟩
  · rw [hm] at hpost
    exact hE e s' hpost
  · rw [hm] at hpost
    exact hQ a s' hpost

theorem pure {a : α} (h : ∀ s, P s → Q a s) : Triple P (Pure.pure a : Prog σ ε α) Q E :=
  fun s hs => h s hs

theorem fail {e : ε} (h : ∀ s, P s → E e s) : Triple P (Prog.fail e : Prog σ ε α) Q E :=
  fun s hs => h s hs

/-- Every program satisfies the triple that says nothing. -/
theorem triv (m : Prog σ ε α) : Triple P m (fun _ _ => True) (fun _ _ => True) := by
  intro s _
  rcases m s with ⟨e | a, s'⟩ <;> exact trivial

/-- **The rule of sequencing.** -/
theorem bind {m : Prog σ ε α} {f : α → Prog σ ε β} (hm : Triple P m Q E)
    (hf : ∀ a, Triple (Q a) (f a) R E) : Triple P (m >>= f) R E := by
  intro s hs
  have hpost := hm s hs
  rcases h : m s with ⟨e | a, s'⟩
  · rw [h] at hpost
    rw [bind_of_error h]
    exact hpost
  · rw [h] at hpost
    rw [bind_of_ok h]
    exact hf a s' hpost

end Triple

/-! ### Invariants -/

/-- The program keeps the invariant `I`, whether it succeeds or fails. -/
def Preserves (I : σ → Prop) (m : Prog σ ε α) : Prop := ∀ s, I s → I (m s).2

namespace Preserves

variable {I : σ → Prop}

theorem pure (a : α) : Preserves I (Pure.pure a : Prog σ ε α) := fun _ hs => hs

theorem fail (e : ε) : Preserves I (Prog.fail e : Prog σ ε α) := fun _ hs => hs

theorem modify {f : σ → σ} (h : ∀ s, I s → I (f s)) : Preserves I (Prog.modify f : Prog σ ε Unit) :=
  h

theorem attempt {m : Prog σ ε α} (hm : Preserves I m) :
    Preserves I (Prog.attempt m : Prog σ ε' (Except ε α)) := hm

/-- **Sequencing keeps an invariant** that both parts keep. -/
theorem bind {m : Prog σ ε α} {f : α → Prog σ ε β} (hm : Preserves I m)
    (hf : ∀ a, Preserves I (f a)) : Preserves I (m >>= f) :=
  fun s hs => bind_ends (hm s hs) fun a s' _ hs' => hf a s' hs'

theorem ite {c : Prop} [Decidable c] {m m' : Prog σ ε α} (h : c → Preserves I m)
    (h' : ¬ c → Preserves I m') : Preserves I (if c then m else m') := by
  by_cases hc : c
  · rw [if_pos hc]
    exact h hc
  · rw [if_neg hc]
    exact h' hc

/-- A loop over a list keeps an invariant that its turns keep. -/
theorem forM {γ : Type} {f : γ → Prog σ ε PUnit} :
    ∀ {l : List γ}, (∀ x ∈ l, Preserves I (f x)) → Preserves I (List.forM l f) := by
  intro l
  induction l with
  | nil => exact fun _ => pure ()
  | cons x l ih =>
      intro h
      exact bind (h x (by simp)) fun _ => ih fun y hy => h y (by simp [hy])

end Preserves

/-! ### Following on success -/

/-- **Whatever the first program succeeds with, the second succeeds with as well**, up to `R`, from
any state of its own.  Nothing is said of the runs where the first fails. -/
def Follows (R : α → β → Prop) (m : Prog σ ε α) (m' : Prog τ ε' β) : Prop :=
  ∀ s a s₁, m s = (.ok a, s₁) → ∀ t, ∃ b t₁, m' t = (.ok b, t₁) ∧ R a b

namespace Follows

variable {γ δ : Type} {R : α → β → Prop} {R' : γ → δ → Prop}

theorem pure {a : α} {b : β} (h : R a b) :
    Follows R (Pure.pure a : Prog σ ε α) (Pure.pure b : Prog τ ε' β) := by
  rintro s a' s₁ hrun t
  obtain ⟨rfl, rfl⟩ : a = a' ∧ s = s₁ := by simpa using hrun
  exact ⟨b, t, rfl, h⟩

/-- Nothing has to follow a failure. -/
theorem fail {e : ε} {m' : Prog τ ε' β} : Follows R (Prog.fail e : Prog σ ε α) m' := by
  rintro s a s₁ hrun
  simp at hrun

/-- Sequences follow step by step. -/
theorem bind {m : Prog σ ε α} {m' : Prog τ ε' β} {f : α → Prog σ ε γ} {f' : β → Prog τ ε' δ}
    (hm : Follows R m m') (hf : ∀ a b, R a b → Follows R' (f a) (f' b)) :
    Follows R' (m >>= f) (m' >>= f') := by
  rintro s c s₁ hrun t
  rcases h : m s with ⟨e | a, s'⟩
  · rw [bind_of_error h] at hrun
    simp at hrun
  · rw [bind_of_ok h] at hrun
    obtain ⟨b, t', hb, hR⟩ := hm s a s' h t
    obtain ⟨d, t₁, hd, hR'⟩ := hf a b hR s' c s₁ hrun t'
    exact ⟨d, t₁, by rw [bind_of_ok hb, hd], hR'⟩

end Follows

end Prog
