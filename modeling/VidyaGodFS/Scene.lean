/-
**Trees of names, as they are walked.**

A *scene* says of each path what a walk from the root finds there: nothing, or an entry, and nothing
below what is no directory.  Any answer to each single path gives a scene, once what cannot be walked
to is left out (`walked`).  This is the plain notion of a file system's names, for any names and any
entries with one of them for the directories, and the changes that a file system makes to it.

Main definitions:

* `Reached`, `walked` — the paths whose way leads through directories, and the scene of the answers;
* `put`, `moved`, `changed` — the changes: one entry put or taken away, one moved with all below it, some
  entries exchanged.

Main results:

* `walked_unique` — a scene is what each directory's names say;
* `walked_congr` — **answers that agree where they can be walked to give one scene**;
* `walked_put`, `walked_moved`, `walked_changed` — when the answers change as the scene should.
-/

import Mathlib.Data.List.Infix

set_option relaxedAutoImplicit false
set_option autoImplicit false

namespace Scene

variable {N E : Type} {D : E} {e e' t : List N → Option E} {v : List N} {n : N}

/-- All that lies above `v` is a directory. -/
def Reached (D : E) (e : List N → Option E) (v : List N) : Prop :=
  ∀ q, q <+: v → q ≠ v → e q = some D

open Classical in
/-- What a walk finds. -/
noncomputable def walked (D : E) (e : List N → Option E) (v : List N) : Option E :=
  if Reached D e v then e v else none

theorem reached_nil : Reached D e [] := fun _ hq hne => absurd (List.prefix_nil.1 hq) hne

theorem reached_concat : Reached D e (v ++ [n]) ↔ Reached D e v ∧ e v = some D := by
  constructor
  · intro h
    have hne : v ≠ v ++ [n] := fun he => by simpa using congrArg List.length he
    refine ⟨fun q hq hqv => h q (hq.trans (List.prefix_append v [n])) ?_,
      h v (List.prefix_append v [n]) hne⟩
    rintro rfl
    have := hq.length_le
    rw [List.length_append, List.length_singleton] at this
    omega
  · rintro ⟨hreach, hv⟩ q hq hne
    by_cases hqv : q = v
    · rw [hqv, hv]
    · exact hreach q ((List.prefix_concat_iff.1 hq).resolve_left hne) hqv

theorem Reached.of_le {u : List N} (h : Reached D e v) (hu : u <+: v) : Reached D e u :=
  fun q hq hne => h q (hq.trans hu) fun he => hne (hq.eq_of_length_le (he ▸ hu.length_le))

@[simp] theorem walked_nil : walked D e [] = e [] := if_pos reached_nil

theorem walked_of_reached (h : Reached D e v) : walked D e v = e v := if_pos h

theorem walked_eq_dir : walked D e v = some D ↔ Reached D e v ∧ e v = some D := by
  unfold walked
  split_ifs with h
  · simp [h]
  · simp [h]

/-- A name is found where its directory is. -/
theorem walked_concat [DecidableEq (Option E)] :
    walked D e (v ++ [n]) = if walked D e v = some D then e (v ++ [n]) else none := by
  by_cases h : walked D e v = some D
  · rw [if_pos h]
    exact walked_of_reached (reached_concat.2 (walked_eq_dir.1 h))
  · rw [if_neg h]
    exact if_neg fun hc => h (walked_eq_dir.2 (reached_concat.1 hc))

/-- Nothing is found below what is no directory. -/
theorem walked_below {u : List N} (h : walked D e v ≠ some D) (hu : v <+: u) (hne : v ≠ u) :
    walked D e u = none := by
  refine if_neg fun hc => h (walked_eq_dir.2 ⟨hc.of_le hu, hc v hu hne⟩)

/-- **A scene is what each directory's names say.** -/
theorem walked_unique [DecidableEq (Option E)] (h₀ : t [] = e [])
    (hstep : ∀ v n, t (v ++ [n]) = if t v = some D then e (v ++ [n]) else none) : t = walked D e := by
  funext v
  induction v using List.reverseRecOn with
  | nil => rw [h₀, walked_nil]
  | append_singleton v n ih => rw [hstep, ih, walked_concat]

/-- **Answers that agree where they can be walked to give one scene.** -/
theorem walked_congr (h : ∀ u, Reached D e u → e' u = e u) : walked D e' = walked D e := by
  classical
  refine (walked_unique ?_ fun u n => ?_).symm
  · rw [walked_nil, h [] reached_nil]
  · rw [walked_concat]
    by_cases hu : walked D e u = some D
    · rw [if_pos hu, if_pos hu, h _ (reached_concat.2 (walked_eq_dir.1 hu))]
    · rw [if_neg hu, if_neg hu]

section

variable [DecidableEq N]

/-- One entry put, or taken away. -/
def put (t : List N → Option E) (v : List N) (x : Option E) : List N → Option E :=
  fun u => if u = v then x else t u

@[simp] theorem put_self (x : Option E) : put t v x v = x := if_pos rfl

theorem put_of_ne {u : List N} (h : u ≠ v) (x : Option E) : put t v x u = t u := if_neg h

/-- **When one entry more, or one less, is all that changes**: nothing was below it, and nothing is. -/
theorem walked_put {x : Option E} (hv : v ≠ []) (hreach : Reached D e v) (hat : e' v = x)
    (hother : ∀ u, Reached D e u → ¬ v <+: u → e' u = e u)
    (hempty : ∀ k, walked D e (v ++ [k]) = none) (hbelow : x = some D → ∀ k, e' (v ++ [k]) = none) :
    walked D e' = put (walked D e) v x := by
  classical
  -- nothing at all was found under it
  have hunder : ∀ u, v <+: u → v ≠ u → walked D e u = none := by
    rintro u ⟨r, rfl⟩ hne
    cases r with
    | nil => simp at hne
    | cons k r =>
        by_cases hk : r = []
        · rw [hk]
          exact hempty k
        · refine walked_below (v := v ++ [k]) (by rw [hempty k]; simp) ?_ ?_
          · exact ⟨r, by simp⟩
          · simp [Ne.symm hk]
  have hlong : ∀ (u : List N) (n : N), u ≠ u ++ [n] := fun u n he => by
    simpa using congrArg List.length he
  refine (walked_unique ?_ fun u n => ?_).symm
  · rw [put_of_ne hv.symm, walked_nil, hother [] reached_nil fun hc => hv (List.prefix_nil.1 hc)]
  · by_cases huv : u ++ [n] = v
    · -- the entry itself
      subst huv
      have hu : walked D e u = some D := walked_eq_dir.2 (reached_concat.1 hreach)
      rw [put_self, put_of_ne (hlong u n), if_pos hu, hat]
    · rw [put_of_ne huv]
      by_cases hu : u = v
      · subst hu
        rw [put_self, hempty]
        split_ifs with hx
        · rw [hbelow hx]
        · rfl
      · rw [put_of_ne hu, walked_concat]
        by_cases hdir : walked D e u = some D
        · rw [if_pos hdir, if_pos hdir]
          refine (hother _ (reached_concat.2 (walked_eq_dir.1 hdir)) fun hc => ?_).symm
          rcases List.prefix_concat_iff.1 hc with he | hle
          · exact huv he.symm
          · rw [hunder u hle (Ne.symm hu)] at hdir
            cases hdir
        · rw [if_neg hdir, if_neg hdir]

/-- What is at `vf` and below it moves to `vt`, in the place of what was there. -/
def moved (t : List N → Option E) (vf vt : List N) : List N → Option E :=
  fun u => if vt <+: u then t (vf ++ u.drop vt.length) else if vf <+: u then none else t u

variable {vf vt : List N}

theorem moved_under (r : List N) : moved t vf vt (vt ++ r) = t (vf ++ r) := by
  rw [moved, if_pos (List.prefix_append vt r), List.drop_left]

theorem moved_left {u : List N} (ht : ¬ vt <+: u) (hf : vf <+: u) : moved t vf vt u = none := by
  rw [moved, if_neg ht, if_pos hf]

theorem moved_other {u : List N} (ht : ¬ vt <+: u) (hf : ¬ vf <+: u) : moved t vf vt u = t u := by
  rw [moved, if_neg ht, if_neg hf]

/-- **When an entry moves, with all that is below it**, and nothing else changes. -/
theorem walked_moved (hf : vf ≠ []) (hft : ¬ vf <+: vt) (htf : ¬ vt <+: vf) (hreachf : Reached D e vf)
    (hreacht : Reached D e vt) (hleft : e' vf = none)
    (hunder : ∀ r, Reached D e (vf ++ r) → e' (vt ++ r) = e (vf ++ r))
    (hother : ∀ u, Reached D e u → ¬ vf <+: u → ¬ vt <+: u → e' u = e u) :
    walked D e' = moved (walked D e) vf vt := by
  classical
  have ht : vt ≠ [] := fun he => htf (he ▸ List.nil_prefix)
  have habove : ∀ {v u : List N} {n : N}, u ++ [n] = v → ¬ v <+: u := by
    rintro _ u n rfl hle
    have := hle.length_le
    rw [List.length_append, List.length_singleton] at this
    omega
  refine (walked_unique ?_ fun u n => ?_).symm
  · have hnil : ∀ {v : List N}, v ≠ [] → ¬ v <+: [] := fun hv hle => hv (List.prefix_nil.1 hle)
    rw [moved_other (hnil ht) (hnil hf), walked_nil, hother [] reached_nil (hnil hf) (hnil ht)]
  · by_cases htu : vt <+: u
    · -- under the new place it is as it was under the old one
      obtain ⟨r, rfl⟩ := htu
      rw [List.append_assoc, moved_under, moved_under, ← List.append_assoc, walked_concat]
      by_cases hdir : walked D e (vf ++ r) = some D
      · have hreach := reached_concat (n := n).2 (walked_eq_dir.1 hdir)
        rw [if_pos hdir, if_pos hdir, List.append_assoc, hunder, ← List.append_assoc]
        rwa [← List.append_assoc]
      · rw [if_neg hdir, if_neg hdir]
    · by_cases hut : u ++ [n] = vt
      · -- the new place itself
        have hfu : ¬ vf <+: u := fun hle => hft (hut ▸ hle.trans (List.prefix_append u [n]))
        have hdir : walked D e u = some D := walked_eq_dir.2 (reached_concat.1 (hut ▸ hreacht))
        have hvt := @moved_under _ _ (walked D e) _ vf vt []
        have hat := hunder [] (by rwa [List.append_nil])
        rw [List.append_nil, List.append_nil] at hvt hat
        rw [moved_other htu hfu, if_pos hdir, hut, hvt, hat, walked_of_reached hreachf]
      · have htn : ¬ vt <+: u ++ [n] := fun hle => (List.prefix_concat_iff.1 hle).elim (fun he => hut he.symm) htu
        by_cases hfu : vf <+: u
        · rw [moved_left htn (hfu.trans (List.prefix_append u [n])), moved_left htu hfu, if_neg (by simp)]
        · rw [moved_other htu hfu]
          by_cases huf : u ++ [n] = vf
          · rw [moved_left htn (huf ▸ List.prefix_rfl), huf, hleft, ite_self]
          · have hfn : ¬ vf <+: u ++ [n] :=
              fun hle => (List.prefix_concat_iff.1 hle).elim (fun he => huf he.symm) hfu
            rw [moved_other htn hfn, walked_concat]
            by_cases hdir : walked D e u = some D
            · rw [if_pos hdir, if_pos hdir, hother _ (reached_concat.2 (walked_eq_dir.1 hdir)) hfn htn]
            · rw [if_neg hdir, if_neg hdir]

end

/-- Some entries exchanged. -/
def changed (t : List N → Option E) (f : E → E) (names : List N → Prop) [DecidablePred names] :
    List N → Option E :=
  fun u => if names u then (t u).map f else t u

/-- **When no more than some entries are exchanged**, none of them a directory. -/
theorem walked_changed {f : E → E} {names : List N → Prop} [DecidablePred names]
    (hother : ∀ u, Reached D e u → ¬ names u → e' u = e u)
    (hat : ∀ u, Reached D e u → names u → ∃ x, e u = some x ∧ x ≠ D ∧ f x ≠ D ∧ e' u = some (f x)) :
    walked D e' = changed (walked D e) f names := by
  classical
  have hdir : ∀ u, Reached D e u → (changed (walked D e) f names u = some D ↔ walked D e u = some D) := by
    intro u hu
    unfold changed
    split_ifs with hn
    · obtain ⟨x, hx, hxD, hfD, -⟩ := hat u hu hn
      rw [walked_of_reached hu, hx, Option.map_some]
      simp [hxD, hfD]
    · exact Iff.rfl
  have hnone : ∀ u, ¬ Reached D e u → changed (walked D e) f names u = none := by
    intro u hu
    unfold changed
    rw [show walked D e u = none from if_neg hu]
    simp
  have hone : ∀ u, Reached D e u → changed (walked D e) f names u = e' u := by
    intro u hu
    unfold changed
    rw [walked_of_reached hu]
    split_ifs with hn
    · obtain ⟨x, hx, -, -, hx'⟩ := hat u hu hn
      rw [hx, hx', Option.map_some]
    · exact (hother u hu hn).symm
  refine (walked_unique (hone [] reached_nil) fun u n => ?_).symm
  by_cases hu : walked D e u = some D
  · have hreach := walked_eq_dir.1 hu
    rw [if_pos ((hdir u hreach.1).2 hu), hone _ (reached_concat.2 hreach)]
  · rw [if_neg, hnone]
    · exact fun hc => hu (walked_eq_dir.2 (reached_concat.1 hc))
    · intro hc
      by_cases hreach : Reached D e u
      · exact hu ((hdir u hreach).1 hc)
      · rw [hnone u hreach] at hc
        cases hc

end Scene
