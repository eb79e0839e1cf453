/-
**A directory that stays where it is.**

A tree changes by names that are put, taken out, moved, and by modes.  A directory is *spared* by a
change that neither takes it out nor moves it, with whatever lies above it, nor moves anything to its
place.  Whatever happens inside it, it stays the directory it was.

A path that no link lies on leads nowhere but to its own place.

Main definitions:

* `Tree.Spares`, `Tree.Spared` — changes of a tree that spare what is at a path;
* `Tree.Plain` — no link lies on the way to a path.

Main results:

* `Tree.Spared.isDir` — **a spared directory stays a directory**;
* `Tree.locate_plain` — **a plain path leads to its own place**;
* `Disk.rename_spared`, `Disk.rmdir_spared` — what is moved or removed elsewhere spares a directory.
-/

import Mathlib.Logic.Relation
import VidyaGodFS.Straight

set_option relaxedAutoImplicit false
set_option autoImplicit false

namespace Posix

namespace Tree

variable {t t' t'' : Tree} {p q : Path}

/-! ### Changes that spare a directory -/

/-- A change that neither takes out nor moves what is at `p`, and moves nothing there. -/
inductive Spares (p : Path) (t : Tree) : Tree → Prop
  | put (q : Path) (nd : Node) (h : t.CanPut q nd) (hq : t.node q = none) : Spares p t (t.put q nd h)
  | erase (q : Path) (h : t.CanErase q) (hq : q ≠ p) : Spares p t (t.erase q h)
  | move (a b : Path) (h : t.CanMove a b) (ha : ¬ a <+: p) (hb : b ≠ p) : Spares p t (t.move a b h)
  | setMode (q : Path) (m : ℕ) (h : t.IsDir q) : Spares p t (t.setMode q m h)

/-- Changes that spare what is at `p`, one after the other. -/
def Spared (p : Path) : Tree → Tree → Prop := Relation.ReflTransGen (Spares p)

theorem Spares.isDir (h : Spares p t t') (hp : t.IsDir p) : t'.IsDir p := by
  obtain ⟨m, hm⟩ := hp
  cases h with
  | put q nd h hq =>
      have hne : p ≠ q := by
        rintro rfl
        rw [hm] at hq
        cases hq
      exact ⟨m, by rw [put_node, if_neg hne, hm]⟩
  | erase q h hq => exact ⟨m, by rw [erase_node, if_neg hq.symm, hm]⟩
  | move a b h ha hb =>
      -- the place that is moved to is empty, so nothing lies below it
      have hnot : ¬ b <+: p := fun hle => by
        rw [node_eq_none_of_children h.2.2.2.2.2 hle hb] at hm
        cases hm
      exact ⟨m, by rw [move_node, if_neg hnot, if_neg ha, hm]⟩
  | setMode q m' h =>
      by_cases hq : p = q
      · exact ⟨m', by rw [setMode_node, if_pos hq]⟩
      · exact ⟨m, by rw [setMode_node, if_neg hq, hm]⟩

namespace Spared

theorem refl (t : Tree) : Spared p t t := Relation.ReflTransGen.refl

theorem of_eq (h : t' = t) : Spared p t t' := by
  rw [h]
  exact refl t

theorem trans (h : Spared p t t') (h' : Spared p t' t'') : Spared p t t'' :=
  Relation.ReflTransGen.trans h h'

theorem step (h : Spares p t t') : Spared p t t' := Relation.ReflTransGen.single h

/-- **A spared directory stays a directory.** -/
theorem isDir (h : Spared p t t') (hp : t.IsDir p) : t'.IsDir p := by
  induction h with
  | refl => exact hp
  | tail _ hstep ih => exact hstep.isDir ih

end Spared

/-! ### Plain paths -/

/-- No link lies on the way to `p`. -/
def Plain (t : Tree) (p : Path) : Prop :=
  ∀ q, q <+: p → q ≠ p → ∀ target, t.node q ≠ some (.link target)

/-- The way to an entry of a directory that is there at its own place is plain. -/
theorem plain_of_parent (h : t.IsDir p.dropLast) : t.Plain p := by
  intro q hq hne target hlink
  have hle : q <+: p.dropLast := by
    rcases p.eq_nil_or_concat' with rfl | ⟨r, n, rfl⟩
    · exact absurd (List.prefix_nil.1 hq) hne
    · rw [append_singleton_dropLast]
      exact (List.prefix_concat_iff.1 hq).resolve_left hne
  have hdir : t.IsDir q := by
    by_cases heq : q = p.dropLast
    · rw [heq]
      exact h
    · exact t.isDir_above h.ne_none hle heq
  obtain ⟨m, hm⟩ := hdir
  rw [hm] at hlink
  cases hlink

theorem walk_plain :
    ∀ (rest : List Name) (cur : Path),
      (∀ q, cur <+: q → q <+: cur ++ rest → q ≠ cur ++ rest →
        ∀ target, t.node q ≠ some (.link target)) →
      (∃ e, t.walk false cur (rest.map .name) = .stuck e) ∨
        t.walk false cur (rest.map .name) = .arrived (cur ++ rest) := by
  intro rest
  induction rest with
  | nil => exact fun cur _ => Or.inr (by simp [walk])
  | cons n rest ih =>
      intro cur hplain
      have happ : cur ++ n :: rest = cur ++ [n] ++ rest := by simp
      rw [List.map_cons, walk]
      by_cases hs : canSearch (t.dirMode cur) = true
      · rw [if_pos hs]
        cases hnode : t.node (cur ++ [n]) with
        | none =>
            dsimp only
            by_cases hrest : rest = []
            · subst hrest
              exact Or.inr rfl
            · rw [if_neg (by simpa using hrest)]
              exact Or.inl ⟨_, rfl⟩
        | some nd =>
            cases nd with
            | dir m =>
                rw [happ]
                refine ih (cur ++ [n]) fun q hq hle hne => ?_
                rw [← happ] at hle hne
                exact hplain q ((List.prefix_append _ _).trans hq) hle hne
            | file i =>
                dsimp only
                by_cases hrest : rest = []
                · subst hrest
                  exact Or.inr rfl
                · rw [if_neg (by simpa using hrest)]
                  exact Or.inl ⟨_, rfl⟩
            | link target =>
                dsimp only
                by_cases hrest : rest = []
                · subst hrest
                  exact Or.inr rfl
                · refine absurd hnode (hplain _ (List.prefix_append _ _) ⟨rest, happ.symm⟩ ?_ target)
                  rw [happ]
                  simpa using Ne.symm hrest
      · rw [if_neg hs]
        exact Or.inl ⟨_, rfl⟩

/-- **A plain path leads to its own place**, if it leads anywhere. -/
theorem locate_plain (h : t.Plain p) (hq : t.locate false p = .ok q) : q = p := by
  unfold locate locateFrom at hq
  rcases walk_plain p [] (fun q _ hle hne => h q hle hne) with ⟨e, hw⟩ | hw
  · rw [hw] at hq
    cases hq
  · rw [hw] at hq
    exact (Except.ok.inj hq).symm

end Tree

/-! ### Calls that spare a directory -/

namespace Disk

variable {d : Disk} {p : Path}

/-- A removal elsewhere. -/
theorem rmdir_spared {hp : HostPath} (h : ∀ q, d.find false hp = .ok q → q ≠ p) :
    Tree.Spared p d.tree (rmdir hp d).2.tree := by
  rcases rmdir_cases hp d with ⟨e, hf⟩ | ⟨q, hq, -, -, herase, hrun⟩
  · rw [hf]
    exact Tree.Spared.refl _
  · rw [hrun]
    exact Tree.Spared.step (Tree.Spares.erase q herase (h q hq))

/-- A move of what lies elsewhere to elsewhere. -/
theorem rename_spared {src dst : HostPath} (hsrc : ∀ a, d.find false src = .ok a → ¬ a <+: p)
    (hdst : ∀ b, d.find false dst = .ok b → b ≠ p) :
    Tree.Spared p d.tree (rename src dst d).2.tree := by
  rcases rename_cases src dst d with ⟨e, hf⟩ | ⟨a, b, ha, hb, ⟨-, -, hrun⟩ | ⟨-, -, -, hmove, hrun⟩⟩
  · rw [hf]
    exact Tree.Spared.refl _
  · rw [hrun]
    exact Tree.Spared.refl _
  · rw [hrun]
    exact Tree.Spared.step (Tree.Spares.move a b hmove (hsrc a ha) (hdst b hb))

end Disk

end Posix
