/-
**What the scene depends on.**

The scene of a mount is what a walk from its root finds.  In a mount with a writelayer and no kept
folder it is made of four things: the whiteouts, the entries of the writelayer, the directories that
mask what is below them, and what the layers below show, which no operation changes.  A step that
leaves the first three alone outside of one path leaves the scene alone there.

Main definitions:

* `served`, `scene` — the answers to single paths, and what can be walked to;
* `Beneath` — the layers below show the same as long as nothing beside the writelayer changes;
* `Orderly` — the masks are in step, nothing whiteouted is there, no file of the writelayer is one of
  a layer's, and the writelayer is on one file system;
* `SameScene`, `SameElse` — the scene is as it was, or so but for one path and what is below it.

Main results:

* `served_eq` — **the four things that an answer is made of**;
* `sameElse_of` — what changes at one path alone;
* `made_scene`, `copied_scene` — **directories made on the way and copies change nothing that shows**.
-/

import VidyaGodFS.CopyContent
import VidyaGodFS.LayerNames
import VidyaGodFS.Masks
import VidyaGodFS.Scene
import VidyaGodFS.Tidy

set_option relaxedAutoImplicit false
set_option autoImplicit false

namespace VidyaGodFS

open Posix

variable {M : Mount} {w : Path} {s₀ s s' s'' : VfsState} {u v : Path}

/-! ### The scene -/

/-- What the mount answers for a path; the markers are not part of what it shows. -/
def served (M : Mount) (s : VfsState) (v : Path) : Option Entry :=
  if Clean v then entryAt M s v else none

theorem clean_of_served (h : served M s v ≠ none) : Clean v := by
  by_contra hclean
  exact h (if_neg hclean)

/-- **What a walk from the root of the mount finds.** -/
noncomputable def scene (M : Mount) (s : VfsState) : Path → Option Entry :=
  Scene.walked .dir (served M s)

/-- What can be walked to. -/
abbrev Reached (M : Mount) (s : VfsState) (v : Path) : Prop := Scene.Reached .dir (served M s) v

/-- What can be walked to is what the kernel hands over. -/
theorem reached_iff (hclean : Clean v) : Reached M s v ↔ Walks M s v := by
  have hq : ∀ q, q <+: v → (served M s q = some .dir ↔ DirAt M s q) := by
    intro q hq
    rw [served, if_pos (hclean.of_le hq)]
    exact dirAt_iff.symm
  exact ⟨fun h q hle hne => (hq q hle).1 (h q hle hne), fun h q hle hne => (hq q hle).2 (h q hle hne)⟩

theorem Reached.walks (h : Reached M s v) (hclean : Clean v) : Walks M s v := (reached_iff hclean).1 h

/-! ### The layers below -/

/-- Nothing beside the writelayer has changed. -/
structure Beside (w : Path) (s s' : VfsState) : Prop where
  outside : SameOutside w s s'
  inode : ∀ q i, ¬ w <+: q → s.disk.tree.node q = some (.file i) → s'.disk.inode i = s.disk.inode i

theorem Beside.refl (s : VfsState) : Beside w s s := ⟨SameOutside.refl s, fun _ _ _ _ => rfl⟩

theorem Beside.trans (h : Beside w s s') (h' : Beside w s' s'') : Beside w s s'' where
  outside := h.outside.trans h'.outside
  inode q i hq hi := by
    rw [h'.inode q i hq ((h.outside q hq).trans hi), h.inode q i hq hi]

/-- **What the layers show below the writelayer**, whatever is done in it: an answer for each path, none
below a path without one, each name in the listing of its directory, and no name a marker's.  What is
found there shows, and what shows as a directory is taken for one. -/
structure Beneath (M : Mount) (w : Path) (s₀ : VfsState) (low : Path → Option Entry) : Prop where
  reads : ∀ s s', Beside w s₀ s → Beside w s₀ s' → ∀ v, Clean v →
    shown M s'.disk (lowerLookup M s v) = low v
  steady : ∀ s, Beside w s₀ s → ∀ v, Clean v → StoredWhole (lowerLookup M s v)
  shows : ∀ s, Beside w s₀ s → ∀ v, Clean v → low v = none → (lowerLookup M s v).isNone = true
  dirs : ∀ s s', Beside w s₀ s → Beside w s₀ s' → ∀ v, Clean v → low v = some .dir →
    dirHit s' (lowerLookup M s v) = true
  closed : ∀ v n, v ≠ [] → low v = none → low (v ++ [n]) = none
  listed : ∀ s, Beside w s₀ s → ∀ v n, Clean (v ++ [n]) → low (v ++ [n]) ≠ none →
    n ∈ ((lowerListing M v false : View Listing) s).names
  plain : PlainLayers M w s₀

/-- **A state in good order.** -/
structure Orderly (w : Path) (s₀ s : VfsState) : Prop where
  synced : Synced w s
  beside : Beside w s₀ s
  apart : ∀ x q i, Clean x → s.disk.tree.node (w ++ x) = some (.file i) → ¬ w <+: q →
    s.disk.tree.node q ≠ some (.file i)
  exclusive : ∀ v ∈ s.whiteoutSet, Clean v → s.disk.tree.node (w ++ v) = none
  device : ∀ v, s.disk.dev (w ++ v) = s.disk.dev w

/-- What keeps a state in good order. -/
theorem Orderly.step (h : Orderly w s₀ s) (hset : Settled w s s') (holder : Older s.disk s'.disk)
    (hfiles : ∀ x i, Clean x → s'.disk.tree.node (w ++ x) = some (.file i) →
      s.disk.next ≤ i ∨ ∃ y, Clean y ∧ s.disk.tree.node (w ++ y) = some (.file i))
    (hexcl : ∀ v ∈ s'.whiteoutSet, Clean v → s'.disk.tree.node (w ++ v) = none) : Orderly w s₀ s' where
  synced := hset.synced
  beside := h.beside.trans ⟨hset.outside, fun q i _ hi => holder.inode i (s.disk.ino_lt q i hi)⟩
  apart x q i hx hi hq := by
    rw [hset.outside q hq]
    intro hqi
    rcases hfiles x i hx hi with hnew | ⟨y, hy, hold⟩
    · have := s.disk.ino_lt q i hqi
      omega
    · exact h.apart y q i hy hold hq hqi
  exclusive := hexcl
  device v := by rw [holder.dev, h.device v]

/-- What is in the writelayer is not whiteouted. -/
theorem Orderly.notMem_of_node (h : Orderly w s₀ s) (hclean : Clean v) {nd : Node}
    (hnode : s.disk.tree.node (w ++ v) = some nd) : v ∉ s.whiteoutSet := by
  intro hmem
  rw [h.exclusive v hmem hclean] at hnode
  cases hnode

/-! ### The answers -/

/-- A directory strictly above `v` masks what is below it. -/
def Covered (s : VfsState) (v : Path) : Prop := ∃ q, q <+: v ∧ q ≠ v ∧ q ∈ s.opaqueSet

open Classical in
/-- **The four things that an answer is made of.** -/
noncomputable def stacked (w : Path) (low : Path → Option Entry) (s : VfsState) (v : Path) : Option Entry :=
  if v ∈ s.whiteoutSet then none
  else
    match s.disk.tree.node (w ++ v) with
    | some nd => some (s.disk.entryOf nd)
    | none => if Covered s v then none else low v

theorem isWhiteouted_iff (hM : M.writelayer = some w) (hv : v ≠ []) :
    isWhiteouted M s v = true ↔ v ∈ s.whiteoutSet := by
  simp [isWhiteouted, hM, hv]

/-- Below directories that show, only those that mask what is below them mask. -/
theorem masked_iff (hM : M.writelayer = some w) (hv : v ≠ []) (hwh : ∀ q, q <+: v → q ≠ v → q ∉ s.whiteoutSet) :
    masked M s v = true ↔ Covered s v := by
  have hanc : ∀ q, q ∈ addAncestors v ↔ q <+: v ∧ q ≠ [] ∧ q ≠ v := by
    intro q
    simp [addAncestors, List.mem_inits]
  rw [masked, Bool.or_eq_true]
  constructor
  · rintro (hopq | hunder)
    · simp only [isUnderOpaque, hM, Option.isSome_some, Bool.true_and, List.any_eq_true,
        decide_eq_true_eq] at hopq
      obtain ⟨q, hq, hmem⟩ := hopq
      rcases List.mem_cons.1 hq with rfl | hq
      · exact ⟨[], List.nil_prefix, Ne.symm hv, hmem⟩
      · obtain ⟨hle, -, hne⟩ := (hanc q).1 hq
        exact ⟨q, hle, hne, hmem⟩
    · simp only [isUnderWhiteout, hM, Option.isSome_some, Bool.true_and, List.any_eq_true,
        decide_eq_true_eq] at hunder
      obtain ⟨q, hq, hmem⟩ := hunder
      obtain ⟨hle, -, hne⟩ := (hanc q).1 hq
      exact absurd hmem (hwh q hle hne)
  · rintro ⟨q, hle, hne, hmem⟩
    refine Or.inl ?_
    simp only [isUnderOpaque, hM, Option.isSome_some, Bool.true_and, List.any_eq_true,
      decide_eq_true_eq]
    by_cases hq : q = []
    · exact ⟨[], by simp, hq ▸ hmem⟩
    · exact ⟨q, List.mem_cons_of_mem _ ((hanc q).2 ⟨hle, hq, hne⟩), hmem⟩

section

variable {low : Path → Option Entry} (hM : M.writelayer = some w) (hb : Beneath M w s₀ low)
include hM

/-- The way to what can be walked to is open. -/
theorem Orderly.openWay (h : Orderly w s₀ s) (hv : Reached M s v) (hclean : Clean v) :
    OpenWay w s.disk.tree v := (hv.walks hclean).openWay hM h.synced.shape

/-- What shows is not whiteouted. -/
theorem Orderly.not_whiteouted (h : Orderly w s₀ s) (hv : Reached M s v) (hshow : served M s v ≠ none) :
    v ∉ s.whiteoutSet := by
  intro hmem
  have hne : v ≠ [] := fun he => h.synced.root (he ▸ hmem)
  have hclean : Clean v := clean_of_served hshow
  rw [served, if_pos hclean, entryAt, if_neg hne, lookup_eq hM h.synced.shape (h.openWay hM hv hclean),
    if_pos ((isWhiteouted_iff hM hne).2 hmem)] at hshow
  exact hshow rfl

theorem Reached.not_whiteouted (h : Orderly w s₀ s) (hv : Reached M s v) {q : Path} (hq : q <+: v)
    (hne : q ≠ v) : q ∉ s.whiteoutSet :=
  h.not_whiteouted hM (hv.of_le hq) (by rw [hv q hq hne]; simp)

include hb

/-- What shows is stored whole, if it is of an archive. -/
theorem Orderly.steady (h : Orderly w s₀ s) (hv : Reached M s v) (hclean : Clean v) :
    StoredWhole (lookup M s v) := by
  rw [lookup_eq hM h.synced.shape (h.openWay hM hv hclean)]
  split_ifs
  · trivial
  · trivial
  · trivial
  · exact hb.steady s h.beside v hclean

/-- **The four things that an answer is made of**: deleted, in the writelayer, masked, or from below. -/
theorem served_eq (h : Orderly w s₀ s) (hv : Reached M s v) (hclean : Clean v) (hne : v ≠ []) :
    served M s v = stacked w low s v := by
  have hway := h.openWay hM hv hclean
  rw [served, if_pos hclean, entryAt, if_neg hne, lookup_eq hM h.synced.shape hway, stacked]
  by_cases hgone : v ∈ s.whiteoutSet
  · rw [if_pos hgone, if_pos ((isWhiteouted_iff hM hne).2 hgone)]
    rfl
  · rw [if_neg hgone, if_neg fun hc => hgone ((isWhiteouted_iff hM hne).1 hc)]
    cases hnode : s.disk.tree.node (w ++ v) with
    | some nd =>
        rw [if_pos (by simp)]
        have hfollow : followsLinks M (.writeLayer (some (w ++ v))) = false := by
          simp [followsLinks, ResolveResult.isWriteLayer]
        rw [shown, hfollow, Disk.entryAt_straight (h.synced.shape.straight hway), hnode]
        rfl
    | none =>
        have hmask := masked_iff (s := s) hM hne fun q hq hqv => hv.not_whiteouted hM h hq hqv
        rw [if_neg (not_not.2 rfl)]
        dsimp only
        by_cases hcov : Covered s v
        · rw [if_pos hcov, if_pos (hmask.2 hcov)]
          rfl
        · rw [if_neg hcov, if_neg fun hc => hcov (hmask.1 hc)]
          exact hb.reads s s h.beside h.beside v hclean

/-- **Where the four things agree the answers do.**  An entry of the writelayer may be new where it is
a copy of what showed. -/
theorem served_frame (h : Orderly w s₀ s) (h' : Orderly w s₀ s') {P : Path → Prop}
    (hP : ∀ u q, P u → q <+: u → P q)
    (hwh : ∀ u, P u → (u ∈ s'.whiteoutSet ↔ u ∈ s.whiteoutSet))
    (hopq : ∀ u q, P u → q <+: u → q ≠ u → (q ∈ s'.opaqueSet ↔ q ∈ s.opaqueSet))
    (hold : ∀ u nd, P u → Clean u → s.disk.tree.node (w ++ u) = some nd →
      ∃ nd', s'.disk.tree.node (w ++ u) = some nd' ∧ s'.disk.entryOf nd' = s.disk.entryOf nd)
    (hnew : ∀ u nd, P u → Clean u → s.disk.tree.node (w ++ u) = none →
      s'.disk.tree.node (w ++ u) = some nd → Reached M s u → served M s u = some (s'.disk.entryOf nd)) :
    ∀ u, P u → Reached M s u → Reached M s' u ∧ served M s' u = served M s u := by
  intro u
  induction u using List.reverseRecOn with
  | nil => exact fun _ _ => ⟨Scene.reached_nil, rfl⟩
  | append_singleton u n ih =>
      intro hPu hu
      obtain ⟨hreach, hdir⟩ := Scene.reached_concat.1 hu
      obtain ⟨hreach', heq⟩ := ih (hP _ u hPu (List.prefix_append u [n])) hreach
      have hu' : Reached M s' (u ++ [n]) := Scene.reached_concat.2 ⟨hreach', heq.trans hdir⟩
      refine ⟨hu', ?_⟩
      by_cases hclean : Clean (u ++ [n])
      · rw [served_eq hM hb h' hu' hclean (by simp)]
        have hcov : Covered s' (u ++ [n]) ↔ Covered s (u ++ [n]) :=
          exists_congr fun q => and_congr_right fun hq => and_congr_right fun hne => hopq _ q hPu hq hne
        cases hnode : s.disk.tree.node (w ++ (u ++ [n])) with
        | some nd =>
            obtain ⟨nd', hnode', hentry⟩ := hold _ nd hPu hclean hnode
            rw [served_eq hM hb h hu hclean (by simp), stacked, stacked, hnode, hnode']
            simp only [hwh _ hPu, hentry]
        | none =>
            cases hnode' : s'.disk.tree.node (w ++ (u ++ [n])) with
            | some nd =>
                have hshow := hnew _ nd hPu hclean hnode hnode' hu
                have hgone := h.not_whiteouted hM hu (by rw [hshow]; simp)
                rw [stacked, if_neg fun hc => hgone ((hwh _ hPu).1 hc), hnode', hshow]
            | none =>
                rw [served_eq hM hb h hu hclean (by simp), stacked, stacked, hnode, hnode']
                refine if_congr (hwh _ hPu) rfl ?_
                dsimp only
                by_cases hc : Covered s' (u ++ [n])
                · rw [if_pos hc, if_pos (hcov.1 hc)]
                · rw [if_neg hc, if_neg fun h => hc (hcov.2 h)]
      · rw [served, served, if_neg hclean, if_neg hclean]

/-- Directories made on the way to what can be walked to change no answer. -/
theorem served_made (h : Orderly w s₀ s) (h' : Orderly w s₀ s') {P : Path → Prop}
    (hP : ∀ u q, P u → q <+: u → P q) (hv : Reached M s v)
    (hwh : ∀ u, P u → (u ∈ s'.whiteoutSet ↔ u ∈ s.whiteoutSet))
    (hopq : ∀ u, P u → (u ∈ s'.opaqueSet ↔ u ∈ s.opaqueSet))
    (hnode : ∀ u, P u → Clean u → s'.disk.tree.node (w ++ u) = s.disk.tree.node (w ++ u) ∨
      u <+: v ∧ u ≠ v ∧ s.disk.tree.node (w ++ u) = none ∧ s'.disk.tree.IsDir (w ++ u))
    (holder : Older s.disk s'.disk) :
    ∀ u, P u → Reached M s u → Reached M s' u ∧ served M s' u = served M s u := by
  refine served_frame hM hb h h' hP hwh (fun u q hu hq _ => hopq q (hP u q hu hq))
    (fun u nd hu hclean hnd => ?_) fun u nd hu hclean hnone hnd _ => ?_
  · rcases hnode u hu hclean with he | ⟨-, -, hnone, -⟩
    · exact ⟨nd, he.trans hnd, holder.entryOf hnd⟩
    · rw [hnone] at hnd
      cases hnd
  · rcases hnode u hu hclean with he | ⟨hle, hne, -, m, hm⟩
    · rw [he, hnone] at hnd
      cases hnd
    · obtain rfl := Option.some_inj.1 (hm.symm.trans hnd)
      exact hv u hle hne

/-- **Nothing that shows has changed.** -/
def SameScene (M : Mount) (s s' : VfsState) : Prop :=
  ∀ u, Reached M s u → Reached M s' u ∧ served M s' u = served M s u

/-- **The scene is as it was, but for `v` and what is below it.** -/
def SameElse (M : Mount) (v : Path) (s s' : VfsState) : Prop :=
  ∀ u, ¬ v <+: u → Reached M s u → served M s' u = served M s u

omit hb hM in
theorem SameScene.refl (s : VfsState) : SameScene M s s := fun _ hu => ⟨hu, rfl⟩

omit hb hM in
theorem SameScene.trans (h : SameScene M s s') (h' : SameScene M s' s'') : SameScene M s s'' :=
  fun u hu => ⟨(h' u (h u hu).1).1, (h' u (h u hu).1).2.trans (h u hu).2⟩

omit hb hM in
theorem SameScene.scene_eq (h : SameScene M s s') : scene M s' = scene M s :=
  Scene.walked_congr fun u hu => (h u hu).2

omit hb hM in
theorem SameScene.else (h : SameScene M s s') (v : Path) : SameElse M v s s' := fun u _ hu => (h u hu).2

omit hb hM in
theorem SameElse.refl (s : VfsState) : SameElse M v s s := fun _ _ _ => rfl

omit hb hM in
/-- What can be walked to stays so. -/
theorem SameElse.reached (h : SameElse M v s s') (hu : Reached M s u) (hne : u = v ∨ ¬ v <+: u) :
    Reached M s' u := by
  intro q hq hqu
  have hnot : ¬ v <+: q := by
    intro hle
    rcases hne with rfl | hne
    · exact hqu (hq.eq_of_length_le hle.length_le)
    · exact hne (hle.trans hq)
  rw [h q hnot (hu.of_le hq), hu q hq hqu]

omit hb hM in
theorem SameElse.trans (h : SameElse M v s s') (h' : SameElse M v s' s'') : SameElse M v s s'' :=
  fun u hu hreach => (h' u hu (h.reached hreach (Or.inr hu))).trans (h u hu hreach)

/-- **What changes at one path alone**, but for directories made on the way to it. -/
theorem sameElse_of (h : Orderly w s₀ s) (h' : Orderly w s₀ s') (hv : Reached M s v)
    (hwh : ∀ u, u ≠ v → ¬ v <+: u → (u ∈ s'.whiteoutSet ↔ u ∈ s.whiteoutSet))
    (hopq : ∀ u, u ≠ v → ¬ v <+: u → (u ∈ s'.opaqueSet ↔ u ∈ s.opaqueSet))
    (hnode : ∀ u, ¬ v <+: u → Clean u → s'.disk.tree.node (w ++ u) = s.disk.tree.node (w ++ u) ∨
      u <+: v ∧ u ≠ v ∧ s.disk.tree.node (w ++ u) = none ∧ s'.disk.tree.IsDir (w ++ u))
    (holder : Older s.disk s'.disk) : SameElse M v s s' := by
  have hself : ∀ u, ¬ v <+: u → u ≠ v := by
    rintro u hu rfl
    exact hu List.prefix_rfl
  exact fun u hu hreach => (served_made hM hb h h' (P := fun u => ¬ v <+: u)
    (fun _ _ hu hq hc => hu (hc.trans hq)) hv (fun u hu => hwh u (hself u hu) hu)
    (fun u hu => hopq u (hself u hu) hu) hnode holder u hu hreach).2

/-- **A copy of what shows changes nothing that shows.** -/
theorem copied_scene (h : Orderly w s₀ s) (h' : Orderly w s₀ s') {x : Entry} (hc : Copied w v s s' x)
    (hnone : s.disk.tree.node (w ++ v) = none) (hx : served M s v = some x) : SameScene M s s' := by
  refine fun u => served_frame hM hb h h' (P := fun _ => True) (fun _ _ _ _ => trivial)
    (fun u _ => by rw [hc.whiteoutSet]) (fun _ q _ _ _ => by rw [hc.opaqueSet])
    (fun u nd _ _ hnd => ?_) (fun u nd _ _ hnone' hnd _ => ?_) u trivial
  · refine ⟨nd, (hc.other _ fun he => ?_).trans hnd, hc.older.entryOf hnd⟩
    rw [he, hnone] at hnd
    cases hnd
  · by_cases huv : u = v
    · subst huv
      obtain ⟨nd', hnd', hentry, -⟩ := hc.entry
      obtain rfl := Option.some_inj.1 (hnd'.symm.trans hnd)
      rw [hx, hentry]
    · rw [hc.other _ fun he => huv (List.append_cancel_left he), hnone'] at hnd
      cases hnd

omit hb hM in
/-- What is where directories were made on the way to `v`. -/
theorem MadeDirs.node_or {w v : Path} (hm : MadeDirs w v.dropLast s s') (hne : v ≠ []) (u : Path) :
    s'.disk.tree.node (w ++ u) = s.disk.tree.node (w ++ u) ∨
      u <+: v ∧ u ≠ v ∧ s.disk.tree.node (w ++ u) = none ∧ s'.disk.tree.IsDir (w ++ u) := by
  have hnode := hm.tree (w ++ u)
  simp only [append_le_append] at hnode
  by_cases hmade : u <+: v.dropLast ∧ s.disk.tree.node (w ++ u) = none
  · rw [if_pos hmade] at hnode
    refine Or.inr ⟨hmade.1.trans (List.dropLast_prefix v), ?_, hmade.2, _, hnode⟩
    rintro rfl
    have hlen := hmade.1.length_le
    rw [List.length_dropLast] at hlen
    have := List.length_pos_iff.2 hne
    omega
  · rw [if_neg hmade] at hnode
    exact Or.inl hnode

/-- **Directories made on the way change nothing that shows.** -/
theorem made_scene (h : Orderly w s₀ s) (h' : Orderly w s₀ s') (hm : MadeDirs w v.dropLast s s')
    (holder : Older s.disk s'.disk) (hv : Reached M s v) (hne : v ≠ []) : SameScene M s s' :=
  fun u => served_made hM hb h h' (P := fun _ => True) (fun _ _ _ _ => trivial) hv
    (fun u _ => by rw [hm.whiteoutSet]) (fun u _ => by rw [hm.opaqueSet])
    (fun u _ _ => hm.node_or hne u) holder u trivial

omit hb hM in
/-- **A scene with one entry changed.** -/
theorem scene_put (hv : v ≠ []) (hreach : Reached M s v) {x : Option Entry} (h : SameElse M v s s')
    (hat : served M s' v = x) (hempty : ∀ k, scene M s (v ++ [k]) = none)
    (hbelow : x = some .dir → ∀ k, served M s' (v ++ [k]) = none) :
    scene M s' = Scene.put (scene M s) v x :=
  Scene.walked_put hv hreach hat (fun u hu hnot => h u hnot hu) hempty hbelow

end

end VidyaGodFS
