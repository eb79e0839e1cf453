/-
**What a directory lists.**

A listing merges the names that the writelayer and the layers hold, and leaves out those that a marker
hides.  It does not ask whether a directory further up masks what it has gathered; the typed listing
does, for it leaves out what has no attributes.  So the typed listing of a directory is what shows in
it: each name once, with the attributes of what a walk finds there.

Main definitions:

* `typedListing` — the names with their attributes, as a function of the state.

Main results:

* `mem_listing` — the names that are gathered;
* `Orderly.listed` — **every name that shows is listed**;
* `readdir_shows` — **the typed listing is what shows**.
-/

import VidyaGodFS.Remount
import VidyaGodFS.SceneFrame

set_option relaxedAutoImplicit false
set_option autoImplicit false

namespace VidyaGodFS

open Posix

variable {M : Mount} {w : Path} {s : VfsState} {v : Path} {n : Name}

/-! ### The names that are gathered -/

/-- The names in the writelayer's directory, whether it is there or not. -/
theorem writeNames_eq (hM : M.writelayer = some w) (hs : Shape w s.disk.tree)
    (hv : OpenWay w s.disk.tree v)
    (hdir : s.disk.tree.node (w ++ v) = none ∨ s.disk.tree.IsDir (w ++ v)) :
    (writeNames M v : View (List Name)) s = s.disk.tree.children (w ++ v) := by
  have hrun : (writeNames M v : View (List Name)) s = s.disk.readDir (some (w ++ v)) := by
    unfold writeNames
    rw [if_neg (by simp [hM]), wlPath_eq hM]
    rfl
  rw [hrun]
  rcases hdir with hnone | hdir
  · have hempty : s.disk.tree.children (w ++ v) = [] :=
      Tree.children_eq_nil_iff.2 fun n => Tree.node_eq_none_below hnone (List.prefix_append _ _)
    have hlink : ∀ target, s.disk.tree.node (w ++ v) = some (.link target) → true = false := by
      simp [hnone]
    rw [hempty, Disk.readDir]
    rcases (hs.straight hv).locate hlink with hok | ⟨herr, -⟩
    · rw [Disk.find, hok]
      dsimp only
      rw [Tree.dirMode, hnone]
      exact if_neg (by decide)
    · rw [Disk.find, herr]
  · exact hs.readDir hdir

theorem mem_markedNames {names : List Name} :
    n ∈ markedNames names ↔ mark n ≠ opaqueName ∧ mark n ∈ names := by
  simp only [markedNames, List.mem_map, List.mem_filter, Bool.and_eq_true, decide_eq_true_eq]
  constructor
  · rintro ⟨k, ⟨hk, hmark, hopq⟩, rfl⟩
    rw [mark_unmark hmark]
    exact ⟨hopq, hk⟩
  · rintro ⟨hopq, hmem⟩
    exact ⟨mark n, ⟨hmem, isMarker_mark n, hopq⟩, unmark_mark n⟩

/-- **The names that a listing gathers**: those of the writelayer, and those from below where its
directory does not mask them, but for the whiteouted ones. -/
theorem mem_listing (hM : M.writelayer = some w) (hk : NoKept M) (hs : Synced w s)
    (hv : OpenWay w s.disk.tree v)
    (hdir : s.disk.tree.node (w ++ v) = none ∨ s.disk.tree.IsDir (w ++ v)) :
    n ∈ listing M s v ↔ v ++ [n] ∉ s.whiteoutSet ∧
      (isMarker n = false ∧ s.disk.tree.node (w ++ v ++ [n]) ≠ none ∨
        v ∉ s.opaqueSet ∧ n ∈ ((lowerListing M v false : View Listing) s).names) := by
  change n ∈ sortNames _ ↔ _
  rw [sortNames, List.mem_insertionSort, List.mem_dedup, List.mem_filter, List.mem_append,
    writeNames_eq hM hs.shape hv hdir, lowerListing_keptWhiteouts hk]
  have hhidden : n ∈ markedNames (s.disk.tree.children (w ++ v)) ↔ v ++ [n] ∈ s.whiteoutSet := by
    rw [mem_markedNames, Tree.mem_children, hs.whiteouts]
  have hmasked : opaqueName ∈ s.disk.tree.children (w ++ v) ↔ v ∈ s.opaqueSet := by
    rw [Tree.mem_children, hs.opaques]
  have hlower : n ∈ ((lowerListing M v (opaqueName ∈ s.disk.tree.children (w ++ v)) : View Listing) s).names ↔
      v ∉ s.opaqueSet ∧ n ∈ ((lowerListing M v false : View Listing) s).names := by
    by_cases hopq : v ∈ s.opaqueSet
    · rw [decide_eq_true (hmasked.2 hopq)]
      exact iff_of_false List.not_mem_nil fun hc => hc.1 hopq
    · rw [decide_eq_false fun hc => hopq (hmasked.1 hc)]
      exact (and_iff_right hopq).symm
  rw [hlower, List.mem_filter, Tree.mem_children]
  simp only [hhidden, List.not_mem_nil, false_imp_iff, and_true, decide_eq_true_eq, Bool.not_eq_true']
  rw [and_comm, and_comm (a := isMarker n = false)]

/-- No name is listed twice. -/
theorem listing_nodup (M : Mount) (s : VfsState) (v : Path) : (listing M s v).Nodup := by
  change (sortNames _).Nodup
  exact (List.perm_insertionSort _ _).nodup_iff.2 (List.nodup_dedup _)

/-! ### The typed listing -/

/-- The plain reading of `vfsReaddirTyped`. -/
def typedListing (M : Mount) (s : VfsState) (v : Path) : List (Name × VfsAttr) :=
  (vfsReaddirTyped M v : View (List (Name × VfsAttr))) s

/-- Lookups read plainly are sequenced as functions are. -/
theorem View.lawful : LawfulMonad View :=
  LawfulMonad.mk' _ (fun _ => rfl) (fun _ _ => rfl) (fun _ _ _ => rfl)

/-- The typed listing is the listing without the names that have no attributes. -/
theorem typedListing_eq (M : Mount) (s : VfsState) (v : Path) : typedListing M s v =
    (listing M s v).filterMap fun n => (attr M s (v ++ [n])).toOption.map fun a => (n, a) := by
  rw [typedListing, vfsReaddirTyped, View.bind_apply,
    show (collectChildren M v : View (List Name)) s = listing M s v from rfl]
  induction listing M s v with
  | nil => rfl
  | cons n names ih =>
      have := View.lawful
      rw [List.foldrM_cons, View.bind_apply, ih, View.bind_apply, List.filterMap_cons,
        show (vfsGetattr M (v ++ [n]) : View (Except Errno VfsAttr)) s = attr M s (v ++ [n]) from rfl]
      cases attr M s (v ++ [n]) <;> rfl

theorem mem_typedListing {a : VfsAttr} :
    (n, a) ∈ typedListing M s v ↔ n ∈ listing M s v ∧ attr M s (v ++ [n]) = .ok a := by
  rw [typedListing_eq, List.mem_filterMap]
  constructor
  · rintro ⟨k, hk, he⟩
    cases hattr : attr M s (v ++ [k]) with
    | error e =>
        rw [hattr] at he
        cases he
    | ok b =>
        rw [hattr] at he
        obtain ⟨rfl, rfl⟩ : k = n ∧ b = a := by simpa [Except.toOption] using he
        exact ⟨hk, hattr⟩
  · rintro ⟨hn, hattr⟩
    exact ⟨n, hn, by rw [hattr]; rfl⟩

/-- No name is in the typed listing twice. -/
theorem typedListing_nodup (M : Mount) (s : VfsState) (v : Path) :
    ((typedListing M s v).map Prod.fst).Nodup := by
  rw [typedListing_eq, List.map_filterMap]
  refine (listing_nodup M s v).filterMap ?_
  intro n k b hn hk
  cases hattr : attr M s (v ++ [n]) <;> cases hattr' : attr M s (v ++ [k]) <;>
    simp_all [Except.toOption]

/-! ### What shows -/

theorem dirAt_of_served (hclean : Clean v) (hdir : served M s v = some .dir) : DirAt M s v := by
  rw [served, if_pos hclean] at hdir
  exact dirAt_iff.2 hdir

section

variable {s₀ : VfsState} {low : Path → Option Entry} (hM : M.writelayer = some w) (hk : NoKept M)
  (hb : Beneath M w s₀ low)
include hM hk hb

/-- **Every name that shows is listed.** -/
theorem Orderly.listed (h : Orderly w s₀ s) (hv : Reached M s (v ++ [n]))
    (hshow : served M s (v ++ [n]) ≠ none) : n ∈ listing M s v := by
  obtain ⟨hreach, hdir⟩ := Scene.reached_concat.1 hv
  have hclean : Clean (v ++ [n]) := clean_of_served hshow
  obtain ⟨hcleanv, hn⟩ := clean_concat.1 hclean
  have hway := h.openWay hM hreach hcleanv
  have hnode := (dirAt_of_served hcleanv hdir).node hM h.synced.shape hway
  rw [mem_listing hM hk h.synced hway hnode]
  have hgone := h.not_whiteouted hM hv hshow
  refine ⟨hgone, ?_⟩
  rw [served_eq hM hb h hv hclean (by simp), stacked, if_neg hgone, ← List.append_assoc] at hshow
  by_cases hthere : s.disk.tree.node (w ++ v ++ [n]) = none
  · rw [hthere] at hshow
    dsimp only at hshow
    have hne : v ≠ v ++ [n] := (append_singleton_ne v n).symm
    refine Or.inr ⟨fun hopq => hshow (if_pos ⟨v, List.prefix_append v [n], hne, hopq⟩), ?_⟩
    refine hb.listed s h.beside v n hclean fun hlow => hshow ?_
    rw [hlow]
    exact ite_self none
  · exact Or.inl ⟨hn, hthere⟩

/-- **The typed listing of a directory is what shows in it**: each name once, with the attributes of
what a walk finds there. -/
theorem readdir_shows (h : Orderly w s₀ s) (hclean : Clean v) (hdir : scene M s v = some .dir) :
    ((typedListing M s v).map Prod.fst).Nodup ∧ ∀ n a, (n, a) ∈ typedListing M s v ↔
      ∃ x, scene M s (v ++ [n]) = some x ∧ attr M s (v ++ [n]) = .ok a ∧ Describes a x := by
  refine ⟨typedListing_nodup M s v, fun n a => ?_⟩
  have hv : Reached M s (v ++ [n]) := Scene.reached_concat.2 (Scene.walked_eq_dir.1 hdir)
  have hscene : scene M s (v ++ [n]) = served M s (v ++ [n]) := Scene.walked_of_reached hv
  rw [hscene, mem_typedListing]
  have hattr := attr_shows M s (v ++ [n])
  constructor
  · rintro ⟨hn, ha⟩
    have hclean' : Clean (v ++ [n]) :=
      clean_concat.2 ⟨hclean, (hb.plain.mono h.beside.outside).listing hn⟩
    rw [served, if_pos hclean']
    cases hx : entryAt M s (v ++ [n]) with
    | none =>
        rw [hx] at hattr
        obtain ⟨e, he⟩ := hattr
        rw [ha] at he
        cases he
    | some x =>
        rw [hx] at hattr
        obtain ⟨b, hb', hdesc⟩ := hattr
        obtain rfl := Except.ok.inj (ha.symm.trans hb')
        exact ⟨x, rfl, ha, hdesc⟩
  · rintro ⟨x, hx, ha, -⟩
    exact ⟨h.listed hM hk hb hv (by rw [hx]; simp), ha⟩

end

end VidyaGodFS
