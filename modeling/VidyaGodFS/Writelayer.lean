/-
**The writelayer on a faithful host.**

In a mount with a writelayer and no kept folder everything is written below one directory of the
host.  As long as its directories are open to their owner and its markers are files (`Shape`), a path
of the mount with nothing but directories of the writelayer above it (`OpenWay`) is a straight path
of the host, and the calls do what the tree says.

Making directories and copying only add entries: the path itself, what lies under it, and the
directories above it (`Grew`).

Main definitions:

* `Shape`, `OpenWay`, `Clean` — the writelayer, the paths one can walk in it, and plain names;
* `Grew`, `Extends` — what a copy may add;
* `lowerLookup`, `masked` — what the layers below the writelayer say of a path, and what hides it;
* `Walks` — the paths that the kernel hands over;
* `MadeDirs` — the effect of `create_directories`.

Main results:

* `lookup_eq` — **a lookup by cases**: deleted, in the writelayer, masked, or from below;
* `Walks.openWay` — the paths the kernel hands over are open in the writelayer;
* `ensureWriteParent_made` — the directory for a new entry is made.
-/

import VidyaGodFS.Calm
import VidyaGodFS.VfsOps

set_option relaxedAutoImplicit false
set_option autoImplicit false

namespace VidyaGodFS

open Posix

variable {M : Mount} {w : Path}

/-! ### Names and ways -/

/-- No name of the path is a marker's. -/
def Clean (v : Path) : Prop := ∀ n ∈ v, isMarker n = false

theorem Clean.of_le {u v : Path} (h : Clean v) (hu : u <+: v) : Clean u :=
  fun n hn => h n (hu.mem hn)

theorem clean_concat {v : Path} {n : Name} : Clean (v ++ [n]) ↔ Clean v ∧ isMarker n = false := by
  constructor
  · exact fun h => ⟨h.of_le (List.prefix_append _ _), h n (by simp)⟩
  · rintro ⟨hv, hn⟩ x hx
    rcases List.mem_append.1 hx with hx | hx
    · exact hv x hx
    · rw [List.mem_singleton.1 hx]
      exact hn

/-- A path under the writelayer or above it. -/
theorem prefix_append_cases {q v : Path} (h : q <+: w ++ v) :
    (q <+: w ∧ q ≠ w) ∨ ∃ r, q = w ++ r ∧ r <+: v := by
  rcases List.prefix_or_prefix_of_prefix h (List.prefix_append w v) with hq | ⟨r, rfl⟩
  · by_cases hne : q = w
    · exact Or.inr ⟨[], by simp [hne], List.nil_prefix⟩
    · exact Or.inl ⟨hq, hne⟩
  · exact Or.inr ⟨r, rfl, (List.prefix_append_right_inj w).1 h⟩

/-- The writelayer's directory and what it holds: open directories, and markers that are files. -/
structure Shape (w : Path) (t : Tree) : Prop where
  above : ∀ q, q <+: w → q ≠ w → t.IsOpenDir q
  root : t.IsDir w
  full : ∀ (v : Path) (m : ℕ), t.node (w ++ v) = some (.dir m) → Full m
  markers : ∀ (v : Path) (n : Name), isMarker n = true → t.node (w ++ v ++ [n]) ≠ none →
    ∃ i, t.node (w ++ v ++ [n]) = some (.file i)

/-- Nothing but directories lies above `v` in the writelayer, as far as there is anything. -/
def OpenWay (w : Path) (t : Tree) (v : Path) : Prop :=
  ∀ q, q <+: v → q ≠ v → t.node (w ++ q) = none ∨ t.IsDir (w ++ q)

theorem Shape.isOpenDir {t : Tree} (h : Shape w t) {v : Path} (hv : t.IsDir (w ++ v)) :
    t.IsOpenDir (w ++ v) := by
  obtain ⟨m, hm⟩ := hv
  exact ⟨m, hm, (h.full v m hm).2.2⟩

/-- **An open way is a straight path of the host.** -/
theorem Shape.straight {t : Tree} (h : Shape w t) {v : Path} (hv : OpenWay w t v) :
    t.Straight (w ++ v) := by
  intro q hq hne
  rcases prefix_append_cases hq with ⟨hqw, hqne⟩ | ⟨r, rfl, hr⟩
  · exact Or.inr (h.above q hqw hqne)
  · have hrv : r ≠ v := fun he => hne (by rw [he])
    rcases hv r hr hrv with hnone | hdir
    · exact Or.inl hnone
    · exact Or.inr (h.isOpenDir hdir)

theorem OpenWay.of_le {t : Tree} {u v : Path} (h : OpenWay w t v) (hu : u <+: v) :
    OpenWay w t u :=
  fun q hq hne => h q (hq.trans hu) fun he => hne (hq.eq_of_length_le (he ▸ hu.length_le))

theorem OpenWay.concat {t : Tree} {v : Path} (h : OpenWay w t v)
    (hv : t.node (w ++ v) = none ∨ t.IsDir (w ++ v)) (n : Name) : OpenWay w t (v ++ [n]) := by
  intro q hq hne
  rcases List.prefix_concat_iff.1 hq with rfl | hq
  · exact absurd rfl hne
  · by_cases hqv : q = v
    · rw [hqv]
      exact hv
    · exact h q hq hqv

/-! ### What copying up adds -/

/-- `t'` has more entries in the writelayer: under `v`, at `v`, and directories above it. -/
structure Grew (w v : Path) (t t' : Tree) : Prop where
  old : t.Grows t'
  new : ∀ q, t.node q = none → t'.node q ≠ none →
    ∃ x, q = w ++ x ∧ Clean x ∧ (∀ m, t'.node q = some (.dir m) → Full m) ∧
      (v <+: x ∨ (x <+: v ∧ t'.IsDir q))

namespace Grew

variable {v : Path} {t t' t'' : Tree}

theorem refl (t : Tree) : Grew w v t t :=
  ⟨Tree.Grows.refl t, fun _ hnone hsome => absurd hnone hsome⟩

theorem trans (h : Grew w v t t') (h' : Grew w v t' t'') : Grew w v t t'' := by
  refine ⟨h.old.trans h'.old, fun q hnone hsome => ?_⟩
  cases hq : t'.node q with
  | none => exact h'.new q hq hsome
  | some nd =>
      have hq' := h'.old q nd hq
      obtain ⟨x, hx, hclean, hfull, hplace⟩ := h.new q hnone (by simp [hq])
      refine ⟨x, hx, hclean, fun m hm => hfull m ?_, hplace.imp_right fun hp => ⟨hp.1, h'.old.isDir hp.2⟩⟩
      rw [hq', ← hq] at hm
      exact hm

/-- What is added for a child is added for its directory. -/
theorem of_child {n : Name} (h : Grew w (v ++ [n]) t t') : Grew w v t t' := by
  refine ⟨h.old, fun q hnone hsome => ?_⟩
  obtain ⟨x, hx, hclean, hfull, hplace⟩ := h.new q hnone hsome
  refine ⟨x, hx, hclean, hfull, ?_⟩
  rcases hplace with hpre | ⟨hpre, hdir⟩
  · exact Or.inl ((List.prefix_append v [n]).trans hpre)
  · rcases List.prefix_concat_iff.1 hpre with rfl | hpre
    · exact Or.inl (List.prefix_append v [n])
    · exact Or.inr ⟨hpre, hdir⟩

theorem node_eq_of_not_under (h : Grew w v t t') {q : Path} (hq : ¬ w <+: q) :
    t'.node q = t.node q := by
  cases hn : t.node q with
  | some nd => exact h.old q nd hn
  | none =>
      by_contra hsome
      obtain ⟨x, rfl, -⟩ := h.new q hn hsome
      exact hq (List.prefix_append w x)

/-- No marker is added. -/
theorem node_eq_of_marker (h : Grew w v t t') {u : Path} {n : Name} (hn : isMarker n = true) :
    t'.node (w ++ u ++ [n]) = t.node (w ++ u ++ [n]) := by
  cases hq : t.node (w ++ u ++ [n]) with
  | some nd => exact h.old _ nd hq
  | none =>
      by_contra hsome
      obtain ⟨x, hx, hclean, -⟩ := h.new _ hq hsome
      rw [List.append_assoc, List.append_cancel_left_eq] at hx
      have := hclean n (by rw [← hx]; simp)
      rw [hn] at this
      cases this

end Grew

theorem Shape.grew {t t' : Tree} {v : Path} (h : Shape w t) (hg : Grew w v t t') : Shape w t' where
  above q hq hne := hg.old.isOpenDir (h.above q hq hne)
  root := hg.old.isDir h.root
  full u m hm := by
    cases hu : t.node (w ++ u) with
    | some nd =>
        rw [hg.old _ nd hu] at hm
        exact h.full u m (hu.trans hm)
    | none =>
        obtain ⟨x, -, -, hfull, -⟩ := hg.new _ hu (by simp [hm])
        exact hfull m hm
  markers u n hn hne := by
    rw [hg.node_eq_of_marker hn] at hne ⊢
    exact h.markers u n hn hne

/-- A way that does not lead below `v` stays open. -/
theorem OpenWay.grew {t t' : Tree} {u v : Path} (h : OpenWay w t u) (hg : Grew w v t t')
    (hnot : v <+: u → v = u) : OpenWay w t' u := by
  intro q hq hne
  rcases h q hq hne with hnone | hdir
  · by_cases hq' : t'.node (w ++ q) = none
    · exact Or.inl hq'
    · obtain ⟨x, hx, -, -, hplace⟩ := hg.new _ hnone hq'
      obtain rfl : q = x := List.append_cancel_left hx
      rcases hplace with hvq | ⟨-, hdir⟩
      · have hvu := hnot (hvq.trans hq)
        exact absurd (hq.eq_of_length_le (hvu ▸ hvq.length_le)) hne
      · exact Or.inr hdir
  · exact Or.inr (hg.old.isDir hdir)

/-- The disk has grown for `v`, and nothing else has changed. -/
structure Extends (w v : Path) (s s' : VfsState) : Prop where
  tree : Grew w v s.disk.tree s'.disk.tree
  whiteoutSet : s'.whiteoutSet = s.whiteoutSet
  opaqueSet : s'.opaqueSet = s.opaqueSet
  kept : s'.kept = s.kept

namespace Extends

variable {v : Path} {s s' s'' : VfsState}

theorem refl (s : VfsState) : Extends w v s s := ⟨Grew.refl _, rfl, rfl, rfl⟩

theorem trans (h : Extends w v s s') (h' : Extends w v s' s'') : Extends w v s s'' :=
  ⟨h.tree.trans h'.tree, h'.whiteoutSet.trans h.whiteoutSet, h'.opaqueSet.trans h.opaqueSet,
    h'.kept.trans h.kept⟩

theorem of_child {n : Name} (h : Extends w (v ++ [n]) s s') : Extends w v s s' :=
  ⟨h.tree.of_child, h.whiteoutSet, h.opaqueSet, h.kept⟩

end Extends

/-! ### Lookups -/

/-- What the layers and the implied directories say of a path. -/
def lowerLookup (M : Mount) (s : VfsState) (v : Path) : ResolveResult :=
  (resolveLayers M v M.layers.reverse : View ResolveResult) s

/-- A directory of the writelayer above `v` masks it. -/
def masked (M : Mount) (s : VfsState) (v : Path) : Bool :=
  isUnderOpaque M s v || isUnderWhiteout M s v

theorem wlPath_eq (hM : M.writelayer = some w) (v : Path) : M.wlPath v = some (w ++ v) := by
  rw [Mount.wlPath, hM]
  rfl

/-- **A lookup by cases**: deleted, in the writelayer, masked, or from below. -/
theorem lookup_eq (hM : M.writelayer = some w) {s : VfsState} (hs : Shape w s.disk.tree) {v : Path}
    (hv : OpenWay w s.disk.tree v) :
    lookup M s v =
      if isWhiteouted M s v then .none
      else if s.disk.tree.node (w ++ v) ≠ none then .writeLayer (some (w ++ v))
      else if masked M s v then .none
      else lowerLookup M s v := by
  unfold lookup resolve
  rw [if_neg (by simp [hM]), View.bind_apply, View.see_apply]
  by_cases hgone : isWhiteouted M s v = true
  · rw [if_pos hgone, if_pos hgone]
    rfl
  · rw [if_neg hgone, if_neg hgone, View.bind_apply, View.look_apply, wlPath_eq hM]
    cases hnode : s.disk.tree.node (w ++ v) with
    | some nd =>
        rw [Disk.lstat_straight_some (hs.straight hv) hnode, if_pos (by simp)]
        rfl
    | none =>
        rw [Disk.lstat_straight_none (hs.straight hv) hnode, if_neg (by simp)]
        dsimp only
        rw [View.bind_apply, View.see_apply]
        by_cases hmask : masked M s v = true
        · rw [if_pos hmask, masked] at *
          rw [if_pos hmask]
          rfl
        · rw [if_neg hmask, masked] at *
          rw [if_neg hmask]
          rfl

/-- The mount shows a directory there. -/
def DirAt (M : Mount) (s : VfsState) (v : Path) : Prop :=
  ∃ a, attr M s v = .ok a ∧ a.isDir = true

/-- The kernel looks up a path name by name: everything above `v` is a directory. -/
def Walks (M : Mount) (s : VfsState) (v : Path) : Prop := ∀ q, q <+: v → q ≠ v → DirAt M s q

theorem Walks.of_le {s : VfsState} {u v : Path} (h : Walks M s v) (hu : u <+: v) : Walks M s u :=
  fun q hq hne => h q (hq.trans hu) fun he => hne (hq.eq_of_length_le (he ▸ hu.length_le))

/-- What `attr` says of a path that is not the root. -/
theorem attr_eq {s : VfsState} {v : Path} (hv : v ≠ []) :
    attr M s v =
      match lookup M s v with
      | .none => .error .enoent
      | .implicitDir => .ok ⟨true, false, 0o755, 0⟩
      | .zipEntry _ _ none => .ok ⟨true, false, 0o555, 0⟩
      | .zipEntry _ _ (some e) =>
          if e.isDir then .ok ⟨true, false, 0o555, 0⟩
          else .ok ⟨false, e.symlink, if e.symlink then 0o777 else 0o555, e.size⟩
      | .writeLayer host => (s.disk.lstat host).map VfsAttr.ofStat
      | .dirLayer host L =>
          (if followsLinks M (.dirLayer host L) then s.disk.stat host
            else s.disk.lstat host).map VfsAttr.ofStat
      | .fileLayer host L =>
          (if followsLinks M (.fileLayer host L) then s.disk.stat host
            else s.disk.lstat host).map VfsAttr.ofStat := by
  unfold attr vfsGetattr
  rw [if_neg hv, View.bind_apply, show (resolve M v : View ResolveResult) s = lookup M s v from rfl]
  cases lookup M s v with
  | zipEntry L Z e =>
      cases e with
      | none => rfl
      | some e => cases hd : e.isDir <;> simp [hd]
  | writeLayer host => simp [followsLinks, ResolveResult.isWriteLayer]
  | _ => rfl

/-- A directory of the mount is one of the writelayer, or is not in it. -/
theorem DirAt.node (hM : M.writelayer = some w) {s : VfsState} (hs : Shape w s.disk.tree) {v : Path}
    (hv : OpenWay w s.disk.tree v) (h : DirAt M s v) :
    s.disk.tree.node (w ++ v) = none ∨ s.disk.tree.IsDir (w ++ v) := by
  by_cases hroot : v = []
  · rw [hroot, List.append_nil]
    exact Or.inr hs.root
  · obtain ⟨a, ha, hdir⟩ := h
    rw [attr_eq hroot, lookup_eq hM hs hv] at ha
    by_cases hgone : isWhiteouted M s v = true
    · rw [if_pos hgone] at ha
      cases ha
    · cases hnode : s.disk.tree.node (w ++ v) with
      | none => exact Or.inl rfl
      | some nd =>
          rw [if_neg hgone, if_pos (by simp [hnode])] at ha
          dsimp only at ha
          rw [Disk.lstat_straight_some (hs.straight hv) hnode] at ha
          obtain rfl : VfsAttr.ofStat (s.disk.nodeStat nd) = a := Except.ok.inj ha
          cases nd with
          | dir m => exact Or.inr ⟨m, hnode⟩
          | file i => cases hdir
          | link target => cases hdir

/-- **The paths the kernel hands over are open in the writelayer.** -/
theorem Walks.openWay (hM : M.writelayer = some w) {s : VfsState} (hs : Shape w s.disk.tree)
    {v : Path} (h : Walks M s v) : OpenWay w s.disk.tree v := by
  induction v using List.reverseRecOn with
  | nil => exact fun q hq hne => absurd (List.prefix_nil.1 hq) hne
  | append_singleton v n ih =>
      have hv : v <+: v ++ [n] := List.prefix_append _ _
      have hopen := ih (h.of_le hv)
      exact hopen.concat ((h v hv (append_singleton_ne v n).symm).node hM hs hopen) n

/-! ### Making directories -/

/-- Directories of the writelayer down to `u`, as far as there is anything. -/
def DirWay (w : Path) (t : Tree) (u : Path) : Prop :=
  ∀ q, q <+: u → t.node (w ++ q) = none ∨ t.IsDir (w ++ q)

theorem OpenWay.dirWay {t : Tree} {v : Path} (h : OpenWay w t v) (hv : v ≠ []) :
    DirWay w t v.dropLast := by
  obtain ⟨n, hn⟩ := eq_dropLast_append hv
  intro q hq
  refine h q ?_ ?_
  · rw [hn]
    exact hq.trans (List.prefix_append _ _)
  · rintro rfl
    rw [hn] at hq
    simp only [append_singleton_dropLast] at hq
    exact not_append_singleton_le _ _ hq

theorem Shape.makeable {t : Tree} (hs : Shape w t) {u : Path} (hu : DirWay w t u) :
    Makeable t (w ++ u) := by
  constructor
  · intro q hq
    rcases prefix_append_cases hq with ⟨hqw, hne⟩ | ⟨r, rfl, hr⟩
    · exact Or.inr (hs.above q hqw hne)
    · exact (hu r hr).imp_right hs.isOpenDir
  · intro q n m hq hnone hm
    rcases prefix_append_cases hq with ⟨hqw, -⟩ | ⟨r, hr, -⟩
    · -- what lies above the writelayer is there
      exact absurd hnone fun hnone => hs.root.ne_none (Tree.node_eq_none_below hnone hqw)
    · cases r using List.reverseRecOn with
      | nil =>
          rw [List.append_nil] at hr
          exact absurd hnone (hr ▸ hs.root.ne_none)
      | append_singleton r n' =>
          rw [← List.append_assoc] at hr
          obtain ⟨rfl, rfl⟩ := append_singleton_inj.1 hr
          exact (hs.full r m hm).2.1

/-- The directories down to `u` have been made in the writelayer, and nothing else has changed. -/
structure MadeDirs (w u : Path) (s s' : VfsState) : Prop where
  tree : Made s.disk.tree (w ++ u) s'.disk.tree
  whiteoutSet : s'.whiteoutSet = s.whiteoutSet
  opaqueSet : s'.opaqueSet = s.opaqueSet
  kept : s'.kept = s.kept

namespace MadeDirs

variable {u v : Path} {s s' : VfsState}

theorem node_eq (h : MadeDirs w u s s') {q : Path} (hq : ¬ q <+: w ++ u) :
    s'.disk.tree.node q = s.disk.tree.node q := by
  rw [h.tree, if_neg (fun hc => hq hc.1)]

theorem isDir (h : MadeDirs w u s s') (hu : DirWay w s.disk.tree u) :
    s'.disk.tree.IsDir (w ++ u) := h.tree.isDir (hu u (List.prefix_refl u))

/-- The directories that are made count as copied for any path below them. -/
theorem toExtends (h : MadeDirs w u s s') (hs : Shape w s.disk.tree) (huv : u <+: v)
    (hclean : Clean v) : Extends w v s s' := by
  refine ⟨⟨h.tree.grows, fun q hnone hsome => ?_⟩, h.whiteoutSet, h.opaqueSet, h.kept⟩
  have hq : q <+: w ++ u := by
    by_contra hq
    rw [h.node_eq hq] at hsome
    exact hsome hnone
  have hdir : s'.disk.tree.node q = some (.dir 0o777) := by rw [h.tree, if_pos ⟨hq, hnone⟩]
  rcases prefix_append_cases hq with ⟨hqw, -⟩ | ⟨r, rfl, hr⟩
  · exact absurd (Tree.node_eq_none_below hnone hqw) hs.root.ne_none
  · refine ⟨r, rfl, hclean.of_le (hr.trans huv), fun m hm => ?_, Or.inr ⟨hr.trans huv, _, hdir⟩⟩
    rw [hdir] at hm
    obtain rfl : 0o777 = m := by simpa using hm
    exact full_777

end MadeDirs

theorem createDirectories_made {s₀ : VfsState} (hs : Shape w s₀.disk.tree) {u : Path}
    (hu : DirWay w s₀.disk.tree u) {E : Errno → VfsState → Prop} :
    Calmly (fun s => s = s₀) (createDirectories (some (w ++ u))) (fun _ => MadeDirs w u s₀) E := by
  rintro ⟨s, fate, blind⟩ ⟨hcalm, rfl⟩
  obtain ⟨d, hrun, hmade, -⟩ := createDirectories_makes (hs.makeable hu)
  rw [hcalm.eq, hrun]
  exact ⟨calm_calm _, hmade, rfl, rfl, rfl⟩

theorem createDirectoriesEio_made {s₀ : VfsState} (hs : Shape w s₀.disk.tree) {u : Path}
    (hu : DirWay w s₀.disk.tree u) {E : Errno → VfsState → Prop} :
    Calmly (fun s => s = s₀) (createDirectoriesEio (some (w ++ u))) (fun _ => MadeDirs w u s₀) E := by
  unfold createDirectoriesEio
  refine Calmly.bind (Calmly.attempt (createDirectories_made (E := fun _ _ => False) hs hu)) fun r => ?_
  cases r with
  | ok u => exact Calmly.pure fun _ hs => hs
  | error e => exact Calmly.fail fun _ hs => hs.elim

/-- The directory for `v` is made. -/
theorem ensureWriteParent_made (hM : M.writelayer = some w) {s₀ : VfsState}
    (hs : Shape w s₀.disk.tree) {v : Path} (hv : OpenWay w s₀.disk.tree v) (hne : v ≠ [])
    {E : Errno → VfsState → Prop} :
    Calmly (fun s => s = s₀) (ensureWriteParent M v) (fun _ => MadeDirs w v.dropLast s₀) E := by
  unfold ensureWriteParent
  rw [wlPath_eq hM]
  exact createDirectoriesEio_made hs (hv.dirWay hne)

end VidyaGodFS
