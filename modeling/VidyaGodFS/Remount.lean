/-
**Mounting again over the same writelayer.**

A mount with a writelayer and no kept folder starts with the masks that it reads off the markers.  As
it is used it changes markers and masks one by one, moves them with the directories that they lie in,
and clears them away.  Here every operation that the kernel may hand over keeps the two in step, on a
host that refuses nothing but what its tree gives reason to, and so a later mount over the same files
starts in the very state in which the first one ended.  A directory that is made, or left, without
all rights for its owner shuts the mount out of its own writelayer, and then a mask may come without
its marker.

Main definitions:

* `Asked`, `AsKernel` — the paths and the operations that the kernel hands over;
* `LeavesOpen` — the operations that leave every directory open to the mount;
* `Ready` — a state on the way of an operation on `v`.

Main results:

* `seedMasks_iff` — **the walk finds every marker**;
* `exec_settles` — **every operation keeps the masks in step**, whether it succeeds or fails;
* `mounted_again`, `masks_remounted` — **mounting again gives the state back, and every verdict**;
* `remount_forgets` — what a directory without rights does.
-/

import VidyaGodFS.CopyKind
import VidyaGodFS.LayerNames
import VidyaGodFS.Masks
import VidyaGodFS.Seeding

set_option relaxedAutoImplicit false
set_option autoImplicit false

namespace VidyaGodFS

open Posix

variable {M : Mount} {w : Path}

/-! ### What a mount reads -/

section

variable {d : Disk} {base : HostPath} {fuel : ℕ} {rel x : Path}

/-- What the names of one directory add. -/
theorem mem_seedFold {names : List Name} :
    (x ∈ (names.foldr (seedStep d base fuel rel) ⟨∅, ∅⟩).deleted ↔ ∃ n ∈ names,
      n ≠ opaqueName ∧ isMarker n = true ∧ x = rel ++ [unmark n] ∨
        isMarker n = false ∧ dirAt d false (base.join (rel ++ [n])) = true ∧
          x ∈ (seedWalk d base fuel (rel ++ [n])).deleted) ∧
    (x ∈ (names.foldr (seedStep d base fuel rel) ⟨∅, ∅⟩).opaqueDirs ↔ ∃ n ∈ names,
      n = opaqueName ∧ x = rel ∨
        isMarker n = false ∧ dirAt d false (base.join (rel ++ [n])) = true ∧
          x ∈ (seedWalk d base fuel (rel ++ [n])).opaqueDirs) := by
  induction names with
  | nil => simp
  | cons m names ih =>
      rw [List.foldr_cons, seedStep, List.exists_mem_cons_iff, List.exists_mem_cons_iff]
      by_cases hopq : m = opaqueName
      · subst hopq
        simp [ih.1, ih.2]
      · rw [if_neg hopq]
        by_cases hmark : isMarker m = true
        · rw [if_pos hmark]
          simp [hopq, hmark, ih.1, ih.2]
        · have hname : isMarker m = false := by simpa using hmark
          rw [if_neg hmark]
          by_cases hdir : dirAt d false (base.join (rel ++ [m])) = true
          · rw [if_pos hdir]
            simp [hopq, hname, hdir, ih.1, ih.2]
          · rw [if_neg hdir]
            simp [hopq, hname, hdir, ih.1, ih.2]

end

/-- The way to what is there is open. -/
theorem openWay_of_node {t : Tree} {v : Path} (h : t.node (w ++ v) ≠ none) : OpenWay w t v :=
  fun _ hq hne => Or.inr (Tree.isDir_above h ((List.prefix_append_right_inj w).2 hq)
    fun he => hne (List.append_cancel_left he))

/-- A directory of the writelayer is listed as it is. -/
theorem Shape.readDir {d : Disk} (h : Shape w d.tree) {v : Path} (hv : d.tree.IsDir (w ++ v)) :
    d.readDir (some (w ++ v)) = d.tree.children (w ++ v) := by
  obtain ⟨m, hm⟩ := hv
  have hfind : d.find true (some (w ++ v)) = .ok (w ++ v) :=
    (h.straight (openWay_of_node (by simp [hm]))).locate_of_node hm fun target ht => by
      rw [hm] at ht
      cases ht
  rw [Disk.readDir, hfind]
  dsimp only
  rw [Tree.dirMode, hm]
  exact if_pos (h.full v m hm).1

theorem Shape.dirAt {d : Disk} (h : Shape w d.tree) {v : Path} (hv : d.tree.node (w ++ v) ≠ none) :
    dirAt d false (some (w ++ v)) = true ↔ d.tree.IsDir (w ++ v) := by
  obtain ⟨nd, hnd⟩ := Option.ne_none_iff_exists'.1 hv
  rw [VidyaGodFS.dirAt, Disk.statAt_straight_some (h.straight (openWay_of_node hv)) hnd fun _ _ => rfl]
  cases nd with
  | dir m => exact ⟨fun _ => ⟨m, hnd⟩, fun _ => rfl⟩
  | file i =>
      refine ⟨by rintro ⟨⟩, ?_⟩
      rintro ⟨m, hm⟩
      rw [hnd] at hm
      cases hm
  | link target =>
      refine ⟨by rintro ⟨⟩, ?_⟩
      rintro ⟨m, hm⟩
      rw [hnd] at hm
      cases hm

/-- **The walk finds every marker**, and nothing else. -/
theorem seedWalk_iff {d : Disk} (h : Shape w d.tree) :
    ∀ (fuel : ℕ) (rel : Path), d.tree.IsDir (w ++ rel) →
      d.tree.height < (w ++ rel).length + fuel → ∀ x,
      (x ∈ (seedWalk d (some w) fuel rel).deleted ↔ ∃ v n, x = v ++ [n] ∧ rel <+: v ∧
        mark n ≠ opaqueName ∧ d.tree.node (w ++ v ++ [mark n]) ≠ none) ∧
      (x ∈ (seedWalk d (some w) fuel rel).opaqueDirs ↔ rel <+: x ∧
        d.tree.node (w ++ x ++ [opaqueName]) ≠ none) := by
  intro fuel
  induction fuel with
  | zero =>
      intro rel hdir hheight
      have := d.tree.length_le _ hdir.ne_none
      omega
  | succ fuel ih =>
      intro rel hdir hheight x
      have hlist : d.readDir (HostPath.join (some w) rel) = d.tree.children (w ++ rel) := h.readDir hdir
      -- what is entered is a directory, and not a marker
      have hbelow : ∀ n, isMarker n = false → d.tree.node (w ++ rel ++ [n]) ≠ none →
          (dirAt d false (HostPath.join (some w) (rel ++ [n])) = true ↔
            d.tree.IsDir (w ++ (rel ++ [n]))) := by
        intro n _ hnode
        rw [List.append_assoc] at hnode
        exact h.dirAt hnode
      have hnext : ∀ n, d.tree.IsDir (w ++ (rel ++ [n])) →
          d.tree.height < (w ++ (rel ++ [n])).length + fuel := by
        intro n _
        rw [List.length_append, List.length_append, List.length_singleton]
        rw [List.length_append] at hheight
        omega
      have hplain : ∀ n, d.tree.IsDir (w ++ (rel ++ [n])) → isMarker n = false := by
        rintro n ⟨m, hm⟩
        by_contra hmark
        rw [← List.append_assoc] at hm
        obtain ⟨i, hi⟩ := h.markers rel n (by simpa using hmark) (by rw [hm]; simp)
        rw [hm] at hi
        cases hi
      rw [seedWalk_succ, hlist]
      constructor
      · rw [mem_seedFold.1]
        constructor
        · rintro ⟨n, hn, ⟨hopq, hmark, rfl⟩ | ⟨hmark, hat, hx⟩⟩
          · refine ⟨rel, unmark n, rfl, List.prefix_rfl, ?_, ?_⟩
            · rwa [mark_unmark hmark]
            · rw [mark_unmark hmark]
              exact Tree.mem_children.1 hn
          · have hsub := (hbelow n hmark (Tree.mem_children.1 hn)).1 hat
            obtain ⟨v, k, rfl, hv, hk⟩ := ((ih _ hsub (hnext n hsub) x).1).1 hx
            exact ⟨v, k, rfl, (List.prefix_append _ _).trans hv, hk⟩
        · rintro ⟨v, n, rfl, hv, hopq, hnode⟩
          by_cases hrel : rel = v
          · subst hrel
            exact ⟨mark n, Tree.mem_children.2 hnode, Or.inl ⟨hopq, isMarker_mark n, by
              rw [unmark_mark]⟩⟩
          · obtain ⟨k, hk⟩ := exists_next_below hv hrel
            have hsub : d.tree.IsDir (w ++ (rel ++ [k])) := by
              refine Tree.isDir_above hnode ?_ ?_
              · rw [List.append_assoc]
                exact (List.prefix_append_right_inj w).2 (hk.trans (List.prefix_append _ _))
              · intro he
                have := hk.length_le
                rw [List.append_assoc] at he
                rw [List.append_cancel_left he, List.length_append, List.length_singleton] at this
                omega
            have hnode' : d.tree.node (w ++ rel ++ [k]) ≠ none := by
              rw [List.append_assoc]
              exact hsub.ne_none
            refine ⟨k, Tree.mem_children.2 hnode', Or.inr ⟨hplain k hsub,
              (hbelow k (hplain k hsub) hnode').2 hsub, ?_⟩⟩
            exact ((ih _ hsub (hnext k hsub) _).1).2 ⟨v, n, rfl, hk, hopq, hnode⟩
      · rw [mem_seedFold.2]
        constructor
        · rintro ⟨n, hn, ⟨rfl, rfl⟩ | ⟨hmark, hat, hx⟩⟩
          · exact ⟨List.prefix_rfl, Tree.mem_children.1 hn⟩
          · have hsub := (hbelow n hmark (Tree.mem_children.1 hn)).1 hat
            obtain ⟨hv, hk⟩ := ((ih _ hsub (hnext n hsub) x).2).1 hx
            exact ⟨(List.prefix_append _ _).trans hv, hk⟩
        · rintro ⟨hv, hnode⟩
          by_cases hrel : rel = x
          · subst hrel
            exact ⟨opaqueName, Tree.mem_children.2 hnode, Or.inl ⟨rfl, rfl⟩⟩
          · obtain ⟨k, hk⟩ := exists_next_below hv hrel
            have hx : d.tree.IsDir (w ++ x) := d.tree.parent_dir _ _ hnode
            have hsub : d.tree.IsDir (w ++ (rel ++ [k])) := by
              by_cases hkx : rel ++ [k] = x
              · rwa [hkx]
              · exact Tree.isDir_above hx.ne_none ((List.prefix_append_right_inj w).2 hk)
                  fun he => hkx (List.append_cancel_left he)
            have hnode' : d.tree.node (w ++ rel ++ [k]) ≠ none := by
              rw [List.append_assoc]
              exact hsub.ne_none
            exact ⟨k, Tree.mem_children.2 hnode', Or.inr ⟨hplain k hsub,
              (hbelow k (hplain k hsub) hnode').2 hsub,
              ((ih _ hsub (hnext k hsub) _).2).2 ⟨hk, hnode⟩⟩⟩

theorem seedMasks_iff {d : Disk} (h : Shape w d.tree) (x : Path) :
    (x ∈ (seedMasks d (some w) []).deleted ↔ ∃ v n, x = v ++ [n] ∧ mark n ≠ opaqueName ∧
      d.tree.node (w ++ v ++ [mark n]) ≠ none) ∧
    (x ∈ (seedMasks d (some w) []).opaqueDirs ↔ d.tree.node (w ++ x ++ [opaqueName]) ≠ none) := by
  have hwalk := seedWalk_iff h (d.tree.height + 1) [] (by rw [List.append_nil]; exact h.root)
    (by omega) x
  simpa [seedMasks] using hwalk

/-- The state in which a mount over the disk starts. -/
def mountedState (w : Path) (d : Disk) : VfsState :=
  ⟨d, (seedMasks d (some w) []).deleted, (seedMasks d (some w) []).opaqueDirs, fun _ => ⟨∅, ∅⟩⟩

/-- Without kept folders no mask of one is read. -/
theorem seedKept_of_noKept {d : Disk} :
    ∀ (layers : List Layer) (kept : ℕ → KeptMasks), (∀ L ∈ layers, L.isKept = false) →
      seedKept d layers kept = kept := by
  intro layers
  induction layers with
  | nil => exact fun _ _ => rfl
  | cons L layers ih =>
      intro kept hL
      have hstep : seedKept d (L :: layers) kept = seedKept d layers
          (if L.isKept then Function.update kept L.priority (seedKeptMasks d L) else kept) := rfl
      rw [hstep, hL L (by simp), if_neg Bool.false_ne_true]
      exact ih kept fun L' hL' => hL L' (by simp [hL'])

/-- **A mount starts with what it reads**, on the disk on which it has made its writelayer. -/
theorem mounted_reads (hM : M.writelayer = some w) (hk : NoKept M) (d : Disk) :
    mounted M d allowed allowed = calm (mountedState w (mounted M d allowed allowed).state.disk) := by
  obtain ⟨d', hmake⟩ := makeWritelayer_makes M d
  rw [mounted_of_made (by simp [hM]) hmake, seedKept_of_noKept _ _ hk, hM]
  rfl

theorem mounted_state (hM : M.writelayer = some w) (hk : NoKept M) {d : Disk} (h : Shape w d.tree) :
    mounted M d allowed allowed = calm (mountedState w d) := by
  have hdir : dirAt d true M.writelayer = true := by
    obtain ⟨m, hm⟩ := h.root
    have hstraight : d.tree.Straight w := fun q hq hne => Or.inr (h.above q hq hne)
    rw [hM, dirAt, ← Disk.stat, Disk.stat_straight_dir hstraight hm]
    rfl
  rw [mounted_eq (by simp [hM]) hdir, seedKept_of_noKept _ _ hk, hM]
  rfl

/-- **A mount starts with its masks in step.** -/
theorem synced_mountedState {d : Disk} (h : Shape w d.tree) : Synced w (mountedState w d) where
  shape := h
  whiteouts v n := by
    rw [mountedState, (seedMasks_iff h _).1]
    constructor
    · rintro ⟨v', n', he, hn⟩
      obtain ⟨rfl, rfl⟩ := append_singleton_inj.1 he
      exact hn
    · exact fun hn => ⟨v, n, rfl, hn⟩
  root := by
    rw [mountedState, (seedMasks_iff h _).1]
    rintro ⟨v, n, he, -⟩
    exact absurd he (by simp)
  opaques v := (seedMasks_iff h v).2
  kept := rfl

/-- **Masks in step are those that a mount reads.** -/
theorem Synced.eq_mountedState {s : VfsState} (h : Synced w s) : s = mountedState w s.disk := by
  have hnew := synced_mountedState h.shape
  have hwhite : s.whiteoutSet = (mountedState w s.disk).whiteoutSet := by
    ext x
    rcases x.eq_nil_or_concat' with rfl | ⟨v, n, rfl⟩
    · exact iff_of_false h.root hnew.root
    · exact (h.whiteouts v n).trans (hnew.whiteouts v n).symm
  have hopq : s.opaqueSet = (mountedState w s.disk).opaqueSet := by
    ext x
    exact (h.opaques x).trans (hnew.opaques x).symm
  calc s = ⟨s.disk, s.whiteoutSet, s.opaqueSet, s.kept⟩ := rfl
    _ = mountedState w s.disk := by rw [hwhite, hopq, h.kept]; rfl

/-! ### What the kernel hands over -/

/-- A path below the root, of plain names, that the kernel has walked down. -/
structure Asked (M : Mount) (s : VfsState) (v : Path) : Prop where
  ne : v ≠ []
  clean : Clean v
  walks : Walks M s v

/-- **The operations that the kernel hands over**, in the state `s`: a name is not made through a link
of the writelayer, a directory is removed as one and has one name, nothing is moved into itself, and
a mode is changed of what a link leads to. -/
def AsKernel (M : Mount) (w : Path) (s : VfsState) : Op → Prop
  | .create v _ _ => Asked M s v ∧ ∀ target, s.disk.tree.node (w ++ v) ≠ some (.link target)
  | .mkdir v _ => Asked M s v
  | .symlink _ v => Asked M s v
  | .link vf vt => Asked M s vf ∧ Asked M s vt ∧ ¬ DirAt M s vf
  | .unlink v => Asked M s v
  | .rmdir v => Asked M s v ∧ DirAt M s v
  | .rename vf vt => Asked M s vf ∧ Asked M s vt ∧ (vf <+: vt → vf = vt)
  | .open_ v flags => Asked M s v ∧ flags.creat = false
  | .write .. => True
  | .truncate v _ _ => Asked M s v
  | .chmod v _ => Clean v ∧ Walks M s v ∧ ∃ a, attr M s v = .ok a ∧ a.isSymlink = false

/-- The operation leaves a directory's owner all rights. -/
def LeavesOpen (M : Mount) (s : VfsState) : Op → Prop
  | .mkdir _ mode => Full mode
  | .chmod v mode => DirAt M s v → Full mode
  | _ => True

/-! ### One operation -/

/-- A state on the way of an operation on `v`: the masks are in step, the way to `v` is open, and what
is there is what was there. -/
structure Ready (w v : Path) (s s' : VfsState) : Prop where
  synced : Synced w s'
  outside : SameOutside w s s'
  way : OpenWay w s'.disk.tree v
  entry : s'.disk.tree.node (w ++ v) = s.disk.tree.node (w ++ v)

namespace Ready

variable {v : Path} {s s' s'' : VfsState}

theorem refl (hs : Synced w s) (hv : OpenWay w s.disk.tree v) : Ready w v s s :=
  ⟨hs, SameOutside.refl s, hv, rfl⟩

theorem settled (h : Ready w v s s') : Settled w s s' := ⟨h.synced, h.outside⟩

theorem unhidden (h : Ready w v s s') (hclean : Clean v) {x : Path} (h' : Unhidden w x s' s'') :
    Ready w v s s'' :=
  ⟨h'.synced, h.outside.trans h'.names.outside, h'.names.openWay hclean h.way,
    (h'.names.clean v hclean).trans h.entry⟩

theorem madeParent (h : Ready w v s s') (hne : v ≠ []) (hclean : Clean v)
    (h' : MadeDirs w v.dropLast s' s'') :
    Ready w v s s'' ∧ s''.disk.tree.IsDir (w ++ v.dropLast) := by
  have hext : Extends w v s' s'' := h'.toExtends h.synced.shape (List.dropLast_prefix v) hclean
  refine ⟨⟨h.synced.of_extends hext, h.outside.trans hext.sameOutside,
    h.way.grew hext.tree fun _ => rfl, ?_⟩, h'.isDir (h.way.dirWay hne)⟩
  rw [h'.node_eq, h.entry]
  intro hle
  have := hle.length_le
  rw [List.length_append, List.length_append, List.length_dropLast] at this
  have := List.length_pos_iff.2 hne
  omega

/-- The new entry is put where there is none. -/
theorem put (h : Ready w v s s') (hclean : Clean v) {nd : Node}
    (hnone : s'.disk.tree.node (w ++ v) = none) (hput : s'.disk.tree.CanPut (w ++ v) nd)
    (hnd : ∀ m, nd = .dir m → Full m) {d : Disk} (hd : d.tree = s'.disk.tree.put (w ++ v) nd hput) :
    Settled w s { s' with disk := d } := by
  have hext : Extends w v s' { s' with disk := d } := by
    refine ⟨?_, rfl, rfl, rfl⟩
    change Grew w v s'.disk.tree d.tree
    rw [hd]
    exact Grew.put hput hnone hclean hnd
  exact ⟨h.synced.of_extends hext, h.outside.trans hext.sameOutside⟩

end Ready

section

variable {s₀ : VfsState} {v : Path}

/-- The marker of a plain path is that of a whiteout. -/
theorem mark_last (hclean : Clean v) {u : Path} {n : Name} (hv : v = u ++ [n]) :
    mark n ≠ opaqueName := mark_ne_opaqueName (clean_concat.1 (hv ▸ hclean)).2

theorem removeWhiteout_unhidden (hM : M.writelayer = some w) (hs : Synced w s₀) (hne : v ≠ [])
    (hclean : Clean v) (hv : OpenWay w s₀.disk.tree v) {E : Errno → VfsState → Prop} :
    Calmly (fun s => s = s₀) (removeWhiteout M v) (fun _ => Unhidden w v s₀) E := by
  obtain ⟨n, hn⟩ := eq_dropLast_append hne
  have hmark := mark_last hclean hn
  rw [hn] at hv ⊢
  exact removeWhiteout_names hM hs hmark hv

theorem removeWhiteout_ready (hM : M.writelayer = some w) (hne : v ≠ []) (hclean : Clean v)
    {E : Errno → VfsState → Prop} :
    Calmly (Ready w v s₀) (removeWhiteout M v) (fun _ => Ready w v s₀) E :=
  Calmly.assuming fun _ h => Calmly.conseq (removeWhiteout_unhidden hM h.synced hne hclean h.way)
    (fun _ hs => hs) (fun _ _ hs => h.unhidden hclean hs) fun _ _ hs => hs

theorem ensureWriteParent_ready (hM : M.writelayer = some w) (hne : v ≠ []) (hclean : Clean v)
    {E : Errno → VfsState → Prop} :
    Calmly (Ready w v s₀) (ensureWriteParent M v)
      (fun _ s => Ready w v s₀ s ∧ s.disk.tree.IsDir (w ++ v.dropLast)) E :=
  Calmly.assuming fun _ h => Calmly.conseq (ensureWriteParent_made hM h.synced.shape h.way hne)
    (fun _ hs => hs) (fun _ _ hs => h.madeParent hne hclean hs) fun _ _ hs => hs

theorem createWhiteout_ready (hM : M.writelayer = some w) (hne : v ≠ []) (hclean : Clean v)
    {E : Errno → VfsState → Prop} :
    Calmly (fun s => Settled w s₀ s ∧ OpenWay w s.disk.tree v) (createWhiteout M v)
      (fun _ => Settled w s₀) E := by
  refine Calmly.assuming fun s h => ?_
  obtain ⟨n, hn⟩ := eq_dropLast_append hne
  have hmark := mark_last hclean hn
  have hway := h.2
  rw [hn] at hway ⊢
  have hcleanu := hclean.of_le (List.dropLast_prefix v)
  exact Calmly.conseq (createWhiteout_hides hM h.1.synced hmark hcleanu hway) (fun _ hs => hs)
    (fun _ _ hs => .trans h.1.outside (hs.settled h.1.synced (by simpa using hcleanu)))
    fun _ _ hs => hs

/-- The whiteout that a deletion ends with, if one is needed. -/
theorem hideRest_settled (hM : M.writelayer = some w) (hne : v ≠ []) (hclean : Clean v)
    {E : Errno → VfsState → Prop} :
    Calmly (fun s => Settled w s₀ s ∧ OpenWay w s.disk.tree v)
      (hideRest M v (createWhiteout M v) (pure ())) (fun _ => Settled w s₀) E := by
  unfold hideRest
  refine Calmly.bind (Q := fun _ s => Settled w s₀ s ∧ OpenWay w s.disk.tree v)
    (Calmly.look (resolve_agrees M v) fun s hs => hs) fun rr => ?_
  exact Calmly.ite (fun _ => Calmly.pure fun s hs => hs.1) fun _ => createWhiteout_ready hM hne hclean

/-- Copying up before a change. -/
theorem makeWritable_extends (hM : M.writelayer = some w) (hk : NoKept M) (hs : Shape w s₀.disk.tree)
    (hv : OpenWay w s₀.disk.tree v) (hclean : Clean v) :
    Calmly (fun s => s = s₀) (makeWritable M v (lookup M s₀ v)) (fun _ => Extends w v s₀)
      (fun _ => Extends w v s₀) := by
  refine Calmly.ite (fun _ => Calmly.pure (by rintro s rfl; exact Extends.refl s)) fun _ => ?_
  exact Calmly.conseq (copyUp_extends hM hk hs hv hclean) (fun _ hs => hs) (fun _ _ hs => hs.1)
    fun _ _ hs => hs

/-- What is changed for `v` is its entry of the writelayer. -/
theorem writeHost_eq (hM : M.writelayer = some w) (hk : NoKept M) (s : VfsState) (v : Path) :
    writeHost M v (lookup M s v) = some (w ++ v) := by
  have hfits : Fits M v (lookup M s v) := resolve_fits M v (calm s) _ _ (resolve_run M (calm_calm s).2 v)
  rw [writeHost, rwPassthrough_of_fits M hfits (hk.keptLayerFor v), if_neg Bool.false_ne_true,
    hk.copyDest hM]

theorem Settled.refl (hs : Synced w s₀) : Settled w s₀ s₀ := ⟨hs, SameOutside.refl s₀⟩

theorem Settled.of_extends {s : VfsState} (hs : Synced w s₀) (h : Extends w v s₀ s) :
    Settled w s₀ s := ⟨hs.of_extends h, h.sameOutside⟩

/-- Where the names are the same the masks stay in step. -/
theorem Settled.of_tree {s : VfsState} (h : Settled w s₀ s) {d : Disk} (hd : d.tree = s.disk.tree) :
    Settled w s₀ { s with disk := d } := by
  refine ⟨h.synced.of_namesKept ⟨hd, rfl, rfl, rfl⟩, h.outside.trans fun q _ => ?_⟩
  change d.tree.node q = _
  rw [hd]

/-- A call that leaves the names alone. -/
theorem Settled.quiet {α : Type} {call : Call α} (h : Quiet call) :
    Keeps (Settled w s₀) (act call) := Keeps.act fun s hs => hs.of_tree (h s.disk)

end

/-! ### Every operation -/

/-- The operation leaves the masks in step, whether it succeeds or fails. -/
def Settles {α : Type} (w : Path) (s₀ : VfsState) (m : Prog World Errno α) : Prop :=
  Calmly (fun s => s = s₀) m (fun _ => Settled w s₀) (fun _ => Settled w s₀)

section

variable {s₀ : VfsState} {v : Path}

theorem Settles.fail {α : Type} (hs : Synced w s₀) (e : Errno) :
    Settles w s₀ (Prog.fail e : Prog World Errno α) :=
  Calmly.fail (by rintro s rfl; exact .refl hs)

/-- The place for a new entry is made. -/
theorem Settles.ready {α : Type} (hM : M.writelayer = some w) (hs : Synced w s₀) (hne : v ≠ [])
    (hclean : Clean v) (hv : OpenWay w s₀.disk.tree v) {f : Prog World Errno α}
    (hf : Calmly (fun s => Ready w v s₀ s ∧ s.disk.tree.IsDir (w ++ v.dropLast)) f
      (fun _ => Settled w s₀) (fun _ => Settled w s₀)) :
    Settles w s₀ (do removeWhiteout M v; ensureWriteParent M v; f) := by
  refine Calmly.bind (Q := fun _ => Ready w v s₀) ?_ fun _ =>
    Calmly.bind (ensureWriteParent_ready hM hne hclean) fun _ => hf
  exact Calmly.conseq (E := fun _ => Settled w s₀) (removeWhiteout_ready hM hne hclean)
    (by rintro s rfl; exact .refl hs hv) (fun _ _ h => h) fun _ _ h => h

theorem vfsCreate_settles (hM : M.writelayer = some w) (hk : NoKept M) (hs : Synced w s₀) (hne : v ≠ [])
    (hclean : Clean v) (hv : OpenWay w s₀.disk.tree v)
    (hlink : ∀ target, s₀.disk.tree.node (w ++ v) ≠ some (.link target)) (mode : ℕ)
    (flags : OpenFlags) : Settles w s₀ (vfsCreate M v mode flags) := by
  unfold vfsCreate
  refine Calmly.ite (fun _ => Settles.fail hs _) fun _ => ?_
  rw [hk.passthroughHost, wlPath_eq hM]
  refine Settles.ready hM hs hne hclean hv ?_
  refine Calmly.bind (Q := fun _ => Settled w s₀) (Calmly.act ?_) fun h => Calmly.pure fun _ h => h
  rintro s ⟨hready, -⟩
  have hstraight := hready.synced.shape.straight hready.way
  rcases Disk.open_cases (some (w ++ v)) { flags with creat := true, nofollow := false } mode s.disk with
    ⟨e, hf⟩ | ⟨q, hq, ⟨hnone, -, -, hput, hrun⟩ | ⟨i, -, hrun⟩ | ⟨-, hrun⟩⟩
  · rw [hf]
    exact hready.settled
  · obtain rfl := Disk.find_straight hstraight (fun target ht => by
      rw [hready.entry] at ht
      exact absurd ht (hlink target)) hq
    rw [hrun]
    exact hready.put hclean hnone hput (by simp) rfl
  · rw [hrun]
    refine hready.settled.of_tree ?_
    cases flags.trunc <;> rfl
  · rw [hrun]
    exact hready.settled

theorem vfsMkdir_settles (hM : M.writelayer = some w) (hk : NoKept M) (hs : Synced w s₀) (hne : v ≠ [])
    (hclean : Clean v) (hv : OpenWay w s₀.disk.tree v) {mode : ℕ} (hmode : Full mode) :
    Settles w s₀ (vfsMkdir M v mode) := by
  unfold vfsMkdir
  refine Calmly.ite (fun _ => Settles.fail hs _) fun _ => ?_
  rw [hk.passthroughHost, wlPath_eq hM]
  refine Calmly.bind (Q := fun _ s => s = s₀) (Calmly.look (Agrees.see _) fun s h => h) fun deleted => ?_
  refine Settles.ready hM hs hne hclean hv ?_
  refine Calmly.bind (Q := fun _ s => Settled w s₀ s ∧ OpenWay w s.disk.tree v ∧
    s.disk.tree.IsDir (w ++ v)) (Calmly.act ?_) fun _ => ?_
  · rintro s ⟨hready, -⟩
    rcases Disk.mkdir_cases (some (w ++ v)) mode s.disk with ⟨e, hf⟩ | ⟨q, hq, hnone, -, hput, hi, hrun⟩
    · rw [hf]
      exact hready.settled
    · obtain rfl := Disk.find_false_straight (hready.synced.shape.straight hready.way) hq
      rw [hrun]
      refine ⟨hready.put hclean hnone hput ?_ rfl, ?_, mode, if_pos rfl⟩
      · rintro m ⟨rfl⟩
        exact hmode
      · refine hready.way.grew (v := v) (Grew.put hput hnone hclean ?_) fun _ => rfl
        rintro m ⟨rfl⟩
        exact hmode
  · refine Calmly.ite (fun _ => Calmly.assuming fun s h => ?_) fun _ => Calmly.pure fun _ h => h.1
    exact Calmly.conseq (markOpaque_names hM h.1.synced h.2.1 h.2.2) (fun _ hs' => hs')
      (fun _ _ hs' => .trans h.1.outside ⟨hs'.synced, hs'.names.outside⟩) fun _ _ hs' => hs'

theorem vfsSymlink_settles (hM : M.writelayer = some w) (hk : NoKept M) (hs : Synced w s₀) (hne : v ≠ [])
    (hclean : Clean v) (hv : OpenWay w s₀.disk.tree v) (target : String) :
    Settles w s₀ (vfsSymlink M target v) := by
  unfold vfsSymlink
  refine Calmly.ite (fun _ => Settles.fail hs _) fun _ => ?_
  rw [hk.passthroughHost, wlPath_eq hM]
  refine Settles.ready hM hs hne hclean hv (Calmly.act ?_)
  rintro s ⟨hready, -⟩
  rcases Disk.symlink_cases target (some (w ++ v)) s.disk with
    ⟨e, hf⟩ | ⟨q, hq, hnone, -, hput, hi, hrun⟩
  · rw [hf]
    exact hready.settled
  · obtain rfl := Disk.find_false_straight (hready.synced.shape.straight hready.way) hq
    rw [hrun]
    exact hready.put hclean hnone hput (by simp) rfl

theorem vfsUnlink_settles (hM : M.writelayer = some w) (hk : NoKept M) (hs : Synced w s₀) (hne : v ≠ [])
    (hclean : Clean v) (hv : OpenWay w s₀.disk.tree v) : Settles w s₀ (vfsUnlink M v) := by
  unfold vfsUnlink
  refine Calmly.ite (fun _ => Settles.fail hs _) fun _ => ?_
  rw [hk.passthroughHost]
  refine Calmly.bind (Q := fun _ s => Settled w s₀ s ∧ OpenWay w s.disk.tree v) ?_ fun _ =>
    hideRest_settled hM hne hclean
  unfold unlinkWriteCopy toleratingEnoent
  rw [if_neg (by simp [hM]), wlPath_eq hM]
  have hgone : Calmly (fun s => s = s₀) (act (Disk.unlink (some (w ++ v))))
      (fun _ s => Settled w s₀ s ∧ OpenWay w s.disk.tree v)
      (fun _ s => Settled w s₀ s ∧ OpenWay w s.disk.tree v) := by
    refine Calmly.act ?_
    rintro s rfl
    rcases Disk.unlink_cases (some (w ++ v)) s.disk with ⟨e, hf⟩ | ⟨q, nd, hq, -, -, -, he, hrun⟩
    · rw [hf]
      exact ⟨.refl hs, hv⟩
    · obtain rfl := Disk.find_false_straight (hs.shape.straight hv) hq
      rw [hrun]
      exact ⟨hs.of_erase hne hclean he, hv.erased he⟩
  refine Calmly.bind (Q := fun _ s => Settled w s₀ s ∧ OpenWay w s.disk.tree v)
    (Calmly.bind (Calmly.attempt hgone) fun r => ?_) fun _ => Calmly.pure fun _ h => h
  cases r with
  | ok u => exact Calmly.pure fun _ h => h
  | error e =>
      exact Calmly.ite (fun _ => Calmly.pure fun _ h => h) fun _ => Calmly.fail fun _ h => h.1

theorem vfsRmdir_settles (hM : M.writelayer = some w) (hk : NoKept M) (hs : Synced w s₀) (hne : v ≠ [])
    (hclean : Clean v) (hv : OpenWay w s₀.disk.tree v) (hdir : DirAt M s₀ v) :
    Settles w s₀ (vfsRmdir M v) := by
  unfold vfsRmdir
  refine Calmly.ite (fun _ => Settles.fail hs _) fun _ => ?_
  refine Calmly.bind (Q := fun _ s => s = s₀) (Calmly.look (collectChildren_agrees M v) fun s h => h)
    fun children => Calmly.ite (fun _ => Settles.fail hs _) fun _ => ?_
  rw [hk.passthroughHost]
  refine Calmly.bind (Q := fun _ s => Settled w s₀ s ∧ OpenWay w s.disk.tree v) ?_ fun _ =>
    hideRest_settled hM hne hclean
  unfold removeWriteDir
  rw [if_neg (by simp [hM]), wlPath_eq hM]
  refine Calmly.bind (Q := fun _ s => s = s₀) (Calmly.look (lookDir_agrees _) fun s h => h)
    fun names => ?_
  refine Calmly.bind (sweepMarkers_swept hM hclean names hs hv (hdir.node hM hs.shape hv)) fun _ => ?_
  -- the directory itself goes if nothing is left in it
  refine Calmly.ignoring (Calmly.act fun s h => ?_)
  have hway := h.same.openWay hclean hv
  rcases Disk.rmdir_cases (some (w ++ v)) s.disk with ⟨e, hf⟩ | ⟨q, hq, -, -, he, hrun⟩
  · rw [hf]
    exact ⟨⟨h.synced, h.same.outside⟩, hway⟩
  · obtain rfl := Disk.find_false_straight (h.synced.shape.straight hway) hq
    rw [hrun]
    exact ⟨.trans h.same.outside (h.synced.of_erase hne hclean he), hway.erased he⟩

/-- What changes only the contents of the copy keeps the masks in step. -/
theorem Settles.copied {α : Type} (hM : M.writelayer = some w) (hk : NoKept M) (hs : Synced w s₀)
    (hclean : Clean v) (hv : OpenWay w s₀.disk.tree v) {f : Prog World Errno α}
    (hf : Keeps (Settled w s₀) f) : Settles w s₀ (do makeWritable M v (lookup M s₀ v); f) := by
  refine Calmly.bind (Q := fun _ => Settled w s₀) ?_ fun _ => hf
  exact Calmly.conseq (makeWritable_extends hM hk hs.shape hv hclean) (fun _ h => h)
    (fun _ _ h => .of_extends hs h) fun _ _ h => .of_extends hs h

theorem vfsOpen_settles (hM : M.writelayer = some w) (hk : NoKept M) (hs : Synced w s₀)
    (hclean : Clean v) (hv : OpenWay w s₀.disk.tree v) {flags : OpenFlags} (hc : flags.creat = false) :
    Settles w s₀ (vfsOpen M v flags) := by
  have hopen : ∀ p, Keeps (Settled w s₀) (act (Disk.open p flags 0)) :=
    fun p => Settled.quiet (quiet_open hc p 0)
  have hread : ∀ rr, Keeps (Settled w s₀) (openForRead rr flags) := by
    intro rr
    unfold openForRead
    split
    · split
      · exact Keeps.fail _
      · exact Keeps.pure _
    · exact Keeps.bind (hopen _) fun h => Keeps.pure _
  unfold vfsOpen
  refine Calmly.bind (Q := fun rr s => s = s₀ ∧ rr = lookup M s₀ v)
    (Calmly.look (resolve_agrees M v) (by rintro s rfl; exact ⟨rfl, rfl⟩)) fun rr => ?_
  refine Calmly.assuming ?_
  rintro s ⟨rfl, rfl⟩
  refine Calmly.ite (fun _ => Settles.fail hs _) fun _ => ?_
  refine Calmly.bind (Q := fun _ s' => s' = s) (Calmly.look (hitIsDir_agrees true _) fun s' h => h)
    fun isDir => ?_
  have hquiet : ∀ {m : Prog World Errno (Option OpenFile)}, Keeps (Settled w s) m → Settles w s m :=
    fun hm => Calmly.conseq hm (by rintro s' rfl; exact .refl hs) (fun _ _ h => h) fun _ _ h => h
  refine Calmly.ite (fun _ => Calmly.ite (fun _ => Settles.fail hs _) fun _ => hquiet (Keeps.pure _))
    fun _ => Calmly.ite (fun _ => Calmly.ite (fun _ => Settles.fail hs _) fun _ => ?_)
      fun _ => hquiet (hread _)
  exact Settles.copied hM hk hs hclean hv (Keeps.bind (hopen _) fun h => Keeps.pure _)

theorem vfsTruncate_settles (hM : M.writelayer = some w) (hk : NoKept M) (hs : Synced w s₀)
    (hclean : Clean v) (hv : OpenWay w s₀.disk.tree v) (file : Option OpenFile) (size : ℕ) :
    Settles w s₀ (vfsTruncate M v file size) := by
  unfold vfsTruncate
  refine Calmly.ite (fun _ => Settles.fail hs _) fun _ => ?_
  split
  · exact Calmly.conseq (Settled.quiet (quiet_ftruncate _ size)) (by rintro s rfl; exact .refl hs)
      (fun _ _ h => h) fun _ _ h => h
  · refine Calmly.bind (Q := fun rr s => s = s₀ ∧ rr = lookup M s₀ v)
      (Calmly.look (resolve_agrees M v) (by rintro s rfl; exact ⟨rfl, rfl⟩)) fun rr => ?_
    refine Calmly.assuming ?_
    rintro s ⟨rfl, rfl⟩
    refine Calmly.ite (fun _ => Settles.fail hs _) fun _ => ?_
    exact Settles.copied hM hk hs hclean hv (Settled.quiet (quiet_truncate _ size))

theorem vfsChmod_settles (hM : M.writelayer = some w) (hk : NoKept M) (hs : Synced w s₀)
    (hclean : Clean v) (hv : OpenWay w s₀.disk.tree v) {a : VfsAttr} (ha : attr M s₀ v = .ok a)
    (hlink : a.isSymlink = false) {mode : ℕ} (hmode : a.isDir = true → Full mode) :
    Settles w s₀ (vfsChmod M v mode) := by
  unfold vfsChmod
  refine Calmly.ite (fun _ => Settles.fail hs _) fun _ => ?_
  refine Calmly.bind (Q := fun rr s => s = s₀ ∧ rr = lookup M s₀ v)
    (Calmly.look (resolve_agrees M v) (by rintro s rfl; exact ⟨rfl, rfl⟩)) fun rr => ?_
  refine Calmly.assuming ?_
  rintro s ⟨rfl, rfl⟩
  refine Calmly.ite (fun _ => Settles.fail hs _) fun _ => ?_
  refine Calmly.bind (Q := fun _ t => Extends w v s t ∧ KindAt t (w ++ v) a.isDir a.isSymlink)
    (Calmly.conseq (Calmly.and (makeWritable_extends hM hk hs.shape hv hclean)
      (makeWritable_kind hM hk hs.shape hv hclean ha)) (fun _ h => h) (fun _ _ h => h)
      fun _ _ h => .of_extends hs h.1) fun _ => Calmly.assuming fun t ⟨hext, hkind⟩ => ?_
  have hset := Settled.of_extends hs hext
  rw [writeHost_eq hM hk]
  refine Calmly.act ?_
  rintro t rfl
  rcases Disk.chmod_cases (some (w ++ v)) mode t.disk with ⟨e, hf⟩ | ⟨q, hq, hrun⟩
  · rw [hf]
    exact hset
  · -- what is at the path is no link, and a directory only if the mount presents one
    obtain rfl := Disk.find_straight (hset.synced.shape.straight (hv.grew hext.tree fun _ => rfl))
      (fun target ht => by
        have hk := hkind _ ht
        rw [hlink] at hk
        cases hk) hq
    rcases hrun with ⟨i, -, hrun⟩ | ⟨hdir, hrun⟩
    · rw [hrun]
      exact hset.of_tree rfl
    · rw [hrun]
      obtain ⟨m, hm⟩ := hdir
      exact .trans hset.outside (hset.synced.setMode hclean ⟨m, hm⟩ (hmode (hkind _ hm)))

theorem vfsWrite_settles (hs : Synced w s₀) (file : OpenFile) (bs : Bytes) (off : ℕ) :
    Settles w s₀ (vfsWrite M file bs off) := by
  unfold vfsWrite
  refine Calmly.ite (fun _ => Settles.fail hs _) fun _ => ?_
  cases file with
  | zip zr => exact Settles.fail hs _
  | host h =>
      exact Calmly.conseq (Settled.quiet (quiet_pwrite h bs off)) (by rintro s rfl; exact .refl hs)
        (fun _ _ h => h) fun _ _ h => h

/-! ### Moving and linking -/

variable {vf vt : Path}

theorem unhideLower_eq (hk : NoKept M) (v : Path) :
    unhideLower M v = removeWhiteout M v := by
  rw [unhideLower, unhideKept, hk.keptLayerFor]
  rfl

theorem vfsLink_settles (hM : M.writelayer = some w) (hk : NoKept M) (hs : Synced w s₀)
    (hcleanf : Clean vf) (hvf : OpenWay w s₀.disk.tree vf) (hne : vt ≠ []) (hclean : Clean vt)
    (hvt : OpenWay w s₀.disk.tree vt) (hnot : vf <+: vt → vf = vt) :
    Settles w s₀ (vfsLink M vf vt) := by
  unfold vfsLink
  refine Calmly.ite (fun _ => Settles.fail hs _) fun _ => ?_
  refine Calmly.bind (Q := fun rr s => s = s₀ ∧ rr = lookup M s₀ vf)
    (Calmly.look (resolve_agrees M vf) (by rintro s rfl; exact ⟨rfl, rfl⟩)) fun rr => ?_
  refine Calmly.assuming ?_
  rintro s ⟨rfl, rfl⟩
  refine Calmly.ite (fun _ => Settles.fail hs _) fun _ =>
    Calmly.ite (fun _ => Settles.fail hs _) fun _ => ?_
  refine Calmly.bind (Q := fun _ s' => s' = s) (Calmly.look (resolve_agrees M vt) fun s' h => h)
    fun there => Calmly.ite (fun _ => Settles.fail hs _) fun _ => ?_
  refine Calmly.bind (Q := fun _ => Extends w vf s)
    (Calmly.conseq (makeWritable_extends hM hk hs.shape hvf hcleanf) (fun _ h => h) (fun _ _ h => h)
      fun _ _ h => .of_extends hs h) fun _ => Calmly.assuming fun s₁ h₁ => ?_
  have hs₁ := hs.of_extends h₁
  have hway₁ : OpenWay w s₁.disk.tree vt := hvt.grew h₁.tree hnot
  rw [linkTo, hk.passthroughHost, writeHost_eq hM hk, wlPath_eq hM, unhideLower_eq hk]
  refine Calmly.bind (Q := fun _ s' => Settled w s₁ s' ∧ OpenWay w s'.disk.tree vt)
    (Calmly.bind (Q := fun _ s' => Ready w vt s₁ s' ∧ s'.disk.tree.IsDir (w ++ vt.dropLast))
      (Calmly.conseq (E := fun _ => Settled w s) (ensureWriteParent_ready hM hne hclean)
        (by rintro s' rfl; exact .refl hs₁ hway₁) (fun _ _ h => h) fun _ _ h => h)
      fun _ => Calmly.act ?_) fun _ => ?_
  · rintro s' ⟨hready, -⟩
    rcases Disk.link_cases (some (w ++ vf)) (some (w ++ vt)) s'.disk with
      ⟨e, hf⟩ | ⟨a, b, nd, -, hb, -, hnd, hnone, -, hput, hi, hrun⟩
    · rw [hf]
      exact .trans h₁.sameOutside hready.settled
    · obtain rfl := Disk.find_false_straight (hready.synced.shape.straight hready.way) hb
      rw [hrun]
      have hfile : ∀ m, nd = .dir m → Full m := by
        rintro m ⟨rfl⟩
        cases hnd
      exact ⟨hready.put hclean hnone hput hfile rfl,
        hready.way.grew (v := vt) (Grew.put hput hnone hclean hfile) fun _ => rfl⟩
  · -- only now is the name no longer deleted
    refine Calmly.ignoring (Calmly.assuming fun s' h' => ?_)
    refine Calmly.conseq (removeWhiteout_unhidden hM h'.1.synced hne hclean h'.2) (fun _ h => h)
      (fun _ _ h => ?_) fun _ _ h => h
    exact .trans h₁.sameOutside (.trans h'.1.outside ⟨h.synced, h.names.outside⟩)

/-- The directories that are made block no way. -/
theorem MadeDirs.openWay {u : Path} {s s' : VfsState} (h : MadeDirs w u s s')
    (hv : OpenWay w s.disk.tree v) : OpenWay w s'.disk.tree v := by
  intro q hq hne
  by_cases hmade : w ++ q <+: w ++ u ∧ s.disk.tree.node (w ++ q) = none
  · exact Or.inr ⟨0o777, by rw [h.tree, if_pos hmade]⟩
  · rw [Tree.IsDir, h.tree, if_neg hmade]
    exact hv q hq hne

/-- What a lookup finds is not whiteouted. -/
theorem not_mem_of_lookup (hM : M.writelayer = some w) (hs : Shape w s₀.disk.tree) (hne : v ≠ [])
    (hv : OpenWay w s₀.disk.tree v) (h : (lookup M s₀ v).isNone = false) : v ∉ s₀.whiteoutSet := by
  intro hmem
  rw [lookup_eq hM hs hv, if_pos (by simp [isWhiteouted, hM, hne, hmem])] at h
  cases h

/-- A directory of the writelayer that a lookup finds shows as one. -/
theorem dirHit_of_isDir (hM : M.writelayer = some w) (hs : Shape w s₀.disk.tree)
    (hv : OpenWay w s₀.disk.tree v) (h : (lookup M s₀ v).isNone = false)
    (hdir : s₀.disk.tree.IsDir (w ++ v)) : dirHit s₀ (lookup M s₀ v) = true := by
  rw [lookup_eq hM hs hv] at h ⊢
  by_cases hgone : isWhiteouted M s₀ v = true
  · rw [if_pos hgone] at h
    cases h
  · rw [if_neg hgone, if_pos hdir.ne_none]
    obtain ⟨m, hm⟩ := hdir
    change (s₀.disk.lstat (some (w ++ v))).toOption.any (·.isDir) = true
    rw [Disk.lstat_straight_some (hs.straight hv) hm]
    rfl

/-- No mask lies under `v`. -/
def Unmasked (v : Path) (s : VfsState) : Prop :=
  (∀ x ∈ s.whiteoutSet, ¬ v <+: x) ∧ ∀ x ∈ s.opaqueSet, ¬ v <+: x

/-- There are no masks but under directories. -/
theorem Synced.unmasked (hs : Synced w s₀) (hne : v ∉ s₀.whiteoutSet)
    (hdir : ¬ s₀.disk.tree.IsDir (w ++ v)) : Unmasked v s₀ := by
  have habove : ∀ (u : Path) (k : Name), s₀.disk.tree.node (w ++ u ++ [k]) ≠ none → ¬ v <+: u := by
    intro u k hnode hvu
    refine hdir (Tree.isDir_above hnode ((append_le_append.2 hvu).trans (List.prefix_append _ _)) ?_)
    intro he
    have h₁ := congrArg List.length he
    have h₂ := hvu.length_le
    simp only [List.length_append, List.length_singleton] at h₁
    omega
  constructor
  · intro x hx hvx
    rcases x.eq_nil_or_concat' with rfl | ⟨u, n, rfl⟩
    · exact hs.root hx
    · rcases List.prefix_concat_iff.1 hvx with rfl | hvu
      · exact hne hx
      · exact habove u (mark n) ((hs.whiteouts u n).1 hx).2 hvu
  · exact fun x hx hvx => habove x opaqueName ((hs.opaques x).1 hx) hvx

/-- The state with its masks moved along. -/
def carried (vf vt : Path) (s : VfsState) : VfsState :=
  { s with
    whiteoutSet := s.whiteoutSet.image (movePrefix vf vt)
    opaqueSet := s.opaqueSet.image (movePrefix vf vt) }

theorem carried_eq {s : VfsState} (hf : vf ≠ []) (h : Unmasked vf s) : carried vf vt s = s := by
  rw [carried, image_movePrefix_eq hf h.1, image_movePrefix_eq hf h.2]

/-- **The move itself**: the masks are in step once they have moved along, and where nothing is masked
under the old name they need not. -/
theorem rename_carried (hs : Synced w s₀) (hf : vf ≠ []) (hcleanf : Clean vf) (ht : vt ≠ [])
    (hcleant : Clean vt) (hvf : OpenWay w s₀.disk.tree vf) (hvt : OpenWay w s₀.disk.tree vt)
    (hgone : vf ∉ s₀.whiteoutSet) {b : Bool} (hb : b = false → Unmasked vf s₀) :
    Calmly (fun s => s = s₀) (act (Disk.rename (some (w ++ vf)) (some (w ++ vt))))
      (fun _ s => OpenWay w s.disk.tree vf ∧ (b = true → vf ≠ vt → Settled w s₀ (carried vf vt s)) ∧
        (b = false ∨ vf = vt → Settled w s₀ s))
      (fun _ => Settled w s₀) := by
  refine Calmly.act ?_
  rintro s rfl
  rcases Disk.rename_cases (some (w ++ vf)) (some (w ++ vt)) s.disk with
    ⟨e, hfail⟩ | ⟨p, q, hp, hq, ⟨hsame, -, hrun⟩ | ⟨-, -, hnot, hm, hrun⟩⟩
  · rw [hfail]
    exact .refl hs
  · -- two names of one file, or one name twice
    obtain rfl := Disk.find_false_straight (hs.shape.straight hvf) hp
    obtain rfl := Disk.find_false_straight (hs.shape.straight hvt) hq
    rw [hrun]
    refine ⟨hvf, fun _ hne => ?_, fun _ => .refl hs⟩
    rcases hsame with he | ⟨i, hi, -⟩
    · exact absurd (List.append_cancel_left he) hne
    · rw [carried_eq hf (hs.unmasked hgone ?_)]
      · exact .refl hs
      · rintro ⟨m, hdir⟩
        rw [show s.disk.tree.node (w ++ vf) = _ from hi] at hdir
        cases hdir
  · obtain rfl := Disk.find_false_straight (hs.shape.straight hvf) hp
    obtain rfl := Disk.find_false_straight (hs.shape.straight hvt) hq
    rw [hrun]
    have hmove := hs.of_move hm hf hcleanf ht hcleant hgone
    refine ⟨fun q hq hne => ?_, fun _ _ => hmove, ?_⟩
    · have hother := moved_node_other hm (fun hle => hnot (append_le_append.2 (hle.trans hq)))
        fun hle => hne (hq.eq_of_length_le hle.length_le)
      rw [Tree.IsDir, hother]
      exact hvf q hq hne
    · rintro (hfalse | rfl)
      · have hun := hb hfalse
        rwa [image_movePrefix_eq hf hun.1, image_movePrefix_eq hf hun.2] at hmove
      · exact absurd List.prefix_rfl hnot

theorem keptRenamePrefix_eq (hk : NoKept M) (vf vt : Path) : keptRenamePrefix M vf vt = pure () := by
  rw [keptRenamePrefix, hk.keptLayerFor]

theorem vfsRename_settles (hM : M.writelayer = some w) (hk : NoKept M) (hs : Synced w s₀)
    (hplain : PlainLayers M w s₀) (hf : vf ≠ []) (hcleanf : Clean vf) (hvf : OpenWay w s₀.disk.tree vf)
    (ht : vt ≠ []) (hcleant : Clean vt) (hvt : OpenWay w s₀.disk.tree vt) (hnot : vf <+: vt → vf = vt) :
    Settles w s₀ (vfsRename M vf vt) := by
  unfold vfsRename
  refine Calmly.ite (fun _ => Settles.fail hs _) fun _ => ?_
  refine Calmly.bind (Q := fun rr s => s = s₀ ∧ rr = lookup M s₀ vf)
    (Calmly.look (resolve_agrees M vf) (by rintro s rfl; exact ⟨rfl, rfl⟩)) fun rr => ?_
  refine Calmly.assuming ?_
  rintro s ⟨rfl, rfl⟩
  refine Calmly.ite (fun _ => Settles.fail hs _) fun hnone => ?_
  have hnone : (lookup M s vf).isNone = false := by simpa using hnone
  refine Calmly.bind (Q := fun b s' => s' = s ∧ b = dirHit s (lookup M s vf))
    (Calmly.look (hitIsDir_agrees false _) (by rintro s' rfl; exact ⟨rfl, rfl⟩)) fun b => ?_
  refine Calmly.assuming ?_
  rintro s ⟨rfl, rfl⟩
  have hgone := not_mem_of_lookup hM hs.shape hf hvf hnone
  have hunmasked : dirHit s (lookup M s vf) = false → Unmasked vf s := by
    intro hhit
    refine hs.unmasked hgone fun hdir => ?_
    rw [dirHit_of_isDir hM hs.shape hvf hnone hdir] at hhit
    cases hhit
  generalize dirHit s (lookup M s vf) = b at hunmasked
  -- what is to be moved is brought up
  refine Calmly.bind (Q := fun _ => Extends w vf s) ?_ fun _ => Calmly.assuming fun s₁ h₁ => ?_
  · refine Calmly.ite (fun _ => ?_) fun _ => ?_
    · exact Calmly.conseq (deepCopyUp_extends hM hk M.pathDepth hs.shape hvf hcleanf hplain)
        (fun _ h => h) (fun _ _ h => h) fun _ _ h => .of_extends hs h
    · exact Calmly.conseq (makeWritable_extends hM hk hs.shape hvf hcleanf) (fun _ h => h)
        (fun _ _ h => h) fun _ _ h => .of_extends hs h
  have hs₁ := hs.of_extends h₁
  have hvf₁ : OpenWay w s₁.disk.tree vf := hvf.grew h₁.tree fun _ => rfl
  have hvt₁ : OpenWay w s₁.disk.tree vt := hvt.grew h₁.tree hnot
  have hkept : ∀ {P : VfsState → Prop} {E : Errno → VfsState → Prop},
      Calmly P (runIf b (keptRenamePrefix M vf vt)) (fun _ => P) E := by
    intro P E
    rw [keptRenamePrefix_eq hk]
    exact Calmly.ite (fun _ => Calmly.pure fun _ h => h) fun _ => Calmly.pure fun _ h => h
  refine Calmly.bind (Q := fun _ s' => OpenWay w s'.disk.tree vf ∧
    (b = true → vf ≠ vt → Settled w s (carried vf vt s')) ∧ (b = false ∨ vf = vt → Settled w s s'))
    ?_ fun _ => ?_
  · rw [moveTo, hk.passthroughHost, writeHost_eq hM hk, wlPath_eq hM]
    refine Calmly.bind (ensureWriteParent_made hM hs₁.shape hvt₁ ht) fun _ =>
      Calmly.assuming fun s₂ h₂ => ?_
    have hext₂ : Extends w vt s₁ s₂ := h₂.toExtends hs₁.shape (List.dropLast_prefix vt) hcleant
    refine Calmly.bind (removeWhiteout_unhidden hM (hs₁.of_extends hext₂) ht hcleant
      (h₂.openWay hvt₁)) fun _ => Calmly.assuming fun s₃ h₃ => ?_
    have hout : SameOutside w s s₃ :=
      (h₁.sameOutside.trans hext₂.sameOutside).trans h₃.names.outside
    have hwh : s₃.whiteoutSet ⊆ s.whiteoutSet := by
      rw [h₃.whiteoutSet, h₂.whiteoutSet, h₁.whiteoutSet]
      exact Finset.erase_subset _ _
    have hopq : s₃.opaqueSet = s.opaqueSet := by
      rw [h₃.opaqueSet, h₂.opaqueSet, h₁.opaqueSet]
    have hun : b = false → Unmasked vf s₃ := fun hb =>
      ⟨fun x hx => (hunmasked hb).1 x (hwh hx), by rw [hopq]; exact (hunmasked hb).2⟩
    refine Calmly.bind (Calmly.conseq (rename_carried h₃.synced hf hcleanf ht hcleant
      (h₃.names.openWay hcleanf (h₂.openWay hvf₁)) (h₃.names.openWay hcleant (h₂.openWay hvt₁))
      (fun hmem => hgone (hwh hmem)) hun) (fun _ h => h) (fun _ _ h => h) fun _ _ h => .trans hout h)
      fun _ => ?_
    exact Calmly.conseq hkept (fun _ h => h) (fun _ s' h => ⟨h.1, fun hb hne => .trans hout (h.2.1 hb hne),
      fun hb => .trans hout (h.2.2 hb)⟩) fun _ _ h => h
  -- the masks move along, and what shows below the old name is hidden
  refine Calmly.bind (Q := fun _ s' => Settled w s s' ∧ OpenWay w s'.disk.tree vf) ?_ fun _ => ?_
  · unfold renameMaskPrefix
    refine Calmly.ite (fun hb => Calmly.ite (fun hstay => Calmly.pure fun s' h => ?_)
      fun hmoves => Calmly.mutate fun s' h => ?_) fun hb => Calmly.pure fun s' h => ?_
    · rcases hstay with hM' | he
      · rw [hM] at hM'
        cases hM'
      · exact ⟨h.2.2 (Or.inr he), h.1⟩
    · exact ⟨h.2.1 hb fun he => hmoves (Or.inr he), h.1⟩
    · exact ⟨h.2.2 (Or.inl (by simpa using hb)), h.1⟩
  · rw [hideLower, hk.keptLayerFor]
    exact hideRest_settled hM hf hcleanf

end

/-! ### Runs -/

/-- **Every operation keeps the masks in step**, whether it succeeds or fails. -/
theorem exec_settles (hM : M.writelayer = some w) (hk : NoKept M) {s₀ : VfsState} (hs : Synced w s₀)
    (hplain : PlainLayers M w s₀) {op : Op} (hop : AsKernel M w s₀ op) (hopen : LeavesOpen M s₀ op) :
    Settles w s₀ (exec M op) := by
  have hway : ∀ {v : Path}, Asked M s₀ v → OpenWay w s₀.disk.tree v :=
    fun h => h.walks.openWay hM hs.shape
  have hunit : ∀ {α : Type} {m : Prog World Errno α}, Settles w s₀ m → Settles w s₀ (do let _ ← m) :=
    fun hm => Calmly.bind hm fun _ => Calmly.pure fun _ h => h
  cases op with
  | create v mode flags =>
      exact hunit (vfsCreate_settles hM hk hs hop.1.ne hop.1.clean (hway hop.1) hop.2 mode flags)
  | mkdir v mode => exact vfsMkdir_settles hM hk hs hop.ne hop.clean (hway hop) hopen
  | symlink target v => exact vfsSymlink_settles hM hk hs hop.ne hop.clean (hway hop) target
  | link vf vt =>
      obtain ⟨hf, ht, hdir⟩ := hop
      refine vfsLink_settles hM hk hs hf.clean (hway hf) ht.ne ht.clean (hway ht) fun hle => ?_
      by_contra hne
      exact hdir (ht.walks vf hle hne)
  | unlink v => exact vfsUnlink_settles hM hk hs hop.ne hop.clean (hway hop)
  | rmdir v => exact vfsRmdir_settles hM hk hs hop.1.ne hop.1.clean (hway hop.1) hop.2
  | rename vf vt =>
      obtain ⟨hf, ht, hnot⟩ := hop
      exact vfsRename_settles hM hk hs hplain hf.ne hf.clean (hway hf) ht.ne ht.clean (hway ht) hnot
  | open_ v flags => exact hunit (vfsOpen_settles hM hk hs hop.1.clean (hway hop.1) hop.2)
  | write file bs off => exact hunit (vfsWrite_settles hs file bs off)
  | truncate v file size => exact vfsTruncate_settles hM hk hs hop.clean (hway hop) file size
  | chmod v mode =>
      obtain ⟨hclean, hwalks, a, ha, hlink⟩ := hop
      exact vfsChmod_settles hM hk hs hclean (hwalks.openWay hM hs.shape) ha hlink
        fun hdir => hopen ⟨a, ha, hdir⟩

/-- The worlds of a mount that the kernel uses, on a host that refuses nothing of its own, and whose
directories stay open to it. -/
def Used (M : Mount) (w : Path) (d : Disk) : World → Prop :=
  Reaches M (fun W op => AsKernel M w W.state op ∧ LeavesOpen M W.state op) (mounted M d allowed allowed)

section

variable (hM : M.writelayer = some w) (hk : NoKept M) {d : Disk}
  (hd : Shape w (mounted M d allowed allowed).state.disk.tree)
  (hplain : PlainLayers M w (mounted M d allowed allowed).state)
include hM hk hd hplain

/-- **Every run keeps the masks in step.** -/
theorem used_settled {W : World} (h : Used M w d W) :
    W.Calm ∧ Settled w (mounted M d allowed allowed).state W.state := by
  refine Reaches.invariant
    (I := fun W => W.Calm ∧ Settled w (mounted M d allowed allowed).state W.state) h ?_ ?_
  · have hsynced : Synced w (mounted M d allowed allowed).state := by
      rw [mounted_reads hM hk d]
      exact synced_mountedState hd
    refine ⟨?_, .refl hsynced⟩
    rw [mounted_reads hM hk d]
    exact calm_calm _
  · rintro W op ⟨hcalm, hset⟩ hop
    have hpost := exec_settles hM hk hset.synced (hplain.mono hset.outside) hop.1 hop.2 W ⟨hcalm, rfl⟩
    rcases hrun : exec M op W with ⟨e | a, W'⟩ <;> rw [hrun] at hpost <;>
      exact ⟨hpost.1, .trans hset.outside hpost.2⟩

/-- A mount over the files that a run leaves. -/
theorem used_mounted {W : World} (h : Used M w d W) : mounted M W.state.disk allowed allowed = W := by
  obtain ⟨hcalm, hset⟩ := used_settled hM hk hd hplain h
  rw [mounted_state hM hk hset.synced.shape, ← hset.synced.eq_mountedState]
  exact hcalm.eq.symm

/-- **Mounting again gives the state back**: whatever was done, the masks in memory are those that the
files show, and a later mount over the same files starts where the first one ended. -/
theorem mounted_again {W : World} (h : Used M w d W) :
    Synced w W.state ∧ mounted M W.state.disk allowed allowed = W :=
  ⟨(used_settled hM hk hd hplain h).2.synced, used_mounted hM hk hd hplain h⟩

/-- **The masks are those that a mount rebuilds**, and it answers every lookup as the first one did. -/
theorem masks_remounted {W : World} (h : Used M w d W) :
    (seedMasksFromWritelayer M W.state).whiteoutSet = W.state.whiteoutSet ∧
      (seedMasksFromWritelayer M W.state).opaqueSet = W.state.opaqueSet ∧
      ∀ v, lookup M (mounted M W.state.disk allowed allowed).state v = lookup M W.state v := by
  have hread := (used_settled hM hk hd hplain h).2.synced.eq_mountedState
  have hseed : seedMasksFromWritelayer M W.state =
      { W.state with
        whiteoutSet := (mountedState w W.state.disk).whiteoutSet
        opaqueSet := (mountedState w W.state.disk).opaqueSet } := by
    rw [seedMasksFromWritelayer, if_neg (by simp [hM]), hM]
    rfl
  refine ⟨?_, ?_, fun v => ?_⟩
  · rw [hseed, ← hread]
  · rw [hseed, ← hread]
  · rw [used_mounted hM hk hd hplain h]

end

/-! ### One file below the writelayer -/

theorem canPut_writelayer : Disk.blank.tree.CanPut ["w"] (.dir 0o755) :=
  ⟨by simp, ⟨0o755, rfl⟩, fun h => ⟨0o755, rfl⟩⟩

/-- The writelayer's directory, and nothing else. -/
def bareDisk : Disk := Disk.blank.put ["w"] (.dir 0o755) canPut_writelayer (by simp)

theorem canPut_oneFile : bareDisk.tree.CanPut ["pkg"] (.file bareDisk.next) := by
  refine ⟨by simp, ⟨0o755, rfl⟩, ?_⟩
  rintro ⟨m, hm⟩
  cases hm

/-- The writelayer's directory and a file beside it. -/
def oneFileDisk : Disk := bareDisk.addFile ["pkg"] 0o644 canPut_oneFile

/-- The file as the one layer below the writelayer. -/
def oneFileMount : Mount where
  writelayer := some ["w"]
  readOnly := false
  flattenSymlinks := false
  layers := [⟨.file, some ["pkg"], [], [], false, [], 0⟩]
  priority_eq := rfl
  pathDepth := 8

theorem oneFileDisk_node (q : Path) : oneFileDisk.tree.node q =
    if q = ["pkg"] then some (.file 0) else if q = ["w"] then some (.dir 0o755)
    else if q = [] then some (.dir 0o755) else none := rfl

theorem oneFileDisk_shape : Shape ["w"] oneFileDisk.tree where
  above q hq hne := by
    rcases List.prefix_concat_iff.1 (show q <+: [] ++ ["w"] from hq) with rfl | hq
    · exact absurd rfl hne
    · rw [List.prefix_nil.1 hq]
      exact ⟨0o755, rfl, by decide⟩
  root := ⟨0o755, rfl⟩
  full v m hm := by
    rw [oneFileDisk_node] at hm
    split_ifs at hm with h₁ h₂ h₃
    · cases hm
    · obtain rfl : 0o755 = m := by simpa using hm
      decide
    · simp at h₃
  markers v n hn hne := by
    rw [oneFileDisk_node, if_neg (by simp), if_neg (by simp), if_neg (by simp)] at hne
    exact absurd rfl hne

theorem oneFileMount_noKept : NoKept oneFileMount := by
  intro L hL
  obtain rfl := List.mem_singleton.1 hL
  rfl

theorem oneFileMount_plain (s : VfsState) : PlainLayers oneFileMount ["w"] s := by
  refine plainLayers_of oneFileMount_noKept (fun L hL => ?_) fun s' _ L hL v n hn => ?_
  · obtain rfl := List.mem_singleton.1 hL
    intro n hn
    obtain rfl := List.mem_singleton.1 hn
    decide
  · obtain rfl := List.mem_singleton.1 hL
    exact absurd hn List.not_mem_nil

/-- The mount after the file has been deleted in it. -/
def unlinkedWorld : World :=
  (exec oneFileMount (.unlink ["pkg"]) (mounted oneFileMount oneFileDisk allowed allowed)).2

theorem walks_singleton (M : Mount) (s : VfsState) (n : Name) : Walks M s [n] := by
  intro q hq hne
  rcases List.prefix_concat_iff.1 (show q <+: [] ++ [n] from hq) with rfl | hq
  · exact absurd rfl hne
  · rw [List.prefix_nil.1 hq]
    exact ⟨_, rfl, rfl⟩

theorem unlinkedWorld_used : Used oneFileMount ["w"] oneFileDisk unlinkedWorld := by
  refine .step (.unlink ["pkg"]) .refl ⟨⟨by simp, ?_, walks_singleton _ _ _⟩, trivial⟩
  intro n hn
  obtain rfl := List.mem_singleton.1 hn
  decide

/-- The deletion is still there when the files are mounted again. -/
theorem mounted_again_unlinked : ["pkg"] ∈ unlinkedWorld.state.whiteoutSet ∧
    mounted oneFileMount unlinkedWorld.state.disk allowed allowed = unlinkedWorld := by
  have hstart := mounted_state rfl oneFileMount_noKept oneFileDisk_shape
  refine ⟨by decide +kernel, (mounted_again rfl oneFileMount_noKept ?_ ?_ unlinkedWorld_used).2⟩
  · rw [hstart]
    exact oneFileDisk_shape
  · exact oneFileMount_plain _

/-! ### A directory made again -/

/-- A file in a directory of its own, as the one layer below the writelayer. -/
def nestedFileMount : Mount :=
  { oneFileMount with layers := [⟨.file, some ["pkg"], ["b"], [], false, [], 0⟩] }

theorem nestedFileMount_noKept : NoKept nestedFileMount := by
  intro L hL
  obtain rfl := List.mem_singleton.1 hL
  rfl

theorem nestedFileMount_plain (s : VfsState) : PlainLayers nestedFileMount ["w"] s := by
  refine plainLayers_of nestedFileMount_noKept (fun L hL => ?_) fun s' _ L hL v n hn => ?_
  · obtain rfl := List.mem_singleton.1 hL
    intro n hn
    rcases List.mem_pair.1 (show n ∈ ["b", "pkg"] from hn) with rfl | rfl <;> decide
  · obtain rfl := List.mem_singleton.1 hL
    exact absurd hn List.not_mem_nil

/-- The file is deleted, then its directory. -/
def clearedWorld : World :=
  (exec nestedFileMount (.rmdir ["b"]) (exec nestedFileMount (.unlink ["b", "pkg"])
    (mounted nestedFileMount oneFileDisk allowed allowed)).2).2

/-- The directory is made again. -/
def remadeWorld (mode : ℕ) : World := (exec nestedFileMount (.mkdir ["b"] mode) clearedWorld).2

theorem asked_b (s : VfsState) : Asked nestedFileMount s ["b"] := by
  refine ⟨by simp, ?_, walks_singleton _ _ _⟩
  intro n hn
  obtain rfl := List.mem_singleton.1 hn
  decide

/-- The two deletions are such as the kernel asks for. -/
theorem clearedWorld_reached {ok : World → Op → Prop}
    (hok : ∀ W op, AsKernel nestedFileMount ["w"] W.state op → LeavesOpen nestedFileMount W.state op →
      ok W op) :
    Reaches nestedFileMount ok (mounted nestedFileMount oneFileDisk allowed allowed) clearedWorld := by
  have hdir : ∀ {s}, (attr nestedFileMount s ["b"]).toOption.any (·.isDir) = true →
      DirAt nestedFileMount s ["b"] := by
    intro s hany
    cases ha : attr nestedFileMount s ["b"] with
    | error e =>
        rw [ha] at hany
        cases hany
    | ok a =>
        rw [ha] at hany
        exact ⟨a, ha, hany⟩
  refine .step (.rmdir ["b"]) (.step (.unlink ["b", "pkg"]) .refl (hok _ _ ⟨by simp, ?_, ?_⟩ trivial))
    (hok _ _ ⟨asked_b _, hdir (by decide +kernel)⟩ trivial)
  · intro n hn
    rcases List.mem_pair.1 hn with rfl | rfl <;> decide
  · intro q hq hne
    rcases List.prefix_concat_iff.1 (show q <+: ["b"] ++ ["pkg"] from hq) with rfl | hq
    · exact absurd rfl hne
    · by_cases hqb : q = ["b"]
      · rw [hqb]
        exact hdir (by decide +kernel)
      · exact walks_singleton _ _ _ q hq hqb

/-- Made again with all rights and then closed to all but its owner, the directory stays empty. -/
theorem masks_remounted_closed :
    ["b"] ∈ (exec nestedFileMount (.chmod ["b"] 0o700) (remadeWorld 0o755)).2.state.opaqueSet ∧
      (seedMasksFromWritelayer nestedFileMount
          (exec nestedFileMount (.chmod ["b"] 0o700) (remadeWorld 0o755)).2.state).opaqueSet =
        (exec nestedFileMount (.chmod ["b"] 0o700) (remadeWorld 0o755)).2.state.opaqueSet := by
  have hstart := mounted_state rfl nestedFileMount_noKept oneFileDisk_shape
  have hused : Used nestedFileMount ["w"] oneFileDisk
      (exec nestedFileMount (.chmod ["b"] 0o700) (remadeWorld 0o755)).2 := by
    refine .step (.chmod ["b"] 0o700) (.step (.mkdir ["b"] 0o755)
      (clearedWorld_reached fun _ _ h h' => ⟨h, h'⟩) ⟨asked_b _, show Full 0o755 by decide⟩)
      ⟨⟨(asked_b (remadeWorld 0o755).state).clean, (asked_b _).walks, ⟨true, false, 0o755, 0⟩, by decide +kernel, rfl⟩,
        fun _ => show Full 0o700 by decide⟩
  refine ⟨by decide +kernel, (masks_remounted rfl nestedFileMount_noKept ?_ ?_ hused).2.1⟩
  · rw [hstart]
    exact oneFileDisk_shape
  · exact nestedFileMount_plain _

/-- **A directory that is made again without rights** takes no opaque marker: the run shows it empty,
and the next mount shows in it what was deleted. -/
theorem remount_forgets :
    Reaches nestedFileMount (fun W op => AsKernel nestedFileMount ["w"] W.state op)
      (mounted nestedFileMount oneFileDisk allowed allowed) (remadeWorld 0) ∧
    ["b"] ∈ (remadeWorld 0).state.opaqueSet ∧
    ["b"] ∉ (seedMasksFromWritelayer nestedFileMount (remadeWorld 0).state).opaqueSet ∧
    (lookup nestedFileMount (remadeWorld 0).state ["b", "pkg"]).isNone = true ∧
    (lookup nestedFileMount (mounted nestedFileMount (remadeWorld 0).state.disk allowed allowed).state
      ["b", "pkg"]).isNone = false :=
  ⟨.step (.mkdir ["b"] 0) (clearedWorld_reached fun _ _ h _ => h) (asked_b _),
    by decide +kernel, by decide +kernel, by decide +kernel, by decide +kernel⟩

end VidyaGodFS
