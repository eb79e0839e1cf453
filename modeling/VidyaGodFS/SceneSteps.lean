/-
**The steps of an operation, and what shows.**

An operation on a path works in steps: a whiteout is taken away or put, directories are made on the
way, what shows is copied up, an entry goes.  Each step keeps the state in good order, and changes the
scene at the path at most.

Main definitions:

* `Ages` — programs that change no file that was there;
* `Fresh` — the place for a new entry.

Main results:

* `ensureWriteParent_still`, `makeWritable_still` — **making the way and copying up show nothing new**;
* `removeWhiteout_else`, `createWhiteout_else`, `unlinkWriteCopy_else`, `removeWriteDir_else` — the
  steps that change what shows at their path.
-/

import VidyaGodFS.SceneList

set_option relaxedAutoImplicit false
set_option autoImplicit false

namespace Posix.Disk

/-! ### Calls on straight paths -/

variable {d : Disk} {p : Path}

/-- A new link. -/
theorem symlink_straight (h : d.tree.Straight p) (hp : p ≠ []) (hnone : d.tree.node p = none) {m : ℕ}
    (hpar : d.tree.node p.dropLast = some (.dir m)) (hm : Full m) {target : String} (htarget : target ≠ "") :
    ∃ hput hi, symlink target (some p) d = (.ok (), d.put p (.link target) hput hi) := by
  have hput : d.tree.CanPut p (.link target) :=
    ⟨hp, ⟨m, hpar⟩, fun hdir => absurd hnone hdir.ne_none⟩
  have hfind : d.find false (some p) = .ok p := h.locate_of_parent hp ⟨m, hpar⟩ (fun _ _ => rfl)
  refine ⟨hput, by simp, ?_⟩
  rw [symlink, if_neg htarget, atPath_of_ok hfind, newEntry, if_neg (not_not.2 hnone),
    if_pos (writable_of_full hpar hm), dif_pos hput]

theorem canErase_of_not_dir (hp : p ≠ []) (hdir : ¬ d.tree.IsDir p) : d.tree.CanErase p := by
  refine ⟨hp, Tree.children_eq_nil_iff.2 fun n => ?_⟩
  exact Tree.node_eq_none_of_not_isDir hdir (List.prefix_append _ _) (append_singleton_ne p n).symm

/-- Taking away an entry that is no directory, if there is one. -/
theorem unlink_straight_cases (h : d.tree.Straight p) (hp : p ≠ []) (hdir : ¬ d.tree.IsDir p) {m : ℕ}
    (hpar : d.tree.node p ≠ none → d.tree.node p.dropLast = some (.dir m)) (hm : Full m) :
    (d.tree.node p = none ∧ unlink (some p) d = (.error .enoent, d)) ∨
      ∃ he, unlink (some p) d = (.ok (), d.erase p he) := by
  cases hnode : d.tree.node p with
  | none =>
      refine Or.inl ⟨rfl, ?_⟩
      rcases @Tree.Straight.locate _ _ h false (fun _ _ => rfl) with hok | ⟨herr, -⟩
      · have hfind : d.find false (some p) = .ok p := hok
        refine (atPath_of_ok hfind _).trans ?_
        rw [hnode]
      · have hfind : d.find false (some p) = .error .enoent := herr
        exact atPath_of_error hfind _
  | some nd =>
      have he := canErase_of_not_dir hp hdir
      refine Or.inr ⟨he, ?_⟩
      have hfind : d.find false (some p) = .ok p := h.locate_of_node hnode (fun _ _ => rfl)
      have hw := writable_of_full (hpar (by simp [hnode])) hm
      refine (atPath_of_ok hfind _).trans ?_
      rw [hnode]
      cases nd with
      | dir m' => exact absurd ⟨m', hnode⟩ hdir
      | _ =>
          dsimp only
          rw [if_pos hw, dif_pos he]

/-- Taking away an empty directory. -/
theorem rmdir_straight (h : d.tree.Straight p) {m' : ℕ} (hnode : d.tree.node p = some (.dir m'))
    (he : d.tree.CanErase p) {m : ℕ} (hpar : d.tree.node p.dropLast = some (.dir m)) (hm : Full m) :
    rmdir (some p) d = (.ok (), d.erase p he) := by
  have hfind : d.find false (some p) = .ok p := h.locate_of_node hnode (fun _ _ => rfl)
  refine (atPath_of_ok hfind _).trans ?_
  rw [hnode]
  dsimp only
  rw [if_neg he.1, if_pos (writable_of_full hpar hm), dif_pos he]

end Posix.Disk

namespace VidyaGodFS

open Posix

variable {M : Mount} {w : Path}

/-! ### Files that stay -/

/-- The call changes no file that was there. -/
def Ageless {α : Type} (call : Call α) : Prop := ∀ d, Older d (call d).2

theorem ageless_of_failed {α : Type} {r : Except Errno α × Disk} {d : Disk} (h : Disk.Failed r d) :
    Older d r.2 := by
  obtain ⟨e, rfl⟩ := h
  exact .refl d

theorem ageless_mkdir (p : HostPath) (mode : ℕ) : Ageless (Disk.mkdir p mode) := by
  intro d
  rcases Disk.mkdir_cases p mode d with hf | ⟨q, -, -, -, hput, hi, hrun⟩
  · exact ageless_of_failed hf
  · rw [hrun]
    exact ⟨le_rfl, fun _ _ => rfl, rfl⟩

theorem ageless_unlink (p : HostPath) : Ageless (Disk.unlink p) := by
  intro d
  rcases Disk.unlink_cases p d with hf | ⟨q, nd, -, -, -, -, he, hrun⟩
  · exact ageless_of_failed hf
  · rw [hrun]
    exact ⟨le_rfl, fun _ _ => rfl, rfl⟩

theorem older_addFile {d : Disk} {p : Path} {mode : ℕ} (h : d.tree.CanPut p (.file d.next)) :
    Older d (d.addFile p mode h) := ⟨Nat.le_succ _, fun _ hi => Function.update_of_ne (Nat.ne_of_lt hi) _ _, rfl⟩

/-- Opening without cutting. -/
theorem ageless_open {fl : OpenFlags} (hfl : fl.trunc = false) (p : HostPath) (mode : ℕ) :
    Ageless (Disk.open p fl mode) := by
  intro d
  rcases Disk.open_cases p fl mode d with hf | ⟨q, -, ⟨-, -, -, hput, hrun⟩ | ⟨i, -, hrun⟩ | ⟨-, hrun⟩⟩
  · exact ageless_of_failed hf
  · rw [hrun]
    exact older_addFile hput
  · rw [hrun, hfl]
    exact .refl d
  · rw [hrun]
    exact .refl d

/-- The program changes no file that was there. -/
def Ages {α : Type} (m : Prog World Errno α) : Prop := ∀ d, Keeps (fun s => Older d s.disk) m

namespace Ages

variable {α β : Type}

theorem pure (a : α) : Ages (Pure.pure a : Prog World Errno α) := fun _ => Keeps.pure a

theorem fail (e : Errno) : Ages (Prog.fail e : Prog World Errno α) := fun _ => Keeps.fail e

theorem bind {m : Prog World Errno α} {f : α → Prog World Errno β} (hm : Ages m) (hf : ∀ a, Ages (f a)) :
    Ages (m >>= f) := fun d => Keeps.bind (hm d) fun a => hf a d

theorem look {p : View α} {q : Prog World Errno α} (hq : Agrees p q) : Ages q := fun _ => Keeps.look hq

theorem ite {c : Prop} [Decidable c] {m m' : Prog World Errno α} (h : Ages m) (h' : Ages m') :
    Ages (if c then m else m') := fun d => Keeps.ite (fun _ => h d) fun _ => h' d

theorem ignoring {m : Prog World Errno α} (h : Ages m) : Ages (VidyaGodFS.ignoring m) :=
  fun d => Keeps.ignoring (h d)

theorem attempt {m : Prog World Errno α} (h : Ages m) :
    Ages (Prog.attempt m : Prog World Errno (Except Errno α)) := fun d => Keeps.attempt (h d)

theorem forM {γ : Type} {f : γ → Prog World Errno PUnit} {l : List γ} (h : ∀ x, Ages (f x)) :
    Ages (l.forM f) := fun d => Keeps.forM fun x _ => h x d

theorem act {call : Call α} (h : Ageless call) : Ages (VidyaGodFS.act call) :=
  fun _ => Keeps.act fun s hs => hs.trans (h s.disk)

/-- Masks are no files. -/
theorem mutate {f : VfsState → VfsState} (h : ∀ s, (f s).disk = s.disk) : Ages (VidyaGodFS.mutate f) := by
  refine fun d => Calmly.mutate fun s hs => ?_
  rwa [h]

/-- What is known of a run, and that the files have stayed. -/
theorem calmly {m : Prog World Errno α} (h : Ages m) {s₀ : VfsState} {Q : α → VfsState → Prop}
    {E : Errno → VfsState → Prop} (hm : Calmly (fun s => s = s₀) m Q E) :
    Calmly (fun s => s = s₀) m (fun a s => Q a s ∧ Older s₀.disk s.disk)
      (fun e s => E e s ∧ Older s₀.disk s.disk) :=
  hm.and (Calmly.conseq (h s₀.disk) (by rintro s rfl; exact .refl _) (fun _ _ h => h) fun _ _ h => h)

end Ages

theorem createDirectories_ages (p : HostPath) : Ages (createDirectories p) := by
  have hone : ∀ p, Ages (createDirectory p) := by
    intro p
    refine .bind (.attempt (.act (ageless_mkdir _ _))) fun r => ?_
    cases r with
    | ok u => exact .pure _
    | error e => exact .bind (.look (Agrees.look _)) fun there => .ite (.pure _) (.fail _)
  cases p with
  | none => exact .fail _
  | some p =>
      refine .bind (.look (Agrees.look _)) fun r => ?_
      cases r with
      | error e => exact .fail _
      | ok dirs => exact .forM hone

theorem ensureWriteParent_ages (M : Mount) (v : Path) : Ages (ensureWriteParent M v) := by
  refine .bind (.attempt (createDirectories_ages _)) fun r => ?_
  cases r with
  | ok u => exact .pure _
  | error e => exact .fail _

theorem removeWhiteout_ages (M : Mount) (v : Path) : Ages (removeWhiteout M v) :=
  .ite (.pure _) (.bind (.ignoring (.act (ageless_unlink _))) fun _ => .mutate fun _ => rfl)

theorem createWhiteout_ages (M : Mount) (v : Path) : Ages (createWhiteout M v) :=
  .ite (.pure _) (.bind (.ignoring (createDirectories_ages _)) fun _ =>
    .bind (.ignoring (.act (ageless_open rfl _ _))) fun _ => .mutate fun _ => rfl)

theorem markOpaque_ages (M : Mount) (v : Path) : Ages (markOpaque M v) :=
  .ite (.pure _) (.bind (.ignoring (.act (ageless_open rfl _ _))) fun _ => .mutate fun _ => rfl)

theorem sweepMarkers_ages (M : Mount) (v : Path) (names : List Name) : Ages (sweepMarkers M v names) := by
  refine .forM fun n => .ite (.pure _) (.ite ?_ (removeWhiteout_ages _ _))
  exact .bind (.ignoring (.act (ageless_unlink _))) fun _ => .ite (.pure _) (.mutate fun _ => rfl)

/-! ### What is where -/

section

variable {s₀ s s' : VfsState} {v : Path} {low : Path → Option Entry} (hM : M.writelayer = some w)
  (hb : Beneath M w s₀ low)
include hM

theorem Orderly.served_whiteouted (h : Orderly w s₀ s) (hv : Reached M s v) (hmem : v ∈ s.whiteoutSet) :
    served M s v = none := by
  by_contra hne
  exact h.not_whiteouted hM hv hne hmem

/-- The way to `v` is there, and so are the directories that are made on it. -/
theorem Orderly.made (h : Orderly w s₀ s) (hm : MadeDirs w v.dropLast s s') (holder : Older s.disk s'.disk)
    (hv : Reached M s v) (hclean : Clean v) (hne : v ≠ []) : Orderly w s₀ s' := by
  have hext : Extends w v s s' := hm.toExtends h.synced.shape (List.dropLast_prefix v) hclean
  refine h.step (.of_extends h.synced hext) holder (fun x i hx hi => ?_) fun u hu hclean' => ?_
  · rcases hm.node_or hne x with he | ⟨-, -, -, hdir⟩
    · exact Or.inr ⟨x, hx, he ▸ hi⟩
    · obtain ⟨m, hm⟩ := hdir
      rw [hi] at hm
      cases hm
  · rw [hm.whiteoutSet] at hu
    rcases hm.node_or hne u with he | ⟨hle, hne', -⟩
    · rw [he, h.exclusive u hu hclean']
    · exact absurd hu (hv.not_whiteouted hM h hle hne')

include hb

/-- Where nothing shows the writelayer has nothing. -/
theorem Orderly.node_of_none (h : Orderly w s₀ s) (hv : Reached M s v) (hclean : Clean v) (hne : v ≠ [])
    (hnone : served M s v = none) : s.disk.tree.node (w ++ v) = none := by
  by_cases hmem : v ∈ s.whiteoutSet
  · exact h.exclusive v hmem hclean
  · rw [served_eq hM hb h hv hclean hne, stacked, if_neg hmem] at hnone
    cases hnode : s.disk.tree.node (w ++ v) with
    | none => rfl
    | some nd =>
        rw [hnode] at hnone
        cases hnone

/-- Where nothing shows, nothing shows from below, or it is masked or deleted. -/
theorem Orderly.low_of_none (h : Orderly w s₀ s) (hv : Reached M s v) (hclean : Clean v) (hne : v ≠ [])
    (hnone : served M s v = none) : v ∈ s.whiteoutSet ∨ Covered s v ∨ low v = none := by
  by_cases hmem : v ∈ s.whiteoutSet
  · exact Or.inl hmem
  · have hnode := h.node_of_none hM hb hv hclean hne hnone
    rw [served_eq hM hb h hv hclean hne, stacked, if_neg hmem, hnode] at hnone
    by_cases hcov : Covered s v
    · exact Or.inr (Or.inl hcov)
    · dsimp only at hnone
      rw [if_neg hcov] at hnone
      exact Or.inr (Or.inr hnone)

/-- Nothing shows in a directory that holds nothing and masks what is below it. -/
theorem Orderly.below_none (h : Orderly w s₀ s) (hv : Reached M s v) (hdir : served M s v = some .dir)
    (hne : v ≠ []) (hnode : ∀ k, isMarker k = false → s.disk.tree.node (w ++ (v ++ [k])) = none)
    (hlow : v ∈ s.opaqueSet ∨ Covered s v ∨ low v = none) (k : Name) : served M s (v ++ [k]) = none := by
  by_cases hclean : Clean (v ++ [k])
  · rw [served_eq hM hb h (Scene.reached_concat.2 ⟨hv, hdir⟩) hclean (by simp), stacked,
      hnode k (clean_concat.1 hclean).2]
    dsimp only
    split_ifs with hgone hcov
    · rfl
    · rfl
    have hle : v <+: v ++ [k] := List.prefix_append v [k]
    rcases hlow with hopq | ⟨q, hq, hqv, hopq⟩ | hlow
    · exact absurd ⟨v, hle, (append_singleton_ne v k).symm, hopq⟩ hcov
    · refine absurd ⟨q, hq.trans hle, fun he => hqv ?_, hopq⟩ hcov
      exact hq.eq_of_length_le (he ▸ hle.length_le)
    · exact hb.closed v k hne hlow
  · rw [served, if_neg hclean]

/-- What shows at an entry of the writelayer is that entry. -/
theorem Orderly.served_node (h : Orderly w s₀ s) (hv : Reached M s v) (hclean : Clean v) (hne : v ≠ [])
    {nd : Node} (hnode : s.disk.tree.node (w ++ v) = some nd) :
    served M s v = some (s.disk.entryOf nd) := by
  rw [served_eq hM hb h hv hclean hne, stacked, if_neg (h.notMem_of_node hclean hnode), hnode]

/-! ### The way, and the whiteouts -/

/-- **Making the way shows nothing new.** -/
theorem ensureWriteParent_still (h : Orderly w s₀ s) (hv : Reached M s v) (hclean : Clean v) (hne : v ≠ [])
    {E : Errno → VfsState → Prop} :
    Calmly (fun t => t = s) (ensureWriteParent M v)
      (fun _ s' => Orderly w s₀ s' ∧ SameScene M s s' ∧ MadeDirs w v.dropLast s s' ∧
        Older s.disk s'.disk) E := by
  have hrun := (ensureWriteParent_ages M v).calmly (E := E)
    (ensureWriteParent_made hM h.synced.shape (h.openWay hM hv hclean) hne)
  refine Calmly.conseq hrun (fun _ hs => hs) (fun _ s' hs => ?_) fun _ _ hs => hs.1
  have h' := h.made hM hs.1 hs.2 hv hclean hne
  exact ⟨h', made_scene hM hb h h' hs.1 hs.2 hv hne, hs⟩

omit hM hb in
/-- A whiteout less. -/
theorem Orderly.unhidden (h : Orderly w s₀ s) (hu : Unhidden w v s s') (holder : Older s.disk s'.disk) :
    Orderly w s₀ s' := by
  refine h.step ⟨hu.synced, hu.names.outside⟩ holder (fun x i hx hi => ?_) fun u hmem hclean => ?_
  · exact Or.inr ⟨x, hx, hu.names.clean x hx ▸ hi⟩
  · rw [hu.whiteoutSet] at hmem
    rw [hu.names.clean u hclean, h.exclusive u (Finset.mem_of_mem_erase hmem) hclean]

/-- **Taking a whiteout away** changes what shows at its path at most. -/
theorem removeWhiteout_else (h : Orderly w s₀ s) (hv : Reached M s v) (hclean : Clean v) (hne : v ≠ [])
    {E : Errno → VfsState → Prop} :
    Calmly (fun t => t = s) (removeWhiteout M v)
      (fun _ s' => Orderly w s₀ s' ∧ SameElse M v s s' ∧ Unhidden w v s s') E := by
  have hrun := (removeWhiteout_ages M v).calmly (E := E)
    (removeWhiteout_unhidden hM h.synced hne hclean (h.openWay hM hv hclean))
  refine Calmly.conseq hrun (fun _ hs => hs) (fun _ s' hs => ?_) fun _ _ hs => hs.1
  obtain ⟨hu, holder⟩ := hs
  have h' := h.unhidden hu holder
  refine ⟨h', sameElse_of hM hb h h' hv (fun u hne _ => ?_) (fun u _ _ => by rw [hu.opaqueSet])
    (fun u _ hclean' => Or.inl (hu.names.clean u hclean')) holder, hu⟩
  rw [hu.whiteoutSet, Finset.mem_erase]
  exact and_iff_right hne

/-- **Putting a whiteout** where the writelayer has nothing: nothing shows there any more. -/
theorem createWhiteout_else (h : Orderly w s₀ s) (hv : Reached M s v) (hclean : Clean v) (hne : v ≠ [])
    (hnone : s.disk.tree.node (w ++ v) = none) {E : Errno → VfsState → Prop} :
    Calmly (fun t => t = s) (createWhiteout M v)
      (fun _ s' => Orderly w s₀ s' ∧ SameElse M v s s' ∧ served M s' v = none) E := by
  have hcleanu : Clean v.dropLast := hclean.of_le (List.dropLast_prefix v)
  have hput : Calmly (fun t => t = s) (createWhiteout M v) (fun _ => MadeWhiteout w v s) E := by
    obtain ⟨n, hn⟩ := eq_dropLast_append hne
    have hmark := mark_last hclean hn
    have hway := h.openWay hM hv hclean
    rw [hn] at hway ⊢
    exact createWhiteout_hides hM h.synced hmark hcleanu hway
  refine Calmly.conseq ((createWhiteout_ages M v).calmly hput) (fun _ hs => hs) (fun _ s' hs => ?_)
    fun _ _ hs => hs.1
  obtain ⟨hw, holder⟩ := hs
  obtain ⟨s₁, h₁, hnames⟩ := hw.made
  have hnode : ∀ u, Clean u → s'.disk.tree.node (w ++ u) = s.disk.tree.node (w ++ u) ∨
      u <+: v ∧ u ≠ v ∧ s.disk.tree.node (w ++ u) = none ∧ s'.disk.tree.IsDir (w ++ u) := by
    intro u hu
    rw [hnames.clean u hu, hnames.isDir hu]
    exact h₁.node_or hne u
  have h' : Orderly w s₀ s' := by
    refine h.step (hw.settled h.synced hcleanu) holder (fun x i hx hi => ?_) fun u hu hclean' => ?_
    · rcases hnode x hx with he | ⟨-, -, -, m, hm⟩
      · exact Or.inr ⟨x, hx, he ▸ hi⟩
      · rw [hi] at hm
        cases hm
    · rw [hw.whiteoutSet] at hu
      rcases hnode u hclean' with he | ⟨hle, hne', -⟩
      · rw [he]
        rcases Finset.mem_insert.1 hu with rfl | hu
        · exact hnone
        · exact h.exclusive u hu hclean'
      · exact absurd ((Finset.mem_insert.1 hu).resolve_left hne') (hv.not_whiteouted hM h hle hne')
  have helse : SameElse M v s s' := by
    refine sameElse_of hM hb h h' hv (fun u hne _ => ?_) (fun u _ _ => by rw [hw.opaqueSet])
      (fun u _ hu => hnode u hu) holder
    rw [hw.whiteoutSet, Finset.mem_insert]
    exact or_iff_right hne
  refine ⟨h', helse, h'.served_whiteouted hM (helse.reached hv (Or.inl rfl)) ?_⟩
  rw [hw.whiteoutSet]
  exact Finset.mem_insert_self v _

omit hM hb in
theorem Orderly.madeOpaque (h : Orderly w s₀ s) (hm : MadeOpaque w v s s') (holder : Older s.disk s'.disk) :
    Orderly w s₀ s' := by
  refine h.step ⟨hm.synced, hm.names.outside⟩ holder (fun x i hx hi => ?_) fun u hu hclean => ?_
  · exact Or.inr ⟨x, hx, hm.names.clean x hx ▸ hi⟩
  · rw [hm.whiteoutSet] at hu
    rw [hm.names.clean u hclean, h.exclusive u hu hclean]

/-- **Masking what is below a directory** changes what shows there at most. -/
theorem markOpaque_else (h : Orderly w s₀ s) (hv : Reached M s v) (hclean : Clean v)
    (hdir : s.disk.tree.IsDir (w ++ v)) {E : Errno → VfsState → Prop} :
    Calmly (fun t => t = s) (markOpaque M v)
      (fun _ s' => Orderly w s₀ s' ∧ SameElse M v s s' ∧ MadeOpaque w v s s') E := by
  refine Calmly.conseq ((markOpaque_ages M v).calmly (E := E)
    (markOpaque_names hM h.synced (h.openWay hM hv hclean) hdir)) (fun _ hs => hs) (fun _ s' hs => ?_)
    fun _ _ hs => hs.1
  obtain ⟨hm, holder⟩ := hs
  have h' := h.madeOpaque hm holder
  refine ⟨h', sameElse_of hM hb h h' hv (fun u _ _ => by rw [hm.whiteoutSet]) (fun u hne _ => ?_)
    (fun u _ hu => Or.inl (hm.names.clean u hu)) holder, hm⟩
  rw [hm.opaqueSet, Finset.mem_insert]
  exact or_iff_right hne

/-! ### Copying up -/

/-- `v` has been brought to the writelayer, and nothing else shows that did not. -/
structure Brought (M : Mount) (w : Path) (s₀ : VfsState) (v : Path) (x : Entry) (s s' : VfsState) : Prop where
  orderly : Orderly w s₀ s'
  same : SameScene M s s'
  entry : ∃ nd, s'.disk.tree.node (w ++ v) = some nd ∧ s'.disk.entryOf nd = x ∧
    ∀ i, nd = .file i → s.disk.tree.node (w ++ v) = some (.file i) ∨ s.disk.next ≤ i
  grows : s.disk.tree.Grows s'.disk.tree
  files : ∀ u i, u ≠ v → s'.disk.tree.node (w ++ u) = some (.file i) →
    s.disk.tree.node (w ++ u) = some (.file i)

/-- A copy that failed. -/
theorem Orderly.asBefore (h : Orderly w s₀ s) (hext : Extends w v s s') (hsame : AsBefore s s')
    (hv : Reached M s v) : Orderly w s₀ s' ∧ SameScene M s s' := by
  have h' : Orderly w s₀ s' := by
    refine h.step (.of_extends h.synced hext) hsame.older (fun x i hx hi => ?_) fun u hu hclean => ?_
    · exact Or.inr ⟨x, hx, hsame.node _ ▸ hi⟩
    · rw [hsame.whiteoutSet] at hu
      rw [hsame.node, h.exclusive u hu hclean]
  exact ⟨h', fun u => served_made hM hb h h' (P := fun _ => True) (fun _ _ _ _ => trivial) hv
    (fun u _ => by rw [hsame.whiteoutSet]) (fun u _ => by rw [hsame.opaqueSet])
    (fun u _ _ => Or.inl (hsame.node _)) hsame.older u trivial⟩

omit hb in
/-- What shows and is not in the writelayer comes from below. -/
theorem Orderly.lookup_below (h : Orderly w s₀ s) (hv : Reached M s v)
    (hclean : Clean v) (hne : v ≠ []) {x : Entry} (hx : served M s v = some x)
    (hnode : s.disk.tree.node (w ++ v) = none) :
    lookup M s v = lowerLookup M s v ∧ (lookup M s v).isWriteLayer = false := by
  have hway := h.openWay hM hv hclean
  have hfits : Fits M v (lookup M s v) := resolve_fits M v (calm s) _ _ (resolve_run M (calm_calm s).2 v)
  have hgone : v ∉ s.whiteoutSet := h.not_whiteouted hM hv (by rw [hx]; simp)
  have hshown : shown M s.disk (lookup M s v) = some x := by
    rwa [served, if_pos hclean, entryAt, if_neg hne] at hx
  have hlookup := lookup_eq hM h.synced.shape hway
  rw [if_neg fun hc => hgone ((isWhiteouted_iff hM hne).1 hc), if_neg (by simp [hnode])] at hlookup
  have hmask : masked M s v = false := by
    by_contra hmask
    rw [if_pos (by simpa using hmask)] at hlookup
    rw [hlookup] at hshown
    cases hshown
  rw [hmask, if_neg Bool.false_ne_true] at hlookup
  refine ⟨hlookup, ?_⟩
  cases hrr : lookup M s v with
  | writeLayer host =>
      rw [hrr] at hfits hshown
      have hnofollow : followsLinks M (.writeLayer host) = false := by
        simp [followsLinks, ResolveResult.isWriteLayer]
      rw [shown, hnofollow, hfits.2, wlPath_eq hM,
        Disk.entryAt_straight (h.synced.shape.straight hway), hnode] at hshown
      cases hshown
  | _ => rfl

omit hb in
/-- Once the directories above it are there, a new name can be put. -/
theorem Orderly.vacant_made {s₁ : VfsState} (h : Orderly w s₀ s) (h₁ : Orderly w s₀ s₁)
    (hmade : MadeDirs w v.dropLast s s₁) (hv : Reached M s v) (hv₁ : Reached M s₁ v)
    (hclean : Clean v) (hne : v ≠ []) (hnode : s.disk.tree.node (w ++ v) = none) : Vacant w v s₁ where
  shape := h₁.synced.shape
  way := h₁.openWay hM hv₁ hclean
  ne := hne
  clean := hclean
  parent := hmade.isDir ((h.openWay hM hv hclean).dirWay hne)
  none := by
    rcases hmade.node_or hne v with he | ⟨-, hne', -⟩
    · rw [he, hnode]
    · exact absurd rfl hne'

/-- **A copy shows nothing new.** -/
theorem Orderly.copied {x : Entry} (h : Orderly w s₀ s) (hv : Reached M s v)
    (hx : served M s v = some x) (hnode : s.disk.tree.node (w ++ v) = none)
    (hext : Extends w v s s') (hc : Copied w v s s' x) : Brought M w s₀ v x s s' := by
  obtain ⟨nd, hnd, hentry, hnew⟩ := hc.entry
  have h' : Orderly w s₀ s' := by
    refine h.step (.of_extends h.synced hext) hc.older (fun y i hy hi => ?_) fun u hu hclean => ?_
    · by_cases hyv : y = v
      · subst hyv
        exact Or.inl (hnew i (Option.some_inj.1 (hnd.symm.trans hi)))
      · rw [hc.other _ fun he => hyv (List.append_cancel_left he)] at hi
        exact Or.inr ⟨y, hy, hi⟩
    · rw [hc.whiteoutSet] at hu
      have huv : u ≠ v := by
        rintro rfl
        exact h.not_whiteouted hM hv (by rw [hx]; simp) hu
      rw [hc.other _ fun he => huv (List.append_cancel_left he), h.exclusive u hu hclean]
  refine ⟨h', copied_scene hM hb h h' hc hnode hx, ⟨nd, hnd, hentry, fun i hi => Or.inr (hnew i hi)⟩,
    hext.tree.old, fun u i huv hu => ?_⟩
  rwa [hc.other _ fun he => huv (List.append_cancel_left he)] at hu

omit hM hb in
/-- What the directories on the way were made for. -/
theorem Brought.after_made {s₁ : VfsState} {x : Entry} (h : Brought M w s₀ v x s₁ s')
    (hsame : SameScene M s s₁) (hmade : MadeDirs w v.dropLast s s₁)
    (holder : Older s.disk s₁.disk) (hne : v ≠ []) (hnode : s₁.disk.tree.node (w ++ v) = none) :
    Brought M w s₀ v x s s' := by
  obtain ⟨nd, hnd, hentry, hnew⟩ := h.entry
  refine ⟨h.orderly, hsame.trans h.same, ⟨nd, hnd, hentry, fun i hi => Or.inr ?_⟩,
    hmade.tree.grows.trans h.grows, fun u i huv hu => ?_⟩
  · refine holder.next.trans ((hnew i hi).resolve_left fun hold => ?_)
    rw [hnode] at hold
    cases hold
  · have hu₁ := h.files u i huv hu
    rcases hmade.node_or hne u with he | ⟨-, -, -, m, hm⟩
    · exact he ▸ hu₁
    · rw [hu₁] at hm
      cases hm

/-- **Copying up shows nothing new**, whether it succeeds or fails. -/
theorem makeWritable_still (hk : NoKept M) (h : Orderly w s₀ s) (hv : Reached M s v) (hclean : Clean v)
    (hne : v ≠ []) {x : Entry} (hx : served M s v = some x) :
    Calmly (fun t => t = s) (makeWritable M v (lookup M s v)) (fun _ => Brought M w s₀ v x s)
      (fun _ s' => Orderly w s₀ s' ∧ SameScene M s s') := by
  have hway := h.openWay hM hv hclean
  have hfits : Fits M v (lookup M s v) := resolve_fits M v (calm s) _ _ (resolve_run M (calm_calm s).2 v)
  unfold makeWritable
  rw [hk.isWritable hfits]
  cases hnode : s.disk.tree.node (w ++ v) with
  | some nd =>
      -- it is there already
      have hgone : v ∉ s.whiteoutSet := h.not_whiteouted hM hv (by rw [hx]; simp)
      have hlookup := lookup_eq hM h.synced.shape hway
      rw [if_neg fun hc => hgone ((isWhiteouted_iff hM hne).1 hc), if_pos (by simp [hnode])] at hlookup
      rw [hlookup]
      refine Calmly.pure ?_
      rintro s rfl
      have hserved := h.served_node hM hb hv hclean hne hnode
      rw [hx] at hserved
      exact ⟨h, .refl _, ⟨nd, hnode, (Option.some_inj.1 hserved).symm, fun i hi => Or.inl (hi ▸ hnode)⟩,
        .refl _, fun _ _ _ hu => hu⟩
  | none =>
      obtain ⟨hlookup, hwl⟩ := h.lookup_below hM hv hclean hne hx hnode
      have hrw := rwPassthrough_of_fits M hfits (hk.keptLayerFor v)
      rw [hwl, if_neg Bool.false_ne_true]
      unfold copyUp
      rw [if_neg (by simp [hM]), hk.isWritable hfits, hwl, if_neg Bool.false_ne_true, hk.copyDest hM]
      refine Calmly.bind (Q := fun r t => t = s ∧ r = .error .enoent)
        (Calmly.look (Agrees.look _) ?_) fun r => Calmly.assuming ?_
      · rintro s rfl
        exact ⟨rfl, Disk.lstat_straight_none (h.synced.shape.straight hway) hnode⟩
      rintro s ⟨rfl, rfl⟩
      dsimp only
      unfold ensureCopyParent
      rw [hk.passthroughHost]
      refine Calmly.bind (ensureWriteParent_still hM hb h hv hclean hne) fun _ =>
        Calmly.assuming fun s₁ h₁ => ?_
      obtain ⟨h₁, hsame₁, hmade₁, holder₁⟩ := h₁
      have hv₁ := (hsame₁ v hv).1
      have hvacant := h.vacant_made hM h₁ hmade₁ hv hv₁ hclean hne hnode
      have hshown₁ : shown M s₁.disk (lookup M s v) = some x := by
        have hshown : shown M s.disk (lookup M s v) = some x := by
          rwa [served, if_pos hclean, entryAt, if_neg hne] at hx
        rw [hlookup] at hshown ⊢
        rw [hb.reads s s₁ h.beside h₁.beside v hclean, ← hb.reads s s h.beside h.beside v hclean, hshown]
      have hsteady : StoredWhole (lookup M s v) := by
        rw [hlookup]
        exact hb.steady s h.beside v hclean
      have hx₁ : served M s₁ v = some x := by rw [(hsame₁ v hv).2, hx]
      refine Calmly.conseq ((copyTo_extends hvacant (lookup M s v)).and
        (copyTo_copies hvacant hrw hwl hshown₁ hsteady)) (fun _ hs => hs) (fun _ s' hs => ?_)
        fun _ s' hs => ?_
      · obtain ⟨⟨hext, -⟩, hc⟩ := hs
        exact (h₁.copied hM hb hv₁ hx₁ hvacant.none hext hc).after_made hsame₁ hmade₁ holder₁ hne
          hvacant.none
      · obtain ⟨hext, hsame⟩ := hs
        obtain ⟨h', hsame'⟩ := h₁.asBefore hM hb hext hsame hv₁
        exact ⟨h', hsame₁.trans hsame'⟩

/-! ### Entries that go -/

omit hM hb in
/-- An entry less. -/
theorem Orderly.erased (h : Orderly w s₀ s) (hclean : Clean v) (hne : v ≠ [])
    (he : s.disk.tree.CanErase (w ++ v)) : Orderly w s₀ { s with disk := s.disk.erase (w ++ v) he } := by
  refine h.step (h.synced.of_erase hne hclean he) ⟨le_rfl, fun _ _ => rfl, rfl⟩ (fun x i hx hi => ?_)
    fun u hu hclean' => ?_
  · have hi : (if w ++ x = w ++ v then none else s.disk.tree.node (w ++ x)) = some (.file i) := hi
    split_ifs at hi
    exact Or.inr ⟨x, hx, hi⟩
  · change (if w ++ u = w ++ v then none else s.disk.tree.node (w ++ u)) = none
    rw [h.exclusive u hu hclean', ite_self]

/-- An entry less changes what shows at its path at most. -/
theorem erased_else (h : Orderly w s₀ s) (hv : Reached M s v) (hclean : Clean v) (hne : v ≠ [])
    (he : s.disk.tree.CanErase (w ++ v)) :
    SameElse M v s { s with disk := s.disk.erase (w ++ v) he } := by
  refine sameElse_of hM hb h (h.erased hclean hne he) hv (fun _ _ _ => Iff.rfl) (fun _ _ _ => Iff.rfl)
    (fun u hu _ => Or.inl (if_neg fun hc => ?_)) ⟨le_rfl, fun _ _ => rfl, rfl⟩
  rw [List.append_cancel_left hc] at hu
  exact hu List.prefix_rfl

/-- **The writelayer's own entry goes**, if it has one. -/
theorem unlinkWriteCopy_else (h : Orderly w s₀ s) (hv : Reached M s v) (hclean : Clean v) (hne : v ≠ [])
    (hdir : ¬ s.disk.tree.IsDir (w ++ v)) {E : Errno → VfsState → Prop} :
    Calmly (fun t => t = s) (unlinkWriteCopy M v)
      (fun _ s' => Orderly w s₀ s' ∧ SameElse M v s s' ∧ s'.disk.tree.node (w ++ v) = none) E := by
  have hstraight := h.synced.shape.straight (h.openWay hM hv hclean)
  have hne' : w ++ v ≠ [] := by simp [hne]
  obtain ⟨m, hpar, hfull⟩ : ∃ m, (s.disk.tree.node (w ++ v) ≠ none →
      s.disk.tree.node (w ++ v).dropLast = some (.dir m)) ∧ Full m := by
    by_cases hnode : s.disk.tree.node (w ++ v) = none
    · exact ⟨0o777, fun hc => absurd hnode hc, full_777⟩
    · obtain ⟨n, hn⟩ := eq_dropLast_append hne
      obtain ⟨m, hm⟩ := s.disk.tree.parent_dir (w ++ v.dropLast) n (by
        rwa [List.append_assoc, ← hn])
      exact ⟨m, fun _ => by rw [append_dropLast hne, hm], h.synced.shape.full _ m hm⟩
  unfold unlinkWriteCopy toleratingEnoent
  rw [if_neg (by simp [hM]), wlPath_eq hM]
  have hgone : Calmly (fun t => t = s) (act (Disk.unlink (some (w ++ v))))
      (fun _ s' => Orderly w s₀ s' ∧ SameElse M v s s' ∧ s'.disk.tree.node (w ++ v) = none)
      (fun e s' => e = .enoent ∧ Orderly w s₀ s' ∧ SameElse M v s s' ∧
        s'.disk.tree.node (w ++ v) = none) := by
    refine Calmly.act ?_
    rintro s rfl
    rcases Disk.unlink_straight_cases hstraight hne' hdir hpar hfull with ⟨hnone, hrun⟩ | ⟨he, hrun⟩
    · rw [hrun]
      exact ⟨rfl, h, .refl s, hnone⟩
    · rw [hrun]
      exact ⟨h.erased hclean hne he, erased_else hM hb h hv hclean hne he, if_pos rfl⟩
  refine Calmly.bind (Calmly.bind (Calmly.attempt hgone) fun r => ?_) fun _ => Calmly.pure fun _ h => h
  cases r with
  | ok u => exact Calmly.pure fun _ h => h
  | error e =>
      exact Calmly.ite (fun _ => Calmly.pure fun _ h => h.2) fun hne => Calmly.fail fun _ h => absurd h.1 hne

/-- The markers in a directory go. -/
theorem sweepMarkers_else (h : Orderly w s₀ s) (hv : Reached M s v) (hclean : Clean v)
    (hdir : DirAt M s v) (names : List Name) {E : Errno → VfsState → Prop} :
    Calmly (fun t => t = s) (sweepMarkers M v names)
      (fun _ s' => Orderly w s₀ s' ∧ SameElse M v s s' ∧ Swept w v names s s') E := by
  have hway := h.openWay hM hv hclean
  refine Calmly.conseq ((sweepMarkers_ages M v names).calmly (E := E) (sweepMarkers_swept hM hclean names
    h.synced hway (hdir.node hM h.synced.shape hway))) (fun _ hs => hs) (fun _ s' hs => ?_)
    fun _ _ hs => hs.1
  obtain ⟨hswept, holder⟩ := hs
  have h' : Orderly w s₀ s' := by
    refine h.step ⟨hswept.synced, hswept.same.outside⟩ holder (fun x i hx hi => ?_) fun u hu hclean' => ?_
    · exact Or.inr ⟨x, hx, hswept.same.clean x hx ▸ hi⟩
    · rw [hswept.same.clean u hclean', h.exclusive u ((hswept.whiteout u).1 hu).1 hclean']
  refine ⟨h', sameElse_of hM hb h h' hv (fun u _ hu => ?_) (fun u hne _ => ?_)
    (fun u _ hu => Or.inl (hswept.same.clean u hu)) holder, hswept⟩
  · refine (hswept.whiteout u).trans (and_iff_left fun k _ _ _ he => hu ?_)
    rw [he]
    exact List.prefix_append v _
  · exact (hswept.opaque_ u).trans (and_iff_left fun _ => hne)

omit hM hb in
/-- No marker is put. -/
theorem Swept.node_none {names : List Name} (hs : Synced w s) (h : Swept w v names s s') {k : Name}
    (hk : isMarker k = true) (hnone : s.disk.tree.node (w ++ v ++ [k]) = none) :
    s'.disk.tree.node (w ++ v ++ [k]) = none := by
  by_contra hne
  by_cases hopq : k = opaqueName
  · rw [hopq] at hne hnone
    exact (hs.opaques v).1 ((h.opaque_ v).1 ((h.synced.opaques v).2 hne)).1 hnone
  · have hmem : v ++ [unmark k] ∈ s'.whiteoutSet :=
      (h.synced.whiteouts v (unmark k)).2 (by rw [mark_unmark hk]; exact ⟨hopq, hne⟩)
    have hnode := ((hs.whiteouts v (unmark k)).1 ((h.whiteout _).1 hmem).1).2
    rw [mark_unmark hk] at hnode
    exact hnode hnone

/-- **The writelayer's own directory goes**, with the markers in it. -/
theorem removeWriteDir_else (h : Orderly w s₀ s) (hv : Reached M s v) (hclean : Clean v) (hne : v ≠ [])
    (hdir : DirAt M s v) (hempty : ∀ k, isMarker k = false → s.disk.tree.node (w ++ v ++ [k]) = none)
    {E : Errno → VfsState → Prop} :
    Calmly (fun t => t = s) (removeWriteDir M v)
      (fun _ s' => Orderly w s₀ s' ∧ SameElse M v s s' ∧ s'.disk.tree.node (w ++ v) = none) E := by
  unfold removeWriteDir
  rw [if_neg (by simp [hM]), wlPath_eq hM]
  refine Calmly.bind (Q := fun names t => t = s ∧ names = s.disk.readDir (some (w ++ v)))
    (Calmly.look (lookDir_agrees _) (by rintro s rfl; exact ⟨rfl, rfl⟩)) fun names => Calmly.assuming ?_
  rintro s ⟨rfl, rfl⟩
  refine Calmly.bind (sweepMarkers_else hM hb h hv hclean hdir _) fun _ => ?_
  refine Calmly.ignoring (Calmly.act fun s₁ hs₁ => ?_)
  obtain ⟨h₁, helse, hswept⟩ := hs₁
  have hv₁ := helse.reached hv (Or.inl rfl)
  have hstraight := h₁.synced.shape.straight (h₁.openWay hM hv₁ hclean)
  rcases hdir.node hM h.synced.shape (h.openWay hM hv hclean) with hnone | hthere
  · -- there is none
    have hnone₁ : s₁.disk.tree.node (w ++ v) = none := by rw [hswept.same.clean v hclean, hnone]
    rcases Disk.rmdir_cases (some (w ++ v)) s₁.disk with ⟨e, hf⟩ | ⟨q, hq, hdir', -⟩
    · rw [hf]
      exact ⟨h₁, helse, hnone₁⟩
    · rw [Disk.find_false_straight hstraight hq] at hdir'
      exact absurd hnone₁ hdir'.ne_none
  · have hchildren : s₁.disk.tree.children (w ++ v) = [] := by
      refine Tree.children_eq_nil_iff.2 fun k => ?_
      by_cases hk : isMarker k = true
      · by_cases hmem : k ∈ s.disk.readDir (some (w ++ v))
        · exact hswept.node_eq_none hmem hk
        · rw [h.synced.shape.readDir hthere, Tree.mem_children, not_not] at hmem
          exact hswept.node_none h.synced hk hmem
      · have hk : isMarker k = false := by simpa using hk
        have hsame := hswept.same.clean (v ++ [k]) (clean_concat.2 ⟨hclean, hk⟩)
        rw [← List.append_assoc] at hsame
        rw [hsame, hempty k hk]
    have hne' : w ++ v ≠ [] := by simp [hne]
    obtain ⟨m', hm'⟩ := (hswept.same.isDir hclean).2 hthere
    obtain ⟨n, hn⟩ := eq_dropLast_append hne
    obtain ⟨m, hm⟩ := s₁.disk.tree.parent_dir (w ++ v.dropLast) n (by
      rw [List.append_assoc, ← hn, hm']
      simp)
    have he : s₁.disk.tree.CanErase (w ++ v) := ⟨hne', hchildren⟩
    rw [Disk.rmdir_straight hstraight hm' he (by rw [append_dropLast hne, hm])
      (h₁.synced.shape.full _ m hm)]
    exact ⟨h₁.erased hclean hne he, helse.trans (erased_else hM hb h₁ hv₁ hclean hne he), if_pos rfl⟩

/-- **What is still visible is hidden**, and then nothing shows. -/
theorem hideRest_else (h : Orderly w s₀ s) (hv : Reached M s v) (hclean : Clean v) (hne : v ≠ [])
    (hnone : s.disk.tree.node (w ++ v) = none) {E : Errno → VfsState → Prop} :
    Calmly (fun t => t = s) (hideRest M v (createWhiteout M v) (pure ()))
      (fun _ s' => Orderly w s₀ s' ∧ SameElse M v s s' ∧ served M s' v = none) E := by
  unfold hideRest
  refine Calmly.bind (Q := fun rr t => t = s ∧ rr = lookup M s v)
    (Calmly.look (resolve_agrees M v) (by rintro s rfl; exact ⟨rfl, rfl⟩)) fun rr => Calmly.assuming ?_
  rintro s ⟨rfl, rfl⟩
  refine Calmly.ite (fun hgone => Calmly.pure ?_) fun _ => createWhiteout_else hM hb h hv hclean hne hnone
  rintro s rfl
  refine ⟨h, .refl s, ?_⟩
  rw [served, if_pos hclean, entryAt, if_neg hne]
  cases hrr : lookup M s v with
  | none => rfl
  | _ => rw [hrr] at hgone; cases hgone

end

end VidyaGodFS
