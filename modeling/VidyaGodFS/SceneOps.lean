/-
**The operations do what those of a plain file system do.**

Behind the scene are a writelayer, markers in it, and layers below it; the scene itself is one tree of
names.  Here each operation that the kernel hands over changes that tree as the operation of the same
name does in a file system that has nothing but the tree: an entry is made, goes, moves, or gets other
bytes, and nothing else changes.  An operation that fails changes nothing that shows.

Main definitions:

* `Plainly`, `PlainlyYields` — what an operation makes of the scene, and what it yields;
* `NameOf`, `Inside`, `Upper` — the names of a file, and the files that are no layer's;
* `Linked` — an entry with a further name.

Main results:

* `vfsMkdir_plainly`, `vfsCreate_plainly`, `vfsSymlink_plainly`, `vfsLink_plainly` — **entries that are
  made**;
* `vfsUnlink_plainly`, `vfsRmdir_plainly` — **entries that go**.
-/

import VidyaGodFS.SceneSteps

set_option relaxedAutoImplicit false
set_option autoImplicit false

namespace VidyaGodFS

open Posix

variable {M : Mount} {w : Path} {s₀ s s' : VfsState} {v : Path} {low : Path → Option Entry}

/-! ### What an operation makes of the scene -/

/-- **The operation makes `after` of the scene**, or fails and changes nothing that shows. -/
def Plainly {α : Type} (M : Mount) (w : Path) (s₀ s : VfsState) (m : Prog World Errno α)
    (after : Path → Option Entry) : Prop :=
  Calmly (fun t => t = s) m (fun _ s' => Orderly w s₀ s' ∧ scene M s' = after)
    (fun _ s' => Orderly w s₀ s' ∧ scene M s' = scene M s)

theorem Plainly.fail {α : Type} (h : Orderly w s₀ s) (e : Errno) {after : Path → Option Entry} :
    Plainly M w s₀ s (Prog.fail e : Prog World Errno α) after :=
  Calmly.fail (by rintro s rfl; exact ⟨h, rfl⟩)

/-- The operation does so, and yields what `R` says. -/
def PlainlyYields {α : Type} (M : Mount) (w : Path) (s₀ s : VfsState) (m : Prog World Errno α)
    (after : Path → Option Entry) (R : α → Prop) : Prop :=
  Calmly (fun t => t = s) m (fun a s' => (Orderly w s₀ s' ∧ scene M s' = after) ∧ R a)
    (fun _ s' => Orderly w s₀ s' ∧ scene M s' = scene M s)

/-- `u` names the file number `i` of the writelayer. -/
def NameOf (w : Path) (s : VfsState) (i : ℕ) (u : Path) : Prop :=
  Clean u ∧ s.disk.tree.node (w ++ u) = some (.file i)

/-- The file is none of those beside the writelayer. -/
def Inside (w : Path) (s₀ : VfsState) (i : ℕ) : Prop :=
  ∀ q, ¬ w <+: q → s₀.disk.tree.node q ≠ some (.file i)

/-- The files of the writelayer are no layer's. -/
theorem Orderly.inside (h : Orderly w s₀ s) {i : ℕ} (hu : NameOf w s i v) : Inside w s₀ i := by
  intro q hq
  rw [← h.beside.outside q hq]
  exact h.apart v q i hu.1 hu.2 hq

/-- What is written through the file is no layer's. -/
def Upper (w : Path) (s₀ : VfsState) : OpenFile → Prop
  | .host (.file i access) => access.writes = true → Inside w s₀ i
  | .host .dir => True
  | .zip _ => True

/-- Nothing shows below what is no directory. -/
theorem scene_below (h : scene M s v ≠ some .dir) (k : Name) : scene M s (v ++ [k]) = none :=
  Scene.walked_below h (List.prefix_append v [k]) (append_singleton_ne v k).symm

theorem Asked.reached (h : Asked M s v) : Reached M s v := (reached_iff h.clean).2 h.walks

theorem Asked.scene (h : Asked M s v) : scene M s v = served M s v := Scene.walked_of_reached h.reached

/-! ### New entries -/

/-- The place for a new entry at `v`: nothing is there, or deleted there, and the directory for it is. -/
structure Fresh (M : Mount) (w : Path) (s₀ : VfsState) (v : Path) (s s' : VfsState) : Prop where
  orderly : Orderly w s₀ s'
  same : SameElse M v s s'
  node : s'.disk.tree.node (w ++ v) = none
  parent : s'.disk.tree.IsDir (w ++ v.dropLast)
  gone : v ∉ s'.whiteoutSet
  opaqueSet : s'.opaqueSet = s.opaqueSet

section

variable (hM : M.writelayer = some w) (hk : NoKept M) (hb : Beneath M w s₀ low)
include hM hb

/-- The place for a new entry is made. -/
theorem fresh_then {α : Type} (h : Orderly w s₀ s) (hv : Asked M s v) (hnone : scene M s v = none)
    {f : Prog World Errno α} {Q : α → VfsState → Prop} {E : Errno → VfsState → Prop}
    (hf : ∀ s', Fresh M w s₀ v s s' → Calmly (fun t => t = s') f Q E) :
    Calmly (fun t => t = s) (do removeWhiteout M v; ensureWriteParent M v; f) Q E := by
  have hnode := h.node_of_none hM hb hv.reached hv.clean hv.ne (hv.scene ▸ hnone)
  refine Calmly.bind (removeWhiteout_else hM hb h hv.reached hv.clean hv.ne) fun _ =>
    Calmly.assuming fun s₁ h₁ => ?_
  obtain ⟨h₁, helse₁, hun⟩ := h₁
  have hv₁ := helse₁.reached hv.reached (Or.inl rfl)
  refine Calmly.bind (ensureWriteParent_still hM hb h₁ hv₁ hv.clean hv.ne) fun _ =>
    Calmly.assuming fun s₂ h₂ => ?_
  obtain ⟨h₂, hsame₂, hmade, -⟩ := h₂
  refine hf s₂ ⟨h₂, helse₁.trans (hsame₂.else v), ?_, hmade.isDir ((h₁.openWay hM hv₁ hv.clean).dirWay hv.ne),
    ?_, hmade.opaqueSet.trans hun.opaqueSet⟩
  · rcases hmade.node_or hv.ne v with he | ⟨-, hne, -⟩
    · rw [he, hun.names.clean v hv.clean, hnode]
    · exact absurd rfl hne
  · rw [hmade.whiteoutSet, hun.whiteoutSet]
    exact Finset.notMem_erase v _

omit hb in
theorem Fresh.vacant (h : Fresh M w s₀ v s s') (hv : Asked M s v) : Vacant w v s' where
  shape := h.orderly.synced.shape
  way := h.orderly.openWay hM (h.same.reached hv.reached (Or.inl rfl)) hv.clean
  ne := hv.ne
  clean := hv.clean
  parent := h.parent
  none := h.node

/-- **A new entry.** -/
theorem Fresh.put (h : Fresh M w s₀ v s s') (hv : Asked M s v) {nd : Node}
    (hput : s'.disk.tree.CanPut (w ++ v) nd) (hnd : ∀ m, nd = .dir m → Full m) {d : Disk}
    (hd : d.tree = s'.disk.tree.put (w ++ v) nd hput) (holder : Older s'.disk d)
    (hfile : ∀ i, nd = .file i → s'.disk.next ≤ i) :
    Orderly w s₀ { s' with disk := d } ∧ SameElse M v s { s' with disk := d } ∧
      served M { s' with disk := d } v = some (d.entryOf nd) ∧
      ∀ k, d.tree.node (w ++ (v ++ [k])) = none := by
  have hnode : ∀ q, d.tree.node q = if q = w ++ v then some nd else s'.disk.tree.node q := by
    rw [hd]
    exact fun _ => rfl
  have hext : Extends w v s' { s' with disk := d } := (h.vacant hM hv).extends_put hput hnd hd
  have hv' := h.same.reached hv.reached (Or.inl rfl)
  have horder : Orderly w s₀ { s' with disk := d } := by
    refine h.orderly.step (.of_extends h.orderly.synced hext) holder (fun x i hx hi => ?_) fun u hu hclean => ?_
    · by_cases hxv : x = v
      · rw [hxv, hnode, if_pos rfl] at hi
        exact Or.inl (hfile i (Option.some_inj.1 hi))
      · rw [hnode, if_neg fun he => hxv (List.append_cancel_left he)] at hi
        exact Or.inr ⟨x, hx, hi⟩
    · have huv : u ≠ v := by
        rintro rfl
        exact h.gone hu
      change d.tree.node (w ++ u) = none
      rw [hnode, if_neg fun he => huv (List.append_cancel_left he), h.orderly.exclusive u hu hclean]
  have helse : SameElse M v s' { s' with disk := d } := by
    refine sameElse_of hM hb h.orderly horder hv' (fun _ _ _ => Iff.rfl) (fun _ _ _ => Iff.rfl)
      (fun u hu _ => Or.inl ?_) holder
    change d.tree.node (w ++ u) = _
    refine (hnode _).trans (if_neg fun he => hu ?_)
    rw [List.append_cancel_left he]
  have hreach := helse.reached hv' (Or.inl rfl)
  refine ⟨horder, h.same.trans helse, ?_, fun k => ?_⟩
  · refine horder.served_node hM hb hreach hv.clean hv.ne ?_
    change d.tree.node (w ++ v) = some nd
    rw [hnode, if_pos rfl]
  · rw [hnode, if_neg fun he => append_singleton_ne v k (List.append_cancel_left he)]
    exact Tree.node_eq_none_below h.node (append_le_append.2 (List.prefix_append v [k]))

include hk

/-- **A directory more.** -/
theorem vfsMkdir_plainly (h : Orderly w s₀ s) (hv : Asked M s v) (hnone : scene M s v = none) {mode : ℕ}
    (hmode : Full mode) :
    Plainly M w s₀ s (vfsMkdir M v mode) (Scene.put (scene M s) v (some .dir)) := by
  unfold vfsMkdir
  refine Calmly.ite (fun _ => Plainly.fail h _) fun _ => ?_
  rw [hk.passthroughHost, wlPath_eq hM]
  refine Calmly.bind (Q := fun gone t => t = s ∧ gone = isWhiteouted M s v)
    (Calmly.look (Agrees.see _) (by rintro s rfl; exact ⟨rfl, rfl⟩)) fun gone => Calmly.assuming ?_
  rintro s ⟨rfl, rfl⟩
  refine fresh_then hM hb h hv hnone fun s₁ h₁ => ?_
  have hvac := h₁.vacant hM hv
  obtain ⟨m, hm, hfull⟩ := hvac.full_parent
  have hlow := h.low_of_none hM hb hv.reached hv.clean hv.ne (hv.scene ▸ hnone)
  -- what the new directory shows
  have hend : ∀ s', Orderly w s₀ s' → SameElse M v s s' → served M s' v = some .dir →
      (∀ k, isMarker k = false → s'.disk.tree.node (w ++ (v ++ [k])) = none) →
      (v ∈ s'.opaqueSet ∨ Covered s' v ∨ low v = none) →
      Orderly w s₀ s' ∧ scene M s' = Scene.put (scene M s) v (some .dir) := by
    intro s' h' helse hat hnode hlow'
    have hreach := helse.reached hv.reached (Or.inl rfl)
    exact ⟨h', scene_put hv.ne hv.reached helse hat (scene_below (by rw [hnone]; simp))
      fun _ => h'.below_none hM hb hreach hat hv.ne hnode hlow'⟩
  refine Calmly.bind (Q := fun _ s' => Orderly w s₀ s' ∧ SameElse M v s s' ∧ served M s' v = some .dir ∧
    (∀ k, isMarker k = false → s'.disk.tree.node (w ++ (v ++ [k])) = none) ∧ s'.disk.tree.IsDir (w ++ v) ∧
    s'.opaqueSet = s.opaqueSet) (Calmly.act ?_) fun _ => ?_
  · rintro s' rfl
    obtain ⟨hput, hi, hrun⟩ := Disk.mkdir_straight (hvac.shape.straight hvac.way) (by simp [hv.ne])
      hvac.none hm hfull.2.1 mode
    rw [hrun]
    obtain ⟨h', helse, hat, hnode⟩ := h₁.put hM hb hv hput (by rintro m ⟨rfl⟩; exact hmode)
      (d := s'.disk.put (w ++ v) (.dir mode) hput hi) rfl ⟨le_rfl, fun _ _ => rfl, rfl⟩ (by simp)
    exact ⟨h', helse, hat, fun k _ => hnode k, ⟨mode, if_pos rfl⟩, h₁.opaqueSet⟩
  · refine Calmly.ite (fun hgone => ?_) fun hgone => Calmly.pure ?_
    · -- it was deleted below: what is there stays hidden
      refine Calmly.assuming ?_
      rintro s₂ ⟨h₂, helse₂, hat₂, hnode₂, hdir₂, hopq₂⟩
      have hreach₂ := helse₂.reached hv.reached (Or.inl rfl)
      refine Calmly.conseq (markOpaque_else hM hb h₂ hreach₂ hv.clean hdir₂) (fun _ hs => hs)
        (fun _ s' hs => ?_) fun _ _ hs => hs
      obtain ⟨h', helse', hopq'⟩ := hs
      have helse := helse₂.trans helse'
      have hnode' : s'.disk.tree.node (w ++ v) = s₂.disk.tree.node (w ++ v) := hopq'.names.clean v hv.clean
      obtain ⟨m', hm'⟩ := hdir₂
      refine hend s' h' helse ?_ (fun k hk => ?_) (Or.inl ?_)
      · exact h'.served_node hM hb (helse.reached hv.reached (Or.inl rfl)) hv.clean hv.ne (hnode'.trans hm')
      · rw [hopq'.names.clean _ (clean_concat.2 ⟨hv.clean, hk⟩), hnode₂ k hk]
      · rw [hopq'.opaqueSet]
        exact Finset.mem_insert_self v _
    · rintro s₂ ⟨h₂, helse₂, hat₂, hnode₂, hdir₂, hopq₂⟩
      refine hend s₂ h₂ helse₂ hat₂ hnode₂ (Or.inr ?_)
      have hgone : v ∉ s.whiteoutSet := fun hmem => hgone ((isWhiteouted_iff hM hv.ne).2 hmem)
      rcases hlow with hmem | ⟨q, hq, hqv, hopq⟩ | hlow
      · exact absurd hmem hgone
      · exact Or.inl ⟨q, hq, hqv, hopq₂ ▸ hopq⟩
      · exact Or.inr hlow

omit hk in
/-- A new entry in which nothing can show. -/
theorem Fresh.plainly (h : Fresh M w s₀ v s s') (hv : Asked M s v) (hnone : scene M s v = none) {nd : Node}
    (hput : s'.disk.tree.CanPut (w ++ v) nd) (hnd : nd.isDir = false) {d : Disk}
    (hd : d.tree = s'.disk.tree.put (w ++ v) nd hput) (holder : Older s'.disk d)
    (hfile : ∀ i, nd = .file i → s'.disk.next ≤ i) :
    Orderly w s₀ { s' with disk := d } ∧
      scene M { s' with disk := d } = Scene.put (scene M s) v (some (d.entryOf nd)) := by
  obtain ⟨h', helse, hat, -⟩ := h.put hM hb hv hput (by rintro m rfl; cases hnd) hd holder hfile
  refine ⟨h', scene_put hv.ne hv.reached helse hat (scene_below (by rw [hnone]; simp)) fun hdir => ?_⟩
  cases nd with
  | dir m => cases hnd
  | file i => cases hdir
  | link target => cases hdir

/-- **An empty file more.** -/
theorem vfsCreate_plainly (h : Orderly w s₀ s) (hv : Asked M s v) (hnone : scene M s v = none) (mode : ℕ)
    (flags : OpenFlags) :
    PlainlyYields M w s₀ s (vfsCreate M v mode flags) (Scene.put (scene M s) v (some (.file [])))
      (Upper w s₀) := by
  unfold vfsCreate
  refine Calmly.ite (fun _ => Calmly.fail (by rintro s rfl; exact ⟨h, rfl⟩)) fun _ => ?_
  rw [hk.passthroughHost, wlPath_eq hM]
  refine fresh_then hM hb h hv hnone fun s₁ h₁ => ?_
  have hvac := h₁.vacant hM hv
  obtain ⟨m, hm, hfull⟩ := hvac.full_parent
  refine Calmly.bind (Q := fun handle s' => (Orderly w s₀ s' ∧
    scene M s' = Scene.put (scene M s) v (some (.file []))) ∧ Upper w s₀ (.host handle))
    (Calmly.act ?_) fun _ => Calmly.pure fun _ h => h
  rintro s' rfl
  obtain ⟨hput, hrun⟩ := Disk.open_straight (hvac.shape.straight hvac.way) (by simp [hv.ne]) hvac.none hm
    hfull.2.1 (show ({ flags with creat := true, nofollow := false } : OpenFlags).creat = true from rfl) mode
  rw [hrun]
  have hnew := h₁.plainly hM hb hv hnone hput rfl (d := s'.disk.addFile (w ++ v) mode hput) rfl
    (older_addFile hput) (by rintro i ⟨rfl⟩; exact le_rfl)
  have hempty : (s'.disk.addFile (w ++ v) mode hput).entryOf (.file s'.disk.next) = .file [] := by
    change Entry.file (Function.update s'.disk.inode s'.disk.next ⟨[], mode⟩ s'.disk.next).bytes = _
    rw [Function.update_self]
  rw [hempty] at hnew
  exact ⟨hnew, fun _ => hnew.1.inside ⟨hv.clean, if_pos rfl⟩⟩

/-- **A link more.** -/
theorem vfsSymlink_plainly (h : Orderly w s₀ s) (hv : Asked M s v) (hnone : scene M s v = none)
    {target : String} (htarget : target ≠ "") :
    Plainly M w s₀ s (vfsSymlink M target v) (Scene.put (scene M s) v (some (.link target))) := by
  unfold vfsSymlink
  refine Calmly.ite (fun _ => Plainly.fail h _) fun _ => ?_
  rw [hk.passthroughHost, wlPath_eq hM]
  refine fresh_then hM hb h hv hnone fun s₁ h₁ => Calmly.act ?_
  have hvac := h₁.vacant hM hv
  obtain ⟨m, hm, hfull⟩ := hvac.full_parent
  rintro s' rfl
  obtain ⟨hput, hi, hrun⟩ := Disk.symlink_straight (hvac.shape.straight hvac.way) (by simp [hv.ne])
    hvac.none hm hfull htarget
  rw [hrun]
  exact h₁.plainly hM hb hv hnone hput rfl (d := s'.disk.put (w ++ v) (.link target) hput hi) rfl
    ⟨le_rfl, fun _ _ => rfl, rfl⟩ (by simp)

/-! ### Entries that go -/

omit hk in
/-- Nothing shows at `v` any more. -/
theorem hideRest_plainly (hv : Asked M s v) (hempty : ∀ k, scene M s (v ++ [k]) = none)
    {hide : Prog World Errno Unit}
    (hhide : Calmly (fun t => t = s) hide (fun _ s' => Orderly w s₀ s' ∧ SameElse M v s s' ∧
      s'.disk.tree.node (w ++ v) = none) (fun _ s' => Orderly w s₀ s' ∧ scene M s' = scene M s)) :
    Plainly M w s₀ s (do hide; hideRest M v (createWhiteout M v) (pure ()))
      (Scene.put (scene M s) v none) := by
  refine Calmly.bind hhide fun _ => Calmly.assuming fun s₁ h₁ => ?_
  obtain ⟨h₁, helse₁, hnone₁⟩ := h₁
  have hv₁ := helse₁.reached hv.reached (Or.inl rfl)
  refine Calmly.conseq (hideRest_else hM hb h₁ hv₁ hv.clean hv.ne hnone₁) (fun _ hs => hs)
    (fun _ s' hs => ?_) fun _ _ hs => hs
  exact ⟨hs.1, scene_put hv.ne hv.reached (helse₁.trans hs.2.1) hs.2.2 hempty (by rintro ⟨⟩)⟩

/-- **An entry that is no directory goes.** -/
theorem vfsUnlink_plainly (h : Orderly w s₀ s) (hv : Asked M s v) (hdir : scene M s v ≠ some .dir) :
    Plainly M w s₀ s (vfsUnlink M v) (Scene.put (scene M s) v none) := by
  unfold vfsUnlink
  refine Calmly.ite (fun _ => Plainly.fail h _) fun _ => ?_
  rw [hk.passthroughHost, hideLower, hk.keptLayerFor]
  refine hideRest_plainly hM hb hv (scene_below hdir)
    (unlinkWriteCopy_else hM hb h hv.reached hv.clean hv.ne ?_)
  rintro ⟨m, hm⟩
  rw [hv.scene, h.served_node hM hb hv.reached hv.clean hv.ne hm] at hdir
  exact hdir rfl

/-- **A directory goes, when nothing shows in it.** -/
theorem vfsRmdir_plainly (h : Orderly w s₀ s) (hv : Asked M s v) (hdir : scene M s v = some .dir) :
    Plainly M w s₀ s (vfsRmdir M v) (Scene.put (scene M s) v none) := by
  unfold vfsRmdir
  refine Calmly.ite (fun _ => Plainly.fail h _) fun _ => ?_
  refine Calmly.bind (Q := fun children t => t = s ∧ children = listing M s v)
    (Calmly.look (collectChildren_agrees M v) (by rintro s rfl; exact ⟨rfl, rfl⟩)) fun children =>
    Calmly.assuming ?_
  rintro s ⟨rfl, rfl⟩
  refine Calmly.ite (fun _ => Plainly.fail h _) fun hlist => ?_
  rw [not_not] at hlist
  rw [hk.passthroughHost, hideLower, hk.keptLayerFor]
  have hserved : served M s v = some .dir := hv.scene ▸ hdir
  have hempty : ∀ k, scene M s (v ++ [k]) = none := by
    intro k
    have hreach : Reached M s (v ++ [k]) := Scene.reached_concat.2 ⟨hv.reached, hserved⟩
    rw [show scene M s (v ++ [k]) = served M s (v ++ [k]) from Scene.walked_of_reached hreach]
    by_contra hshow
    have hmem := h.listed hM hk hb hreach hshow
    rw [hlist] at hmem
    cases hmem
  refine hideRest_plainly hM hb hv hempty (removeWriteDir_else hM hb h hv.reached hv.clean hv.ne
    (dirAt_of_served hv.clean hserved) fun k hk' => ?_)
  have hreach : Reached M s (v ++ [k]) := Scene.reached_concat.2 ⟨hv.reached, hserved⟩
  have hshow := hempty k
  rw [show scene M s (v ++ [k]) = served M s (v ++ [k]) from Scene.walked_of_reached hreach] at hshow
  rw [List.append_assoc]
  exact h.node_of_none hM hb hreach (clean_concat.2 ⟨hv.clean, hk'⟩) (by simp) hshow

/-! ### Further names -/

variable {vf vt : Path} {x : Entry}

/-- The entry `x` at `vf` has the further name `vt`; the whiteout of that is still to be taken away. -/
def Linked (M : Mount) (w : Path) (s₀ : VfsState) (vf vt : Path) (x : Entry) (s s' : VfsState) : Prop :=
  ∃ s₂ nd hput hi, Orderly w s₀ s₂ ∧ SameScene M s s₂ ∧
    s₂.disk.tree.node (w ++ vf) = some nd ∧ s₂.disk.entryOf nd = x ∧ nd.isDir = false ∧
    Vacant w vt s₂ ∧ s' = { s₂ with disk := s₂.disk.put (w ++ vt) nd hput hi }

omit hk in
/-- **The host's link**, once the entry is in the writelayer. -/
theorem Brought.links {s₁ : VfsState} (h₁ : Brought M w s₀ vf x s s₁) (hf : Asked M s vf)
    (ht : Asked M s vt) (hnone : scene M s vt = none) :
    Calmly (fun t => t = s₁)
      (do ensureWriteParent M vt
          act (Disk.link (some (w ++ vf)) (some (w ++ vt))))
      (fun _ => Linked M w s₀ vf vt x s) (fun _ s' => Orderly w s₀ s' ∧ scene M s' = scene M s) := by
  have ht₁ := (h₁.same vt ht.reached).1
  refine Calmly.bind (ensureWriteParent_still hM hb h₁.orderly ht₁ ht.clean ht.ne) fun _ => Calmly.act ?_
  rintro s₂ ⟨h₂, hsame₂, hmade, holder⟩
  have hsame := h₁.same.trans hsame₂
  have ht₂ := (hsame vt ht.reached).1
  obtain ⟨nd, hnd, hentry, -⟩ := h₁.entry
  have hnd₂ : s₂.disk.tree.node (w ++ vf) = some nd := hmade.tree.grows _ _ hnd
  rcases Disk.link_cases (some (w ++ vf)) (some (w ++ vt)) s₂.disk with
    ⟨e, hf⟩ | ⟨a, b, nd', ha, hb', hnd', hdir, -, -, hput, hi, hrun⟩
  · rw [hf]
    exact ⟨h₂, hsame.scene_eq⟩
  · obtain rfl := Disk.find_false_straight (h₂.synced.shape.straight
      (h₂.openWay hM (hsame vf hf.reached).1 hf.clean)) ha
    obtain rfl := Disk.find_false_straight (h₂.synced.shape.straight (h₂.openWay hM ht₂ ht.clean)) hb'
    obtain rfl := Option.some_inj.1 (hnd₂.symm.trans hnd')
    rw [hrun]
    refine ⟨s₂, nd, hput, hi, h₂, hsame, hnd₂, (holder.entryOf hnd).trans hentry, hdir, ?_, rfl⟩
    exact
      { shape := h₂.synced.shape
        way := h₂.openWay hM ht₂ ht.clean
        ne := ht.ne
        clean := ht.clean
        parent := hmade.isDir ((h₁.orderly.openWay hM ht₁ ht.clean).dirWay ht.ne)
        none := h₂.node_of_none hM hb ht₂ ht.clean ht.ne
          ((hsame vt ht.reached).2.trans (ht.scene ▸ hnone)) }

omit hk in
/-- **Only then the name is no longer deleted**, and shows the entry. -/
theorem Linked.unhidden {s₃ : VfsState} (h : Linked M w s₀ vf vt x s s₃) (hf : Asked M s vf)
    (ht : Asked M s vt) (hnone : scene M s vt = none) (hun : Unhidden w vt s₃ s')
    (holder : Older s₃.disk s'.disk) :
    Orderly w s₀ s' ∧ scene M s' = Scene.put (scene M s) vt (some x) := by
  obtain ⟨s₂, nd, hput, hi, h₂, hsame, hnd, hentry, hdir, hvac, rfl⟩ := h
  have hext : Extends w vt s₂ { s₂ with disk := s₂.disk.put (w ++ vt) nd hput hi } :=
    hvac.extends_put hput (by rintro m rfl; cases hdir) rfl
  have holder : Older s₂.disk s'.disk := ⟨holder.next, holder.inode, holder.dev⟩
  have hnode : ∀ u, Clean u → s'.disk.tree.node (w ++ u) =
      if w ++ u = w ++ vt then some nd else s₂.disk.tree.node (w ++ u) :=
    fun u hu => hun.names.clean u hu
  have hother : ∀ u, u ≠ vt → Clean u → s'.disk.tree.node (w ++ u) = s₂.disk.tree.node (w ++ u) :=
    fun u hne hu => (hnode u hu).trans (if_neg fun he => hne (List.append_cancel_left he))
  have h' : Orderly w s₀ s' := by
    refine h₂.step ⟨hun.synced, hext.sameOutside.trans hun.names.outside⟩ holder (fun y i hy hyi => ?_)
      fun u hu hclean => ?_
    · by_cases hyt : y = vt
      · rw [hyt, hnode vt ht.clean, if_pos rfl] at hyi
        exact Or.inr ⟨vf, hf.clean, hnd.trans hyi⟩
      · exact Or.inr ⟨y, hy, (hother y hyt hy) ▸ hyi⟩
    · rw [hun.whiteoutSet, Finset.mem_erase] at hu
      rw [hother u hu.1 hclean, h₂.exclusive u hu.2 hclean]
  have ht₂ := (hsame vt ht.reached).1
  have helse : SameElse M vt s₂ s' := by
    refine sameElse_of hM hb h₂ h' ht₂ (fun u hne _ => ?_) (fun u _ _ => by rw [hun.opaqueSet])
      (fun u hu hclean => Or.inl (hother u (fun he => hu (he ▸ List.prefix_rfl)) hclean)) holder
    rw [hun.whiteoutSet, Finset.mem_erase]
    exact and_iff_right hne
  have hat : served M s' vt = some x := by
    rw [h'.served_node hM hb (helse.reached ht₂ (Or.inl rfl)) ht.clean ht.ne
      ((hnode vt ht.clean).trans (if_pos rfl)), holder.entryOf hnd, hentry]
  rw [← hsame.scene_eq]
  refine ⟨h', scene_put ht.ne ht₂ helse hat (fun k => ?_) fun hdir' => ?_⟩
  · rw [hsame.scene_eq]
    exact scene_below (by rw [hnone]; simp) k
  · rw [← hentry] at hdir'
    cases nd with
    | dir m => cases hdir
    | file i => cases hdir'
    | link target => cases hdir'

/-- **A further name for an entry.** -/
theorem vfsLink_plainly (h : Orderly w s₀ s) (hf : Asked M s vf) (hx : scene M s vf = some x)
    (ht : Asked M s vt) (hnone : scene M s vt = none) :
    Plainly M w s₀ s (vfsLink M vf vt) (Scene.put (scene M s) vt (some x)) := by
  unfold vfsLink
  refine Calmly.ite (fun _ => Plainly.fail h _) fun _ => ?_
  refine Calmly.bind (Q := fun rr t => t = s ∧ rr = lookup M s vf)
    (Calmly.look (resolve_agrees M vf) (by rintro s rfl; exact ⟨rfl, rfl⟩)) fun rr => Calmly.assuming ?_
  rintro s ⟨rfl, rfl⟩
  refine Calmly.ite (fun _ => Plainly.fail h _) fun _ => Calmly.ite (fun _ => Plainly.fail h _) fun _ => ?_
  refine Calmly.bind (Q := fun _ t => t = s) (Calmly.look (resolve_agrees M vt) fun t h => h)
    fun there => Calmly.ite (fun _ => Plainly.fail h _) fun _ => ?_
  refine Calmly.bind (Calmly.conseq (makeWritable_still hM hb hk h hf.reached hf.clean hf.ne (hf.scene ▸ hx))
    (fun _ hs => hs) (fun _ _ hs => hs) fun _ _ hs => ⟨hs.1, hs.2.scene_eq⟩) fun _ =>
    Calmly.assuming fun s₁ h₁ => ?_
  rw [linkTo, hk.passthroughHost, writeHost_eq hM hk, wlPath_eq hM, unhideLower_eq hk]
  refine Calmly.bind (h₁.links hM hb hf ht hnone) fun _ =>
    Calmly.ignoring (Calmly.assuming fun s₃ h₃ => ?_)
  have hlinked := h₃
  obtain ⟨s₂, nd, hput, hi, h₂, -, -, -, hdir, hvac, hs₃⟩ := h₃
  have hext : Extends w vt s₂ s₃ := by
    rw [hs₃]
    exact hvac.extends_put hput (by rintro m rfl; cases hdir) rfl
  refine Calmly.conseq ((removeWhiteout_ages M vt).calmly (E := fun _ s' => Orderly w s₀ s' ∧
    scene M s' = Scene.put (scene M s) vt (some x)) (removeWhiteout_unhidden hM (h₂.synced.of_extends hext)
      ht.ne ht.clean (hvac.way.grew hext.tree fun _ => rfl))) (fun _ hs => hs) (fun _ s' hs => ?_)
    fun _ _ hs => hs.1
  exact hlinked.unhidden hM hb hf ht hnone hs.1 hs.2

end

end VidyaGodFS
