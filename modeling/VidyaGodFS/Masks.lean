/-
**The two copies of a mask.**

Every mask of the writelayer is kept twice: as a marker on the disk, which a later mount reads, and
in a set in memory, which lookups read.  `Synced` says that the two agree.  This module has what each
of the mask helpers does to a state in which they do, and what keeps them in step besides.

Main definitions:

* `Synced` — the sets in memory are those that the markers on the disk show;
* `SameNames` — nothing but markers has changed;
* `Settled` — the masks are in step, and nothing outside the writelayer has changed.

Main results:

* `Synced.of_markers`, `Synced.of_extends`, `Synced.of_erase` — what leaves the markers alone keeps
  the masks in step;
* `Synced.of_move` — **so does moving a directory, when the masks move along**;
* `removeWhiteout_names`, `createWhiteout_hides`, `markOpaque_names`, `sweepMarkers_swept` —
  **the mask helpers keep the two copies in step**.
-/

import VidyaGodFS.CopyUp

set_option relaxedAutoImplicit false
set_option autoImplicit false

namespace VidyaGodFS

open Posix

variable {M : Mount} {w : Path}

/-! ### Masks in step -/

/-- **The masks in memory are those that the markers on the disk show.** -/
structure Synced (w : Path) (s : VfsState) : Prop where
  shape : Shape w s.disk.tree
  whiteouts : ∀ (v : Path) (n : Name), v ++ [n] ∈ s.whiteoutSet ↔
    mark n ≠ opaqueName ∧ s.disk.tree.node (w ++ v ++ [mark n]) ≠ none
  root : [] ∉ s.whiteoutSet
  opaques : ∀ v : Path, v ∈ s.opaqueSet ↔ s.disk.tree.node (w ++ v ++ [opaqueName]) ≠ none
  kept : s.kept = fun _ => ⟨∅, ∅⟩

/-- A plain name's marker is no opaque marker. -/
theorem mark_ne_opaqueName {n : Name} (hn : isMarker n = false) : mark n ≠ opaqueName := by
  intro h
  rw [opaqueName_eq, mark_inj] at h
  subst h
  exact absurd hn (by decide)

theorem clean_ne_marker {x u : Path} {k : Name} (hx : Clean x) (hk : isMarker k = true) :
    w ++ x ≠ w ++ u ++ [k] := by
  intro h
  rw [List.append_assoc] at h
  have hxk := hx k (by rw [List.append_cancel_left h]; simp)
  rw [hk] at hxk
  cases hxk

namespace Synced

variable {s s' : VfsState}

/-- **What leaves the markers alone keeps the masks in step.** -/
theorem of_markers (h : Synced w s) (hshape : Shape w s'.disk.tree)
    (hmarkers : ∀ (u : Path) (k : Name), isMarker k = true →
      s'.disk.tree.node (w ++ u ++ [k]) = s.disk.tree.node (w ++ u ++ [k]))
    (hwh : s'.whiteoutSet = s.whiteoutSet) (hopq : s'.opaqueSet = s.opaqueSet)
    (hkept : s'.kept = s.kept) : Synced w s' where
  shape := hshape
  whiteouts v n := by rw [hwh, h.whiteouts, hmarkers v (mark n) (isMarker_mark n)]
  root := by rw [hwh]; exact h.root
  opaques v := by rw [hopq, h.opaques, hmarkers v opaqueName isMarker_opaqueName]
  kept := hkept.trans h.kept

theorem of_extends {v : Path} (h : Synced w s) (hext : Extends w v s s') : Synced w s' :=
  h.of_markers (h.shape.grew hext.tree) (fun _ _ hk => hext.tree.node_eq_of_marker hk)
    hext.whiteoutSet hext.opaqueSet hext.kept

theorem of_namesKept (h : Synced w s) (hs : NamesKept s s') : Synced w s' :=
  h.of_extends ((Extends.refl (v := []) s).of_namesKept hs)

end Synced

/-! ### One marker more or less -/

/-- Nothing but markers has changed. -/
structure SameNames (w : Path) (t t' : Tree) : Prop where
  outside : ∀ q, ¬ w <+: q → t'.node q = t.node q
  clean : ∀ x, Clean x → t'.node (w ++ x) = t.node (w ++ x)

namespace SameNames

variable {t t' t'' : Tree}

theorem refl (t : Tree) : SameNames w t t := ⟨fun _ _ => rfl, fun _ _ => rfl⟩

theorem trans (h : SameNames w t t') (h' : SameNames w t' t'') : SameNames w t t'' :=
  ⟨fun q hq => (h'.outside q hq).trans (h.outside q hq),
    fun x hx => (h'.clean x hx).trans (h.clean x hx)⟩

theorem isDir (h : SameNames w t t') {x : Path} (hx : Clean x) :
    t'.IsDir (w ++ x) ↔ t.IsDir (w ++ x) := by
  rw [Tree.IsDir, h.clean x hx]
  exact Iff.rfl

/-- Open ways stay open where no names change. -/
theorem openWay (h : SameNames w t t') {v : Path} (hclean : Clean v) (hv : OpenWay w t v) :
    OpenWay w t' v := by
  intro q hq hne
  rw [h.clean q (hclean.of_le hq), h.isDir (hclean.of_le hq)]
  exact hv q hq hne

/-- Only what is at one marker's path has changed. -/
theorem of_marker {u : Path} {k : Name} (hk : isMarker k = true)
    (h : ∀ q, q ≠ w ++ u ++ [k] → t'.node q = t.node q) : SameNames w t t' where
  outside q hq := h q fun he => hq (by
    rw [he, List.append_assoc]
    exact List.prefix_append _ _)
  clean x hx := h _ (clean_ne_marker hx hk)

end SameNames

/-- The ways to the names of one directory are open together. -/
theorem OpenWay.sibling {t : Tree} {u : Path} {n : Name} (h : OpenWay w t (u ++ [n])) (k : Name) :
    OpenWay w t (u ++ [k]) := by
  have hu : DirWay w t u := by simpa using h.dirWay (by simp)
  intro q hq hne
  exact hu q ((List.prefix_concat_iff.1 hq).resolve_left hne)

theorem Shape.of_marker {t t' : Tree} {u : Path} {k : Name} (h : Shape w t)
    (hother : ∀ q, q ≠ w ++ u ++ [k] → t'.node q = t.node q)
    (hfile : t'.node (w ++ u ++ [k]) ≠ none → ∃ i, t'.node (w ++ u ++ [k]) = some (.file i)) :
    Shape w t' := by
  have habove : ∀ q, q <+: w → t'.node q = t.node q := by
    intro q hq
    refine hother q fun he => ?_
    have := hq.length_le
    rw [he, List.length_append, List.length_append, List.length_singleton] at this
    omega
  refine ⟨fun q hq hne => ?_, ?_, fun v m hm => ?_, fun v n hn hne => ?_⟩
  · rw [Tree.IsOpenDir, habove q hq]
    exact h.above q hq hne
  · rw [Tree.IsDir, habove w List.prefix_rfl]
    exact h.root
  · by_cases hv : w ++ v = w ++ u ++ [k]
    · obtain ⟨i, hi⟩ := hfile (by rw [← hv, hm]; simp)
      rw [hv, hi] at hm
      cases hm
    · rw [hother _ hv] at hm
      exact h.full v m hm
  · by_cases hv : w ++ v ++ [n] = w ++ u ++ [k]
    · rw [hv] at hne ⊢
      exact hfile hne
    · rw [hother _ hv] at hne ⊢
      exact h.markers v n hn hne

section

variable {d : Disk} {u : Path} {k : Name}

/-- A marker is taken away, if it is there. -/
theorem unlink_marker (hs : Shape w d.tree) (hu : OpenWay w d.tree (u ++ [k]))
    (hk : isMarker k = true) : ∀ q, (Disk.unlink (some (w ++ u ++ [k])) d).2.tree.node q
      = if q = w ++ u ++ [k] then none else d.tree.node q := by
  have hstraight : d.tree.Straight (w ++ u ++ [k]) := by
    rw [List.append_assoc]
    exact hs.straight hu
  intro q
  by_cases hnode : d.tree.node (w ++ u ++ [k]) = none
  · have hsame : (Disk.unlink (some (w ++ u ++ [k])) d).2 = d := by
      rcases Disk.unlink_cases (some (w ++ u ++ [k])) d with ⟨e, hf⟩ | ⟨q', nd, hq', hnd, -⟩
      · rw [hf]
      · rw [Disk.find_false_straight hstraight hq', hnode] at hnd
        cases hnd
    rw [hsame]
    by_cases hq : q = w ++ u ++ [k]
    · rw [if_pos hq, hq, hnode]
    · rw [if_neg hq]
  · obtain ⟨i, hi⟩ := hs.markers u k hk hnode
    obtain ⟨m, hm⟩ := d.tree.parent_dir (w ++ u) k hnode
    obtain ⟨he, hrun⟩ := Disk.unlink_straight hstraight (by simp) hi
      (by rw [append_singleton_dropLast]; exact hm) (hs.full u m hm)
    rw [hrun]
    rfl

/-- A marker is put, if it is not there. -/
theorem open_marker (hs : Shape w d.tree) (hu : OpenWay w d.tree (u ++ [k]))
    (hk : isMarker k = true) (hdir : d.tree.IsDir (w ++ u)) :
    ∃ i, ∀ q, (Disk.open (some (w ++ u ++ [k])) ⟨.wronly, true, false, false, false⟩ 0o644 d).2.tree.node q
      = if q = w ++ u ++ [k] then some (.file i) else d.tree.node q := by
  have hstraight : d.tree.Straight (w ++ u ++ [k]) := by
    rw [List.append_assoc]
    exact hs.straight hu
  by_cases hnode : d.tree.node (w ++ u ++ [k]) = none
  · obtain ⟨m, hm⟩ := hdir
    obtain ⟨hput, hrun⟩ : ∃ hput, Disk.open (some (w ++ u ++ [k])) ⟨.wronly, true, false, false, false⟩
        0o644 d = (.ok (.file d.next .wronly), d.addFile (w ++ u ++ [k]) 0o644 hput) :=
      Disk.open_straight hstraight (by simp) hnode (by rw [append_singleton_dropLast]; exact hm)
        (hs.full u m hm).2.1 rfl 0o644
    rw [hrun]
    exact ⟨d.next, fun _ => rfl⟩
  · obtain ⟨i, hi⟩ := hs.markers u k hk hnode
    refine ⟨i, fun q => ?_⟩
    have hsame : (Disk.open (some (w ++ u ++ [k])) ⟨.wronly, true, false, false, false⟩ 0o644 d).2.tree
        = d.tree := by
      rcases Disk.open_cases (some (w ++ u ++ [k])) ⟨.wronly, true, false, false, false⟩ 0o644 d with
        ⟨e, hf⟩ | ⟨q', hq', ⟨hnone, -⟩ | ⟨j, -, hrun⟩ | ⟨-, hrun⟩⟩
      · rw [hf]
      · rw [Disk.find_straight hstraight (fun target ht => by rw [hi] at ht; cases ht) hq'] at hnone
        exact absurd hnone hnode
      · rw [hrun]
        rfl
      · rw [hrun]
    rw [hsame]
    by_cases hq : q = w ++ u ++ [k]
    · rw [if_pos hq, hq, hi]
    · rw [if_neg hq]

end

/-! ### One mask more or less -/

/-- The disk without one marker, and the set without what it masks. -/
theorem Synced.erase_whiteout {s : VfsState} (h : Synced w s) {u : Path} {n : Name}
    (hn : mark n ≠ opaqueName) {d : Disk}
    (hd : ∀ q, d.tree.node q = if q = w ++ u ++ [mark n] then none else s.disk.tree.node q) :
    Synced w { s with disk := d, whiteoutSet := s.whiteoutSet.erase (u ++ [n]) } where
  shape := h.shape.of_marker (fun q hq => by rw [hd, if_neg hq])
    fun hne => absurd (by rw [hd, if_pos rfl]) hne
  whiteouts v m := by
    rw [Finset.mem_erase, h.whiteouts, hd]
    by_cases hv : v ++ [m] = u ++ [n]
    · obtain ⟨rfl, rfl⟩ := append_singleton_inj.1 hv
      simp
    · have hne : w ++ v ++ [mark m] ≠ w ++ u ++ [mark n] := by
        intro he
        obtain ⟨hvu, hmn⟩ := append_singleton_inj.1 he
        exact hv (by rw [List.append_cancel_left hvu, mark_inj.1 hmn])
      rw [if_neg hne]
      exact and_iff_right hv
  root hroot := h.root (Finset.mem_of_mem_erase hroot)
  opaques v := by
    rw [hd, if_neg, h.opaques]
    intro he
    exact hn (append_singleton_inj.1 he).2.symm
  kept := h.kept

/-- The disk with one marker more, and the set with what it masks. -/
theorem Synced.insert_whiteout {s : VfsState} (h : Synced w s) {u : Path} {n : Name}
    (hn : mark n ≠ opaqueName) {d : Disk} {i : ℕ}
    (hd : ∀ q, d.tree.node q = if q = w ++ u ++ [mark n] then some (.file i) else s.disk.tree.node q) :
    Synced w { s with disk := d, whiteoutSet := insert (u ++ [n]) s.whiteoutSet } where
  shape := h.shape.of_marker (fun q hq => by rw [hd, if_neg hq]) fun _ => ⟨i, by rw [hd, if_pos rfl]⟩
  whiteouts v m := by
    rw [Finset.mem_insert, h.whiteouts, hd]
    by_cases hv : v ++ [m] = u ++ [n]
    · obtain ⟨rfl, rfl⟩ := append_singleton_inj.1 hv
      simp [hn]
    · have hne : w ++ v ++ [mark m] ≠ w ++ u ++ [mark n] := by
        intro he
        obtain ⟨hvu, hmn⟩ := append_singleton_inj.1 he
        exact hv (by rw [List.append_cancel_left hvu, mark_inj.1 hmn])
      rw [if_neg hne]
      exact or_iff_right hv
  root hroot := by
    rcases Finset.mem_insert.1 hroot with he | hmem
    · exact absurd he.symm (by simp)
    · exact h.root hmem
  opaques v := by
    rw [hd, if_neg, h.opaques]
    intro he
    exact hn (append_singleton_inj.1 he).2.symm
  kept := h.kept

/-- The same for the marker of a directory itself. -/
theorem Synced.erase_opaque {s : VfsState} (h : Synced w s) {u : Path} {d : Disk}
    (hd : ∀ q, d.tree.node q = if q = w ++ u ++ [opaqueName] then none else s.disk.tree.node q) :
    Synced w { s with disk := d, opaqueSet := s.opaqueSet.erase u } where
  shape := h.shape.of_marker (fun q hq => by rw [hd, if_neg hq])
    fun hne => absurd (by rw [hd, if_pos rfl]) hne
  whiteouts v m := by
    rw [h.whiteouts]
    refine and_congr_right fun hm => ?_
    rw [hd, if_neg fun he => hm (append_singleton_inj.1 he).2]
  root := h.root
  opaques v := by
    rw [Finset.mem_erase, h.opaques, hd]
    by_cases hv : v = u
    · simp [hv]
    · rw [if_neg fun he => hv (List.append_cancel_left (append_singleton_inj.1 he).1)]
      exact and_iff_right hv
  kept := h.kept

theorem Synced.insert_opaque {s : VfsState} (h : Synced w s) {u : Path} {d : Disk} {i : ℕ}
    (hd : ∀ q, d.tree.node q
      = if q = w ++ u ++ [opaqueName] then some (.file i) else s.disk.tree.node q) :
    Synced w { s with disk := d, opaqueSet := insert u s.opaqueSet } where
  shape := h.shape.of_marker (fun q hq => by rw [hd, if_neg hq]) fun _ => ⟨i, by rw [hd, if_pos rfl]⟩
  whiteouts v m := by
    rw [h.whiteouts]
    refine and_congr_right fun hm => ?_
    rw [hd, if_neg fun he => hm (append_singleton_inj.1 he).2]
  root := h.root
  opaques v := by
    rw [Finset.mem_insert, h.opaques, hd]
    by_cases hv : v = u
    · simp [hv]
    · rw [if_neg fun he => hv (List.append_cancel_left (append_singleton_inj.1 he).1)]
      exact or_iff_right hv
  kept := h.kept

/-- **The masks are in step, and nothing outside the writelayer has changed.** -/
structure Settled (w : Path) (s s' : VfsState) : Prop where
  synced : Synced w s'
  outside : SameOutside w s s'

theorem Settled.trans {s s' s'' : VfsState} (h : SameOutside w s s') (h' : Settled w s' s'') :
    Settled w s s'' := ⟨h'.synced, h.trans h'.outside⟩

/-- Another mode for a directory. -/
theorem Synced.setMode {s : VfsState} {v : Path} (h : Synced w s) (hclean : Clean v)
    (hdir : s.disk.tree.IsDir (w ++ v)) {mode : ℕ} (hmode : Full mode) :
    Settled w s { s with disk := s.disk.setMode (w ++ v) mode hdir } := by
  have hnode : ∀ q, q ≠ w ++ v → (s.disk.setMode (w ++ v) mode hdir).tree.node q = s.disk.tree.node q :=
    fun q hq => if_neg hq
  have hmarker : ∀ (u : Path) (k : Name), isMarker k = true →
      (s.disk.setMode (w ++ v) mode hdir).tree.node (w ++ u ++ [k]) = s.disk.tree.node (w ++ u ++ [k]) :=
    fun u k hk => hnode _ (clean_ne_marker hclean hk).symm
  have hshape : Shape w (s.disk.setMode (w ++ v) mode hdir).tree := by
    refine ⟨fun q hq hne => ?_, ?_, fun u m hm => ?_, fun u k hk => ?_⟩
    · have hqv : q ≠ w ++ v := by
        rintro rfl
        exact hne (hq.eq_of_length_le (by simp))
      rw [Tree.IsOpenDir, hnode q hqv]
      exact h.shape.above q hq hne
    · by_cases hv : w = w ++ v
      · exact ⟨mode, if_pos hv⟩
      · rw [Tree.IsDir, hnode w hv]
        exact h.shape.root
    · by_cases hu : w ++ u = w ++ v
      · rw [hu] at hm
        obtain rfl := Node.dir.inj (Option.some_inj.1 (hm.symm.trans (if_pos rfl)))
        exact hmode
      · exact h.shape.full u m ((hnode _ hu).symm.trans hm)
    · rw [hmarker u k hk]
      exact h.shape.markers u k hk
  refine ⟨⟨hshape, fun u k => ?_, h.root, fun u => ?_, h.kept⟩, fun q hq => hnode q ?_⟩
  · rw [hmarker u _ (isMarker_mark k)]
    exact h.whiteouts u k
  · rw [hmarker u _ isMarker_opaqueName]
    exact h.opaques u
  · rintro rfl
    exact hq (List.prefix_append w v)

/-! ### Entries that go and move -/

/-- Nothing above the writelayer lies under a path in it. -/
theorem not_under_of_le {v q : Path} (hv : v ≠ []) (hq : q <+: w) : ¬ w ++ v <+: q := by
  intro hle
  have h₁ := hle.length_le
  have h₂ := hq.length_le
  have h₃ := List.length_pos_iff.2 hv
  rw [List.length_append] at h₁
  omega

theorem append_le_append {v y : Path} : w ++ v <+: w ++ y ↔ v <+: y := List.prefix_append_right_inj w

/-- **Taking a name out keeps the masks in step.** -/
theorem Synced.of_erase {s : VfsState} (h : Synced w s) {v : Path} (hv : v ≠ []) (hclean : Clean v)
    (he : s.disk.tree.CanErase (w ++ v)) : Settled w s { s with disk := s.disk.erase (w ++ v) he } := by
  have hother : ∀ q, q ≠ w ++ v → (s.disk.erase (w ++ v) he).tree.node q = s.disk.tree.node q :=
    fun q hq => if_neg hq
  have hmarker : ∀ (u : Path) (k : Name), isMarker k = true →
      (s.disk.erase (w ++ v) he).tree.node (w ++ u ++ [k]) = s.disk.tree.node (w ++ u ++ [k]) :=
    fun u k hk => hother _ (clean_ne_marker hclean hk).symm
  have habove : ∀ q, q <+: w → (s.disk.erase (w ++ v) he).tree.node q = s.disk.tree.node q :=
    fun q hq => hother q fun hqv => not_under_of_le hv hq (hqv ▸ List.prefix_rfl)
  refine ⟨h.of_markers ⟨fun q hq hne => ?_, ?_, fun u m hm => ?_, fun u k hk hne => ?_⟩ hmarker rfl rfl
    rfl, fun q hq => hother q fun hqv => hq (hqv ▸ List.prefix_append w v)⟩
  · rw [Tree.IsOpenDir, habove q hq]
    exact h.shape.above q hq hne
  · rw [Tree.IsDir, habove w List.prefix_rfl]
    exact h.shape.root
  · by_cases huv : w ++ u = w ++ v
    · rw [huv, Disk.erase_tree, Tree.erase_node, if_pos rfl] at hm
      cases hm
    · rw [hother _ huv] at hm
      exact h.shape.full u m hm
  · rw [hmarker u k hk] at hne ⊢
    exact h.shape.markers u k hk hne

/-- The way to what went stays open. -/
theorem OpenWay.erased {d : Disk} {v : Path} (h : OpenWay w d.tree v) (he : d.tree.CanErase (w ++ v)) :
    OpenWay w (d.erase (w ++ v) he).tree v := by
  intro q hq hne
  have hother : (d.erase (w ++ v) he).tree.node (w ++ q) = d.tree.node (w ++ q) :=
    if_neg fun hc => hne (List.append_cancel_left hc)
  rw [Tree.IsDir, hother]
  exact h q hq hne

section

variable {s : VfsState} {vf vt : Path}

/-- What becomes of a set of masks when a directory moves. -/
theorem mem_image_movePrefix {S : Finset Path} (hf : vf ≠ []) {y : Path} :
    y ∈ S.image (movePrefix vf vt) ↔ (∃ r, y = vt ++ r ∧ vf ++ r ∈ S) ∨ (y ∈ S ∧ ¬ vf <+: y) := by
  have hpos : ∀ x, (vf <+: x ∧ (vf = [] → x = [])) ↔ vf <+: x :=
    fun x => and_iff_left fun he => absurd he hf
  rw [Finset.mem_image]
  constructor
  · rintro ⟨x, hx, rfl⟩
    by_cases hpre : vf <+: x
    · rw [movePrefix, if_pos ((hpos x).2 hpre)]
      obtain ⟨r, rfl⟩ := hpre
      exact Or.inl ⟨r, by rw [List.drop_left], hx⟩
    · rw [movePrefix, if_neg fun hc => hpre ((hpos x).1 hc)]
      exact Or.inr ⟨hx, hpre⟩
  · rintro (⟨r, rfl, hr⟩ | ⟨hy, hpre⟩)
    · refine ⟨vf ++ r, hr, ?_⟩
      rw [movePrefix, if_pos ((hpos _).2 (List.prefix_append vf r)), List.drop_left]
    · exact ⟨y, hy, by rw [movePrefix, if_neg fun hc => hpre ((hpos y).1 hc)]⟩

/-- A set with nothing under what moves stays as it is. -/
theorem image_movePrefix_eq {S : Finset Path} (hf : vf ≠ []) (hS : ∀ x ∈ S, ¬ vf <+: x) :
    S.image (movePrefix vf vt) = S := by
  ext y
  rw [mem_image_movePrefix hf]
  constructor
  · rintro (⟨r, -, hr⟩ | ⟨hy, -⟩)
    · exact absurd (List.prefix_append vf r) (hS _ hr)
    · exact hy
  · exact fun hy => Or.inr ⟨hy, hS y hy⟩

variable (hm : s.disk.tree.CanMove (w ++ vf) (w ++ vt))

/-- The tree after a move within the writelayer. -/
theorem moved_node (y : Path) : (s.disk.move (w ++ vf) (w ++ vt) hm).tree.node (w ++ y) =
    if vt <+: y then s.disk.tree.node (w ++ (vf ++ y.drop vt.length))
    else if vf <+: y then none else s.disk.tree.node (w ++ y) := by
  rw [Disk.move_tree, Tree.move_node]
  simp only [append_le_append, List.length_append, List.append_assoc]
  rw [show (w ++ y).drop (w.length + vt.length) = y.drop vt.length by
    rw [← List.drop_drop, List.drop_left]]

/-- What lies under the new name has moved there. -/
theorem moved_node_under (r : Path) : (s.disk.move (w ++ vf) (w ++ vt) hm).tree.node (w ++ (vt ++ r)) =
    s.disk.tree.node (w ++ (vf ++ r)) := by
  rw [moved_node, if_pos (List.prefix_append vt r), List.drop_left]

/-- What lies elsewhere stays. -/
theorem moved_node_other {y : Path} (ht : ¬ vt <+: y) (hf : ¬ vf <+: y) :
    (s.disk.move (w ++ vf) (w ++ vt) hm).tree.node (w ++ y) = s.disk.tree.node (w ++ y) := by
  rw [moved_node, if_neg ht, if_neg hf]

/-- Nothing is left under the old name. -/
theorem moved_node_left {y : Path} (ht : ¬ vt <+: y) (hf : vf <+: y) :
    (s.disk.move (w ++ vf) (w ++ vt) hm).tree.node (w ++ y) = none := by
  rw [moved_node, if_neg ht, if_pos hf]

/-- A plain path and the path of a marker lie under each other only below. -/
theorem clean_le_marker {v u : Path} {k : Name} (hclean : Clean v) (hk : isMarker k = true) :
    v <+: u ++ [k] ↔ v <+: u := by
  constructor
  · intro hv
    refine (List.prefix_concat_iff.1 hv).resolve_left fun he => ?_
    have hvk := hclean k (by rw [he]; simp)
    rw [hk] at hvk
    cases hvk
  · exact fun hv => hv.trans (List.prefix_append u [k])

/-- The writelayer keeps its shape when an entry moves. -/
theorem Shape.moved (h : Shape w s.disk.tree) (hf : vf ≠ []) (ht : vt ≠ []) (hclean : Clean vt) :
    Shape w (s.disk.move (w ++ vf) (w ++ vt) hm).tree := by
  have habove : ∀ q, q <+: w →
      (s.disk.move (w ++ vf) (w ++ vt) hm).tree.node q = s.disk.tree.node q := by
    intro q hq
    rw [Disk.move_tree, Tree.move_node, if_neg (not_under_of_le ht hq), if_neg (not_under_of_le hf hq)]
  refine ⟨fun q hq hne => ?_, ?_, fun u m hdir => ?_, fun u k hk hne => ?_⟩
  · rw [Tree.IsOpenDir, habove q hq]
    exact h.above q hq hne
  · rw [Tree.IsDir, habove w List.prefix_rfl]
    exact h.root
  · by_cases htu : vt <+: u
    · obtain ⟨r, rfl⟩ := htu
      rw [moved_node_under] at hdir
      exact h.full _ m hdir
    · by_cases hfu : vf <+: u
      · rw [moved_node_left hm htu hfu] at hdir
        cases hdir
      · rw [moved_node_other hm htu hfu] at hdir
        exact h.full _ m hdir
  · rw [List.append_assoc] at hne ⊢
    by_cases htu : vt <+: u ++ [k]
    · obtain ⟨r, rfl⟩ := (clean_le_marker hclean hk).1 htu
      rw [List.append_assoc, moved_node_under, ← List.append_assoc, ← List.append_assoc] at hne ⊢
      rw [List.append_assoc w] at hne ⊢
      exact h.markers (vf ++ r) k hk hne
    · by_cases hfu : vf <+: u ++ [k]
      · rw [moved_node_left hm htu hfu] at hne
        exact absurd rfl hne
      · rw [moved_node_other hm htu hfu, ← List.append_assoc] at hne ⊢
        exact h.markers u k hk hne

/-- **Moving a directory with its masks keeps them in step.** -/
theorem Synced.of_move (h : Synced w s) (hf : vf ≠ []) (hcleanf : Clean vf) (ht : vt ≠ [])
    (hcleant : Clean vt) (hfnot : vf ∉ s.whiteoutSet) :
    Settled w s ⟨s.disk.move (w ++ vf) (w ++ vt) hm, s.whiteoutSet.image (movePrefix vf vt),
      s.opaqueSet.image (movePrefix vf vt), s.kept⟩ := by
  -- nothing lay under the new name
  have hempty : ∀ (r : Path) (k : Name), s.disk.tree.node (w ++ (vt ++ r) ++ [k]) = none := by
    intro r k
    refine Tree.node_eq_none_of_children hm.2.2.2.2.2 ?_ ?_
    · rw [List.append_assoc]
      exact append_le_append.2 ((List.prefix_append vt r).trans (List.prefix_append _ _))
    · intro he
      have := congrArg List.length he
      simp only [List.length_append, List.length_singleton] at this
      omega
  have hmarked : ∀ (v : Path) (n : Name), v ++ [n] ∉ s.whiteoutSet →
      ¬ (mark n ≠ opaqueName ∧ s.disk.tree.node (w ++ (v ++ [mark n])) ≠ none) := by
    intro v n hv hc
    rw [← List.append_assoc] at hc
    exact hv ((h.whiteouts v n).2 hc)
  refine ⟨⟨h.shape.moved hm hf ht hcleant, fun v n => ?_, ?_, fun v => ?_, h.kept⟩, fun q hq => ?_⟩
  · rw [mem_image_movePrefix hf, List.append_assoc]
    by_cases htv : vt <+: v
    · -- under the new name: what was under the old one
      obtain ⟨r, rfl⟩ := htv
      have hnot : vt ++ r ++ [n] ∉ s.whiteoutSet := by
        intro hmem
        exact ((h.whiteouts _ n).1 hmem).2 (hempty r (mark n))
      rw [or_iff_left fun hc => hnot hc.1, List.append_assoc, List.append_assoc, moved_node_under,
        ← List.append_assoc vf, ← List.append_assoc w, ← h.whiteouts (vf ++ r) n]
      constructor
      · rintro ⟨r', he, hr'⟩
        rwa [← List.append_cancel_left he, ← List.append_assoc] at hr'
      · exact fun hr => ⟨r ++ [n], rfl, by rwa [← List.append_assoc]⟩
    · have hto : ¬ vt <+: v ++ [mark n] := fun hc => htv ((clean_le_marker hcleant (isMarker_mark n)).1 hc)
      have hleft : ¬ ∃ r, v ++ [n] = vt ++ r ∧ vf ++ r ∈ s.whiteoutSet := by
        rintro ⟨r, he, hr⟩
        rcases List.prefix_concat_iff.1 (he ▸ List.prefix_append vt r) with hvt | hvt
        · rw [he] at hvt
          obtain rfl : r = [] := by simpa using hvt.symm
          rw [List.append_nil] at hr
          exact hfnot hr
        · exact htv hvt
      rw [or_iff_right hleft]
      by_cases hfv : vf <+: v
      · rw [moved_node_left hm hto (hfv.trans (List.prefix_append _ _))]
        exact iff_of_false (fun hc => hc.2 (hfv.trans (List.prefix_append _ _))) fun hc => hc.2 rfl
      · rw [moved_node_other hm hto fun hc => hfv ((clean_le_marker hcleanf (isMarker_mark n)).1 hc)]
        by_cases hmem : v ++ [n] ∈ s.whiteoutSet
        · refine iff_of_true ⟨hmem, fun hc => ?_⟩ ?_
          · rcases List.prefix_concat_iff.1 hc with he | hc
            · exact hfnot (he ▸ hmem)
            · exact hfv hc
          · rw [← List.append_assoc]
            exact (h.whiteouts v n).1 hmem
        · exact iff_of_false (fun hc => hmem hc.1) (hmarked v n hmem)
  · rw [mem_image_movePrefix hf]
    rintro (⟨r, he, hr⟩ | ⟨hroot, -⟩)
    · exact ht (List.append_eq_nil_iff.1 he.symm).1
    · exact h.root hroot
  · rw [mem_image_movePrefix hf, List.append_assoc]
    by_cases htv : vt <+: v
    · obtain ⟨r, rfl⟩ := htv
      have hnot : vt ++ r ∉ s.opaqueSet := fun hmem => (h.opaques _).1 hmem (hempty r opaqueName)
      rw [or_iff_left fun hc => hnot hc.1, List.append_assoc, moved_node_under, ← List.append_assoc vf,
        ← List.append_assoc w, ← h.opaques (vf ++ r)]
      constructor
      · rintro ⟨r', he, hr'⟩
        rwa [← List.append_cancel_left he] at hr'
      · exact fun hr => ⟨r, rfl, hr⟩
    · have hleft : ¬ ∃ r, v = vt ++ r ∧ vf ++ r ∈ s.opaqueSet := by
        rintro ⟨r, rfl, -⟩
        exact htv (List.prefix_append vt r)
      have hto : ¬ vt <+: v ++ [opaqueName] :=
        fun hc => htv ((clean_le_marker hcleant isMarker_opaqueName).1 hc)
      rw [or_iff_right hleft]
      by_cases hfv : vf <+: v
      · rw [moved_node_left hm hto (hfv.trans (List.prefix_append _ _))]
        exact iff_of_false (fun hc => hc.2 hfv) fun hc => hc rfl
      · rw [and_iff_left hfv, h.opaques, moved_node_other hm hto
          fun hc => hfv ((clean_le_marker hcleanf isMarker_opaqueName).1 hc), List.append_assoc]
  · change (s.disk.move (w ++ vf) (w ++ vt) hm).tree.node q = _
    rw [Disk.move_tree, Tree.move_node, if_neg fun hc => hq ((List.prefix_append w vt).trans hc),
      if_neg fun hc => hq ((List.prefix_append w vf).trans hc)]

end

/-! ### What the helpers do -/

theorem whiteoutPath_concat (hM : M.writelayer = some w) (u : Path) (n : Name) :
    M.whiteoutPath (u ++ [n]) = some (w ++ u ++ [mark n]) := by
  rw [Mount.whiteoutPath, append_singleton_dropLast, wlPath_eq hM, baseName,
    List.getLastD_concat, HostPath.join]

theorem opaqueMarker_eq (hM : M.writelayer = some w) (v : Path) :
    M.opaqueMarker v = some (w ++ v ++ [opaqueName]) := by
  rw [Mount.opaqueMarker, wlPath_eq hM, HostPath.join]

/-- The masks are in step, no name has changed, and `v` is not whiteouted. -/
structure Unhidden (w v : Path) (s s' : VfsState) : Prop where
  synced : Synced w s'
  names : SameNames w s.disk.tree s'.disk.tree
  whiteoutSet : s'.whiteoutSet = s.whiteoutSet.erase v
  opaqueSet : s'.opaqueSet = s.opaqueSet

/-- **Taking a whiteout away keeps the masks in step.** -/
theorem removeWhiteout_names (hM : M.writelayer = some w) {s₀ : VfsState} (hs : Synced w s₀) {u : Path}
    {n : Name} (hn : mark n ≠ opaqueName) (hu : OpenWay w s₀.disk.tree (u ++ [n]))
    {E : Errno → VfsState → Prop} :
    Calmly (fun s => s = s₀) (removeWhiteout M (u ++ [n])) (fun _ => Unhidden w (u ++ [n]) s₀) E := by
  unfold removeWhiteout
  rw [if_neg (by simp [hM]), whiteoutPath_concat hM]
  have hnode := unlink_marker hs.shape (hu.sibling (mark n)) (isMarker_mark n)
  refine Calmly.bind (Q := fun _ s => s =
    { s₀ with disk := (Disk.unlink (some (w ++ u ++ [mark n])) s₀.disk).2 })
    (Calmly.ignoring (Calmly.act ?_)) fun _ => Calmly.mutate ?_
  · rintro s rfl
    rcases hrun : Disk.unlink (some (w ++ u ++ [mark n])) s.disk with ⟨e | a, d⟩ <;> exact rfl
  · rintro s rfl
    exact ⟨hs.erase_whiteout hn hnode, .of_marker (isMarker_mark n) fun q hq => by
      rw [hnode, if_neg hq], rfl, rfl⟩

/-- The masks are in step, the directory for `v` has been made, and `v` is whiteouted. -/
structure MadeWhiteout (w v : Path) (s s' : VfsState) : Prop where
  synced : Synced w s'
  made : ∃ s₁, MadeDirs w v.dropLast s s₁ ∧ SameNames w s₁.disk.tree s'.disk.tree
  whiteoutSet : s'.whiteoutSet = insert v s.whiteoutSet
  opaqueSet : s'.opaqueSet = s.opaqueSet

/-- **Putting a whiteout keeps the masks in step.** -/
theorem createWhiteout_hides (hM : M.writelayer = some w) {s₀ : VfsState} (hs : Synced w s₀)
    {u : Path} {n : Name} (hn : mark n ≠ opaqueName) (hclean : Clean u)
    (hu : OpenWay w s₀.disk.tree (u ++ [n])) {E : Errno → VfsState → Prop} :
    Calmly (fun s => s = s₀) (createWhiteout M (u ++ [n])) (fun _ => MadeWhiteout w (u ++ [n]) s₀) E := by
  unfold createWhiteout
  rw [if_neg (by simp [hM]), whiteoutPath_concat hM, append_singleton_dropLast, wlPath_eq hM]
  have hway : DirWay w s₀.disk.tree u := by simpa using hu.dirWay (by simp)
  refine Calmly.bind (Q := fun _ => MadeDirs w u s₀)
    (Calmly.ignoring (createDirectories_made hs.shape hway)) fun _ => ?_
  refine Calmly.assuming fun s₁ h₁ => ?_
  have hext : Extends w u s₀ s₁ := h₁.toExtends hs.shape List.prefix_rfl hclean
  have hs₁ := hs.of_extends hext
  have hu₁ : OpenWay w s₁.disk.tree (u ++ [mark n]) :=
    ((hu.of_le (List.prefix_append u [n])).grew hext.tree fun _ => rfl).concat
      (Or.inr (h₁.isDir hway)) _
  obtain ⟨i, hnode⟩ := open_marker hs₁.shape hu₁ (isMarker_mark n) (h₁.isDir hway)
  refine Calmly.bind (Q := fun _ s => s = { s₁ with
      disk := (Disk.open (some (w ++ u ++ [mark n])) ⟨.wronly, true, false, false, false⟩ 0o644
        s₁.disk).2 })
    (Calmly.ignoring (Calmly.act ?_)) fun _ => Calmly.mutate ?_
  · rintro s rfl
    rcases hrun : Disk.open (some (w ++ u ++ [mark n])) ⟨.wronly, true, false, false, false⟩ 0o644
      s.disk with ⟨e | a, d⟩ <;> exact rfl
  · rintro s rfl
    refine ⟨hs₁.insert_whiteout hn hnode, ⟨s₁, ?_, ?_⟩, ?_, h₁.opaqueSet⟩
    · rwa [append_singleton_dropLast]
    · exact SameNames.of_marker (isMarker_mark n) fun q hq => by rw [hnode, if_neg hq]
    · rw [h₁.whiteoutSet]

/-- Nothing outside of the writelayer has changed. -/
theorem MadeWhiteout.settled {v : Path} {s s' : VfsState} (h : MadeWhiteout w v s s') (hs : Synced w s)
    (hclean : Clean v.dropLast) : Settled w s s' := by
  obtain ⟨s₁, h₁, hnames⟩ := h.made
  exact .trans (h₁.toExtends hs.shape List.prefix_rfl hclean).sameOutside ⟨h.synced, hnames.outside⟩

/-- The masks are in step, no name has changed, and `v` masks what is below it. -/
structure MadeOpaque (w v : Path) (s s' : VfsState) : Prop where
  synced : Synced w s'
  names : SameNames w s.disk.tree s'.disk.tree
  whiteoutSet : s'.whiteoutSet = s.whiteoutSet
  opaqueSet : s'.opaqueSet = insert v s.opaqueSet

/-- **Marking a directory opaque keeps the masks in step.** -/
theorem markOpaque_names (hM : M.writelayer = some w) {s₀ : VfsState} (hs : Synced w s₀) {v : Path}
    (hv : OpenWay w s₀.disk.tree v) (hdir : s₀.disk.tree.IsDir (w ++ v)) {E : Errno → VfsState → Prop} :
    Calmly (fun s => s = s₀) (markOpaque M v) (fun _ => MadeOpaque w v s₀) E := by
  unfold markOpaque
  rw [if_neg (by simp [hM]), opaqueMarker_eq hM]
  obtain ⟨i, hnode⟩ := open_marker hs.shape (hv.concat (Or.inr hdir) _) isMarker_opaqueName hdir
  refine Calmly.bind (Q := fun _ s => s = { s₀ with
      disk := (Disk.open (some (w ++ v ++ [opaqueName])) ⟨.wronly, true, false, false, false⟩ 0o644
        s₀.disk).2 })
    (Calmly.ignoring (Calmly.act ?_)) fun _ => Calmly.mutate ?_
  · rintro s rfl
    rcases hrun : Disk.open (some (w ++ v ++ [opaqueName])) ⟨.wronly, true, false, false, false⟩ 0o644
      s.disk with ⟨e | a, d⟩ <;> exact rfl
  · rintro s rfl
    exact ⟨hs.insert_opaque hnode, .of_marker isMarker_opaqueName fun q hq => by
      rw [hnode, if_neg hq], rfl, rfl⟩

/-- The markers among `names` have gone from the directory `v`, and their masks with them. -/
structure Swept (w v : Path) (names : List Name) (s s' : VfsState) : Prop where
  synced : Synced w s'
  same : SameNames w s.disk.tree s'.disk.tree
  whiteout : ∀ x, x ∈ s'.whiteoutSet ↔
    x ∈ s.whiteoutSet ∧ ∀ k ∈ names, isMarker k = true → k ≠ opaqueName → x ≠ v ++ [unmark k]
  opaque_ : ∀ x, x ∈ s'.opaqueSet ↔ x ∈ s.opaqueSet ∧ (opaqueName ∈ names → x ≠ v)

namespace Swept

variable {v : Path} {k : Name} {names : List Name} {s s' s'' : VfsState}

theorem nil (h : Synced w s) : Swept w v [] s s :=
  ⟨h, .refl _, fun x => by simp, fun x => by simp⟩

/-- First one name, then the others. -/
theorem cons (h : Swept w v [k] s s') (h' : Swept w v names s' s'') : Swept w v (k :: names) s s'' where
  synced := h'.synced
  same := h.same.trans h'.same
  whiteout x := by
    rw [h'.whiteout, h.whiteout, List.forall_mem_singleton, List.forall_mem_cons, and_assoc]
  opaque_ x := by
    rw [h'.opaque_, h.opaque_, List.mem_singleton, List.mem_cons, or_imp, and_assoc]

/-- None of the markers is left. -/
theorem node_eq_none (h : Swept w v names s s') (hk : k ∈ names) (hmark : isMarker k = true) :
    s'.disk.tree.node (w ++ v ++ [k]) = none := by
  by_contra hne
  by_cases hopq : k = opaqueName
  · rw [hopq] at hk hne
    exact ((h.opaque_ v).1 ((h.synced.opaques v).2 hne)).2 hk rfl
  · have hmem : v ++ [unmark k] ∈ s'.whiteoutSet :=
      (h.synced.whiteouts v (unmark k)).2 (by rw [mark_unmark hmark]; exact ⟨hopq, hne⟩)
    exact ((h.whiteout _).1 hmem).2 k hk hmark hopq rfl

end Swept

/-- Clearing one marker away, or leaving a name that is none. -/
theorem sweepMarker_swept (hM : M.writelayer = some w) {s₀ : VfsState} (hs : Synced w s₀) {v : Path}
    {k : Name} (hk : OpenWay w s₀.disk.tree (v ++ [k])) {E : Errno → VfsState → Prop} :
    Calmly (fun s => s = s₀)
      (if !isMarker k then pure ()
        else if k = opaqueName then do
          ignoring (act (Disk.unlink ((M.wlPath v).join [k])))
          unmarkOpaque M v
        else removeWhiteout M (v ++ [unmark k]))
      (fun _ => Swept w v [k] s₀) E := by
  refine Calmly.ite (fun hname => Calmly.pure ?_) fun hname => ?_
  · rintro s rfl
    have hname : isMarker k = false := by simpa using hname
    refine ⟨hs, .refl _, fun x => ?_, fun x => ?_⟩
    · rw [List.forall_mem_singleton, hname]
      simp
    · refine (and_iff_left fun hmem => ?_).symm
      rw [← List.mem_singleton.1 hmem, isMarker_opaqueName] at hname
      cases hname
  have hmark : isMarker k = true := by simpa using hname
  refine Calmly.ite (fun hopq => ?_) fun hopq => ?_
  · -- the directory's own marker
    subst hopq
    rw [wlPath_eq hM, HostPath.join]
    have hnode := unlink_marker hs.shape hk isMarker_opaqueName
    refine Calmly.bind (Q := fun _ s => s =
      { s₀ with disk := (Disk.unlink (some (w ++ v ++ [opaqueName])) s₀.disk).2 })
      (Calmly.ignoring (Calmly.act ?_)) fun _ => ?_
    · rintro s rfl
      rcases hrun : Disk.unlink (some (w ++ v ++ [opaqueName])) s.disk with ⟨e | a, d⟩ <;> exact rfl
    · unfold unmarkOpaque
      rw [if_neg (by simp [hM])]
      refine Calmly.mutate ?_
      rintro s rfl
      refine ⟨hs.erase_opaque hnode, .of_marker isMarker_opaqueName fun q hq => by
        rw [hnode, if_neg hq], fun x => ?_, fun x => ?_⟩
      · simp
      · rw [Finset.mem_erase, List.mem_singleton, and_comm]
        simp
  · refine Calmly.conseq (removeWhiteout_names hM hs (by rwa [mark_unmark hmark]) (hk.sibling _))
      (fun _ h => h) (fun _ s h => ⟨h.synced, h.names, fun x => ?_, fun x => ?_⟩) (fun _ _ h => h)
    · rw [h.whiteoutSet, Finset.mem_erase, and_comm, List.forall_mem_singleton]
      simp [hmark, hopq]
    · rw [h.opaqueSet, List.mem_singleton]
      exact (and_iff_left fun he => absurd he.symm hopq).symm

/-- **Clearing the markers out of a directory keeps the masks in step.** -/
theorem sweepMarkers_swept (hM : M.writelayer = some w) {v : Path} (hclean : Clean v)
    {E : Errno → VfsState → Prop} :
    ∀ (names : List Name) {s₀ : VfsState}, Synced w s₀ → OpenWay w s₀.disk.tree v →
      (s₀.disk.tree.node (w ++ v) = none ∨ s₀.disk.tree.IsDir (w ++ v)) →
      Calmly (fun s => s = s₀) (sweepMarkers M v names) (fun _ => Swept w v names s₀) E := by
  intro names
  induction names with
  | nil =>
      intro s₀ hs _ _
      exact Calmly.pure (by rintro s rfl; exact .nil hs)
  | cons k names ih =>
      intro s₀ hs hv hdir
      refine Calmly.bind (sweepMarker_swept hM hs (hv.concat hdir k)) fun _ =>
        Calmly.assuming fun s h => ?_
      have hdir' : s.disk.tree.node (w ++ v) = none ∨ s.disk.tree.IsDir (w ++ v) := by
        rwa [h.same.clean v hclean, h.same.isDir hclean]
      exact Calmly.conseq (ih h.synced (h.same.openWay hclean hv) hdir') (fun _ hs' => hs')
        (fun _ _ hs' => h.cons hs') fun _ _ hs' => hs'

end VidyaGodFS
