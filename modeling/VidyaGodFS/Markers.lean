/-
**What a marker hides, and what a later mount makes of it.**

A name that a lower layer still provides is hidden by a marker: in the kept folder that covers it,
or else in the writelayer.  The mount notes it in memory as well, and that is what its lookups read;
a later mount has the marker alone.  It comes by it on its walk down the folder, or down the
writelayer, if the directories on the way to it can be entered and listed.

Main definitions:

* `markerPath`, `InWritelayer`, `Present` — where the marker of a name goes, and its being there;
* `HidesLower` — what is hidden, a lower layer provides;
* `WalkFinds` — a way the walk of a later mount comes down.

Main results:

* `createWhiteout_let`, `hideLower_inFolder`, `touchMarker_present` — **the marker is there**, in the
  writelayer if there is room for it and the host lets it be made;
* `HidesLower.not_unhid` — without a mask of its own no name is hidden from what lies below;
* `WalkFinds.entered` — **a later mount comes by a marker at the end of such a way**;
* `lookup_mounted_whiteout`, `lookup_mounted_kept` — **and then it does not resolve the name**.
-/

import VidyaGodFS.Contained
import VidyaGodFS.Deletions
import VidyaGodFS.Seeding
import VidyaGodFS.Ways

set_option relaxedAutoImplicit false
set_option autoImplicit false

namespace VidyaGodFS

open Posix

variable {M : Mount}

/-! ### The marker -/

/-- How a marker is opened. -/
def markerFlags : OpenFlags := ⟨.wronly, true, false, false, false⟩

variable (M) in
/-- Where the marker of `v` goes: the kept folder that covers it, or else the writelayer. -/
def markerPath (v : Path) : HostPath :=
  match M.keptLayerFor v with
  | some L => if sourceRel L v = [] then M.whiteoutPath v else keptMarker L (sourceRel L v)
  | none => M.whiteoutPath v

variable (M) in
/-- The marker of `v` goes to the writelayer. -/
def InWritelayer (v : Path) : Prop := ∀ L, M.keptLayerFor v = some L → sourceRel L v = []

/-- There is an entry at the path. -/
def Present (d : Disk) (p : HostPath) : Prop := ∃ st, d.lstat p = .ok st

/-- A path that leads somewhere, to which a file is added or where an entry is, is there itself. -/
theorem present_of_find {d d' : Disk} {p : HostPath} {q : Path} (hgrows : d.tree.Grows d'.tree)
    (hq : d.find true p = .ok q)
    (hthere : d.tree.node q ≠ none ∨ ∃ i, d'.tree.node q = some (.file i)) : Present d' p := by
  cases p with
  | none => cases hq
  | some p =>
      obtain ⟨q', hq', hend⟩ := Tree.locate_unfollow (t := d.tree) hq
      by_cases hnone : d.tree.node q' = none
      · obtain rfl := hend.resolve_right (not_not.2 hnone)
        obtain ⟨i, hi⟩ := hthere.resolve_left (not_not.2 hnone)
        exact ⟨_, Disk.statAt_of_find (Tree.locate_grows_end hgrows hq' fun _ => by simp [hi]) hi⟩
      · obtain ⟨nd, hnd⟩ := Option.ne_none_iff_exists'.1 hnone
        exact ⟨_, Disk.statAt_of_find (Tree.locate_grows hgrows hq' hnone) (hgrows _ _ hnd)⟩

/-- What was opened to be made is there. -/
theorem present_of_open {p : HostPath} {mode : ℕ} {d : Disk} {h : Handle} {d' : Disk}
    (hopen : Disk.open p markerFlags mode d = (.ok h, d')) : Present d' p := by
  have hgrows := adding_open p markerFlags mode d
  rw [hopen] at hgrows
  rcases Disk.open_cases p markerFlags mode d with
    ⟨e, hfail⟩ | ⟨q, hq, ⟨-, -, -, hput, hrun⟩ | ⟨i, hi, -⟩ | ⟨⟨m, hm⟩, -⟩⟩
  · rw [hopen] at hfail
    cases hfail
  · rw [hopen] at hrun
    obtain rfl := congrArg Prod.snd hrun
    exact present_of_find hgrows hq (Or.inr ⟨d.next, by simp⟩)
  · exact present_of_find hgrows hq (Or.inl (by simp [hi]))
  · exact present_of_find hgrows hq (Or.inl (by simp [hm]))

/-- **A marker that the writelayer has room for is there**, if the host lets it be made. -/
theorem createWhiteout_let {v p : Path} {w w' : World} {n : ℕ} (hwl : M.writelayer ≠ none)
    (hdir : M.wlPath v.dropLast = some p) (hm : Markable w.state.disk.tree p)
    (hn : missingTo w.state.disk.tree p p.length ≤ n) (hlet : w.Lets n)
    (hrun : createWhiteout M v w = (.ok (), w')) :
    Present w'.state.disk (M.whiteoutPath v) ∧ WayThere p w.state.disk.tree w'.state.disk := by
  have hpath : M.whiteoutPath v = some (p ++ [mark (baseName v)]) := by
    rw [Mount.whiteoutPath, hdir]
    rfl
  obtain ⟨hthere, hlet'⟩ := createDirectories_let hm.makeable hn hlet
  unfold createWhiteout at hrun
  rw [if_neg hwl, hdir, hpath, Prog.bind_of_ok (ignoring_apply _ _),
    Prog.bind_of_ok (ignoring_apply _ _), mutate_apply, act_let _ hlet'] at hrun
  obtain rfl := (Prod.mk.inj hrun).2
  rw [hpath]
  dsimp only
  obtain ⟨d, hd⟩ : ∃ d, d = (createDirectories (some p) w).2.state.disk := ⟨_, rfl⟩
  rw [← hd] at hthere ⊢
  have hopen : d.tree.OpenWay p := hthere.1.openWay hm.makeable.way
  have hafter : WayThere p w.state.disk.tree
      (Disk.open (some (p ++ [mark (baseName v)])) markerFlags 0o644 d).2 :=
    patches_keep hm.makeable.way _ (Patches.adds (Adds.open_ _ _ _)) d hthere
  refine ⟨?_, hafter⟩
  cases hnode : d.tree.node (p ++ [mark (baseName v)]) with
  | none =>
      obtain ⟨m, hdirm⟩ := hthere.2
      have hwrite := (hm.kept hthere.1).writable m hdirm
      obtain ⟨hput, hok⟩ := Disk.open_straight hopen.straight (by simp) hnode
        (by rw [append_singleton_dropLast]; exact hdirm) hwrite
        (show markerFlags.creat = true from rfl) 0o644
      have hdisk : (Disk.open (some (p ++ [mark (baseName v)])) markerFlags 0o644 d).2 = _ :=
        congrArg Prod.snd hok
      exact hdisk ▸ present_of_open hok
  | some nd =>
      have hgrows := adding_open (some (p ++ [mark (baseName v)])) markerFlags 0o644 d
      exact ⟨_, Disk.lstat_straight_some (hafter.1.openWay hm.makeable.way).straight (hgrows _ nd hnode)⟩

/-- **A kept folder's marker that could be made is there.** -/
theorem touchMarker_present {p : HostPath} {w w' : World} (hrun : touchMarker p w = (.ok (), w')) :
    Present w'.state.disk p := by
  unfold touchMarker at hrun
  rcases hdirs : createDirectories (p.map List.dropLast) w with ⟨e | u, w₁⟩
  · rw [Prog.bind_of_error hdirs] at hrun
    cases hrun
  rw [Prog.bind_of_ok hdirs] at hrun
  rcases hopen : act (Disk.open p markerFlags 0o644) w₁ with ⟨e | h, w₂⟩
  · have hrun' := (Prog.bind_of_error hopen).symm.trans hrun
    cases hrun'
  · have hrun' := (Prog.bind_of_ok hopen).symm.trans hrun
    obtain rfl := (Prod.mk.inj hrun').2
    exact present_of_open (act_ok hopen)

section

variable {v : Path} {L : Layer}

theorem hideLower_inWritelayer (h : InWritelayer M v) : hideLower M v = createWhiteout M v := by
  unfold hideLower
  cases hL : M.keptLayerFor v with
  | none => rfl
  | some L => exact if_pos (h L hL)

theorem markerPath_inWritelayer (h : InWritelayer M v) : markerPath M v = M.whiteoutPath v := by
  unfold markerPath
  cases hL : M.keptLayerFor v with
  | none => rfl
  | some L => exact if_pos (h L hL)

theorem markerPath_inFolder (hL : M.keptLayerFor v = some L) (hroot : sourceRel L v ≠ []) :
    markerPath M v = keptMarker L (sourceRel L v) := by
  unfold markerPath
  rw [hL]
  exact if_neg hroot

/-- **In a kept folder hiding leaves the marker.** -/
theorem hideLower_inFolder {w w' : World} (hL : M.keptLayerFor v = some L)
    (hroot : sourceRel L v ≠ []) (hrun : hideLower M v w = (.ok (), w')) :
    ∃ w₁, touchMarker (markerPath M v) w = (.ok (), w₁) ∧ w'.state.disk = w₁.state.disk := by
  rw [markerPath_inFolder hL hroot]
  unfold hideLower at hrun
  rw [hL] at hrun
  dsimp only at hrun
  rw [if_neg hroot] at hrun
  rcases htouch : touchMarker (keptMarker L (sourceRel L v)) w with ⟨e | u, w₁⟩
  · rw [Prog.bind_of_error htouch] at hrun
    cases hrun
  · rw [Prog.bind_of_ok htouch] at hrun
    obtain rfl := (Prod.mk.inj hrun).2
    exact ⟨w₁, rfl, rfl⟩

end

/-! ### What is hidden -/

variable (M) in
/-- The state without the masks for `v` itself. -/
def unmasked (s : VfsState) (v : Path) : VfsState :=
  { s with
    whiteoutSet := s.whiteoutSet.erase v
    kept := fun i =>
      match M.keptLayerFor v with
      | some L =>
          if i = L.priority then
            { s.kept i with deleted := (s.kept i).deleted.erase (sourceRel L v) }
          else s.kept i
      | none => s.kept i }

variable (M) in
/-- **What is hidden between the two states, a lower layer provides**: `v` was visible, it no longer
is, and it would be if it were not for the masks of its own. -/
structure HidesLower (s s' : VfsState) (v : Path) : Prop where
  before : (lookup M s v).isNone = false
  after : (lookup M s' v).isNone = true
  lower : (lookup M (unmasked M s' v) v).isNone = false

/-- What a layer says depends on the disk and on its own masks. -/
theorem resolveLayer_masks {s s' : VfsState} {L : Layer} {v : Path} (hdisk : s'.disk = s.disk)
    (hkept : layerCovers L v = true → layerMasked L v = false →
      keptMasked s' L v = keptMasked s L v) : Steady s s' (resolveLayer M L v) := by
  have hlook : ∀ {α : Type} (f : Disk → Except Errno α), Steady s s' (Looks.look f) :=
    fun f => Steady.look (congrArg f hdisk)
  unfold resolveLayer
  refine Steady.ite (fun _ => Steady.pure _) fun hcov => ?_
  obtain ⟨hcovers, hmasked⟩ : layerCovers L v = true ∧ layerMasked L v = false := by simpa using hcov
  cases L.type with
  | dir =>
      refine Steady.bind (hlook _) fun r => ?_
      cases r with
      | error e =>
          exact Steady.bind (Steady.see (hkept hcovers hmasked)) fun masked =>
            Steady.ite (fun _ => Steady.pure _) fun _ => Steady.pure _
      | ok st =>
          refine Steady.ite (fun _ => Steady.bind (hlook _) fun r => ?_) fun _ => Steady.pure _
          cases r with
          | error e => exact Steady.pure _
          | ok st' =>
              refine Steady.bind (hlook _) fun r => ?_
              rcases r with e | ⟨⟨⟩ | ⟨⟩⟩ <;> exact Steady.pure _
  | file =>
      refine Steady.bind (hlook _) fun r => ?_
      cases r with
      | error e => exact Steady.pure _
      | ok st =>
          refine Steady.ite (fun _ => Steady.bind (hlook _) fun r => ?_) fun _ => Steady.pure _
          cases r <;> exact Steady.pure _
  | zip Z =>
      dsimp only
      cases Z.entry (sourceRel L v) with
      | none => exact Steady.ite (fun _ => Steady.pure _) fun _ => Steady.pure _
      | some e =>
          refine Steady.ite (fun _ => Steady.bind (resolveZipSymlink_steady Z e) fun r => ?_)
            fun _ => Steady.pure _
          cases r with
          | none => exact Steady.ite (fun _ => Steady.pure _) fun _ => Steady.pure _
          | some t => exact Steady.pure _

theorem resolveLayers_masks {s s' : VfsState} {v : Path} (hdisk : s'.disk = s.disk) :
    ∀ layers : List Layer, (∀ L ∈ layers, layerCovers L v = true → layerMasked L v = false →
      keptMasked s' L v = keptMasked s L v) → Steady s s' (resolveLayers M v layers) := by
  intro layers
  induction layers with
  | nil => exact fun _ => Steady.pure _
  | cons L rest ih =>
      intro hkept
      refine Steady.bind (resolveLayer_masks hdisk (hkept L (by simp))) fun r => ?_
      cases r with
      | none => exact ih fun L' hL' => hkept L' (by simp [hL'])
      | some rr => exact Steady.pure _

theorem lookup_whiteouted {s : VfsState} {v : Path} (hwl : M.writelayer ≠ none)
    (hw : isWhiteouted M s v = true) : (lookup M s v).isNone = true := by
  have hrun : Shows s (fun rr => rr.isNone = true) (resolve M v) := by
    unfold resolve
    rw [if_neg hwl]
    refine Shows.bind fun gone hgone => Shows.ite (fun _ => Shows.pure rfl) fun h => ?_
    rw [hgone] at h
    exact absurd hw h
  exact hrun

/-- What is not whiteouted is what the writelayer has, or else what the layers have, if no directory
above masks them. -/
theorem lookup_unhid {s : VfsState} {v : Path} (hwl : M.writelayer ≠ none)
    (hw : isWhiteouted M s v = false) :
    lookup M s v =
      match s.disk.lstat (M.wlPath v) with
      | .ok _ => .writeLayer (M.wlPath v)
      | .error _ => if masked M s v then .none else lowerLookup M s v := by
  have hrun : Shows s (fun rr => rr = match s.disk.lstat (M.wlPath v) with
      | .ok _ => .writeLayer (M.wlPath v)
      | .error _ => if masked M s v then .none else lowerLookup M s v) (resolve M v) := by
    unfold resolve
    rw [if_neg hwl]
    refine Shows.bind fun gone hgone => Shows.ite (fun h => ?_) fun _ => Shows.bind fun r hr => ?_
    · rw [hgone] at h
      exact absurd h (by simp [hw])
    · change r = s.disk.lstat (M.wlPath v) at hr
      rw [← hr]
      cases r with
      | ok st => exact Shows.pure rfl
      | error e =>
          refine Shows.bind fun under hunder => ?_
          change under = masked M s v at hunder
          rw [← hunder]
          cases under with
          | true => exact Shows.pure rfl
          | false => exact (if_neg Bool.false_ne_true).symm
  exact hrun

section

variable {s : VfsState} {v : Path}

theorem isWhiteouted_unmasked : isWhiteouted M (unmasked M s v) v = false :=
  isWhiteouted_eq_false.2 (Or.inr (Or.inr (Finset.notMem_erase v _)))

/-- The masks of a path itself are no masks of a directory above it. -/
theorem masked_unmasked : masked M (unmasked M s v) v = masked M s v := by
  have hany : ((addAncestors v).any fun q => decide (q ∈ s.whiteoutSet.erase v))
      = (addAncestors v).any fun q => decide (q ∈ s.whiteoutSet) := by
    rw [Bool.eq_iff_iff, List.any_eq_true, List.any_eq_true]
    refine exists_congr fun q => and_congr_right fun hq => ?_
    have hne : q ≠ v := (of_decide_eq_true (List.mem_filter.1 hq).2).2
    simp [hne]
  unfold masked isUnderWhiteout
  exact congrArg (isUnderOpaque M s v || M.writelayer.isSome && ·) hany

/-- Where the path has no mask of its own, there is none to take away; and what a kept folder that is
itself hidden there says does not count. -/
theorem lookup_unmasked (hwl : M.writelayer ≠ none) (hw : isWhiteouted M s v = false)
    (hk : ∀ L, M.keptLayerFor v = some L → layerMasked L v = false → sourceRel L v ≠ [] →
      sourceRel L v ∉ (s.kept L.priority).deleted) :
    lookup M (unmasked M s v) v = lookup M s v := by
  have hlower : Steady s (unmasked M s v) (resolveLayers M v M.layers.reverse) := by
    have hdisk : (unmasked M s v).disk = s.disk := rfl
    refine resolveLayers_masks hdisk _ fun K hK _ hmask => ?_
    -- the root of a kept folder is hidden by no mask of the folder
    by_cases hroot : sourceRel K v = []
    · simp [keptMasked, hroot]
    have hsame : (unmasked M s v).kept K.priority = s.kept K.priority := by
      unfold unmasked
      dsimp only
      cases hL : M.keptLayerFor v with
      | none => rfl
      | some L =>
          dsimp only
          by_cases hprio : K.priority = L.priority
          · obtain rfl := M.eq_of_priority (List.mem_reverse.1 hK) (keptLayerFor_covers hL).1 hprio
            rw [if_pos rfl, Finset.erase_eq_of_notMem (hk K hL hmask hroot)]
          · exact if_neg hprio
    unfold keptMasked
    rw [hsame]
  rw [lookup_unhid hwl isWhiteouted_unmasked, lookup_unhid hwl hw, masked_unmasked]
  have hlower' : lowerLookup M (unmasked M s v) v = lowerLookup M s v := hlower
  rw [hlower']
  rfl

theorem Unhid.lookup_unmasked (hwl : M.writelayer ≠ none) (h : Unhid M True v s) :
    lookup M (unmasked M s v) v = lookup M s v :=
  VidyaGodFS.lookup_unmasked hwl h.whiteout fun L hL _ => h.kept trivial L hL

end

/-- **A deletion that comes to no hiding hides nothing below.** -/
theorem HidesLower.not_unhid {s s' : VfsState} {v : Path} (h : HidesLower M s s' v)
    (hwl : M.writelayer ≠ none) : ¬ Unhid M True v s' := by
  intro hun
  have hlower := h.lower
  rw [hun.lookup_unmasked hwl, h.after] at hlower
  cases hlower

/-! ### The next mount -/

/-- From `b ++ start` on the walk for markers finds the way to the marker of `v`: its names are no
markers, and what is there of it are directories that can be listed. -/
structure WalkFinds (t : Tree) (b start v : Path) : Prop where
  ne : v ≠ []
  name : mark (baseName v) ≠ opaqueName
  below : ∃ r, v.dropLast = start ++ r ∧ ∀ n ∈ r, isMarker n = false
  way : t.OpenWay (b ++ v.dropLast)
  listed : ∀ q m, b ++ start <+: q → q <+: b ++ v.dropLast → t.node q = some (.dir m) →
    Tree.canRead m = true

section

variable {t₀ : Tree} {d : Disk} {b start v : Path}

theorem find_of_way (ho : d.tree.OpenWay v) (follow : Bool) {m : ℕ}
    (hm : d.tree.node v = some (.dir m)) : d.find follow (some v) = .ok v :=
  ho.straight_self.locate_of_node hm fun target h => absurd h (ho.not_link (List.prefix_refl v) target)

/-- The walk comes down a way that is there. -/
theorem enters_of_way {p : Path} (hopen : ∀ q, q <+: p → d.tree.IsOpenDir q) :
    ∀ (r rel : Path), b ++ rel ++ r <+: p → (∀ n ∈ r, isMarker n = false) →
      (∀ q m, b ++ rel <+: q → q <+: p → d.tree.node q = some (.dir m) → Tree.canRead m = true) →
        Enters d (some b) rel r := by
  have ho : d.tree.OpenWay p := fun q hq => Or.inr (hopen q hq)
  intro r
  induction r with
  | nil => exact fun _ _ _ _ => trivial
  | cons n r ih =>
      intro rel hle hnames hread
      have happ : b ++ rel ++ n :: r = b ++ (rel ++ [n]) ++ r := by simp
      have hhere : b ++ rel <+: p := (List.prefix_append _ _).trans hle
      have hnext : b ++ (rel ++ [n]) <+: p := (List.prefix_append _ r).trans (happ ▸ hle)
      obtain ⟨m, hm, -⟩ := hopen _ hhere
      obtain ⟨m', hm', -⟩ := hopen _ hnext
      refine ⟨?_, hnames n (by simp), ?_, ih (rel ++ [n]) (happ ▸ hle)
        (fun n' hn' => hnames n' (by simp [hn'])) fun q m hq => hread q m ((?_ : _ <+: _).trans hq)⟩
      · change n ∈ d.readDir (some (b ++ rel))
        rw [Disk.readDir, find_of_way (ho.of_le hhere) true hm]
        dsimp only
        rw [Tree.dirMode, hm, if_pos (hread _ m (List.prefix_refl _) hhere hm), Tree.mem_children,
          List.append_assoc, hm']
        exact Option.some_ne_none _
      · change dirAt d false (some (b ++ (rel ++ [n]))) = true
        rw [dirAt, Disk.statAt_of_find (find_of_way (ho.of_le hnext) false hm') hm']
        rfl
      · exact (List.prefix_append_right_inj b).2 (List.prefix_append _ _)

/-- **Once the way is there, a later mount enters it.** -/
theorem WalkFinds.entered (h : WalkFinds t₀ b start v) (hd : WayThere (b ++ v.dropLast) t₀ d) :
    EnteredAt d (some b) start v := by
  obtain ⟨r, hr, hnames⟩ := h.below
  have ho := hd.1.openWay h.way
  have hopen : ∀ q, q <+: b ++ v.dropLast → d.tree.IsOpenDir q := fun q hq =>
    (ho q hq).resolve_left (hd.2.of_le hq).ne_none
  have hread : ∀ q m, b ++ start <+: q → q <+: b ++ v.dropLast → d.tree.node q = some (.dir m) →
      Tree.canRead m = true := by
    intro q m hle hq hm
    rcases hd.1.was hq hm with hwas | hmade
    · exact h.listed q m hle hq hwas
    · obtain rfl := Node.dir.inj hmade
      exact full_777.1
  obtain ⟨m, hm⟩ := hd.2
  refine ⟨h.ne, h.name, ⟨b ++ v.dropLast, find_of_way ho true hm, ?_⟩, r, hr,
    enters_of_way hopen r start (by rw [hr, List.append_assoc]) hnames hread⟩
  rw [Tree.dirMode, hm]
  exact hread _ m (by rw [hr, ← List.append_assoc]; exact List.prefix_append _ _)
    (List.prefix_refl _) hm

theorem dirAt_of_wayThere {p : Path} (ho : t₀.OpenWay p) (hd : WayThere p t₀ d) :
    dirAt d true (some p) = true := by
  obtain ⟨m, hm⟩ := hd.2
  rw [dirAt, Disk.statAt_of_find (find_of_way (hd.1.openWay ho) true hm) hm]
  rfl

end

section

variable {v : Path}

/-- What a later mount reads in the writelayer, it does not resolve. -/
theorem lookup_mounted_whiteout {d : Disk} (hwl : M.writelayer ≠ none)
    (hdir : dirAt d true M.writelayer = true) (henters : EnteredAt d M.writelayer [] v)
    (hthere : Present d (M.whiteoutPath v)) :
    (lookup M (mounted M d allowed allowed).state v).isNone = true := by
  obtain ⟨st, hst⟩ := hthere
  have hmem : v ∈ (mounted M d allowed allowed).state.whiteoutSet := by
    rw [mounted_eq hwl hdir]
    exact mem_seedMasks henters hst
  have hwhite : isWhiteouted M (mounted M d allowed allowed).state v = true := by
    rw [← Bool.not_eq_false, isWhiteouted_eq_false]
    exact fun h => h.elim hwl fun h => h.elim henters.1 fun h => h hmem
  exact lookup_whiteouted hwl hwhite

/-- What a kept folder says of a path it covers. -/
theorem resolveLayer_of_kept {K : Layer} (s : VfsState) (hkept : K.isKept = true)
    (hcov : layerCovers K v = true) (hmask : layerMasked K v = false) :
    (resolveLayer M K v : View (Option ResolveResult)) s =
      match s.disk.lstat (layerHost K v) with
      | .ok _ => some (.dirLayer (layerHost K v) K)
      | .error _ => if keptMasked s K v then some .none else none := by
  obtain ⟨hdir, hrw⟩ : K.isDirLayer = true ∧ K.rw = true := by simpa [Layer.isKept] using hkept
  have htype : K.type = .dir := by
    unfold Layer.isDirLayer at hdir
    cases hK : K.type <;> simp_all
  have hrun : Shows s (fun r => r = match s.disk.lstat (layerHost K v) with
      | .ok _ => some (.dirLayer (layerHost K v) K)
      | .error _ => if keptMasked s K v then some .none else none) (resolveLayer M K v) := by
    unfold resolveLayer
    refine Shows.ite (fun h => absurd h (by simp [hcov, hmask])) fun _ => ?_
    rw [htype]
    refine Shows.bind fun r hr => ?_
    change r = s.disk.lstat (layerHost K v) at hr
    rw [← hr]
    cases r with
    | ok st => exact Shows.ite (fun h => by simp [hrw] at h) fun _ => Shows.pure rfl
    | error e =>
        refine Shows.bind fun masked hmasked => ?_
        change masked = keptMasked s K v at hmasked
        rw [hrw, Bool.true_and, hmasked]
        cases keptMasked s K v <;> exact Shows.pure rfl
  exact hrun

/-- Down to the kept folder that covers the path the layers say what they said; and a folder that has
nothing there and a marker for it says that there is nothing. -/
theorem resolveLayers_marked {s s' : VfsState} {L : Layer} (hdisk : s'.disk = s.disk)
    (hmask : layerMasked L v = false) (hmarked : keptMasked s' L v = true) :
    ∀ layers : List Layer,
      (layers.find? fun K => K.isKept && layerCovers K v) = some L →
      ((resolveLayers M v layers : View ResolveResult) s).isNone = true →
      ((resolveLayers M v layers : View ResolveResult) s').isNone = true := by
  intro layers
  induction layers with
  | nil => exact fun hfind => by cases hfind
  | cons K rest ih =>
      intro hfind hnone
      cases hK : K.isKept && layerCovers K v with
      | true =>
          rw [List.find?_cons_of_pos (by simpa using hK)] at hfind
          obtain rfl := Option.some_inj.1 hfind
          obtain ⟨hkept, hcov⟩ := Bool.and_eq_true_iff.1 hK
          rw [resolveLayers_cons, resolveLayer_of_kept s hkept hcov hmask] at hnone
          rw [resolveLayers_cons, resolveLayer_of_kept s' hkept hcov hmask, hdisk, hmarked]
          cases hst : s.disk.lstat (layerHost K v) with
          | ok st =>
              rw [hst] at hnone
              cases hnone
          | error e => rfl
      | false =>
          rw [List.find?_cons_of_neg (by simpa using hK)] at hfind
          have hsame : Steady s s' (resolveLayer M K v) := by
            refine resolveLayer_masks hdisk fun hcov _ => ?_
            rw [hcov, Bool.and_true] at hK
            simp [keptMasked, hK]
          rw [resolveLayers_cons] at hnone ⊢
          rw [show (resolveLayer M K v : View (Option ResolveResult)) s' = _ from hsame]
          cases hrr : (resolveLayer M K v : View (Option ResolveResult)) s with
          | some rr =>
              rw [hrr] at hnone
              exact hnone
          | none =>
              rw [hrr] at hnone
              exact ih hfind hnone

/-- **What was hidden in a kept folder, and is marked there, a later mount does not resolve.** -/
theorem lookup_mounted_kept {s s' : VfsState} {L : Layer} (hwl : M.writelayer ≠ none)
    (hdir : dirAt s'.disk true M.writelayer = true) (hL : M.keptLayerFor v = some L)
    (hroot : sourceRel L v ≠ []) (hw : isWhiteouted M s' v = false)
    (henters : EnteredAt s'.disk L.source L.subpath (sourceRel L v))
    (hthere : Present s'.disk (keptMarker L (sourceRel L v))) (h : HidesLower M s s' v) :
    (lookup M (mounted M s'.disk allowed allowed).state v).isNone = true := by
  obtain ⟨hmem, hkept, -⟩ := keptLayerFor_covers hL
  -- the folder is asked for the path: otherwise its masks would hide nothing
  have hmask : layerMasked L v = false := by
    by_contra hmask
    have hlower := h.lower
    rw [lookup_unmasked hwl hw fun L' hL' hno _ => ?_, h.after] at hlower
    · cases hlower
    · rw [hL] at hL'
      obtain rfl := Option.some_inj.1 hL'
      exact absurd hno hmask
  -- and so is every layer: neither the writelayer nor a directory above decides
  have hdown : ∃ e, s'.disk.lstat (M.wlPath v) = .error e ∧
      (lowerLookup M s' v).isNone = true := by
    have hafter := h.after
    have hlower := h.lower
    rw [lookup_unhid hwl hw] at hafter
    rw [lookup_unhid hwl isWhiteouted_unmasked, masked_unmasked] at hlower
    cases hst : s'.disk.lstat (M.wlPath v) with
    | ok st =>
        rw [hst] at hafter
        cases hafter
    | error e =>
        rw [hst] at hafter
        have hst' : (unmasked M s' v).disk.lstat (M.wlPath v) = .error e := hst
        rw [hst'] at hlower
        cases hm : masked M s' v with
        | true =>
            rw [hm] at hlower
            cases hlower
        | false =>
            rw [hm] at hafter
            exact ⟨e, rfl, hafter⟩
  obtain ⟨e, hst, hnone⟩ := hdown
  obtain ⟨st, hmarker⟩ := hthere
  have hdisk : (mounted M s'.disk allowed allowed).state.disk = s'.disk := by
    rw [mounted_eq hwl hdir]
    rfl
  have hmarked : keptMasked (mounted M s'.disk allowed allowed).state L v = true := by
    unfold keptMarker at hmarker
    rw [if_neg hroot] at hmarker
    have hdel := mem_seedMasks henters hmarker
    have hseed : (mounted M s'.disk allowed allowed).state.kept L.priority
            = seedMasks s'.disk L.source L.subpath :=
      mounted_kept hwl hdir hmem hkept
    simp [keptMasked, hkept, hroot, hseed, hdel]
  have hlower := resolveLayers_marked hdisk hmask hmarked M.layers.reverse hL hnone
  cases hgone : isWhiteouted M (mounted M s'.disk allowed allowed).state v with
  | true => exact lookup_whiteouted hwl hgone
  | false =>
      rw [lookup_unhid hwl hgone, hdisk, hst]
      dsimp only
      by_cases hm : masked M (mounted M s'.disk allowed allowed).state v = true
      · rw [if_pos hm]
        rfl
      · rw [if_neg hm]
        exact hlower

end

end VidyaGodFS
