/-
**Moving a directory above a kept folder.**

A kept folder is not part of the directory that its place lies in: moving that directory leaves the
folder where it is.  Whether its files stay in sight there depends on where the old name is hidden.
A kept folder that takes the old name hides it from the layers below itself, and so not from a folder
that lies over it; the writelayer hides it from all.

Main definitions:

* `KeepsSight` — moves of a directory above the folder that hide it below the folder only, with
  the places of the mount apart and no link where the move is made.

Main results:

* `deepCopyUp_inSight` — what is copied up for the move leaves the folder's files in sight;
* `vfsRename_inSight` — **such a move leaves the folder's files in sight**, whether it succeeds or not.
-/

import VidyaGodFS.KeptSight

set_option relaxedAutoImplicit false
set_option autoImplicit false

namespace VidyaGodFS

open Posix

variable {M : Mount} {L K T : Layer} {s₀ s : VfsState} {vf vt u v : Path}

/-! ### The place that takes what is written -/

theorem copyDest_eq (u : Path) : copyDest M u = M.hostAt (M.keptLayerFor u) u := by
  unfold copyDest Mount.passthroughHost
  cases hT : M.keptLayerFor u with
  | none => rfl
  | some T =>
      obtain ⟨hkept, -⟩ : T.isKept = true ∧ layerCovers T u = true := by
        simpa using List.find?_some hT
      obtain ⟨hdir, -⟩ : T.isDirLayer = true ∧ T.rw = true := by simpa [Layer.isKept] using hkept
      exact (hostAt_dir (isDirLayer_iff.1 hdir)).symm

/-- What is known of a kept folder that takes a name. -/
theorem keptLayerFor_spec (h : M.keptLayerFor u = some T) :
    M.IsPlace (some T) ∧ T.type = .dir ∧ T.rw = true ∧ layerCovers T u = true := by
  obtain ⟨hkept, hcov⟩ : T.isKept = true ∧ layerCovers T u = true := by simpa using List.find?_some h
  obtain ⟨hdir, hrw⟩ : T.isDirLayer = true ∧ T.rw = true := by simpa [Layer.isKept] using hkept
  exact ⟨⟨List.mem_reverse.1 (List.mem_of_find?_eq_some h), Or.inl hdir⟩, isDirLayer_iff.1 hdir, hrw,
    hcov⟩

theorem keptLayerFor_isPlace (h : M.writelayer ≠ none ∨ M.keptLayerFor u ≠ none) :
    M.IsPlace (M.keptLayerFor u) := by
  cases hT : M.keptLayerFor u with
  | none => exact h.resolve_right (by simp [hT])
  | some T => exact (keptLayerFor_spec hT).1

theorem keptLayerFor_has (u : Path) : Place.Has (M.keptLayerFor u) u := by
  cases hT : M.keptLayerFor u with
  | none => trivial
  | some T => exact (keptLayerFor_spec hT).2.2.2

/-- The kept folder that takes a name is the highest that covers it. -/
theorem keptLayerFor_highest (h : M.keptLayerFor u = some K) (hT : T ∈ M.layers)
    (hkept : T.isKept = true) (hcov : layerCovers T u = true) : T.priority ≤ K.priority := by
  obtain ⟨-, above, below, heq, hnone⟩ := List.find?_eq_some_iff_append.1 h
  have hsorted := layers_sorted M
  rw [heq] at hsorted
  have hmem : T ∈ above ++ K :: below := heq ▸ List.mem_reverse.2 hT
  rcases List.mem_append.1 hmem with habove | hrest
  · have hno := hnone T habove
    rw [hkept, hcov] at hno
    cases hno
  · rcases List.mem_cons.1 hrest with rfl | hbelow
    · exact le_refl _
    · exact ((List.pairwise_cons.1 (List.pairwise_append.1 hsorted).2.1).1 T hbelow).le

/-- The host path of a name further down. -/
theorem hostAt_append {o : Place} (hdir : ∀ P, o = some P → P.type = .dir) (hu : o.Has u) {q : Path}
    (hq : M.hostAt o u = some q) (r : Path) : M.hostAt o (u ++ r) = some (q ++ r) := by
  cases o with
  | none => exact join_eq_append hq r
  | some P =>
      have ht := hdir P rfl
      rw [hostAt_dir ht] at hq ⊢
      have hcov : layerCovers P u = true := hu
      rw [layerCovers, if_neg (by simp [Layer.isFileLayer, ht])] at hcov
      obtain ⟨w, rfl⟩ := List.isPrefixOf_iff_prefix.1 hcov
      have hrel : sourceRel P (P.target ++ w ++ r) = sourceRel P (P.target ++ w) ++ r := by
        unfold sourceRel relUnder
        rw [List.append_assoc, List.drop_left, List.drop_left, List.append_assoc]
      rw [layerHost, hrel]
      exact join_eq_append hq r

theorem has_append {o : Place} (hdir : ∀ P, o = some P → P.type = .dir) (hu : o.Has u) (r : Path) :
    o.Has (u ++ r) := by
  cases o with
  | none => trivial
  | some P =>
      have hcov : layerCovers P u = true := hu
      change layerCovers P (u ++ r) = true
      rw [layerCovers, if_neg (by simp [Layer.isFileLayer, hdir P rfl])] at hcov ⊢
      exact List.isPrefixOf_iff_prefix.2 ((List.isPrefixOf_iff_prefix.1 hcov).trans (List.prefix_append u r))

/-! ### Moves that hide below the folder only -/

/-- The move of `vf` to `vt` hides the old name below the kept folder `L` only, with the places of
the mount apart and no link where it is made. -/
structure KeepsSight (M : Mount) (L : Layer) (s₀ : VfsState) (vf vt : Path) : Prop where
  apart : M.Apart
  /-- A kept folder below `L` takes the old name, which is not its own place. -/
  below : ∃ K, M.keptLayerFor vf = some K ∧ vf ≠ K.target ∧ K.priority < L.priority
  /-- The new name is neither above the place of `L` nor in it. -/
  above : ¬ vt <+: L.target
  inside : ¬ L.target <+: vt
  named : markerName L.target = false
  /-- Something takes the new name, and it is not the place of the kept folder that does. -/
  taken : M.writelayer ≠ none ∨ M.keptLayerFor vt ≠ none
  entry : ∀ T, M.keptLayerFor vt = some T → vt ≠ T.target
  /-- No link lies in the directory of either name, or on the way to it. -/
  links : ∀ (o : Place) (u : Path), M.IsPlace o → o.Has u → vf.dropLast <+: u ∨ vt.dropLast <+: u →
    ∀ q, M.hostAt o u = some q → s₀.disk.tree.Linkless q
  archives : ∀ P ∈ M.layers, ∀ Z, P.type = .zip Z → ∀ u, vf <+: u → layerCovers P u = true →
    ∀ rel e, Z.entry rel = some e → e.symlink = false

section Moves

variable (h : KeepsSight M L s₀ vf vt) (hle : vf <+: L.target) (hne : vf ≠ L.target)

/-- What the folder shows lies below its place. -/
theorem ShowsFile.target_le (hv : ShowsFile M s₀ L v) : L.target <+: v := by
  obtain ⟨-, -, hown, -⟩ := (lookup_found_iff L).1 hv.found
  have hshow : Shown L v := by
    by_contra hc
    rw [answer_of_not_shown hc] at hown
    cases hown
  have ht := isDirLayer_iff.1 (answer_dirLayer hown).2.1
  have hcov := hshow.1
  rw [layerCovers, if_neg (by simp [Layer.isFileLayer, ht])] at hcov
  exact List.isPrefixOf_iff_prefix.1 hcov

include h hle in
theorem KeepsSight.reliedOn_linkless : ∀ q, ReliedOn M L s₀ q → s₀.disk.tree.Linkless q := by
  rintro q ⟨o, v, ho, -, hhas, hv, hq⟩
  exact h.links o v ho hhas
    (Or.inl ((List.dropLast_prefix vf).trans (hle.trans hv.target_le))) q hq

include h in
/-- The host path of a name on which no file of the folder depends. -/
theorem KeepsSight.wayAside {o : Place} (ho : M.IsPlace o) (hu : o.Has u)
    (hdir : vf.dropLast <+: u ∨ vt.dropLast <+: u)
    (hout : ∀ v, ShowsFile M s₀ L v → v <+: u → o.Has v → ¬ Over L o) {p : HostPath}
    (hp : M.hostAt o u = p) : WayAside M L s₀ p := by
  rintro q ⟨r, rfl, hqr⟩
  refine ⟨(h.links o u ho hu hdir r hp).of_le hqr, ?_⟩
  rintro ⟨o', v, ho', hover, hhas, hv, hq⟩
  obtain ⟨rfl, hvu⟩ := h.apart.le ho' ho hhas hu hq hp hqr
  exact hout v hv hvu hhas hover

/-! ### What is copied up for it -/

theorem lookup_isFound (M : Mount) (s : VfsState) (v : Path) : Found M v (lookup M s v) :=
  resolve_found v (calm s) _ _ (resolve_run M (calm_calm s).2 v)

include h in
theorem KeepsSight.not_zipLink (hu : vf <+: u) {rr : ResolveResult} (hrr : Found M u rr) {P : Layer}
    {Z : ZipIndex} {e : ZipEntry} (heq : rr = .zipEntry P Z (some e)) : e.symlink = false := by
  subst heq
  obtain ⟨⟨hP, hcov, ht⟩, hentry⟩ := hrr
  by_contra hlink
  obtain ⟨rel, hrel⟩ := hentry (by simpa using hlink)
  exact hlink (h.archives P hP Z ht u hu hcov rel e hrel)

include h in
theorem KeepsSight.not_link (hu : vf <+: u) {rr : ResolveResult} (hrr : Found M u rr)
    (hs : InSight M L s₀ s) : (copiesAsLink M rr : View Bool) s = false := by
  have hhost : ∀ {host : HostPath} {P : Layer}, M.IsPlace (some P) → layerCovers P u = true →
      M.hostAt (some P) u = host → (s.disk.lstat host).toOption.any (·.isSymlink) = false := by
    intro host P hP hcov hhost
    obtain ⟨q, hq⟩ := h.apart.host hP u
    obtain rfl := hhost.symm.trans hq
    have hlink := hs.tree.linkless (h.links (some P) u hP hcov
      (Or.inl ((List.dropLast_prefix vf).trans hu)) q hq)
    rcases Disk.lstat_linkless hlink with ⟨nd, -, hst, hfile⟩ | ⟨-, e, he⟩
    · rw [hst]
      exact hfile
    · rw [he]
      rfl
  unfold copiesAsLink
  cases rr with
  | dirLayer host P =>
      obtain ⟨⟨hP, hcov, hdir, rfl⟩, -⟩ := hrr
      dsimp only
      cases M.flattenSymlinks with
      | true => rfl
      | false => exact hhost ⟨hP, Or.inl hdir⟩ hcov (hostAt_dir (isDirLayer_iff.1 hdir))
  | fileLayer host P =>
      obtain ⟨⟨hP, hcov, hfile, rfl⟩, -⟩ := hrr
      dsimp only
      cases M.flattenSymlinks with
      | true => rfl
      | false => exact hhost ⟨hP, Or.inr hfile⟩ hcov (if_pos hfile)
  | _ => rfl

variable (hrw : L.rw = true)
include h hle hrw

/-- One copy for the move: what the folder shows is not copied, and nothing goes below it. -/
theorem KeepsSight.copyUp (hu : vf <+: u) (hfree : ∀ v, ShowsFile M s₀ L v → v <+: u → v = u)
    {rr : ResolveResult} (hrr : Found M u rr)
    (hshown : ShowsFile M s₀ L u → rr = .dirLayer (layerHost L u) L) :
    Keeps (InSight M L s₀) (copyUp M u rr) := by
  refine copyUp_inSight (h.reliedOn_linkless hle) (fun hwl hro => ?_)
    (fun P Z e => h.not_zipLink hu hrr) fun s => h.not_link hu hrr
  refine h.wayAside (keptLayerFor_isPlace (Or.inl hwl)) (keptLayerFor_has u)
    (Or.inl ((List.dropLast_prefix vf).trans hu)) (fun v hv hvu _ _ => ?_) (copyDest_eq u).symm
  obtain rfl := hfree v hv hvu
  rw [hshown hv, ResolveResult.isWritable, ResolveResult.rwPassthrough, hrw] at hro
  cases hro

/-- **Copying up a directory leaves the folder's files in sight**: the copying comes to a file of the
folder only to find it writable, and goes no deeper there. -/
theorem deepCopyUp_inSight :
    ∀ (depth : ℕ) (u : Path), vf <+: u → (∀ v, ShowsFile M s₀ L v → v <+: u → v = u) →
      Keeps (InSight M L s₀) (deepCopyUp M depth u) := by
  intro depth
  induction depth with
  | zero => exact fun u _ _ => Keeps.fail _
  | succ depth ih =>
      intro u hu hfree
      have hseen : ∀ s, InSight M L s₀ s → ShowsFile M s₀ L u → ShowsFile M s L u := fun s hs hv =>
        hs.showsFile h.apart (h.reliedOn_linkless hle) hv
      refine Calmly.bind (Q := fun rr s => InSight M L s₀ s ∧ Found M u rr ∧
          (ShowsFile M s₀ L u → rr = .dirLayer (layerHost L u) L))
        (Calmly.look (resolve_agrees M u) fun s hs =>
          ⟨hs, lookup_isFound M s u, fun hv => (hseen s hs hv).found⟩) fun rr => ?_
      refine Calmly.assuming fun s hs => ?_
      obtain ⟨hs, hrr, hshown⟩ := hs
      refine Calmly.conseq (P := InSight M L s₀) ?_ (by rintro _ rfl; exact hs) (fun _ _ h => h)
        fun _ _ h => h
      refine Keeps.ite (fun _ => Keeps.fail _) fun _ =>
        Keeps.bind (h.copyUp hle hrw hu hfree hrr hshown) fun _ => ?_
      refine Calmly.bind (Q := fun b s => InSight M L s₀ s ∧ (ShowsFile M s₀ L u → b = false))
        (Calmly.look (hitIsDir_agrees false rr) fun s hs => ⟨hs, fun hv => ?_⟩) fun b => ?_
      · have hfile := (hseen s hs hv).file
        rw [movesAsDir, (hseen s hs hv).found, ← hshown hv] at hfile
        exact hfile
      refine Calmly.assuming fun s hs => ?_
      obtain ⟨hs, hfile⟩ := hs
      refine Calmly.conseq (P := InSight M L s₀) ?_ (by rintro _ rfl; exact hs) (fun _ _ h => h)
        fun _ _ h => h
      refine Keeps.ite (fun hb => ?_) fun _ => Keeps.pure _
      refine Keeps.bind (Keeps.look (collectChildren_agrees M u)) fun children =>
        Keeps.forM fun c _ => ih (u ++ [c]) (hu.trans (List.prefix_append u [c])) fun v hv hvu => ?_
      refine (List.prefix_concat_iff.1 hvu).resolve_right fun hc => ?_
      obtain rfl := hfree v hv hc
      rw [hfile hv] at hb
      cases hb

include hne in
theorem bringUp_inSight {rr : ResolveResult} (hrr : Found M vf rr) (isDir : Bool) :
    Keeps (InSight M L s₀) (bringUp M vf rr isDir) := by
  have hnone : ∀ v, ShowsFile M s₀ L v → ¬ v <+: vf := fun v hv hvf =>
    hne (List.IsPrefix.eq_of_length_le hle (hv.target_le.trans hvf).length_le)
  exact Keeps.ite (fun _ => deepCopyUp_inSight h hle hrw _ vf (List.prefix_refl vf)
      fun v hv hvf => absurd hvf (hnone v hv)) fun _ =>
    Keeps.ite (fun _ => Keeps.pure _) fun _ => h.copyUp hle hrw (List.prefix_refl vf)
      (fun v hv hvf => absurd hvf (hnone v hv)) hrr fun hv => absurd (List.prefix_refl vf) (hnone vf hv)

end Moves

/-! ### The masks of the move -/

theorem le_of_mem_addAncestors {x v : Path} (h : x ∈ addAncestors v) : x <+: v := by
  rw [addAncestors, List.mem_filter] at h
  exact (List.mem_inits x v).1 h.1

/-- Fewer masks of the writelayer on the way to a name. -/
theorem Unveiled.mono {s' : VfsState} (h : Unveiled M L v s) (hkept : s'.kept = s.kept)
    (hgone : ∀ x, x <+: v → x ∈ s'.whiteoutSet → x ∈ s.whiteoutSet)
    (hopq : ∀ x, x <+: v → x ∈ s'.opaqueSet → x ∈ s.opaqueSet) : Unveiled M L v s' := by
  obtain ⟨hwhite, hunder, hmasked⟩ := h
  refine ⟨?_, ?_, fun P hP hlt hshow => ?_⟩
  · rw [isWhiteouted] at hwhite ⊢
    rw [Bool.eq_false_iff] at hwhite ⊢
    simp only [ne_eq, Bool.and_eq_true, decide_eq_true_eq] at hwhite ⊢
    rintro ⟨hwl, hmem⟩
    exact hwhite ⟨hwl, hgone v (List.prefix_refl v) hmem⟩
  · rw [Bool.or_eq_false_iff] at hunder ⊢
    obtain ⟨hover, hbelow⟩ := hunder
    rw [isUnderOpaque, Bool.eq_false_iff] at hover ⊢
    rw [isUnderWhiteout, Bool.eq_false_iff] at hbelow ⊢
    simp only [ne_eq, Bool.and_eq_true, List.any_eq_true, decide_eq_true_eq] at hover hbelow ⊢
    refine ⟨?_, ?_⟩
    · rintro ⟨hwl, x, hx, hmem⟩
      refine hover ⟨hwl, x, hx, hopq x ?_ hmem⟩
      rcases List.mem_cons.1 hx with rfl | hx
      · exact List.nil_prefix
      · exact le_of_mem_addAncestors hx
    · rintro ⟨hwl, x, hx, hmem⟩
      exact hbelow ⟨hwl, x, hx, hgone x (le_of_mem_addAncestors hx) hmem⟩
  · have hm := hmasked P hP hlt hshow
    rw [keptMasked] at hm ⊢
    rw [hkept]
    exact hm

/-- The masks of a kept folder hide a path of its own. -/
def masksBy (k : KeptMasks) (rel : Path) : Bool :=
  rel ≠ [] && (rel ∈ k.deleted || (addAncestors rel).any (· ∈ k.deleted) ||
    ([] :: addAncestors rel).any (· ∈ k.opaqueDirs))

theorem keptMasked_eq (s : VfsState) (P : Layer) (v : Path) :
    keptMasked s P v = (P.isKept && masksBy (s.kept P.priority) (sourceRel P v)) := by
  unfold keptMasked masksBy
  rw [Bool.and_assoc]

theorem masksBy_mono {k k' : KeptMasks} {rel : Path} (h : masksBy k rel = false)
    (hgone : ∀ x, x <+: rel → x ∈ k'.deleted → x ∈ k.deleted)
    (hopq : ∀ x, x <+: rel → x ≠ rel → x ∈ k'.opaqueDirs → x ∈ k.opaqueDirs) :
    masksBy k' rel = false := by
  rw [masksBy, Bool.eq_false_iff] at h ⊢
  simp only [ne_eq, Bool.and_eq_true, Bool.or_eq_true, List.any_eq_true, decide_eq_true_eq] at h ⊢
  rintro ⟨hne, (hmem | ⟨x, hx, hmem⟩) | ⟨x, hx, hmem⟩⟩
  · exact h ⟨hne, Or.inl (Or.inl (hgone rel (List.prefix_refl rel) hmem))⟩
  · exact h ⟨hne, Or.inl (Or.inr ⟨x, hx, hgone x (le_of_mem_addAncestors hx) hmem⟩)⟩
  · refine h ⟨hne, Or.inr ⟨x, hx, hopq x ?_ ?_ hmem⟩⟩
    · rcases List.mem_cons.1 hx with rfl | hx
      · exact List.nil_prefix
      · exact le_of_mem_addAncestors hx
    · rintro rfl
      rcases List.mem_cons.1 hx with rfl | hx
      · exact hne rfl
      · simp [addAncestors] at hx

theorem mutateKept_inSight {i : ℕ} {f : KeptMasks → KeptMasks}
    (hf : ∀ P ∈ M.layers, P.priority = i → L.priority < P.priority → ∀ v, ShowsFile M s₀ L v →
      Shown P v → ∀ k, masksBy k (sourceRel P v) = false → masksBy (f k) (sourceRel P v) = false) :
    Keeps (InSight M L s₀) (mutateKept i f) := by
  refine InSight.mutate (fun _ => rfl) fun v s hv hun => ⟨hun.whiteout, hun.under, ?_⟩
  intro P hP hlt hshow
  have hm := hun.kept P hP hlt hshow
  rw [keptMasked_eq] at hm ⊢
  change (P.isKept && masksBy (Function.update s.kept i (f (s.kept i)) P.priority) _) = false
  by_cases hi : P.priority = i
  · rw [hi, Function.update_self, ← hi]
    cases hk : P.isKept with
    | false => rfl
    | true =>
        rw [hk, Bool.true_and] at hm
        rw [Bool.true_and]
        exact hf P hP hi hlt v hv hshow _ hm
  · rw [Function.update_of_ne hi]
    exact hm

/-! ### What comes before and after the call -/

theorem toleratingEnoent_keeps {I : VfsState → Prop} {m : Prog World Errno Unit} (h : Keeps I m) :
    Keeps I (toleratingEnoent m) := by
  refine Keeps.bind (Keeps.attempt h) fun r => ?_
  cases r with
  | ok u => exact Keeps.pure _
  | error e => exact Keeps.ite (fun _ => Keeps.pure _) fun _ => Keeps.fail e

theorem hideRest_keeps {I : VfsState → Prop} {hide otherwise : Prog World Errno Unit}
    (h : Keeps I hide) (h' : Keeps I otherwise) : Keeps I (hideRest M v hide otherwise) :=
  Keeps.bind (Keeps.look (resolve_agrees M v)) fun _ => Keeps.ite (fun _ => h') fun _ => h

theorem runIf_keeps {I : VfsState → Prop} {c : Bool} {m : Prog World Errno Unit} (h : Keeps I m) :
    Keeps I (runIf c m) :=
  Keeps.ite (fun _ => h) fun _ => Keeps.pure _

/-- The name of the marker of `u`, beside it. -/
def markerOf (u : Path) : Path := u.dropLast ++ [mark (baseName u)]

theorem whiteoutPath_eq (u : Path) : M.whiteoutPath u = M.hostAt none (markerOf u) :=
  (join_append M.writelayer u.dropLast _).symm

/-- The marker of a name that is not the folder's own place lies beside the name. -/
theorem keptMarker_eq (ht : T.type = .dir) (hcov : layerCovers T u = true) (hne : u ≠ T.target) :
    keptMarker T (sourceRel T u) = M.hostAt (some T) (markerOf u) ∧
      Place.Has (some T) (markerOf u) := by
  have hfile : T.isFileLayer = false := by simp [Layer.isFileLayer, ht]
  rw [layerCovers, if_neg (by simp [hfile])] at hcov
  obtain ⟨w, rfl⟩ := List.isPrefixOf_iff_prefix.1 hcov
  rcases w.eq_nil_or_concat' with rfl | ⟨w, n, rfl⟩
  · exact absurd (List.append_nil _) hne
  have hrel : sourceRel T (T.target ++ (w ++ [n])) = T.subpath ++ w ++ [n] := by
    rw [sourceRel, relUnder, List.drop_left, List.append_assoc]
  have hmark : markerOf (T.target ++ (w ++ [n])) = T.target ++ (w ++ [mark n]) := by
    rw [markerOf, ← List.append_assoc, append_singleton_dropLast, baseName, List.getLastD_concat,
      List.append_assoc]
  have hrel' : sourceRel T (T.target ++ (w ++ [mark n])) = T.subpath ++ w ++ [mark n] := by
    rw [sourceRel, relUnder, List.drop_left, List.append_assoc]
  rw [hrel, hmark]
  refine ⟨?_, ?_⟩
  · rw [keptMarker, if_neg (by simp), append_singleton_dropLast, baseName, List.getLastD_concat,
      hostAt_dir ht, layerHost, hrel', keptHost]
    exact (join_append T.source (T.subpath ++ w) [mark n]).symm
  · change layerCovers T _ = true
    rw [layerCovers, if_neg (by simp [hfile])]
    exact List.isPrefixOf_iff_prefix.2 (List.prefix_append _ _)

theorem sourceRel_le (ht : T.type = .dir) (hu : layerCovers T u = true) (hv : layerCovers T v = true)
    (h : sourceRel T u <+: sourceRel T v) : u <+: v := by
  have hfile : T.isFileLayer = false := by simp [Layer.isFileLayer, ht]
  rw [← relUnder_append hfile hu, ← relUnder_append hfile hv]
  exact (List.prefix_append_right_inj _).2 ((List.prefix_append_right_inj _).1 h)

section Sides

variable (h : KeepsSight M L s₀ vf vt) (hle : vf <+: L.target)
include h

/-- What the folder shows is not below the new name. -/
theorem KeepsSight.not_le (hv : ShowsFile M s₀ L v) : ¬ vt <+: v := fun hc =>
  (List.prefix_or_prefix_of_prefix hc hv.target_le).elim h.above h.inside

/-- What lies on the way to the new name is beside what the folder shows. -/
theorem KeepsSight.way_target {p : HostPath} (hp : copyDest M vt = p) : WayAside M L s₀ p :=
  h.wayAside (keptLayerFor_isPlace h.taken) (keptLayerFor_has vt) (Or.inr (List.dropLast_prefix vt))
    (fun _ hv hvt _ _ => h.inside (hv.target_le.trans hvt)) ((copyDest_eq vt).symm.trans hp)

/-- And so is the new name's marker. -/
theorem KeepsSight.way_marker {o : Place} (ho : M.IsPlace o) (hhas : o.Has (markerOf vt)) {p : HostPath}
    (hp : M.hostAt o (markerOf vt) = p) : WayAside M L s₀ p := by
  refine h.wayAside ho hhas (Or.inr (List.prefix_append _ _)) (fun v hv hvt _ _ => ?_) hp
  rcases List.prefix_concat_iff.1 (hv.target_le.trans hvt) with heq | hle
  · have hname := h.named
    rw [heq, markerName, baseName, List.getLastD_concat, isMarker_mark] at hname
    cases hname
  · exact h.inside (hle.trans (List.dropLast_prefix vt))

include hle

theorem removeWhiteout_inSight : Keeps (InSight M L s₀) (removeWhiteout M vt) := by
  refine Keeps.ite (fun _ => Keeps.pure _) fun hwl => Keeps.bind (Keeps.ignoring
    (InSight.unlink (h.reliedOn_linkless hle) ?_)) fun _ => InSight.mutate (fun _ => rfl) fun v s _ hun => ?_
  · exact h.way_marker (o := none) hwl trivial (whiteoutPath_eq vt).symm
  · exact hun.mono rfl (fun x _ hx => Finset.mem_of_mem_erase hx) fun x _ hx => hx

theorem unhideKept_inSight : Keeps (InSight M L s₀) (unhideKept M vt) := by
  unfold unhideKept
  cases hT : M.keptLayerFor vt with
  | none => exact Keeps.pure _
  | some T =>
      obtain ⟨hplace, ht, -, hcov⟩ := keptLayerFor_spec hT
      obtain ⟨hmarker, hhas⟩ := keptMarker_eq (M := M) ht hcov (h.entry T hT)
      refine Keeps.bind (Keeps.look (Agrees.see _)) fun deleted => Keeps.ite (fun _ => ?_)
        fun _ => Keeps.pure _
      refine Keeps.bind (toleratingEnoent_keeps (InSight.unlink (h.reliedOn_linkless hle)
        (h.way_marker hplace hhas hmarker.symm))) fun _ => mutateKept_inSight ?_
      exact fun P _ _ _ v _ _ k hk => masksBy_mono hk (fun x _ hx => Finset.mem_of_mem_erase hx)
        fun x _ _ hx => hx

theorem unhideLower_inSight : Keeps (InSight M L s₀) (unhideLower M vt) :=
  Keeps.bind (unhideKept_inSight h hle) fun _ => removeWhiteout_inSight h hle

/-- The new name is masked for the layers below it, and no name of the folder is below that. -/
theorem keptMarkOpaque_inSight : Keeps (InSight M L s₀) (keptMarkOpaque M vt) := by
  unfold keptMarkOpaque
  cases hT : M.keptLayerFor vt with
  | none => exact Keeps.fail _
  | some T =>
      obtain ⟨hplace, ht, -, hcov⟩ := keptLayerFor_spec hT
      have hdir : ∀ P, (some T : Place) = some P → P.type = .dir := by
        rintro _ ⟨⟩
        exact ht
      refine Keeps.bind (touchMarker_inSight (h.reliedOn_linkless hle) ?_) fun _ => mutateKept_inSight ?_
      · refine h.wayAside hplace (has_append hdir hcov [opaqueName])
          (Or.inr ((List.dropLast_prefix vt).trans (List.prefix_append _ _))) (fun v hv hvt _ _ => ?_) ?_
        · rcases List.prefix_concat_iff.1 (hv.target_le.trans hvt) with heq | hle
          · exact h.above (heq ▸ List.prefix_append vt [opaqueName])
          · exact h.inside hle
        · have hfile : T.isFileLayer = false := by simp [Layer.isFileLayer, ht]
          obtain ⟨w, hw⟩ : ∃ w, T.target ++ w = vt := ⟨_, relUnder_append hfile hcov⟩
          rw [hostAt_dir ht, layerHost, keptHost, ← join_append]
          congr 1
          subst hw
          rw [sourceRel, sourceRel, relUnder, relUnder, List.append_assoc T.target, List.drop_left,
            List.drop_left, List.append_assoc]
      · intro P hP hprio _ v hv hshow k hk
        obtain rfl := Mount.eq_of_priority hP hplace.1 hprio
        refine masksBy_mono hk (fun x _ hx => hx) fun x hx _ hmem => ?_
        refine (Finset.mem_insert.1 hmem).resolve_left ?_
        rintro rfl
        exact h.not_le hv (sourceRel_le ht hcov hshow.1 hx)

omit hle

theorem renameMaskPrefix_inSight : Keeps (InSight M L s₀) (renameMaskPrefix M vf vt) := by
  have hmove : ∀ v, ShowsFile M s₀ L v → ∀ (S : Finset Path) x, x <+: v →
      x ∈ S.image (movePrefix vf vt) → x ∈ S := by
    intro v hv S x hx hmem
    obtain ⟨y, hy, rfl⟩ := Finset.mem_image.1 hmem
    unfold movePrefix at hx ⊢
    split_ifs at hx ⊢
    · exact absurd ((List.prefix_append _ _).trans hx) (h.not_le hv)
    · exact hy
  exact Keeps.ite (fun _ => Keeps.pure _) fun _ => InSight.mutate (fun _ => rfl) fun v s hv hun =>
    hun.mono rfl (fun x hx hmem => hmove v hv _ x hx hmem) fun x hx hmem => hmove v hv _ x hx hmem

theorem keptRenamePrefix_inSight : Keeps (InSight M L s₀) (keptRenamePrefix M vf vt) := by
  obtain ⟨K, hK, -, hlt⟩ := h.below
  unfold keptRenamePrefix
  rw [hK]
  cases M.keptLayerFor vt with
  | none => exact Keeps.pure _
  | some T =>
      refine Keeps.ite (fun _ => Keeps.pure _) fun _ => mutateKept_inSight fun P _ hprio hover => ?_
      exact absurd (hprio ▸ hover) hlt.le.not_gt

include hle

/-- **The old name is hidden below the folder only.** -/
theorem hideLower_inSight : Keeps (InSight M L s₀) (hideLower M vf) := by
  obtain ⟨K, hK, hne, hlt⟩ := h.below
  obtain ⟨hplace, ht, -, hcov⟩ := keptLayerFor_spec hK
  obtain ⟨hmarker, hhas⟩ := keptMarker_eq (M := M) ht hcov hne
  unfold hideLower
  rw [hK]
  dsimp only
  have hrel : sourceRel K vf ≠ [] := fun hc => by
    have hvf := relUnder_append (L := K) (by simp [Layer.isFileLayer, ht]) hcov
    rw [(List.append_eq_nil_iff.1 hc).2, List.append_nil] at hvf
    exact hne hvf.symm
  rw [if_neg hrel]
  refine Keeps.bind (touchMarker_inSight (h.reliedOn_linkless hle) ?_) fun _ =>
    mutateKept_inSight fun P _ hprio hover => absurd (hprio ▸ hover) hlt.le.not_gt
  exact h.wayAside hplace hhas (Or.inl (List.prefix_append _ _)) (fun _ _ _ _ hover =>
    absurd hlt (not_lt_of_ge hover)) hmarker.symm

omit hle

/-- What is moved lies in a kept folder below. -/
theorem KeepsSight.source {rr : ResolveResult} (hrr : Found M vf rr) :
    ∃ T, M.IsPlace (some T) ∧ T.type = .dir ∧ layerCovers T vf = true ∧
      writeHost M vf rr = M.hostAt (some T) vf ∧ T.priority < L.priority := by
  obtain ⟨K, hK, -, hlt⟩ := h.below
  cases hpass : rr.rwPassthrough with
  | false =>
      obtain ⟨hplace, ht, -, hcov⟩ := keptLayerFor_spec hK
      refine ⟨K, hplace, ht, hcov, ?_, hlt⟩
      rw [writeHost, hpass, if_neg Bool.false_ne_true, copyDest_eq, hK]
  | true =>
      cases rr with
      | dirLayer host T =>
          obtain ⟨⟨hT, hcov, hdir, rfl⟩, -⟩ := hrr
          have hkept : T.isKept = true := by
            rw [Layer.isKept, hdir]
            exact hpass
          refine ⟨T, ⟨hT, Or.inl hdir⟩, isDirLayer_iff.1 hdir, hcov, ?_,
            (keptLayerFor_highest hK hT hkept hcov).trans_lt hlt⟩
          rw [writeHost, hpass, if_pos rfl, hostAt_dir (isDirLayer_iff.1 hdir)]
          rfl
      | _ => cases hpass

include hle

/-- **The call itself** moves what lies beside the folder's files, to beside them. -/
theorem rename_inSight {rr : ResolveResult} (hrr : Found M vf rr) {dst : HostPath}
    (hdst : copyDest M vt = dst) :
    Keeps (InSight M L s₀) (act (Disk.rename (writeHost M vf rr) dst)) := by
  obtain ⟨T, hplace, ht, hcov, hsrc, hlt⟩ := h.source hrr
  have hdir : ∀ P, (some T : Place) = some P → P.type = .dir := by
    rintro _ ⟨⟩
    exact ht
  obtain ⟨a, ha⟩ := h.apart.host hplace vf
  obtain ⟨b, hb⟩ := h.apart.host (keptLayerFor_isPlace h.taken) vt
  obtain rfl := hdst
  rw [hsrc, copyDest_eq, ha, hb]
  refine Keeps.act fun s hs => ⟨?_, fun v hv => (hs.unveiled v hv).congr ⟨rfl, rfl, rfl⟩⟩
  refine rename_sighted (h.reliedOn_linkless hle) hs.tree
    (h.links _ vf hplace hcov (Or.inl (List.dropLast_prefix vf)) a ha)
    (h.links _ vt (keptLayerFor_isPlace h.taken) (keptLayerFor_has vt)
      (Or.inr (List.dropLast_prefix vt)) b hb) ?_ ?_ fun r target => ?_
  · rintro p ⟨o, v, ho, hover, hhas, -, hp⟩ hap
    obtain ⟨rfl, -⟩ := h.apart.le hplace ho hcov hhas ha hp hap
    exact absurd hlt (not_lt_of_ge hover)
  · rintro p ⟨o, v, ho, -, hhas, hv, hp⟩ hbp
    exact h.not_le hv (h.apart.le (keptLayerFor_isPlace h.taken) ho (keptLayerFor_has vt) hhas hb hp hbp).2
  · exact h.links _ (vf ++ r) hplace (has_append hdir hcov r)
      (Or.inl ((List.dropLast_prefix vf).trans (List.prefix_append vf r))) _
      (hostAt_append hdir hcov ha r) _ (List.prefix_refl _) target

theorem moveTo_inSight {rr : ResolveResult} (hrr : Found M vf rr) (isDir : Bool) :
    Keeps (InSight M L s₀) (moveTo M vf vt rr isDir) := by
  have hlinks := h.reliedOn_linkless hle
  unfold moveTo
  cases hhost : M.passthroughHost vt with
  | some dst =>
      have hdst : copyDest M vt = dst := by rw [copyDest, hhost, Option.getD_some]
      have hway := h.way_target hdst
      refine Keeps.ite (fun _ => Keeps.fail _) fun _ => Keeps.bind (Keeps.look (Agrees.see _)) fun _ =>
        Keeps.bind (Keeps.ignoring (createDirectories_keeps fun q mode hq =>
          InSight.mkdir hlinks hway q mode hq.of_hostParent)) fun _ =>
        Keeps.bind (rename_inSight h hle hrr hdst) fun _ =>
        Keeps.bind (runIf_keeps (keptRenamePrefix_inSight h)) fun _ =>
        Keeps.bind (runIf_keeps (keptMarkOpaque_inSight h hle)) fun _ =>
        Keeps.ignoring (unhideLower_inSight h hle)
  | none =>
      have hdst : copyDest M vt = M.wlPath vt := by rw [copyDest, hhost, Option.getD_none]
      have hway := h.way_target hdst
      exact Keeps.bind (createDirectoriesEio_keeps fun q mode hq =>
          InSight.mkdir hlinks hway q mode (hq.join_mono (List.dropLast_prefix vt))) fun _ =>
        Keeps.bind (removeWhiteout_inSight h hle) fun _ =>
        Keeps.bind (rename_inSight h hle hrr hdst) fun _ =>
        runIf_keeps (keptRenamePrefix_inSight h)

/-- **The move leaves the folder's files in sight**, whether it succeeds or not. -/
theorem vfsRename_inSight (hne : vf ≠ L.target) (hrw : L.rw = true) :
    Keeps (InSight M L s₀) (vfsRename M vf vt) := by
  refine Keeps.ite (fun _ => Keeps.fail _) fun _ => ?_
  refine Calmly.bind (Q := fun rr s => InSight M L s₀ s ∧ Found M vf rr)
    (Calmly.look (resolve_agrees M vf) fun s hs => ⟨hs, lookup_isFound M s vf⟩) fun rr => ?_
  refine Calmly.assuming fun s hs => ?_
  obtain ⟨hs, hrr⟩ := hs
  refine Calmly.conseq (P := InSight M L s₀) ?_ (by rintro _ rfl; exact hs) (fun _ _ h => h)
    fun _ _ h => h
  exact Keeps.ite (fun _ => Keeps.fail _) fun _ =>
    Keeps.bind (Keeps.look (hitIsDir_agrees false rr)) fun isDir =>
    Keeps.bind (bringUp_inSight h hle hne hrw hrr isDir) fun _ =>
    Keeps.bind (moveTo_inSight h hle hrr isDir) fun _ =>
    Keeps.bind (runIf_keeps (renameMaskPrefix_inSight h)) fun _ =>
    hideRest_keeps (hideLower_inSight h hle) (Keeps.pure _)

end Sides

/-- **What the folder shows before such a move, it shows after it.** -/
theorem vfsRename_showsFile (h : KeepsSight M L s₀ vf vt) (hle : vf <+: L.target) (hne : vf ≠ L.target)
    (hrw : L.rw = true) (hv : ShowsFile M s₀ L v) :
    ShowsFile M (vfsRename M vf vt (calm s₀)).2.state L v := by
  have hlinks := h.reliedOn_linkless hle
  have hpost := vfsRename_inSight h hle hne hrw (calm s₀) ⟨calm_calm s₀, InSight.refl h.apart hlinks⟩
  have hsight : InSight M L s₀ (vfsRename M vf vt (calm s₀)).2.state := by
    rcases hrun : vfsRename M vf vt (calm s₀) with ⟨e | a, w'⟩ <;> rw [hrun] at hpost <;> exact hpost.2
  exact hsight.showsFile h.apart hlinks hv

end VidyaGodFS
