/-
**What the layers add to a listing.**

Below the writelayer a directory's names come from every layer that covers it, from the places of the
layers, and from the directories that these imply.  Without kept folders nothing in a layer hides the
names of another.

Main definitions:

* `LayerAdds` — a layer adds a name to the listing of a directory.

Main results:

* `mem_lowerListing` — **the names that come from below, layer by layer**;
* `plainLayers_of` — layers without markers in their names.
-/

import VidyaGodFS.CopyUp

set_option relaxedAutoImplicit false
set_option autoImplicit false

namespace VidyaGodFS

open Posix

variable {M : Mount} {w : Path}

/-- **The layer adds the name `n` to the listing of `v`**: it holds it, or shows at it or below it. -/
def LayerAdds (M : Mount) (s : VfsState) (L : Layer) (v : Path) (n : Name) : Prop :=
  layerMasked L v = false ∧
    (layerCovers L v = true ∧ n ∈ ((layerNames M L v : View Listing) s).names ∨
      L.isFileLayer = true ∧ segmentAfter v L.fileVPath = L.fileBase ∧ n = L.fileBase ∨
      n ∈ nextNames v L.place)

theorem opaquePrio_of_noKept (hk : NoKept M) (s : VfsState) (v : Path) : opaquePrio M s v = 0 := by
  unfold opaquePrio
  rw [List.filter_eq_nil_iff.2]
  · rfl
  · intro L hL
    simp [hk L hL]

/-- Without kept folders no name is hidden by a layer. -/
theorem layerNames_keptWhiteouts {L : Layer} (hL : L.isKept = false) (s : VfsState) (v : Path) :
    ((layerNames M L v : View Listing) s).keptWhiteouts = [] := by
  unfold layerNames
  cases ht : L.type with
  | dir =>
      have hrw : L.rw = false := by simpa [Layer.isKept, Layer.isDirLayer, ht] using hL
      dsimp only
      rw [View.bind_apply, hrw]
      rfl
  | zip Z => rfl
  | file => rfl

theorem mem_placeNames {L : Layer} {v : Path} {n : Name} : n ∈ (placeNames L v).names ↔
    L.isFileLayer = true ∧ segmentAfter v L.fileVPath = L.fileBase ∧ n = L.fileBase ∨
      n ∈ nextNames v L.place := by
  unfold placeNames
  rw [List.mem_append]
  by_cases h : L.isFileLayer = true ∧ segmentAfter v L.fileVPath = L.fileBase
  · rw [if_pos h, List.mem_singleton]
    simp [h.1, h.2]
  · rw [if_neg h]
    simp only [List.not_mem_nil, false_or]
    exact ⟨Or.inr, Or.rec (fun hc => absurd ⟨hc.1, hc.2.1⟩ h) id⟩

theorem layerListing_spec {L : Layer} (hL : L.isKept = false) (s : VfsState) (v : Path) :
    (∀ n, n ∈ ((layerListing M 0 L v : View Listing) s).names ↔ LayerAdds M s L v n) ∧
      ((layerListing M 0 L v : View Listing) s).keptWhiteouts = [] := by
  unfold layerListing LayerAdds
  by_cases hmask : layerMasked L v = true
  · rw [if_pos (by simp [hmask])]
    exact ⟨fun n => by simp [hmask, Listing.empty, View.pure_apply], rfl⟩
  · have hmask' : layerMasked L v = false := by simpa using hmask
    rw [if_neg (by simp [hmask'])]
    by_cases hcov : layerCovers L v = true
    · rw [if_pos hcov, View.bind_apply]
      constructor
      · intro n
        rw [View.pure_apply, Listing.merge, List.mem_append, mem_placeNames]
        simp [hmask', hcov]
      · rw [View.pure_apply, Listing.merge, layerNames_keptWhiteouts hL]
        rfl
    · rw [if_neg hcov]
      refine ⟨fun n => ?_, rfl⟩
      rw [View.pure_apply, mem_placeNames]
      simp [hmask', hcov]

theorem layersListing_spec {layers : List Layer} (hk : ∀ L ∈ layers, L.isKept = false) (s : VfsState)
    (v : Path) :
    (∀ n, n ∈ ((layersListing M 0 v layers : View Listing) s).names ↔
      ∃ L ∈ layers, LayerAdds M s L v n) ∧
      ((layersListing M 0 v layers : View Listing) s).keptWhiteouts = [] := by
  induction layers with
  | nil => exact ⟨fun n => by simp [layersListing, Listing.empty, View.pure_apply], rfl⟩
  | cons L layers ih =>
      obtain ⟨hnames, hkept⟩ := layerListing_spec (M := M) (hk L (by simp)) s v
      obtain ⟨ihnames, ihkept⟩ := ih fun L' hL' => hk L' (by simp [hL'])
      rw [layersListing, View.bind_apply, View.bind_apply, View.pure_apply, Listing.merge]
      constructor
      · intro n
        rw [List.mem_append, hnames, ihnames]
        simp
      · rw [hkept, ihkept]
        rfl

/-- **The names that come from below, layer by layer.** -/
theorem mem_lowerListing (hk : NoKept M) {s : VfsState} {v : Path} {n : Name} :
    n ∈ ((lowerListing M v false : View Listing) s).names ↔
      (∃ L ∈ M.layers, LayerAdds M s L v n) ∨ ∃ d ∈ M.implicitDirs, n ∈ nextNames v d := by
  unfold lowerListing
  rw [if_neg Bool.false_ne_true, View.bind_apply, View.bind_apply, View.pure_apply, View.see_apply,
    opaquePrio_of_noKept hk, Listing.merge, List.mem_append, (layersListing_spec hk s v).1,
    List.mem_flatMap]

theorem lowerListing_keptWhiteouts (hk : NoKept M) (s : VfsState) (v : Path) (opq : Bool) :
    ((lowerListing M v opq : View Listing) s).keptWhiteouts = [] := by
  unfold lowerListing
  cases opq with
  | true => rfl
  | false =>
      rw [if_neg Bool.false_ne_true, View.bind_apply, View.bind_apply, View.pure_apply, View.see_apply,
        opaquePrio_of_noKept hk, Listing.merge, (layersListing_spec hk s v).2]
      rfl

/-- **The name in a directory on the way to a path** is the one that comes next, if it has letters. -/
theorem mem_nextNames {v p : Path} {n : Name} : n ∈ nextNames v p ↔ n ≠ "" ∧ v ++ [n] <+: p := by
  unfold nextNames segmentAfter
  by_cases hpre : v.isPrefixOf p = true
  · obtain ⟨r, rfl⟩ := List.isPrefixOf_iff_prefix.1 hpre
    rw [if_pos hpre, List.drop_left]
    cases r with
    | nil =>
        refine iff_of_false (by simp) ?_
        rintro ⟨-, hle⟩
        simpa using hle.length_le
    | cons m r =>
        by_cases hm : m = ""
        · simp [hm]
        · simp only [List.headD_cons, ne_eq, hm, not_false_eq_true, if_true, List.mem_singleton]
          constructor
          · rintro rfl
            exact ⟨hm, by simp⟩
          · rintro ⟨-, hle⟩
            simpa using hle
  · rw [if_neg hpre]
    refine iff_of_false (by simp) ?_
    rintro ⟨-, hle⟩
    exact hpre (List.isPrefixOf_iff_prefix.2 ((List.prefix_append v [n]).trans hle))

/-- The next name on the way to a path is one of its names. -/
theorem nextNames_mem {v p : Path} {n : Name} (h : n ∈ nextNames v p) : n ∈ p :=
  (mem_nextNames.1 h).2.mem (by simp)

/-- **Layers without markers in their names**, wherever they show. -/
theorem plainLayers_of (hk : NoKept M) {s : VfsState} (hplace : ∀ L ∈ M.layers, Clean L.place)
    (hnames : ∀ s', SameOutside w s s' → ∀ L ∈ M.layers, ∀ v,
      ∀ n ∈ ((layerNames M L v : View Listing) s').names, isMarker n = false) :
    PlainLayers M w s := by
  intro s' hs' v n hn
  rcases (mem_lowerListing hk).1 hn with ⟨L, hL, -, ⟨-, hown⟩ | ⟨hfile, -, rfl⟩ | hseg⟩ | ⟨d, hd, hseg⟩
  · exact hnames s' hs' L hL v n hown
  · refine hplace L hL _ ?_
    rw [Layer.place, if_pos hfile, Layer.fileVPath]
    simp
  · exact hplace L hL n (nextNames_mem hseg)
  · obtain ⟨L, hL, hdL⟩ := List.mem_flatMap.1 hd
    split_ifs at hdL
    · cases hdL
    · have hpre : d <+: L.place := (List.mem_inits d _).1 (List.mem_of_mem_filter hdL)
      exact hplace L hL n (hpre.mem (nextNames_mem hseg))

end VidyaGodFS
