/-
**What a skipped layer costs.**

A zip or delta layer is skipped when its file does not open, a delta when it has no base or does not
compose, and either when its stream is no archive.  Chains are fixed before any file is opened, so
a layer that is skipped still says what becomes of the one before it at its target: a delta that
does not open has already folded that one away.  And a stream that is no archive stays at its target
all the same, where a delta may be composed over it.

Main definitions:

* `Spec.without`, `past` — the spec without one of its layers, and where the others were;
* `Skipped` — the loop skips the layer;
* `CostsItself` — **the other layers surface as they do without it**, and every delta is composed
  over what it is composed over without it;
* `SkipsCleanly` — the layer before it is folded away with it exactly when it is without it, no
  delta is applied to its stream, and the deltas applied to the stream of the layer before it are
  the same ones;
* `Together` — the two runs side by side.

Main results:

* `together_parts`, `together_step` — what a delta finds in the two runs, and what a layer does;
* `skipped_costs_itself` — **a layer costs only itself exactly when it is skipped cleanly.**
-/

import VidyaGodFS.StackStreams

set_option relaxedAutoImplicit false
set_option autoImplicit false

namespace VidyaGodFS

open Posix

variable {V : Type} {T : Tools V} {S : Spec} {k : ℕ}

/-! ### A spec without one of its layers -/

/-- Where layer `i` of the spec without layer `k` was. -/
def past (k i : ℕ) : ℕ := if i < k then i else i + 1

theorem past_of_lt {i : ℕ} (h : i < k) : past k i = i := if_pos h

theorem past_of_le {i : ℕ} (h : k ≤ i) : past k i = i + 1 := if_neg (Nat.not_lt.2 h)

theorem past_lt_past {i j : ℕ} : past k i < past k j ↔ i < j := by
  rw [past, past]
  split <;> split <;> omega

theorem past_injective (k : ℕ) : Function.Injective (past k) := by
  intro i j h
  rcases Nat.lt_trichotomy i j with hlt | heq | hlt
  · exact absurd h (past_lt_past.2 hlt).ne
  · exact heq
  · exact absurd h (past_lt_past.2 hlt).ne'

theorem exists_past {j : ℕ} (h : j ≠ k) : ∃ i, past k i = j := by
  rcases Nat.lt_or_gt_of_ne h with hlt | hgt
  · exact ⟨j, past_of_lt hlt⟩
  · exact ⟨j - 1, by rw [past_of_le (by omega)]; omega⟩

namespace Spec

/-- The spec without layer `k`. -/
def without (S : Spec) (k : ℕ) : Spec := ⟨S.layers.eraseIdx k⟩

theorem getElem?_without (i : ℕ) : (S.without k).layers[i]? = S.layers[past k i]? := by
  rw [without, List.getElem?_eraseIdx, past]
  split
  · rfl
  · rfl

theorem archiveAt_without {t : Path} {i : ℕ} :
    (S.without k).ArchiveAt t i ↔ S.ArchiveAt t (past k i) := by
  rw [ArchiveAt, ArchiveAt, getElem?_without]

theorem Next.without {i j : ℕ} (h : S.Next (past k i) (past k j)) : (S.without k).Next i j := by
  obtain ⟨t, hlt, hi, hj, hbetween⟩ := h
  refine ⟨t, past_lt_past.1 hlt, archiveAt_without.2 hi, archiveAt_without.2 hj, ?_⟩
  intro m hm hmj hat
  exact hbetween _ (past_lt_past.2 hm) (past_lt_past.2 hmj) (archiveAt_without.1 hat)

/-- A layer that comes next without layer `k` comes next with it, or `k` comes between. -/
theorem Next.with {i j : ℕ} (h : (S.without k).Next i j) :
    S.Next (past k i) (past k j) ∨ S.Next (past k i) k ∧ S.Next k (past k j) := by
  obtain ⟨t, hlt, hi, hj, hbetween⟩ := h
  have hnone : ∀ m, m ≠ k → past k i < m → m < past k j → ¬ S.ArchiveAt t m := by
    intro m hm him hmj hat
    obtain ⟨m', rfl⟩ := exists_past hm
    exact hbetween m' (past_lt_past.1 him) (past_lt_past.1 hmj) (archiveAt_without.2 hat)
  by_cases hk : past k i < k ∧ k < past k j ∧ S.ArchiveAt t k
  · obtain ⟨hik, hkj, hatk⟩ := hk
    refine Or.inr ⟨⟨t, hik, archiveAt_without.1 hi, hatk, fun m him hmk => ?_⟩,
      ⟨t, hkj, hatk, archiveAt_without.1 hj, fun m hkm hmj => ?_⟩⟩
    · exact hnone m hmk.ne him (hmk.trans hkj)
    · exact hnone m hkm.ne' (hik.trans hkm) hmj
  · refine Or.inl ⟨t, past_lt_past.2 hlt, archiveAt_without.1 hi, archiveAt_without.1 hj, ?_⟩
    intro m him hmj hat
    by_cases hm : m = k
    · subst hm
      exact hk ⟨him, hmj, hat⟩
    · exact hnone m hm him hmj hat

/-- A layer that `k` does not follow is folded away with `k` exactly when it is without. -/
theorem folded_without {i : ℕ} (h : ¬ S.Next (past k i) k) :
    (S.without k).Folded i ↔ S.Folded (past k i) := by
  constructor
  · rintro ⟨j, L, hnext, hL, hb⟩
    rw [getElem?_without] at hL
    rcases hnext.with with hnext' | ⟨hk, _⟩
    · exact ⟨_, L, hnext', hL, hb⟩
    · exact absurd hk h
  · rintro ⟨g, L, hnext, hL, hb⟩
    have hg : g ≠ k := by
      rintro rfl
      exact h hnext
    obtain ⟨j, rfl⟩ := exists_past hg
    exact ⟨j, L, hnext.without, by rwa [getElem?_without], hb⟩

/-- Two layers that are folded away alike are in chains alike. -/
theorem likeTops_without {i : ℕ} {L : LayerSpec} (hL : (S.without k).layers[i]? = some L)
    (ha : L.isArchive = true) (hfold : S.Folded (past k i) ↔ (S.without k).Folded i) :
    LikeTops (S.without k).chainTop S.chainTop i (past k i) := by
  have hL' : S.layers[past k i]? = some L := by rwa [getElem?_without] at hL
  constructor
  · rw [S.chainTop_isSome_iff hL' ha, (S.without k).chainTop_isSome_iff hL ha, hfold]
  · rw [S.chainTop_ne_iff hL' ha, (S.without k).chainTop_ne_iff hL ha, hfold]

end Spec

/-! ### Skipping -/

/-- **The zip or delta layer is skipped**: it has no stream, or its stream is no archive. -/
def Skipped (T : Tools V) (S : Spec) (k : ℕ) : Prop :=
  ∃ K, S.layers[k]? = some K ∧ K.isArchive = true ∧
    ∀ v behind, byteView T (stackBefore T S k) K k = some (v, behind) →
      ¬ S.Folded k ∧ T.index v K.source = none

/-- What is at a target, with the layers behind it where layer `k` is there too. -/
def shifted (k : ℕ) (w : V × List ℕ) : V × List ℕ := (w.1, w.2.map (past k))

/-- **The other layers surface as they do without it**, as the same layers, and each delta is
composed over the streams of the same layers. -/
structure CostsItself (T : Tools V) (S : Spec) (k : ℕ) : Prop where
  layers : stackLayers T S = stackLayers T (S.without k)
  mounts : ∀ i, (stackRun T S).mountedAs (past k i) = (stackRun T (S.without k)).mountedAs i
  composed : ∀ i, composedOver T S (past k i)
    = (composedOver T (S.without k) i).map (List.map (shifted k))

/-- The stream of the layer is an archive. -/
def IsArchive (T : Tools V) (S : Spec) (j : ℕ) : Prop :=
  ∃ L v, S.layers[j]? = some L ∧ streamOf T S j = some v ∧ (T.index v L.source).isSome

/-- **The layer is skipped cleanly.** -/
structure SkipsCleanly (T : Tools V) (S : Spec) (k : ℕ) : Prop where
  /-- The layer before it at its target, where it is an archive, is folded away with it exactly
  when it is without it. -/
  before : ∀ p, S.Next p k → IsArchive T S p → (S.Folded p ↔ (S.without k).Folded p)
  /-- No delta is applied to its stream. -/
  base : ∀ j t, ¬ AppliedTo T S j t k
  /-- The layer before it is what the same deltas are applied to. -/
  others : ∀ p, S.Next p k → ∀ i t,
    AppliedTo T S (past k i) t p ↔ AppliedTo T (S.without k) i t p

theorem length_without (hk : k < S.layers.length) :
    (S.without k).layers.length + 1 = S.layers.length := by
  rw [Spec.without, List.length_eraseIdx_of_lt hk]
  omega

theorem past_ne {i : ℕ} : past k i ≠ k := by
  rw [past]
  split <;> omega

/-! ### The layer before it -/

/-- **Before the layer** the two runs are alike, up to the one before it at its target. -/
theorem alike_before (hk : k < S.layers.length) {m : ℕ} (hm : m ≤ k)
    (hnext : ∀ p < m, ¬ S.Next p k) :
    ∀ n ≤ m, Alike (· = ·) (past k) (fun _ => True) (stackBefore T (S.without k) n)
      (stackBefore T S n) := by
  have hlen := length_without (S := S) hk
  intro n
  induction n with
  | zero =>
      refine fun _ => ⟨fun _ _ => rfl, fun _ _ => rfl, fun _ _ => Iff.rfl, fun _ => rfl, ?_⟩
      exact List.Forall₂.nil
  | succ n ih =>
      intro hn
      have hpast : past k n = n := past_of_lt (by omega)
      have hL := List.getElem?_eq_getElem (l := S.layers) (i := n) (by omega)
      have hL' : (S.without k).layers[n]? = some S.layers[n] := by
        rw [Spec.getElem?_without, hpast, hL]
      rw [stackBefore_succ hL, stackBefore_succ hL']
      have halike := ih (by omega)
      have hstep : Alike (· = ·) (past k) (fun _ => True)
          (stackStep T (S.without k).chainTop (stackBefore T (S.without k) n) (S.layers[n], n))
          (stackStep T S.chainTop (stackBefore T S n) (S.layers[n], past k n)) := by
        refine halike.step (past_injective k) hideable_eq (fun _ => rfl) (fun _ _ _ => trivial) ?_
        intro ha _
        refine Spec.likeTops_without hL' ha (Spec.folded_without ?_).symm
        rw [hpast]
        exact hnext n (by omega)
      rwa [hpast] at hstep

section Before

variable {p : ℕ}

/-- Up to the layer before it at its target nothing differs. -/
theorem alike_prior (hk : k < S.layers.length) (hnext : S.Next p k) :
    Alike (· = ·) (past k) (fun _ => True) (stackBefore T (S.without k) p) (stackBefore T S p) := by
  obtain ⟨_, hlt, _⟩ := id hnext
  refine alike_before hk hlt.le (fun q hq hnext' => ?_) p le_rfl
  exact hq.ne' (Spec.Next.unique_left S hnext hnext')

theorem past_prior (hnext : S.Next p k) : past k p = p := by
  obtain ⟨_, hlt, _⟩ := id hnext
  exact past_of_lt hlt

/-- It has the same stream. -/
theorem viewOf_prior (hk : k < S.layers.length) (hnext : S.Next p k) {v v' : V}
    {behind behind' : List ℕ} (h : ViewOf T S p v behind)
    (h' : ViewOf T (S.without k) p v' behind') : (v, behind) = shifted k (v', behind') := by
  obtain ⟨L, hL, hview⟩ := h
  obtain ⟨L', hL', hview'⟩ := h'
  rw [Spec.getElem?_without, past_prior hnext, hL] at hL'
  obtain rfl := Option.some_inj.1 hL'
  have hsame := (alike_prior (T := T) hk hnext).byteView (T := T) (L := L) (n := p)
    fun _ _ _ => trivial
  rw [past_prior hnext, hview, hview', Option.map_some, Option.some_inj] at hsame
  exact hsame

/-- **Where a skipped layer takes the one before it away, or brings it back**, it costs more than
itself. -/
theorem folded_iff_of_costsItself (hnext : S.Next p k) (harch : IsArchive T S p)
    (hcosts : CostsItself T S k) : S.Folded p ↔ (S.without k).Folded p := by
  obtain ⟨P, v, hP, hstream, hindex⟩ := harch
  obtain ⟨t, hlt, ⟨P', hP', ha, _⟩, ⟨K, hK, _⟩, _⟩ := id hnext
  obtain rfl : P = P' := Option.some_inj.1 (hP.symm.trans hP')
  have hk := (List.getElem?_eq_some_iff.1 hK).1
  have hview := (stackBefore_supplied (T := T) (List.getElem?_eq_some_iff.1 hP).1.le).byteView_eq
    hP ha
  rw [hstream, Option.map_eq_some_iff] at hview
  obtain ⟨⟨_, behind⟩, hview, rfl⟩ := hview
  have hP'' : (S.without k).layers[p]? = some P := by
    rw [Spec.getElem?_without, past_prior hnext, hP]
  have hsame := (alike_prior (T := T) hk hnext).byteView (T := T) (L := P) (n := p)
    fun _ _ _ => trivial
  rw [past_prior hnext, hview] at hsame
  obtain ⟨⟨v', behind'⟩, hview', hpair⟩ := Option.map_eq_some_iff.1 hsame.symm
  obtain rfl : v' = _ := congrArg Prod.fst hpair
  have hmounts := hcosts.mounts p
  rw [past_prior hnext] at hmounts
  rw [← mountedAs_eq_nil_of_view hP ha hview fun _ => hindex,
    ← mountedAs_eq_nil_of_view hP'' ha hview' fun _ => hindex, hmounts]

end Before

/-! ### What a layer that costs itself says of the deltas -/

/-- A delta finds the streams of the same layers. -/
theorem supplierAt_of_composed {i : ℕ} {L : LayerSpec}
    (hL : (S.without k).layers[i]? = some L)
    (h : composedOver T S (past k i) = (composedOver T (S.without k) i).map (List.map (shifted k)))
    (hsome : (composedOver T S (past k i)).isSome) {t : Path} (ht : t ∈ L.bases) :
    supplierAt T S (past k i) t = (supplierAt T (S.without k) i t).map (past k) := by
  have hL' : S.layers[past k i]? = some L := by rwa [Spec.getElem?_without] at hL
  have hsup := stackBefore_supplied (T := T) (List.getElem?_eq_some_iff.1 hL').1.le
  have hsup' := stackBefore_supplied (T := T) (List.getElem?_eq_some_iff.1 hL).1.le
  rw [composedOver, composedOver, hL, hL'] at h
  rw [composedOver, hL'] at hsome
  dsimp only at h hsome
  split at hsome
  · rename_i hd
    rw [if_pos hd, if_pos hd, partsOf, partsOf, ← mapM_map_comm] at h
    obtain ⟨w, hw⟩ := Option.isSome_iff_exists.1 hsome
    rw [partsOf] at hw
    have hat := eq_of_mapM_eq hw (h ▸ hw) ht
    rw [← hsup.head_eq t, ← hsup'.head_eq t, hat]
    cases viewAt (stackBefore T (S.without k) i) t with
    | none => rfl
    | some x => exact List.head?_map
  · simp at hsome

theorem skipsCleanly_of_costsItself (hcosts : CostsItself T S k) : SkipsCleanly T S k := by
  have hiff : ∀ i t q, AppliedTo T S (past k i) t q ↔
      ∃ q', past k q' = q ∧ AppliedTo T (S.without k) i t q' := by
    intro i t q
    cases hL : (S.without k).layers[i]? with
    | none =>
        constructor
        · rintro ⟨L, hL', _⟩
          rw [← Spec.getElem?_without, hL] at hL'
          simp at hL'
        · rintro ⟨q', _, L, hL', _⟩
          rw [hL] at hL'
          simp at hL'
    | some L =>
        have hL' : S.layers[past k i]? = some L := by rwa [Spec.getElem?_without] at hL
        have hcomposed := hcosts.composed i
        have hsome : (composedOver T S (past k i)).isSome ↔
            (composedOver T (S.without k) i).isSome := by
          rw [hcomposed, Option.isSome_map]
        rw [appliedTo_iff hL']
        simp only [appliedTo_iff hL]
        constructor
        · rintro ⟨hs, ht, hq⟩
          rw [supplierAt_of_composed hL hcomposed hs ht, Option.map_eq_some_iff] at hq
          obtain ⟨q', hq', hpast⟩ := hq
          exact ⟨q', hpast, hsome.1 hs, ht, hq'⟩
        · rintro ⟨q', rfl, hs, ht, hq⟩
          refine ⟨hsome.2 hs, ht, ?_⟩
          rw [supplierAt_of_composed hL hcomposed (hsome.2 hs) ht, hq, Option.map_some]
  refine ⟨fun p hnext harch => folded_iff_of_costsItself hnext harch hcosts, fun j t h => ?_,
    fun p hnext i t => ?_⟩
  · have hj : j ≠ k := by
      rintro rfl
      obtain ⟨_, _, _, _, _, _, hs⟩ := h
      exact absurd (Spec.supplier_lt hs) (lt_irrefl _)
    obtain ⟨i, rfl⟩ := exists_past hj
    obtain ⟨q', hq', _⟩ := (hiff i t k).1 h
    exact past_ne hq'
  · rw [hiff]
    constructor
    · rintro ⟨q', hq', h⟩
      rw [← past_prior hnext] at hq'
      obtain rfl := past_injective k hq'
      exact h
    · exact fun h => ⟨p, past_prior hnext, h⟩

/-! ### The two runs -/

/-- The runs have come apart at the target `t`: there is the stream of the skipped layer, or in one
of the two runs that of the layer before it, as the last member of a chain. -/
def Apart (T : Tools V) (S : Spec) (k : ℕ) (t : Path) (n n' : ℕ) : Prop :=
  (supplierAt T S n t = some k ∧
    (t ∈ (stackBefore T (S.without k) n').chainSeen → t ∈ (stackBefore T S n).chainSeen)) ∨
  ∃ p, S.Next p k ∧
    ((supplierAt T S n t = some p ∧ t ∈ (stackBefore T S n).chainSeen) ∨
      (supplierAt T (S.without k) n' t = some p ∧
        t ∈ (stackBefore T (S.without k) n').chainSeen ∧
        (S.without k).Folded p ∧ ¬ S.Folded p))

/-- **The two runs side by side**, when it is the turn of layer `n` in the one and `n'` in the other:
they are alike, or alike but for what is at the target `t`. -/
def Together (T : Tools V) (S : Spec) (k : ℕ) (t : Path) (n n' : ℕ) : Prop :=
  Alike (· = ·) (past k) (fun _ => True) (stackBefore T (S.without k) n') (stackBefore T S n) ∨
    Alike (· = ·) (past k) (· ≠ t) (stackBefore T (S.without k) n') (stackBefore T S n) ∧
      Apart T S k t n n'

theorem Together.off {t : Path} {n n' : ℕ} (h : Together T S k t n n') :
    Alike (· = ·) (past k) (· ≠ t) (stackBefore T (S.without k) n') (stackBefore T S n) :=
  h.elim (fun ha => ha.mono fun _ _ => trivial) And.left

theorem Alike.viewAt {same : Layer → Layer → Prop} {ok : Path → Prop} {st' st : InitState V}
    (h : Alike same (past k) ok st' st) {t : Path} (ht : ok t) :
    viewAt st t = (viewAt st' t).map (shifted k) := by
  rw [VidyaGodFS.viewAt, VidyaGodFS.viewAt, h.base t ht, h.behind t ht, Option.map_map]
  rfl

/-- **What a delta finds in the two runs**: the streams of the same layers, or in both one is
missing. -/
theorem together_parts (hclean : SkipsCleanly T S k) (hk : k < S.layers.length) {t : Path} {n : ℕ}
    (h : Together T S k t (past k n) n) {L : LayerSpec} (hL : (S.without k).layers[n]? = some L)
    (hd : L.type = .delta) (hopen : (T.openFile L.source).isSome) :
    partsOf (stackBefore T S (past k n)) L
      = (partsOf (stackBefore T (S.without k) n) L).map (List.map (shifted k)) := by
  have hL' : S.layers[past k n]? = some L := by rwa [Spec.getElem?_without] at hL
  have hsup := stackBefore_supplied (T := T) (List.getElem?_eq_some_iff.1 hL').1.le
  have hsup' := stackBefore_supplied (T := T) (List.getElem?_eq_some_iff.1 hL).1.le
  rw [partsOf, partsOf, ← mapM_map_comm]
  rcases h with halike | ⟨halike, hapart⟩
  · exact mapM_congr_of_mem fun u _ => halike.viewAt trivial
  by_cases hmissing : ∃ u ∈ L.bases, u ≠ t ∧ viewAt (stackBefore T S (past k n)) u = none
  · -- a stream is missing elsewhere, so it is in both runs
    obtain ⟨u, hu, hut, hnone⟩ := hmissing
    have hnone' : (viewAt (stackBefore T (S.without k) n) u).map (shifted k) = none :=
      (halike.viewAt hut).symm.trans hnone
    have hleft : ¬ (L.bases.mapM (viewAt (stackBefore T S (past k n)))).isSome := by
      rw [mapM_isSome_iff]
      exact fun hall => by simpa [hnone] using hall u hu
    have hright : ¬ (L.bases.mapM fun a =>
        (viewAt (stackBefore T (S.without k) n) a).map (shifted k)).isSome := by
      rw [mapM_isSome_iff]
      exact fun hall => by simpa [hnone'] using hall u hu
    rw [Option.not_isSome_iff_eq_none.1 hleft, Option.not_isSome_iff_eq_none.1 hright]
  · have hthere : ∀ u ∈ L.bases, u ≠ t → (supplierAt T S (past k n) u).isSome := by
      intro u hu hut
      rw [← hsup.isSome_iff, Option.isSome_iff_ne_none]
      exact fun hnone => hmissing ⟨u, hu, hut, hnone⟩
    have hthere' : ∀ u ∈ L.bases, u ≠ t → (supplierAt T (S.without k) n u).isSome := by
      intro u hu hut
      have hsome := hthere u hu hut
      rw [← hsup.isSome_iff, halike.viewAt hut, Option.isSome_map] at hsome
      rwa [← hsup'.isSome_iff]
    -- what is at the target of the skipped layer
    have hall : ∀ {T' : Tools V} {S' : Spec} {m i : ℕ}, supplierAt T' S' m t = some i →
        (∀ u ∈ L.bases, u ≠ t → (supplierAt T' S' m u).isSome) →
        ∀ u ∈ L.bases, (supplierAt T' S' m u).isSome := by
      intro T' S' m i hi hoff u hu
      by_cases hut : u = t
      · rw [hut, hi]
        rfl
      · exact hoff u hu hut
    have hat : t ∈ L.bases → viewAt (stackBefore T S (past k n)) t
        = (viewAt (stackBefore T (S.without k) n) t).map (shifted k) := by
      intro ht
      have hboth : ∀ p, S.Next p k → supplierAt T S (past k n) t = some p →
          supplierAt T (S.without k) n t = some p → viewAt (stackBefore T S (past k n)) t
            = (viewAt (stackBefore T (S.without k) n) t).map (shifted k) := by
        intro p hnext hs hs'
        obtain ⟨v, behind, hof, _, hview⟩ := hsup.viewAt_of hs
        obtain ⟨v', behind', hof', _, hview'⟩ := hsup'.viewAt_of hs'
        rw [hview, hview', Option.map_some, viewOf_prior hk hnext hof hof']
      rcases hapart with ⟨hs, _⟩ | ⟨p, hnext, ⟨hs, _⟩ | ⟨hs', _⟩⟩
      · exact absurd ⟨L, hL', hd, hopen, ht, hall hs hthere, hs⟩ (hclean.base _ _)
      · obtain ⟨_, _, _, _, _, _, hs'⟩ := (hclean.others p hnext n t).1
          ⟨L, hL', hd, hopen, ht, hall hs hthere, hs⟩
        exact hboth p hnext hs hs'
      · obtain ⟨_, _, _, _, _, _, hs⟩ := (hclean.others p hnext n t).2
          ⟨L, hL, hd, hopen, ht, hall hs' hthere', hs'⟩
        exact hboth p hnext hs hs'
    refine mapM_congr_of_mem fun u hu => ?_
    by_cases hut : u = t
    · subst hut
      exact hat hu
    · exact halike.viewAt hut

/-- **A layer that both specs have finds the same stream.** -/
theorem together_byteView (hclean : SkipsCleanly T S k) (hk : k < S.layers.length) {t : Path}
    {n : ℕ} (h : Together T S k t (past k n) n) {L : LayerSpec}
    (hL : (S.without k).layers[n]? = some L) :
    byteView T (stackBefore T S (past k n)) L (past k n)
      = (byteView T (stackBefore T (S.without k) n) L n).map fun w => (w.1, w.2.map (past k)) := by
  by_cases hd : L.type = .delta
  · rw [byteView_parts hd, byteView_parts hd]
    cases hopen : T.openFile L.source with
    | none => rfl
    | some src =>
        rw [Option.bind_some, Option.bind_some,
          together_parts hclean hk h hL hd (by rw [hopen]; rfl)]
        cases partsOf (stackBefore T (S.without k) n) L with
        | none => rfl
        | some w =>
            have hfst : (w.map (shifted k)).map Prod.fst = w.map Prod.fst := by
              rw [List.map_map]
              rfl
            have hsnd : (w.map (shifted k)).flatMap Prod.snd
                = (w.flatMap Prod.snd).map (past k) := by
              rw [List.flatMap_map, List.map_flatMap]
              rfl
            rw [Option.map_some, Option.bind_some, Option.bind_some, hfst, hsnd, Option.map_map]
            rfl
  · rw [byteView, byteView]
    cases T.openFile L.source with
    | none => rfl
    | some src =>
        dsimp only
        rw [if_neg hd, if_neg hd]
        rfl

/-- Where the layer before the skipped one is in a chain in one run only, the runs come apart. -/
theorem apart_of_prior {t : Path} {p : ℕ} {L : LayerSpec} (hnext : S.Next p k)
    (hL : S.layers[p]? = some L) (ha : L.isArchive = true) (ht : L.target = t)
    {w w' : V × List ℕ} (hview : byteView T (stackBefore T S p) L p = some w)
    (hview' : byteView T (stackBefore T (S.without k) p) L p = some w')
    (hin : ¬ ((S.chainTop p).isSome ↔ ((S.without k).chainTop p).isSome)) :
    Apart T S k t (p + 1) (p + 1) := by
  have hL' : (S.without k).layers[p]? = some L := by
    rw [Spec.getElem?_without, past_prior hnext, hL]
  rw [S.chainTop_isSome_iff hL ha, (S.without k).chainTop_isSome_iff hL' ha] at hin
  refine Or.inr ⟨p, hnext, ?_⟩
  by_cases hfold : S.Folded p
  · have hc := (S.chainTop_isSome_iff hL ha).2 (Or.inr hfold)
    obtain ⟨hsup, _, _, hseen⟩ := putsAt hL ha hview ht (Or.inl hc)
    exact Or.inl ⟨hsup, hseen.2 (Or.inr hc)⟩
  · have hfold' : (S.without k).Folded p := by
      by_contra hfold'
      exact hin (or_congr_right (iff_of_false hfold hfold'))
    have hc := ((S.without k).chainTop_isSome_iff hL' ha).2 (Or.inr hfold')
    obtain ⟨hsup, _, _, hseen⟩ := putsAt hL' ha hview' ht (Or.inl hc)
    exact Or.inr ⟨hsup, hseen.2 (Or.inr hc), hfold', hfold⟩

/-- Before the layer ahead of the skipped one has had its turn the runs have not come apart. -/
theorem not_apart {t : Path} {n : ℕ} (hnext : S.Next (past k n) k) :
    ¬ Apart T S k t (past k n) n := by
  have hlt : past k n < k := hnext.choose_spec.1
  have hpast : past k n = n := by
    rw [← past_injective k (past_prior hnext)]
    exact past_prior hnext
  rintro (⟨hs, _⟩ | ⟨p, hnext', ⟨hs, _⟩ | ⟨hs, _⟩⟩)
  · exact absurd (Spec.supplier_lt hs) (Nat.not_lt.2 hlt.le)
  · rw [Spec.Next.unique_left S hnext' hnext] at hs
    exact absurd (Spec.supplier_lt hs) (lt_irrefl _)
  · rw [Spec.Next.unique_left S hnext' hnext, hpast] at hs
    exact absurd (Spec.supplier_lt hs) (lt_irrefl _)

section Shared

variable {K L : LayerSpec} {n : ℕ}

/-- A layer that both specs have keeps the states alike, wherever they are. -/
theorem Together.alike_step (hclean : SkipsCleanly T S k) (hk : k < S.layers.length) {t : Path}
    (h : Together T S k t (past k n) n) (hL : (S.without k).layers[n]? = some L)
    {ok : Path → Prop}
    (halike : Alike (· = ·) (past k) ok (stackBefore T (S.without k) n)
      (stackBefore T S (past k n)))
    (hin : L.isArchive = true → byteView T (stackBefore T (S.without k) n) L n ≠ none →
      ok L.target → ((S.chainTop (past k n)).isSome ↔ ((S.without k).chainTop n).isSome))
    (hfold : ∀ v, streamOf T S (past k n) = some v → (T.index v L.source).isSome →
      (S.Folded (past k n) ↔ (S.without k).Folded n)) :
    Alike (· = ·) (past k) ok (stackBefore T (S.without k) (n + 1))
      (stackBefore T S (past k n + 1)) := by
  have hL' : S.layers[past k n]? = some L := by rwa [Spec.getElem?_without] at hL
  have hview := together_byteView hclean hk h hL
  rw [stackBefore_succ hL, stackBefore_succ hL']
  refine halike.step_of (past_injective k) hideable_eq (fun _ => rfl) hview hin ?_
  refine surfacesAs_eq hview fun ha w hw hindex => ?_
  rw [S.chainTop_ne_iff hL' ha, (S.without k).chainTop_ne_iff hL ha]
  have hstream := (stackBefore_supplied (T := T)
    (List.getElem?_eq_some_iff.1 hL').1.le).byteView_eq hL' ha
  rw [hview, hw, Option.map_some, Option.map_some] at hstream
  exact hfold w.1 hstream.symm hindex

/-- **The layer before the skipped one** keeps the runs together. -/
theorem together_prior (hclean : SkipsCleanly T S k) (hK : S.layers[k]? = some K)
    (h : Together T S k K.target (past k n) n) (hL : (S.without k).layers[n]? = some L)
    (hnext : S.Next (past k n) k) : Together T S k K.target (past k n + 1) (n + 1) := by
  have hk := (List.getElem?_eq_some_iff.1 hK).1
  have hL' : S.layers[past k n]? = some L := by rwa [Spec.getElem?_without] at hL
  have hpast : past k n = n := by
    rw [← past_injective k (past_prior hnext)]
    exact past_prior hnext
  have halike := h.resolve_right fun hc => not_apart hnext hc.2
  have htgt : L.target = K.target := by
    obtain ⟨t, _, ⟨B, hB, _, rfl⟩, ⟨K', hK', _, htgt⟩, _⟩ := hnext
    obtain rfl : L = B := Option.some_inj.1 (hL'.symm.trans hB)
    obtain rfl : K = K' := Option.some_inj.1 (hK.symm.trans hK')
    exact htgt.symm
  have hfold : ∀ v, streamOf T S (past k n) = some v → (T.index v L.source).isSome →
      (S.Folded (past k n) ↔ (S.without k).Folded n) := by
    intro v hv hindex
    have hfold := hclean.before _ hnext ⟨L, v, hL', hv, hindex⟩
    rwa [hpast] at hfold ⊢
  by_cases hin : L.isArchive = true → byteView T (stackBefore T (S.without k) n) L n ≠ none →
      ((S.chainTop (past k n)).isSome ↔ ((S.without k).chainTop n).isSome)
  · exact Or.inl (h.alike_step hclean hk hL halike (fun ha hv _ => hin ha hv) hfold)
  · rw [Classical.not_imp, Classical.not_imp] at hin
    obtain ⟨ha, hv, hdiff⟩ := hin
    obtain ⟨w', hw'⟩ := Option.ne_none_iff_exists'.1 hv
    have hw := together_byteView hclean hk h hL
    rw [hw', Option.map_some] at hw
    refine Or.inr ⟨h.alike_step hclean hk hL (halike.mono fun _ _ => trivial)
      (fun _ _ hne => absurd htgt hne) hfold, ?_⟩
    rw [hpast] at hnext hL' hw hdiff ⊢
    exact apart_of_prior hnext hL' ha htgt hw hw' hdiff

/-- A stream that enters at the target in both runs brings them together again. -/
theorem together_of_puts (hL : (S.without k).layers[n]? = some L) (ha : L.isArchive = true)
    (ht : L.target = K.target) {w' : V × List ℕ}
    (hw' : byteView T (stackBefore T (S.without k) n) L n = some w')
    (hw : byteView T (stackBefore T S (past k n)) L (past k n) = some (shifted k w'))
    (hin : (S.chainTop (past k n)).isSome ↔ ((S.without k).chainTop n).isSome)
    (hput : (S.chainTop (past k n)).isSome ∨
      K.target ∉ (stackBefore T S (past k n)).chainSeen ∧
        K.target ∉ (stackBefore T (S.without k) n).chainSeen)
    (halike : Alike (· = ·) (past k) (· ≠ K.target) (stackBefore T (S.without k) (n + 1))
      (stackBefore T S (past k n + 1))) :
    Together T S k K.target (past k n + 1) (n + 1) := by
  have hL' : S.layers[past k n]? = some L := by rwa [Spec.getElem?_without] at hL
  obtain ⟨_, hbase, hbehind, hseen⟩ := putsAt hL' ha hw ht (hput.imp_right And.left)
  obtain ⟨_, hbase', hbehind', hseen'⟩ := putsAt hL ha hw' ht (hput.imp hin.1 And.right)
  refine Or.inl (halike.rejoin (hbase.trans hbase'.symm) (by rw [hbehind, hbehind']; rfl) ?_)
  rw [hseen, hseen']
  rcases hput with hc | ⟨hout, hout'⟩
  · exact iff_of_true (Or.inr hc) (Or.inr (hin.1 hc))
  · exact or_congr (iff_of_false hout hout') hin

/-- **A layer after the runs have come apart** keeps them as they are, or brings them together. -/
theorem together_apart {t : Path} (hL : (S.without k).layers[n]? = some L) (htK : K.target = t)
    (hview : byteView T (stackBefore T S (past k n)) L (past k n)
      = (byteView T (stackBefore T (S.without k) n) L n).map (shifted k))
    (hin : L.isArchive = true →
      ((S.chainTop (past k n)).isSome ↔ ((S.without k).chainTop n).isSome))
    (hapart : Apart T S k t (past k n) n)
    (halike : Alike (· = ·) (past k) (· ≠ t) (stackBefore T (S.without k) (n + 1))
      (stackBefore T S (past k n + 1))) :
    Together T S k t (past k n + 1) (n + 1) := by
  subst htK
  have hL' : S.layers[past k n]? = some L := by rwa [Spec.getElem?_without] at hL
  by_cases hat : L.isArchive = true ∧
      byteView T (stackBefore T (S.without k) n) L n ≠ none ∧ L.target = K.target
  · obtain ⟨ha, hv, ht⟩ := hat
    obtain ⟨w', hw'⟩ := Option.ne_none_iff_exists'.1 hv
    have hw := hview
    rw [hw', Option.map_some] at hw
    have hputs := fun hput => together_of_puts hL ha ht hw' hw (hin ha) hput halike
    by_cases hc : (S.chainTop (past k n)).isSome
    · exact hputs (Or.inl hc)
    · -- a zip over a chain, or over none
      have hc' := (hin ha).not.1 hc
      rw [Option.not_isSome_iff_eq_none] at hc hc'
      have hkeeps := fun hseen => keepsAt (T := T) (t := K.target) hL' fun _ _ _ => ⟨hc, hseen⟩
      have hkeeps' := fun hseen => keepsAt (T := T) (t := K.target) hL fun _ _ _ => ⟨hc', hseen⟩
      rcases hapart with ⟨hs, hseen⟩ | ⟨p, hnext', ⟨hs, hseen⟩ | ⟨hs, hseen, hfold⟩⟩
      · by_cases hkin : K.target ∈ (stackBefore T S (past k n)).chainSeen
        · obtain ⟨hsup, hiff⟩ := hkeeps hkin
          exact Or.inr ⟨halike, Or.inl ⟨hsup.trans hs, fun _ => hiff.2 hkin⟩⟩
        · exact hputs (Or.inr ⟨hkin, fun hin' => hkin (hseen hin')⟩)
      · obtain ⟨hsup, hiff⟩ := hkeeps hseen
        exact Or.inr ⟨halike, Or.inr ⟨p, hnext', Or.inl ⟨hsup.trans hs, hiff.2 hseen⟩⟩⟩
      · obtain ⟨hsup, hiff⟩ := hkeeps' hseen
        exact Or.inr ⟨halike, Or.inr ⟨p, hnext', Or.inr ⟨hsup.trans hs, hiff.2 hseen, hfold⟩⟩⟩
  · have hviews : byteView T (stackBefore T S (past k n)) L (past k n) ≠ none →
        byteView T (stackBefore T (S.without k) n) L n ≠ none := by
      rw [hview, ne_eq, ne_eq, Option.map_eq_none_iff]
      exact id
    obtain ⟨hsup, hseen⟩ := keepsAt (T := T) hL' (t := K.target)
      fun ha hv ht => absurd ⟨ha, hviews hv, ht⟩ hat
    obtain ⟨hsup', hseen'⟩ := keepsAt (T := T) hL (t := K.target)
      fun ha hv ht => absurd ⟨ha, hv, ht⟩ hat
    refine Or.inr ⟨halike, ?_⟩
    rw [Apart, hsup, hsup', hseen, hseen']
    exact hapart

/-- **A layer that both specs have keeps the runs together.** -/
theorem together_step (hclean : SkipsCleanly T S k) (hK : S.layers[k]? = some K)
    (h : Together T S k K.target (past k n) n) (hL : (S.without k).layers[n]? = some L) :
    Together T S k K.target (past k n + 1) (n + 1) := by
  have hk := (List.getElem?_eq_some_iff.1 hK).1
  by_cases hnext : S.Next (past k n) k
  · exact together_prior hclean hK h hL hnext
  · -- any other layer is in a chain, and folded away, in both runs or in neither
    have hfold := (Spec.folded_without hnext).symm
    have hin : L.isArchive = true →
        ((S.chainTop (past k n)).isSome ↔ ((S.without k).chainTop n).isSome) :=
      fun ha => (Spec.likeTops_without hL ha hfold).inChain
    rcases id h with halike | ⟨halike, hapart⟩
    · exact Or.inl (h.alike_step hclean hk hL halike (fun ha _ _ => hin ha) fun _ _ _ => hfold)
    · exact together_apart hL rfl (together_byteView hclean hk h hL) hin hapart
        (h.alike_step hclean hk hL halike (fun ha _ _ => hin ha) fun _ _ _ => hfold)

end Shared

/-- **The skipped layer itself** leaves the runs together. -/
theorem together_skipped (hskip : Skipped T S k) {K : LayerSpec} (hK : S.layers[k]? = some K)
    (h : Together T S k K.target k k) : Together T S k K.target (k + 1) k := by
  obtain ⟨K', hK', ha, hno⟩ := hskip
  obtain rfl : K = K' := Option.some_inj.1 (hK.symm.trans hK')
  have hsurf : surfacesAs T S.chainTop (stackBefore T S k) K k = none := by
    rw [surfacesAs_archive ha]
    cases hview : byteView T (stackBefore T S k) K k with
    | none => rfl
    | some w =>
        obtain ⟨hfold, hindex⟩ := hno w.1 w.2 hview
        dsimp only
        rw [if_neg fun hc => hfold ((S.chainTop_ne_iff hK ha).1 hc), hindex]
        rfl
  have hstep : stackBefore T S (k + 1) = enterStep T S.chainTop (stackBefore T S k) K k := by
    rw [stackBefore_succ hK, stackStep_eq, hsurf]
  have hstill : stackBefore T S (k + 1) = stackBefore T S k →
      supplierAt T S (k + 1) K.target = supplierAt T S k K.target →
      Together T S k K.target (k + 1) k := by
    intro hsame hsup
    rw [Together, Apart, hsame, hsup]
    exact h
  by_cases hput : byteView T (stackBefore T S k) K k ≠ none ∧
      ((S.chainTop k).isSome ∨ K.target ∉ (stackBefore T S k).chainSeen)
  · obtain ⟨hv, hput⟩ := hput
    obtain ⟨w, hw⟩ := Option.ne_none_iff_exists'.1 hv
    obtain ⟨hsup, _, _, hseen⟩ := putsAt hK ha hw rfl hput
    refine Or.inr ⟨?_, Or.inl ⟨hsup, fun hin => hseen.2 ?_⟩⟩
    · rw [hstep]
      exact h.off.enterStep_right rfl
    · rcases h with halike | ⟨_, ⟨hs, _⟩ | ⟨p, hnext, ⟨_, hin'⟩ | ⟨_, _, hfold, hnot⟩⟩⟩
      · exact Or.inl ((halike.seen _ trivial).2 hin)
      · exact absurd (Spec.supplier_lt hs) (lt_irrefl _)
      · exact Or.inl hin'
      · -- the layer before it is folded away without it: then so is the layer itself
        refine absurd ?_ (hno w.1 w.2 hw).1
        obtain ⟨j, L, hj, hL, hb⟩ := hfold
        rw [Spec.getElem?_without] at hL
        rcases hj.with with hj' | ⟨_, hj'⟩
        · rw [past_prior hnext] at hj'
          exact absurd ⟨_, L, hj', hL, hb⟩ hnot
        · exact ⟨_, L, hj', hL, hb⟩
  · have hkeeps := keepsAt (T := T) hK (t := K.target) fun _ hv _ => by
      have hput' := not_or.1 (fun hp => hput ⟨hv, hp⟩)
      rw [Option.not_isSome_iff_eq_none, not_not] at hput'
      exact hput'
    refine hstill ?_ hkeeps.1
    rw [hstep, enterStep, if_pos ha]
    cases hw : byteView T (stackBefore T S k) K k with
    | none => rfl
    | some w =>
        have hput' := not_or.1 (fun hp => hput ⟨by simp [hw], hp⟩)
        rw [Option.not_isSome_iff_eq_none, not_not] at hput'
        exact enterView_over S.chainTop _ K k w.1 w.2 hput'.1 hput'.2

/-- **The runs are together at every layer** that both specs have. -/
theorem together (hskip : Skipped T S k) (hclean : SkipsCleanly T S k) {K : LayerSpec}
    (hK : S.layers[k]? = some K) :
    ∀ n ≤ (S.without k).layers.length, Together T S k K.target (past k n) n := by
  have hk := (List.getElem?_eq_some_iff.1 hK).1
  have hlen := length_without (S := S) hk
  -- the turn of the skipped layer itself is taken with the one before it
  have hturn : ∀ n, Together T S k K.target (past k n + 1) (n + 1) →
      Together T S k K.target (past k (n + 1)) (n + 1) := by
    intro n h
    by_cases hn : n + 1 = k
    · subst hn
      rw [past_of_lt n.lt_succ_self] at h
      rw [past_of_le le_rfl]
      exact together_skipped hskip hK h
    · have hpast : past k (n + 1) = past k n + 1 := by
        rw [past, past]
        split <;> split <;> omega
      rwa [hpast]
  intro n
  induction n with
  | zero =>
      intro _
      have hstart : Together T S k K.target 0 0 := Or.inl
        ⟨fun _ _ => rfl, fun _ _ => rfl, fun _ _ => Iff.rfl, fun _ => rfl, List.Forall₂.nil⟩
      rcases Nat.eq_zero_or_pos k with rfl | hpos
      · exact together_skipped hskip hK hstart
      · rwa [past_of_lt hpos]
  | succ n ih =>
      intro hn
      exact hturn n (together_step hclean hK (ih (by omega))
        (List.getElem?_eq_getElem (l := (S.without k).layers) (i := n) (by omega)))

/-- **A layer skipped cleanly costs only itself.** -/
theorem costsItself_of_skipsCleanly (hskip : Skipped T S k) (hclean : SkipsCleanly T S k) :
    CostsItself T S k := by
  obtain ⟨K, hK, _⟩ := id hskip
  have hk := (List.getElem?_eq_some_iff.1 hK).1
  have hlen := length_without (S := S) hk
  have htogether := together hskip hclean hK
  have hend := (htogether _ le_rfl).off
  rw [past_of_le (by omega), hlen, stackBefore_length, stackBefore_length] at hend
  refine ⟨?_, hend.mounts, fun i => ?_⟩
  · have hlayers := hend.layers
    rw [List.forall₂_eq_eq_eq] at hlayers
    exact hlayers.symm
  · rw [composedOver, composedOver, ← Spec.getElem?_without]
    cases hL : (S.without k).layers[i]? with
    | none => rfl
    | some L =>
        dsimp only
        split
        · rename_i hd
          exact together_parts hclean hk
            (htogether i (List.getElem?_eq_some_iff.1 hL).1.le) hL hd.1 hd.2
        · rfl

/-- **A skipped layer costs only itself exactly when it is skipped cleanly.** -/
theorem skipped_costs_itself (T : Tools V) (S : Spec) (k : ℕ) (hskip : Skipped T S k) :
    CostsItself T S k ↔ SkipsCleanly T S k :=
  ⟨skipsCleanly_of_costsItself, costsItself_of_skipsCleanly hskip⟩

/-! A file that does not open, and one that is no archive. -/

/-- Everything opens and composes but the file `lost`, and all but `notes` are archives. -/
def losingTools : Tools ℕ where
  openFile p := if p = some ["lost"] then none else some 1
  concat := List.sum
  compose d base := some (d + base)
  index _ p := if p = some ["notes"] then none else some ⟨memByteSource [] length_nil_lt, [], []⟩

/-- A zip, and a delta over it that does not open. -/
def zipAndLostDelta : Spec where
  layers :=
    [⟨.zip, some ["v1.zip"], [], [], [], false⟩, ⟨.delta, some ["lost"], [], [], [], false⟩]

/-- The delta is skipped, and the zip beneath it is gone with it. -/
theorem zipAndLostDelta_skipped :
    Skipped losingTools zipAndLostDelta 1 ∧ ¬ CostsItself losingTools zipAndLostDelta 1 := by
  have hnone : byteView losingTools (stackBefore losingTools zipAndLostDelta 1)
      ⟨.delta, some ["lost"], [], [], [], false⟩ 1 = none := rfl
  refine ⟨⟨_, rfl, rfl, fun v behind hview => ?_⟩, fun hcosts => ?_⟩
  · rw [hnone] at hview
    simp at hview
  · exact absurd (hcosts.mounts 0) (by decide)

/-- A zip, a file at `x` that is no archive, and a delta at `y` over it that does not open. -/
def zipAndNotes : Spec where
  layers :=
    [⟨.zip, some ["v1.zip"], [], [], [], false⟩, ⟨.zip, some ["notes"], ["x"], [], [], false⟩,
      ⟨.delta, some ["lost"], ["y"], [["x"]], [], false⟩]

/-- The file that is no archive costs only itself: its stream is at `x`, and nothing is applied to
it. -/
theorem zipAndNotes_costsItself : CostsItself losingTools zipAndNotes 1 := by
  have hnext : ∀ p, ¬ zipAndNotes.Next p 1 := by
    rintro p ⟨t, hlt, ⟨L, hL, _, rfl⟩, ⟨K, hK, _, ht⟩, _⟩
    obtain rfl : p = 0 := by omega
    obtain rfl := Option.some_inj.1 hL
    obtain rfl := Option.some_inj.1 hK
    exact absurd ht (by decide)
  have hlast : ¬ zipAndNotes.Folded 1 := by
    rintro ⟨g, L, ⟨t, hlt, ⟨K, hK, _, rfl⟩, ⟨G, hG, _, ht⟩, _⟩, _⟩
    have hlen := (List.getElem?_eq_some_iff.1 hG).1
    obtain rfl : g = 2 := by
      change g < 3 at hlen
      omega
    obtain rfl := Option.some_inj.1 hK
    obtain rfl := Option.some_inj.1 hG
    exact absurd ht (by decide)
  refine (skipped_costs_itself losingTools zipAndNotes 1
    ⟨_, rfl, rfl, fun v behind _ => ⟨hlast, rfl⟩⟩).2
    ⟨fun p hp => absurd hp (hnext p), fun j t => ?_, fun p hp => absurd hp (hnext p)⟩
  rintro ⟨L, hL, hd, hopen, -⟩
  -- the only delta does not open
  have hall : ∀ M ∈ zipAndNotes.layers, M.type = .delta →
      (losingTools.openFile M.source).isSome = false := by decide
  rw [hall L (List.mem_of_getElem? hL) hd] at hopen
  simp at hopen

end VidyaGodFS
