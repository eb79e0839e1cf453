/-
**A chain in place of one archive.**

A zip and the deltas built over it, one over the other, are one archive in the mount: the zip and
all deltas but the last are folded away, and nothing they do is seen at any other target.  So the
spec with a zip in place of the last delta, and the others left out, makes the same layers, where
the stream of that zip is indexed as the stream of the last delta is.

Main definitions:

* `Spec.HasChain` — a zip and deltas at one target, one over the other, and no other delta based
  there;
* `Spec.collapse` — the spec with one layer in place of the chain.

Main results:

* `base_of_next` — a member of the chain is composed over the stream of the one before it;
* `folded_collapse` — **the other layers are folded away alike.**
-/

import Mathlib.Data.List.Chain
import VidyaGodFS.Dropped
import VidyaGodFS.StackAlike

set_option relaxedAutoImplicit false
set_option autoImplicit false

namespace VidyaGodFS

open Posix

variable {V : Type} {T : Tools V} {S : Spec} {t : Path} {pre : List ℕ} {last : ℕ}

/-! ### The stream a member is composed over -/

/-- A layer that is no zip or delta at a target leaves the stream there alone. -/
theorem stackStep_base (chainTop : ℕ → Option ℕ) (st : InitState V) {L : LayerSpec} (n : ℕ)
    (h : ¬ (L.isArchive = true ∧ L.target = t)) :
    (stackStep T chainTop st (L, n)).baseByTarget t = st.baseByTarget t ∧
      (stackStep T chainTop st (L, n)).baseLayersByTarget t = st.baseLayersByTarget t := by
  obtain ⟨hbase, hlayers, _⟩ := stackStep_views T chainTop st L n
  rw [hbase, hlayers, enterStep]
  split
  · rename_i ha
    split
    · exact ⟨rfl, rfl⟩
    · rename_i view behind _
      obtain ⟨hb, hl, _⟩ := enterView_at chainTop st L n view behind t
      rw [hb, hl, if_neg fun hc => h ⟨ha, hc.1.symm⟩, if_neg fun hc => h ⟨ha, hc.1.symm⟩]
      exact ⟨rfl, rfl⟩
  · exact ⟨rfl, rfl⟩

/-- **The stream of a chain's member** is at its target when the next layer there comes. -/
theorem base_of_next {m g : ℕ} (hnext : S.Next m g) {L : LayerSpec} (hL : S.layers[m]? = some L)
    (hin : (S.chainTop m).isSome) {v : V} {behind : List ℕ}
    (hview : byteView T (stackBefore T S m) L m = some (v, behind)) :
    (stackBefore T S g).baseByTarget L.target = some v ∧
      (stackBefore T S g).baseLayersByTarget L.target = behind := by
  obtain ⟨t, hlt, ⟨L', hL', ha, rfl⟩, ⟨G, hG, _⟩, hbetween⟩ := hnext
  obtain rfl : L = L' := Option.some_inj.1 (hL.symm.trans hL')
  have hglt := (List.getElem?_eq_some_iff.1 hG).1
  have hall : ∀ n, m < n → n ≤ g → (stackBefore T S n).baseByTarget L.target = some v ∧
      (stackBefore T S n).baseLayersByTarget L.target = behind := by
    intro n hmn
    induction n, hmn using Nat.le_induction with
    | base =>
        intro _
        obtain ⟨hbase, hlayers, _⟩ := stackStep_views T S.chainTop (stackBefore T S m) L m
        obtain ⟨hb, hl, _⟩ :=
          enterView_at S.chainTop (stackBefore T S m) L m v behind L.target
        rw [stackBefore_succ hL, hbase, hlayers, enterStep, if_pos ha, hview]
        dsimp only
        rw [hb, hl, if_pos ⟨rfl, Or.inl hin⟩, if_pos ⟨rfl, Or.inl hin⟩]
        exact ⟨rfl, rfl⟩
    | succ n hmn ih =>
        intro hn
        have hB := List.getElem?_eq_getElem (l := S.layers) (i := n) (by omega)
        obtain ⟨hb, hl⟩ := stackStep_base S.chainTop (stackBefore T S n) n fun hat =>
          hbetween n (by omega) (by omega) ⟨_, hB, hat⟩
        rw [stackBefore_succ hB, hb, hl]
        exact ih (by omega)
  exact hall g hlt le_rfl

/-- A delta over its own target alone is composed over the stream there. -/
theorem byteView_of_base {st : InitState V} {L : LayerSpec} {n : ℕ} (hd : L.type = .delta)
    (hbases : L.bases = [t]) {v d w : V} {behind : List ℕ} (hbase : st.baseByTarget t = some v)
    (hlayers : st.baseLayersByTarget t = behind) (hopen : T.openFile L.source = some d)
    (hcompose : T.compose d v = some w) : byteView T st L n = some (w, n :: behind) := by
  have hparts : L.bases.mapM st.baseByTarget = some [v] := by
    rw [hbases, List.mapM_cons, hbase]
    rfl
  rw [byteView, hopen]
  dsimp only
  rw [if_pos hd, hparts]
  dsimp only
  rw [Tools.joined, hcompose, hbases, List.flatMap_singleton, hlayers]

/-! ### Chains -/

namespace Spec

/-- **A chain at the target `t`**: a zip and the deltas built over it, one right after the other
there, the last of them `last`; and no other delta of the spec is based on the target. -/
structure HasChain (S : Spec) (t : Path) (pre : List ℕ) (last : ℕ) : Prop where
  consecutive : List.IsChain S.Next (pre ++ [last])
  zip : ∃ z L, pre.head? = some z ∧ S.layers[z]? = some L ∧ L.type = .zip ∧ L.target = t
  deltas : ∀ d ∈ (pre ++ [last]).tail, ∃ L, S.layers[d]? = some L ∧ L.type = .delta ∧
    L.target = t ∧ (L.baseTargets = [] ∨ L.baseTargets = [t])
  alone : ∀ j L, S.layers[j]? = some L → L.type = .delta → t ∈ L.bases →
    j ∈ (pre ++ [last]).tail

/-- The spec with `Z` in place of the chain. -/
def collapse (S : Spec) (pre : List ℕ) (last : ℕ) (Z : LayerSpec) : Spec where
  layers := (dropped pre S.layers).map fun x => if x.2 = last then Z else x.1

end Spec

theorem isChain_next {α : Type} {R : α → α → Prop} {l : List α} {x : α}
    (h : List.IsChain R (l ++ [x])) : ∀ m ∈ l, ∃ m' ∈ (l ++ [x]).tail, R m m' := by
  induction l with
  | nil => simp
  | cons a l ih =>
      rw [List.cons_append] at h
      intro m hm
      cases l with
      | nil =>
          obtain rfl : m = a := by simpa using hm
          obtain ⟨hr, _⟩ := List.isChain_cons_cons.1 h
          exact ⟨x, by simp, hr⟩
      | cons b l =>
          obtain ⟨hr, hrest⟩ := List.isChain_cons_cons.1 h
          rcases List.mem_cons.1 hm with rfl | hm
          · exact ⟨b, by simp, hr⟩
          · obtain ⟨m', hm', hr'⟩ := ih hrest m hm
            exact ⟨m', List.mem_of_mem_tail hm', hr'⟩

theorem isChain_previous {α : Type} {R : α → α → Prop} {l : List α} {x : α}
    (h : List.IsChain R (l ++ [x])) : ∀ g ∈ (l ++ [x]).tail, ∃ m ∈ l, R m g := by
  induction l with
  | nil => simp
  | cons a l ih =>
      rw [List.cons_append, List.tail_cons]
      rw [List.cons_append] at h
      intro g hg
      cases l with
      | nil =>
          obtain rfl : g = x := by simpa using hg
          exact ⟨a, by simp, (List.isChain_cons_cons.1 h).1⟩
      | cons b l =>
          obtain ⟨hr, hrest⟩ := List.isChain_cons_cons.1 h
          rcases List.mem_cons.1 hg with rfl | hg
          · exact ⟨a, by simp, hr⟩
          · obtain ⟨m, hm, hr'⟩ := ih hrest g hg
            exact ⟨m, List.mem_cons_of_mem _ hm, hr'⟩

namespace Spec.HasChain

theorem lt_last (h : S.HasChain t pre last) : ∀ m ∈ pre, m < last := by
  have hchain := h.consecutive
  clear h
  induction pre with
  | nil => simp
  | cons a pre ih =>
      rw [List.cons_append] at hchain
      intro m hm
      cases pre with
      | nil =>
          obtain rfl : m = a := by simpa using hm
          obtain ⟨⟨_, hlt, _⟩, _⟩ := List.isChain_cons_cons.1 hchain
          exact hlt
      | cons b pre =>
          obtain ⟨⟨_, hlt, _⟩, hrest⟩ := List.isChain_cons_cons.1 hchain
          rcases List.mem_cons.1 hm with rfl | hm
          · exact hlt.trans (ih hrest b List.mem_cons_self)
          · exact ih hrest m hm

theorem last_notMem (h : S.HasChain t pre last) : last ∉ pre :=
  fun hm => lt_irrefl last (h.lt_last last hm)

theorem last_mem_tail (h : S.HasChain t pre last) : last ∈ (pre ++ [last]).tail := by
  obtain ⟨z, _, hz, _⟩ := h.zip
  cases pre with
  | nil => simp at hz
  | cons a pre => simp

/-- What is built over the target is in the chain. -/
theorem mem_tail_of_builtOver (h : S.HasChain t pre last) {j : ℕ} {L : LayerSpec}
    (hL : S.layers[j]? = some L) (hb : L.builtOverOwnTarget = true) (ht : L.target = t) :
    j ∈ (pre ++ [last]).tail := by
  refine h.alone j L hL (type_of_builtOverOwnTarget hb) ?_
  rw [LayerSpec.builtOverOwnTarget, Bool.and_eq_true, Bool.or_eq_true, List.isEmpty_iff,
    List.contains_iff_mem] at hb
  rw [LayerSpec.bases]
  split
  · rw [ht]
    exact List.mem_singleton_self t
  · rename_i hne
    exact ht ▸ hb.2.resolve_left hne

theorem mem_of_mem_tail {j : ℕ} (hj : j ∈ (pre ++ [last]).tail) : j ∈ pre ∨ j = last := by
  rcases List.mem_append.1 (List.mem_of_mem_tail hj) with hj | hj
  · exact Or.inl hj
  · exact Or.inr (List.mem_singleton.1 hj)

/-- The members are zip and delta layers at the target. -/
theorem archiveAt (h : S.HasChain t pre last) {m : ℕ} (hm : m ∈ pre ∨ m = last) :
    S.ArchiveAt t m := by
  have hd : ∀ d ∈ (pre ++ [last]).tail, S.ArchiveAt t d := by
    intro d hd
    obtain ⟨L, hL, htype, htarget, _⟩ := h.deltas d hd
    exact ⟨L, hL, by rw [LayerSpec.isArchive, htype]; rfl, htarget⟩
  rcases hm with hm | rfl
  · obtain ⟨z, L, hz, hL, htype, htarget⟩ := h.zip
    cases pre with
    | nil => simp at hm
    | cons a pre =>
        obtain rfl : a = z := by simpa using hz
        rcases List.mem_cons.1 hm with rfl | hm
        · exact ⟨L, hL, by rw [LayerSpec.isArchive, htype]; rfl, htarget⟩
        · exact hd m (List.mem_append_left _ hm)
  · exact hd m h.last_mem_tail

/-- All members but the last are folded away. -/
theorem folded (h : S.HasChain t pre last) {m : ℕ} (hm : m ∈ pre) : S.Folded m := by
  obtain ⟨m', hm', hnext⟩ := isChain_next h.consecutive m hm
  obtain ⟨L, hL, htype, htarget, hbases⟩ := h.deltas m' hm'
  refine ⟨m', L, hnext, hL, ?_⟩
  rw [LayerSpec.builtOverOwnTarget, htype]
  rcases hbases with hb | hb
  · simp [hb]
  · simp [hb, htarget]

/-- Nothing else is folded away there. -/
theorem target_ne_of_folded (h : S.HasChain t pre last) {m g : ℕ} (hm : m ∉ pre)
    (hnext : S.Next m g) {G : LayerSpec} (hG : S.layers[g]? = some G)
    (hb : G.builtOverOwnTarget = true) : G.target ≠ t := by
  intro ht
  obtain ⟨m', hm', hnext'⟩ :=
    isChain_previous h.consecutive g (h.mem_tail_of_builtOver hG hb ht)
  exact hm (Spec.Next.unique_left S hnext hnext' ▸ hm')

/-- The last member is not folded away. -/
theorem last_not_folded (h : S.HasChain t pre last) : ¬ S.Folded last := by
  rintro ⟨g, G, hnext, hG, hb⟩
  obtain ⟨L, hL, _, hLt⟩ := h.archiveAt (Or.inr rfl)
  obtain ⟨_, _, ⟨K, hK, _, rfl⟩, ⟨G', hG', _, hGt⟩, _⟩ := id hnext
  obtain rfl : L = K := Option.some_inj.1 (hL.symm.trans hK)
  obtain rfl : G = G' := Option.some_inj.1 (hG.symm.trans hG')
  exact h.target_ne_of_folded h.last_notMem hnext hG hb (hGt.trans hLt)

end Spec.HasChain

/-! ### The spec with one layer in place of the chain -/

section Collapse

variable {Z : LayerSpec}

theorem getElem?_collapse (i : ℕ) : (S.collapse pre last Z).layers[i]?
    = (S.layers[keptAt pre i]?).map fun L => if keptAt pre i = last then Z else L := by
  rw [Spec.collapse, List.getElem?_map, getElem?_dropped, Option.map_map]
  rfl

theorem length_collapse :
    (S.collapse pre last Z).layers.length = keptBefore pre S.layers.length := by
  rw [Spec.collapse, List.length_map, length_dropped]

/-- A layer that is not of the chain. -/
theorem getElem?_collapse_of_ne {i : ℕ} (hi : keptAt pre i ≠ last) :
    (S.collapse pre last Z).layers[i]? = S.layers[keptAt pre i]? := by
  rw [getElem?_collapse]
  simp [hi]

theorem archiveAt_collapse (h : S.HasChain t pre last) (hz : Z.type = .zip) (ht : Z.target = t)
    {u : Path} {i : ℕ} :
    (S.collapse pre last Z).ArchiveAt u i ↔ S.ArchiveAt u (keptAt pre i) := by
  by_cases hi : keptAt pre i = last
  · obtain ⟨L, hL, ha, htarget⟩ := h.archiveAt (Or.inr rfl)
    have hget : (S.collapse pre last Z).layers[i]? = some Z := by
      rw [getElem?_collapse, hi, hL]
      simp
    have hza : Z.isArchive = true := by rw [LayerSpec.isArchive, hz]; rfl
    rw [Spec.ArchiveAt, Spec.ArchiveAt, hget, hi, hL]
    simp [ha, htarget, ht, hza]
  · rw [Spec.ArchiveAt, Spec.ArchiveAt, getElem?_collapse_of_ne hi]

/-- Two layers at another target follow one another in both specs or in neither. -/
theorem next_collapse (h : S.HasChain t pre last) (hz : Z.type = .zip) (ht : Z.target = t)
    {i j : ℕ} {G : LayerSpec} (hG : S.layers[keptAt pre j]? = some G) (hne : G.target ≠ t) :
    (S.collapse pre last Z).Next i j ↔ S.Next (keptAt pre i) (keptAt pre j) := by
  constructor
  · rintro ⟨u, hlt, hi, hj, hbetween⟩
    rw [archiveAt_collapse h hz ht] at hi hj
    refine ⟨u, keptAt_strictMono hlt, hi, hj, ?_⟩
    intro m him hmj hat
    have hm : m ∉ pre := by
      intro hm
      obtain ⟨B, hB, _, hBt⟩ := h.archiveAt (Or.inl hm)
      obtain ⟨B', hB', _, rfl⟩ := hat
      obtain ⟨G', hG', _, hGt⟩ := hj
      obtain rfl : B = B' := Option.some_inj.1 (hB.symm.trans hB')
      obtain rfl : G = G' := Option.some_inj.1 (hG.symm.trans hG')
      exact hne (hGt.trans hBt)
    obtain ⟨m', rfl⟩ := exists_keptAt hm
    exact hbetween m' (keptAt_strictMono.lt_iff_lt.1 him) (keptAt_strictMono.lt_iff_lt.1 hmj)
      ((archiveAt_collapse h hz ht).2 hat)
  · rintro ⟨u, hlt, hi, hj, hbetween⟩
    refine ⟨u, keptAt_strictMono.lt_iff_lt.1 hlt, (archiveAt_collapse h hz ht).2 hi,
      (archiveAt_collapse h hz ht).2 hj, ?_⟩
    intro m him hmj hat
    exact hbetween _ (keptAt_strictMono him) (keptAt_strictMono hmj)
      ((archiveAt_collapse h hz ht).1 hat)

/-- **The other layers are folded away alike.** -/
theorem folded_collapse (h : S.HasChain t pre last) (hz : Z.type = .zip) (ht : Z.target = t)
    (i : ℕ) : (S.collapse pre last Z).Folded i ↔ S.Folded (keptAt pre i) := by
  constructor
  · rintro ⟨j, G, hnext, hG, hb⟩
    have hj : keptAt pre j ≠ last := by
      intro hj
      obtain ⟨L, hL, _⟩ := h.archiveAt (Or.inr rfl)
      rw [getElem?_collapse, hj, hL, Option.map_some, if_pos rfl, Option.some_inj] at hG
      have hd := type_of_builtOverOwnTarget hb
      rw [← hG, hz] at hd
      simp at hd
    rw [getElem?_collapse_of_ne hj] at hG
    have hne : G.target ≠ t := fun hGt =>
      (Spec.HasChain.mem_of_mem_tail (h.mem_tail_of_builtOver hG hb hGt)).elim (keptAt_notMem j) hj
    exact ⟨_, G, (next_collapse h hz ht hG hne).1 hnext, hG, hb⟩
  · rintro ⟨g, G, hnext, hG, hb⟩
    have hne := h.target_ne_of_folded (keptAt_notMem i) hnext hG hb
    have hnot : ¬ (g ∈ pre ∨ g = last) := by
      intro hg
      obtain ⟨B, hB, _, hBt⟩ := h.archiveAt hg
      obtain rfl : B = G := Option.some_inj.1 (hB.symm.trans hG)
      exact hne hBt
    obtain ⟨j, rfl⟩ := exists_keptAt fun hg => hnot (Or.inl hg)
    refine ⟨j, G, (next_collapse h hz ht hG hne).2 hnext, ?_, hb⟩
    rw [getElem?_collapse_of_ne fun hg => hnot (Or.inr hg)]
    exact hG

theorem likeTops_collapse (h : S.HasChain t pre last) (hz : Z.type = .zip) (ht : Z.target = t)
    {i : ℕ} (hi : keptAt pre i ≠ last) {L : LayerSpec} (hL : S.layers[keptAt pre i]? = some L)
    (ha : L.isArchive = true) :
    LikeTops (S.collapse pre last Z).chainTop S.chainTop i (keptAt pre i) := by
  have hL' : (S.collapse pre last Z).layers[i]? = some L := by
    rw [getElem?_collapse_of_ne hi, hL]
  have hfold := folded_collapse h hz ht i
  constructor
  · rw [S.chainTop_isSome_iff hL ha, (S.collapse pre last Z).chainTop_isSome_iff hL' ha, hfold]
  · rw [S.chainTop_ne_iff hL ha, (S.collapse pre last Z).chainTop_ne_iff hL' ha, hfold]

end Collapse

end VidyaGodFS
