/-
**Which archives surface, and over what a delta is composed.**

The loop keeps, for every target, the stream that is there and the layers behind it.  Where all zip
and delta layers open and compose, this is told by the spec alone: the stream at a target is that of
the last layer there that *provides* it, a member of a chain, or a zip with no chain at or below it.
So a delta built over its own target is composed over the layer before it there, which it has folded
into its chain.

Main definitions:

* `Spec.Provides`, `Spec.ViewAt` — which layer's stream is at a target;
* `AllOpen` — every zip and delta layer opens, composes, and is an archive unless it is folded away;
* `Views` — the streams the loop keeps are those of the layers the spec tells.

Main results:

* `stackBefore_views` — **the loop keeps the streams the spec tells**;
* `mountedAs_eq_nil_iff` — a layer does not surface exactly when it is folded away;
* `archives_surface` — both, for every spec whose layers open and compose.
-/

import VidyaGodFS.Stack

set_option relaxedAutoImplicit false
set_option autoImplicit false

namespace VidyaGodFS

open Posix

variable {V : Type} {T : Tools V} {S : Spec}

/-! ### One layer of the loop -/

theorem stackBefore_succ {n : ℕ} {L : LayerSpec} (hL : S.layers[n]? = some L) :
    stackBefore T S (n + 1) = stackStep T S.chainTop (stackBefore T S n) (L, n) := by
  have hget : S.layers.zipIdx[n]? = some (L, n) := by
    rw [List.getElem?_zipIdx, hL, Option.map_some, Nat.zero_add]
  rw [stackBefore, List.take_add_one, hget, List.foldl_append]
  rfl

theorem stackBefore_length : stackBefore T S S.layers.length = stackRun T S := by
  rw [stackBefore, List.take_of_length_le List.length_zipIdx.le, stackRun]

section Step

variable (T) (chainTop : ℕ → Option ℕ) (st : InitState V) (L : LayerSpec) (gi : ℕ)

/-- A stream that becomes the one at its target. -/
theorem enterView_of (view : V) (behind : List ℕ)
    (h : (chainTop gi).isSome ∨ L.target ∉ st.chainSeen) :
    enterView chainTop st L gi view behind =
      { st with
        baseByTarget := Function.update st.baseByTarget L.target (some view)
        baseLayersByTarget := Function.update st.baseLayersByTarget L.target behind
        chainSeen := if (chainTop gi).isSome then L.target :: st.chainSeen else st.chainSeen } := by
  rw [enterView]
  cases hc : (chainTop gi).isSome with
  | true => simp
  | false => simp [h.resolve_left (by simp [hc])]

/-- The stream of a zip over a chain. -/
theorem enterView_over (view : V) (behind : List ℕ) (hc : chainTop gi = none)
    (h : L.target ∈ st.chainSeen) : enterView chainTop st L gi view behind = st := by
  simp [enterView, hc, h]

theorem enterView_mounts (view : V) (behind : List ℕ) :
    (enterView chainTop st L gi view behind).mountedAs = st.mountedAs ∧
      (enterView chainTop st L gi view behind).layers = st.layers := by
  by_cases h : (chainTop gi).isSome ∨ L.target ∉ st.chainSeen
  · rw [enterView_of chainTop st L gi view behind h]
    exact ⟨rfl, rfl⟩
  · rw [not_or, not_not] at h
    rw [enterView_over chainTop st L gi view behind (by simpa using h.1) h.2]
    exact ⟨rfl, rfl⟩

/-- The stream of a layer enters, before the layer surfaces. -/
def enterStep : InitState V :=
  if L.isArchive then
    match byteView T st L gi with
    | none => st
    | some (view, behind) => enterView chainTop st L gi view behind
  else st

/-- The archive that a layer surfaces as, if it does. -/
def surfacesAs : Option LayerType :=
  match L.type with
  | .dir => some .dir
  | .file => some .file
  | _ =>
      match byteView T st L gi with
      | none => none
      | some (view, _) =>
          if (chainTop gi).isSome ∧ chainTop gi ≠ some gi then none
          else (T.index view L.source).map .zip

/-- What a delta hides: the layers behind it. -/
def hides : List ℕ :=
  if L.type = .delta then ((byteView T st L gi).map Prod.snd).getD [] else []

/-- **One layer of the spec**: its stream enters, it surfaces unless it is folded away or skipped,
and what is behind it is hidden. -/
theorem stackStep_eq : stackStep T chainTop st (L, gi) =
    match surfacesAs T chainTop st L gi with
    | none => enterStep T chainTop st L gi
    | some type =>
        hideBases (surface (enterStep T chainTop st L gi) L gi type) gi (hides T st L gi) := by
  have hnil : ∀ st : InitState V, hideBases st gi [] = st := fun st => rfl
  rw [stackStep, surfacesAs, enterStep, hides]
  cases htype : L.type with
  | dir => simp [LayerSpec.isArchive, htype, hnil]
  | file => simp [LayerSpec.isArchive, htype, hnil]
  | zip =>
      rcases hview : byteView T st L gi with _ | ⟨view, behind⟩
      · simp [LayerSpec.isArchive, htype]
      · dsimp only
        split
        · simp [LayerSpec.isArchive, htype]
        · rcases T.index view L.source with _ | Z
          · simp [LayerSpec.isArchive, htype]
          · simp [LayerSpec.isArchive, htype, hnil]
  | delta =>
      rcases hview : byteView T st L gi with _ | ⟨view, behind⟩
      · simp [LayerSpec.isArchive, htype]
      · dsimp only
        split
        · simp [LayerSpec.isArchive, htype]
        · rcases T.index view L.source with _ | Z
          · simp [LayerSpec.isArchive, htype]
          · simp [LayerSpec.isArchive, htype]

/-- Surfacing and hiding leave the streams alone. -/
theorem stackStep_views :
    (stackStep T chainTop st (L, gi)).baseByTarget = (enterStep T chainTop st L gi).baseByTarget ∧
    (stackStep T chainTop st (L, gi)).baseLayersByTarget
      = (enterStep T chainTop st L gi).baseLayersByTarget ∧
    (stackStep T chainTop st (L, gi)).chainSeen = (enterStep T chainTop st L gi).chainSeen := by
  rw [stackStep_eq]
  split
  · exact ⟨rfl, rfl, rfl⟩
  · exact ⟨rfl, rfl, rfl⟩

theorem enterStep_mounts :
    (enterStep T chainTop st L gi).mountedAs = st.mountedAs ∧
      (enterStep T chainTop st L gi).layers = st.layers := by
  rw [enterStep]
  split
  · split
    · exact ⟨rfl, rfl⟩
    · exact enterView_mounts chainTop st L gi _ _
  · exact ⟨rfl, rfl⟩

/-- What a layer surfaces as. -/
theorem stackStep_mountedAs : (stackStep T chainTop st (L, gi)).mountedAs =
    if (surfacesAs T chainTop st L gi).isSome then
      Function.update st.mountedAs gi (List.range' st.layers.length L.mounts.length)
    else st.mountedAs := by
  obtain ⟨hmounts, hlayers⟩ := enterStep_mounts T chainTop st L gi
  rw [stackStep_eq]
  cases surfacesAs T chainTop st L gi with
  | none => exact hmounts
  | some type =>
      change Function.update (enterStep T chainTop st L gi).mountedAs gi
        (List.range' (enterStep T chainTop st L gi).layers.length L.mounts.length) = _
      rw [hmounts, hlayers]
      rfl

end Step

/-! ### The streams at the targets -/

namespace Spec

variable (S : Spec)

/-- **The layer provides the stream at its target** `t`: it is in a chain, or it is a zip with no
chain at the target up to it. -/
def Provides (t : Path) (j : ℕ) : Prop :=
  S.ArchiveAt t j ∧
    ((S.chainTop j).isSome ∨ ∀ i ≤ j, S.ArchiveAt t i → S.chainTop i = none)

/-- The stream at `t` is that of layer `j` when the loop comes to layer `n`. -/
def ViewAt (n : ℕ) (t : Path) (j : ℕ) : Prop :=
  j < n ∧ S.Provides t j ∧ ∀ i, j < i → i < n → ¬ S.Provides t i

theorem ViewAt.unique {n : ℕ} {t : Path} {j j' : ℕ} (h : S.ViewAt n t j) (h' : S.ViewAt n t j') :
    j = j' := by
  obtain ⟨hj, hp, hlast⟩ := h
  obtain ⟨hj', hp', hlast'⟩ := h'
  rcases Nat.lt_trichotomy j j' with hcmp | hcmp | hcmp
  · exact absurd hp' (hlast j' hcmp hj')
  · exact hcmp
  · exact absurd hp (hlast' j hcmp hj)

end Spec

/-- The stream of layer `j` is `v`, and `behind` are the layers behind it. -/
def ViewOf (T : Tools V) (S : Spec) (j : ℕ) (v : V) (behind : List ℕ) : Prop :=
  ∃ L, S.layers[j]? = some L ∧ byteView T (stackBefore T S j) L j = some (v, behind)

/-- **Every zip and delta layer opens and composes**, and is an archive unless it is folded away. -/
def AllOpen (T : Tools V) (S : Spec) : Prop :=
  ∀ (j : ℕ) (L : LayerSpec), S.layers[j]? = some L → L.isArchive = true →
    ∃ v behind, byteView T (stackBefore T S j) L j = some (v, behind) ∧
      (¬ S.Folded j → (T.index v L.source).isSome)

/-- **The streams the loop keeps** when it comes to layer `n` are those of the layers that the spec
tells. -/
structure Views (T : Tools V) (S : Spec) (n : ℕ) (st : InitState V) : Prop where
  seen : ∀ t, t ∈ st.chainSeen ↔ ∃ j < n, S.ArchiveAt t j ∧ (S.chainTop j).isSome
  view : ∀ t j, S.ViewAt n t j → ∃ v behind, ViewOf T S j v behind ∧
    st.baseByTarget t = some v ∧ st.baseLayersByTarget t = behind
  noView : ∀ t, (∀ j < n, ¬ S.Provides t j) →
    st.baseByTarget t = none ∧ st.baseLayersByTarget t = []

theorem views_start : Views T S 0 InitState.start := by
  refine ⟨by simp [InitState.start], ?_, fun _ _ => ⟨rfl, rfl⟩⟩
  rintro t j ⟨hj, _⟩
  simp at hj

/-- A layer that does not provide the stream at `t` leaves what is there. -/
theorem Views.keep {n : ℕ} {st st' : InitState V} (h : Views T S n st) {t : Path}
    (hp : ¬ S.Provides t n) (hbase : st'.baseByTarget t = st.baseByTarget t)
    (hlayers : st'.baseLayersByTarget t = st.baseLayersByTarget t) :
    (∀ j, S.ViewAt (n + 1) t j → ∃ v behind, ViewOf T S j v behind ∧
        st'.baseByTarget t = some v ∧ st'.baseLayersByTarget t = behind) ∧
      ((∀ j < n + 1, ¬ S.Provides t j) →
        st'.baseByTarget t = none ∧ st'.baseLayersByTarget t = []) := by
  rw [hbase, hlayers]
  constructor
  · rintro j ⟨hj, hpj, hlast⟩
    have hne : j ≠ n := by
      rintro rfl
      exact hp hpj
    exact h.view t j ⟨by omega, hpj, fun i hi hin => hlast i hi (by omega)⟩
  · exact fun hnone => h.noView t fun j hj => hnone j (by omega)

theorem archiveAt_iff {n : ℕ} {L : LayerSpec} (hL : S.layers[n]? = some L) {t : Path} :
    S.ArchiveAt t n ↔ L.isArchive = true ∧ L.target = t := by
  constructor
  · rintro ⟨B, hB, hB'⟩
    obtain rfl : L = B := Option.some_inj.1 (hL.symm.trans hB)
    exact hB'
  · exact fun hB => ⟨L, hL, hB⟩

section

variable {n : ℕ} {st : InitState V} (h : Views T S n st) {L : LayerSpec}
  (hL : S.layers[n]? = some L)
include h hL

/-- The targets with a chain, after an archive layer. -/
theorem Views.seen_archive (ha : L.isArchive = true) (t : Path) :
    t ∈ (if (S.chainTop n).isSome then L.target :: st.chainSeen else st.chainSeen) ↔
      ∃ j < n + 1, S.ArchiveAt t j ∧ (S.chainTop j).isSome := by
  have hmem : t ∈ (if (S.chainTop n).isSome then L.target :: st.chainSeen else st.chainSeen) ↔
      (S.ArchiveAt t n ∧ (S.chainTop n).isSome) ∨ t ∈ st.chainSeen := by
    rw [archiveAt_iff hL]
    split
    · rename_i hc
      simp [ha, hc, eq_comm]
    · rename_i hc
      simp [hc]
  rw [hmem, h.seen]
  constructor
  · rintro (hn | ⟨j, hj, hj'⟩)
    · exact ⟨n, by omega, hn⟩
    · exact ⟨j, by omega, hj'⟩
  · rintro ⟨j, hj, hj'⟩
    rcases Nat.lt_succ_iff_lt_or_eq.1 hj with hlt | rfl
    · exact Or.inr ⟨j, hlt, hj'⟩
    · exact Or.inl hj'

/-- A layer that is none of the archives leaves the streams. -/
theorem Views.step_plain (ha : L.isArchive = false) :
    Views T S (n + 1) (stackStep T S.chainTop st (L, n)) := by
  obtain ⟨hbase, hlayers, hseen⟩ := stackStep_views T S.chainTop st L n
  have hnot : ∀ t, ¬ S.ArchiveAt t n := fun t hn => by
    rw [archiveAt_iff hL, ha] at hn
    simp at hn
  rw [enterStep, if_neg (by simp [ha])] at hbase hlayers hseen
  have hkeep := fun t => h.keep (fun hp => hnot t hp.1) (congrFun hbase t) (congrFun hlayers t)
  refine ⟨fun t => ?_, fun t => (hkeep t).1, fun t => (hkeep t).2⟩
  rw [hseen, h.seen]
  constructor
  · rintro ⟨j, hj, hj'⟩
    exact ⟨j, by omega, hj'⟩
  · rintro ⟨j, hj, hj'⟩
    have hne : j ≠ n := by
      rintro rfl
      exact hnot t hj'.1
    exact ⟨j, by omega, hj'⟩

/-- An archive provides the stream at its target, if it is the top of a chain or there is no chain
there yet. -/
theorem Views.provides (ha : L.isArchive = true)
    (hprov : (S.chainTop n).isSome ∨ L.target ∉ st.chainSeen) : S.Provides L.target n := by
  refine ⟨(archiveAt_iff hL).2 ⟨ha, rfl⟩, ?_⟩
  rcases hc : S.chainTop n with _ | top
  · refine Or.inr fun i hi hati => ?_
    rcases Nat.lt_or_eq_of_le hi with hlt | rfl
    · have hnot := fun hsome => hprov.resolve_left (by simp [hc])
        ((h.seen _).2 ⟨i, hlt, hati, hsome⟩)
      simpa using hnot
    · exact hc
  · exact Or.inl rfl

/-- And a zip over a chain provides none. -/
theorem Views.not_provides (hnone : S.chainTop n = none) (hin : L.target ∈ st.chainSeen) (t : Path) :
    ¬ S.Provides t n := by
  rintro ⟨hatn, hsome | hfree⟩
  · simp [hnone] at hsome
  · obtain rfl := ((archiveAt_iff hL).1 hatn).2
    obtain ⟨j, hj, hatj, hsome⟩ := (h.seen _).1 hin
    rw [hfree j hj.le hatj] at hsome
    simp at hsome

/-- **One layer keeps the streams right.** -/
theorem Views.step (hst : st = stackBefore T S n) (hopen : AllOpen T S) :
    Views T S (n + 1) (stackStep T S.chainTop st (L, n)) := by
  cases ha : L.isArchive with
  | false => exact h.step_plain hL ha
  | true =>
      obtain ⟨hbase, hlayers, hseen⟩ := stackStep_views T S.chainTop st L n
      obtain ⟨v, behind, hview, _⟩ := hopen n L hL ha
      rw [← hst] at hview
      rw [enterStep, if_pos ha, hview] at hbase hlayers hseen
      dsimp only at hbase hlayers hseen
      by_cases hprov : (S.chainTop n).isSome ∨ L.target ∉ st.chainSeen
      · -- the stream becomes the one at the target
        rw [enterView_of _ st L n v behind hprov] at hbase hlayers hseen
        have hp := h.provides hL ha hprov
        have hkeep := fun t (ht : L.target ≠ t) =>
          h.keep (fun hp => ht ((archiveAt_iff hL).1 hp.1).2)
            (by rw [hbase]; exact Function.update_of_ne (Ne.symm ht) ..)
            (by rw [hlayers]; exact Function.update_of_ne (Ne.symm ht) ..)
        refine ⟨fun t => by rw [hseen]; exact h.seen_archive hL ha t, fun t j hj => ?_,
          fun t hnone => (hkeep t ?_).2 hnone⟩
        · by_cases ht : L.target = t
          · subst ht
            obtain rfl : j = n := Spec.ViewAt.unique S hj ⟨by omega, hp, fun i hi hin => by omega⟩
            refine ⟨v, behind, ⟨L, hL, hst ▸ hview⟩, ?_, ?_⟩
            · rw [hbase]
              exact Function.update_self ..
            · rw [hlayers]
              exact Function.update_self ..
          · exact (hkeep t ht).1 j hj
        · rintro rfl
          exact hnone n (by omega) hp
      · -- a zip over a chain
        rw [not_or, not_not] at hprov
        have hnone : S.chainTop n = none := by simpa using hprov.1
        rw [enterView_over _ st L n v behind hnone hprov.2] at hbase hlayers hseen
        have hkeep := fun t =>
          h.keep (h.not_provides hL hnone hprov.2 t) (congrFun hbase t) (congrFun hlayers t)
        refine ⟨fun t => ?_, fun t => (hkeep t).1, fun t => (hkeep t).2⟩
        rw [hseen, ← h.seen_archive hL ha t, hnone]
        rfl

end

/-- **The loop keeps the streams the spec tells**, where all layers open and compose. -/
theorem stackBefore_views (hopen : AllOpen T S) :
    ∀ n ≤ S.layers.length, Views T S n (stackBefore T S n) := by
  intro n
  induction n with
  | zero => exact fun _ => views_start
  | succ n ih =>
      intro hn
      have hL := List.getElem?_eq_getElem (l := S.layers) (i := n) (by omega)
      rw [stackBefore_succ hL]
      exact (ih (by omega)).step hL rfl hopen

/-! ### What surfaces -/

/-- A layer surfaces as what `surfacesAs` tells in the state the loop comes to it in, and nothing
after it changes that. -/
theorem mountedAs_stackRun {j : ℕ} {L : LayerSpec} (hL : S.layers[j]? = some L) :
    (stackRun T S).mountedAs j =
      if (surfacesAs T S.chainTop (stackBefore T S j) L j).isSome then
        List.range' (stackBefore T S j).layers.length L.mounts.length
      else [] := by
  have hj := (List.getElem?_eq_some_iff.1 hL).1
  -- before its turn a layer has not surfaced
  have hbefore : ∀ n ≤ j, (stackBefore T S n).mountedAs j = [] := by
    intro n
    induction n with
    | zero => exact fun _ => rfl
    | succ n ih =>
        intro hn
        have hB := List.getElem?_eq_getElem (l := S.layers) (i := n) (by omega)
        rw [stackBefore_succ hB, stackStep_mountedAs]
        split
        · rw [Function.update_of_ne (by omega)]
          exact ih (by omega)
        · exact ih (by omega)
  have hafter : ∀ n, j < n → n ≤ S.layers.length → (stackBefore T S n).mountedAs j =
      if (surfacesAs T S.chainTop (stackBefore T S j) L j).isSome then
        List.range' (stackBefore T S j).layers.length L.mounts.length
      else [] := by
    intro n
    induction n with
    | zero => exact fun h => by omega
    | succ n ih =>
        intro hjn hn
        have hB := List.getElem?_eq_getElem (l := S.layers) (i := n) (by omega)
        rw [stackBefore_succ hB, stackStep_mountedAs]
        rcases Nat.lt_succ_iff_lt_or_eq.1 hjn with hlt | rfl
        · split
          · rw [Function.update_of_ne (by omega)]
            exact ih hlt (by omega)
          · exact ih hlt (by omega)
        · obtain rfl : L = S.layers[j] := Option.some_inj.1 (hL.symm.trans hB)
          split
          · rw [Function.update_self]
          · exact hbefore j le_rfl
  rw [← stackBefore_length]
  exact hafter _ hj le_rfl

theorem type_of_isArchive {L : LayerSpec} (h : L.isArchive = true) :
    L.type = .zip ∨ L.type = .delta := by
  rw [LayerSpec.isArchive, Bool.or_eq_true, decide_eq_true_eq, decide_eq_true_eq] at h
  exact h

/-- What a zip or delta layer surfaces as. -/
theorem surfacesAs_archive {chainTop : ℕ → Option ℕ} {st : InitState V} {L : LayerSpec} {gi : ℕ}
    (ha : L.isArchive = true) : surfacesAs T chainTop st L gi =
      match byteView T st L gi with
      | none => none
      | some (view, _) =>
          if (chainTop gi).isSome ∧ chainTop gi ≠ some gi then none
          else (T.index view L.source).map .zip := by
  rw [surfacesAs]
  rcases type_of_isArchive ha with h | h <;> rw [h]

/-- A zip or delta layer with a stream, which is an archive where that is needed, does not surface
exactly when it is folded away. -/
theorem mountedAs_eq_nil_of_view {j : ℕ} {L : LayerSpec} (hL : S.layers[j]? = some L)
    (ha : L.isArchive = true) {v : V} {behind : List ℕ}
    (hview : byteView T (stackBefore T S j) L j = some (v, behind))
    (hindex : ¬ S.Folded j → (T.index v L.source).isSome) :
    (stackRun T S).mountedAs j = [] ↔ S.Folded j := by
  have hmade : (surfacesAs T S.chainTop (stackBefore T S j) L j).isSome ↔ ¬ S.Folded j := by
    rw [surfacesAs_archive ha, hview]
    dsimp only
    split
    · rename_i hc
      simpa using (S.chainTop_ne_iff hL ha).1 hc
    · rename_i hc
      have hnot : ¬ S.Folded j := fun hf => hc ((S.chainTop_ne_iff hL ha).2 hf)
      simpa [hnot] using hindex hnot
  rw [mountedAs_stackRun hL]
  split
  · rename_i hs
    refine iff_of_false ?_ (hmade.1 hs)
    rw [List.range'_eq_nil_iff, List.length_eq_zero_iff]
    exact L.mounts_ne_nil
  · rename_i hs
    exact iff_of_true rfl (by rwa [hmade, not_not] at hs)

/-- **A zip or delta layer does not surface exactly when it is folded away.** -/
theorem mountedAs_eq_nil_iff (hopen : AllOpen T S) {j : ℕ} {L : LayerSpec}
    (hL : S.layers[j]? = some L) (ha : L.isArchive = true) :
    (stackRun T S).mountedAs j = [] ↔ S.Folded j := by
  obtain ⟨v, behind, hview, hindex⟩ := hopen j L hL ha
  exact mountedAs_eq_nil_of_view hL ha hview hindex

/-! ### What a delta is composed over -/

theorem mapM_some_getElem {α β : Type} {f : α → Option β} {l : List α} {l' : List β}
    (h : l.mapM f = some l') {i : ℕ} {a : α} (ha : l[i]? = some a) :
    ∃ b, f a = some b ∧ l'[i]? = some b := by
  induction l generalizing l' i with
  | nil => simp at ha
  | cons x l ih =>
      rw [List.mapM_cons] at h
      rcases hx : f x with _ | b
      · simp [hx] at h
      · rcases hl : l.mapM f with _ | bs
        · simp [hx, hl] at h
        · obtain rfl : b :: bs = l' := by simpa [hx, hl] using h
          cases i with
          | zero =>
              obtain rfl : x = a := by simpa using ha
              exact ⟨b, hx, rfl⟩
          | succ i => exact ih hl ha

/-- The stream of a delta is composed over the streams at its base targets. -/
theorem byteView_delta {st : InitState V} {L : LayerSpec} {gi : ℕ} {view : V} {behind : List ℕ}
    (hd : L.type = .delta) (h : byteView T st L gi = some (view, behind)) :
    ∃ src parts, T.openFile L.source = some src ∧ L.bases.mapM st.baseByTarget = some parts ∧
      T.compose src (T.joined parts) = some view ∧
      behind = gi :: L.bases.flatMap st.baseLayersByTarget := by
  rw [byteView] at h
  cases hsrc : T.openFile L.source with
  | none => simp [hsrc] at h
  | some src =>
      rw [hsrc] at h
      dsimp only at h
      rw [if_pos hd] at h
      cases hparts : L.bases.mapM st.baseByTarget with
      | none => simp [hparts] at h
      | some parts =>
          rw [hparts] at h
          dsimp only at h
          cases hview : T.compose src (T.joined parts) with
          | none => simp [hview] at h
          | some v =>
              rw [hview] at h
              obtain ⟨rfl, rfl⟩ :
                  v = view ∧ gi :: L.bases.flatMap st.baseLayersByTarget = behind := by
                simpa using h
              exact ⟨src, parts, rfl, rfl, hview, rfl⟩

/-- Where there is a layer of a target below `n`, there is a last one. -/
theorem Spec.exists_last {t : Path} {j n : ℕ} (hj : j < n) (h : S.ArchiveAt t j) :
    ∃ q < n, S.ArchiveAt t q ∧ ∀ i, q < i → i < n → ¬ S.ArchiveAt t i := by
  induction n with
  | zero => omega
  | succ n ih =>
      by_cases hn : S.ArchiveAt t n
      · exact ⟨n, by omega, hn, fun i hi hin => by omega⟩
      · have hne : j ≠ n := by
          rintro rfl
          exact hn h
        obtain ⟨q, hq, hat, hlast⟩ := ih (by omega)
        refine ⟨q, by omega, hat, fun i hi hin => ?_⟩
        rcases Nat.lt_succ_iff_lt_or_eq.1 hin with hlt | rfl
        · exact hlast i hi hlt
        · exact hn

/-- A delta built over its own target is composed over the layer before it there. -/
theorem composed_over_previous (hopen : AllOpen T S) {g : ℕ} {L : LayerSpec}
    (hL : S.layers[g]? = some L) (hb : L.builtOverOwnTarget = true) {v : V}
    (hv : (stackBefore T S g).baseByTarget L.target = some v) :
    ∃ q behind, S.Next q g ∧ S.chainTop q = S.chainTop g ∧ ViewOf T S q v behind := by
  have hg := (List.getElem?_eq_some_iff.1 hL).1
  have hviews := stackBefore_views hopen g hg.le
  have hag : S.ArchiveAt L.target g :=
    ⟨L, hL, by simp [LayerSpec.isArchive, type_of_builtOverOwnTarget hb], rfl⟩
  -- some layer provides the stream there
  obtain ⟨j, hj, hp⟩ : ∃ j < g, S.Provides L.target j := by
    by_contra hnone
    rw [(hviews.noView L.target fun j hj hp => hnone ⟨j, hj, hp⟩).1] at hv
    simp at hv
  obtain ⟨q, hq, hat, hlast⟩ := Spec.exists_last hj hp.1
  have hnext : S.Next q g := ⟨L.target, hq, hat, hag, hlast⟩
  -- the last layer there is folded away by the delta, so it is in a chain and provides the stream
  obtain ⟨Q, hQ, haQ, htQ⟩ := id hat
  have hsome := (S.chainTop_isSome_iff hQ haQ).2 (Or.inr ⟨g, L, hnext, hL, hb⟩)
  obtain ⟨v', behind, hview, hbase, _⟩ := hviews.view L.target q
    ⟨hq, ⟨hat, Or.inl hsome⟩, fun i hi hin hpi => hlast i hi hin hpi.1⟩
  obtain rfl : v' = v := Option.some_inj.1 (hbase.symm.trans hv)
  exact ⟨q, behind, hnext, (S.chainTop_next hnext hL hb).symm, hview⟩

/-- **Which archives surface, and over what a delta is composed.**  Where all zip and delta layers
open and compose, a zip or delta layer is left out exactly when the next one at its target is a
delta built over that target; and a delta built over its own target is composed, at that position
of its bases, over the stream of the zip or delta layer before it there, a member of its chain. -/
theorem archives_surface (T : Tools V) (S : Spec) (hopen : AllOpen T S) :
    (∀ (j : ℕ) (L : LayerSpec), S.layers[j]? = some L → L.isArchive = true →
      ((stackRun T S).mountedAs j = [] ↔ S.Folded j)) ∧
    ∀ (g : ℕ) (L : LayerSpec), S.layers[g]? = some L → L.builtOverOwnTarget = true →
      ∃ (src : V) (parts : List V) (view : V) (behind : List ℕ),
        T.openFile L.source = some src ∧
        L.bases.mapM (stackBefore T S g).baseByTarget = some parts ∧
        T.compose src (T.joined parts) = some view ∧ ViewOf T S g view behind ∧
        ∀ i : ℕ, L.bases[i]? = some L.target →
          ∃ (q : ℕ) (v : V) (b : List ℕ), S.Next q g ∧ S.chainTop q = S.chainTop g ∧
            ViewOf T S q v b ∧ parts[i]? = some v := by
  refine ⟨fun j L hL ha => mountedAs_eq_nil_iff hopen hL ha, ?_⟩
  intro g L hL hb
  have hd := type_of_builtOverOwnTarget hb
  obtain ⟨view, behind, hview, _⟩ := hopen g L hL (by simp [LayerSpec.isArchive, hd])
  obtain ⟨src, parts, hsrc, hparts, hcompose, _⟩ := byteView_delta hd hview
  refine ⟨src, parts, view, behind, hsrc, hparts, hcompose, ⟨L, hL, hview⟩, ?_⟩
  intro i hi
  obtain ⟨v, hv, hpart⟩ := mapM_some_getElem hparts hi
  obtain ⟨q, b, hnext, htop, hq⟩ := composed_over_previous hopen hL hb hv
  exact ⟨q, v, b, hnext, htop, hq, hpart⟩

end VidyaGodFS
