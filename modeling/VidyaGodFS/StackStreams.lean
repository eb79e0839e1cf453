/-
**The streams of a spec.**

What the loop keeps at a target can be told without the loop, also where layers are skipped.  A zip
has the stream of its file, a delta what it composes to over the streams at its base targets; and the
stream at a target is that of the last layer there that has one and *puts* it there, a member of a
chain, or a zip with no chain begun at or below it.

Main definitions:

* `Spec.InChain`, `Spec.Puts`, `Spec.supplier` — which layer's stream is at a target, where it is
  known which layers have streams;
* `streamOf` — the stream of a layer, if it has one;
* `supplierAt`, `AppliedTo` — the layer whose stream a delta finds at a base target;
* `composedOver` — what the loop composes a delta over.

Main results:

* `streamOf_eq` — the stream of a layer in terms of those below it;
* `stackBefore_supplied` — **the loop keeps the streams the spec tells**, whatever is skipped;
* `appliedTo_iff` — what the spec says a delta is applied to is what the loop composes it over.
-/

import VidyaGodFS.StackAlike

set_option relaxedAutoImplicit false
set_option autoImplicit false

namespace VidyaGodFS

open Posix

variable {V : Type} {T : Tools V} {S : Spec}

namespace Spec

variable (S)

/-- A member of a chain: a delta, or folded away. -/
def InChain (j : ℕ) : Prop := ∃ L, S.layers[j]? = some L ∧ (L.type = .delta ∨ S.Folded j)

theorem inChain_iff {j : ℕ} {L : LayerSpec} (hL : S.layers[j]? = some L)
    (ha : L.isArchive = true) : S.InChain j ↔ (S.chainTop j).isSome := by
  rw [S.chainTop_isSome_iff hL ha]
  constructor
  · rintro ⟨B, hB, h⟩
    obtain rfl : L = B := Option.some_inj.1 (hL.symm.trans hB)
    exact h
  · exact fun h => ⟨L, hL, h⟩

/-- **Layer `i` puts its stream at the target** `t`: it is in a chain, or none has begun there. The
layers that have streams are the ones in `has`. -/
def Puts (has : ℕ → Prop) (t : Path) (i : ℕ) : Prop :=
  S.ArchiveAt t i ∧ has i ∧ (S.InChain i ∨ ∀ q < i, S.ArchiveAt t q → has q → ¬ S.InChain q)

open Classical in
/-- The last layer below `n` that puts its stream at `t`. -/
noncomputable def supplier (has : ℕ → Prop) : ℕ → Path → Option ℕ
  | 0, _ => none
  | n + 1, t => if S.Puts has t n then some n else supplier has n t

variable {S} {has has' : ℕ → Prop} {t : Path}

theorem puts_congr {i : ℕ} (h : ∀ q ≤ i, has q ↔ has' q) : S.Puts has t i ↔ S.Puts has' t i := by
  rw [Puts, Puts, h i le_rfl]
  refine and_congr_right fun _ => and_congr_right fun _ => or_congr_right ?_
  exact forall₂_congr fun q hq => imp_congr_right fun _ => imp_congr_left (h q hq.le)

theorem supplier_congr {n : ℕ} (h : ∀ q < n, has q ↔ has' q) :
    S.supplier has n t = S.supplier has' n t := by
  induction n with
  | zero => rfl
  | succ n ih =>
      have hputs : S.Puts has t n ↔ S.Puts has' t n :=
        puts_congr fun q hq => h q (Nat.lt_succ_of_le hq)
      rw [supplier, supplier]
      by_cases hp : S.Puts has' t n
      · rw [if_pos hp, if_pos (hputs.2 hp)]
      · rw [if_neg hp, if_neg (hputs.not.2 hp), ih fun q hq => h q (hq.trans n.lt_succ_self)]

theorem supplier_of_puts {n : ℕ} (h : S.Puts has t n) : S.supplier has (n + 1) t = some n :=
  if_pos h

theorem supplier_of_not_puts {n : ℕ} (h : ¬ S.Puts has t n) :
    S.supplier has (n + 1) t = S.supplier has n t := if_neg h

theorem supplier_lt {n i : ℕ} (h : S.supplier has n t = some i) : i < n := by
  induction n with
  | zero => simp [supplier] at h
  | succ n ih =>
      rw [supplier] at h
      split at h
      · obtain rfl := Option.some_inj.1 h
        exact n.lt_succ_self
      · exact (ih h).trans n.lt_succ_self

end Spec

/-! ### The streams -/

/-- The stream of layer `j`, where `s` are the streams of those below it: a delta is composed over
the streams at its base targets. -/
noncomputable def streamFrom (T : Tools V) (S : Spec) (s : ℕ → Option V) (j : ℕ) : Option V :=
  match S.layers[j]? with
  | none => none
  | some L =>
      if L.isArchive then
        (T.openFile L.source).bind fun src =>
          if L.type = .delta then
            (L.bases.mapM fun t => (S.supplier (fun i => (s i).isSome) j t).bind s).bind fun parts =>
              T.compose src (T.joined parts)
          else some src
      else none

noncomputable def streamsBelow (T : Tools V) (S : Spec) : ℕ → ℕ → Option V
  | 0 => fun _ => none
  | n + 1 => Function.update (streamsBelow T S n) n (streamFrom T S (streamsBelow T S n) n)

/-- **The stream of layer `j`**, if it has one. -/
noncomputable def streamOf (T : Tools V) (S : Spec) (j : ℕ) : Option V :=
  streamsBelow T S (j + 1) j

/-- The layer has a stream. -/
def HasStream (T : Tools V) (S : Spec) (j : ℕ) : Prop := (streamOf T S j).isSome

/-- The layer whose stream is at the target `t` when it is the turn of layer `n`. -/
noncomputable def supplierAt (T : Tools V) (S : Spec) (n : ℕ) (t : Path) : Option ℕ :=
  S.supplier (HasStream T S) n t

/-- **Delta `j` is applied to the stream of layer `i`**: its file opens, there is a stream at each of
its base targets, and the one at its base target `t` is that of layer `i`. -/
def AppliedTo (T : Tools V) (S : Spec) (j : ℕ) (t : Path) (i : ℕ) : Prop :=
  ∃ L, S.layers[j]? = some L ∧ L.type = .delta ∧ (T.openFile L.source).isSome ∧ t ∈ L.bases ∧
    (∀ u ∈ L.bases, (supplierAt T S j u).isSome) ∧ supplierAt T S j t = some i

theorem streamsBelow_of_lt {n i : ℕ} (h : i < n) : streamsBelow T S n i = streamOf T S i := by
  induction n with
  | zero => simp at h
  | succ n ih =>
      rcases Nat.lt_succ_iff_lt_or_eq.1 h with hlt | rfl
      · rw [streamsBelow, Function.update_of_ne hlt.ne, ih hlt]
      · rfl

/-- The stream of a layer in terms of those below it. -/
theorem streamOf_eq (j : ℕ) : streamOf T S j =
    match S.layers[j]? with
    | none => none
    | some L =>
        if L.isArchive then
          (T.openFile L.source).bind fun src =>
            if L.type = .delta then
              (L.bases.mapM fun t => (supplierAt T S j t).bind (streamOf T S)).bind fun parts =>
                T.compose src (T.joined parts)
            else some src
        else none := by
  have hsup : ∀ t, (S.supplier (fun i => (streamsBelow T S j i).isSome) j t).bind
      (streamsBelow T S j) = (supplierAt T S j t).bind (streamOf T S) := by
    intro t
    have hhas : S.supplier (fun i => (streamsBelow T S j i).isSome) j t = supplierAt T S j t := by
      refine Spec.supplier_congr fun q hq => ?_
      rw [streamsBelow_of_lt hq, HasStream]
    rw [hhas]
    cases h : supplierAt T S j t with
    | none => rfl
    | some i =>
        rw [Option.bind_some, Option.bind_some]
        exact streamsBelow_of_lt (Spec.supplier_lt h)
  rw [streamOf, streamsBelow, Function.update_self, streamFrom]
  simp only [hsup]

/-! ### What the loop keeps -/

/-- **The state is that of the streams of the spec** when it is the turn of layer `n`. -/
structure Supplied (T : Tools V) (S : Spec) (n : ℕ) (st : InitState V) : Prop where
  empty : ∀ t, supplierAt T S n t = none →
    st.baseByTarget t = none ∧ st.baseLayersByTarget t = []
  filled : ∀ t i, supplierAt T S n t = some i → ∃ v behind, ViewOf T S i v behind ∧
    streamOf T S i = some v ∧ st.baseByTarget t = some v ∧ st.baseLayersByTarget t = behind
  seen : ∀ t, t ∈ st.chainSeen ↔ ∃ i < n, S.ArchiveAt t i ∧ HasStream T S i ∧ S.InChain i

theorem supplied_start : Supplied T S 0 InitState.start := by
  refine ⟨fun _ _ => ⟨rfl, rfl⟩, fun t i h => ?_, by simp [InitState.start]⟩
  simp [supplierAt, Spec.supplier] at h

/-- What is at a target is the stream of its supplier. -/
theorem Supplied.base_eq {n : ℕ} {st : InitState V} (h : Supplied T S n st) (t : Path) :
    st.baseByTarget t = (supplierAt T S n t).bind (streamOf T S) := by
  cases hs : supplierAt T S n t with
  | none => exact (h.empty t hs).1
  | some i =>
      obtain ⟨v, _, _, hv, hbase, _⟩ := h.filled t i hs
      rw [hbase, Option.bind_some, hv]

/-- **The stream the loop finds for a layer is its stream.** -/
theorem Supplied.byteView_eq {n : ℕ} {st : InitState V} (h : Supplied T S n st) {L : LayerSpec}
    (hL : S.layers[n]? = some L) (ha : L.isArchive = true) :
    (byteView T st L n).map Prod.fst = streamOf T S n := by
  rw [streamOf_eq, hL]
  dsimp only
  rw [if_pos ha, byteView]
  cases T.openFile L.source with
  | none => rfl
  | some src =>
      dsimp only
      rw [Option.bind_some]
      split
      · have hbase : L.bases.mapM st.baseByTarget
            = L.bases.mapM fun t => (supplierAt T S n t).bind (streamOf T S) :=
          congrArg (fun f => L.bases.mapM f) (funext h.base_eq)
        rw [hbase]
        cases L.bases.mapM fun t => (supplierAt T S n t).bind (streamOf T S) with
        | none => rfl
        | some parts =>
            dsimp only
            rw [Option.bind_some]
            cases T.compose src (T.joined parts) with
            | none => rfl
            | some v => rfl
      · rfl

/-- A layer puts its stream at a target where its stream enters. -/
theorem Supplied.puts_iff {n : ℕ} {st : InitState V} (h : Supplied T S n st) {L : LayerSpec}
    (hL : S.layers[n]? = some L) (ha : L.isArchive = true) (hhas : HasStream T S n) (t : Path) :
    S.Puts (HasStream T S) t n ↔
      t = L.target ∧ ((S.chainTop n).isSome ∨ L.target ∉ st.chainSeen) := by
  have hat : S.ArchiveAt t n ↔ t = L.target := by
    constructor
    · rintro ⟨B, hB, _, rfl⟩
      obtain rfl : L = B := Option.some_inj.1 (hL.symm.trans hB)
      rfl
    · rintro rfl
      exact ⟨L, hL, ha, rfl⟩
  rw [Spec.Puts, hat, S.inChain_iff hL ha, h.seen]
  refine and_congr_right fun ht => ?_
  subst ht
  rw [and_iff_right hhas]
  refine or_congr_right ⟨?_, ?_⟩
  · rintro hnone ⟨q, hq, hatq, hhasq, hinq⟩
    exact hnone q hq hatq hhasq hinq
  · exact fun hnone q hq hatq hhasq hinq => hnone ⟨q, hq, hatq, hhasq, hinq⟩

/-- **One layer keeps the streams right.** -/
theorem Supplied.step {n : ℕ} {L : LayerSpec} (h : Supplied T S n (stackBefore T S n))
    (hL : S.layers[n]? = some L) : Supplied T S (n + 1) (stackStep T S.chainTop
      (stackBefore T S n) (L, n)) := by
  obtain ⟨hbase, hlayers, hseen⟩ := stackStep_views T S.chainTop (stackBefore T S n) L n
  have hkeep : ¬ HasStream T S n ∨ L.isArchive = false →
      enterStep T S.chainTop (stackBefore T S n) L n = stackBefore T S n →
      Supplied T S (n + 1) (stackStep T S.chainTop (stackBefore T S n) (L, n)) := by
    intro hno henter
    rw [henter] at hbase hlayers hseen
    have hnot : ∀ t, ¬ S.Puts (HasStream T S) t n := by
      rintro t ⟨⟨B, hB, ha, _⟩, hhas, _⟩
      obtain rfl : L = B := Option.some_inj.1 (hL.symm.trans hB)
      rcases hno with hno | hno
      · exact hno hhas
      · rw [hno] at ha
        exact absurd ha (by decide)
    have hsup : ∀ t, supplierAt T S (n + 1) t = supplierAt T S n t :=
      fun t => Spec.supplier_of_not_puts (hnot t)
    refine ⟨fun t ht => ?_, fun t i ht => ?_, fun t => ?_⟩
    · rw [hbase, hlayers]
      exact h.empty t ((hsup t).symm.trans ht)
    · rw [hbase, hlayers]
      exact h.filled t i ((hsup t).symm.trans ht)
    · rw [hseen, h.seen]
      constructor
      · rintro ⟨i, hi, hi'⟩
        exact ⟨i, hi.trans n.lt_succ_self, hi'⟩
      · rintro ⟨i, hi, hat, hhas, hin⟩
        refine ⟨i, (Nat.lt_succ_iff_lt_or_eq.1 hi).resolve_right ?_, hat, hhas, hin⟩
        rintro rfl
        exact hnot t ⟨hat, hhas, Or.inl hin⟩
  cases ha : L.isArchive with
  | false => exact hkeep (Or.inr ha) (by rw [enterStep, if_neg (by simp [ha])])
  | true =>
      have hview := h.byteView_eq hL ha
      cases hv : byteView T (stackBefore T S n) L n with
      | none =>
          rw [hv] at hview
          refine hkeep (Or.inl ?_) (by rw [enterStep, if_pos ha, hv])
          rw [HasStream, ← hview]
          simp
      | some w =>
          rw [hv] at hview
          have hhas : HasStream T S n := by
            rw [HasStream, ← hview]
            rfl
          have hat := enterView_at S.chainTop (stackBefore T S n) L n w.1 w.2
          rw [enterStep, if_pos ha, hv] at hbase hlayers hseen
          dsimp only at hbase hlayers hseen
          have hputs := h.puts_iff hL ha hhas
          refine ⟨fun t ht => ?_, fun t i ht => ?_, fun t => ?_⟩
          · have hnot : ¬ S.Puts (HasStream T S) t n := by
              intro hp
              rw [supplierAt, Spec.supplier_of_puts hp] at ht
              simp at ht
            rw [hbase, hlayers, (hat t).1, (hat t).2.1, if_neg ((hputs t).not.1 hnot),
              if_neg ((hputs t).not.1 hnot)]
            exact h.empty t ((Spec.supplier_of_not_puts hnot).symm.trans ht)
          · rw [hbase, hlayers, (hat t).1, (hat t).2.1]
            by_cases hp : S.Puts (HasStream T S) t n
            · rw [supplierAt, Spec.supplier_of_puts hp] at ht
              obtain rfl := Option.some_inj.1 ht
              rw [if_pos ((hputs t).1 hp), if_pos ((hputs t).1 hp)]
              exact ⟨w.1, w.2, ⟨L, hL, hv⟩, hview.symm, rfl, rfl⟩
            · rw [if_neg ((hputs t).not.1 hp), if_neg ((hputs t).not.1 hp)]
              exact h.filled t i ((Spec.supplier_of_not_puts hp).symm.trans ht)
          · rw [hseen, (hat t).2.2, h.seen]
            constructor
            · rintro (⟨i, hi, hi'⟩ | ⟨rfl, hc⟩)
              · exact ⟨i, hi.trans n.lt_succ_self, hi'⟩
              · exact ⟨n, n.lt_succ_self, ⟨L, hL, ha, rfl⟩, hhas, (S.inChain_iff hL ha).2 hc⟩
            · rintro ⟨i, hi, hat', hi'⟩
              rcases Nat.lt_succ_iff_lt_or_eq.1 hi with hlt | rfl
              · exact Or.inl ⟨i, hlt, hat', hi'⟩
              · obtain ⟨B, hB, _, rfl⟩ := id hat'
                obtain rfl : L = B := Option.some_inj.1 (hL.symm.trans hB)
                exact Or.inr ⟨rfl, (S.inChain_iff hL ha).1 hi'.2⟩

/-- **The loop keeps the streams the spec tells**, whatever is skipped. -/
theorem stackBefore_supplied {n : ℕ} (hn : n ≤ S.layers.length) :
    Supplied T S n (stackBefore T S n) := by
  induction n with
  | zero => exact supplied_start
  | succ n ih =>
      have hL := List.getElem?_eq_getElem (l := S.layers) (i := n) (by omega)
      rw [stackBefore_succ hL]
      exact (ih (by omega)).step hL

/-! ### A layer at a target -/

/-- A layer whose stream does not enter at `t` leaves what is there. -/
theorem keepsAt {n : ℕ} {L : LayerSpec} {t : Path} (hL : S.layers[n]? = some L)
    (h : L.isArchive = true → byteView T (stackBefore T S n) L n ≠ none → L.target = t →
      S.chainTop n = none ∧ t ∈ (stackBefore T S n).chainSeen) :
    supplierAt T S (n + 1) t = supplierAt T S n t ∧
      (t ∈ (stackBefore T S (n + 1)).chainSeen ↔ t ∈ (stackBefore T S n).chainSeen) := by
  have hsup := stackBefore_supplied (T := T) (List.getElem?_eq_some_iff.1 hL).1.le
  obtain ⟨_, _, hseen⟩ := stackStep_views T S.chainTop (stackBefore T S n) L n
  rw [stackBefore_succ hL, hseen, enterStep]
  have hstream : L.isArchive = true → HasStream T S n →
      byteView T (stackBefore T S n) L n ≠ none := by
    intro ha hhas hnone
    rw [HasStream, ← hsup.byteView_eq hL ha, hnone] at hhas
    simp at hhas
  constructor
  · refine Spec.supplier_of_not_puts ?_
    rintro hp
    obtain ⟨B, hB, ha, ht⟩ := id hp.1
    obtain rfl : L = B := Option.some_inj.1 (hL.symm.trans hB)
    obtain ⟨hc, hin⟩ := h ha (hstream ha hp.2.1) ht
    rcases ((hsup.puts_iff hL ha hp.2.1 t).1 hp).2 with hc' | hnot
    · rw [hc] at hc'
      simp at hc'
    · exact hnot (ht ▸ hin)
  · split
    · rename_i ha
      cases hv : byteView T (stackBefore T S n) L n with
      | none => rfl
      | some w =>
          rw [(enterView_at S.chainTop (stackBefore T S n) L n w.1 w.2 t).2.2]
          refine or_iff_left ?_
          rintro ⟨ht, hc⟩
          rw [(h ha (by simp [hv]) ht.symm).1] at hc
          simp at hc
    · rfl

/-- A layer whose stream enters at its target. -/
theorem putsAt {n : ℕ} {L : LayerSpec} {t : Path} (hL : S.layers[n]? = some L)
    (ha : L.isArchive = true) {w : V × List ℕ} (hview : byteView T (stackBefore T S n) L n = some w)
    (ht : L.target = t) (h : (S.chainTop n).isSome ∨ t ∉ (stackBefore T S n).chainSeen) :
    supplierAt T S (n + 1) t = some n ∧
      (stackBefore T S (n + 1)).baseByTarget t = some w.1 ∧
      (stackBefore T S (n + 1)).baseLayersByTarget t = w.2 ∧
      (t ∈ (stackBefore T S (n + 1)).chainSeen ↔
        t ∈ (stackBefore T S n).chainSeen ∨ (S.chainTop n).isSome) := by
  subst ht
  have hsup := stackBefore_supplied (T := T) (List.getElem?_eq_some_iff.1 hL).1.le
  have hhas : HasStream T S n := by
    rw [HasStream, ← hsup.byteView_eq hL ha, hview]
    rfl
  obtain ⟨hbase, hlayers, hseen⟩ := stackStep_views T S.chainTop (stackBefore T S n) L n
  rw [enterStep, if_pos ha, hview] at hbase hlayers hseen
  have hat := enterView_at S.chainTop (stackBefore T S n) L n w.1 w.2 L.target
  rw [stackBefore_succ hL, hbase, hlayers, hseen]
  refine ⟨Spec.supplier_of_puts ((hsup.puts_iff hL ha hhas _).2 ⟨rfl, h⟩), ?_, ?_, ?_⟩
  · rw [hat.1, if_pos ⟨rfl, h⟩]
  · rw [hat.2.1, if_pos ⟨rfl, h⟩]
  · rw [hat.2.2, and_iff_right rfl]

/-! ### What is at the targets -/

/-- The stream at a target, with the layers behind it. -/
def viewAt (st : InitState V) (t : Path) : Option (V × List ℕ) :=
  (st.baseByTarget t).map fun v => (v, st.baseLayersByTarget t)

/-- The streams at the base targets of a delta, each with the layers behind it. -/
def partsOf (st : InitState V) (L : LayerSpec) : Option (List (V × List ℕ)) :=
  L.bases.mapM (viewAt st)

/-- **What layer `j` is composed over**, where it is a delta that opens and nothing is missing. -/
def composedOver (T : Tools V) (S : Spec) (j : ℕ) : Option (List (V × List ℕ)) :=
  match S.layers[j]? with
  | none => none
  | some L =>
      if L.type = .delta ∧ (T.openFile L.source).isSome then partsOf (stackBefore T S j) L
      else none

theorem mapM_isSome_iff {α β : Type} {g : α → Option β} {l : List α} :
    (l.mapM g).isSome ↔ ∀ a ∈ l, (g a).isSome := by
  induction l with
  | nil => simp
  | cons a l ih =>
      rw [List.mapM_cons, List.forall_mem_cons, ← ih]
      cases g a with
      | none => simp
      | some b => cases l.mapM g with
        | none => simp
        | some bs => simp

theorem mapM_map_comm {α β γ : Type} {g : α → Option β} {r : β → γ} {l : List α} :
    l.mapM (fun a => (g a).map r) = (l.mapM g).map (List.map r) := by
  induction l with
  | nil => rfl
  | cons a l ih =>
      rw [List.mapM_cons, List.mapM_cons, ih]
      cases g a with
      | none => rfl
      | some b => cases l.mapM g with
        | none => rfl
        | some bs => rfl

/-- What is gathered alike is alike at every place. -/
theorem eq_of_mapM_eq {α β : Type} {g g' : α → Option β} {l : List α} {w : List β}
    (h : l.mapM g = some w) (h' : l.mapM g' = some w) {a : α} (ha : a ∈ l) : g a = g' a := by
  obtain ⟨i, hi⟩ := List.mem_iff_getElem?.1 ha
  obtain ⟨b, hb, hw⟩ := mapM_some_getElem h hi
  obtain ⟨b', hb', hw'⟩ := mapM_some_getElem h' hi
  rw [hb, hb', ← hw, ← hw']

/-- The stream of a delta in terms of what it is composed over. -/
theorem byteView_parts {st : InitState V} {L : LayerSpec} {gi : ℕ} (hd : L.type = .delta) :
    byteView T st L gi = (T.openFile L.source).bind fun src => (partsOf st L).bind fun w =>
      (T.compose src (T.joined (w.map Prod.fst))).map fun v => (v, gi :: w.flatMap Prod.snd) := by
  have hfst : L.bases.mapM st.baseByTarget = (partsOf st L).map (List.map Prod.fst) := by
    rw [partsOf, ← mapM_map_comm]
    refine congrArg (fun g => L.bases.mapM g) (funext fun t => ?_)
    rw [viewAt]
    cases st.baseByTarget t with
    | none => rfl
    | some v => rfl
  have hsnd : ∀ (l : List Path) (w : List (V × List ℕ)), l.mapM (viewAt st) = some w →
      w.flatMap Prod.snd = l.flatMap st.baseLayersByTarget := by
    intro l
    induction l with
    | nil =>
        intro w hw
        obtain rfl : [] = w := by simpa using hw
        rfl
    | cons t l ih =>
        intro w hw
        rw [List.mapM_cons] at hw
        rcases hv : viewAt st t with _ | x
        · simp [hv] at hw
        · rcases hl : l.mapM (viewAt st) with _ | w'
          · simp [hv, hl] at hw
          · obtain rfl : x :: w' = w := by simpa [hv, hl] using hw
            rw [List.flatMap_cons, List.flatMap_cons, ih w' hl]
            rw [viewAt, Option.map_eq_some_iff] at hv
            obtain ⟨v, _, rfl⟩ := hv
            rfl
  rw [byteView]
  cases T.openFile L.source with
  | none => rfl
  | some src =>
      dsimp only
      rw [if_pos hd, Option.bind_some, hfst]
      cases hw : partsOf st L with
      | none => rfl
      | some w =>
          rw [Option.map_some, Option.bind_some, ← hsnd _ w hw]
          dsimp only
          cases T.compose src (T.joined (w.map Prod.fst)) with
          | none => rfl
          | some v => rfl

/-- The streams of zip and delta layers are told with the layer itself in front. -/
theorem ViewOf.head? {i : ℕ} {v : V} {behind : List ℕ} (h : ViewOf T S i v behind) :
    behind.head? = some i := by
  obtain ⟨L, _, hview⟩ := h
  rw [byteView] at hview
  split at hview
  · simp at hview
  · split at hview
    · split at hview
      · simp at hview
      · split at hview
        · simp at hview
        · obtain ⟨_, rfl⟩ := Prod.mk.inj (Option.some_inj.1 hview)
          rfl
    · obtain ⟨_, rfl⟩ := Prod.mk.inj (Option.some_inj.1 hview)
      rfl

theorem Supplied.viewAt_of {n : ℕ} {st : InitState V} (h : Supplied T S n st) {t : Path} {i : ℕ}
    (hi : supplierAt T S n t = some i) : ∃ v behind, ViewOf T S i v behind ∧
      streamOf T S i = some v ∧ viewAt st t = some (v, behind) := by
  obtain ⟨v, behind, hof, hv, hbase, hlayers⟩ := h.filled t i hi
  exact ⟨v, behind, hof, hv, by rw [viewAt, hbase, hlayers, Option.map_some]⟩

/-- The layer in front of what is at a target is its supplier. -/
theorem Supplied.head_eq {n : ℕ} {st : InitState V} (h : Supplied T S n st) (t : Path) :
    ((viewAt st t).bind fun w => w.2.head?) = supplierAt T S n t := by
  cases hs : supplierAt T S n t with
  | none => rw [viewAt, (h.empty t hs).1, Option.map_none, Option.bind_none]
  | some i =>
      obtain ⟨v, behind, hof, _, hview⟩ := h.viewAt_of hs
      rw [hview, Option.bind_some]
      exact hof.head?

theorem Supplied.isSome_iff {n : ℕ} {st : InitState V} (h : Supplied T S n st) (t : Path) :
    (viewAt st t).isSome ↔ (supplierAt T S n t).isSome := by
  cases hs : supplierAt T S n t with
  | none => simp [viewAt, (h.empty t hs).1]
  | some i =>
      obtain ⟨v, behind, _, _, hview⟩ := h.viewAt_of hs
      simp [hview]

/-- **A delta is applied to the stream of a layer** where it is composed over something, and what is
at its base target is that stream. -/
theorem appliedTo_iff {j i : ℕ} {t : Path} {L : LayerSpec} (hL : S.layers[j]? = some L) :
    AppliedTo T S j t i ↔
      (composedOver T S j).isSome ∧ t ∈ L.bases ∧ supplierAt T S j t = some i := by
  have hsup := stackBefore_supplied (T := T) (S := S) (List.getElem?_eq_some_iff.1 hL).1.le
  have hparts : (partsOf (stackBefore T S j) L).isSome ↔
      ∀ u ∈ L.bases, (supplierAt T S j u).isSome := by
    rw [partsOf, mapM_isSome_iff]
    exact forall₂_congr fun u _ => hsup.isSome_iff u
  rw [composedOver, hL]
  dsimp only
  constructor
  · rintro ⟨B, hB, hd, hopen, ht, hall, hi⟩
    obtain rfl : L = B := Option.some_inj.1 (hL.symm.trans hB)
    rw [if_pos ⟨hd, hopen⟩]
    exact ⟨hparts.2 hall, ht, hi⟩
  · rintro ⟨hsome, ht, hi⟩
    split at hsome
    · rename_i hd
      exact ⟨L, hL, hd.1, hd.2, ht, hparts.1 hsome, hi⟩
    · simp at hsome

end VidyaGodFS
