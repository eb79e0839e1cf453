/-
**The runs with a chain and with one archive in its place.**

The loop composes the files of a chain one over the other, and the last of its members surfaces with
the stream that comes out.  Where a zip in its place is indexed as that stream is, the loop makes the
same layers over both specs, but for the file they were made from.

Main definitions:

* `Streams` — what the files of some layers compose to, one over the other;
* `ServedAlike`, `SameIndex` — layers that differ in the file of an archive only, and the streams
  they are made of.

Main results:

* `byteView_last` — the last member of a chain has the stream that its files compose to;
* `alike_collapse` — **the two runs side by side**;
* `stackLayers_collapse` — the layers they make.
-/

import VidyaGodFS.StackCollapse
import VidyaGodFS.Unnamed

set_option relaxedAutoImplicit false
set_option autoImplicit false

namespace VidyaGodFS

open Posix

variable {V : Type} {T : Tools V} {S : Spec} {t : Path} {pre : List ℕ} {last : ℕ}

/-! ### The stream of a chain -/

/-- **What the files of these layers compose to**, one over the other. -/
inductive Streams (T : Tools V) (S : Spec) : List ℕ → V → Prop
  | zip {z : ℕ} {L : LayerSpec} {v : V} (hL : S.layers[z]? = some L)
      (hopen : T.openFile L.source = some v) : Streams T S [z] v
  | delta {ms : List ℕ} {d : ℕ} {L : LayerSpec} {v f w : V} (h : Streams T S ms v)
      (hL : S.layers[d]? = some L) (hopen : T.openFile L.source = some f)
      (hcompose : T.compose f v = some w) : Streams T S (ms ++ [d]) w

theorem Streams.exists_last {ms : List ℕ} {v : V} (h : Streams T S ms v) :
    ∃ ms' m, ms = ms' ++ [m] := by
  cases h with
  | zip => exact ⟨[], _, rfl⟩
  | delta => exact ⟨_, _, rfl⟩

/-- The members of a chain up to one of them: its stream when its turn comes, and what is behind
it. -/
theorem byteView_member (h : S.HasChain t pre last) {ms : List ℕ} {v : V}
    (hs : Streams T S ms v) : ∀ ms' m, ms = ms' ++ [m] → ms <+: pre ++ [last] →
      ∃ L behind, S.layers[m]? = some L ∧ L.target = t ∧
        byteView T (stackBefore T S m) L m = some (v, m :: behind) ∧ ∀ b ∈ behind, b ∈ ms' := by
  induction hs with
  | @zip z L v hL hopen =>
      intro ms' m hms hpre
      obtain ⟨rfl, rfl⟩ : ms' = [] ∧ m = z := by
        cases ms' with
        | nil => exact ⟨rfl, by simpa using hms.symm⟩
        | cons a ms' => simp at hms
      obtain ⟨z', L', hz', hL', htype, htarget⟩ := h.zip
      obtain rfl : z' = m := by
        obtain ⟨rest, hrest⟩ := hpre
        cases pre with
        | nil => simp at hz'
        | cons a pre =>
            obtain ⟨rfl, _⟩ := List.cons.inj hrest
            simpa using hz'.symm
      obtain rfl : L = L' := Option.some_inj.1 (hL.symm.trans hL')
      refine ⟨L, [], hL, htarget, ?_, by simp⟩
      rw [byteView, hopen]
      dsimp only
      rw [if_neg (by rw [htype]; decide)]
  | @delta ms d D v f w hs hD hopen hcompose ih =>
      intro ms' m hms hpre
      obtain ⟨rfl, rfl⟩ : ms' = ms ∧ m = d := by
        have hms' := List.append_inj' hms rfl
        exact ⟨hms'.1.symm, by simpa using hms'.2.symm⟩
      -- the member before it
      obtain ⟨before, p, rfl⟩ := hs.exists_last
      have hpre' : before ++ [p] <+: pre ++ [last] := (List.prefix_append _ _).trans hpre
      obtain ⟨P, behind, hP, htarget, hview, hbehind⟩ := ih before p rfl hpre'
      obtain ⟨rest, hrest⟩ := hpre
      have hchain := h.consecutive
      rw [← hrest, List.append_assoc, List.append_assoc] at hchain
      have hnext : S.Next p m := by
        have htail := (List.isChain_append.1 hchain).2.1
        rw [List.singleton_append, List.singleton_append] at htail
        exact (List.isChain_cons_cons.1 htail).1
      have hmem : m ∈ (pre ++ [last]).tail := by
        rw [← hrest]
        cases before with
        | nil => simp
        | cons a before => simp
      obtain ⟨D', hD', htype, hDt, hbases⟩ := h.deltas m hmem
      obtain rfl : D = D' := Option.some_inj.1 (hD.symm.trans hD')
      have hbt : D.bases = [t] := by
        rw [LayerSpec.bases]
        rcases hbases with hb | hb
        · rw [if_pos hb, hDt]
        · rw [hb, if_neg (List.cons_ne_nil t [])]
      have hPa : P.isArchive = true := by
        obtain ⟨_, _, ⟨P', hP', ha, _⟩, _⟩ := id hnext
        rwa [Option.some_inj.1 (hP.symm.trans hP')]
      have hbuilt : D.builtOverOwnTarget = true := by
        rw [LayerSpec.builtOverOwnTarget, htype]
        rcases hbases with hb | hb
        · simp [hb]
        · simp [hb, hDt]
      have hin := (S.chainTop_isSome_iff hP hPa).2 (Or.inr ⟨m, D, hnext, hD, hbuilt⟩)
      obtain ⟨hbase, hlayers⟩ := base_of_next hnext hP hin hview
      rw [htarget] at hbase hlayers
      refine ⟨D, p :: behind, hD, hDt, byteView_of_base htype hbt hbase hlayers hopen hcompose, ?_⟩
      intro b hb
      rcases List.mem_cons.1 hb with rfl | hb
      · exact List.mem_append_right _ (List.mem_singleton_self b)
      · exact List.mem_append_left _ (hbehind b hb)

/-- **The last member of a chain** has the stream that its files compose to. -/
theorem byteView_last (h : S.HasChain t pre last) {w : V} (hs : Streams T S (pre ++ [last]) w)
    {L : LayerSpec} (hL : S.layers[last]? = some L) :
    ∃ behind, byteView T (stackBefore T S last) L last = some (w, last :: behind) ∧
      ∀ b ∈ behind, b ∈ pre := by
  obtain ⟨L', behind, hL', _, hview, hbehind⟩ :=
    byteView_member h hs pre last rfl List.prefix_rfl
  obtain rfl : L = L' := Option.some_inj.1 (hL.symm.trans hL')
  exact ⟨behind, hview, hbehind⟩

/-! ### The runs -/

/-- A layer that is folded away has surfaced nowhere. -/
theorem mountedAs_of_folded {b : ℕ} {B : LayerSpec} (hB : S.layers[b]? = some B)
    (ha : B.isArchive = true) (hfold : S.Folded b) :
    ∀ n ≤ S.layers.length, (stackBefore T S n).mountedAs b = [] := by
  intro n
  induction n with
  | zero => exact fun _ => rfl
  | succ n ih =>
      intro hn
      have hL := List.getElem?_eq_getElem (l := S.layers) (i := n) (by omega)
      rw [stackBefore_succ hL, stackStep_mountedAs]
      split
      · rename_i hsurf
        have hne : b ≠ n := by
          rintro rfl
          obtain rfl : B = S.layers[b] := Option.some_inj.1 (hB.symm.trans hL)
          rw [surfacesAs_archive ha] at hsurf
          split at hsurf
          · simp at hsurf
          · rw [if_pos ((S.chainTop_ne_iff hB ha).2 hfold)] at hsurf
            simp at hsurf
        rw [Function.update_of_ne hne]
        exact ih (by omega)
      · exact ih (by omega)

/-- The layers are the same, but for the file of an archive. -/
def ServedAlike (L' L : Layer) : Prop := L'.unnamed = L.unnamed

theorem hideable_servedAlike : Hideable ServedAlike where
  target h := by
    have ht := congrArg Layer.target h
    rw [Layer.unnamed_target, Layer.unnamed_target] at ht
    exact ht
  hide := by
    intro L L' p h
    have hmasked := congrArg Layer.maskedUnder h
    rw [Layer.unnamed_maskedUnder, Layer.unnamed_maskedUnder] at hmasked
    have hL := L.unnamed_hide (L.maskedUnder ++ [p])
    have hL' := L'.unnamed_hide (L'.maskedUnder ++ [p])
    rw [ServedAlike, hL, hL', h, hmasked]

/-- The two streams are indexed alike, or neither is an archive. -/
def SameIndex (T : Tools V) (v : V) (p : HostPath) (w : V) (q : HostPath) : Prop :=
  (T.index v p).map ZipIndex.quiet = (T.index w q).map ZipIndex.quiet

section Run

variable {Z : LayerSpec}

/-- A member that is folded away enters and does not surface. -/
theorem stackBefore_member (h : S.HasChain t pre last) {n : ℕ} (hn : n ∈ pre) :
    ∃ L, L.target = t ∧
      stackBefore T S (n + 1) = enterStep T S.chainTop (stackBefore T S n) L n := by
  obtain ⟨L, hL, ha, ht⟩ := h.archiveAt (Or.inl hn)
  have hfold := (S.chainTop_ne_iff hL ha).2 (h.folded hn)
  have hsurf : surfacesAs T S.chainTop (stackBefore T S n) L n = none := by
    rw [surfacesAs_archive ha]
    split
    · rfl
    · rw [if_pos hfold]
  exact ⟨L, ht, by rw [stackBefore_succ hL, stackStep_eq, hsurf]⟩

/-- **A member that is folded away** changes nothing but the stream at its target. -/
theorem alike_member (h : S.HasChain t pre last) {same : Layer → Layer → Prop} {n : ℕ}
    (hn : n ∈ pre) {st' : InitState V}
    (halike : Alike same (keptAt pre) (· ≠ t) st' (stackBefore T S n)) :
    Alike same (keptAt pre) (· ≠ t) st' (stackBefore T S (n + 1)) := by
  obtain ⟨L, ht, hstep⟩ := stackBefore_member (T := T) h hn
  rw [hstep]
  exact halike.enterStep_right ht

/-- Where nothing behind it has surfaced, a delta hides nothing. -/
theorem hideBases_of_nil {st : InitState V} {n : ℕ} {behind : List ℕ}
    (h : ∀ b ∈ behind, st.mountedAs b = []) : hideBases st n (n :: behind) = st := by
  have hnone : behind.flatMap (fun b => (st.mountedAs b).flatMap fun i =>
      (st.mountedAs n).filterMap fun d => (st.layers[d]?).map fun D => (i, D.target)) = [] := by
    refine List.flatMap_eq_nil_iff.2 fun b hb => ?_
    rw [h b hb]
    rfl
  rw [hideBases, List.tail_cons, hnone]
  rfl

/-- **The last member surfaces** with the stream of the chain, and hides nothing: all that is behind
it is folded away. -/
theorem stackBefore_last (h : S.HasChain t pre last) {L : LayerSpec}
    (hL : S.layers[last]? = some L) {w : V} (hs : Streams T S (pre ++ [last]) w) :
    stackBefore T S (last + 1) = match T.index w L.source with
      | none => enterStep T S.chainTop (stackBefore T S last) L last
      | some index =>
          surface (enterStep T S.chainTop (stackBefore T S last) L last) L last (.zip index) := by
  obtain ⟨behind, hview, hbehind⟩ := byteView_last h hs hL
  obtain ⟨L', hL', ha, _⟩ := h.archiveAt (Or.inr rfl)
  obtain rfl : L = L' := Option.some_inj.1 (hL.symm.trans hL')
  have hd : L.type = .delta := by
    obtain ⟨D, hD, htype, _⟩ := h.deltas last h.last_mem_tail
    rwa [Option.some_inj.1 (hL.symm.trans hD)]
  have hlast := (List.getElem?_eq_some_iff.1 hL).1
  have hsurf : surfacesAs T S.chainTop (stackBefore T S last) L last
      = (T.index w L.source).map .zip := by
    rw [surfacesAs_archive ha, hview]
    dsimp only
    rw [if_neg fun hc => h.last_not_folded ((S.chainTop_ne_iff hL ha).1 hc)]
  have hhides : hides T (stackBefore T S last) L last = last :: behind := by
    rw [hides, if_pos hd, hview]
    rfl
  rw [stackBefore_succ hL, stackStep_eq, hsurf, hhides]
  cases T.index w L.source with
  | none => rfl
  | some index =>
      dsimp only [Option.map_some]
      refine hideBases_of_nil fun b hb => ?_
      have hne : b ≠ last := fun hbl => h.last_notMem (hbl ▸ hbehind b hb)
      obtain ⟨B, hB, hBa, _⟩ := h.archiveAt (Or.inl (hbehind b hb))
      change Function.update (enterStep T S.chainTop (stackBefore T S last) L last).mountedAs last
        _ b = []
      rw [Function.update_of_ne hne, (enterStep_mounts T S.chainTop _ L last).1]
      exact mountedAs_of_folded hB hBa (h.folded (hbehind b hb)) last hlast.le

/-- **The last member and the zip in its place** surface alike, where they are indexed alike. -/
theorem alike_last (h : S.HasChain t pre last) (hz : Z.type = .zip) {L : LayerSpec}
    (hL : S.layers[last]? = some L) (ht : Z.target = t) (hmounts : Z.mounts = L.mounts)
    (hrw : Z.rw = L.rw) {w v : V} (hs : Streams T S (pre ++ [last]) w)
    (hopen : T.openFile Z.source = some v) (hindex : SameIndex T v Z.source w L.source)
    {st' : InitState V}
    (halike : Alike ServedAlike (keptAt pre) (· ≠ t) st' (stackBefore T S last)) :
    Alike ServedAlike (keptAt pre) (· ≠ t)
      (stackStep T (S.collapse pre last Z).chainTop st' (Z, keptBefore pre last))
      (stackBefore T S (last + 1)) := by
  have hat := keptAt_keptBefore h.last_notMem
  generalize keptBefore pre last = i at hat ⊢
  obtain ⟨L', hL', _, hLt⟩ := h.archiveAt (Or.inr rfl)
  obtain rfl : L = L' := Option.some_inj.1 (hL.symm.trans hL')
  have hget : (S.collapse pre last Z).layers[i]? = some Z := by
    rw [getElem?_collapse, hat, hL, Option.map_some, if_pos rfl]
  have hza : Z.isArchive = true := by rw [LayerSpec.isArchive, hz]; rfl
  have hview' : byteView T st' Z i = some (v, [i]) := by
    rw [byteView, hopen]
    dsimp only
    rw [if_neg (by rw [hz]; decide)]
  have hsurf' : surfacesAs T (S.collapse pre last Z).chainTop st' Z i
      = (T.index v Z.source).map .zip := by
    rw [surfacesAs_archive hza, hview']
    dsimp only
    rw [if_neg]
    intro hc
    rw [(S.collapse pre last Z).chainTop_ne_iff hget hza, folded_collapse h hz ht, hat] at hc
    exact h.last_not_folded hc
  have hhides' : hides T st' Z i = [] := by
    rw [hides, if_neg (by rw [hz]; decide)]
  have henter : Alike ServedAlike (keptAt pre) (· ≠ t)
      (enterStep T (S.collapse pre last Z).chainTop st' Z i)
      (enterStep T S.chainTop (stackBefore T S last) L last) := halike.enterStep_at ht hLt
  rw [stackBefore_last h hL hs, stackStep_eq, hsurf', hhides']
  rw [SameIndex] at hindex
  cases hw : T.index w L.source with
  | none =>
      rw [hw, Option.map_none, Option.map_eq_none_iff] at hindex
      rw [hindex]
      exact henter
  | some index =>
      rw [hw, Option.map_some] at hindex
      obtain ⟨index', hv, hquiet⟩ := Option.map_eq_some_iff.1 hindex
      rw [hv]
      dsimp only [Option.map_some]
      have hmade : ∀ prio, List.Forall₂ ServedAlike (madeLayers Z (.zip index') prio)
          (madeLayers L (.zip index) prio) := by
        intro prio
        rw [madeLayers, madeLayers, hmounts, hrw, List.forall₂_iff_get]
        refine ⟨by simp, fun k hk hk' => ?_⟩
        simp [ServedAlike, Layer.unnamed, hquiet]
      have hsurface := henter.surface (keptAt_injective pre) (n := i) hmade
      rw [hat] at hsurface
      exact hsurface

/-- **The two runs side by side.** -/
theorem alike_collapse (h : S.HasChain t pre last) (hz : Z.type = .zip) {L : LayerSpec}
    (hL : S.layers[last]? = some L) (ht : Z.target = t) (hmounts : Z.mounts = L.mounts)
    (hrw : Z.rw = L.rw) {w v : V} (hs : Streams T S (pre ++ [last]) w)
    (hopen : T.openFile Z.source = some v) (hindex : SameIndex T v Z.source w L.source) :
    ∀ n ≤ S.layers.length, Alike ServedAlike (keptAt pre) (· ≠ t)
      (stackBefore T (S.collapse pre last Z) (keptBefore pre n)) (stackBefore T S n) := by
  intro n
  induction n with
  | zero =>
      refine fun _ => ⟨fun _ _ => rfl, fun _ _ => rfl, fun _ _ => Iff.rfl, fun _ => rfl, ?_⟩
      exact List.Forall₂.nil
  | succ n ih =>
      intro hn
      have halike := ih (by omega)
      have hB := List.getElem?_eq_getElem (l := S.layers) (i := n) (by omega)
      by_cases hpre : n ∈ pre
      · rw [keptBefore_succ_of_mem hpre]
        exact alike_member h hpre halike
      · have hat := keptAt_keptBefore hpre
        rw [keptBefore_succ hpre]
        by_cases hlast : n = last
        · subst hlast
          have hget : (S.collapse pre n Z).layers[keptBefore pre n]? = some Z := by
            rw [getElem?_collapse, hat, hL, Option.map_some, if_pos rfl]
          rw [stackBefore_succ hget]
          exact alike_last h hz hL ht hmounts hrw hs hopen hindex halike
        · have hget : (S.collapse pre last Z).layers[keptBefore pre n]? = some S.layers[n] := by
            rw [getElem?_collapse_of_ne (by rwa [hat]), hat, hB]
          rw [stackBefore_succ hget, stackBefore_succ hB]
          have hstep : Alike ServedAlike (keptAt pre) (· ≠ t)
              (stackStep T (S.collapse pre last Z).chainTop
                (stackBefore T (S.collapse pre last Z) (keptBefore pre n))
                (S.layers[n], keptBefore pre n))
              (stackStep T S.chainTop (stackBefore T S n)
                (S.layers[n], keptAt pre (keptBefore pre n))) := by
            refine halike.step (keptAt_injective pre) hideable_servedAlike (fun _ => rfl) ?_ ?_
            · rintro hd u hu rfl
              exact (Spec.HasChain.mem_of_mem_tail (h.alone n _ hB hd hu)).elim hpre hlast
            · intro ha _
              exact likeTops_collapse h hz ht (by rwa [hat]) (by rw [hat, hB]) ha
          rwa [hat] at hstep

/-- **The layers that the two specs make** differ in the file of an archive only. -/
theorem stackLayers_collapse (h : S.HasChain t pre last) (hz : Z.type = .zip) {L : LayerSpec}
    (hL : S.layers[last]? = some L) (ht : Z.target = t) (hmounts : Z.mounts = L.mounts)
    (hrw : Z.rw = L.rw) {w v : V} (hs : Streams T S (pre ++ [last]) w)
    (hopen : T.openFile Z.source = some v) (hindex : SameIndex T v Z.source w L.source) :
    List.Forall₂ ServedAlike (stackLayers T (S.collapse pre last Z)) (stackLayers T S) := by
  have hend := alike_collapse h hz hL ht hmounts hrw hs hopen hindex S.layers.length le_rfl
  have hlen : (S.collapse pre last Z).layers.length = keptBefore pre S.layers.length :=
    length_collapse
  rw [← hlen, stackBefore_length, stackBefore_length] at hend
  exact hend.layers

/-- **The layers of a chain alone**: those its last member surfaces as, if it can be indexed. -/
theorem stackLayers_alone (h : S.HasChain t pre last) (hall : ∀ n < last, n ∈ pre)
    (hend : S.layers.length = last + 1) {L : LayerSpec} (hL : S.layers[last]? = some L) {w : V}
    (hs : Streams T S (pre ++ [last]) w) :
    stackLayers T S = match T.index w L.source with
      | none => []
      | some index => madeLayers L (.zip index) 0 := by
  have hbefore : ∀ n ≤ last, (stackBefore T S n).layers = [] := by
    intro n
    induction n with
    | zero => exact fun _ => rfl
    | succ n ih =>
        intro hn
        obtain ⟨M, _, hstep⟩ := stackBefore_member (T := T) h (hall n hn)
        rw [hstep, (enterStep_mounts T S.chainTop _ M n).2]
        exact ih (by omega)
  have henter : (enterStep T S.chainTop (stackBefore T S last) L last).layers = [] := by
    rw [(enterStep_mounts T S.chainTop _ L last).2]
    exact hbefore last le_rfl
  rw [stackLayers, ← stackBefore_length, hend, stackBefore_last h hL hs]
  cases T.index w L.source with
  | none => exact henter
  | some index =>
      dsimp only [surface]
      rw [henter]
      rfl

end Run

/-- The layers of a zip alone. -/
theorem stackLayers_zip {V : Type} {T : Tools V} {Z : LayerSpec} (hz : Z.type = .zip) {v : V}
    (hopen : T.openFile Z.source = some v) {index : ZipIndex}
    (hindex : T.index v Z.source = some index) :
    stackLayers T ⟨[Z]⟩ = madeLayers Z (.zip index) 0 := by
  have htop : (⟨[Z]⟩ : Spec).chainTop 0 = none := by
    have hat : (⟨[Z]⟩ : Spec).byTarget Z.target = [(Z, 0)] := by
      simp [Spec.byTarget, LayerSpec.isAt, LayerSpec.isArchive, hz]
    rw [Spec.chainTop, List.getElem?_cons_zero]
    dsimp only
    rw [hat, List.length_singleton, chainRuns]
    simp [hz, chainRuns]
  have hview : byteView T InitState.start Z 0 = some (v, [0]) := by
    rw [byteView, hopen]
    dsimp only
    rw [if_neg (by rw [hz]; decide)]
  have hstep : stackStep T (⟨[Z]⟩ : Spec).chainTop InitState.start (Z, 0)
      = surface (enterView (⟨[Z]⟩ : Spec).chainTop InitState.start Z 0 v [0]) Z 0 (.zip index) := by
    rw [stackStep, hz]
    dsimp only
    rw [hview]
    dsimp only
    rw [htop, hindex]
    rfl
  rw [stackLayers, stackRun]
  dsimp only [List.zipIdx_singleton, List.foldl_cons, List.foldl_nil]
  rw [hstep]
  dsimp only [surface]
  rw [(enterView_mounts (⟨[Z]⟩ : Spec).chainTop InitState.start Z 0 v [0]).2]
  rfl

end VidyaGodFS
