/-
**Two runs side by side.**

Two specs that share most of their layers are run side by side, a layer of the one with the same
layer of the other.  Between the layers they do not share the states stay *alike*: the same layers
have been made, from layers of the specs that correspond under a renumbering, and the same streams
are at the targets that matter.

Main definitions:

* `Alike` — the states of two runs correspond;
* `LikeTops` — two layers of the specs are in a chain alike, and folded away alike.

Main results:

* `Alike.step` — **a layer that both specs have keeps the states alike.**
-/

import VidyaGodFS.StackChains

set_option relaxedAutoImplicit false
set_option autoImplicit false

namespace VidyaGodFS

open Posix

variable {V : Type} {T : Tools V}

/-- A relation between layers that hiding cannot tell apart. -/
structure Hideable (same : Layer → Layer → Prop) : Prop where
  target : ∀ {L L'}, same L L' → L.target = L'.target
  hide : ∀ {L L'} (p : Path), same L L' →
    same { L with maskedUnder := L.maskedUnder ++ [p] } { L' with maskedUnder := L'.maskedUnder ++ [p] }

theorem hideable_eq : Hideable (· = ·) := ⟨fun h => h ▸ rfl, fun _ h => h ▸ rfl⟩

/-- **The states correspond**: layer `i` of the first spec is layer `f i` of the second, and the
streams are the same at the targets that are `ok`. -/
structure Alike (same : Layer → Layer → Prop) (f : ℕ → ℕ) (ok : Path → Prop)
    (st' st : InitState V) : Prop where
  base : ∀ t, ok t → st.baseByTarget t = st'.baseByTarget t
  behind : ∀ t, ok t → st.baseLayersByTarget t = (st'.baseLayersByTarget t).map f
  seen : ∀ t, ok t → (t ∈ st.chainSeen ↔ t ∈ st'.chainSeen)
  mounts : ∀ i, st.mountedAs (f i) = st'.mountedAs i
  layers : List.Forall₂ same st'.layers st.layers

/-- Two layers of the specs are in a chain alike, and folded away alike. -/
structure LikeTops (chainTop' chainTop : ℕ → Option ℕ) (n m : ℕ) : Prop where
  inChain : (chainTop m).isSome ↔ (chainTop' n).isSome
  folded : ((chainTop m).isSome ∧ chainTop m ≠ some m) ↔
    ((chainTop' n).isSome ∧ chainTop' n ≠ some n)

/-! ### A stream enters -/

section Enter

variable (chainTop : ℕ → Option ℕ) (st : InitState V) (L : LayerSpec) (gi : ℕ)

/-- What entering changes: the stream at one target, where it may. -/
theorem enterView_at (view : V) (behind : List ℕ) (t : Path) :
    ((enterView chainTop st L gi view behind).baseByTarget t
      = if t = L.target ∧ ((chainTop gi).isSome ∨ L.target ∉ st.chainSeen) then some view
        else st.baseByTarget t) ∧
    ((enterView chainTop st L gi view behind).baseLayersByTarget t
      = if t = L.target ∧ ((chainTop gi).isSome ∨ L.target ∉ st.chainSeen) then behind
        else st.baseLayersByTarget t) ∧
    (t ∈ (enterView chainTop st L gi view behind).chainSeen ↔
      t ∈ st.chainSeen ∨ t = L.target ∧ (chainTop gi).isSome) := by
  by_cases hp : (chainTop gi).isSome ∨ L.target ∉ st.chainSeen
  · rw [enterView_of chainTop st L gi view behind hp]
    refine ⟨?_, ?_, ?_⟩
    · dsimp only
      rw [Function.update_apply]
      exact if_congr (and_iff_left hp).symm rfl rfl
    · dsimp only
      rw [Function.update_apply]
      exact if_congr (and_iff_left hp).symm rfl rfl
    · dsimp only
      split
      · rename_i hc
        rw [List.mem_cons, and_iff_left hc, or_comm]
      · rename_i hc
        rw [or_iff_left fun hin => hc hin.2]
  · have hp' := not_or.1 hp
    have hc : chainTop gi = none := by simpa using hp'.1
    rw [enterView_over chainTop st L gi view behind hc (not_not.1 hp'.2)]
    rw [if_neg fun hin => hp hin.2, if_neg fun hin => hp hin.2]
    exact ⟨rfl, rfl, by simp [hc]⟩

end Enter

section Step

variable {same : Layer → Layer → Prop} {f : ℕ → ℕ} {ok : Path → Prop} {st' st : InitState V}
  {chainTop' chainTop : ℕ → Option ℕ} {L : LayerSpec} {n : ℕ}

theorem mapM_congr_of_mem {α β : Type} {g g' : α → Option β} {l : List α}
    (h : ∀ a ∈ l, g a = g' a) : l.mapM g = l.mapM g' := by
  induction l with
  | nil => rfl
  | cons a l ih =>
      rw [List.mapM_cons, List.mapM_cons, h a List.mem_cons_self,
        ih fun b hb => h b (List.mem_cons_of_mem _ hb)]

/-- The stream of a layer that both specs have. -/
theorem Alike.byteView (h : Alike same f ok st' st) (hok : L.type = .delta → ∀ t ∈ L.bases, ok t) :
    byteView T st L (f n) = (byteView T st' L n).map fun w => (w.1, w.2.map f) := by
  rw [VidyaGodFS.byteView, VidyaGodFS.byteView]
  cases T.openFile L.source with
  | none => rfl
  | some src =>
      dsimp only
      split
      · rename_i hd
        have hparts : L.bases.mapM st.baseByTarget = L.bases.mapM st'.baseByTarget :=
          mapM_congr_of_mem fun t ht => h.base t (hok hd t ht)
        have hbehind : L.bases.flatMap st.baseLayersByTarget
            = (L.bases.flatMap st'.baseLayersByTarget).map f := by
          rw [List.map_flatMap]
          exact List.flatMap_congr fun t ht => h.behind t (hok hd t ht)
        rw [hparts, hbehind]
        cases L.bases.mapM st'.baseByTarget with
        | none => rfl
        | some parts =>
            dsimp only
            cases T.compose src (T.joined parts) with
            | none => rfl
            | some view => rfl
      · rfl

/-- A stream that enters in both runs. -/
theorem Alike.enterView (h : Alike same f ok st' st)
    (hin : ok L.target → ((chainTop (f n)).isSome ↔ (chainTop' n).isSome)) (view : V)
    (behind : List ℕ) :
    Alike same f ok (enterView chainTop' st' L n view behind)
      (enterView chainTop st L (f n) view (behind.map f)) := by
  obtain ⟨hmounts, hlayers⟩ := enterView_mounts chainTop st L (f n) view (behind.map f)
  obtain ⟨hmounts', hlayers'⟩ := enterView_mounts chainTop' st' L n view behind
  have henters : ∀ t, ok t →
      (t = L.target ∧ ((chainTop (f n)).isSome ∨ L.target ∉ st.chainSeen) ↔
        t = L.target ∧ ((chainTop' n).isSome ∨ L.target ∉ st'.chainSeen)) := by
    intro t ht
    refine and_congr_right fun heq => or_congr (hin (heq ▸ ht)) (not_congr ?_)
    exact h.seen _ (heq ▸ ht)
  constructor
  · intro t ht
    rw [(enterView_at chainTop st L (f n) view (behind.map f) t).1,
      (enterView_at chainTop' st' L n view behind t).1]
    exact if_congr (henters t ht) rfl (h.base t ht)
  · intro t ht
    rw [(enterView_at chainTop st L (f n) view (behind.map f) t).2.1,
      (enterView_at chainTop' st' L n view behind t).2.1, apply_ite (List.map f)]
    exact if_congr (henters t ht) rfl (h.behind t ht)
  · intro t ht
    rw [(enterView_at chainTop st L (f n) view (behind.map f) t).2.2,
      (enterView_at chainTop' st' L n view behind t).2.2]
    exact or_congr (h.seen t ht) (and_congr_right fun heq => hin (heq ▸ ht))
  · rw [hmounts, hmounts']
    exact h.mounts
  · rw [hlayers, hlayers']
    exact h.layers

/-- A layer that surfaces in both runs. -/
theorem Alike.surface (h : Alike same f ok st' st) (hf : Function.Injective f) {B' B : LayerSpec}
    {type' type : LayerType} (hmade : ∀ prio, List.Forall₂ same (madeLayers B' type' prio)
      (madeLayers B type prio)) :
    Alike same f ok (surface st' B' n type') (surface st B (f n) type) := by
  have hlen := h.layers.length_eq
  have hmounts : B'.mounts.length = B.mounts.length := by
    simpa [madeLayers] using (hmade 0).length_eq
  refine ⟨h.base, h.behind, h.seen, ?_, ?_⟩
  · intro i
    change Function.update st.mountedAs (f n) _ (f i) = Function.update st'.mountedAs n _ i
    rw [Function.update_apply, Function.update_apply, hlen, hmounts, h.mounts i]
    exact if_congr hf.eq_iff rfl rfl
  · change List.Forall₂ same (st'.layers ++ madeLayers B' type' st'.layers.length)
      (st.layers ++ madeLayers B type st.layers.length)
    rw [← hlen]
    exact List.rel_append h.layers (hmade _)

theorem hideAt_forall₂ (hsame : Hideable same) {layers' layers : List Layer}
    (h : List.Forall₂ same layers' layers) (x : ℕ × Path) :
    List.Forall₂ same (hideAt layers' x) (hideAt layers x) := by
  rw [hideAt, hideAt]
  obtain ⟨i, p⟩ := x
  dsimp only
  induction h generalizing i with
  | nil => simp
  | cons hL hlayers ih =>
      cases i with
      | zero => exact .cons (hsame.hide p hL) hlayers
      | succ i => exact .cons hL (ih i)

theorem targets_eq (hsame : Hideable same) {layers' layers : List Layer}
    (h : List.Forall₂ same layers' layers) : layers.map Layer.target = layers'.map Layer.target := by
  induction h with
  | nil => rfl
  | cons hL _ ih => rw [List.map_cons, List.map_cons, ih, hsame.target hL]

theorem hideAll_forall₂ (hsame : Hideable same) (hidden : List (ℕ × Path))
    {layers' layers : List Layer} (h : List.Forall₂ same layers' layers) :
    List.Forall₂ same (hidden.foldl hideAt layers') (hidden.foldl hideAt layers) := by
  induction hidden generalizing layers' layers with
  | nil => exact h
  | cons x hidden ih => exact ih (hideAt_forall₂ hsame h x)

/-- What is hidden in both runs. -/
theorem Alike.hideBases (h : Alike same f ok st' st) (hsame : Hideable same) (behind : List ℕ) :
    Alike same f ok (hideBases st' n behind) (hideBases st (f n) (behind.map f)) := by
  refine ⟨h.base, h.behind, h.seen, h.mounts, ?_⟩
  have htarget : ∀ i d : ℕ, ((st.layers[d]?).map fun D => (i, D.target))
      = (st'.layers[d]?).map fun D => (i, D.target) := by
    intro i d
    have hd := congrArg (fun l : List Path => l[d]?) (targets_eq hsame h.layers)
    rw [List.getElem?_map, List.getElem?_map] at hd
    have hpair := congrArg (Option.map (Prod.mk i)) hd
    rwa [Option.map_map, Option.map_map] at hpair
  have hhidden : ((behind.map f).tail.flatMap fun b => (st.mountedAs b).flatMap fun i =>
        (st.mountedAs (f n)).filterMap fun d => (st.layers[d]?).map fun D => (i, D.target))
      = behind.tail.flatMap fun b => (st'.mountedAs b).flatMap fun i =>
        (st'.mountedAs n).filterMap fun d => (st'.layers[d]?).map fun D => (i, D.target) := by
    rw [← List.map_tail, List.flatMap_map]
    simp only [h.mounts, htarget]
  change List.Forall₂ same (List.foldl hideAt st'.layers _) (List.foldl hideAt st.layers _)
  rw [hhidden]
  exact hideAll_forall₂ hsame _ h.layers

theorem Alike.mono {ok' : Path → Prop} (h : Alike same f ok st' st) (hsub : ∀ t, ok' t → ok t) :
    Alike same f ok' st' st :=
  ⟨fun t ht => h.base t (hsub t ht), fun t ht => h.behind t (hsub t ht),
    fun t ht => h.seen t (hsub t ht), h.mounts, h.layers⟩

/-- States that are alike off a target are alike where they are so at the target too. -/
theorem Alike.rejoin {t : Path} (h : Alike same f (· ≠ t) st' st)
    (hbase : st.baseByTarget t = st'.baseByTarget t)
    (hbehind : st.baseLayersByTarget t = (st'.baseLayersByTarget t).map f)
    (hseen : t ∈ st.chainSeen ↔ t ∈ st'.chainSeen) : Alike same f (fun _ => True) st' st := by
  refine ⟨fun u _ => ?_, fun u _ => ?_, fun u _ => ?_, h.mounts, h.layers⟩
  · by_cases hu : u = t
    · rw [hu, hbase]
    · exact h.base u hu
  · by_cases hu : u = t
    · rw [hu, hbehind]
    · exact h.behind u hu
  · by_cases hu : u = t
    · rw [hu, hseen]
    · exact h.seen u hu

/-- A layer at the target changes no other stream. -/
theorem enterStep_off_target {t : Path} (hL : L.target = t) {u : Path} (hu : u ≠ t) :
    (enterStep T chainTop st L n).baseByTarget u = st.baseByTarget u ∧
      (enterStep T chainTop st L n).baseLayersByTarget u = st.baseLayersByTarget u ∧
      (u ∈ (enterStep T chainTop st L n).chainSeen ↔ u ∈ st.chainSeen) := by
  rw [enterStep]
  split
  · split
    · exact ⟨rfl, rfl, Iff.rfl⟩
    · rename_i view behind _
      obtain ⟨hb, hl, hs⟩ := enterView_at chainTop st L n view behind u
      have hne : u ≠ L.target := fun hc => hu (hc.trans hL)
      refine ⟨?_, ?_, ?_⟩
      · rw [hb, if_neg fun hc => hne hc.1]
      · rw [hl, if_neg fun hc => hne hc.1]
      · rw [hs, or_iff_left fun hc => hne hc.1]
  · exact ⟨rfl, rfl, Iff.rfl⟩

/-- Layers at the target change no other stream. -/
theorem Alike.enterStep_at {t : Path} {L' : LayerSpec} {n' : ℕ} (ht' : L'.target = t)
    (ht : L.target = t) (h : Alike same f (· ≠ t) st' st) :
    Alike same f (· ≠ t) (enterStep T chainTop' st' L' n') (enterStep T chainTop st L n) := by
  obtain ⟨hmounts, hlayers⟩ := enterStep_mounts T chainTop st L n
  obtain ⟨hmounts', hlayers'⟩ := enterStep_mounts T chainTop' st' L' n'
  constructor
  · intro u hu
    rw [(enterStep_off_target ht hu).1, (enterStep_off_target ht' hu).1]
    exact h.base u hu
  · intro u hu
    rw [(enterStep_off_target ht hu).2.1, (enterStep_off_target ht' hu).2.1]
    exact h.behind u hu
  · intro u hu
    rw [(enterStep_off_target ht hu).2.2, (enterStep_off_target ht' hu).2.2]
    exact h.seen u hu
  · rw [hmounts, hmounts']
    exact h.mounts
  · rw [hlayers, hlayers']
    exact h.layers

/-- A layer of one run changes nothing but what is at its target. -/
theorem Alike.enterStep_right {t : Path} (ht : L.target = t) (h : Alike same f (· ≠ t) st' st) :
    Alike same f (· ≠ t) st' (enterStep T chainTop st L n) := by
  obtain ⟨hmounts, hlayers⟩ := enterStep_mounts T chainTop st L n
  refine ⟨fun u hu => ?_, fun u hu => ?_, fun u hu => ?_, ?_, ?_⟩
  · rw [(enterStep_off_target ht hu).1]
    exact h.base u hu
  · rw [(enterStep_off_target ht hu).2.1]
    exact h.behind u hu
  · rw [(enterStep_off_target ht hu).2.2]
    exact h.seen u hu
  · rw [hmounts]
    exact h.mounts
  · rw [hlayers]
    exact h.layers

/-- **A layer that both specs have keeps the states alike**, where it has the same stream, surfaces
alike, and is in a chain alike where its target matters. -/
theorem Alike.step_of (h : Alike same f ok st' st) (hf : Function.Injective f)
    (hsame : Hideable same) (hrefl : ∀ L, same L L)
    (hview : VidyaGodFS.byteView T st L (f n)
      = (VidyaGodFS.byteView T st' L n).map fun w => (w.1, w.2.map f))
    (hin : L.isArchive = true → VidyaGodFS.byteView T st' L n ≠ none → ok L.target →
      ((chainTop (f n)).isSome ↔ (chainTop' n).isSome))
    (hsurf : surfacesAs T chainTop st L (f n) = surfacesAs T chainTop' st' L n) :
    Alike same f ok (stackStep T chainTop' st' (L, n)) (stackStep T chainTop st (L, f n)) := by
  have henter : Alike same f ok (enterStep T chainTop' st' L n)
      (enterStep T chainTop st L (f n)) := by
    rw [enterStep, enterStep]
    cases ha : L.isArchive with
    | false => exact h
    | true =>
        rw [if_pos rfl, if_pos rfl, hview]
        cases hv : VidyaGodFS.byteView T st' L n with
        | none => exact h
        | some w => exact h.enterView (hin ha (by simp [hv])) _ _
  have hhides : hides T st L (f n) = (hides T st' L n).map f := by
    rw [hides, hides]
    split
    · rw [hview]
      cases VidyaGodFS.byteView T st' L n with
      | none => rfl
      | some w => rfl
    · rfl
  rw [stackStep_eq, stackStep_eq, hsurf, hhides]
  cases surfacesAs T chainTop' st' L n with
  | none => exact henter
  | some type =>
      refine (henter.surface hf fun prio => ?_).hideBases hsame _
      exact List.forall₂_same.2 fun M _ => hrefl M

/-- What a layer surfaces as, where it has the same stream and is folded away alike. -/
theorem surfacesAs_eq (hview : VidyaGodFS.byteView T st L (f n)
      = (VidyaGodFS.byteView T st' L n).map fun w => (w.1, w.2.map f))
    (hfold : L.isArchive = true → ∀ w, VidyaGodFS.byteView T st' L n = some w →
      (T.index w.1 L.source).isSome → (((chainTop (f n)).isSome ∧ chainTop (f n) ≠ some (f n)) ↔
        ((chainTop' n).isSome ∧ chainTop' n ≠ some n))) :
    surfacesAs T chainTop st L (f n) = surfacesAs T chainTop' st' L n := by
  rw [surfacesAs, surfacesAs]
  cases ha : L.isArchive with
  | false =>
      cases htype : L.type with
      | dir => rfl
      | file => rfl
      | zip => simp [LayerSpec.isArchive, htype] at ha
      | delta => simp [LayerSpec.isArchive, htype] at ha
  | true =>
      rw [hview]
      cases hv : VidyaGodFS.byteView T st' L n with
      | none => rfl
      | some w =>
          cases hindex : T.index w.1 L.source with
          | none => simp [hindex]
          | some Z =>
              have hfold' := hfold ha w hv (by rw [hindex]; rfl)
              simp only [Option.map_some, hfold', hindex]

/-- **A layer that both specs have keeps the states alike**, where it has no stream or is in a
chain, and folded away, in both or in neither. -/
theorem Alike.step (h : Alike same f ok st' st) (hf : Function.Injective f)
    (hsame : Hideable same) (hrefl : ∀ L, same L L) (hok : L.type = .delta → ∀ t ∈ L.bases, ok t)
    (htops : L.isArchive = true → VidyaGodFS.byteView T st' L n ≠ none →
      LikeTops chainTop' chainTop n (f n)) :
    Alike same f ok (stackStep T chainTop' st' (L, n)) (stackStep T chainTop st (L, f n)) := by
  have hview := h.byteView (T := T) (n := n) hok
  refine h.step_of hf hsame hrefl hview (fun ha hv _ => (htops ha hv).inChain) ?_
  exact surfacesAs_eq hview fun ha w hv _ => (htops ha (by simp [hv])).folded

end Step

end VidyaGodFS
