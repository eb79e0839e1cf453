/-
**What a delta hides.**

A delta that surfaces hides the layers its stream was built from, under the places it surfaced at:
its bases, their bases, and so on, also through deltas that were folded away and hide nothing
themselves.  Where all layers open and compose this is told by the spec alone.

Main definitions:

* `Spec.BuiltFrom` — the layers a delta's stream was built from;
* `Hidden` — the layers made so far are hidden where the spec tells.

Main results:

* `viewOf_behind` — **the layers behind a stream are those it was built from**;
* `getElem?_hideAll` — what hiding does to the layers;
* `layerMasked_iff` — **a layer is hidden exactly under the places of the surfaced deltas built from
  it**.
-/

import VidyaGodFS.StackChains

set_option relaxedAutoImplicit false
set_option autoImplicit false

namespace VidyaGodFS

open Posix

variable {V : Type} {T : Tools V} {S : Spec}

/-! ### What a stream was built from -/

/-- **The stream of the delta `g` was built from layer `b`**: `b` was the stream at one of its base
targets when its turn came, or that stream was built from `b`. -/
inductive Spec.BuiltFrom (S : Spec) : ℕ → ℕ → Prop
  | base {g b : ℕ} {L : LayerSpec} {t : Path} : S.layers[g]? = some L → L.type = .delta →
      t ∈ L.bases → S.ViewAt g t b → S.BuiltFrom g b
  | trans {g q b : ℕ} {L : LayerSpec} {t : Path} : S.layers[g]? = some L → L.type = .delta →
      t ∈ L.bases → S.ViewAt g t q → S.BuiltFrom q b → S.BuiltFrom g b

theorem Spec.BuiltFrom.lt {g b : ℕ} (h : S.BuiltFrom g b) : b < g := by
  induction h with
  | base _ _ _ hview => exact hview.1
  | trans _ _ _ hview _ ih => exact ih.trans hview.1

theorem Spec.BuiltFrom.isDelta {g b : ℕ} (h : S.BuiltFrom g b) {L : LayerSpec}
    (hL : S.layers[g]? = some L) : L.type = .delta := by
  cases h with
  | base hL' hd _ _ => exact Option.some_inj.1 (hL'.symm.trans hL) ▸ hd
  | trans hL' hd _ _ _ => exact Option.some_inj.1 (hL'.symm.trans hL) ▸ hd

/-- Where a stream is at a target, it is that of some layer. -/
theorem exists_viewAt (hopen : AllOpen T S) {n : ℕ} (hn : n ≤ S.layers.length) {t : Path} {v : V}
    (hv : (stackBefore T S n).baseByTarget t = some v) : ∃ j, S.ViewAt n t j := by
  by_contra hnone
  -- the last of those that provide, if any does
  have hno : ∀ m ≤ n, ∀ j < m, S.Provides t j → ∃ q, q < m ∧ S.Provides t q ∧
      ∀ i, q < i → i < m → ¬ S.Provides t i := by
    intro m
    induction m with
    | zero => exact fun _ j hj => by omega
    | succ m ih =>
        intro hm j hj hp
        by_cases hpm : S.Provides t m
        · exact ⟨m, by omega, hpm, fun i hi him => by omega⟩
        · have hne : j ≠ m := by
            rintro rfl
            exact hpm hp
          obtain ⟨q, hq, hpq, hlast⟩ := ih (by omega) j (by omega) hp
          refine ⟨q, by omega, hpq, fun i hi him => ?_⟩
          rcases Nat.lt_succ_iff_lt_or_eq.1 him with hlt | rfl
          · exact hlast i hi hlt
          · exact hpm
  have hviews := (stackBefore_views hopen n hn).noView t fun j hj hp => hnone (hno n le_rfl j hj hp)
  rw [hviews.1] at hv
  simp at hv

/-- **The layers behind a stream** are the layer itself and those it was built from. -/
theorem viewOf_behind (hopen : AllOpen T S) :
    ∀ (j : ℕ) (v : V) (behind : List ℕ), ViewOf T S j v behind →
      ∃ rest, behind = j :: rest ∧ ∀ b, b ∈ rest ↔ S.BuiltFrom j b := by
  intro j
  induction j using Nat.strong_induction_on with
  | _ j ih =>
      rintro v behind ⟨L, hL, hview⟩
      have hj := (List.getElem?_eq_some_iff.1 hL).1
      by_cases hd : L.type = .delta
      · obtain ⟨src, parts, _, hparts, _, rfl⟩ := byteView_delta hd hview
        have hviews := stackBefore_views hopen j hj.le
        -- the stream at each base target, and what is behind it
        have hbase : ∀ t ∈ L.bases, ∃ q, S.ViewAt j t q ∧
            ∀ b, b ∈ (stackBefore T S j).baseLayersByTarget t ↔ b = q ∨ S.BuiltFrom q b := by
          intro t ht
          obtain ⟨i, hi⟩ := List.getElem?_of_mem ht
          obtain ⟨w, hw, _⟩ := mapM_some_getElem hparts hi
          obtain ⟨q, hq⟩ := exists_viewAt hopen hj.le hw
          obtain ⟨w', behind', hq', _, hlayers⟩ := hviews.view t q hq
          obtain ⟨rest, rfl, hrest⟩ := ih q hq.1 w' behind' hq'
          exact ⟨q, hq, fun b => by rw [hlayers, List.mem_cons, hrest]⟩
        refine ⟨_, rfl, fun b => ?_⟩
        rw [List.mem_flatMap]
        constructor
        · rintro ⟨t, ht, hb⟩
          obtain ⟨q, hq, hmem⟩ := hbase t ht
          rcases (hmem b).1 hb with rfl | hfrom
          · exact .base hL hd ht hq
          · exact .trans hL hd ht hq hfrom
        · intro hfrom
          cases hfrom with
          | base hL' _ ht hq =>
              obtain rfl := Option.some_inj.1 (hL'.symm.trans hL)
              obtain ⟨q, hq', hmem⟩ := hbase _ ht
              exact ⟨_, ht, (hmem b).2 (Or.inl (Spec.ViewAt.unique S hq hq'))⟩
          | trans hL' _ ht hq hfrom =>
              obtain rfl := Option.some_inj.1 (hL'.symm.trans hL)
              obtain ⟨q, hq', hmem⟩ := hbase _ ht
              exact ⟨_, ht, (hmem b).2 (Or.inr (Spec.ViewAt.unique S hq hq' ▸ hfrom))⟩
      · rw [byteView] at hview
        cases hsrc : T.openFile L.source with
        | none => simp [hsrc] at hview
        | some src =>
            obtain ⟨_, rfl⟩ : src = v ∧ [j] = behind := by simpa [hsrc, hd] using hview
            refine ⟨[], rfl, fun b => iff_of_false (by simp) fun hfrom => hd (hfrom.isDelta hL)⟩

/-! ### Hiding -/

/-- **What hiding does to the layers**: each gets the places it is hidden at. -/
theorem getElem?_hideAll (hidden : List (ℕ × Path)) (layers : List Layer) (i : ℕ) :
    (hidden.foldl hideAt layers)[i]? = (layers[i]?).map fun L =>
      { L with maskedUnder := L.maskedUnder ++ (hidden.filter (·.1 = i)).map Prod.snd } := by
  induction hidden generalizing layers with
  | nil =>
      rw [List.foldl_nil]
      cases layers[i]? with
      | none => rfl
      | some L => simp
  | cons h hidden ih =>
      rw [List.foldl_cons, ih, hideAt, List.getElem?_modify]
      cases layers[i]? with
      | none => rfl
      | some L =>
          by_cases hi : h.1 = i
          · simp [hi]
          · simp [hi]

/-- What a delta hides when it surfaces: the layers its stream was built from. -/
theorem mem_hides (hopen : AllOpen T S) {n b : ℕ} {L : LayerSpec} (hL : S.layers[n]? = some L) :
    b ∈ (hides T (stackBefore T S n) L n).tail ↔ S.BuiltFrom n b := by
  rw [hides]
  split
  · rename_i hd
    obtain ⟨v, behind, hview, _⟩ := hopen n L hL (by simp [LayerSpec.isArchive, hd])
    obtain ⟨rest, rfl, hrest⟩ := viewOf_behind hopen n v behind ⟨L, hL, hview⟩
    rw [hview]
    exact hrest b
  · rename_i hd
    exact iff_of_false (by simp) fun hfrom => hd (hfrom.isDelta hL)

/-- **The layers made so far are hidden where the spec tells**: each under the places of the deltas
built from the layer of the spec that it is of. -/
structure Hidden (S : Spec) (n : ℕ) (st : InitState V) : Prop where
  /-- What has surfaced is below `n` and made. -/
  made : ∀ b i, i ∈ st.mountedAs b → b < n ∧ i < st.layers.length
  /-- A layer made is of one layer of the spec. -/
  apart : ∀ b b' i, i ∈ st.mountedAs b → i ∈ st.mountedAs b' → b = b'
  places : ∀ b B, S.layers[b]? = some B → st.mountedAs b ≠ [] → ∀ p,
    (∃ i ∈ st.mountedAs b, ∃ L, st.layers[i]? = some L ∧ L.target = p) ↔ ∃ m ∈ B.mounts, m.2 = p
  hidden : ∀ b i L, i ∈ st.mountedAs b → st.layers[i]? = some L → ∀ p, p ∈ L.maskedUnder ↔
    ∃ g G, S.layers[g]? = some G ∧ st.mountedAs g ≠ [] ∧ S.BuiltFrom g b ∧ ∃ m ∈ G.mounts, m.2 = p

theorem hidden_start : Hidden S 0 (InitState.start : InitState V) := by
  constructor
  · rintro b i hi
    simp [InitState.start] at hi
  · rintro b b' i hi
    simp [InitState.start] at hi
  · rintro b B _ hne
    exact absurd rfl hne
  · rintro b i L hi
    simp [InitState.start] at hi

theorem Hidden.succ {n : ℕ} {st : InitState V} (h : Hidden S n st) : Hidden S (n + 1) st :=
  ⟨fun b i hi => ⟨Nat.lt_succ_of_lt (h.made b i hi).1, (h.made b i hi).2⟩, h.apart, h.places,
    h.hidden⟩

theorem Hidden.congr {n : ℕ} {st st' : InitState V} (h : Hidden S n st)
    (hmounts : st'.mountedAs = st.mountedAs) (hlayers : st'.layers = st.layers) :
    Hidden S n st' := by
  obtain ⟨made, apart, places, hidden⟩ := h
  constructor
  · rwa [hmounts, hlayers]
  · rwa [hmounts]
  · rwa [hmounts, hlayers]
  · rwa [hmounts, hlayers]

/-- The layers that a layer surfaces as show at its places, hidden nowhere so far. -/
theorem getElem?_surface {st : InitState V} {B : LayerSpec} {n : ℕ} {type : LayerType} {k : ℕ}
    {L : Layer} : (surface st B n type).layers[st.layers.length + k]? = some L ↔
      ∃ m, B.mounts[k]? = some m ∧ L = ⟨type, B.source, m.2, m.1, B.rw, [], st.layers.length + k⟩ := by
  rw [surface, madeLayers]
  dsimp only
  rw [List.getElem?_append_right (Nat.le_add_right ..), Nat.add_sub_cancel_left,
    List.getElem?_mapIdx, Option.map_eq_some_iff]
  simp only [eq_comm]

/-- The places of a layer that has just surfaced. -/
theorem places_surface (st : InitState V) (B : LayerSpec) (n : ℕ) (type : LayerType) {p : Path} :
    (∃ i ∈ (surface st B n type).mountedAs n, ∃ L, (surface st B n type).layers[i]? = some L ∧
      L.target = p) ↔ ∃ m ∈ B.mounts, m.2 = p := by
  have hself : (surface st B n type).mountedAs n
      = List.range' st.layers.length B.mounts.length := Function.update_self ..
  rw [hself]
  constructor
  · rintro ⟨i, hi, L, hL, rfl⟩
    obtain ⟨hle, hlt⟩ := List.mem_range'_1.1 hi
    obtain ⟨k, rfl⟩ := Nat.exists_eq_add_of_le hle
    obtain ⟨m, hm, rfl⟩ := getElem?_surface.1 hL
    exact ⟨m, List.mem_of_getElem? hm, rfl⟩
  · rintro ⟨m, hm, rfl⟩
    obtain ⟨k, hk⟩ := List.getElem?_of_mem hm
    have hlt := (List.getElem?_eq_some_iff.1 hk).1
    exact ⟨st.layers.length + k, List.mem_range'_1.2 ⟨by omega, by omega⟩, _,
      getElem?_surface.2 ⟨m, hk, rfl⟩, rfl⟩

/-- What `hideBases` adds to a layer. -/
theorem mem_hidden_places {st : InitState V} {n : ℕ} {behind : List ℕ} {i : ℕ} {p : Path} :
    p ∈ ((behind.tail.flatMap fun b => (st.mountedAs b).flatMap fun i =>
        (st.mountedAs n).filterMap fun d => (st.layers[d]?).map fun D => (i, D.target)).filter
          (·.1 = i)).map Prod.snd ↔
      (∃ b ∈ behind.tail, i ∈ st.mountedAs b) ∧
        ∃ d ∈ st.mountedAs n, ∃ D, st.layers[d]? = some D ∧ D.target = p := by
  simp only [List.mem_map, List.mem_filter, List.mem_flatMap, List.mem_filterMap,
    Option.map_eq_some_iff, decide_eq_true_eq]
  constructor
  · rintro ⟨_, ⟨⟨b, hb, i', hi, d, hd, D, hD, rfl⟩, rfl⟩, rfl⟩
    exact ⟨⟨b, hb, hi⟩, d, hd, D, hD, rfl⟩
  · rintro ⟨⟨b, hb, hi⟩, d, hd, D, hD, rfl⟩
    exact ⟨(i, D.target), ⟨⟨b, hb, i, hi, d, hd, D, hD, rfl⟩, rfl⟩, rfl⟩

theorem getElem?_hideBases {st : InitState V} {n : ℕ} {behind : List ℕ} {i : ℕ} {L : Layer}
    (hL : (hideBases st n behind).layers[i]? = some L) :
    ∃ L₀, st.layers[i]? = some L₀ ∧ L.target = L₀.target ∧ ∀ p, p ∈ L.maskedUnder ↔
      p ∈ L₀.maskedUnder ∨ (∃ b ∈ behind.tail, i ∈ st.mountedAs b) ∧
        ∃ d ∈ st.mountedAs n, ∃ D, st.layers[d]? = some D ∧ D.target = p := by
  rw [hideBases] at hL
  dsimp only at hL
  rw [getElem?_hideAll, Option.map_eq_some_iff] at hL
  obtain ⟨L₀, hL₀, rfl⟩ := hL
  refine ⟨L₀, hL₀, rfl, fun p => ?_⟩
  rw [List.mem_append, mem_hidden_places]

/-- The layers made by `hideBases` show where they showed. -/
theorem target_hideBases {st : InitState V} {n : ℕ} {behind : List ℕ} {l : List ℕ} {p : Path} :
    (∃ i ∈ l, ∃ L, (hideBases st n behind).layers[i]? = some L ∧ L.target = p) ↔
      ∃ i ∈ l, ∃ L, st.layers[i]? = some L ∧ L.target = p := by
  constructor
  · rintro ⟨i, hi, L, hL, rfl⟩
    obtain ⟨L₀, hL₀, ht, _⟩ := getElem?_hideBases hL
    exact ⟨i, hi, L₀, hL₀, ht.symm⟩
  · rintro ⟨i, hi, L₀, hL₀, rfl⟩
    refine ⟨i, hi, ?_⟩
    rw [hideBases]
    dsimp only
    rw [getElem?_hideAll, hL₀]
    exact ⟨_, rfl, rfl⟩

theorem length_hideBases {st : InitState V} {n : ℕ} {behind : List ℕ} :
    (hideBases st n behind).layers.length = st.layers.length := by
  have hfold : ∀ (hidden : List (ℕ × Path)) (layers : List Layer),
      (hidden.foldl hideAt layers).length = layers.length := by
    intro hidden
    induction hidden with
    | nil => exact fun _ => rfl
    | cons h hidden ih =>
        intro layers
        rw [List.foldl_cons, ih, hideAt, List.length_modify]
  exact hfold _ _

theorem mountedAs_surface_of_ne (st : InitState V) (B : LayerSpec) (type : LayerType) {n b : ℕ}
    (hb : b ≠ n) : (surface st B n type).mountedAs b = st.mountedAs b := Function.update_of_ne hb ..

section

variable {n : ℕ} {st : InitState V} (h : Hidden S n st) {B : LayerSpec} (type : LayerType)
include h

/-- A layer made is one of those made before, or of the layer of the spec that has just surfaced. -/
theorem Hidden.mountedAs_surface {b i : ℕ} (hi : i ∈ (surface st B n type).mountedAs b) :
    (b = n ∧ ∃ k, i = st.layers.length + k ∧ k < B.mounts.length) ∨
      (b < n ∧ i ∈ st.mountedAs b ∧ i < st.layers.length) := by
  by_cases hb : b = n
  · subst hb
    have hself : (VidyaGodFS.surface st B b type).mountedAs b
        = List.range' st.layers.length B.mounts.length := Function.update_self ..
    rw [hself, List.mem_range'_1] at hi
    obtain ⟨k, rfl⟩ := Nat.exists_eq_add_of_le hi.1
    exact Or.inl ⟨rfl, k, rfl, by omega⟩
  · rw [mountedAs_surface_of_ne st B type hb] at hi
    exact Or.inr ⟨(h.made b i hi).1, hi, (h.made b i hi).2⟩

/-- The layers just made are hidden nowhere yet. -/
theorem Hidden.hidden_new {behind : List ℕ} (hbehind : ∀ b, b ∈ behind.tail ↔ S.BuiltFrom n b)
    {k : ℕ} {L₀ : Layer} (hL₀ : (surface st B n type).layers[st.layers.length + k]? = some L₀)
    {p : Path} (Q : ℕ → LayerSpec → Prop) (R : Prop) :
    (p ∈ L₀.maskedUnder ∨
        (∃ b ∈ behind.tail, st.layers.length + k ∈ (surface st B n type).mountedAs b) ∧ R) ↔
      ∃ g G, S.layers[g]? = some G ∧ (surface st B n type).mountedAs g ≠ [] ∧ S.BuiltFrom g n ∧
        Q g G := by
  obtain ⟨m, _, rfl⟩ := getElem?_surface.1 hL₀
  refine iff_of_false ?_ ?_
  · rintro (hp | ⟨⟨b', hb', hi'⟩, _⟩)
    · simp at hp
    · have hlt := ((hbehind b').1 hb').lt
      rw [mountedAs_surface_of_ne st B type (by omega)] at hi'
      exact absurd (h.made b' _ hi').2 (by omega)
  · rintro ⟨g, G, _, hsurf, hfrom, _⟩
    rw [mountedAs_surface_of_ne st B type (by have := hfrom.lt; omega)] at hsurf
    obtain ⟨d, hd⟩ := List.exists_mem_of_ne_nil _ hsurf
    exact absurd (h.made g d hd).1 (by have := hfrom.lt; omega)

/-- The layers made before are hidden in addition by what has surfaced, if that is built from them. -/
theorem Hidden.hidden_old (hB : S.layers[n]? = some B) {behind : List ℕ}
    (hbehind : ∀ b, b ∈ behind.tail ↔ S.BuiltFrom n b) {b i : ℕ} (hi : i ∈ st.mountedAs b)
    {p : Path} :
    ((∃ g G, S.layers[g]? = some G ∧ st.mountedAs g ≠ [] ∧ S.BuiltFrom g b ∧
          ∃ m ∈ G.mounts, m.2 = p) ∨
        (∃ b' ∈ behind.tail, i ∈ (surface st B n type).mountedAs b') ∧ ∃ m ∈ B.mounts, m.2 = p) ↔
      ∃ g G, S.layers[g]? = some G ∧ (surface st B n type).mountedAs g ≠ [] ∧ S.BuiltFrom g b ∧
        ∃ m ∈ G.mounts, m.2 = p := by
  have hself : (VidyaGodFS.surface st B n type).mountedAs n
      = List.range' st.layers.length B.mounts.length := Function.update_self ..
  constructor
  · rintro (⟨g, G, hG, hsurf, hfrom, hm⟩ | ⟨⟨b', hb', hi'⟩, hm⟩)
    · have hgn : g ≠ n := by
        rintro rfl
        exact hsurf (List.eq_nil_iff_forall_not_mem.2 fun j hj => (h.made g j hj).1.false)
      exact ⟨g, G, hG, by rwa [mountedAs_surface_of_ne st B type hgn], hfrom, hm⟩
    · have hfrom := (hbehind b').1 hb'
      rw [mountedAs_surface_of_ne st B type hfrom.lt.ne] at hi'
      obtain rfl := h.apart b b' i hi hi'
      refine ⟨n, B, hB, ?_, hfrom, hm⟩
      rw [hself, ne_eq, List.range'_eq_nil_iff]
      exact fun h0 => B.mounts_ne_nil (List.length_eq_zero_iff.1 h0)
  · rintro ⟨g, G, hG, hsurf, hfrom, hm⟩
    by_cases hgn : g = n
    · subst hgn
      obtain rfl := Option.some_inj.1 (hG.symm.trans hB)
      refine Or.inr ⟨⟨b, (hbehind b).2 hfrom, ?_⟩, hm⟩
      rwa [mountedAs_surface_of_ne st _ type hfrom.lt.ne]
    · rw [mountedAs_surface_of_ne st B type hgn] at hsurf
      exact Or.inl ⟨g, G, hG, hsurf, hfrom, hm⟩

/-- **A layer of the spec that surfaces keeps the layers hidden where the spec tells.** -/
theorem Hidden.surface (hB : S.layers[n]? = some B) {behind : List ℕ}
    (hbehind : ∀ b, b ∈ behind.tail ↔ S.BuiltFrom n b) :
    Hidden S (n + 1) (hideBases (surface st B n type) n behind) := by
  have hlen : (hideBases (VidyaGodFS.surface st B n type) n behind).layers.length
      = st.layers.length + B.mounts.length := by
    rw [length_hideBases, VidyaGodFS.surface, madeLayers, List.length_append, List.length_mapIdx]
  have hget : ∀ i < st.layers.length, (VidyaGodFS.surface st B n type).layers[i]? = st.layers[i]? :=
    fun i hi => List.getElem?_append_left hi
  constructor
  · intro b i hi
    rw [hlen]
    rcases h.mountedAs_surface type hi with ⟨rfl, k, rfl, hk⟩ | ⟨hbn, -, hil⟩
    · exact ⟨Nat.lt_succ_self _, by omega⟩
    · exact ⟨by omega, by omega⟩
  · intro b b' i hi hi'
    rcases h.mountedAs_surface type hi with ⟨rfl, k, rfl, hk⟩ | ⟨hbn, hmem, hil⟩
    · rcases h.mountedAs_surface type hi' with ⟨rfl, -⟩ | ⟨-, -, hil⟩
      · rfl
      · omega
    · rcases h.mountedAs_surface type hi' with ⟨-, k, rfl, -⟩ | ⟨-, hmem', -⟩
      · omega
      · exact h.apart b b' i hmem hmem'
  · intro b B' hB' hsurf p
    rw [target_hideBases]
    change (VidyaGodFS.surface st B n type).mountedAs b ≠ [] at hsurf
    change (∃ i ∈ (VidyaGodFS.surface st B n type).mountedAs b, _) ↔ _
    by_cases hb : b = n
    · subst hb
      obtain rfl := Option.some_inj.1 (hB'.symm.trans hB)
      exact places_surface ..
    · rw [mountedAs_surface_of_ne st B type hb] at hsurf ⊢
      rw [← h.places b B' hB' hsurf p]
      refine exists_congr fun i => and_congr_right fun hi => ?_
      rw [hget i (h.made b i hi).2]
  · intro b i L hi hL p
    obtain ⟨L₀, hL₀, _, hmask⟩ := getElem?_hideBases hL
    rw [hmask, places_surface st B n type]
    rcases h.mountedAs_surface type hi with ⟨rfl, k, rfl, hk⟩ | ⟨-, hmem, hil⟩
    · exact h.hidden_new type hbehind hL₀ _ _
    · rw [hget i hil] at hL₀
      rw [h.hidden b i L₀ hmem hL₀]
      exact h.hidden_old type hB hbehind hmem

end

/-- **The loop keeps the layers hidden where the spec tells.** -/
theorem hidden_stackBefore (hopen : AllOpen T S) :
    ∀ n ≤ S.layers.length, Hidden S n (stackBefore T S n) := by
  intro n
  induction n with
  | zero => exact fun _ => hidden_start
  | succ n ih =>
      intro hn
      have hB := List.getElem?_eq_getElem (l := S.layers) (i := n) (by omega)
      obtain ⟨hmounts, hlayers⟩ :=
        enterStep_mounts T S.chainTop (stackBefore T S n) S.layers[n] n
      have henter := (ih (by omega)).congr hmounts hlayers
      rw [stackBefore_succ hB, stackStep_eq]
      split
      · exact henter.succ
      · exact henter.surface _ hB fun b => mem_hides hopen hB

/-- **A delta hides what it was built from, where it surfaced.**  Where all zip and delta layers
open and compose, a layer made of layer `b` of the spec is hidden at a path exactly when that is at
or below a place of a delta that surfaced and whose stream was built from `b`. -/
theorem layerMasked_iff (T : Tools V) (S : Spec) (hopen : AllOpen T S) (b i : ℕ) (L : Layer)
    (hi : i ∈ (stackRun T S).mountedAs b) (hL : (stackLayers T S)[i]? = some L) (p : Path) :
    layerMasked L p = true ↔
      ∃ g G, S.layers[g]? = some G ∧ (stackRun T S).mountedAs g ≠ [] ∧ S.BuiltFrom g b ∧
        ∃ m ∈ G.mounts, m.2 <+: p := by
  have hhidden := hidden_stackBefore hopen S.layers.length le_rfl
  rw [stackBefore_length] at hhidden
  rw [layerMasked, List.any_eq_true]
  constructor
  · rintro ⟨q, hq, hqp⟩
    obtain ⟨g, G, hG, hsurf, hfrom, m, hm, rfl⟩ := (hhidden.hidden b i L hi hL q).1 hq
    exact ⟨g, G, hG, hsurf, hfrom, m, hm, List.isPrefixOf_iff_prefix.1 hqp⟩
  · rintro ⟨g, G, hG, hsurf, hfrom, m, hm, hmp⟩
    exact ⟨m.2, (hhidden.hidden b i L hi hL m.2).2 ⟨g, G, hG, hsurf, hfrom, m, hm, rfl⟩,
      List.isPrefixOf_iff_prefix.2 hmp⟩

end VidyaGodFS
