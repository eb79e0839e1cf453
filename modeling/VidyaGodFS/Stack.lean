/-
**From a spec to the layers of a mount.**

A spec lists layers, the lowest first.  A zip or a delta is a stream of bytes before it is a layer:
a delta is applied to the streams that are *at* its base targets when its turn comes, and what it
composes to is then the stream at its own target.  The zip and delta layers of one target fall into
chains, each a layer and the deltas built over the target right after it; of a chain only the last
member surfaces.  A delta that surfaces hides, under the places it surfaced at, every layer its
stream was built from.

What opens a file, composes a delta and indexes an archive is a parameter here (`Tools`), so that
the results about stacks hold whatever these do.

Main definitions:

* `LayerSpec`, `Spec` — the spec;
* `chainRuns`, `Spec.chainTop` — the chains, fixed before any file is opened;
* `Tools`, `InitState`, `byteView`, `enterView`, `surface`, `hideBases`, `stackStep`,
  `stackLayers` — the loop over the layers of the spec;
* `Spec.Next` — a layer and the next zip or delta layer at its target.

Main results:

* `chainRuns_spec` — **what the chains say of a layer depends on the next layer at its target
  only**;
* `Spec.chainTop_ne_iff`, `Spec.chainTop_isSome_iff` — a layer is folded away when the next one is
  built over the target; it is in a chain when it is a delta or folded away.
-/

import Mathlib.Data.List.TakeWhile
import VidyaGodFS.Layers

set_option relaxedAutoImplicit false
set_option autoImplicit false

namespace VidyaGodFS

open Posix

/-! ### The spec -/

inductive SpecType
  | dir
  | zip
  | file
  | delta
  deriving DecidableEq, Repr

structure LayerSpec where
  type : SpecType
  source : HostPath
  target : Path
  /-- Delta only: the streams at these targets, one after the other, are its base.  None declared
  means the one at its own target. -/
  baseTargets : List Path
  /-- What of the source shows where. -/
  submounts : List (Path × Path)
  rw : Bool

namespace LayerSpec

variable (L : LayerSpec)

/-- A zip or a delta. -/
def isArchive : Bool := L.type = .zip || L.type = .delta

/-- A zip or a delta at the target `t`. -/
def isAt (t : Path) : Bool := L.isArchive && L.target = t

/-- A delta built over its own target. -/
def builtOverOwnTarget : Bool :=
  L.type = .delta && (L.baseTargets.isEmpty || L.baseTargets.contains L.target)

/-- The targets whose streams a delta is applied to. -/
def bases : List Path := if L.baseTargets = [] then [L.target] else L.baseTargets

/-- The places the layer shows at, each with what of the source shows there. -/
def mounts : List (Path × Path) :=
  if L.submounts = [] ∨ L.type = .file then [([], L.target)] else L.submounts

theorem mounts_ne_nil : L.mounts ≠ [] := by
  rw [mounts]
  split
  · simp
  · rename_i h
    exact fun hnil => h (Or.inl hnil)

end LayerSpec

structure Spec where
  /-- The lowest first. -/
  layers : List LayerSpec

/-! ### Chains -/

/-- The chains among the layers of one target, each given with its number: for every member of a
chain, the number of the last one.  Every turn takes a layer at least. -/
def chainRuns : ℕ → List (LayerSpec × ℕ) → List (ℕ × ℕ)
  | 0, _ => []
  | _ + 1, [] => []
  | fuel + 1, x :: rest =>
      let run := rest.takeWhile fun y => y.1.builtOverOwnTarget
      let others := chainRuns fuel (rest.dropWhile fun y => y.1.builtOverOwnTarget)
      if x.1.type = .zip ∧ run = [] then others
      else (x :: run).map (fun y => (y.2, (run.getLastD x).2)) ++ others

/-- The members of a run, each with the last one. -/
theorem lookup_run {run : List (LayerSpec × ℕ)} {others : List (ℕ × ℕ)} {top gi : ℕ} :
    ((run.map fun y => (y.2, top)) ++ others).lookup gi
      = if gi ∈ run.map Prod.snd then some top else others.lookup gi := by
  induction run with
  | nil => simp
  | cons y run ih =>
      rw [List.map_cons, List.cons_append, List.lookup_cons, ih, List.map_cons]
      by_cases hy : gi = y.2
      · rw [hy, beq_self_eq_true, if_pos List.mem_cons_self]
      · rw [beq_false_of_ne hy]
        exact if_congr (by simp [hy]) rfl rfl

theorem lookup_chainRuns_none {fuel gi : ℕ} {l : List (LayerSpec × ℕ)}
    (h : gi ∉ l.map Prod.snd) : (chainRuns fuel l).lookup gi = none := by
  induction fuel generalizing l with
  | zero => rfl
  | succ fuel ih =>
      cases l with
      | nil => rfl
      | cons x rest =>
          have hsplit := List.takeWhile_append_dropWhile
            (p := fun y : LayerSpec × ℕ => y.1.builtOverOwnTarget) (l := rest)
          rw [List.map_cons, ← hsplit, List.map_append, List.mem_cons, List.mem_append] at h
          rw [chainRuns]
          split
          · exact ih fun hd => h (Or.inr (Or.inr hd))
          · rw [lookup_run, if_neg, ih fun hd => h (Or.inr (Or.inr hd))]
            rw [List.map_cons, List.mem_cons]
            exact fun hr => h (hr.imp_right Or.inl)

/-- The layer that comes next is built over the target. -/
def folds (post : List (LayerSpec × ℕ)) : Bool :=
  post.head?.any fun y => y.1.builtOverOwnTarget

/-- What the chains `tops` say of a layer, in terms of what comes after it: it is in a chain when it
is a delta or the next layer is built over the target; it is the last of its chain when the next is
not; and the next is in the same chain when it is. -/
structure ChainSpec (tops : List (ℕ × ℕ)) (x : LayerSpec × ℕ) (post : List (LayerSpec × ℕ)) :
    Prop where
  isSome_iff : (tops.lookup x.2).isSome ↔ x.1.type ≠ .zip ∨ folds post = true
  last : folds post = false → (tops.lookup x.2).isSome → tops.lookup x.2 = some x.2
  not_last : folds post = true → tops.lookup x.2 ≠ some x.2
  next : folds post = true → ∀ y ∈ post.head?, tops.lookup y.2 = tops.lookup x.2

theorem ChainSpec.congr {tops tops' : List (ℕ × ℕ)} {x : LayerSpec × ℕ}
    {post : List (LayerSpec × ℕ)} (h : ChainSpec tops x post)
    (hx : tops'.lookup x.2 = tops.lookup x.2)
    (hy : ∀ y ∈ post.head?, tops'.lookup y.2 = tops.lookup y.2) : ChainSpec tops' x post := by
  refine ⟨hx ▸ h.isSome_iff, hx ▸ h.last, hx ▸ h.not_last, ?_⟩
  intro hf y hmem
  rw [hx, hy y hmem]
  exact h.next hf y hmem

theorem type_of_builtOverOwnTarget {L : LayerSpec} (h : L.builtOverOwnTarget = true) :
    L.type = .delta := by
  rw [LayerSpec.builtOverOwnTarget, Bool.and_eq_true] at h
  simpa using h.1

/-- The members of a run. -/
theorem chainSpec_run {a x : LayerSpec × ℕ} {run pre post others : List (LayerSpec × ℕ)}
    {tops : List (ℕ × ℕ)} (hin : a :: run = pre ++ x :: post)
    (hrun : ∀ y ∈ run, y.1.builtOverOwnTarget = true) (hstop : folds others = false)
    (hnd : ((a :: run).map Prod.snd).Nodup)
    (htop : ∀ y ∈ a :: run, tops.lookup y.2
      = if a.1.type = .zip ∧ run = [] then none else some (run.getLastD a).2) :
    ChainSpec tops x (post ++ others) := by
  have hx : x ∈ a :: run := by
    rw [hin]
    exact List.mem_append_right _ List.mem_cons_self
  cases post with
  | nil =>
      -- the last of the run
      have hlast : run.getLastD a = x := by
        have := congrArg List.getLast? hin
        rw [List.getLast?_cons, List.getLast?_append] at this
        simpa using this
      rw [List.nil_append]
      refine ⟨?_, ?_, by simp [hstop], by simp [hstop]⟩
      · rw [htop x hx]
        split
        · rename_i hc
          obtain ⟨hz, rfl⟩ := hc
          obtain rfl : x = a := List.mem_singleton.1 hx
          simp [hz, hstop]
        · rename_i hc
          refine iff_of_true (by simp) (Or.inl ?_)
          rcases List.mem_cons.1 hx with rfl | hx
          · intro hz
            refine hc ⟨hz, ?_⟩
            -- a member after the first would be the last, so the first again
            by_contra hne
            rw [List.getLastD_eq_getLast?, List.getLast?_eq_getLast_of_ne_nil hne,
              Option.getD_some] at hlast
            rw [List.map_cons, List.nodup_cons] at hnd
            exact hnd.1 (List.mem_map.2 ⟨_, List.getLast_mem hne, congrArg Prod.snd hlast⟩)
          · rw [type_of_builtOverOwnTarget (hrun x hx)]
            decide
      · intro _ hsome
        rw [htop x hx] at hsome ⊢
        split at hsome
        · simp at hsome
        · rename_i hc
          rw [if_neg hc, hlast]
  | cons y post =>
      have hy : y ∈ run := by
        cases pre with
        | nil =>
            obtain ⟨-, hr⟩ := List.cons.inj hin
            rw [hr]
            exact List.mem_cons_self
        | cons p pre =>
            obtain ⟨-, hr⟩ := List.cons.inj hin
            rw [hr]
            simp
      have hfolds : folds (y :: post ++ others) = true := by
        rw [folds]
        simpa using hrun y hy
      have hc : ¬ (a.1.type = .zip ∧ run = []) := fun hc => by simp [hc.2] at hy
      have htop' : ∀ z ∈ a :: run, tops.lookup z.2 = some (run.getLastD a).2 := by
        intro z hz
        rw [htop z hz, if_neg hc]
      have hlast : run.getLastD a ∈ y :: post := by
        have := congrArg List.getLast? hin
        rw [List.getLast?_cons, List.getLast?_append, List.getLast?_cons_cons] at this
        have hsome := List.getLast?_eq_getLast_of_ne_nil (List.cons_ne_nil y post)
        rw [hsome, Option.some_or, Option.some_inj] at this
        rw [List.getLastD_eq_getLast?, this]
        exact List.getLast_mem _
      refine ⟨?_, fun hf => absurd (hfolds.symm.trans hf) (by decide), ?_, ?_⟩
      · rw [htop' x hx]
        exact iff_of_true rfl (Or.inr hfolds)
      · intro _ heq
        rw [htop' x hx, Option.some_inj] at heq
        rw [hin, List.map_append, List.map_cons] at hnd
        have hnd' := (List.nodup_append.1 hnd).2.1
        rw [List.nodup_cons] at hnd'
        exact hnd'.1 (List.mem_map.2 ⟨_, hlast, heq⟩)
      · intro _ z hz
        obtain rfl : y = z := by simpa using hz
        rw [htop' x hx, htop' y (List.mem_cons_of_mem _ hy)]

theorem folds_dropWhile (l : List (LayerSpec × ℕ)) :
    folds (l.dropWhile fun y => y.1.builtOverOwnTarget) = false := by
  rw [folds]
  cases h : (l.dropWhile fun y => y.1.builtOverOwnTarget).head? with
  | none => rfl
  | some y =>
      have hy := List.head?_dropWhile_not (fun y : LayerSpec × ℕ => y.1.builtOverOwnTarget) l
      rw [h] at hy
      simpa using hy

/-- **What the chains say of a layer depends on the next layer of its target only.** -/
theorem chainRuns_spec :
    ∀ (fuel : ℕ) (l pre : List (LayerSpec × ℕ)) (x : LayerSpec × ℕ) (post : List (LayerSpec × ℕ)),
      l.length ≤ fuel → (l.map Prod.snd).Nodup → l = pre ++ x :: post →
      ChainSpec (chainRuns fuel l) x post := by
  intro fuel
  induction fuel with
  | zero =>
      rintro l pre x post hlen _ rfl
      simp at hlen
  | succ fuel ih =>
      intro l pre x post hlen hnd hl
      cases l with
      | nil => simp at hl
      | cons a rest =>
          have hsplit := List.takeWhile_append_dropWhile
            (p := fun y : LayerSpec × ℕ => y.1.builtOverOwnTarget) (l := rest)
          have hstop := folds_dropWhile rest
          have hrun : ∀ y ∈ rest.takeWhile fun y => y.1.builtOverOwnTarget,
              y.1.builtOverOwnTarget = true := fun y hy =>
            List.mem_takeWhile_imp (p := fun y : LayerSpec × ℕ => y.1.builtOverOwnTarget) hy
          rw [chainRuns]
          generalize (rest.takeWhile fun y => y.1.builtOverOwnTarget) = run at *
          generalize (rest.dropWhile fun y => y.1.builtOverOwnTarget) = others at *
          subst hsplit
          rw [List.length_cons, List.length_append] at hlen
          rw [List.map_cons, List.map_append] at hnd
          have hnd' : (((a :: run).map Prod.snd) ++ others.map Prod.snd).Nodup := by
            rwa [List.map_cons, List.cons_append]
          have hl' : (a :: run) ++ others = pre ++ x :: post := by rw [List.cons_append, hl]
          have hafter : ∀ pre', others = pre' ++ x :: post → ChainSpec
              (if a.1.type = .zip ∧ run = [] then chainRuns fuel others
                else (a :: run).map (fun y => (y.2, (run.getLastD a).2)) ++ chainRuns fuel others)
              x post := by
            intro pre' hothers
            have hspec := ih others pre' x post (by omega) (List.nodup_append.1 hnd').2.1 hothers
            have hout : ∀ y ∈ others, (if a.1.type = .zip ∧ run = [] then chainRuns fuel others
                else (a :: run).map (fun y => (y.2, (run.getLastD a).2))
                  ++ chainRuns fuel others).lookup y.2 = (chainRuns fuel others).lookup y.2 := by
              intro y hy
              have hmem : y.2 ∈ others.map Prod.snd := List.mem_map_of_mem hy
              split
              · rfl
              · rw [lookup_run, if_neg fun hy' => (List.nodup_append.1 hnd').2.2 _ hy' _ hmem rfl]
            refine hspec.congr (hout x (by simp [hothers])) fun y hy => hout y ?_
            rw [hothers]
            exact List.mem_append_right _ (List.mem_cons_of_mem _ (List.mem_of_mem_head? hy))
          -- `x` comes after the run, or it is in it
          rcases List.append_eq_append_iff.1 hl' with ⟨pre', _, hothers⟩ | ⟨post', hin, hpost⟩
          · exact hafter pre' hothers
          · cases post' with
            | nil => exact hafter [] (by simpa using hpost.symm)
            | cons x' post' =>
                obtain ⟨rfl, rfl⟩ := List.cons.inj hpost
                refine chainSpec_run hin hrun hstop (List.nodup_append.1 hnd').1 ?_
                intro y hy
                have hmem : y.2 ∈ (a :: run).map Prod.snd := List.mem_map_of_mem hy
                split
                · exact lookup_chainRuns_none fun hy' =>
                    (List.nodup_append.1 hnd').2.2 _ hmem _ hy' rfl
                · rw [lookup_run, if_pos hmem]

namespace Spec

variable (S : Spec)

/-- The zip and delta layers of one target, in order. -/
def byTarget (t : Path) : List (LayerSpec × ℕ) := S.layers.zipIdx.filter (·.1.isAt t)

/-- The last member of the chain a layer belongs to, if it belongs to one. -/
def chainTop (gi : ℕ) : Option ℕ :=
  match S.layers[gi]? with
  | none => none
  | some L => (chainRuns S.layers.length (S.byTarget L.target)).lookup gi

/-- `gi` is a zip or delta layer at the target `t`. -/
def ArchiveAt (t : Path) (gi : ℕ) : Prop :=
  ∃ L, S.layers[gi]? = some L ∧ L.isArchive = true ∧ L.target = t

/-- `g` is the next zip or delta layer at the target of `q`. -/
def Next (q g : ℕ) : Prop :=
  ∃ t, q < g ∧ S.ArchiveAt t q ∧ S.ArchiveAt t g ∧ ∀ j, q < j → j < g → ¬ S.ArchiveAt t j

/-- **The layer is folded away**: the next zip or delta layer at its target is a delta built over
that target. -/
def Folded (q : ℕ) : Prop :=
  ∃ g L, S.Next q g ∧ S.layers[g]? = some L ∧ L.builtOverOwnTarget = true

theorem Next.unique_left {p p' k : ℕ} (h : S.Next p k) (h' : S.Next p' k) : p = p' := by
  obtain ⟨t, hlt, hp, ⟨K, hK, _, rfl⟩, hbetween⟩ := h
  obtain ⟨t', hlt', hp', ⟨K', hK', _, rfl⟩, hbetween'⟩ := h'
  obtain rfl : K = K' := Option.some_inj.1 (hK.symm.trans hK')
  rcases Nat.lt_trichotomy p p' with hcmp | hcmp | hcmp
  · exact absurd hp' (hbetween p' hcmp hlt')
  · exact hcmp
  · exact absurd hp (hbetween' p hcmp hlt)

theorem nodup_byTarget (t : Path) : ((S.byTarget t).map Prod.snd).Nodup := by
  refine List.Nodup.sublist (List.filter_sublist.map _) ?_
  rw [List.zipIdx_map_snd]
  exact List.nodup_range'

theorem length_byTarget (t : Path) : (S.byTarget t).length ≤ S.layers.length :=
  (List.length_filter_le _ _).trans List.length_zipIdx.le

/-- The layers of a target around one of them: the one that follows is the next. -/
theorem byTarget_split {gi : ℕ} {L : LayerSpec} (hL : S.layers[gi]? = some L)
    (ha : L.isArchive = true) :
    ∃ pre post, S.byTarget L.target = pre ++ (L, gi) :: post ∧
      ∀ y : LayerSpec × ℕ, post.head? = some y ↔ S.layers[y.2]? = some y.1 ∧ S.Next gi y.2 := by
  have hlt := (List.getElem?_eq_some_iff.1 hL).1
  have hget : S.layers.zipIdx[gi]? = some (L, gi) := by
    rw [List.getElem?_zipIdx, hL, Option.map_some, Nat.zero_add]
  have hsplit : S.layers.zipIdx = S.layers.zipIdx.take gi ++ (L, gi) ::
      S.layers.zipIdx.drop (gi + 1) := by
    obtain ⟨h, hx⟩ := List.getElem?_eq_some_iff.1 hget
    rw [← hx, ← List.drop_eq_getElem_cons h, List.take_append_drop]
  have hp : L.isAt L.target = true := by simp [LayerSpec.isAt, ha]
  refine ⟨(S.layers.zipIdx.take gi).filter (·.1.isAt L.target),
    (S.layers.zipIdx.drop (gi + 1)).filter (·.1.isAt L.target), ?_, ?_⟩
  · conv_lhs => rw [byTarget, hsplit]
    rw [List.filter_append, List.filter_cons, if_pos hp]
  · intro y
    rw [List.head?_filter, List.find?_eq_some_iff_getElem]
    have hat : ∀ i x, (S.layers.zipIdx.drop (gi + 1))[i]? = some x ↔
        x.2 = gi + 1 + i ∧ S.layers[gi + 1 + i]? = some x.1 := by
      intro i x
      rw [List.getElem?_drop, List.getElem?_zipIdx, Option.map_eq_some_iff, Nat.zero_add]
      constructor
      · rintro ⟨B, hB, rfl⟩
        exact ⟨rfl, hB⟩
      · rintro ⟨hx, hB⟩
        exact ⟨x.1, hB, by rw [← hx]⟩
    have harch : ∀ x : LayerSpec × ℕ, S.layers[x.2]? = some x.1 →
        (x.1.isAt L.target = true ↔ S.ArchiveAt L.target x.2) := by
      intro x hx
      rw [LayerSpec.isAt, Bool.and_eq_true, decide_eq_true_eq]
      constructor
      · exact fun hp => ⟨x.1, hx, hp⟩
      · rintro ⟨B, hB, hB'⟩
        obtain rfl : x.1 = B := Option.some_inj.1 (hx.symm.trans hB)
        exact hB'
    constructor
    · rintro ⟨hp, i, hi, hy, hbefore⟩
      obtain ⟨hyi, hy'⟩ := (hat i y).1 (by rw [List.getElem?_eq_getElem hi, hy])
      rw [← hyi] at hy'
      refine ⟨hy', L.target, by omega, ⟨L, hL, ha, rfl⟩, (harch y hy').1 hp, ?_⟩
      intro j hj hjy hatj
      obtain ⟨B, hB, _⟩ := id hatj
      have hji : j - (gi + 1) < i := by omega
      have hj' := (hat (j - (gi + 1)) (B, j)).2 ⟨by dsimp only; omega, by
        rw [Nat.add_sub_cancel' hj]
        exact hB⟩
      rw [List.getElem?_eq_getElem (by omega), Option.some_inj] at hj'
      have hnot := hbefore (j - (gi + 1)) hji
      rw [hj', (harch (B, j) hB).2 hatj] at hnot
      simp at hnot
    · rintro ⟨hy, t, hlt', ⟨B, hB, _, rfl⟩, hat', hbetween⟩
      obtain rfl : L = B := Option.some_inj.1 (hL.symm.trans hB)
      have hi := (hat (y.2 - (gi + 1)) y).2 ⟨by omega, by
        rw [Nat.add_sub_cancel' hlt']
        exact hy⟩
      obtain ⟨hi', hget'⟩ := List.getElem?_eq_some_iff.1 hi
      refine ⟨(harch y hy).2 hat', _, hi', hget', ?_⟩
      intro j hj
      obtain ⟨hx2, hx1⟩ := (hat j _).1 (List.getElem?_eq_getElem (by omega))
      rw [← hx2] at hx1
      rw [Bool.not_eq_true', ← Bool.not_eq_true]
      exact fun hp => hbetween _ (by omega) (by omega) ((harch _ hx1).1 hp)

/-- What the chains say of a zip or delta layer of the spec. -/
theorem chainSpec {gi : ℕ} {L : LayerSpec} (hL : S.layers[gi]? = some L)
    (ha : L.isArchive = true) :
    ∃ post, ChainSpec (chainRuns S.layers.length (S.byTarget L.target)) (L, gi) post ∧
      (folds post = true ↔ S.Folded gi) ∧
      ∀ y : LayerSpec × ℕ, post.head? = some y ↔ S.layers[y.2]? = some y.1 ∧ S.Next gi y.2 := by
  obtain ⟨pre, post, hsplit, hnext⟩ := S.byTarget_split hL ha
  refine ⟨post, chainRuns_spec _ _ pre _ post (S.length_byTarget _) (S.nodup_byTarget _) hsplit,
    ?_, hnext⟩
  rw [folds, Option.any_eq_true]
  constructor
  · rintro ⟨y, hy, hb⟩
    obtain ⟨hget, hn⟩ := (hnext y).1 hy
    exact ⟨y.2, y.1, hn, hget, hb⟩
  · rintro ⟨g, G, hn, hG, hb⟩
    exact ⟨(G, g), (hnext _).2 ⟨hG, hn⟩, hb⟩

theorem chainTop_eq {gi : ℕ} {L : LayerSpec} (hL : S.layers[gi]? = some L) :
    S.chainTop gi = (chainRuns S.layers.length (S.byTarget L.target)).lookup gi := by
  rw [chainTop, hL]

/-- **A zip or delta layer is in a chain** when it is a delta or is folded away. -/
theorem chainTop_isSome_iff {gi : ℕ} {L : LayerSpec} (hL : S.layers[gi]? = some L)
    (ha : L.isArchive = true) : (S.chainTop gi).isSome ↔ L.type = .delta ∨ S.Folded gi := by
  obtain ⟨post, hspec, hfolds, _⟩ := S.chainSpec hL ha
  rw [S.chainTop_eq hL, hspec.isSome_iff, hfolds]
  refine or_congr_left ?_
  rw [LayerSpec.isArchive, Bool.or_eq_true, decide_eq_true_eq, decide_eq_true_eq] at ha
  constructor
  · exact fun h => ha.resolve_left h
  · rintro h hz
    rw [h] at hz
    simp at hz

/-- **A zip or delta layer does not surface when it is folded away.** -/
theorem chainTop_ne_iff {gi : ℕ} {L : LayerSpec} (hL : S.layers[gi]? = some L)
    (ha : L.isArchive = true) :
    ((S.chainTop gi).isSome ∧ S.chainTop gi ≠ some gi) ↔ S.Folded gi := by
  obtain ⟨post, hspec, hfolds, _⟩ := S.chainSpec hL ha
  rw [S.chainTop_eq hL, ← hfolds]
  constructor
  · rintro ⟨hsome, hne⟩
    by_contra hf
    exact hne (hspec.last (by simpa using hf) hsome)
  · exact fun hf => ⟨hspec.isSome_iff.2 (Or.inr hf), hspec.not_last hf⟩

/-- A layer built over its target is in the chain of the one it folds away. -/
theorem chainTop_next {q g : ℕ} {G : LayerSpec} (hn : S.Next q g) (hG : S.layers[g]? = some G)
    (hb : G.builtOverOwnTarget = true) : S.chainTop g = S.chainTop q := by
  have hn' := hn
  obtain ⟨t, _, ⟨L, hL, ha, rfl⟩, ⟨G', hG', _, htgt⟩, _⟩ := hn'
  obtain rfl : G = G' := Option.some_inj.1 (hG.symm.trans hG')
  obtain ⟨post, hspec, hfolds, hnext⟩ := S.chainSpec hL ha
  rw [S.chainTop_eq hL, S.chainTop_eq hG, htgt]
  exact hspec.next (hfolds.2 ⟨g, G, hn, hG, hb⟩) (G, g) ((hnext _).2 ⟨hG, hn⟩)

end Spec

/-! ### The loop -/

/-- What turns files into streams and streams into archives. -/
structure Tools (V : Type) where
  /-- The stream of a file, if it can be opened. -/
  openFile : HostPath → Option V
  /-- Several streams one after the other. -/
  concat : List V → V
  /-- A delta applied to a base. -/
  compose : V → V → Option V
  /-- The index of an archive. -/
  index : V → HostPath → Option ZipIndex

/-- The base of a delta with these parts. -/
def Tools.joined {V : Type} (T : Tools V) : List V → V
  | [v] => v
  | vs => T.concat vs

structure InitState (V : Type) where
  /-- The stream at a target so far. -/
  baseByTarget : Path → Option V
  /-- The layers of the spec behind it. -/
  baseLayersByTarget : Path → List ℕ
  /-- The targets where a chain has begun. -/
  chainSeen : List Path
  /-- The layers a layer of the spec surfaced as, by their number. -/
  mountedAs : ℕ → List ℕ
  layers : List Layer

namespace InitState

variable {V : Type}

def start : InitState V where
  baseByTarget _ := none
  baseLayersByTarget _ := []
  chainSeen := []
  mountedAs _ := []
  layers := []

end InitState

section Loop

variable {V : Type} (T : Tools V) (chainTop : ℕ → Option ℕ)

/-- The stream of a zip or delta layer and the layers behind it. -/
def byteView (st : InitState V) (L : LayerSpec) (gi : ℕ) : Option (V × List ℕ) :=
  match T.openFile L.source with
  | none => none
  | some src =>
      if L.type = .delta then
        match L.bases.mapM st.baseByTarget with
        | none => none
        | some parts =>
            match T.compose src (T.joined parts) with
            | none => none
            | some view => some (view, gi :: L.bases.flatMap st.baseLayersByTarget)
      else some (src, [gi])

/-- The stream becomes the one at the target, unless the layer is a zip stacked over a chain. -/
def enterView (st : InitState V) (L : LayerSpec) (gi : ℕ) (view : V) (behind : List ℕ) :
    InitState V :=
  let inChain := (chainTop gi).isSome
  let seen := if inChain then L.target :: st.chainSeen else st.chainSeen
  if inChain ∨ L.target ∉ seen then
    { st with
      baseByTarget := Function.update st.baseByTarget L.target (some view)
      baseLayersByTarget := Function.update st.baseLayersByTarget L.target behind
      chainSeen := seen }
  else { st with chainSeen := seen }

/-- The layers that a layer of the spec surfaces as, from the number `prio` on. -/
def madeLayers (L : LayerSpec) (type : LayerType) (prio : ℕ) : List Layer :=
  L.mounts.mapIdx fun i m => ⟨type, L.source, m.2, m.1, L.rw, [], prio + i⟩

/-- The layer of the spec surfaces. -/
def surface (st : InitState V) (L : LayerSpec) (gi : ℕ) (type : LayerType) : InitState V :=
  { st with
    mountedAs := Function.update st.mountedAs gi
      (List.range' st.layers.length L.mounts.length)
    layers := st.layers ++ madeLayers L type st.layers.length }

/-- One more place where a layer is hidden. -/
def hideAt (layers : List Layer) (h : ℕ × Path) : List Layer :=
  layers.modify h.1 fun L => { L with maskedUnder := L.maskedUnder ++ [h.2] }

/-- A delta hides the layers behind it under the places it surfaced at. -/
def hideBases (st : InitState V) (gi : ℕ) (behind : List ℕ) : InitState V :=
  let hidden := behind.tail.flatMap fun b => (st.mountedAs b).flatMap fun i =>
    (st.mountedAs gi).filterMap fun d => (st.layers[d]?).map fun D => (i, D.target)
  { st with layers := hidden.foldl hideAt st.layers }

/-- One layer of the spec. -/
def stackStep (st : InitState V) (x : LayerSpec × ℕ) : InitState V :=
  match x.1.type with
  | .dir => surface st x.1 x.2 .dir
  | .file => surface st x.1 x.2 .file
  | _ =>
      match byteView T st x.1 x.2 with
      | none => st
      | some (view, behind) =>
          let st := enterView chainTop st x.1 x.2 view behind
          if (chainTop x.2).isSome ∧ chainTop x.2 ≠ some x.2 then st
          else
            match T.index view x.1.source with
            | none => st
            | some Z =>
                let st := surface st x.1 x.2 (.zip Z)
                if x.1.type = .delta then hideBases st x.2 behind else st

end Loop

/-- The state in which the loop comes to layer `gi`. -/
def stackBefore {V : Type} (T : Tools V) (S : Spec) (gi : ℕ) : InitState V :=
  (S.layers.zipIdx.take gi).foldl (stackStep T S.chainTop) InitState.start

/-- The state after the loop. -/
def stackRun {V : Type} (T : Tools V) (S : Spec) : InitState V :=
  S.layers.zipIdx.foldl (stackStep T S.chainTop) InitState.start

/-- The layers of the mount. -/
def stackLayers {V : Type} (T : Tools V) (S : Spec) : List Layer := (stackRun T S).layers

end VidyaGodFS
