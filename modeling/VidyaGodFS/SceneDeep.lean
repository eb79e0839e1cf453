/-
**A whole directory is brought up.**

A directory is merged from all layers, so before it moves `deepCopyUp` brings it to the writelayer with
all that shows in it: the directory first, then each name of its listing.  The scene stays the same
throughout, also where the copying stops half-way, and in the end every entry from the directory on is
one of the writelayer.

Main definitions:

* `AllUpper` — all that shows from a path on is in the writelayer;
* `Brings` — a copy that brings it there, and shows nothing new.

Main results:

* `deepCopyUp_brings` — **copying up a directory brings all that shows in it**.
-/

import VidyaGodFS.SceneSteps

set_option relaxedAutoImplicit false
set_option autoImplicit false

namespace VidyaGodFS

open Posix

variable {M : Mount} {w : Path} {s₀ s s' : VfsState} {v : Path} {low : Path → Option Entry}

/-- **What an operation takes for a directory shows as one.** -/
theorem shown_of_dirHit {rr : ResolveResult} (h : dirHit s rr = true) : shown M s.disk rr = some .dir := by
  have hhost : ∀ (follow : Bool) (host : HostPath), (s.disk.lstat host).toOption.any (·.isDir) = true →
      s.disk.entryAt follow host = some .dir := by
    intro follow host hst
    cases hl : s.disk.lstat host with
    | error e =>
        rw [hl] at hst
        cases hst
    | ok st =>
        rw [hl] at hst
        obtain ⟨q, nd, hq, hnd, rfl⟩ := Disk.statAt_ok hl
        cases nd with
        | dir m =>
            refine Disk.entryAt_eq_some.2 ⟨q, .dir m, ?_, hnd, rfl⟩
            cases follow with
            | false => exact hq
            | true => exact Disk.find_follow hq (by rw [hnd]; simp)
        | file i => cases hst
        | link target => cases hst
  unfold dirHit hitIsDir at h
  cases rr with
  | none => cases h
  | implicitDir => rfl
  | writeLayer host => exact hhost _ host h
  | dirLayer host L => exact hhost _ host h
  | fileLayer host L => cases h
  | zipEntry L Z e =>
      cases e with
      | none => rfl
      | some e =>
          cases hdir : e.isDir with
          | true =>
              rw [shown, if_pos hdir]
          | false =>
              rw [if_neg (by simp [ResolveResult.isVirtualDir, hdir])] at h
              cases h

/-- **All that shows from `v` on is in the writelayer.** -/
def AllUpper (M : Mount) (w v : Path) (s : VfsState) : Prop :=
  ∀ u, v <+: u → scene M s u ≠ none → s.disk.tree.node (w ++ u) ≠ none

theorem AllUpper.grows (h : AllUpper M w v s) (hsame : SameScene M s s')
    (hgrows : s.disk.tree.Grows s'.disk.tree) : AllUpper M w v s' := by
  intro u hu hshow
  rw [hsame.scene_eq] at hshow
  obtain ⟨nd, hnd⟩ := Option.ne_none_iff_exists'.1 (h u hu hshow)
  simp [hgrows _ nd hnd]

/-- What shows has been walked to. -/
theorem served_of_scene (h : scene M s v ≠ none) : Reached M s v ∧ served M s v ≠ none ∧ Clean v := by
  have hreach : Reached M s v := by
    by_contra hc
    exact h (if_neg hc)
  rw [scene, Scene.walked_of_reached hreach] at h
  exact ⟨hreach, h, clean_of_served h⟩

section

variable (hM : M.writelayer = some w) (hb : Beneath M w s₀ low)
include hM hb

/-- **What a lookup finds shows.** -/
theorem Orderly.served_of_lookup (h : Orderly w s₀ s) (hv : Reached M s v) (hclean : Clean v) (hne : v ≠ [])
    (hfound : (lookup M s v).isNone = false) : served M s v ≠ none := by
  rw [served, if_pos hclean, entryAt, if_neg hne]
  rw [lookup_eq hM h.synced.shape (h.openWay hM hv hclean)] at hfound ⊢
  split_ifs at hfound ⊢ with hgone hnode hmask
  · cases hfound
  · obtain ⟨nd, hnd⟩ := Option.ne_none_iff_exists'.1 hnode
    have hfollow : followsLinks M (.writeLayer (some (w ++ v))) = false := by
      simp [followsLinks, ResolveResult.isWriteLayer]
    rw [shown, hfollow, Disk.entryAt_straight (h.synced.shape.straight (h.openWay hM hv hclean)), hnd]
    simp
  · cases hfound
  · rw [hb.reads s s h.beside h.beside v hclean]
    intro hlow
    rw [hb.shows s h.beside v hclean hlow] at hfound
    cases hfound

/-- **What was found for a directory is taken for one**, and goes on being so, and nothing else is. -/
theorem Orderly.dirHit_iff (h : Orderly w s₀ s) (hv : Reached M s v) (hclean : Clean v) (hne : v ≠ [])
    {x : Entry} (hx : served M s v = some x) (h' : Orderly w s₀ s') (hv' : Reached M s' v)
    (hkeep : ∀ nd, s.disk.tree.node (w ++ v) = some nd → s'.disk.tree.node (w ++ v) = some nd) :
    dirHit s' (lookup M s v) = true ↔ x = .dir := by
  have hgone : v ∉ s.whiteoutSet := h.not_whiteouted hM hv (by rw [hx]; simp)
  have hentry : entryAt M s v = some x := by rwa [served, if_pos hclean] at hx
  rw [entryAt, if_neg hne] at hentry
  rw [lookup_eq hM h.synced.shape (h.openWay hM hv hclean),
    if_neg fun hc => hgone ((isWhiteouted_iff hM hne).1 hc)] at hentry ⊢
  split_ifs at hentry ⊢ with hnode hmask
  · -- it is in the writelayer
    obtain ⟨nd, hnd⟩ := Option.ne_none_iff_exists'.1 hnode
    have hserved := h.served_node hM hb hv hclean hne hnd
    rw [hx, Option.some_inj] at hserved
    change (s'.disk.lstat (some (w ++ v))).toOption.any (·.isDir) = true ↔ _
    rw [Disk.lstat_straight_some (h'.synced.shape.straight (h'.openWay hM hv' hclean)) (hkeep nd hnd), hserved]
    cases nd with
    | dir m => exact iff_of_true rfl rfl
    | file i => exact iff_of_false Bool.false_ne_true (by rintro ⟨⟩)
    | link target => exact iff_of_false Bool.false_ne_true (by rintro ⟨⟩)
  · cases hentry
  · rw [hb.reads s s h.beside h.beside v hclean] at hentry
    constructor
    · intro hhit
      have hdir := shown_of_dirHit (M := M) hhit
      rw [hb.reads s s' h.beside h'.beside v hclean, hentry] at hdir
      exact Option.some_inj.1 hdir
    · rintro rfl
      exact hb.dirs s s' h.beside h'.beside v hclean hentry

variable (hk : NoKept M)
include hk

/-- Copying up shows nothing new. -/
theorem copyUp_still (h : Orderly w s₀ s) (hv : Reached M s v) (hclean : Clean v) (hne : v ≠ []) {x : Entry}
    (hx : served M s v = some x) :
    Calmly (fun t => t = s) (copyUp M v (lookup M s v)) (fun _ => Brought M w s₀ v x s)
      (fun _ s' => Orderly w s₀ s' ∧ SameScene M s s') := by
  have heq : copyUp M v (lookup M s v) = makeWritable M v (lookup M s v) := by
    unfold makeWritable
    split_ifs with hwritable
    · rw [copyUp, if_neg (by simp [hM]), if_pos hwritable]
    · rfl
  rw [heq]
  exact makeWritable_still hM hb hk h hv hclean hne hx

/-- A copy brings all that shows in a directory, and shows nothing new. -/
def Brings (M : Mount) (w : Path) (s₀ : VfsState) (v : Path) (m : Prog World Errno Unit) : Prop :=
  ∀ s, Orderly w s₀ s → Reached M s v →
    Calmly (fun t => t = s) m
      (fun _ s' => Orderly w s₀ s' ∧ SameScene M s s' ∧ s.disk.tree.Grows s'.disk.tree ∧ AllUpper M w v s')
      (fun _ s' => Orderly w s₀ s' ∧ SameScene M s s')

omit hM hk in
/-- **The copies of the names in a directory.** -/
theorem children_bring {depth : ℕ} {v : Path} {s₁ : VfsState} (h₁ : Orderly w s₀ s₁)
    (hv₁ : Reached M s₁ v) (hdir : served M s₁ v = some .dir) (hclean : Clean v)
    (ih : ∀ u, Clean u → u ≠ [] → Brings M w s₀ u (deepCopyUp M depth u)) :
    ∀ (l : List Name), (∀ c ∈ l, c ∈ listing M s₁ v) → ∀ s₂, Orderly w s₀ s₂ → SameScene M s₁ s₂ →
      Calmly (fun t => t = s₂) (l.forM fun c => deepCopyUp M depth (v ++ [c]))
        (fun _ s' => Orderly w s₀ s' ∧ SameScene M s₂ s' ∧ s₂.disk.tree.Grows s'.disk.tree ∧
          ∀ c ∈ l, AllUpper M w (v ++ [c]) s')
        (fun _ s' => Orderly w s₀ s' ∧ SameScene M s₂ s') := by
  intro l
  induction l with
  | nil =>
      intro _ s₂ h₂ _
      exact Calmly.pure (by rintro s rfl; exact ⟨h₂, .refl s, .refl _, by simp⟩)
  | cons c l ihl =>
      intro hmem s₂ h₂ hsame₂
      have hc : isMarker c = false :=
        (hb.plain.mono h₁.beside.outside).listing (hmem c (by simp))
      have hreach := (hsame₂ _ (Scene.reached_concat (n := c).2 ⟨hv₁, hdir⟩)).1
      refine Calmly.bind (ih _ (clean_concat.2 ⟨hclean, hc⟩) (by simp) s₂ h₂ hreach) fun _ =>
        Calmly.assuming fun s₃ h₃ => ?_
      obtain ⟨h₃, hsame₃, hgrows₃, hupper₃⟩ := h₃
      refine Calmly.conseq (ihl (fun c' hc' => hmem c' (by simp [hc'])) s₃ h₃ (hsame₂.trans hsame₃))
        (fun _ hs => hs) (fun _ s' hs => ?_) fun _ _ hs => ⟨hs.1, hsame₃.trans hs.2⟩
      obtain ⟨h', hsame', hgrows', hupper'⟩ := hs
      refine ⟨h', hsame₃.trans hsame', hgrows₃.trans hgrows', fun c' hc' => ?_⟩
      rcases List.mem_cons.1 hc' with rfl | hc'
      · exact hupper₃.grows hsame' hgrows'
      · exact hupper' c' hc'

/-- What shows in a directory is the directory itself and what shows at and below its names. -/
theorem allUpper_of_children {v : Path} {s₁ s' : VfsState} (h₁ : Orderly w s₀ s₁)
    (hsame : SameScene M s₁ s') (hnode : s'.disk.tree.node (w ++ v) ≠ none)
    (hupper : ∀ c ∈ listing M s₁ v, AllUpper M w (v ++ [c]) s') : AllUpper M w v s' := by
  intro u hu hshow
  obtain ⟨r, rfl⟩ := hu
  cases r with
  | nil => rwa [List.append_nil]
  | cons c r =>
      rw [List.append_cons] at hshow ⊢
      refine hupper c ?_ _ (List.prefix_append _ r) hshow
      rw [hsame.scene_eq] at hshow
      have hreach := (served_of_scene hshow).1
      have hle : v ++ [c] <+: v ++ [c] ++ r := List.prefix_append _ r
      refine h₁.listed hM hk hb (hreach.of_le hle) ?_
      by_cases hr : r = []
      · rw [hr, List.append_nil] at hshow
        exact (served_of_scene hshow).2.1
      · rw [hreach _ hle (by simp [hr])]
        simp

/-- **Copying up a directory brings all that shows in it**, and shows nothing new. -/
theorem deepCopyUp_brings : ∀ (depth : ℕ) {v : Path}, Clean v → v ≠ [] →
    Brings M w s₀ v (deepCopyUp M depth v) := by
  intro depth
  induction depth with
  | zero =>
      intro v _ _ s h _
      exact Calmly.fail (by rintro s rfl; exact ⟨h, .refl s⟩)
  | succ depth ih =>
      intro v hclean hne s h hv
      unfold deepCopyUp
      refine Calmly.bind (Q := fun rr t => t = s ∧ rr = lookup M s v)
        (Calmly.look (resolve_agrees M v) (by rintro s rfl; exact ⟨rfl, rfl⟩)) fun rr => Calmly.assuming ?_
      rintro s ⟨rfl, rfl⟩
      refine Calmly.ite (fun _ => Calmly.fail (by rintro s rfl; exact ⟨h, .refl s⟩)) fun hfound => ?_
      obtain ⟨x, hx⟩ := Option.ne_none_iff_exists'.1
        (h.served_of_lookup hM hb hv hclean hne (by simpa using hfound))
      refine Calmly.bind (Calmly.conseq (copyUp_still hM hb hk h hv hclean hne hx) (fun _ hs => hs)
        (fun _ _ hs => hs) fun _ _ hs => hs) fun _ => Calmly.assuming fun s₁ h₁ => ?_
      obtain ⟨nd, hnd, -, -⟩ := h₁.entry
      have hhit := h.dirHit_iff hM hb hv hclean hne hx h₁.orderly (h₁.same v hv).1 (h₁.grows _)
      refine Calmly.bind (Q := fun b t => t = s₁ ∧ b = dirHit s₁ (lookup M s v))
        (Calmly.look (hitIsDir_agrees false _) (by rintro t rfl; exact ⟨rfl, rfl⟩)) fun b => Calmly.assuming ?_
      rintro s₁ ⟨rfl, rfl⟩
      refine Calmly.ite (fun hdir => ?_) fun hdir => Calmly.pure ?_
      · -- a directory: each name that it lists
        rw [hhit] at hdir
        subst hdir
        obtain ⟨hv₁, hserved₁⟩ := h₁.same v hv
        rw [hx] at hserved₁
        refine Calmly.bind (Q := fun children t => t = s₁ ∧ children = listing M s₁ v)
          (Calmly.look (collectChildren_agrees M v) (by rintro t rfl; exact ⟨rfl, rfl⟩))
          fun children => Calmly.assuming ?_
        rintro s₁ ⟨rfl, rfl⟩
        refine Calmly.conseq (children_bring hb h₁.orderly hv₁ hserved₁ hclean
          (fun _ => ih) _ (fun _ hc => hc) s₁ h₁.orderly (.refl s₁))
          (fun _ hs => hs) (fun _ s' hs => ?_) fun _ _ hs => ⟨hs.1, h₁.same.trans hs.2⟩
        obtain ⟨h', hsame', hgrows', hupper'⟩ := hs
        refine ⟨h', h₁.same.trans hsame', h₁.grows.trans hgrows',
          allUpper_of_children hM hb hk h₁.orderly hsame' ?_ hupper'⟩
        rw [hgrows' _ nd hnd]
        simp
      · -- nothing shows below what is no directory
        rintro s₁ rfl
        refine ⟨h₁.orderly, h₁.same, h₁.grows, fun u hu hshow => ?_⟩
        by_cases huv : u = v
        · rw [huv, hnd]
          simp
        · rw [h₁.same.scene_eq] at hshow
          have hat := (served_of_scene hshow).1 v hu fun he => huv he.symm
          rw [hx] at hat
          exact absurd (hhit.2 (Option.some_inj.1 hat)) hdir

end

end VidyaGodFS
