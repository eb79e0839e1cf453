/-
**The kind of a copy.**

A copy is a directory or a link only where the mount presents one: what brings a path up decides
once more, from the host, what is to be copied, and it decides as `attr` does.  So an operation that
follows what it has brought up stays at the path that it was asked for.

Main definitions:

* `CopyKind` — what may stand where a copy went.

Main results:

* `makeWritable_kind` — **what is brought up is of the kind that the mount presents**.
-/

import VidyaGodFS.CopyUp

set_option relaxedAutoImplicit false
set_option autoImplicit false

namespace VidyaGodFS

open Posix

variable {M : Mount} {w v : Path} {s₀ s s' : VfsState} {rr : ResolveResult} {a : VfsAttr}

/-! ### The copy of what a lookup found -/

/-- What is copied as a link, as a function of the state. -/
def asLink (M : Mount) (s : VfsState) : ResolveResult → Bool
  | .zipEntry _ _ (some e) => e.symlink && !e.isDir
  | rr => (copiesAsLink M rr : View Bool) s

/-- A node that may stand for something that is a directory, or a link, as the two say. -/
def CopyKind (isDir isSymlink : Bool) : Node → Prop
  | .dir _ => isDir = true
  | .file _ => True
  | .link _ => isSymlink = true

/-- The node at a path is of the kind, if one is there. -/
def KindAt (s : VfsState) (q : Path) (isDir isSymlink : Bool) : Prop :=
  ∀ nd ∈ s.disk.tree.node q, CopyKind isDir isSymlink nd

/-- A file is copied as one. -/
theorem copyFile_kind (h : Vacant w v s₀) {copy : Handle → Prog World Errno Unit}
    (hcopy : ∀ out s, Keeps (NamesKept s) (copy out)) (isDir isSymlink : Bool) :
    Calmly (fun s => s = s₀) (copyFile (some (w ++ v)) copy)
      (fun _ s => KindAt s (w ++ v) isDir isSymlink) (fun _ _ => True) := by
  obtain ⟨m, hm, hfull⟩ := h.full_parent
  unfold copyFile
  refine Calmly.bind (Q := fun _ s => s.disk.tree.node (w ++ v) = some (.file s₀.disk.next))
    (Calmly.act ?_) fun out => ?_
  · rintro s rfl
    obtain ⟨hput, hrun⟩ : ∃ hput, Disk.open (some (w ++ v)) ⟨.wronly, true, false, true, false⟩
        0o644 s.disk = (.ok (.file s.disk.next .wronly), s.disk.addFile (w ++ v) 0o644 hput) :=
      Disk.open_straight (h.shape.straight h.way) (by simp [h.ne]) h.none hm hfull.2.1 rfl 0o644
    rw [hrun]
    exact if_pos rfl
  · refine Calmly.assuming fun s₁ hs₁ => ?_
    have hcopied : Calmly (fun s => s = s₁) (copy out) (fun _ => NamesKept s₁)
        (fun _ => NamesKept s₁) :=
      Calmly.conseq (hcopy out s₁) (fun s hs => hs ▸ NamesKept.refl s) (fun _ _ hs => hs)
        fun _ _ hs => hs
    refine Calmly.bind (E := fun _ _ => True) (Calmly.attempt hcopied) fun r => ?_
    cases r with
    | ok u =>
        refine Calmly.pure fun s hs nd hnd => ?_
        rw [hs.tree, hs₁] at hnd
        obtain rfl := Option.some_inj.1 hnd
        exact trivial
    | error e =>
        refine Calmly.bind (Q := fun _ _ => True) (Calmly.ignoring (Calmly.act fun s hs => ?_)) fun _ =>
          Calmly.fail fun _ _ => trivial
        rcases Disk.unlink (some (w ++ v)) s.disk with ⟨e | u, d⟩ <;> exact trivial

/-- A link is copied as one. -/
theorem symlink_kind (h : Vacant w v s₀) (target : String) (isDir : Bool) :
    Calmly (NamesKept s₀) (act (Disk.symlink target (some (w ++ v))))
      (fun _ s => KindAt s (w ++ v) isDir true) (fun _ _ => True) := by
  refine Calmly.act fun s hs => ?_
  rcases Disk.symlink_cases target (some (w ++ v)) s.disk with
    ⟨e, hf⟩ | ⟨q, hq, hnone, -, hput, hi, hrun⟩
  · rw [hf]
    exact trivial
  · obtain rfl := Disk.find_false_straight (by rw [hs.tree]; exact h.shape.straight h.way) hq
    rw [hrun]
    intro nd hnd
    obtain rfl : Node.link target = nd := Option.some_inj.1 ((if_pos rfl).symm.trans hnd)
    exact rfl

/-- **A copy is of the kind that was to be copied.** -/
theorem copyTo_kind (h : Vacant w v s₀) (rr : ResolveResult) :
    Calmly (fun s => s = s₀) (copyTo M (some (w ++ v)) rr)
      (fun _ s => KindAt s (w ++ v) (asDir M s₀ rr) (asLink M s₀ rr)) (fun _ _ => True) := by
  have hquiet : ∀ {α : Type} {m : Prog World Errno α}, Keeps (NamesKept s₀) m →
      Calmly (fun s => s = s₀) m (fun _ => NamesKept s₀) (fun _ _ => True) := fun hm =>
    Calmly.conseq hm (by rintro s rfl; exact NamesKept.refl s) (fun _ _ hs => hs) fun _ _ _ => trivial
  unfold copyTo
  refine Calmly.bind (Q := fun b s => s = s₀ ∧ b = asDir M s₀ rr)
    (Calmly.look (copiesAsDir_agrees M rr) (by rintro s rfl; exact ⟨rfl, rfl⟩)) fun b => ?_
  refine Calmly.assuming ?_
  rintro s ⟨rfl, rfl⟩
  refine Calmly.ite (fun hdir => ?_) fun hdir => ?_
  · have hway : DirWay w s.disk.tree v := by
      intro q hq
      by_cases hqv : q = v
      · exact Or.inl (hqv ▸ h.none)
      · exact h.way q hq hqv
    refine Calmly.conseq (createDirectoriesEio_made (E := fun _ _ => False) h.shape hway)
      (fun _ hs => hs) (fun _ s' hs nd hnd => ?_) fun _ _ _ => trivial
    obtain ⟨m, hm⟩ := hs.isDir hway
    obtain rfl := Option.some_inj.1 (hm.symm.trans hnd)
    exact hdir
  · have hhost : ∀ host, asLink M s rr = (copiesAsLink M rr : View Bool) s →
        Calmly (fun s' => s' = s)
          (do
            if ← copiesAsLink M rr then do
              let target ← act fun d => (d.readlink host, d)
              act (Disk.symlink target (some (w ++ v)))
            else copyFile (some (w ++ v)) (copyHostFile host))
          (fun _ s' => KindAt s' (w ++ v) (asDir M s rr) (asLink M s rr)) (fun _ _ => True) := by
      intro host hlink
      refine Calmly.bind (Q := fun b s' => s' = s ∧ b = asLink M s rr)
        (Calmly.look (copiesAsLink_agrees M rr) (by rintro s' rfl; exact ⟨rfl, hlink.symm⟩)) fun b => ?_
      refine Calmly.assuming ?_
      rintro s' ⟨rfl, rfl⟩
      refine Calmly.ite (fun hb => ?_) fun _ => copyFile_kind h (fun out s => copyHostFile_keeps s _ out) _ _
      rw [hb]
      exact Calmly.bind (hquiet (NamesKept.act (quiet_look fun d => d.readlink host) s'))
        fun target => symlink_kind h target _
    cases rr with
    | zipEntry L Z e =>
        cases e with
        | none => exact hhost _ rfl
        | some e =>
            refine Calmly.ite (fun hb => ?_) fun _ => copyFile_kind h (fun out s => copyZipEntry_keeps s Z e out) _ _
            have hfile : e.isDir = false := Bool.eq_false_iff.2 hdir
            rw [show asLink M s (.zipEntry L Z (some e)) = true by simp [asLink, hb, hfile]]
            exact Calmly.bind (hquiet (readZipLink_keeps s Z e)) fun target => symlink_kind h target _
    | _ => exact hhost _ rfl

/-! ### The copy and what the mount presents -/

/-- What is there stays what it is in a larger tree. -/
theorem Disk.statAt_kind {d d' : Disk} (h : d.tree.Grows d'.tree) {follow : Bool} {hp : HostPath}
    {st : Stat} (hst : d.statAt follow hp = .ok st) :
    ∃ st', d'.statAt follow hp = .ok st' ∧ st'.isDir = st.isDir ∧ st'.isSymlink = st.isSymlink := by
  obtain ⟨q, nd, hq, hnd, rfl⟩ := Disk.statAt_ok hst
  refine ⟨_, Disk.statAt_of_find (Disk.find_grows h hq (by simp [hnd])) (h q nd hnd), ?_, ?_⟩ <;>
    cases nd <;> rfl

/-- Following or not. -/
theorem Disk.statAt_ite (d : Disk) (b : Bool) (host : HostPath) :
    (if b then d.stat host else d.lstat host) = d.statAt b host := by
  cases b <;> rfl

theorem asDir_dirLayer (s : VfsState) (host : HostPath) (L : Layer) :
    asDir M s (.dirLayer host L) =
      (s.disk.statAt (M.flattenSymlinks && !L.rw) host).toOption.any (·.isDir) := by
  rw [← Disk.statAt_ite]
  rfl

/-- Only without flattening is a link copied as one. -/
theorem asLink_host (s : VfsState) {host : HostPath} {L : Layer}
    (h : rr = .dirLayer host L ∨ rr = .fileLayer host L) :
    asLink M s rr = (!M.flattenSymlinks && (s.disk.lstat host).toOption.any (·.isSymlink)) := by
  have hlink : asLink M s rr = (copiesAsLink M rr : View Bool) s := by
    rcases h with rfl | rfl <;> rfl
  rw [hlink]
  rcases h with rfl | rfl <;> unfold copiesAsLink <;> cases M.flattenSymlinks <;> rfl

/-- The copy is made as the mount presents it. -/
theorem copied_as_attr (hne : v ≠ []) (ha : attr M s v = .ok a)
    (hlower : (lookup M s v).isWriteLayer = false) (hkept : (lookup M s v).rwPassthrough = false)
    (hgrows : s.disk.tree.Grows s'.disk.tree) :
    (asDir M s' (lookup M s v) = true → a.isDir = true) ∧
      (asLink M s' (lookup M s v) = true → a.isSymlink = true) := by
  -- what the host says once the parents are made is what it said before
  have hstat : ∀ {follow : Bool} {host : HostPath},
      (s.disk.statAt follow host).map VfsAttr.ofStat = .ok a →
      ((s'.disk.statAt follow host).toOption.any (·.isDir) = true → a.isDir = true) ∧
        ((s'.disk.statAt follow host).toOption.any (·.isSymlink) = true → a.isSymlink = true) := by
    intro follow host hok
    cases hst : s.disk.statAt follow host with
    | error e =>
        rw [hst] at hok
        cases hok
    | ok st =>
        obtain ⟨st', hst', hdir, hlink⟩ := Disk.statAt_kind hgrows hst
        rw [hst] at hok
        obtain rfl : VfsAttr.ofStat st = a := Except.ok.inj hok
        rw [hst']
        exact ⟨fun h => hdir.symm.trans h, fun h => hlink.symm.trans h⟩
  have hlink : ∀ {host : HostPath},
      (s.disk.statAt M.flattenSymlinks host).map VfsAttr.ofStat = .ok a →
      (!M.flattenSymlinks && (s'.disk.lstat host).toOption.any (·.isSymlink)) = true →
        a.isSymlink = true := by
    intro host hok h
    obtain ⟨hflatten, hany⟩ := Bool.and_eq_true_iff.1 h
    rw [show M.flattenSymlinks = false by simpa using hflatten] at hok
    exact (hstat hok).2 hany
  rw [attr_eq hne] at ha
  cases hrr : lookup M s v with
  | none =>
      rw [hrr] at ha
      cases ha
  | implicitDir =>
      rw [hrr] at ha
      obtain rfl := Except.ok.inj ha
      exact ⟨fun _ => rfl, fun h => by cases h⟩
  | writeLayer host =>
      rw [hrr] at hlower
      cases hlower
  | zipEntry L Z e =>
      rw [hrr] at ha
      cases e with
      | none =>
          obtain rfl := Except.ok.inj ha
          exact ⟨fun _ => rfl, fun h => by cases h⟩
      | some e =>
          dsimp only at ha
          cases hdir : e.isDir with
          | true =>
              rw [if_pos hdir] at ha
              obtain rfl := Except.ok.inj ha
              exact ⟨fun _ => rfl, fun h => by simp [asLink, hdir] at h⟩
          | false =>
              rw [if_neg (by simp [hdir])] at ha
              obtain rfl := Except.ok.inj ha
              exact ⟨fun h => hdir.symm.trans h, fun h => by simpa [asLink, hdir] using h⟩
  | dirLayer host L =>
      rw [hrr] at ha hkept
      have hrw : L.rw = false := hkept
      have hfollow : followsLinks M (.dirLayer host L) = M.flattenSymlinks := by
        simp [followsLinks, ResolveResult.isWriteLayer, ResolveResult.rwPassthrough, hrw]
      dsimp only at ha
      rw [hfollow, Disk.statAt_ite] at ha
      rw [asDir_dirLayer, hrw, Bool.not_false, Bool.and_true, asLink_host s' (Or.inl rfl)]
      exact ⟨(hstat ha).1, hlink ha⟩
  | fileLayer host L =>
      rw [hrr] at ha
      have hfollow : followsLinks M (.fileLayer host L) = M.flattenSymlinks := by
        simp [followsLinks, ResolveResult.isWriteLayer, ResolveResult.rwPassthrough]
      dsimp only at ha
      rw [hfollow, Disk.statAt_ite] at ha
      rw [asLink_host s' (Or.inr rfl)]
      exact ⟨fun h => absurd h Bool.false_ne_true, hlink ha⟩

/-- **What is brought up is of the kind that the mount presents.** -/
theorem makeWritable_kind (hM : M.writelayer = some w) (hk : NoKept M) (hs : Shape w s.disk.tree)
    (hv : OpenWay w s.disk.tree v) (hclean : Clean v) (ha : attr M s v = .ok a) :
    Calmly (fun t => t = s) (makeWritable M v (lookup M s v))
      (fun _ t => KindAt t (w ++ v) a.isDir a.isSymlink) (fun _ _ => True) := by
  have hfits : Fits M v (lookup M s v) := resolve_fits M v (calm s) _ _ (resolve_run M (calm_calm s).2 v)
  have hkept : (lookup M s v).rwPassthrough = false :=
    rwPassthrough_of_fits M hfits (hk.keptLayerFor v)
  have hcases := lookup_eq hM hs hv
  rcases eq_or_ne v [] with rfl | hne
  · -- the root is a directory, and it is in the writelayer
    obtain ⟨m, hm⟩ := hs.root
    rw [if_neg (by simp [isWhiteouted]), List.append_nil, if_pos (by simp [hm])] at hcases
    obtain rfl : VfsAttr.mk true false 0o755 0 = a := Except.ok.inj ha
    rw [hcases, List.append_nil]
    refine Calmly.pure ?_
    rintro t rfl nd hnd
    obtain rfl := Option.some_inj.1 (hm.symm.trans hnd)
    exact rfl
  have hattr := ha
  rw [attr_eq hne] at hattr
  -- a path that shows has no whiteout
  have hshows : isWhiteouted M s v = false := by
    by_contra hgone
    rw [if_pos (by simpa using hgone)] at hcases
    rw [hcases] at hattr
    cases hattr
  rw [hshows, if_neg Bool.false_ne_true] at hcases
  unfold makeWritable
  rw [hk.isWritable hfits]
  cases hnode : s.disk.tree.node (w ++ v) with
  | some nd =>
      rw [if_pos (by simp [hnode])] at hcases
      rw [hcases] at hattr ⊢
      refine Calmly.pure ?_
      rintro t rfl nd' hnd'
      obtain rfl := Option.some_inj.1 (hnode.symm.trans hnd')
      dsimp only at hattr
      rw [Disk.lstat_straight_some (hs.straight hv) hnode] at hattr
      obtain rfl := Except.ok.inj hattr
      cases nd <;> trivial
  | none =>
      rw [if_neg (by simp [hnode])] at hcases
      have hlower : (lookup M s v).isWriteLayer = false := by
        by_contra hupper
        cases hrr : lookup M s v with
        | writeLayer host =>
            rw [hrr] at hfits hattr
            obtain ⟨-, rfl⟩ := hfits
            dsimp only at hattr
            rw [wlPath_eq hM, Disk.lstat_straight_none (hs.straight hv) hnode] at hattr
            cases hattr
        | _ => exact hupper (by rw [hrr]; rfl)
      rw [if_neg (by simp [hlower]), copyUp, if_neg (by simp [hM]), hk.isWritable hfits,
        if_neg (by simp [hlower]), hk.copyDest hM]
      refine Calmly.bind (Q := fun r t => t = s ∧ r = s.disk.lstat (some (w ++ v)))
        (Calmly.look (Agrees.look _) (by rintro t rfl; exact ⟨rfl, rfl⟩)) fun r => ?_
      refine Calmly.assuming ?_
      rintro s ⟨rfl, rfl⟩
      rw [Disk.lstat_straight_none (hs.straight hv) hnode]
      dsimp only
      unfold ensureCopyParent
      rw [hk.passthroughHost]
      refine Calmly.bind (Q := fun _ => MadeDirs w v.dropLast s) (ensureWriteParent_made hM hs hv hne)
        fun _ => Calmly.assuming fun s₁ h₁ => ?_
      obtain ⟨hext, hvacant⟩ := h₁.vacant hs hv hne hclean hnode
      obtain ⟨hdir, hlink⟩ := copied_as_attr hne ha hlower hkept hext.tree.old
      refine Calmly.conseq (copyTo_kind hvacant _) (fun _ ht => ht) (fun _ t ht nd hnd => ?_)
        fun _ _ _ => trivial
      have hkind := ht nd hnd
      cases nd with
      | dir m => exact hdir hkind
      | file i => exact trivial
      | link target => exact hlink hkind

end VidyaGodFS
