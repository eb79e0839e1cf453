/-
**Copying up.**

A copy goes to a vacant place of the writelayer.  What is added is the copy itself, what lies under
it, and the directories above it; a copy that fails may leave some of that behind, and nothing else.
This is so for a single file, a link or a directory, and for a whole merged directory that is copied
level by level.

Main definitions:

* `Quiet`, `NamesKept` — calls that leave the names alone;
* `Vacant` — where a copy is to go;
* `NoKept`, `PlainLayers` — mounts without kept folders, and layers without markers.

Main results:

* `copyUp_extends`, `deepCopyUp_extends` — **copying up only adds**.
-/

import VidyaGodFS.Writelayer

set_option relaxedAutoImplicit false
set_option autoImplicit false

namespace VidyaGodFS

open Posix

variable {M : Mount} {w : Path}

/-! ### Calls that leave the names alone -/

/-- The call changes files at most. -/
def Quiet {α : Type} (call : Call α) : Prop := ∀ d, (call d).2.tree = d.tree

theorem quiet_look {α : Type} (f : Disk → Except Errno α) : Quiet fun d => (f d, d) := fun _ => rfl

theorem quiet_of_failed {α : Type} {r : Except Errno α × Disk} {d : Disk} (h : Disk.Failed r d) :
    r.2.tree = d.tree := by
  obtain ⟨e, rfl⟩ := h
  rfl

theorem quiet_pwrite (h : Handle) (bs : List UInt8) (off : ℕ) : Quiet (Disk.pwrite h bs off) := by
  intro d
  cases h with
  | dir => rfl
  | file i access =>
      unfold Disk.pwrite
      dsimp only
      split_ifs <;> rfl

theorem quiet_fchmod (h : Handle) (mode : ℕ) : Quiet (Disk.fchmod h mode) := by
  intro d
  cases h <;> rfl

theorem quiet_ftruncate (h : Handle) (size : ℕ) : Quiet (Disk.ftruncate h size) := by
  intro d
  cases h with
  | dir => rfl
  | file i access =>
      change ((if access.writes = false then Prog.fail .einval
        else Disk.resizeIno i size : Call Unit) d).2.tree = d.tree
      by_cases ha : access.writes = false
      · rw [if_pos ha]
        rfl
      · rw [if_neg ha, Disk.resizeIno]
        split_ifs <;> rfl

theorem quiet_truncate (p : HostPath) (size : ℕ) : Quiet (Disk.truncate p size) := by
  intro d
  rcases Disk.truncate_cases p size d with hf | ⟨q, i, -, -, hrun⟩
  · exact quiet_of_failed hf
  · rw [hrun]
    rfl

/-- Opening without creating. -/
theorem quiet_open {fl : OpenFlags} (hc : fl.creat = false) (p : HostPath) (mode : ℕ) :
    Quiet (Disk.open p fl mode) := by
  intro d
  rcases Disk.open_cases p fl mode d with hf | ⟨q, -, ⟨-, hcreat, -⟩ | ⟨i, -, hrun⟩ | ⟨-, hrun⟩⟩
  · exact quiet_of_failed hf
  · rw [hc] at hcreat
    cases hcreat
  · rw [hrun]
    cases fl.trunc <;> rfl
  · rw [hrun]

/-- The names and the masks are those of `s₀`. -/
structure NamesKept (s₀ s : VfsState) : Prop where
  tree : s.disk.tree = s₀.disk.tree
  whiteoutSet : s.whiteoutSet = s₀.whiteoutSet
  opaqueSet : s.opaqueSet = s₀.opaqueSet
  kept : s.kept = s₀.kept

theorem NamesKept.refl (s : VfsState) : NamesKept s s := ⟨rfl, rfl, rfl, rfl⟩

theorem NamesKept.act {α : Type} {call : Call α} (h : Quiet call) (s₀ : VfsState) :
    Keeps (NamesKept s₀) (act call) :=
  Keeps.act fun s hs => ⟨(h s.disk).trans hs.tree, hs.whiteoutSet, hs.opaqueSet, hs.kept⟩

theorem Extends.of_namesKept {v : Path} {s s' s'' : VfsState} (h : Extends w v s s')
    (h' : NamesKept s' s'') : Extends w v s s'' :=
  ⟨by rw [h'.tree]; exact h.tree, h'.whiteoutSet.trans h.whiteoutSet,
    h'.opaqueSet.trans h.opaqueSet, h'.kept.trans h.kept⟩

theorem copyLoop_keeps (s₀ : VfsState) (out : Handle) {read : ℕ → Prog World Errno Bytes}
    (hread : ∀ off, Keeps (NamesKept s₀) (read off)) :
    ∀ fuel off, Keeps (NamesKept s₀) (copyLoop out read fuel off) := by
  intro fuel
  induction fuel with
  | zero => exact fun off => Keeps.pure _
  | succ fuel ih =>
      intro off
      refine Keeps.bind (hread off) fun got => Keeps.ite (fun _ => Keeps.pure _) fun _ => ?_
      exact Keeps.bind (NamesKept.act (quiet_pwrite out got off) s₀) fun _ => ih _

theorem copyZipEntry_keeps (s₀ : VfsState) (Z : ZipIndex) (e : ZipEntry) (out : Handle) :
    Keeps (NamesKept s₀) (copyZipEntry Z e out) := by
  unfold copyZipEntry
  cases openZipEntry Z e with
  | error err => exact Keeps.fail err
  | ok zr =>
      refine Keeps.bind (copyLoop_keeps s₀ out (fun off => ?_) _ _) fun _ => ?_
      · exact NamesKept.act (quiet_look fun _ => readZipEntry zr copyChunk off) s₀
      · exact Keeps.ignoring (NamesKept.act (quiet_fchmod out _) s₀)

theorem copyMode_keeps (s₀ : VfsState) (host : HostPath) (out : Handle) :
    Keeps (NamesKept s₀) (copyMode host out) := by
  refine Keeps.bind (Keeps.look (Agrees.look _)) fun r => ?_
  cases r with
  | error e => exact Keeps.pure _
  | ok st => exact Keeps.ignoring (NamesKept.act (quiet_fchmod out _) s₀)

theorem copyHostFile_keeps (s₀ : VfsState) (host : HostPath) (out : Handle) :
    Keeps (NamesKept s₀) (copyHostFile host out) := by
  unfold copyHostFile
  refine Keeps.bind (NamesKept.act (quiet_open rfl host 0) s₀) fun inp =>
    Keeps.bind (Keeps.look (Agrees.see _)) fun size => Keeps.bind (Keeps.attempt ?_) fun rc =>
      Keeps.bind (copyMode_keeps s₀ host out) fun _ => ?_
  · refine copyLoop_keeps s₀ out (fun off => ?_) _ _
    exact NamesKept.act (quiet_look fun d => d.pread inp copyChunk off) s₀
  · cases rc with
    | ok u => exact Keeps.pure _
    | error e => exact Keeps.fail e

theorem readZipLink_keeps (s₀ : VfsState) (Z : ZipIndex) (e : ZipEntry) :
    Keeps (NamesKept s₀) (readZipLink Z e) := by
  refine Keeps.ite (fun _ => Keeps.fail _) fun _ => ?_
  cases openZipEntry Z e with
  | error err => exact Keeps.fail err
  | ok zr =>
      exact Keeps.bind (NamesKept.act (quiet_look fun _ => readZipEntry zr e.size 0) s₀)
        fun got => Keeps.pure _

/-! ### Copying up -/

theorem append_dropLast {v : Path} (hv : v ≠ []) : (w ++ v).dropLast = w ++ v.dropLast :=
  List.dropLast_append_of_ne_nil hv

/-- An entry more is growth. -/
theorem Grew.put {t : Tree} {v : Path} {nd : Node} (h : t.CanPut (w ++ v) nd)
    (hnone : t.node (w ++ v) = none) (hclean : Clean v) (hnd : ∀ m, nd = .dir m → Full m) :
    Grew w v t (t.put (w ++ v) nd h) := by
  refine ⟨Tree.grows_put h hnone, fun q hq hsome => ?_⟩
  by_cases hqv : q = w ++ v
  · refine ⟨v, hqv, hclean, fun m hm => hnd m ?_, Or.inl (List.prefix_refl v)⟩
    rw [Tree.put_node, if_pos hqv] at hm
    exact Option.some_inj.1 hm
  · rw [Tree.put_node, if_neg hqv] at hsome
    exact absurd hq hsome

theorem Grew.of_node_eq {t t' : Tree} {v : Path} (h : ∀ q, t'.node q = t.node q) : Grew w v t t' :=
  ⟨fun q nd hq => by rw [h, hq], fun q hnone hsome => absurd ((h q).trans hnone) hsome⟩

/-- Where a copy is to go: nothing is there yet, and the directory for it is. -/
structure Vacant (w v : Path) (s : VfsState) : Prop where
  shape : Shape w s.disk.tree
  way : OpenWay w s.disk.tree v
  ne : v ≠ []
  clean : Clean v
  parent : s.disk.tree.IsDir (w ++ v.dropLast)
  none : s.disk.tree.node (w ++ v) = none

namespace Vacant

variable {v : Path} {s : VfsState}

theorem full_parent (h : Vacant w v s) :
    ∃ m, s.disk.tree.node (w ++ v).dropLast = some (.dir m) ∧ Full m := by
  obtain ⟨m, hm⟩ := h.parent
  exact ⟨m, by rw [append_dropLast h.ne, hm], h.shape.full _ m hm⟩

/-- An entry is put in the vacant place, or the call fails. -/
theorem extends_put (h : Vacant w v s) {nd : Node} (hput : s.disk.tree.CanPut (w ++ v) nd)
    (hnd : ∀ m, nd = .dir m → Full m) {d : Disk} (hd : d.tree = s.disk.tree.put (w ++ v) nd hput) :
    Extends w v s { s with disk := d } := by
  refine ⟨?_, rfl, rfl, rfl⟩
  change Grew w v s.disk.tree d.tree
  rw [hd]
  exact Grew.put hput h.none h.clean hnd

end Vacant

/-- Once its directory is made a path that was not there is a place for a copy. -/
theorem MadeDirs.vacant {v : Path} {s s₁ : VfsState} (h : MadeDirs w v.dropLast s s₁)
    (hs : Shape w s.disk.tree) (hv : OpenWay w s.disk.tree v) (hne : v ≠ []) (hclean : Clean v)
    (hnode : s.disk.tree.node (w ++ v) = none) : Extends w v s s₁ ∧ Vacant w v s₁ := by
  have hext : Extends w v s s₁ := h.toExtends hs (List.dropLast_prefix v) hclean
  refine ⟨hext, hs.grew hext.tree, hv.grew hext.tree fun _ => rfl, hne, hclean,
    h.isDir (hv.dirWay hne), ?_⟩
  rw [h.node_eq, hnode]
  intro hle
  have := hle.length_le
  rw [List.length_append, List.length_append, List.length_dropLast] at this
  have := List.length_pos_iff.2 hne
  omega

/-- A copy of a file, or nothing. -/
theorem copyFile_extends {s₀ : VfsState} {v : Path} (h : Vacant w v s₀)
    {copy : Handle → Prog World Errno Unit} (hcopy : ∀ out s, Keeps (NamesKept s) (copy out)) :
    Calmly (fun s => s = s₀) (copyFile (some (w ++ v)) copy) (fun _ => Extends w v s₀)
      (fun _ => Extends w v s₀) := by
  obtain ⟨m, hm, hfull⟩ := h.full_parent
  have hne : w ++ v ≠ [] := by simp [h.ne]
  unfold copyFile
  refine Calmly.bind (Q := fun _ s => ∃ hput, s =
    { s₀ with disk := s₀.disk.addFile (w ++ v) 0o644 hput }) (Calmly.act ?_) fun out => ?_
  · rintro s rfl
    obtain ⟨hput, hrun⟩ : ∃ hput, Disk.open (some (w ++ v)) ⟨.wronly, true, false, true, false⟩
        0o644 s.disk = (.ok (.file s.disk.next .wronly), s.disk.addFile (w ++ v) 0o644 hput) :=
      Disk.open_straight (h.shape.straight h.way) hne h.none hm hfull.2.1 rfl 0o644
    rw [hrun]
    exact ⟨hput, rfl⟩
  · refine Calmly.assuming fun s₁ hs₁ => ?_
    obtain ⟨hput, hs₁⟩ := hs₁
    have hext : Extends w v s₀ s₁ := by
      rw [hs₁]
      exact h.extends_put hput (by simp) rfl
    have hcopy₁ : Calmly (fun s => s = s₁) (copy out) (fun _ => NamesKept s₁)
        (fun _ => NamesKept s₁) :=
      Calmly.conseq (hcopy out s₁) (fun s hs => hs ▸ NamesKept.refl s) (fun _ _ hs => hs)
        fun _ _ hs => hs
    refine Calmly.bind (Calmly.attempt hcopy₁) fun r => ?_
    cases r with
    | ok u => exact Calmly.pure fun s hs => hext.of_namesKept hs
    | error e =>
        -- the copy failed: the new name goes again
        refine Calmly.bind (Calmly.ignoring (Q := fun _ => Extends w v s₀) (Calmly.act ?_)) fun _ =>
          Calmly.fail fun s hs => hs
        intro s hs
        have hnode : s.disk.tree.node (w ++ v) = some (.file s₀.disk.next) := by
          rw [hs.tree, hs₁]
          exact if_pos rfl
        have hpar : s.disk.tree.node (w ++ v).dropLast = some (.dir m) := by
          rw [hs.tree]
          exact hext.tree.old _ _ hm
        have hstraight : s.disk.tree.Straight (w ++ v) := by
          rw [hs.tree]
          exact (h.shape.grew hext.tree).straight (h.way.grew hext.tree fun _ => rfl)
        obtain ⟨he, hrun⟩ := Disk.unlink_straight hstraight hne hnode hpar hfull
        rw [hrun]
        refine ⟨Grew.of_node_eq fun q => ?_, hs.whiteoutSet.trans hext.whiteoutSet,
          hs.opaqueSet.trans hext.opaqueSet, hs.kept.trans hext.kept⟩
        change (if q = w ++ v then none else s.disk.tree.node q) = _
        rw [hs.tree, hs₁]
        change (if q = w ++ v then none else if q = w ++ v then _ else s₀.disk.tree.node q) = _
        by_cases hq : q = w ++ v
        · rw [if_pos hq, hq, h.none]
        · rw [if_neg hq, if_neg hq]

/-- A copy of a link, or nothing. -/
theorem symlink_extends {s₀ : VfsState} {v : Path} (h : Vacant w v s₀) (target : String) :
    Calmly (NamesKept s₀) (act (Disk.symlink target (some (w ++ v)))) (fun _ => Extends w v s₀)
      (fun _ => Extends w v s₀) := by
  refine Calmly.act fun s hs => ?_
  have hext : Extends w v s₀ s := (Extends.refl s₀).of_namesKept hs
  rcases Disk.symlink_cases target (some (w ++ v)) s.disk with
    ⟨e, hf⟩ | ⟨q, hq, hnone, -, hput, hi, hrun⟩
  · rw [hf]
    exact hext
  · obtain rfl := Disk.find_false_straight (by rw [hs.tree]; exact h.shape.straight h.way) hq
    rw [hrun]
    have hput₀ : s₀.disk.tree.CanPut (w ++ v) (.link target) := by
      rw [← hs.tree]
      exact hput
    have h₀ := h.extends_put hput₀ (by simp) (d := s₀.disk.put (w ++ v) (.link target) hput₀ (by simp)) rfl
    refine ⟨?_, hext.whiteoutSet, hext.opaqueSet, hext.kept⟩
    refine h₀.tree.trans (Grew.of_node_eq fun q => ?_)
    change (if q = w ++ v then _ else s.disk.tree.node q) = if q = w ++ v then _ else s₀.disk.tree.node q
    rw [hs.tree]

/-! ### Mounts without kept folders -/

/-- There is no kept folder. -/
def NoKept (M : Mount) : Prop := ∀ L ∈ M.layers, L.isKept = false

namespace NoKept

theorem keptLayerFor (h : NoKept M) (v : Path) : M.keptLayerFor v = none := by
  refine List.find?_eq_none.2 fun L hL => ?_
  rw [h L (List.mem_reverse.1 hL)]
  simp

theorem passthroughHost (h : NoKept M) (v : Path) : M.passthroughHost v = none := by
  rw [Mount.passthroughHost, h.keptLayerFor v]
  rfl

theorem copyDest (h : NoKept M) (hM : M.writelayer = some w) (v : Path) :
    copyDest M v = some (w ++ v) := by
  rw [VidyaGodFS.copyDest, h.passthroughHost v]
  exact wlPath_eq hM v

/-- Only the writelayer's own entries can be written where they are. -/
theorem isWritable (h : NoKept M) {v : Path} {rr : ResolveResult} (hfits : Fits M v rr) :
    rr.isWritable = rr.isWriteLayer := by
  rw [ResolveResult.isWritable, rwPassthrough_of_fits M hfits (h.keptLayerFor v), Bool.false_or]

end NoKept

/-- What is found in a directory layer is there. -/
def There (s : VfsState) : ResolveResult → Prop
  | .dirLayer host _ => ∃ st, s.disk.lstat host = .ok st
  | _ => True

theorem resolveLayer_there (M : Mount) (s : VfsState) (L : Layer) (v : Path) :
    Shows s (fun r => ∀ rr, r = some rr → There s rr) (resolveLayer M L v) := by
  unfold resolveLayer
  refine Shows.ite (fun _ => Shows.pure (by simp)) fun _ => ?_
  cases L.type with
  | dir =>
      refine Shows.bind fun r hr => ?_
      cases r with
      | error e =>
          refine Shows.bind fun masked _ => Shows.ite (fun _ => Shows.pure ?_)
            fun _ => Shows.pure (by simp)
          rintro rr ⟨rfl⟩
          exact trivial
      | ok st =>
          have hthere : There s (.dirLayer (layerHost L v) L) := ⟨st, hr.symm⟩
          refine Shows.ite (fun _ => Shows.bind fun r _ => ?_)
            fun _ => Shows.pure (by rintro rr ⟨rfl⟩; exact hthere)
          cases r with
          | error e => exact Shows.pure (by simp)
          | ok st' =>
              refine Shows.bind fun r _ => ?_
              rcases r with e | ⟨⟨⟩ | ⟨⟩⟩
              · exact Shows.pure (by simp)
              · exact Shows.pure (by simp)
              · exact Shows.pure (by rintro rr ⟨rfl⟩; exact hthere)
  | file =>
      have hfile : ∀ rr, some (ResolveResult.fileLayer L.source L) = some rr → There s rr := by
        rintro rr ⟨rfl⟩
        exact trivial
      refine Shows.bind fun r _ => ?_
      cases r with
      | error e => exact Shows.pure (by simp)
      | ok st =>
          refine Shows.ite (fun _ => Shows.bind fun r _ => ?_) fun _ => Shows.pure hfile
          cases r with
          | error e => exact Shows.pure (by simp)
          | ok st' => exact Shows.pure hfile
  | zip Z =>
      have hzip : ∀ e rr, some (ResolveResult.zipEntry L Z e) = some rr → There s rr := by
        rintro e rr ⟨rfl⟩
        exact trivial
      dsimp only
      cases Z.entry (sourceRel L v) with
      | none => exact Shows.ite (fun _ => Shows.pure (hzip none)) fun _ => Shows.pure (by simp)
      | some e =>
          refine Shows.ite (fun _ => Shows.bind fun r _ => ?_) fun _ => Shows.pure (hzip _)
          cases r with
          | none => exact Shows.ite (fun _ => Shows.pure (by simp)) fun _ => Shows.pure (hzip _)
          | some t => exact Shows.pure (hzip _)

theorem lowerLookup_there (M : Mount) (s : VfsState) (v : Path) :
    There s (lowerLookup M s v) := by
  have hlayers : ∀ layers, Shows s (There s) (resolveLayers M v layers) := by
    intro layers
    induction layers with
    | nil =>
        by_cases h : v ∈ M.implicitDirs
        · exact Shows.pure (by rw [if_pos h]; exact trivial)
        · exact Shows.pure (by rw [if_neg h]; exact trivial)
    | cons L rest ih =>
        have hL := resolveLayer_there M s L v
        refine Shows.bind fun r hr => ?_
        cases r with
        | none => exact ih
        | some rr => exact Shows.pure (hL rr hr.symm)
  exact hlayers _

theorem lookup_there (hM : M.writelayer = some w) {s : VfsState} (hs : Shape w s.disk.tree)
    {v : Path} (hv : OpenWay w s.disk.tree v) : There s (lookup M s v) := by
  rw [lookup_eq hM hs hv]
  split_ifs
  · exact trivial
  · exact trivial
  · exact trivial
  · exact lowerLookup_there M s v

/-! ### The copy of what a lookup found -/

/-- What is copied as a directory, as a function of the state. -/
def asDir (M : Mount) (s : VfsState) (rr : ResolveResult) : Bool := (copiesAsDir M rr : View Bool) s

/-- What shows as a directory, as a function of the state. -/
def dirHit (s : VfsState) (rr : ResolveResult) : Bool := (hitIsDir false rr : View Bool) s

/-- **A copy to a vacant place only adds**, and the copy of a directory is one. -/
theorem copyTo_extends {s₀ : VfsState} {v : Path} (h : Vacant w v s₀) (rr : ResolveResult) :
    Calmly (fun s => s = s₀) (copyTo M (some (w ++ v)) rr)
      (fun _ s => Extends w v s₀ s ∧ (asDir M s₀ rr = true → s.disk.tree.IsDir (w ++ v)))
      (fun _ => Extends w v s₀) := by
  have hfile : ∀ (copy : Handle → Prog World Errno Unit), (∀ out s, Keeps (NamesKept s) (copy out)) →
      asDir M s₀ rr = false → Calmly (fun s => s = s₀) (copyFile (some (w ++ v)) copy)
        (fun _ s => Extends w v s₀ s ∧ (asDir M s₀ rr = true → s.disk.tree.IsDir (w ++ v)))
        (fun _ => Extends w v s₀) := fun copy hcopy hdir =>
    Calmly.conseq (copyFile_extends h hcopy) (fun _ hs => hs)
      (fun _ _ hs => ⟨hs, fun hd => by rw [hdir] at hd; cases hd⟩) fun _ _ hs => hs
  have hlink : ∀ target, asDir M s₀ rr = false →
      Calmly (NamesKept s₀) (act (Disk.symlink target (some (w ++ v))))
        (fun _ s => Extends w v s₀ s ∧ (asDir M s₀ rr = true → s.disk.tree.IsDir (w ++ v)))
        (fun _ => Extends w v s₀) := fun target hdir =>
    Calmly.conseq (symlink_extends h target) (fun _ hs => hs)
      (fun _ _ hs => ⟨hs, fun hd => by rw [hdir] at hd; cases hd⟩) fun _ _ hs => hs
  have hquiet : ∀ {s : VfsState}, NamesKept s₀ s → Extends w v s₀ s :=
    fun hs => (Extends.refl s₀).of_namesKept hs
  unfold copyTo
  refine Calmly.bind (Q := fun b s => s = s₀ ∧ b = asDir M s₀ rr)
    (Calmly.look (copiesAsDir_agrees M rr) (by rintro s rfl; exact ⟨rfl, rfl⟩)) fun b => ?_
  refine Calmly.assuming ?_
  rintro s ⟨rfl, rfl⟩
  refine Calmly.ite (fun hdir => ?_) fun hdir => ?_
  · have hway : DirWay w s.disk.tree v := by
      intro q hq
      by_cases hqv : q = v
      · exact Or.inl (hqv ▸ h.none)
      · exact h.way q hq hqv
    refine Calmly.conseq (createDirectoriesEio_made (E := fun _ _ => False) h.shape hway)
      (fun _ hs => hs) (fun _ s' hs => ?_) fun _ _ hs => hs.elim
    exact ⟨hs.toExtends h.shape (List.prefix_refl v) h.clean, fun _ => hs.isDir hway⟩
  · have hdir' : asDir M s rr = false := by simpa using hdir
    have hhost : ∀ host, Calmly (fun s' => s' = s)
        (do
          if ← copiesAsLink M rr then do
            let target ← act fun d => (d.readlink host, d)
            act (Disk.symlink target (some (w ++ v)))
          else copyFile (some (w ++ v)) (copyHostFile host))
        (fun _ s' => Extends w v s s' ∧ (asDir M s rr = true → s'.disk.tree.IsDir (w ++ v)))
        (fun _ => Extends w v s) := by
      intro host
      refine Calmly.bind (Q := fun _ s' => s' = s)
        (Calmly.look (copiesAsLink_agrees M rr) fun s' hs' => hs') fun b => ?_
      refine Calmly.ite (fun _ => ?_) fun _ => hfile _ (fun out s' => copyHostFile_keeps s' _ out) hdir'
      refine Calmly.bind (Q := fun _ => NamesKept s)
        (Calmly.conseq (NamesKept.act (quiet_look fun d => d.readlink host) s)
          (by rintro s' rfl; exact NamesKept.refl _) (fun _ _ hs => hs) fun _ _ hs => hquiet hs)
        fun target => hlink target hdir'
    cases rr with
    | zipEntry L Z e =>
        cases e with
        | none => exact hhost _
        | some e =>
            refine Calmly.ite (fun _ => ?_) fun _ =>
              hfile _ (fun out s' => copyZipEntry_keeps s' Z e out) hdir'
            refine Calmly.bind (Q := fun _ => NamesKept s)
              (Calmly.conseq (readZipLink_keeps s Z e) (by rintro s' rfl; exact NamesKept.refl _)
                (fun _ _ hs => hs) fun _ _ hs => hquiet hs)
              fun target => hlink target hdir'
    | _ => exact hhost _

/-- What shows as a directory was copied as one. -/
theorem asDir_of_dirHit {s₀ s₁ s : VfsState} {rr : ResolveResult} (hthere : There s₀ rr)
    (h₁ : s₀.disk.tree.Grows s₁.disk.tree) (h : s₀.disk.tree.Grows s.disk.tree)
    (hrr : rr.isWriteLayer = false) (hdir : dirHit s rr = true) : asDir M s₁ rr = true := by
  cases rr with
  | none => exact hdir
  | implicitDir => exact hdir
  | writeLayer host => cases hrr
  | fileLayer host L => exact hdir
  | zipEntry L Z e =>
      by_cases hv : (ResolveResult.zipEntry L Z e).isVirtualDir = true
      · exact hv
      · change (hitIsDir false (ResolveResult.zipEntry L Z e) : View Bool) s = true at hdir
        unfold hitIsDir at hdir
        rw [if_neg hv] at hdir
        exact absurd hdir Bool.false_ne_true
  | dirLayer host L =>
      obtain ⟨st, hst⟩ := hthere
      obtain ⟨q, nd, hq, hnd, -⟩ := Disk.statAt_ok hst
      have hdir' : (s.disk.lstat host).toOption.any (·.isDir) = true := hdir
      rw [Disk.lstat, Disk.statAt_of_find (Disk.find_grows h hq (by simp [hnd])) (h q nd hnd)] at hdir'
      have hq₁ := Disk.find_grows h₁ hq (by simp [hnd])
      have hnd₁ := h₁ q nd hnd
      have hisDir : nd.isDir = true := (s.disk.nodeStat_isDir nd).symm.trans hdir'
      have hq₁' : s₁.disk.find true host = .ok q := by
        refine Disk.find_follow hq₁ fun target hlink => ?_
        rw [hnd₁] at hlink
        rw [Option.some_inj.1 hlink] at hisDir
        cases hisDir
      change ((if M.flattenSymlinks && !L.rw then s₁.disk.stat host
        else s₁.disk.lstat host).toOption.any (·.isDir)) = true
      split_ifs
      · rw [Disk.stat, Disk.statAt_of_find hq₁' hnd₁]
        exact (s₁.disk.nodeStat_isDir nd).trans hisDir
      · rw [Disk.lstat, Disk.statAt_of_find hq₁ hnd₁]
        exact (s₁.disk.nodeStat_isDir nd).trans hisDir

/-- **Copying up only adds**, and what shows as a directory afterwards is one in the writelayer. -/
theorem copyUp_extends (hM : M.writelayer = some w) (hk : NoKept M) {s₀ : VfsState}
    (hs : Shape w s₀.disk.tree) {v : Path} (hv : OpenWay w s₀.disk.tree v) (hclean : Clean v) :
    Calmly (fun s => s = s₀) (copyUp M v (lookup M s₀ v))
      (fun _ s => Extends w v s₀ s ∧ (dirHit s (lookup M s₀ v) = true → s.disk.tree.IsDir (w ++ v)))
      (fun _ => Extends w v s₀) := by
  have hfits : Fits M v (lookup M s₀ v) := resolve_fits M v (calm s₀) _ _ (resolve_run M (calm_calm s₀).2 v)
  have hthere := lookup_there hM hs hv
  have hcases := lookup_eq hM hs hv
  -- what is in the writelayer shows as a directory only if it is one
  have hwrite : ∀ host, lookup M s₀ v = .writeLayer host → dirHit s₀ (lookup M s₀ v) = true →
      s₀.disk.tree.IsDir (w ++ v) := by
    intro host hhost hdir
    rw [hhost] at hfits hdir
    obtain ⟨-, rfl⟩ := hfits
    rw [wlPath_eq hM] at hdir
    have hdir' : (s₀.disk.lstat (some (w ++ v))).toOption.any (·.isDir) = true := hdir
    cases hnode : s₀.disk.tree.node (w ++ v) with
    | none =>
        rw [Disk.lstat_straight_none (hs.straight hv) hnode] at hdir'
        cases hdir'
    | some nd =>
        rw [Disk.lstat_straight_some (hs.straight hv) hnode] at hdir'
        cases nd with
        | dir m => exact ⟨m, hnode⟩
        | _ => cases hdir'
  unfold copyUp
  rw [if_neg (by simp [hM])]
  by_cases hwritable : (lookup M s₀ v).isWritable = true
  · rw [if_pos hwritable]
    refine Calmly.pure ?_
    rintro s rfl
    refine ⟨Extends.refl s, fun hdir => ?_⟩
    rw [hk.isWritable hfits] at hwritable
    cases hrr : lookup M s v with
    | writeLayer host => exact hwrite host hrr hdir
    | _ => rw [hrr] at hwritable; cases hwritable
  · rw [if_neg hwritable, hk.copyDest hM]
    have hlower : (lookup M s₀ v).isWriteLayer = false := by
      rw [← hk.isWritable hfits]
      simpa using hwritable
    refine Calmly.bind (Q := fun r s => s = s₀ ∧ r = s₀.disk.lstat (some (w ++ v)))
      (Calmly.look (Agrees.look _) (by rintro s rfl; exact ⟨rfl, rfl⟩)) fun r => ?_
    refine Calmly.assuming ?_
    rintro s ⟨rfl, rfl⟩
    cases hnode : s.disk.tree.node (w ++ v) with
    | some nd =>
        rw [Disk.lstat_straight_some (hs.straight hv) hnode]
        refine Calmly.pure ?_
        rintro s' rfl
        refine ⟨Extends.refl s', fun hdir => ?_⟩
        -- only a whiteout hides an entry of the writelayer, and it hides it wholly
        by_cases hgone : isWhiteouted M s' v = true
        · rw [if_pos hgone] at hcases
          rw [hcases] at hdir
          exact absurd hdir Bool.false_ne_true
        · rw [if_neg hgone, if_pos (by simp [hnode])] at hcases
          rw [hcases] at hlower
          cases hlower
    | none =>
        rw [Disk.lstat_straight_none (hs.straight hv) hnode]
        dsimp only
        have hne : v ≠ [] := by
          rintro rfl
          rw [List.append_nil] at hnode
          exact hs.root.ne_none hnode
        unfold ensureCopyParent
        rw [hk.passthroughHost]
        refine Calmly.bind (Q := fun _ => MadeDirs w v.dropLast s)
          (ensureWriteParent_made hM hs hv hne) fun _ => ?_
        refine Calmly.assuming fun s₁ h₁ => ?_
        obtain ⟨hext₁, hvacant⟩ := h₁.vacant hs hv hne hclean hnode
        refine Calmly.conseq (copyTo_extends hvacant _) (fun _ hs => hs) (fun _ s' hs' => ?_)
          fun _ s' hs' => hext₁.trans hs'
        refine ⟨hext₁.trans hs'.1, fun hdir => hs'.2 ?_⟩
        exact asDir_of_dirHit hthere hext₁.tree.old (hext₁.trans hs'.1).tree.old hlower hdir

/-! ### Whole directories -/

/-- The disks differ at most in the writelayer. -/
def SameOutside (w : Path) (s s' : VfsState) : Prop :=
  ∀ q, ¬ w <+: q → s'.disk.tree.node q = s.disk.tree.node q

/-- The layers hold no name that is a marker's, whatever the writelayer holds. -/
def PlainLayers (M : Mount) (w : Path) (s : VfsState) : Prop :=
  ∀ s', SameOutside w s s' → ∀ v, ∀ n ∈ ((lowerListing M v false : View Listing) s').names,
    isMarker n = false

theorem SameOutside.refl (s : VfsState) : SameOutside w s s := fun _ _ => rfl

theorem SameOutside.trans {s s' s'' : VfsState} (h : SameOutside w s s') (h' : SameOutside w s' s'') :
    SameOutside w s s'' := fun q hq => (h' q hq).trans (h q hq)

theorem PlainLayers.mono {s s' : VfsState} (h : PlainLayers M w s) (hs : SameOutside w s s') :
    PlainLayers M w s' := fun s'' hs'' => h s'' (hs.trans hs'')

theorem Extends.sameOutside {v : Path} {s s' : VfsState} (h : Extends w v s s') :
    SameOutside w s s' := fun _ hq => h.tree.node_eq_of_not_under hq

/-- No listing shows a marker. -/
theorem PlainLayers.listing {s : VfsState} (h : PlainLayers M w s) {v : Path} {n : Name}
    (hn : n ∈ listing M s v) : isMarker n = false := by
  change n ∈ sortNames _ at hn
  rw [sortNames, List.mem_insertionSort, List.mem_dedup, List.mem_filter, List.mem_append] at hn
  rcases hn.1 with hwl | hlower
  · simpa using (List.mem_filter.1 hwl).2
  · by_cases hopq : opaqueName ∈ (writeNames M v : View (List Name)) s
    · rw [decide_eq_true hopq] at hlower
      exact absurd hlower (List.not_mem_nil)
    · rw [decide_eq_false hopq] at hlower
      exact h s (SameOutside.refl s) v n hlower

/-- **Copying up a merged directory only adds.** -/
theorem deepCopyUp_extends (hM : M.writelayer = some w) (hk : NoKept M) :
    ∀ (depth : ℕ) {v : Path} {s₀ : VfsState}, Shape w s₀.disk.tree → OpenWay w s₀.disk.tree v →
      Clean v → PlainLayers M w s₀ →
      Calmly (fun s => s = s₀) (deepCopyUp M depth v) (fun _ => Extends w v s₀)
        (fun _ => Extends w v s₀) := by
  intro depth
  induction depth with
  | zero =>
      intro v s₀ _ _ _ _
      exact Calmly.fail (by rintro s rfl; exact Extends.refl s)
  | succ depth ih =>
      intro v s₀ hs hv hclean hplain
      unfold deepCopyUp
      refine Calmly.bind (Q := fun rr s => s = s₀ ∧ rr = lookup M s₀ v)
        (Calmly.look (resolve_agrees M v) (by rintro s rfl; exact ⟨rfl, rfl⟩)) fun rr => ?_
      refine Calmly.assuming ?_
      rintro s ⟨rfl, rfl⟩
      refine Calmly.ite (fun _ => Calmly.fail (by rintro s' rfl; exact Extends.refl _)) fun _ => ?_
      refine Calmly.bind (copyUp_extends hM hk hs hv hclean) fun _ => ?_
      refine Calmly.assuming fun s₁ h₁ => ?_
      obtain ⟨hext, hdir⟩ := h₁
      refine Calmly.bind (Q := fun b s' => s' = s₁ ∧ b = dirHit s₁ (lookup M s v))
        (Calmly.look (hitIsDir_agrees false _) (by rintro s' rfl; exact ⟨rfl, rfl⟩)) fun b => ?_
      refine Calmly.assuming ?_
      rintro s₁ ⟨rfl, rfl⟩
      refine Calmly.ite (fun hhit => ?_) fun _ => Calmly.pure (by rintro s' rfl; exact hext)
      refine Calmly.bind (Q := fun children s' => s' = s₁ ∧ children = listing M s₁ v)
        (Calmly.look (collectChildren_agrees M v) (by rintro s' rfl; exact ⟨rfl, rfl⟩))
        fun children => ?_
      refine Calmly.assuming ?_
      rintro s₁ ⟨rfl, rfl⟩
      -- each child is copied into a directory that stays one
      have hturn : ∀ c ∈ listing M s₁ v,
          Keeps (fun s' => Extends w v s s' ∧ s'.disk.tree.IsDir (w ++ v))
            (deepCopyUp M depth (v ++ [c])) := by
        intro c hc
        refine Calmly.assuming ?_
        rintro s₂ ⟨hext₂, hdir₂⟩
        have hc' : isMarker c = false := (hplain.mono hext.sameOutside).listing hc
        have hchild := ih (v := v ++ [c]) (hs.grew hext₂.tree)
          ((hv.grew hext₂.tree fun _ => rfl).concat (Or.inr hdir₂) c)
          (clean_concat.2 ⟨hclean, hc'⟩) (hplain.mono hext₂.sameOutside)
        exact Calmly.conseq hchild (fun _ hs' => hs')
          (fun _ _ hs' => ⟨hext₂.trans hs'.of_child, hs'.tree.old.isDir hdir₂⟩)
          fun _ _ hs' => ⟨hext₂.trans hs'.of_child, hs'.tree.old.isDir hdir₂⟩
      refine Calmly.conseq (Keeps.forM hturn) ?_ (fun _ _ hs' => hs'.1) fun _ _ hs' => hs'.1
      rintro s' rfl
      exact ⟨hext, hdir hhit⟩

end VidyaGodFS
