/-
**The way to a marker, during a deletion.**

What a deletion does before it hides the name leaves the way to the marker's directory as it was, or
makes what is missing of it.  A removal only takes names away.  A move copies what is to be moved
into that very directory first, so the way is there when the host moves it; and a way that is there
is left alone by whatever acts elsewhere.

Main definitions:

* `Turns` — what disks a program, if it succeeds, leads to from what disks;
* `Deletion.Beside` — a deletion that cannot act on a way;
* `OpaqueBeside` — the marker that the removal of a kept folder's root makes lies elsewhere.

Main results:

* `bringUp_kept`, `moveTo_arrives` — **a move out of the writelayer leaves the way there**;
* `unlink_drops`, `rmdir_kept`, `rename_kept` — what each deletion does to the way to its marker;
* `upToHide_beside` — what one does to a way that is there, if it acts elsewhere.
-/

import VidyaGodFS.Deletions
import VidyaGodFS.Ways

set_option relaxedAutoImplicit false
set_option autoImplicit false

namespace VidyaGodFS

open Posix

variable {M : Mount} {p : Path} {n : Name} {t₀ : Tree}

/-! ### Programs that succeed -/

/-- If the program succeeds, it leads from disks in `I` to disks in `J`. -/
def Turns {α : Type} (I J : Disk → Prop) (m : Prog World Errno α) : Prop :=
  Prog.Triple (fun w => I w.state.disk) m (fun _ w => J w.state.disk) (fun _ _ => True)

namespace Turns

variable {α β : Type} {I J K : Disk → Prop}

theorem pure (a : α) : Turns I I (Pure.pure a) := fun _ hw => hw

theorem fail (e : Errno) : Turns I J (Prog.fail e : Prog World Errno α) := fun _ _ => trivial

theorem bind {m : Prog World Errno α} {f : α → Prog World Errno β} (hm : Turns I J m)
    (hf : ∀ a, Turns J K (f a)) : Turns I K (m >>= f) := Prog.Triple.bind hm hf

theorem ite {c : Prop} [Decidable c] {m m' : Prog World Errno α} (h : c → Turns I J m)
    (h' : ¬ c → Turns I J m') : Turns I J (if c then m else m') := by
  by_cases hc : c
  · rw [if_pos hc]
    exact h hc
  · rw [if_neg hc]
    exact h' hc

theorem mono {I' J' : Disk → Prop} {m : Prog World Errno α} (h : Turns I J m) (hI : ∀ d, I' d → I d)
    (hJ : ∀ d, J d → J' d) : Turns I' J' m :=
  Prog.Triple.conseq h (fun _ hw => hI _ hw) (fun _ _ hw => hJ _ hw) fun _ _ hw => hw

/-- What a program keeps however it ends. -/
theorem of_preserves {m : Prog World Errno α} (h : Prog.Preserves (fun w => I w.state.disk) m) :
    Turns I I m := by
  intro w hw
  have hpost := h w hw
  rcases hm : m w with ⟨e | a, w'⟩
  · exact trivial
  · rw [hm] at hpost
    exact hpost

theorem of_within {C : Calls} {m : Prog World Errno α} (h : Within C m) (hI : C.Keep I) :
    Turns I I m := of_preserves (h I hI)

theorem look {q : View α} {m : Prog World Errno α} (h : Agrees q m) : Turns I I m := by
  intro w hw
  obtain ⟨a, w', hrun, hstate, -⟩ := h.total w
  rw [hrun]
  change I w'.state.disk
  rwa [hstate]

/-- A call of the host. -/
theorem act {call : Call α} (h : ∀ d a d', I d → call d = (.ok a, d') → J d') :
    Turns I J (act call) := by
  intro w hw
  rcases hrun : VidyaGodFS.act call w with ⟨e | a, w'⟩
  · exact trivial
  · exact h _ a _ hw (act_ok hrun)

/-- An outcome nobody looks at. -/
theorem ignoring {m : Prog World Errno α} (h : ∀ w, I w.state.disk → J (m w).2.state.disk) :
    Turns I J (ignoring m) := fun w hw => h w hw

/-- A call that may fail because there is nothing. -/
theorem toleratingEnoent {m : Prog World Errno Unit}
    (h : ∀ w, I w.state.disk → J (m w).2.state.disk) : Turns I J (toleratingEnoent m) := by
  refine bind (J := J) (fun w hw => h w hw) fun r => ?_
  cases r with
  | ok u => exact pure _
  | error e => exact ite (fun _ => pure _) fun _ => fail e

/-- What succeeds has been. -/
theorem run {m : Prog World Errno α} (h : Turns I J m) {w w' : World} {a : α}
    (hw : I w.state.disk) (hrun : m w = (.ok a, w')) : J w'.state.disk := by
  have hpost := h w hw
  rw [hrun] at hpost
  exact hpost

end Turns

/-! ### What the writelayer has -/

/-- The layers below are those of the mount without its writelayer. -/
theorem resolveLayers_bare (v : Path) : ∀ layers : List Layer,
    (resolveLayers { M with writelayer := none } v layers : Prog World Errno ResolveResult)
      = resolveLayers M v layers := by
  intro layers
  induction layers with
  | nil => rfl
  | cons L rest ih =>
      rw [resolveLayers, resolveLayers, ih]
      rfl

/-- What the layers have is not in the writelayer. -/
theorem resolveLayers_lower (v : Path) :
    Returns (fun rr => rr.isWriteLayer = false) (resolveLayers M v M.layers.reverse) := by
  have hfits : Returns (Fits { M with writelayer := none } v) (resolveLayers M v M.layers.reverse) := by
    rw [← resolveLayers_bare]
    exact resolveLayers_fits { M with writelayer := none } v _ fun L hL => List.mem_reverse.1 hL
  exact fun w rr w' h => isWriteLayer_of_fits _ (hfits w rr w' h) rfl

/-- What is found in the writelayer is there. -/
theorem resolve_there {v : Path} {rr : ResolveResult} {w w' : World}
    (h : (resolve M v : Prog World Errno ResolveResult) w = (.ok rr, w')) (hrr : rr.isWriteLayer = true) :
    ∃ st, w.state.disk.lstat (M.wlPath v) = .ok st := by
  have hno : ∀ {w₁ : World}, (resolveLayers M v M.layers.reverse : Prog World Errno ResolveResult) w₁
      ≠ (.ok rr, w') := by
    intro w₁ hlayers
    rw [resolveLayers_lower v w₁ rr w' hlayers] at hrr
    cases hrr
  unfold resolve at h
  by_cases hwl : M.writelayer = none
  · rw [if_pos hwl] at h
    exact absurd h hno
  · rw [if_neg hwl, see_bind] at h
    by_cases hgone : isWhiteouted M w.state v = true
    · rw [if_pos hgone] at h
      obtain rfl := Except.ok.inj (congrArg Prod.fst h)
      cases hrr
    · rw [if_neg hgone] at h
      obtain ⟨r, w₁, hlook, hstate, -⟩ := (Agrees.look fun d => d.lstat (M.wlPath v)).total w
      rw [Prog.bind_of_ok hlook] at h
      cases r with
      | ok st => exact ⟨st, looked_ok hlook⟩
      | error e =>
          dsimp only at h
          rw [see_bind] at h
          by_cases hunder : (isUnderOpaque M w₁.state v || isUnderWhiteout M w₁.state v) = true
          · rw [if_pos hunder] at h
            obtain rfl := Except.ok.inj (congrArg Prod.fst h)
            cases hrr
          · rw [if_neg hunder] at h
            exact absurd h hno

/-! ### Copies -/

theorem createDirectoriesEio_arrives (ho : t₀.OpenWay p) :
    Turns (WayFrom p t₀) (WayThere p t₀) (createDirectoriesEio (some p)) := by
  intro w hw
  unfold createDirectoriesEio
  rw [Prog.bind_of_ok (Prog.attempt_apply _ _)]
  rcases hrun : createDirectories (some p) w with ⟨e | u, w'⟩
  · exact trivial
  · exact createDirectories_arrives ho hw hrun

/-- An entry of the directory at the end of the way says that the way is there. -/
theorem isDir_of_lstat {d : Disk} (ho : d.tree.OpenWay p) {st : Stat}
    (h : d.lstat (some (p ++ [n])) = .ok st) : d.tree.IsDir p := by
  obtain ⟨q, nd, hq, hnd, -⟩ := Disk.statAt_ok h
  obtain rfl := ho.find_below hq
  exact d.tree.parent_dir p n (by rw [hnd]; exact Option.some_ne_none nd)

section

variable {v : Path} {rr : ResolveResult}

theorem copyDest_writelayer (hk : M.keptLayerFor v = none) : copyDest M v = M.wlPath v := by
  unfold copyDest Mount.passthroughHost
  rw [hk]
  rfl

/-- What the writelayer has, it has in a directory. -/
theorem resolve_writable_arrives (ho : t₀.OpenWay p) (hk : M.keptLayerFor v = none)
    (hv : M.wlPath v = some (p ++ [n])) {w w' : World} (hw : WayFrom p t₀ w.state.disk)
    (h : (resolve M v : Prog World Errno ResolveResult) w = (.ok rr, w'))
    (hrr : rr.isWritable = true) : WayThere p t₀ w.state.disk := by
  have hrw := rwPassthrough_of_fits M (resolve_fits M v w rr w' h) hk
  rw [ResolveResult.isWritable, hrw, Bool.false_or] at hrr
  obtain ⟨st, hst⟩ := resolve_there h hrr
  rw [hv] at hst
  exact ⟨hw, isDir_of_lstat (WayKept.openWay hw ho) hst⟩

variable (ho : t₀.OpenWay p) (hk : M.keptLayerFor v = none) (hdir : M.wlPath v.dropLast = some p)
  (hv : M.wlPath v = some (p ++ [n]))
include ho hk hdir hv

/-- **What is copied up to the writelayer has its directory there.** -/
theorem copyUp_arrives (hrr : rr.isWritable = false) :
    Turns (WayFrom p t₀) (WayThere p t₀) (copyUp M v rr) := by
  refine Turns.ite (fun _ => Turns.fail _) fun _ =>
    Turns.ite (fun h => absurd h (by simp [hrr])) fun _ => ?_
  intro w hw
  obtain ⟨r, w₁, hlook, hstate, -⟩ := (Agrees.look fun d => d.lstat (copyDest M v)).total w
  rw [Prog.bind_of_ok hlook]
  have hw₁ : WayFrom p t₀ w₁.state.disk := by rwa [hstate]
  cases r with
  | ok st =>
      have hst := looked_ok hlook
      rw [copyDest_writelayer hk, hv, ← hstate] at hst
      exact ⟨hw₁, isDir_of_lstat (WayKept.openWay hw₁ ho) hst⟩
  | error e =>
      have hparent : Turns (WayFrom p t₀) (WayThere p t₀) (ensureCopyParent M v) := by
        unfold ensureCopyParent Mount.passthroughHost ensureWriteParent
        rw [hk, hdir]
        exact createDirectoriesEio_arrives ho
      exact (Turns.bind hparent fun _ =>
        Turns.of_within (copyTo_patches _ rr) (patches_keep ho)) w₁ hw₁

theorem deepCopyUp_arrives (depth : ℕ) :
    Turns (WayFrom p t₀) (WayThere p t₀) (deepCopyUp M depth v) := by
  cases depth with
  | zero => exact Turns.fail _
  | succ depth =>
      intro w hw
      obtain ⟨rr, w₁, hrun, hstate, -⟩ := (resolve_agrees M v).total w
      unfold deepCopyUp
      rw [Prog.bind_of_ok hrun]
      have hrest : Turns (WayThere p t₀) (WayThere p t₀) (do
          if ← hitIsDir false rr then do
            let children ← collectChildren M v
            children.forM fun c => deepCopyUp M depth (v ++ [c])
          else pure () : Prog World Errno Unit) :=
        Turns.bind (Turns.look (hitIsDir_agrees false rr)) fun b => Turns.ite
          (fun _ => Turns.bind (Turns.look (collectChildren_agrees M v)) fun children =>
            Turns.of_within (Within.forM fun c _ => deepCopyUp_patches depth (v ++ [c])) (patches_keep ho))
          fun _ => Turns.pure _
      have hw₁ : WayFrom p t₀ w₁.state.disk := by rwa [hstate]
      cases hrr : rr.isWritable with
      | true =>
          have hthere := resolve_writable_arrives ho hk hv hw hrun hrr
          rw [← hstate] at hthere
          refine (Turns.ite (fun _ => Turns.fail _) fun _ => Turns.bind ?_ fun _ => hrest) w₁ hthere
          exact Turns.of_within (copyUp_patches v rr) (patches_keep ho)
      | false =>
          exact (Turns.ite (fun _ => Turns.fail _) fun _ =>
            Turns.bind (copyUp_arrives ho hk hdir hv hrr) fun _ => hrest) w₁ hw₁

/-- **What leads up to a move leaves the way as it was.** -/
theorem bringUp_kept (isDir : Bool) :
    Turns (WayFrom p t₀) (WayFrom p t₀) (bringUp M v rr isDir) := by
  refine Turns.ite (fun _ => ?_) fun _ => Turns.ite (fun _ => Turns.pure _) fun hrr => ?_
  · exact (deepCopyUp_arrives ho hk hdir hv _).mono (fun _ h => h) fun _ h => h.1
  · exact (copyUp_arrives ho hk hdir hv (by simpa using hrr)).mono (fun _ h => h)
      fun _ h => h.1

end

/-! ### Deletions -/

theorem leftToHide_within {C : Calls} (v : Path) {otherwise : Prog World Errno Unit}
    (h : Within C otherwise) : Within C (leftToHide M v otherwise) :=
  Within.bind (Within.look (resolve_agrees M v)) fun _ => Within.ite
    (fun _ => Within.bind h fun _ => Within.pure _) fun _ => Within.pure _

theorem leftToHide_turns {I : Disk → Prop} (v : Path) {otherwise : Prog World Errno Unit}
    (h : Turns I I otherwise) : Turns I I (leftToHide M v otherwise) :=
  Turns.bind (Turns.look (resolve_agrees M v)) fun _ => Turns.ite
    (fun _ => Turns.bind h fun _ => Turns.pure _) fun _ => Turns.pure _

/-- **The removal of a file takes names away only.** -/
theorem unlink_drops (v : Path) : Within Drops ((Deletion.unlink v).upToHide M) := by
  refine Within.ite (fun _ => Within.fail _) fun _ => ?_
  cases M.passthroughHost v with
  | some host =>
      exact Within.bind (toleratingEnoent_within (Within.act (Drops.unlink _))) fun had =>
        leftToHide_within v (noneLeft_within had)
  | none =>
      exact Within.bind (Within.ite (fun _ => Within.pure _) fun _ => Within.bind
        (toleratingEnoent_within (Within.act (Drops.unlink _))) fun _ => Within.pure _) fun _ =>
          leftToHide_within v (Within.pure _)

theorem act_ends {α : Type} {I J : Disk → Prop} {call : Call α} (hIJ : ∀ d, I d → J d)
    (h : ∀ d, I d → J (call d).2) (w : World) (hw : I w.state.disk) :
    J (act call w).2.state.disk := by
  unfold act
  cases w.fate 0 with
  | none => exact h _ hw
  | some e => exact hIJ _ hw

/-- **The removal of a directory** leaves the directory it is in. -/
theorem rmdir_kept (ho : t₀.OpenWay p) {v : Path} (hv : copyDest M v = some (p ++ [n]))
    (hroot : (keptRoot M v).isSome = false) :
    Turns (WayFrom p t₀) (WayFrom p t₀) ((Deletion.rmdir v).upToHide M) := by
  have hrmdir : ∀ w : World, WayFrom p t₀ w.state.disk →
      WayFrom p t₀ (act (Disk.rmdir (some (p ++ [n]))) w).2.state.disk := by
    refine act_ends (fun _ h => h) fun d hd => rmdir_wayKept hd fun x hx => ?_
    rw [(WayKept.openWay hd ho).find_below hx]
    exact not_append_singleton_le p n
  have hdrops : ∀ {α : Type} {m : Prog World Errno α}, Within Drops m →
      Turns (WayFrom p t₀) (WayFrom p t₀) m := fun h => Turns.of_within h (drops_keep ho)
  refine Turns.ite (fun _ => Turns.fail _) fun _ =>
    Turns.bind (Turns.look (collectChildren_agrees M v)) fun children =>
    Turns.ite (fun _ => Turns.fail _) fun _ => ?_
  unfold copyDest at hv
  cases hhost : M.passthroughHost v with
  | some host =>
      rw [hhost] at hv
      obtain rfl : host = some (p ++ [n]) := hv
      refine Turns.bind (hdrops (keptDropMarkersUnder_drops v)) fun _ =>
        Turns.ite (fun h => absurd h (by simp [hroot])) fun _ => ?_
      exact Turns.bind (Turns.toleratingEnoent hrmdir) fun had =>
        hdrops (leftToHide_within v (noneLeft_within had))
  | none =>
      rw [hhost] at hv
      have hwl : M.wlPath v = some (p ++ [n]) := hv
      refine Turns.bind (Turns.ite (fun _ => Turns.pure _) fun _ => ?_) fun _ =>
        hdrops (leftToHide_within v (Within.pure _))
      rw [hwl]
      exact Turns.bind (Turns.look (lookDir_agrees _)) fun names =>
        Turns.bind (hdrops (sweepMarkers_drops v names)) fun _ => Turns.ignoring hrmdir

/-- **A move out of the writelayer** finds its directory there, and leaves it. -/
theorem moveTo_arrives (ho : t₀.OpenWay p) {v vt : Path} {rr : ResolveResult}
    (hsrc : writeHost M v rr = some (p ++ [n])) (isDir : Bool) :
    Turns (WayFrom p t₀) (WayThere p t₀) (moveTo M v vt rr isDir) := by
  have hrename : ∀ dst, Turns (WayFrom p t₀) (WayThere p t₀)
      (act (Disk.rename (writeHost M v rr) dst)) := by
    rw [hsrc]
    exact fun dst => Turns.act fun d _ d' hd hrun => rename_arrives ho hd hrun
  have hpatches : ∀ {α : Type} {m : Prog World Errno α}, Within Patches m →
      Turns (WayThere p t₀) (WayThere p t₀) m := fun h => Turns.of_within h (patches_keep ho)
  unfold moveTo
  cases M.passthroughHost vt with
  | some dst =>
      exact Turns.ite (fun _ => Turns.fail _) fun _ =>
        Turns.bind (Turns.look (Agrees.see _)) fun _ =>
        Turns.bind (Turns.of_within (Within.ignoring (createDirectories_makesOnly _)) makes_keep) fun _ =>
        Turns.bind (hrename dst) fun _ =>
        Turns.bind (hpatches (runIf_within (keptRenamePrefix_within v vt))) fun _ =>
        Turns.bind (hpatches (runIf_within (keptMarkOpaque_adds vt).patches)) fun _ =>
        hpatches (Within.ignoring (unhideLower_drops vt).patches_of_drops)
  | none =>
      exact Turns.bind (Turns.of_within (createDirectoriesEio_makesOnly _) makes_keep) fun _ =>
        Turns.bind (Turns.of_within (removeWhiteout_drops vt) (drops_keep ho)) fun _ =>
        Turns.bind (hrename _) fun _ => hpatches (runIf_within (keptRenamePrefix_within v vt))

variable (M) in
/-- The marker that empties the root `v` of a kept folder does not lie on the way to `p`, and no link
leads it there. -/
def OpaqueBeside (t : Tree) (p v : Path) : Prop :=
  ∀ L, M.keptLayerFor v = some L → ∀ q, (keptHost L (sourceRel L v)).join [opaqueName] = some q →
    t.Linkless q ∧ ¬ q <+: p

/-- No link has been added. -/
def LinksFrom (t₀ : Tree) (d : Disk) : Prop :=
  ∀ q target, d.tree.node q = some (.link target) → t₀.node q = some (.link target)

theorem makes_linksFrom : Makes.Keep (LinksFrom t₀) := by
  intro α call hcall d hd
  cases hcall with
  | mkdir q =>
      rcases Disk.mkdir_cases q 0o777 d with ⟨e, hf⟩ | ⟨y, -, hnone, -, hput, hi, hrun⟩
      · rw [hf]
        exact hd
      · rw [hrun]
        intro r target hr
        rw [Disk.put_tree, Tree.put_node] at hr
        by_cases hry : r = y
        · rw [if_pos hry] at hr
          cases hr
        · rw [if_neg hry] at hr
          exact hd r target hr

theorem drops_linksFrom : Drops.Keep (LinksFrom t₀) := by
  intro α call hcall d hd
  cases hcall with
  | unlink q =>
      rcases Disk.unlink_cases q d with ⟨e, hf⟩ | ⟨y, nd, -, -, -, -, herase, hrun⟩
      · rw [hf]
        exact hd
      · rw [hrun]
        intro r target hr
        rw [Disk.erase_tree, Tree.erase_node] at hr
        by_cases hry : r = y
        · rw [if_pos hry] at hr
          cases hr
        · rw [if_neg hry] at hr
          exact hd r target hr

/-- A marker that is made beside the way. -/
theorem touchMarker_beside {q : Path} (hlink : t₀.Linkless q) (hq : ¬ q <+: p) :
    Turns (fun d => WayFrom p t₀ d ∧ LinksFrom t₀ d) (WayFrom p t₀) (touchMarker (some q)) := by
  have hmakes : Makes.Keep fun d => WayFrom p t₀ d ∧ LinksFrom t₀ d := fun _ call hcall d hd =>
    ⟨makes_keep call hcall d hd.1, makes_linksFrom call hcall d hd.2⟩
  refine Turns.bind (Turns.of_within (createDirectories_makesOnly _) hmakes) fun _ =>
    Turns.bind (Turns.act fun d h d' hd hrun => ?_) fun _ => Turns.pure _
  rcases Disk.open_cases (some q) ⟨.wronly, true, false, false, false⟩ 0o644 d with
    ⟨e, hf⟩ | ⟨y, hy, ⟨-, -, -, hput, hok⟩ | ⟨i, -, hok⟩ | ⟨-, hok⟩⟩
  · rw [hrun] at hf
    cases hf
  · have hlink' : d.tree.Linkless q := fun r hr target hnode => hlink r hr target (hd.2 r target hnode)
    obtain rfl := hlink'.locate_eq hy
    obtain rfl : d' = _ := congrArg Prod.snd (hrun.symm.trans hok)
    exact WayKept.put hd.1 hput hq
  · obtain rfl : d' = d := congrArg Prod.snd (hrun.symm.trans hok)
    exact hd.1
  · obtain rfl : d' = d := congrArg Prod.snd (hrun.symm.trans hok)
    exact hd.1

/-- A marker that could be made has its directory there. -/
theorem touchMarker_arrives (ho : t₀.OpenWay p) :
    Turns (WayFrom p t₀) (WayThere p t₀) (touchMarker (some (p ++ [n]))) := by
  have hdirs : Turns (WayFrom p t₀) (WayThere p t₀)
      (createDirectories ((some (p ++ [n])).map List.dropLast)) := by
    rw [Option.map_some, append_singleton_dropLast]
    intro w hw
    rcases hrun : createDirectories (some p) w with ⟨e | u, w'⟩
    · exact trivial
    · exact createDirectories_arrives ho hw hrun
  exact Turns.bind hdirs fun _ => Turns.bind
    (Turns.of_within (Within.act (Patches.adds (Adds.open_ _ _ _))) (patches_keep ho)) fun _ => Turns.pure _

/-- **The root of a kept folder is emptied** beside the way. -/
theorem rmdir_root_kept (ho : t₀.OpenWay p) {v : Path} (hroot : (keptRoot M v).isSome = true)
    (hbeside : OpaqueBeside M t₀ p v) :
    Turns (fun d => WayFrom p t₀ d ∧ LinksFrom t₀ d) (WayFrom p t₀)
      ((Deletion.rmdir v).upToHide M) := by
  have hdrops : Drops.Keep fun d => WayFrom p t₀ d ∧ LinksFrom t₀ d := fun _ call hcall d hd =>
    ⟨drops_keep ho call hcall d hd.1, drops_linksFrom call hcall d hd.2⟩
  obtain ⟨L, hL⟩ := Option.isSome_iff_exists.1 hroot
  have hkept : M.keptLayerFor v = some L := (Option.filter_eq_some_iff.1 hL).1
  refine Turns.ite (fun _ => Turns.fail _) fun _ =>
    Turns.bind (Turns.look (collectChildren_agrees M v)) fun children =>
    Turns.ite (fun _ => Turns.fail _) fun _ => ?_
  unfold Mount.passthroughHost
  rw [hkept]
  refine Turns.bind (Turns.of_within (keptDropMarkersUnder_drops v) hdrops) fun _ =>
    Turns.ite (fun _ => Turns.bind ?_ fun _ => Turns.pure _) fun h => absurd hroot h
  unfold keptMarkOpaque
  rw [hkept]
  dsimp only
  cases hq : (keptHost L (sourceRel L v)).join [opaqueName] with
  | none =>
      refine Turns.bind ?_ fun _ => Turns.of_within (C := Makes) (mutateKept_within _ _) makes_keep
      exact Turns.fail _
  | some q =>
      obtain ⟨hlink, hnot⟩ := hbeside L hkept q hq
      exact Turns.bind (touchMarker_beside hlink hnot) fun _ =>
        Turns.of_within (C := Makes) (mutateKept_within _ _) makes_keep

theorem rename_kept (ho : t₀.OpenWay p) {vf vt : Path} (hk : M.keptLayerFor vf = none)
    (hdir : M.wlPath vf.dropLast = some p) (hv : M.wlPath vf = some (p ++ [n])) :
    Turns (WayFrom p t₀) (WayThere p t₀) ((Deletion.rename vf vt).upToHide M) := by
  refine Turns.ite (fun _ => Turns.fail _) fun _ => ?_
  intro w hw
  obtain ⟨rr, w₁, hrun, hstate, -⟩ := (resolve_agrees M vf).total w
  rw [Prog.bind_of_ok hrun]
  have hsrc : writeHost M vf rr = some (p ++ [n]) := by
    rw [writeHost, rwPassthrough_of_fits M (resolve_fits M vf w rr w₁ hrun) hk, if_neg Bool.false_ne_true,
      copyDest_writelayer hk, hv]
  have hw₁ : WayFrom p t₀ w₁.state.disk := by rwa [hstate]
  refine (Turns.ite (fun _ => Turns.fail _) fun _ =>
    Turns.bind (Turns.look (hitIsDir_agrees false rr)) fun isDir =>
    Turns.bind (bringUp_kept ho hk hdir hv isDir) fun _ =>
    Turns.bind (moveTo_arrives ho hsrc isDir) fun _ => ?_) w₁ hw₁
  exact Turns.of_within (Within.bind (runIf_within (renameMaskPrefix_within vf vt)) fun _ =>
    leftToHide_within vf (Within.pure _)) (patches_keep ho)

/-! ### A way that lies elsewhere -/

variable (M) in
/-- No call of the deletion can act on the way to `p`. -/
def Deletion.Beside (d : Disk) (p : Path) : Deletion → Prop
  | .unlink _ => True
  | .rmdir v => ∀ q, removedHost M v = some q → ∀ x, MayActAt d q x → ¬ x <+: p
  | .rename vf vt => (∀ q, HostFor M vf q → ∀ x, MayActAt d q x → ¬ x <+: p) ∧
      ∀ q, copyDest M vt = some q → ∀ x, MayActAt d q x → ¬ x <+: p

/-- The way is there as it was, and so are the directories of `d`. -/
def WayAndDirs (p : Path) (t₀ : Tree) (d d' : Disk) : Prop := WayThere p t₀ d' ∧ DirsStay d d'

theorem patches_wayAndDirs (ho : t₀.OpenWay p) (d : Disk) : Patches.Keep (WayAndDirs p t₀ d) := by
  intro α call hcall d' hd
  refine ⟨patches_keep ho call hcall d' hd.1, fun q hq => ?_⟩
  have hdir := hd.2 q hq
  cases hcall with
  | adds h => exact (adds_spared h d').isDir hdir
  | drops h => exact (drops_spared h hdir).isDir hdir

theorem rmdir_wayThere {host : HostPath} {d : Disk} (hd : WayThere p t₀ d)
    (h : ∀ x, d.find false host = .ok x → ¬ x <+: p) : WayThere p t₀ (Disk.rmdir host d).2 := by
  rcases Disk.rmdir_cases host d with ⟨e, hf⟩ | ⟨x, hx, -, -, herase, hrun⟩
  · rw [hf]
    exact hd
  · rw [hrun]
    refine ⟨hd.1.erase herase (h x hx), ?_⟩
    obtain ⟨m, hm⟩ := hd.2
    refine ⟨m, (if_neg ?_).trans hm⟩
    rintro rfl
    exact h p hx (List.prefix_refl p)

/-- Where a call is made that takes a directory, its path may have led from the start. -/
theorem WayAndDirs.not_le {d d' : Disk} (hd : WayAndDirs p t₀ d d') {host : HostPath}
    (haim : ∀ q, host = some q → ∀ x, MayActAt d q x → ¬ x <+: p) :
    ∀ x, d'.find false host = .ok x → ¬ x <+: p := by
  intro x hx
  cases host with
  | none => cases hx
  | some q => exact haim q rfl x (mayActAt_of_find hd.2 hx)

section

variable (ho : t₀.OpenWay p) {d : Disk}
include ho

theorem turns_before {α : Type} {m : Prog World Errno α} (h : Within Patches m) :
    Turns (WayAndDirs p t₀ d) (WayAndDirs p t₀ d) m := Turns.of_within h (patches_wayAndDirs ho d)

theorem turns_after {α : Type} {m : Prog World Errno α} (h : Within Patches m) :
    Turns (WayThere p t₀) (WayThere p t₀) m := Turns.of_within h (patches_keep ho)

theorem rmdir_beside {v : Path} (h : (Deletion.rmdir v).Beside M d p) :
    Turns (WayAndDirs p t₀ d) (WayThere p t₀) ((Deletion.rmdir v).upToHide M) := by
  have hrmdir : ∀ {host : HostPath}, (∀ q, host = some q → ∀ x, MayActAt d q x → ¬ x <+: p) →
      ∀ w : World, WayAndDirs p t₀ d w.state.disk →
        WayThere p t₀ (act (Disk.rmdir host) w).2.state.disk := fun hhost =>
    act_ends (fun _ hd => hd.1) fun d' hd => rmdir_wayThere hd.1 (hd.not_le hhost)
  refine Turns.ite (fun _ => Turns.fail _) fun _ =>
    Turns.bind (Turns.look (collectChildren_agrees M v)) fun children =>
    Turns.ite (fun _ => Turns.fail _) fun _ => ?_
  have h : ∀ q, removedHost M v = some q → ∀ x, MayActAt d q x → ¬ x <+: p := h
  unfold removedHost at h
  cases hhost : M.passthroughHost v with
  | some host =>
      rw [hhost] at h
      dsimp only at h ⊢
      refine Turns.bind (turns_before ho (keptDropMarkersUnder_drops v).patches_of_drops) fun _ =>
        Turns.ite (fun _ => ?_) fun hroot => ?_
      · exact (turns_before ho (Within.bind (keptMarkOpaque_adds v).patches
          fun _ => Within.pure _)).mono (fun _ h => h) fun _ h => h.1
      · rw [if_neg hroot] at h
        exact Turns.bind (Turns.toleratingEnoent (hrmdir h)) fun had =>
          turns_after ho (leftToHide_within v (noneLeft_within had))
  | none =>
      rw [hhost] at h
      dsimp only at h ⊢
      refine Turns.bind (Turns.ite (fun _ => ?_) fun hwl => ?_) fun _ =>
        turns_after ho (leftToHide_within v (Within.pure _))
      · exact (Turns.pure ()).mono (fun _ h => h) fun _ h => h.1
      · rw [if_neg hwl] at h
        exact Turns.bind (Turns.look (lookDir_agrees _)) fun names =>
          Turns.bind (turns_before ho (sweepMarkers_drops v names).patches_of_drops) fun _ =>
          Turns.ignoring (hrmdir h)

theorem moveTo_beside {vf vt : Path} {rr : ResolveResult} (hfits : Fits M vf rr)
    (h : (Deletion.rename vf vt).Beside M d p) (isDir : Bool) :
    Turns (WayAndDirs p t₀ d) (WayThere p t₀) (moveTo M vf vt rr isDir) := by
  have hrename : Turns (WayAndDirs p t₀ d) (WayThere p t₀)
      (act (Disk.rename (writeHost M vf rr) (copyDest M vt))) :=
    Turns.act fun d' _ d'' hd' hmove => by
      have hthere := rename_wayThere hd'.1
        (hd'.not_le fun q hq => h.1 q (hostFor_writeHost hfits hq)) (hd'.not_le h.2)
      rw [hmove] at hthere
      exact hthere
  unfold moveTo
  unfold copyDest at hrename
  cases hhost : M.passthroughHost vt with
  | some dst =>
      rw [hhost] at hrename
      exact Turns.ite (fun _ => Turns.fail _) fun _ =>
        Turns.bind (Turns.look (Agrees.see _)) fun _ =>
        Turns.bind (turns_before ho (ensureHostParent_adds dst).patches) fun _ =>
        Turns.bind hrename fun _ =>
        Turns.bind (turns_after ho (runIf_within (keptRenamePrefix_within vf vt))) fun _ =>
        Turns.bind (turns_after ho (runIf_within (keptMarkOpaque_adds vt).patches)) fun _ =>
        turns_after ho (Within.ignoring (unhideLower_drops vt).patches_of_drops)
  | none =>
      rw [hhost] at hrename
      exact Turns.bind (turns_before ho (createDirectoriesEio_adds _).patches) fun _ =>
        Turns.bind (turns_before ho (removeWhiteout_drops vt).patches_of_drops) fun _ =>
        Turns.bind hrename fun _ => turns_after ho (runIf_within (keptRenamePrefix_within vf vt))

/-- **A deletion that acts elsewhere leaves a way that is there.** -/
theorem upToHide_beside {del : Deletion} (h : del.Beside M d p) :
    Turns (WayAndDirs p t₀ d) (WayThere p t₀) (del.upToHide M) := by
  cases del with
  | unlink v =>
      exact (turns_before ho (unlink_drops v).patches_of_drops).mono (fun _ h => h) fun _ h => h.1
  | rmdir v => exact rmdir_beside ho h
  | rename vf vt =>
      refine Turns.ite (fun _ => Turns.fail _) fun _ => ?_
      intro w hw
      obtain ⟨rr, w₁, hrun, hstate, -⟩ := (resolve_agrees M vf).total w
      rw [Prog.bind_of_ok hrun]
      have hfits := resolve_fits M vf w rr w₁ hrun
      have hw₁ : WayAndDirs p t₀ d w₁.state.disk := by rwa [hstate]
      exact (Turns.ite (fun _ => Turns.fail _) fun _ =>
        Turns.bind (Turns.look (hitIsDir_agrees false rr)) fun isDir =>
        Turns.bind (turns_before ho (bringUp_patches vf rr isDir)) fun _ =>
        Turns.bind (moveTo_beside ho hfits h isDir) fun _ =>
        turns_after ho (Within.bind (runIf_within (renameMaskPrefix_within vf vt)) fun _ =>
          leftToHide_within vf (Within.pure _))) w₁ hw₁

end

end VidyaGodFS
