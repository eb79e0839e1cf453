/-
**Which reported deletions are recorded.**

What a deletion hides, a marker is to hide from later mounts.  The kept folder's marker has to be made
before anything is noted in memory.  The writelayer's need not: whether the host takes it is not
looked at.  And a kept folder's mask that is still in memory is taken for recorded, whether or not
its marker is still there.

Main definitions:

* `HasRoom` — before a deletion, room in the writelayer for its marker, and a host that lets it be
  made;
* `Deletion.Marked` — a leftover mask whose marker is there;
* `Recordable` — a deletion that can be recorded;
* `Rereads` — before a deletion, a later mount will come by its marker;
* `Announces` — runs, with the deletions they have reported.

Main results:

* `recorded_inWritelayer`, `recorded_inFolder` — **what a reported deletion hides has its marker**;
* `exec_recorded`, `reports_recorded` — **and a later mount that comes by it does not resolve the
  name**, in every run;
* `deletion_forgotten` — deletions that are reported and not recorded.
-/

import VidyaGodFS.Markers
import VidyaGodFS.MarkerWays

set_option relaxedAutoImplicit false
set_option autoImplicit false

namespace VidyaGodFS

open Posix

variable {M : Mount}

/-! ### Reported deletions -/

variable (M) in
/-- A leftover mask of the name still has its marker, and no link leads the removal there. -/
def Deletion.Marked (d : Disk) : Deletion → Prop
  | .unlink v => Present d (markerPath M v) ∧ ∀ m, markerPath M v = some m → d.tree.Linkless m
  | .rmdir v => (Present d (markerPath M v) ∧ ∀ m, markerPath M v = some m → d.tree.Linkless m) ∧
      ∀ q, copyDest M v = some q → d.tree.Linkless q
  | .rename _ _ => False

variable (M) in
/-- What the hiding of a kept folder's own root is made beside of: its removal makes a marker in the
folder, its move would take the folder away. -/
def Deletion.RootBeside (t : Tree) (p : Path) : Deletion → Prop
  | .unlink _ => True
  | .rmdir v => OpaqueBeside M t p v
  | .rename vf _ => M.keptLayerFor vf = none

variable (M) in
/-- The writelayer has room for the marker, before the deletion, and the host lets it be made. -/
structure HasRoom (w : World) (del : Deletion) (p : Path) : Prop where
  dir : M.wlPath del.path.dropLast = some p
  markable : Markable w.state.disk.tree p
  lets : ∀ w₁, del.upToHide M w = (.ok true, w₁) → w₁.Lets (missingTo w.state.disk.tree p p.length)
  beside : del.RootBeside M w.state.disk.tree p

variable (M) in
/-- The deletion can be recorded: where its marker goes to the writelayer, there is room for it, and
in a kept folder a leftover mask of the name still has its marker. -/
structure Recordable (w : World) (del : Deletion) : Prop where
  apart : del.Apart
  room : InWritelayer M del.path → ∃ p, HasRoom M w del p
  leftover : ¬ InWritelayer M del.path → keptHidden M w.state del.path = true →
    del.Marked M w.state.disk

variable (M) in
/-- Before the deletion: a later mount will come by the marker that goes to the kept folder `L`. -/
structure RereadInFolder (L : Layer) (d : Disk) (del : Deletion) : Prop where
  walk : ∃ b, L.source = some b ∧ WalkFinds d.tree b L.subpath (sourceRel L del.path) ∧
    ((∃ vf vt, del = .rename vf vt) → d.tree.IsDir (b ++ (sourceRel L del.path).dropLast) ∧
      del.Beside M d (b ++ (sourceRel L del.path).dropLast))
  writelayer : ∃ b, M.writelayer = some b ∧ d.tree.OpenWay b ∧ d.tree.IsDir b ∧ del.Beside M d b

variable (M) in
/-- **Before the deletion: a later mount will come by the marker.** -/
structure Rereads (d : Disk) (del : Deletion) : Prop where
  inWritelayer : InWritelayer M del.path →
    ∃ b, M.writelayer = some b ∧ WalkFinds d.tree b [] del.path
  inFolder : ∀ L, M.keptLayerFor del.path = some L → sourceRel L del.path ≠ [] →
    RereadInFolder M L d del

/-- What is visible is not whiteouted. -/
theorem HidesLower.unhid {c : Prop} {s s' : VfsState} {v : Path} (h : HidesLower M s s' v)
    (hwl : M.writelayer ≠ none)
    (hkept : c → ∀ L, M.keptLayerFor v = some L → sourceRel L v ≠ [] →
      sourceRel L v ∉ (s.kept L.priority).deleted) : Unhid M c v s := by
  refine ⟨?_, hkept⟩
  by_contra hw
  have hbefore := h.before
  rw [lookup_whiteouted hwl (by simpa using hw)] at hbefore
  cases hbefore

/-- Where the writelayer is to hide it, only a whiteout hides it. -/
theorem InWritelayer.unhid {s : VfsState} {v : Path} (h : InWritelayer M v)
    (hw : isWhiteouted M s v = false) : Unhid M True v s :=
  ⟨hw, fun _ L hL hroot => absurd (h L hL) hroot⟩

theorem HidesLower.ne {s s' : VfsState} {v : Path} (h : HidesLower M s s' v)
    (hwl : M.writelayer ≠ none) (hin : InWritelayer M v) : v ≠ [] := by
  rintro rfl
  exact h.not_unhid hwl (hin.unhid (isWhiteouted_eq_false.2 (Or.inr (Or.inl rfl))))

theorem dropLast_append_baseName {v : Path} (hv : v ≠ []) : v.dropLast ++ [baseName v] = v := by
  rw [baseName, List.getLastD_eq_getLast?, List.getLast?_eq_some_getLast hv, Option.getD_some,
    List.dropLast_append_getLast]

/-- The kept folder's marker comes without a whiteout. -/
theorem hideLower_whiteouted {v : Path} {L : Layer} {w : World} (hL : M.keptLayerFor v = some L)
    (hroot : sourceRel L v ≠ []) :
    isWhiteouted M (hideLower M v w).2.state v = isWhiteouted M w.state v := by
  have hsame := (touchMarker_hostOnly (keptMarker L (sourceRel L v)) w).whiteoutSet
  unfold hideLower
  rw [hL]
  dsimp only
  rw [if_neg hroot]
  rcases htouch : touchMarker (keptMarker L (sourceRel L v)) w with ⟨e | u, w₁⟩
  · rw [Prog.bind_of_error htouch]
    rw [htouch] at hsame
    exact congrArg (fun S : Finset Path => M.writelayer.isSome && v ≠ [] && v ∈ S) hsame
  · rw [Prog.bind_of_ok htouch]
    rw [htouch] at hsame
    exact congrArg (fun S : Finset Path => M.writelayer.isSome && v ≠ [] && v ∈ S) hsame

/-! #### In the writelayer -/

/-- Up to the hiding the way to the marker stays what it was. -/
theorem upToHide_inWritelayer {del : Deletion} {p : Path} {d : Disk} (hin : InWritelayer M del.path)
    (hne : del.path ≠ []) (hdir : M.wlPath del.path.dropLast = some p) (ho : d.tree.OpenWay p)
    (hbeside : del.RootBeside M d.tree p) :
    Turns (fun d' => d' = d) (WayFrom p d.tree) (del.upToHide M) := by
  have hfrom : ∀ d', d' = d → WayFrom p d.tree d' := by
    rintro _ rfl
    exact WayKept.refl p _
  have hv : M.wlPath del.path = some (p ++ [baseName del.path]) := by
    conv_lhs => rw [← dropLast_append_baseName hne]
    rw [Mount.wlPath] at hdir ⊢
    rw [join_append, hdir]
    rfl
  cases del with
  | unlink v =>
      exact (Turns.of_within (unlink_drops v) (drops_keep ho)).mono hfrom fun _ h => h
  | rmdir v =>
      cases hroot : (keptRoot M v).isSome with
      | true =>
          refine (rmdir_root_kept ho hroot hbeside).mono (fun d' h => ⟨hfrom d' h, ?_⟩) fun _ h => h
          rw [h]
          exact fun _ _ hnode => hnode
      | false =>
          have hnone : M.keptLayerFor v = none := by
            by_contra hsome
            obtain ⟨L, hL⟩ := Option.ne_none_iff_exists'.1 hsome
            have hfilter : keptRoot M v = some L :=
              Option.filter_eq_some_iff.2 ⟨hL, decide_eq_true (hin L hL)⟩
            rw [hfilter] at hroot
            cases hroot
          exact (rmdir_kept ho ((copyDest_writelayer hnone).trans hv) hroot).mono hfrom fun _ h => h
  | rename vf vt => exact (rename_kept ho hbeside hdir hv).mono hfrom fun _ h => h.1

/-- **A deletion that is hidden in the writelayer** has its marker there. -/
theorem recorded_inWritelayer (hwl : M.writelayer ≠ none) {w w' : World} {del : Deletion} {p : Path}
    (hin : InWritelayer M del.path) (happart : del.Apart) (hroom : HasRoom M w del p)
    (hrun : exec M del.op w = (.ok (), w')) (h : HidesLower M w.state w'.state del.path) :
    Present w'.state.disk (markerPath M del.path) ∧ WayThere p w.state.disk.tree w'.state.disk := by
  have hbefore : Unhid M True del.path w.state :=
    h.unhid hwl fun _ L hL hroot => absurd (hin L hL) hroot
  have hun := upToHide_unhid del happart w hbefore
  have hway := upToHide_inWritelayer hin (h.ne hwl hin) hroom.dir hroom.markable.makeable.way
    hroom.beside
  rw [exec_deletion] at hrun
  rcases hup : del.upToHide M w with ⟨e | left, w₁⟩
  · rw [Prog.bind_of_error hup] at hrun
    cases hrun
  rw [hup] at hun
  rw [Prog.bind_of_ok hup] at hrun
  have hfrom : WayKept p w.state.disk.tree w₁.state.disk.tree := hway.run rfl hup
  cases left with
  | false =>
      -- nothing was left to hide, and there is no mask
      obtain rfl := (Prod.mk.inj hrun).2
      exact absurd hun (h.not_unhid hwl)
  | true =>
      have hide : createWhiteout M del.path w₁ = (.ok (), w') := by
        rw [← hideLower_inWritelayer hin]
        exact hrun
      have hlet := createWhiteout_let hwl hroom.dir (hroom.markable.kept hfrom)
        (missingTo_kept hfrom _) (hroom.lets w₁ hup) hide
      rw [markerPath_inWritelayer hin]
      exact ⟨hlet.1, hfrom.trans hlet.2.1, hlet.2.2⟩

/-! #### In a kept folder -/

section

variable {v : Path} {L : Layer}

theorem mark_ne (n : Name) : mark n ≠ n := by
  intro h
  have hlen := congrArg String.length h
  rw [mark, String.length_append] at hlen
  have hmark : String.length ".wh." = 4 := rfl
  omega

theorem join_single (p : HostPath) (n : Name) : p.join [n] = some (p.getD [] ++ [n]) := by
  cases p <;> rfl

/-- In a kept folder the marker of a name is beside its entry. -/
theorem entry_and_marker (hL : M.keptLayerFor v = some L) (hroot : sourceRel L v ≠ []) :
    copyDest M v = some ((L.source.join (sourceRel L v).dropLast).getD [] ++ [baseName (sourceRel L v)]) ∧
      markerPath M v = some ((L.source.join (sourceRel L v).dropLast).getD []
        ++ [mark (baseName (sourceRel L v))]) := by
  constructor
  · unfold copyDest Mount.passthroughHost
    rw [hL, Option.map_some, Option.getD_some, layerHost]
    conv_lhs => rw [← dropLast_append_baseName hroot]
    rw [join_append, join_single]
  · rw [markerPath_inFolder hL hroot, keptMarker, if_neg hroot, keptHost, join_single]

/-- The path leads to what it led to. -/
def LeadsStill (m : Path) (t₀ : Tree) (d : Disk) : Prop := Sighted (· = m) t₀ d.tree

theorem LeadsStill.present {m : Path} {d d' : Disk} (h : LeadsStill m d.tree d')
    (hlink : d.tree.Linkless m) (hthere : Present d (some m)) : Present d' (some m) := by
  obtain ⟨st, hst⟩ := hthere
  rcases Disk.lstat_linkless (h.linkless hlink) with ⟨nd, -, hok, -⟩ | ⟨hnone, -⟩
  · exact ⟨_, hok⟩
  · rcases Disk.lstat_linkless hlink with ⟨nd, hgives, -⟩ | ⟨-, e, he⟩
    · exact absurd ((h.gives _ rfl nd).2 hgives) (hnone nd)
    · rw [hst] at he
      cases he

section

variable {t₀ : Tree} {a m : Path} {n : Name} (ha : t₀.Linkless a) (hm : t₀.Linkless m)
  (hne : a ++ [n] ≠ m)
include ha hm hne

theorem unlink_leadsStill {d : Disk} (hd : LeadsStill m t₀ d) :
    LeadsStill m t₀ (Disk.unlink (some (a ++ [n])) d).2 := by
  rcases Disk.unlink_cases (some (a ++ [n])) d with ⟨e, hf⟩ | ⟨y, nd, hy, -, -, -, herase, hrun⟩
  · rw [hf]
    exact hd
  · obtain rfl := (hd.linkless ha).find_below hy
    rw [hrun]
    exact Sighted.erase hd (by rintro _ rfl; exact hm) hne herase

theorem rmdir_leadsStill {d : Disk} (hd : LeadsStill m t₀ d) :
    LeadsStill m t₀ (Disk.rmdir (some (a ++ [n])) d).2 := by
  rcases Disk.rmdir_cases (some (a ++ [n])) d with ⟨e, hf⟩ | ⟨y, hy, -, -, herase, hrun⟩
  · rw [hf]
    exact hd
  · obtain rfl := (hd.linkless ha).find_below hy
    rw [hrun]
    exact Sighted.erase hd (by rintro _ rfl; exact hm) hne herase

end

/-- The markers under a directory of the folder go, and no other. -/
theorem keptDropMarkersUnder_leadsStill {t₀ : Tree} {q m : Path} (hL : M.keptLayerFor v = some L)
    (hq : keptHost L (sourceRel L v) = some q) (hlink : t₀.Linkless q) (hm : t₀.Linkless m)
    (hne : ∀ k, q ++ [k] ≠ m) :
    Turns (LeadsStill m t₀) (LeadsStill m t₀) (keptDropMarkersUnder M v) := by
  unfold keptDropMarkersUnder
  rw [hL]
  refine Turns.bind (Turns.look (Agrees.look _)) fun names => Turns.bind
    (Turns.of_preserves (Prog.Preserves.forM fun k _ => Prog.Preserves.ite (fun _ => ?_)
      fun _ => Prog.Preserves.pure _)) fun _ => fun w hw => hw
  rw [hq]
  exact Prog.Preserves.bind (Prog.Preserves.attempt
    (act_ends (I := LeadsStill m t₀) (fun _ h => h) fun d hd => unlink_leadsStill hlink hm (hne k) hd))
      fun _ => Prog.Preserves.pure _

/-- **A leftover mask keeps its marker.** -/
theorem upToHide_marked {del : Deletion} {d : Disk} (hL : M.keptLayerFor del.path = some L)
    (hroot : sourceRel L del.path ≠ []) (h : del.Marked M d) :
    Turns (fun d' => d' = d) (fun d' => Present d' (markerPath M del.path)) (del.upToHide M) := by
  obtain ⟨hdest, hmarker⟩ := entry_and_marker hL hroot
  obtain ⟨p, hp⟩ : ∃ p, p = (L.source.join (sourceRel L del.path).dropLast).getD [] := ⟨_, rfl⟩
  obtain ⟨n, hn⟩ : ∃ n, n = baseName (sourceRel L del.path) := ⟨_, rfl⟩
  rw [← hp, ← hn] at hdest hmarker
  have hne : p ++ [n] ≠ p ++ [mark n] := by simpa using (mark_ne n).symm
  have hentry : layerHost L del.path = some (p ++ [n]) := by
    unfold copyDest Mount.passthroughHost at hdest
    rwa [hL, Option.map_some, Option.getD_some] at hdest
  have hhost : M.passthroughHost del.path = some (some (p ++ [n])) := by
    rw [Mount.passthroughHost, hL, Option.map_some, hentry]
  have hends : ∀ {m : Prog World Errno Bool}, d.tree.Linkless (p ++ [mark n]) →
      Present d (markerPath M del.path) →
      Turns (LeadsStill (p ++ [mark n]) d.tree) (LeadsStill (p ++ [mark n]) d.tree) m →
      Turns (fun d' => d' = d) (fun d' => Present d' (markerPath M del.path)) m := by
    intro m hlink hthere hm
    rw [hmarker] at hthere ⊢
    exact hm.mono (by rintro _ rfl; exact Sighted.refl _ _) fun d' hd' => hd'.present hlink hthere
  have hleft : ∀ had, Turns (LeadsStill (p ++ [mark n]) d.tree) (LeadsStill (p ++ [mark n]) d.tree)
      (leftToHide M del.path (noneLeft had)) := fun had =>
    leftToHide_turns _ (Turns.ite (fun _ => Turns.pure _) fun _ => Turns.fail _)
  cases del with
  | unlink v =>
      have hlink := h.2 _ hmarker
      have hdir : d.tree.Linkless p := hlink.of_le (List.prefix_append _ _)
      refine hends hlink h.1 (Turns.ite (fun _ => Turns.fail _) fun _ => ?_)
      rw [show M.passthroughHost v = _ from hhost]
      exact Turns.bind (Turns.toleratingEnoent (act_ends (fun _ h => h)
        fun d' hd' => unlink_leadsStill hdir hlink hne hd')) hleft
  | rmdir v =>
      have hlink := h.1.2 _ hmarker
      have hdir : d.tree.Linkless p := hlink.of_le (List.prefix_append _ _)
      refine hends hlink h.1.1 (Turns.ite (fun _ => Turns.fail _) fun _ =>
        Turns.bind (Turns.look (collectChildren_agrees M v)) fun children =>
        Turns.ite (fun _ => Turns.fail _) fun _ => ?_)
      rw [show M.passthroughHost v = _ from hhost]
      refine Turns.bind (keptDropMarkersUnder_leadsStill hL hentry (h.2 _ hdest) hlink fun k heq => ?_)
        fun _ => Turns.ite (fun hr => ?_) fun _ =>
          Turns.bind (Turns.toleratingEnoent (act_ends (fun _ h => h)
            fun d' hd' => rmdir_leadsStill hdir hlink hne hd')) hleft
      · have hlen := congrArg List.length heq
        simp at hlen
      · obtain ⟨K, hK⟩ := Option.isSome_iff_exists.1 hr
        obtain ⟨hkept, hr⟩ := Option.filter_eq_some_iff.1 hK
        obtain rfl := Option.some_inj.1 (hkept.symm.trans hL)
        exact absurd (of_decide_eq_true hr) hroot
  | rename vf vt => exact h.elim

/-- Up to the hiding the way to the marker stays what it was. -/
theorem upToHide_inFolder {del : Deletion} {p : Path} {n : Name} {d : Disk}
    (hL : M.keptLayerFor del.path = some L) (hroot : sourceRel L del.path ≠ [])
    (hdest : copyDest M del.path = some (p ++ [n])) (ho : d.tree.OpenWay p)
    (hmove : (∃ vf vt, del = .rename vf vt) → d.tree.IsDir p ∧ del.Beside M d p) :
    Turns (fun d' => d' = d) (WayFrom p d.tree) (del.upToHide M) := by
  have hfrom : ∀ d', d' = d → WayFrom p d.tree d' := by
    rintro _ rfl
    exact WayKept.refl p _
  cases del with
  | unlink v =>
      exact (Turns.of_within (unlink_drops v) (drops_keep ho)).mono hfrom fun _ h => h
  | rmdir v =>
      refine (rmdir_kept ho hdest ?_).mono hfrom fun _ h => h
      have hkept : M.keptLayerFor v = some L := hL
      have hnone : keptRoot M v = none := by
        rw [keptRoot, hkept]
        exact Option.filter_eq_none_iff.2 fun K hK hr =>
          hroot (by obtain rfl := Option.some_inj.1 hK; exact of_decide_eq_true hr)
      exact Option.isSome_eq_false_iff.2 (Option.isNone_iff_eq_none.2 hnone)
  | rename vf vt =>
      obtain ⟨hdir, hbeside⟩ := hmove ⟨vf, vt, rfl⟩
      refine (upToHide_beside ho hbeside).mono ?_ fun _ h => h.1
      rintro _ rfl
      exact ⟨⟨WayKept.refl p _, hdir⟩, DirsStay.refl _⟩

/-- **A deletion that is hidden in a kept folder** has its marker there, and no whiteout; and if the
way to the marker was open, it is there. -/
theorem recorded_inFolder (hwl : M.writelayer ≠ none) {w w' : World} {del : Deletion}
    (hL : M.keptLayerFor del.path = some L) (hroot : sourceRel L del.path ≠ [])
    (hrec : Recordable M w del) (hrun : exec M del.op w = (.ok (), w'))
    (h : HidesLower M w.state w'.state del.path) :
    Present w'.state.disk (markerPath M del.path) ∧ isWhiteouted M w'.state del.path = false ∧
      ∀ p n, copyDest M del.path = some (p ++ [n]) → markerPath M del.path = some (p ++ [mark n]) →
        w.state.disk.tree.OpenWay p →
        ((∃ vf vt, del = .rename vf vt) → w.state.disk.tree.IsDir p ∧ del.Beside M w.state.disk p) →
          WayThere p w.state.disk.tree w'.state.disk := by
  have hun : Unhid M False del.path (del.upToHide M w).2.state :=
    upToHide_unhid del hrec.apart w (h.unhid hwl nofun)
  rw [exec_deletion] at hrun
  rcases hup : del.upToHide M w with ⟨e | left, w₁⟩
  · rw [Prog.bind_of_error hup] at hrun
    cases hrun
  rw [hup] at hun
  rw [Prog.bind_of_ok hup] at hrun
  have hway : ∀ p n, copyDest M del.path = some (p ++ [n]) → w.state.disk.tree.OpenWay p →
      ((∃ vf vt, del = .rename vf vt) → w.state.disk.tree.IsDir p ∧ del.Beside M w.state.disk p) →
        WayFrom p w.state.disk.tree w₁.state.disk :=
    fun p n hdest ho hmove => (upToHide_inFolder hL hroot hdest ho hmove).run rfl hup
  cases left with
  | false =>
      -- a leftover mask hides the name
      obtain rfl := (Prod.mk.inj hrun).2
      have hmask : keptHidden M w.state del.path = true := by
        by_contra hno
        have hbefore : Unhid M True del.path w.state := h.unhid hwl fun _ K hK _ =>
          keptHidden_eq_false.1 (by simpa using hno) K hK
        have hafter := upToHide_unhid del hrec.apart w hbefore
        rw [hup] at hafter
        exact h.not_unhid hwl hafter
      have hmarked := hrec.leftover (fun hin => hroot (hin L hL)) hmask
      have hthere := (upToHide_marked hL hroot hmarked).run rfl hup
      refine ⟨hthere, hun.whiteout, fun p n hdest hmarker ho hmove => ?_⟩
      have hfrom := hway p n hdest ho hmove
      obtain ⟨st, hst⟩ := hthere
      rw [hmarker] at hst
      exact ⟨hfrom, isDir_of_lstat (WayKept.openWay hfrom ho) hst⟩
  | true =>
      have hide : hideLower M del.path w₁ = (.ok (), w') := hrun
      obtain ⟨w₂, htouch, hdisk⟩ := hideLower_inFolder hL hroot hide
      have hsame := hideLower_whiteouted hL hroot (w := w₁)
      rw [hide] at hsame
      rw [hdisk]
      refine ⟨touchMarker_present htouch, hsame.trans hun.whiteout, fun p n hdest hmarker ho hmove => ?_⟩
      rw [hmarker] at htouch
      exact (touchMarker_arrives ho).run (hway p n hdest ho hmove) htouch

end

/-- **What lies elsewhere and was there is there afterwards.** -/
theorem exec_beside {del : Deletion} {p : Path} {w w' : World} (ho : w.state.disk.tree.OpenWay p)
    (hdir : w.state.disk.tree.IsDir p) (hbeside : del.Beside M w.state.disk p)
    (hrun : exec M del.op w = (.ok (), w')) : WayThere p w.state.disk.tree w'.state.disk := by
  have hhide : ∀ left, Within Patches (hideIf M del.path left) := fun left =>
    Within.ite (fun _ => (hideLower_adds del.path).patches) fun _ => Within.pure _
  rw [exec_deletion] at hrun
  exact (Turns.bind (upToHide_beside ho hbeside) fun left =>
    Turns.of_within (hhide left) (patches_keep ho)).run
      ⟨⟨WayKept.refl p _, hdir⟩, DirsStay.refl _⟩ hrun

/-! #### Reports -/

/-- What a reported deletion owes. -/
structure Recorded (M : Mount) (w w' : World) (del : Deletion) : Prop where
  present : HidesLower M w.state w'.state del.path → Present w'.state.disk (markerPath M del.path)
  reread : HidesLower M w.state w'.state del.path → Rereads M w.state.disk del →
    (lookup M (mounted M w'.state.disk allowed allowed).state del.path).isNone = true

/-- **One deletion**: if it reports success, what it hides is recorded. -/
theorem exec_recorded (hwl : M.writelayer ≠ none) {w w' : World} {del : Deletion}
    (hrec : Recordable M w del) (hrun : exec M del.op w = (.ok (), w')) : Recorded M w w' del := by
  by_cases hin : InWritelayer M del.path
  · obtain ⟨p, hroom⟩ := hrec.room hin
    have hdone := recorded_inWritelayer hwl hin hrec.apart hroom hrun
    refine ⟨fun h => (hdone h).1, fun h hre => ?_⟩
    obtain ⟨b, hb, hwalk⟩ := hre.inWritelayer hin
    obtain ⟨hthere, hway⟩ := hdone h
    obtain rfl : p = b ++ del.path.dropLast := by
      have hdir := hroom.dir
      rw [Mount.wlPath, hb] at hdir
      exact (Option.some_inj.1 hdir).symm
    rw [markerPath_inWritelayer hin] at hthere
    have hbase : WayThere b w.state.disk.tree w'.state.disk :=
      ⟨fun q hq => hway.1 q (hq.trans (List.prefix_append _ _)), hway.2.of_le (List.prefix_append _ _)⟩
    exact lookup_mounted_whiteout hwl
      (by rw [hb]; exact dirAt_of_wayThere (hwalk.way.of_le (List.prefix_append _ _)) hbase)
      (by rw [hb]; exact hwalk.entered hway) hthere
  · obtain ⟨L, hL, hroot⟩ : ∃ L, M.keptLayerFor del.path = some L ∧ sourceRel L del.path ≠ [] := by
      simpa [InWritelayer] using hin
    have hdone := recorded_inFolder hwl hL hroot hrec hrun
    refine ⟨fun h => (hdone h).1, fun h hre => ?_⟩
    obtain ⟨⟨b, hb, hwalk, hmove⟩, bw, hbw, ho, hdir, hbeside⟩ := hre.inFolder L hL hroot
    obtain ⟨hthere, hclean, hways⟩ := hdone h
    obtain ⟨hdest, hmarker⟩ := entry_and_marker hL hroot
    have hjoin : L.source.join (sourceRel L del.path).dropLast
        = some (b ++ (sourceRel L del.path).dropLast) := by
      rw [hb]
      rfl
    rw [hjoin, Option.getD_some] at hdest hmarker
    have hway := hways _ _ hdest hmarker hwalk.way hmove
    rw [markerPath_inFolder hL hroot] at hthere
    exact lookup_mounted_kept hwl
      (by rw [hbw]; exact dirAt_of_wayThere ho (exec_beside ho hdir hbeside hrun)) hL hroot hclean
      (by rw [hb]; exact hwalk.entered hway) hthere h

/-- A deletion that was reported, with the worlds before and after it. -/
structure Report where
  before : World
  del : Deletion
  after : World

variable (M) in
/-- A run of admitted operations from `w₀`, with the deletions it has reported. -/
inductive Announces (ok : World → Op → Prop) (w₀ : World) : List Report → World → Prop
  | start : Announces ok w₀ [] w₀
  | step {log : List Report} {w : World} (op : Op) :
      Announces ok w₀ log w → ok w op → Announces ok w₀ log (exec M op w).2
  | reported {log : List Report} {w w' : World} (del : Deletion) :
      Announces ok w₀ log w → ok w del.op → exec M del.op w = (.ok (), w') →
        Announces ok w₀ (⟨w, del, w'⟩ :: log) w'

variable (M) in
/-- The operation, if it is a deletion, can be recorded. -/
def Records (w : World) (op : Op) : Prop := ∀ del : Deletion, op = del.op → Recordable M w del

/-- **Reported deletions are recorded.**  In every run of a mount with a writelayer, whatever the
host refuses: if each deletion that its writelayer is to record finds room for the marker there, and
the host lets it be made, and if no leftover mask of a kept folder has lost its marker, then of every
deletion that reported success, what it hid has its marker, and a later mount that comes by the
marker does not resolve it. -/
theorem reports_recorded (M : Mount) (hwl : M.writelayer ≠ none) (d : Disk)
    (fate blind : ℕ → Option Errno) {log : List Report} {w : World}
    (hrun : Announces M (Records M) (mounted M d fate blind) log w) :
    ∀ r ∈ log, Recorded M r.before r.after r.del := by
  induction hrun with
  | start => exact fun r hr => by cases hr
  | step op _ _ ih => exact ih
  | reported del _ hok hexec ih =>
      intro r hr
      rcases List.mem_cons.1 hr with rfl | hr
      · exact exec_recorded hwl (hok del rfl) hexec
      · exact ih r hr

/-! ### A host without room -/

/-- A package with a file in its root and one in a directory, a writelayer and a folder of saves. -/
def gameDisk : Disk :=
  [Disk.mkdir (some ["wl"]) 0o755, Disk.mkdir (some ["kept"]) 0o755,
    Disk.mkdir (some ["pkg"]) 0o755, touch (some ["pkg", "x"]), Disk.mkdir (some ["pkg", "sub"]) 0o755,
    touch (some ["pkg", "sub", "y"])].foldl (fun d call => (call d).2) Disk.blank

theorem gameLayers_priority :
    [(⟨.dir, some ["pkg"], [], [], false, [], 0⟩ : Layer)].map Layer.priority = List.range 1 := rfl

def gameMount : Mount where
  writelayer := some ["wl"]
  readOnly := false
  flattenSymlinks := true
  layers := [⟨.dir, some ["pkg"], [], [], false, [], 0⟩]
  priority_eq := gameLayers_priority
  pathDepth := 8

/-- The `n`-th call that acts is refused. -/
def noRoom (n : ℕ) : ℕ → Option Errno := fun i => if i = n then some .enospc else none

/-- The mount, and what the deletion of the file leaves behind where there is no room for its
marker. -/
def fullWorld : World := mounted gameMount gameDisk (noRoom 1) allowed

def forgottenWorld : World := (exec gameMount (.unlink ["x"]) fullWorld).2

theorem overLayers_priority :
    [(⟨.dir, some ["pkg"], [], [], false, [], 0⟩ : Layer),
      ⟨.dir, some ["kept"], [], [], true, [], 1⟩].map Layer.priority = List.range 2 := rfl

/-- The package with the saves kept over it. -/
def overMount : Mount where
  writelayer := some ["wl"]
  readOnly := false
  flattenSymlinks := true
  layers := [⟨.dir, some ["pkg"], [], [], false, [], 0⟩, ⟨.dir, some ["kept"], [], [], true, [], 1⟩]
  priority_eq := overLayers_priority
  pathDepth := 8

/-- The file is deleted and made again where its marker cannot be taken away; then the guest takes the
marker away itself. -/
def leftoverWorld : World :=
  [Op.unlink ["x"], .create ["x"] 0o644 ⟨.wronly, true, false, false, false⟩,
    .unlink [".wh.x"]].foldl (fun w op => (exec overMount op w).2)
      (mounted overMount gameDisk (noRoom 3) allowed)

def lostWorld : World := (exec overMount (.unlink ["x"]) leftoverWorld).2

theorem not_present {d : Disk} {p : HostPath} {e : Errno} (h : d.lstat p = .error e) :
    ¬ Present d p := by
  rintro ⟨st, hst⟩
  rw [h] at hst
  cases hst

/-- **Deletions that are reported and not recorded.**  There is no room for the marker in the
writelayer; and in a kept folder a mask was left over without its marker.  The name is gone, and the
next mount has it again. -/
theorem deletion_forgotten :
    (exec gameMount (.unlink ["x"]) fullWorld = (.ok (), forgottenWorld) ∧
      HidesLower gameMount fullWorld.state forgottenWorld.state ["x"] ∧
      ¬ Present forgottenWorld.state.disk (markerPath gameMount ["x"]) ∧
      (lookup gameMount (mounted gameMount forgottenWorld.state.disk allowed allowed).state
        ["x"]).isNone = false) ∧
    exec overMount (.unlink ["x"]) leftoverWorld = (.ok (), lostWorld) ∧
      HidesLower overMount leftoverWorld.state lostWorld.state ["x"] ∧
      ¬ Present lostWorld.state.disk (markerPath overMount ["x"]) ∧
      (lookup overMount (mounted overMount lostWorld.state.disk allowed allowed).state
        ["x"]).isNone = false := by
  refine ⟨⟨rfl, ⟨?_, ?_, ?_⟩, not_present (e := .enoent) ?_, ?_⟩, ?_, ⟨?_, ?_, ?_⟩,
    not_present (e := .enoent) ?_, ?_⟩
  · decide +kernel
  · decide +kernel
  · decide +kernel
  · decide +kernel
  · decide +kernel
  · exact Prod.ext (by decide +kernel) rfl
  · decide +kernel
  · decide +kernel
  · decide +kernel
  · decide +kernel
  · decide +kernel

/-- The deletion of the other file: its directory is made in the writelayer, and then its marker. -/
def roomyWorld : World := mounted gameMount gameDisk (noRoom 3) allowed

def keptWorld : World := (exec gameMount (.unlink ["sub", "y"]) roomyWorld).2

/-- With room for the marker the deletion of the other file is recorded, and the next mount does not
have it. -/
theorem deletion_kept :
    Present keptWorld.state.disk (markerPath gameMount ["sub", "y"]) ∧
      (lookup gameMount (mounted gameMount keptWorld.state.disk allowed allowed).state
        ["sub", "y"]).isNone = true := by
  have hides : HidesLower gameMount roomyWorld.state keptWorld.state ["sub", "y"] := by
    refine ⟨?_, ?_, ?_⟩ <;> decide +kernel
  have hwritelayer : ∀ L, gameMount.keptLayerFor ["sub", "y"] ≠ some L := by
    have hnone : gameMount.keptLayerFor ["sub", "y"] = none := by decide +kernel
    intro L hL
    cases hnone.symm.trans hL
  -- what is there of the way to the marker's directory
  have hnodes : ∀ q : Path, q <+: ["wl", "sub"] → roomyWorld.state.disk.tree.node q = none ∨
      roomyWorld.state.disk.tree.node q = some (.dir 0o755) := by
    have hall : ∀ q ∈ List.inits (["wl", "sub"] : Path), roomyWorld.state.disk.tree.node q = none ∨
        roomyWorld.state.disk.tree.node q = some (.dir 0o755) := by decide +kernel
    exact fun q hq => hall q ((List.mem_inits q _).2 hq)
  have hmode : ∀ (q : Path) (m : ℕ), q <+: ["wl", "sub"] →
      roomyWorld.state.disk.tree.node q = some (.dir m) → m = 0o755 := by
    intro q m hq hm
    rcases hnodes q hq with h | h
    · cases h.symm.trans hm
    · exact (Node.dir.inj (Option.some_inj.1 (h.symm.trans hm))).symm
  have hway : roomyWorld.state.disk.tree.OpenWay ["wl", "sub"] :=
    fun q hq => (hnodes q hq).imp_right fun h => ⟨_, h, by decide⟩
  have hmarkable : Markable roomyWorld.state.disk.tree ["wl", "sub"] := by
    refine ⟨⟨hway, fun q n m hle _ hm => ?_⟩, fun m hm => ?_⟩
    · obtain rfl := hmode q m ((List.prefix_append _ _).trans hle) hm
      decide
    · obtain rfl := hmode _ m (List.prefix_refl _) hm
      decide
  have hrecords : Records gameMount roomyWorld (.unlink ["sub", "y"]) := by
    intro del hdel
    cases del with
    | unlink v =>
        cases hdel
        refine ⟨trivial, fun _ => ⟨["wl", "sub"], rfl, hmarkable, fun w₁ hup => ?_, trivial⟩,
          fun hno => absurd (fun L hL => absurd hL (hwritelayer L)) hno⟩
        -- the unlink was the first call; the next two may act
        obtain rfl := congrArg Prod.snd hup
        have hmissing : missingTo roomyWorld.state.disk.tree ["wl", "sub"] 2 = 1 := by decide +kernel
        refine ⟨fun _ => rfl, fun i hi => ?_⟩
        have hle : i ≤ 1 := hmissing ▸ hi
        obtain rfl | rfl : i = 0 ∨ i = 1 := by omega
        · decide +kernel
        · decide +kernel
    | rmdir v => cases hdel
    | rename vf vt => cases hdel
  have hrecorded := reports_recorded gameMount (by decide) gameDisk (noRoom 3) allowed
    (Announces.reported (.unlink ["sub", "y"]) Announces.start hrecords rfl) _ List.mem_cons_self
  refine ⟨hrecorded.present hides, hrecorded.reread hides ⟨fun _ => ?_, fun L hL => ?_⟩⟩
  · refine ⟨["wl"], rfl, by decide, by decide +kernel, ⟨["sub"], rfl, by decide +kernel⟩, hway, ?_⟩
    intro q m _ hq hm
    obtain rfl := hmode q m hq hm
    decide
  · exact absurd hL (hwritelayer L)

end VidyaGodFS
