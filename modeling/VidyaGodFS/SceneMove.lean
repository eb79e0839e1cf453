/-
**Entries that move.**

A rename brings what it moves to the writelayer, takes the whiteout of the new name away, moves the
entry there and hides what is left below at the old name.  For an entry that is no directory this is
what a plain file system does: it shows at the new name and nowhere else.

A directory moves with all that is below it, masks included.  But the whiteout of the new name is gone
by then and no opaque mark comes in its place, so whatever the layers have below the new name shows
through where the directory has nothing of its own.

Main definitions:

* `Readied`, `MovedTo` — the writelayer can take an entry at a path; the entry has moved there;
* `Unmixed` — nothing of the layers comes out where a directory moves to;
* `Relocated` — the directory has moved, and its masks with it.

Main results:

* `vfsRename_plainly` — **an entry that is no directory moves**;
* `vfsRename_moves` — **a directory moves, and just this where nothing comes out**.
-/

import VidyaGodFS.HostOnly
import VidyaGodFS.SceneBytes
import VidyaGodFS.SceneDeep

set_option relaxedAutoImplicit false
set_option autoImplicit false

namespace Posix.Disk

variable {d : Disk} {a b : Path}

/-- Moving an entry to where there is no directory; a directory only to where there is nothing. -/
theorem rename_straight (ha : d.tree.Straight a) (hb : d.tree.Straight b) (hb' : b ≠ []) {nd : Node}
    (hnd : d.tree.node a = some nd) (hdir : ∀ m, nd = .dir m → Full m ∧ d.tree.node b = none)
    (hdirb : ¬ d.tree.IsDir b) (hsame : ¬ SameFile d.tree a b) (hab : ¬ a <+: b) (hba : ¬ b <+: a)
    (hdev : d.dev a.dropLast = d.dev b.dropLast) {m m' : ℕ} (hpara : d.tree.node a.dropLast = some (.dir m))
    (hm : Full m) (hparb : d.tree.node b.dropLast = some (.dir m')) (hm' : Full m') :
    ∃ hmove, rename (some a) (some b) d = (.ok (), d.move a b hmove) := by
  have ha' : a ≠ [] := fun he => hab (he ▸ List.nil_prefix)
  have hempty : d.tree.children b = [] := (canErase_of_not_dir hb' hdirb).2
  have hmove : d.tree.CanMove a b := ⟨ha', hb', by rw [hnd]; simp, hab, ⟨m', hparb⟩, hempty⟩
  have hfinda : d.find false (some a) = .ok a := ha.locate_of_node hnd (fun _ _ => rfl)
  have hfindb : d.find false (some b) = .ok b := hb.locate_of_parent hb' ⟨m', hparb⟩ (fun _ _ => rfl)
  refine ⟨hmove, ?_⟩
  refine (atPath_of_ok hfinda _).trans ((atPath_of_ok hfindb _).trans ?_)
  rw [if_neg (not_not.2 hdev), if_neg (by simp [ha', hb']), hnd]
  have hreplaces : replaces nd (d.tree.node b) = .ok () := by
    cases hnode : d.tree.node b with
    | none => cases nd <;> rfl
    | some nd' =>
        have hfree : ∀ m, nd ≠ .dir m := fun m he => by
          rw [(hdir m he).2] at hnode
          cases hnode
        cases nd' with
        | dir m'' => exact absurd ⟨m'', hnode⟩ hdirb
        | _ => cases nd <;> first | rfl | exact absurd rfl (hfree _)
  have hat : renameAt a b nd d = (.ok (), d.move a b hmove) := by
    rw [renameAt, hreplaces]
    exact dif_pos hmove
  dsimp only
  rw [if_neg hsame, if_neg hab, if_neg hba, if_neg (by
    simp [writable_of_full hpara hm, writable_of_full hparb hm'])]
  cases nd with
  | dir m'' => exact (if_neg fun hc => hc.2 (hdir m'' rfl).1.2.1).trans hat
  | _ => exact hat

end Posix.Disk

namespace VidyaGodFS

open Posix

variable {M : Mount} {w : Path} {s₀ s s' : VfsState} {low : Path → Option Entry}

/-! ### The move itself -/

section

variable {vf vt : Path} {hm : s.disk.tree.CanMove (w ++ vf) (w ++ vt)}

/-- Where nothing is masked below the new name, just the masks from the old name on move there. -/
theorem mem_image_under {S : Finset Path} (hf : vf ≠ []) (hS : ∀ x ∈ S, ¬ vt <+: x) (r : Path) :
    vt ++ r ∈ S.image (movePrefix vf vt) ↔ vf ++ r ∈ S := by
  rw [mem_image_movePrefix hf]
  constructor
  · rintro (⟨r', he, hr⟩ | ⟨hmem, -⟩)
    · rwa [List.append_cancel_left he]
    · exact absurd (List.prefix_append vt r) (hS _ hmem)
  · exact fun hr => Or.inl ⟨r, rfl, hr⟩

/-- Elsewhere the masks stay. -/
theorem mem_image_other {S : Finset Path} (hf : vf ≠ []) {y : Path} (hyf : ¬ vf <+: y) (hyt : ¬ vt <+: y) :
    y ∈ S.image (movePrefix vf vt) ↔ y ∈ S := by
  rw [mem_image_movePrefix hf]
  constructor
  · rintro (⟨r, rfl, -⟩ | ⟨hmem, -⟩)
    · exact absurd (List.prefix_append vt r) hyt
    · exact hmem
  · exact fun hmem => Or.inr ⟨hmem, hyf⟩

/-- **The move** keeps the state in good order, once the masks have moved along. -/
theorem Orderly.moved (h : Orderly w s₀ s) (hm : s.disk.tree.CanMove (w ++ vf) (w ++ vt)) (hf : vf ≠ [])
    (hcleanf : Clean vf) (ht : vt ≠ []) (hcleant : Clean vt) (hgonef : vf ∉ s.whiteoutSet)
    (hunt : Unmasked vt s) :
    Orderly w s₀ (carried vf vt { s with disk := s.disk.move (w ++ vf) (w ++ vt) hm }) := by
  have hset := h.synced.of_move hm hf hcleanf ht hcleant hgonef
  refine h.step hset ⟨le_rfl, fun _ _ => rfl, rfl⟩ (fun x i hx hi => Or.inr ?_) fun u hu hclean => ?_
  · have hi : (s.disk.move (w ++ vf) (w ++ vt) hm).tree.node (w ++ x) = some (.file i) := hi
    by_cases htx : vt <+: x
    · obtain ⟨r, rfl⟩ := htx
      rw [moved_node_under] at hi
      exact ⟨vf ++ r, hcleanf.append fun n hn => hx n (List.mem_append_right vt hn), hi⟩
    · by_cases hfx : vf <+: x
      · rw [moved_node_left hm htx hfx] at hi
        cases hi
      · rw [moved_node_other hm htx hfx] at hi
        exact ⟨x, hx, hi⟩
  · rcases (mem_image_movePrefix hf).1 hu with ⟨r, rfl, hr⟩ | ⟨hu, hnot⟩
    · refine (moved_node_under hm r).trans ?_
      exact h.exclusive _ hr (hcleanf.append fun n hn => hclean n (List.mem_append_right vt hn))
    · exact (moved_node_other hm (hunt.1 u hu) hnot).trans (h.exclusive u hu hclean)

/-- The move changes what shows from the two names on at most. -/
theorem moved_scene (hM : M.writelayer = some w) (hb : Beneath M w s₀ low) (h : Orderly w s₀ s) (hf : vf ≠ [])
    (h' : Orderly w s₀ (carried vf vt { s with disk := s.disk.move (w ++ vf) (w ++ vt) hm })) {u : Path}
    (huf : ¬ vf <+: u) (hut : ¬ vt <+: u) (hu : Reached M s u) :
    Reached M (carried vf vt { s with disk := s.disk.move (w ++ vf) (w ++ vt) hm }) u ∧
      served M (carried vf vt { s with disk := s.disk.move (w ++ vf) (w ++ vt) hm }) u = served M s u := by
  have hnode : ∀ y, ¬ vf <+: y ∧ ¬ vt <+: y →
      (s.disk.move (w ++ vf) (w ++ vt) hm).tree.node (w ++ y) = s.disk.tree.node (w ++ y) :=
    fun y hy => moved_node_other hm hy.2 hy.1
  refine served_frame hM hb h h' (P := fun u => ¬ vf <+: u ∧ ¬ vt <+: u)
    (fun u q hu hq => ⟨fun hc => hu.1 (hc.trans hq), fun hc => hu.2 (hc.trans hq)⟩)
    (fun u hu => mem_image_other hf hu.1 hu.2)
    (fun u q hu hq _ => mem_image_other hf (fun hc => hu.1 (hc.trans hq)) fun hc => hu.2 (hc.trans hq))
    (fun y nd' hy _ hnd' => ⟨nd', (hnode y hy).trans hnd', rfl⟩)
    (fun y nd' hy _ hnone hnd' _ => ?_) u ⟨huf, hut⟩ hu
  have hnd' : (s.disk.move (w ++ vf) (w ++ vt) hm).tree.node (w ++ y) = some nd' := hnd'
  rw [hnode y hy, hnone] at hnd'
  cases hnd'

/-- A name of its own stays to be walked to. -/
theorem moved_way (hM : M.writelayer = some w) (hb : Beneath M w s₀ low) (h : Orderly w s₀ s) (hf : vf ≠ [])
    (h' : Orderly w s₀ (carried vf vt { s with disk := s.disk.move (w ++ vf) (w ++ vt) hm })) {v : Path}
    (hv : Reached M s v) (hvf : ¬ vf <+: v ∨ v = vf) (hvt : ¬ vt <+: v ∨ v = vt) :
    Reached M (carried vf vt { s with disk := s.disk.move (w ++ vf) (w ++ vt) hm }) v := by
  have hnot : ∀ {a : Path}, ¬ a <+: v ∨ v = a → ∀ q, q <+: v → q ≠ v → ¬ a <+: q := by
    rintro a (hne | rfl) q hq hqv hle
    · exact hne (hle.trans hq)
    · exact hqv (hq.eq_of_length_le hle.length_le)
  intro q hq hqv
  rw [(moved_scene hM hb h hf h' (hnot hvf q hq hqv) (hnot hvt q hq hqv) (hv.of_le hq)).2, hv q hq hqv]

end

/-- **The writelayer can take an entry at `v`**, and shows elsewhere what it did. -/
structure Readied (M : Mount) (w : Path) (s₀ : VfsState) (v : Path) (s s' : VfsState) : Prop where
  orderly : Orderly w s₀ s'
  way : Reached M s' v
  same : ∀ u, ¬ v <+: u → Reached M s u → Reached M s' u ∧ served M s' u = served M s u
  parent : s'.disk.tree.IsDir (w ++ v.dropLast)
  node : s'.disk.tree.node (w ++ v) = s.disk.tree.node (w ++ v)
  grows : ∀ u nd, Clean u → s.disk.tree.node (w ++ u) = some nd → s'.disk.tree.node (w ++ u) = some nd
  whiteoutSet : s'.whiteoutSet = s.whiteoutSet.erase v
  opaqueSet : s'.opaqueSet = s.opaqueSet
  older : Older s.disk s'.disk

/-- What showed before a step that shows nothing new. -/
theorem Readied.same_from {v : Path} {s₁ : VfsState} (h : Readied M w s₀ v s₁ s') (hsame : SameScene M s s₁) :
    ∀ u, ¬ v <+: u → Reached M s u → Reached M s' u ∧ served M s' u = served M s u := by
  intro u hnot hu
  obtain ⟨hu₁, he₁⟩ := hsame u hu
  exact ⟨(h.same u hnot hu₁).1, (h.same u hnot hu₁).2.trans he₁⟩

theorem readied_then {α : Type} {v : Path} (hM : M.writelayer = some w) (hb : Beneath M w s₀ low)
    (h : Orderly w s₀ s) (hv : Reached M s v) (hclean : Clean v) (hne : v ≠ []) {f : Prog World Errno α}
    {Q : α → VfsState → Prop} {E : Errno → VfsState → Prop}
    (hf : ∀ s', Readied M w s₀ v s s' → Calmly (fun t => t = s') f Q E) :
    Calmly (fun t => t = s) (do ensureWriteParent M v; removeWhiteout M v; f) Q E := by
  refine Calmly.bind (ensureWriteParent_still hM hb h hv hclean hne) fun _ =>
    Calmly.assuming fun s₁ h₁ => ?_
  obtain ⟨h₁, hsame₁, hmade, holder₁⟩ := h₁
  have hv₁ := (hsame₁ v hv).1
  refine Calmly.bind (Calmly.conseq ((removeWhiteout_ages M v).calmly (E := fun _ _ => False)
    (removeWhiteout_else hM hb h₁ hv₁ hclean hne)) (fun _ hs => hs) (fun _ _ hs => hs)
    fun _ _ hs => hs.1.elim) fun _ => Calmly.assuming fun s₂ h₂ => hf s₂ ?_
  obtain ⟨⟨h₂, helse₂, hun⟩, holder₂⟩ := h₂
  refine ⟨h₂, helse₂.reached hv₁ (Or.inl rfl), fun u hnot hu => ?_, ?_, ?_, fun u nd hu hnd => ?_, ?_, ?_,
    holder₁.trans holder₂⟩
  · obtain ⟨hu₁, he₁⟩ := hsame₁ u hu
    exact ⟨helse₂.reached hu₁ (Or.inr hnot), (helse₂ u hnot hu₁).trans he₁⟩
  · rw [hun.names.isDir (hclean.of_le (List.dropLast_prefix v))]
    exact hmade.isDir ((h.openWay hM hv hclean).dirWay hne)
  · rw [hun.names.clean v hclean]
    rcases hmade.node_or hne v with he | ⟨-, hc, -⟩
    · exact he
    · exact absurd rfl hc
  · exact (hun.names.clean u hu).trans (hmade.tree.grows _ nd hnd)
  · rw [hun.whiteoutSet, hmade.whiteoutSet]
  · rw [hun.opaqueSet, hmade.opaqueSet]

/-- **The host's rename** of an entry of the writelayer, to a name of which that has no directory. -/
theorem Orderly.renames {vf vt : Path} (hM : M.writelayer = some w) (h : Orderly w s₀ s) {t : VfsState}
    (hf : Asked M t vf) (ht : Asked M t vt) (hreachf : Reached M s vf) (hreacht : Reached M s vt) {nd : Node}
    (hnd : s.disk.tree.node (w ++ vf) = some nd)
    (hdir : ∀ m, nd = .dir m → s.disk.tree.node (w ++ vt) = none) (hnott : ¬ s.disk.tree.IsDir (w ++ vt))
    (hpart : s.disk.tree.IsDir (w ++ vt.dropLast)) (hsame : ¬ Disk.SameFile s.disk.tree (w ++ vf) (w ++ vt))
    (hft : ¬ vf <+: vt) (htf : ¬ vt <+: vf) :
    ∃ hm, Disk.rename (some (w ++ vf)) (some (w ++ vt)) s.disk =
      (.ok (), s.disk.move (w ++ vf) (w ++ vt) hm) := by
  have hfull := h.synced.shape.full
  obtain ⟨m, hm⟩ : s.disk.tree.IsDir (w ++ vf.dropLast) := by
    obtain ⟨n, hn⟩ := eq_dropLast_append hf.ne
    refine s.disk.tree.parent_dir (w ++ vf.dropLast) n ?_
    rw [List.append_assoc, ← hn, hnd]
    simp
  obtain ⟨m', hm'⟩ := hpart
  refine Disk.rename_straight (h.synced.shape.straight (h.openWay hM hreachf hf.clean))
    (h.synced.shape.straight (h.openWay hM hreacht ht.clean)) (by simp [ht.ne]) hnd ?_ hnott hsame
    (fun hle => hft (append_le_append.1 hle)) (fun hle => htf (append_le_append.1 hle))
    (by rw [append_dropLast hf.ne, append_dropLast ht.ne, h.device, h.device])
    (by rw [append_dropLast hf.ne, hm]) (hfull _ m hm) (by rw [append_dropLast ht.ne, hm']) (hfull _ m' hm')
  rintro m'' rfl
  exact ⟨hfull _ m'' hnd, hdir m'' rfl⟩

/-! ### The operation -/

/-- The entry `x` has moved from `vf` to `vt`, and nothing else shows that did not. -/
structure MovedTo (M : Mount) (w : Path) (s₀ : VfsState) (vf vt : Path) (x : Entry) (s s' : VfsState) :
    Prop where
  orderly : Orderly w s₀ s'
  gone : s'.disk.tree.node (w ++ vf) = none
  other : ∀ u, ¬ vf <+: u → ¬ vt <+: u → Reached M s u → Reached M s' u ∧ served M s' u = served M s u
  wayf : Reached M s' vf
  wayt : Reached M s' vt
  shows : served M s' vt = some x

/-- No path that shows no directory lies above another that is asked for. -/
theorem Asked.not_le {a b : Path} (ha : Asked M s a) (hdir : VidyaGodFS.scene M s a ≠ some .dir) (hb : Asked M s b)
    (hne : a ≠ b) : ¬ a <+: b := by
  intro hle
  have hd := hb.reached a hle hne
  rw [← ha.scene] at hd
  exact hdir hd

section

variable {vf vt : Path} {x : Entry} (hM : M.writelayer = some w) (hk : NoKept M) (hb : Beneath M w s₀ low)
include hM hb

/-- **The entry moves**, once it is in the writelayer. -/
theorem Brought.moves {s₁ : VfsState} (h₁ : Brought M w s₀ vf x s s₁) (hf : Asked M s vf)
    (hdir : x ≠ .dir) (ht : Asked M s vt) (hdirt : scene M s vt ≠ some .dir)
    (hshares : ¬ SharesFile w s vf vt) (hft : ¬ vf <+: vt) (htf : ¬ vt <+: vf)
    {E : Errno → VfsState → Prop} :
    Calmly (fun t => t = s₁)
      (do ensureWriteParent M vt
          removeWhiteout M vt
          act (Disk.rename (some (w ++ vf)) (some (w ++ vt)))
          runIf false (keptRenamePrefix M vf vt))
      (fun _ => MovedTo M w s₀ vf vt x s) E := by
  have hne : vf ≠ vt := fun he => hft (he ▸ List.prefix_refl _)
  have ht₁ := (h₁.same vt ht.reached).1
  obtain ⟨nd, hnd, hentry, -⟩ := h₁.entry
  have hnddir : nd.isDir = false := by
    cases nd with
    | dir m => exact absurd hentry.symm hdir
    | _ => rfl
  refine readied_then hM hb h₁.orderly ht₁ ht.clean ht.ne fun s₃ hr₃ => ?_
  have h₃ := hr₃.orderly
  -- what is where before the move
  have hnd₃ : s₃.disk.tree.node (w ++ vf) = some nd := hr₃.grows vf nd hf.clean hnd
  have hx₃ : s₃.disk.entryOf nd = x := by rw [hr₃.older.entryOf hnd, hentry]
  have hsame₃ := hr₃.same_from h₁.same
  have hreachf : Reached M s₃ vf := (hsame₃ vf htf hf.reached).1
  have hnott : ¬ s₃.disk.tree.IsDir (w ++ vt) := by
    rintro ⟨m, hm⟩
    rw [hr₃.node] at hm
    have hserved := h₁.orderly.served_node hM hb ht₁ ht.clean ht.ne hm
    rw [(h₁.same vt ht.reached).2, ← ht.scene] at hserved
    exact hdirt hserved
  have hdiffer : ¬ Disk.SameFile s₃.disk.tree (w ++ vf) (w ++ vt) := by
    rintro (he | ⟨i, hif, hit⟩)
    · exact hne (List.append_cancel_left he)
    · obtain rfl := Option.some_inj.1 (hnd₃.symm.trans hif)
      refine hshares ?_
      rw [← h₁.nameOf hf.clean hnd]
      exact ⟨ht.clean, hr₃.node ▸ hit⟩
  have hgonef := h₃.notMem_of_node hf.clean hnd₃
  have hunt : Unmasked vt s₃ := h₃.synced.unmasked (by
    rw [hr₃.whiteoutSet]
    exact Finset.notMem_erase vt _) hnott
  have hunf : Unmasked vf s₃ := h₃.synced.unmasked hgonef (by
    rintro ⟨m, hm⟩
    obtain rfl := Option.some_inj.1 (hnd₃.symm.trans hm)
    cases hnddir)
  obtain ⟨hmove, hrun⟩ := h₃.renames hM hf ht hreachf hr₃.way hnd₃ (by rintro m rfl; cases hnddir) hnott
    hr₃.parent hdiffer hft htf
  refine Calmly.bind (Calmly.act ?_) fun _ => Calmly.pure fun _ hs => hs
  rintro s₃ rfl
  rw [hrun]
  -- no mask moves along
  have hstay : carried vf vt { s₃ with disk := s₃.disk.move (w ++ vf) (w ++ vt) hmove } =
      { s₃ with disk := s₃.disk.move (w ++ vf) (w ++ vt) hmove } := carried_eq hf.ne hunf
  have h₄ := h₃.moved hmove hf.ne hf.clean ht.ne ht.clean hgonef hunt
  have hscene := fun u => moved_scene hM hb h₃ hf.ne h₄ (u := u)
  have hreachf₄ := moved_way hM hb h₃ hf.ne h₄ hreachf (Or.inr rfl) (Or.inl htf)
  have hreacht₄ := moved_way hM hb h₃ hf.ne h₄ hr₃.way (Or.inl hft) (Or.inr rfl)
  rw [hstay] at h₄ hscene hreachf₄ hreacht₄
  refine ⟨h₄, moved_node_left hmove htf List.prefix_rfl, fun u huf hut hu => ?_, hreachf₄, hreacht₄, ?_⟩
  · obtain ⟨hu₃, he₃⟩ := hsame₃ u hut hu
    obtain ⟨hu₄, he₄⟩ := hscene u huf hut hu₃
    exact ⟨hu₄, he₄.trans he₃⟩
  · have hnode := moved_node_under hmove []
    rw [List.append_nil, List.append_nil, hnd₃] at hnode
    rw [h₄.served_node hM hb hreacht₄ ht.clean ht.ne hnode]
    exact congrArg some hx₃

omit hM hb in
/-- Once the old name is hidden, the entry shows at the new name and nowhere else. -/
theorem MovedTo.scene {s₄ : VfsState} (h : MovedTo M w s₀ vf vt x s s₄) (hf : Asked M s vf)
    (hx : scene M s vf = some x) (hdir : x ≠ .dir) (ht : Asked M s vt) (hft : ¬ vf <+: vt)
    (htf : ¬ vt <+: vf) (helse : SameElse M vf s₄ s') (hleft : served M s' vf = none) :
    scene M s' = Scene.moved (scene M s) vf vt := by
  refine Scene.walked_moved hf.ne hft htf hf.reached ht.reached hleft (fun r hr => ?_)
    fun u hu huf hut => ?_
  · have hr : r = [] := by
      by_contra hne
      have hd := hr vf (List.prefix_append vf r) (by simpa using hne)
      rw [← hf.scene, hx] at hd
      exact hdir (Option.some_inj.1 hd)
    rw [hr, List.append_nil, List.append_nil, helse vt hft h.wayt, h.shows, ← hf.scene, hx]
  · obtain ⟨hu₄, he₄⟩ := h.other u huf hut hu
    exact (helse u huf hu₄).trans he₄

include hk

/-- **An entry that is no directory moves.** -/
theorem vfsRename_plainly (h : Orderly w s₀ s) (hf : Asked M s vf) (hx : scene M s vf = some x) (hdir : x ≠ .dir)
    (ht : Asked M s vt) (hdirt : scene M s vt ≠ some .dir) (hshares : ¬ SharesFile w s vf vt) :
    Plainly M w s₀ s (vfsRename M vf vt) (Scene.moved (scene M s) vf vt) := by
  have hne : vf ≠ vt := fun he => hshares (Or.inl he.symm)
  have hft : ¬ vf <+: vt := hf.not_le (by rw [hx]; exact fun he => hdir (Option.some_inj.1 he)) ht hne
  have htf : ¬ vt <+: vf := ht.not_le hdirt hf hne.symm
  unfold vfsRename
  refine Calmly.ite (fun _ => Plainly.fail h _) fun _ => ?_
  refine looked_up s ⟨h, rfl⟩ ?_
  refine Calmly.bind (Q := fun b t => t = s ∧ b = dirHit s (lookup M s vf))
    (Calmly.look (hitIsDir_agrees false _) (by rintro t rfl; exact ⟨rfl, rfl⟩)) fun b => Calmly.assuming ?_
  rintro s ⟨rfl, rfl⟩
  have hhit : dirHit s (lookup M s vf) = false := by
    by_contra hhit
    have hshown := shown_of_dirHit (M := M) (s := s) (by simpa using hhit)
    rw [hf.scene, served, if_pos hf.clean, entryAt, if_neg hf.ne, hshown] at hx
    exact hdir (Option.some_inj.1 hx).symm
  rw [hhit]
  refine copied_then hM hk hb h hf hx fun s₁ h₁ => ?_
  rw [moveTo, hk.passthroughHost, writeHost_eq hM hk, wlPath_eq hM]
  refine Calmly.bind (h₁.moves hM hb hf hdir ht hdirt hshares hft htf) fun _ =>
    Calmly.assuming fun s₄ h₄ => ?_
  -- the old name is hidden
  rw [hideLower, hk.keptLayerFor]
  refine Calmly.bind (Calmly.pure (Q := fun _ t => t = s₄) fun _ hs => hs) fun _ => ?_
  refine Calmly.conseq (hideRest_else hM hb h₄.orderly h₄.wayf hf.clean hf.ne h₄.gone) (fun _ hs => hs)
    (fun _ s₅ hs => ?_) fun _ _ hs => hs
  obtain ⟨h₅, helse₅, hleft⟩ := hs
  exact ⟨h₅, h₄.scene hf hx hdir ht hft htf helse₅ hleft⟩

end

/-! ### Directories -/

/-- What is free below a directory stays so when it moves: it is deleted there, or masked by a directory
that moves along or by one above the new name, or the layers have nothing at its new place. -/
def StaysHidden (M : Mount) (s : VfsState) (vf vt r : Path) : Prop :=
  vf ++ r ∈ s.whiteoutSet ∨ (∃ q, vf <+: q ∧ q <+: vf ++ r ∧ q ≠ vf ++ r ∧ q ∈ s.opaqueSet) ∨
    Covered s vt ∨ shown M s.disk (lowerLookup M s (vt ++ r)) = none

/-- **Nothing of the layers comes out where a directory moves to.** -/
def Unmixed (M : Mount) (s : VfsState) (vf vt : Path) : Prop :=
  ∀ r, Clean r → Reached M s (vf ++ r) → scene M s (vf ++ r) = none → StaysHidden M s vf vt r

/-- **The directory has moved, and its masks with it**, from where it was in `s`. -/
structure Relocated (M : Mount) (w : Path) (s₀ s : VfsState) (vf vt : Path) (s' : VfsState) : Prop where
  orderly : Orderly w s₀ s'
  wayf : Reached M s' vf
  wayt : Reached M s' vt
  other : ∀ u, ¬ vf <+: u → ¬ vt <+: u → Reached M s u → Reached M s' u ∧ served M s' u = served M s u
  left : s'.disk.tree.node (w ++ vf) = none
  brought : ∀ r x, Reached M s (vf ++ r) → served M s (vf ++ r) = some x →
    ∃ nd, s'.disk.tree.node (w ++ (vt ++ r)) = some nd ∧ s'.disk.entryOf nd = x
  free : ∀ r, Clean r → Reached M s (vf ++ r) → served M s (vf ++ r) = none →
    s'.disk.tree.node (w ++ (vt ++ r)) = none
  whiteouts : ∀ r, vt ++ r ∈ s'.whiteoutSet ↔ vf ++ r ∈ s.whiteoutSet
  covered : ∀ r, Covered s' (vt ++ r) ↔
    Covered s vt ∨ ∃ q, vf <+: q ∧ q <+: vf ++ r ∧ q ≠ vf ++ r ∧ q ∈ s.opaqueSet

/-- Two names with neither below the other stay apart. -/
theorem not_le_append {a b : Path} (hab : ¬ a <+: b) (hba : ¬ b <+: a) (r : Path) : ¬ a <+: b ++ r := fun hle =>
  (List.prefix_or_prefix_of_prefix hle (List.prefix_append b r)).elim hab hba

/-- What masks a path below the new name: what masked it below the old one, or the new name itself. -/
theorem covered_carried {vf vt : Path} (hf : vf ≠ []) (hft : ¬ vf <+: vt) (hunt : Unmasked vt s) (r : Path) :
    Covered (carried vf vt s) (vt ++ r) ↔
      Covered s vt ∨ ∃ q, vf <+: q ∧ q <+: vf ++ r ∧ q ≠ vf ++ r ∧ q ∈ s.opaqueSet := by
  constructor
  · rintro ⟨q, hq, hne, hmem⟩
    rcases (mem_image_movePrefix hf).1 hmem with ⟨r', rfl, hr'⟩ | ⟨hmem, -⟩
    · refine Or.inr ⟨vf ++ r', List.prefix_append vf r', append_le_append.2 (append_le_append.1 hq),
        fun he => hne ?_, hr'⟩
      rw [List.append_cancel_left he]
    · have hvt : ¬ vt <+: q := hunt.2 q hmem
      have hle := (List.prefix_or_prefix_of_prefix hq (List.prefix_append vt r)).resolve_right hvt
      exact Or.inl ⟨q, hle, fun he => hvt (he ▸ List.prefix_rfl), hmem⟩
  · rintro (⟨q, hq, hne, hmem⟩ | ⟨q, ⟨r', rfl⟩, hq, hne, hmem⟩)
    · refine ⟨q, hq.trans (List.prefix_append vt r), fun he => hne ?_,
        (mem_image_movePrefix hf).2 (Or.inr ⟨hmem, fun hle => hft (hle.trans hq)⟩)⟩
      exact hq.eq_of_length_le (by rw [he]; simp)
    · refine ⟨vt ++ r', append_le_append.2 (append_le_append.1 hq), fun he => hne ?_,
        (mem_image_under hf hunt.2 r').2 hmem⟩
      rw [List.append_cancel_left he]

section

variable {vf vt : Path} (hM : M.writelayer = some w) (hb : Beneath M w s₀ low) (hf : Asked M s vf)
  (ht : Asked M s vt) (hft : ¬ vf <+: vt) (htf : ¬ vt <+: vf)
include hM hb hf ht hft htf

/-- **The move of a directory** that is in the writelayer with all that shows in it. -/
theorem relocated {s₁ : VfsState} (h₁ : Orderly w s₀ s₁)
    (hsame : ∀ u, ¬ vt <+: u → Reached M s u → Reached M s₁ u ∧ served M s₁ u = served M s u)
    (hway : Reached M s₁ vt) (hupper : ∀ r, Reached M s (vf ++ r) → served M s (vf ++ r) ≠ none →
      s₁.disk.tree.node (w ++ (vf ++ r)) ≠ none)
    (hwh : s₁.whiteoutSet = s.whiteoutSet.erase vt) (hopq : s₁.opaqueSet = s.opaqueSet)
    (hfree : ¬ s₁.disk.tree.IsDir (w ++ vt))
    (hm : s₁.disk.tree.CanMove (w ++ vf) (w ++ vt)) :
    Relocated M w s₀ s vf vt (carried vf vt { s₁ with disk := s₁.disk.move (w ++ vf) (w ++ vt) hm }) := by
  have hunt : Unmasked vt s₁ := h₁.synced.unmasked (by
    rw [hwh]
    exact Finset.notMem_erase vt _) hfree
  obtain ⟨nd, hnd⟩ := Option.ne_none_iff_exists'.1 hm.2.2.1
  have hgone := h₁.notMem_of_node hf.clean hnd
  have h' := h₁.moved hm hf.ne hf.clean ht.ne ht.clean hgone hunt
  have hnot := not_le_append htf hft
  refine ⟨h', moved_way hM hb h₁ hf.ne h' (hsame vf htf hf.reached).1 (Or.inr rfl) (Or.inl htf),
    moved_way hM hb h₁ hf.ne h' hway (Or.inl hft) (Or.inr rfl), fun u huf hut hu => ?_,
    moved_node_left hm htf List.prefix_rfl, fun r x hr hx => ?_, fun r hclean hr hnone => ?_, fun r => ?_,
    fun r => ?_⟩
  · obtain ⟨hu₁, he₁⟩ := hsame u hut hu
    obtain ⟨hu', he'⟩ := moved_scene hM hb h₁ hf.ne h' huf hut hu₁
    exact ⟨hu', he'.trans he₁⟩
  · obtain ⟨hr₁, he₁⟩ := hsame _ (hnot r) hr
    obtain ⟨nd, hnd⟩ := Option.ne_none_iff_exists'.1 (hupper r hr (by rw [hx]; simp))
    have hclean : Clean (vf ++ r) := clean_of_served (by rw [hx]; simp)
    have hserved := h₁.served_node hM hb hr₁ hclean (by simp [hf.ne]) hnd
    rw [he₁, hx, Option.some_inj] at hserved
    exact ⟨nd, (moved_node_under hm r).trans hnd, hserved.symm⟩
  · obtain ⟨hr₁, he₁⟩ := hsame _ (hnot r) hr
    refine (moved_node_under hm r).trans ?_
    by_contra hne
    obtain ⟨nd, hnd⟩ := Option.ne_none_iff_exists'.1 hne
    have hserved := h₁.served_node hM hb hr₁ (hf.clean.append hclean) (by simp [hf.ne]) hnd
    rw [he₁, hnone] at hserved
    cases hserved
  · refine (mem_image_under hf.ne hunt.1 r).trans ?_
    rw [hwh, Finset.mem_erase]
    exact and_iff_right fun he => hft (he ▸ List.prefix_append vf r)
  · refine (covered_carried (s := { s₁ with disk := s₁.disk.move (w ++ vf) (w ++ vt) hm }) hf.ne hft hunt r).trans ?_
    simp only [Covered, hopq]

namespace Relocated

variable {r : Path} {x : Entry} (hm : Relocated M w s₀ s vf vt s')
include hm

omit hf hft htf in
/-- What showed below the old name shows below the new one. -/
theorem shows (hr' : Reached M s' (vt ++ r)) (hr : Reached M s (vf ++ r)) (hx : served M s (vf ++ r) = some x) :
    served M s' (vt ++ r) = some x := by
  obtain ⟨nd, hnd, rfl⟩ := hm.brought r x hr hx
  have hclean : Clean (vf ++ r) := clean_of_served (by rw [hx]; simp)
  exact hm.orderly.served_node hM hb hr' (ht.clean.append fun n hn => hclean n (List.mem_append_right vf hn))
    (by simp [ht.ne]) hnd

omit hf hft htf in
theorem reached (hr : Reached M s (vf ++ r)) : Reached M s' (vt ++ r) := by
  induction r using List.reverseRecOn with
  | nil =>
      rw [List.append_nil]
      exact hm.wayt
  | append_singleton r n ih =>
      rw [← List.append_assoc] at hr ⊢
      obtain ⟨hr, hdir⟩ := Scene.reached_concat.1 hr
      exact Scene.reached_concat.2 ⟨ih hr, hm.shows hM hb ht (ih hr) hr hdir⟩

omit hf hft htf in
/-- What was free below the old name is free below the new one, unless something comes out there. -/
theorem served_none (h : Orderly w s₀ s) (hclean : Clean r) (hr : Reached M s (vf ++ r))
    (hnone : served M s (vf ++ r) = none) : served M s' (vt ++ r) = none ↔ StaysHidden M s vf vt r := by
  have hcleant := ht.clean.append hclean
  rw [served_eq hM hb hm.orderly (hm.reached hM hb ht hr) hcleant (by simp [ht.ne]), stacked,
    hm.free r hclean hr hnone, StaysHidden, hb.reads s s h.beside h.beside _ hcleant, ← hm.whiteouts r]
  by_cases hwh : vt ++ r ∈ s'.whiteoutSet
  · rw [if_pos hwh]
    exact iff_of_true rfl (Or.inl hwh)
  · rw [if_neg hwh, or_iff_right hwh, ← or_assoc, or_comm (a := ∃ q, _), ← hm.covered r]
    by_cases hcov : Covered s' (vt ++ r)
    · simp [hcov]
    · simp [hcov]

/-- **The scene has moved just where nothing comes out**, once the old name is hidden. -/
theorem scene_iff (h : Orderly w s₀ s) {s'' : VfsState} (helse : SameElse M vf s' s'')
    (hleft : served M s'' vf = none) :
    scene M s'' = Scene.moved (scene M s) vf vt ↔ Unmixed M s vf vt := by
  have hnot := not_le_append hft htf
  constructor
  · intro he r hclean hr hnone
    have hr' := hm.reached hM hb ht hr
    have hat : scene M s'' (vt ++ r) = none := by rw [he, Scene.moved_under, hnone]
    rw [scene, Scene.walked_of_reached (helse.reached hr' (Or.inr (hnot r))), helse _ (hnot r) hr'] at hat
    rw [scene, Scene.walked_of_reached hr] at hnone
    exact (hm.served_none hM hb ht h hclean hr hnone).1 hat
  · intro hun
    refine Scene.walked_moved hf.ne hft htf hf.reached ht.reached hleft (fun r hr => ?_) fun u hu huf hut => ?_
    · have hr' := hm.reached hM hb ht hr
      rw [helse _ (hnot r) hr']
      cases hx : served M s (vf ++ r) with
      | some x => exact hm.shows hM hb ht hr' hr hx
      | none =>
          by_cases hclean : Clean r
          · refine (hm.served_none hM hb ht h hclean hr hx).2 (hun r hclean hr ?_)
            rw [scene, Scene.walked_of_reached hr, hx]
          · exact if_neg fun hc => hclean fun n hn => hc n (List.mem_append_right vt hn)
    · obtain ⟨hu', he'⟩ := hm.other u huf hut hu
      exact (helse u huf hu').trans he'

end Relocated

end

/-- What leaves the masks alone does so in a triple. -/
theorem HostOnly.calmly {α : Type} {m : Prog World Errno α} (hm : HostOnly m) {Q : α → VfsState → Prop}
    {E : Errno → VfsState → Prop} (h : Calmly (fun t => t = s) m Q E) :
    Calmly (fun t => t = s) m (fun a s' => Q a s' ∧ SameMasks s s') E := by
  rintro W ⟨hcalm, rfl⟩
  have hpost := h W ⟨hcalm, rfl⟩
  have hmasks := hm W
  rcases hrun : m W with ⟨e | a, W'⟩ <;> rw [hrun] at hpost hmasks
  · exact hpost
  · exact ⟨hpost.1, hpost.2, hmasks⟩

section

variable {vf vt : Path} (hM : M.writelayer = some w) (hk : NoKept M) (hb : Beneath M w s₀ low)
include hM hk hb

/-- **The directory moves**, once all that shows in it is in the writelayer. -/
theorem moves_brought {s₁ : VfsState} (h₁ : Orderly w s₀ s₁) (hsame₁ : SameScene M s s₁)
    (hmasks₁ : SameMasks s s₁) (hupper₁ : AllUpper M w vf s₁) (hf : Asked M s vf)
    (hdir : served M s vf = some .dir) (ht : Asked M s vt) (hfree : served M s vt = none)
    (hft : ¬ vf <+: vt) (htf : ¬ vt <+: vf) {E : Errno → VfsState → Prop} :
    Calmly (fun t => t = s₁)
      (do ensureWriteParent M vt
          removeWhiteout M vt
          act (Disk.rename (some (w ++ vf)) (some (w ++ vt)))
          runIf true (keptRenamePrefix M vf vt))
      (fun _ s' => Relocated M w s₀ s vf vt (carried vf vt s')) E := by
  have ht₁ := (hsame₁ vt ht.reached).1
  refine readied_then hM hb h₁ ht₁ ht.clean ht.ne fun s₃ hr₃ => ?_
  have h₃ := hr₃.orderly
  -- what is where before the move
  have hsame₃ := hr₃.same_from hsame₁
  have hupper₃ : ∀ r, Reached M s (vf ++ r) → served M s (vf ++ r) ≠ none →
      s₃.disk.tree.node (w ++ (vf ++ r)) ≠ none := by
    intro r hr hshow
    have hclean : Clean (vf ++ r) := clean_of_served hshow
    have hscene : scene M s₁ (vf ++ r) ≠ none := by
      rwa [hsame₁.scene_eq, scene, Scene.walked_of_reached hr]
    obtain ⟨nd, hnd⟩ := Option.ne_none_iff_exists'.1 (hupper₁ _ (List.prefix_append vf r) hscene)
    rw [hr₃.grows _ nd hclean hnd]
    simp
  obtain ⟨hreachf, hservedf⟩ := hsame₃ vf htf hf.reached
  obtain ⟨nd, hnd⟩ := Option.ne_none_iff_exists'.1 (hupper₃ [] (by rw [List.append_nil]; exact hf.reached)
    (by rw [List.append_nil, hdir]; simp))
  rw [List.append_nil] at hnd
  obtain ⟨m, rfl⟩ : ∃ m, nd = .dir m := by
    have hserved := h₃.served_node hM hb hreachf hf.clean hf.ne hnd
    rw [hservedf, hdir, Option.some_inj] at hserved
    cases nd with
    | dir m => exact ⟨m, rfl⟩
    | file i => cases hserved
    | link target => cases hserved
  have hfree₃ : s₃.disk.tree.node (w ++ vt) = none := by
    rw [hr₃.node]
    by_contra hne
    obtain ⟨nd, hnd⟩ := Option.ne_none_iff_exists'.1 hne
    have hserved := h₁.served_node hM hb ht₁ ht.clean ht.ne hnd
    rw [(hsame₁ vt ht.reached).2, hfree] at hserved
    cases hserved
  have hnott : ¬ s₃.disk.tree.IsDir (w ++ vt) := by
    rintro ⟨m', hm'⟩
    rw [hfree₃] at hm'
    cases hm'
  obtain ⟨hmove, hrun⟩ := h₃.renames hM hf ht hreachf hr₃.way hnd (fun _ _ => hfree₃) hnott hr₃.parent (by
    rintro (he | ⟨i, -, hi⟩)
    · exact htf (List.append_cancel_left he ▸ List.prefix_rfl)
    · rw [hfree₃] at hi
      cases hi) hft htf
  refine Calmly.bind (Calmly.act (Q := fun _ s' => Relocated M w s₀ s vf vt (carried vf vt s')) ?_)
    fun _ => ?_
  · rintro s₃ rfl
    rw [hrun]
    refine relocated hM hb hf ht hft htf h₃ hsame₃ hr₃.way hupper₃ ?_ ?_ hnott hmove
    · rw [hr₃.whiteoutSet, hmasks₁.whiteoutSet]
    · rw [hr₃.opaqueSet, hmasks₁.opaqueSet]
  · rw [keptRenamePrefix_eq hk]
    exact Calmly.ite (fun _ => Calmly.pure fun _ hs => hs) fun _ => Calmly.pure fun _ hs => hs

omit hk hb in
/-- The masks move along. -/
theorem renameMaskPrefix_carries {I : VfsState → Prop} (hft : ¬ vf <+: vt)
    {E : Errno → VfsState → Prop} :
    Calmly (fun s' => I (carried vf vt s')) (runIf true (renameMaskPrefix M vf vt))
      (fun _ => I) E := by
  unfold runIf renameMaskPrefix
  refine Calmly.ite (fun _ => Calmly.ite (fun hstay => ?_) fun _ => Calmly.mutate fun _ hs => hs)
    fun hc => absurd rfl hc
  rcases hstay with hM' | rfl
  · rw [hM] at hM'
    cases hM'
  · exact absurd List.prefix_rfl hft

/-- **A directory moves**, with all that is below it, to where nothing is: just this where nothing of the
layers comes out there. -/
theorem vfsRename_moves (h : Orderly w s₀ s) (hf : Asked M s vf) (hx : scene M s vf = some .dir)
    (ht : Asked M s vt) (hnone : scene M s vt = none) (hft : ¬ vf <+: vt) :
    Calmly (fun t => t = s) (vfsRename M vf vt)
      (fun _ s' => Orderly w s₀ s' ∧
        (scene M s' = Scene.moved (scene M s) vf vt ↔ Unmixed M s vf vt))
      (fun _ s' => Orderly w s₀ s' ∧ scene M s' = scene M s) := by
  have hdir : served M s vf = some .dir := hf.scene ▸ hx
  have hfree : served M s vt = none := ht.scene ▸ hnone
  have htf : ¬ vt <+: vf := by
    refine ht.not_le (by rw [hnone]; simp) hf ?_
    rintro rfl
    rw [hdir] at hfree
    cases hfree
  unfold vfsRename
  refine Calmly.ite (fun _ => Calmly.fail (by rintro s rfl; exact ⟨h, rfl⟩)) fun _ => ?_
  refine looked_up s ⟨h, rfl⟩ ?_
  refine Calmly.bind (Q := fun b t => t = s ∧ b = dirHit s (lookup M s vf))
    (Calmly.look (hitIsDir_agrees false _) (by rintro t rfl; exact ⟨rfl, rfl⟩)) fun b => Calmly.assuming ?_
  rintro s ⟨rfl, rfl⟩
  rw [(h.dirHit_iff hM hb hf.reached hf.clean hf.ne hdir h hf.reached fun _ hnd => hnd).2 rfl]
  -- all that shows in it is brought up
  refine Calmly.bind (Calmly.ite (fun _ => Calmly.conseq ((deepCopyUp_hostOnly M M.pathDepth vf).calmly
    (deepCopyUp_brings hM hb hk M.pathDepth hf.clean hf.ne _ h hf.reached)) (fun _ hs => hs) (fun _ _ hs => hs)
    fun _ _ hs => ⟨hs.1, hs.2.scene_eq⟩) fun hc => absurd rfl hc) fun _ => Calmly.assuming fun s₁ h₁ => ?_
  obtain ⟨⟨h₁, hsame₁, -, hupper₁⟩, hmasks₁⟩ := h₁
  rw [moveTo, hk.passthroughHost, writeHost_eq hM hk, wlPath_eq hM]
  refine Calmly.bind (moves_brought hM hk hb h₁ hsame₁ hmasks₁ hupper₁ hf hdir ht hfree hft htf) fun _ => ?_
  -- the masks move along, and the old name is hidden
  refine Calmly.bind (renameMaskPrefix_carries hM hft) fun _ => Calmly.assuming fun s₄ h₄ => ?_
  rw [hideLower, hk.keptLayerFor]
  refine Calmly.conseq (hideRest_else hM hb h₄.orderly h₄.wayf hf.clean hf.ne h₄.left) (fun _ hs => hs)
    (fun _ s₅ hs => ?_) fun _ _ hs => hs
  exact ⟨hs.1, h₄.scene_iff hM hb hf ht hft htf h hs.2.1 hs.2.2⟩

end

end VidyaGodFS
