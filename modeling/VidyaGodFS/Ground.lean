/-
**Layers that stay as they are.**

What the layers show below the writelayer is the same for as long as nothing beside the writelayer
changes, if no layer looks into it: a folder lies beside the writelayer and holds no link that could
lead there, and an archive is a file of its own.  Such layers are a ground to stand on: they answer
each path, list what they hold, and have nothing below a path where they have nothing.

Main definitions:

* `Tree.Open` — a folder that can be walked through and read, without links;
* `ZipIndex.Filed` — an index that files each name in its directory;
* `Grounded` — what a layer is to be like.

Main results:

* `answers_dir`, `answers_file`, `answers_zip` — what each kind of layer answers;
* `beneath_of_grounded` — **grounded layers are the same whatever is done in the writelayer**.
-/

import VidyaGodFS.SceneFrame

set_option relaxedAutoImplicit false
set_option autoImplicit false

namespace Posix

namespace Tree

variable {t t' : Tree} {p r : Path}

/-- A folder that can be walked through and read, without links. -/
structure Open (t : Tree) (p : Path) : Prop where
  above : ∀ q, q <+: p → q ≠ p → t.IsOpenDir q
  link : ∀ r target, t.node (p ++ r) ≠ some (.link target)
  dir : ∀ r m, t.node (p ++ r) = some (.dir m) → canRead m = true ∧ canSearch m = true

/-- Where no link is on the way a walk goes nowhere else. -/
theorem walk_linkless {follow : Bool} :
    ∀ (rest : List Name) (cur : Path),
      (∀ q, q <+: cur ++ rest → ∀ target, t.node q ≠ some (.link target)) →
      t.walk follow cur (rest.map .name) = .arrived (cur ++ rest) ∨
        ∃ e, t.walk follow cur (rest.map .name) = .stuck e := by
  intro rest
  induction rest with
  | nil => exact fun cur _ => Or.inl (by rw [List.append_nil]; rfl)
  | cons n rest ih =>
      intro cur hlink
      have happ : cur ++ n :: rest = (cur ++ [n]) ++ rest := by simp
      rw [List.map_cons, walk, happ]
      rw [happ] at hlink
      by_cases hs : canSearch (t.dirMode cur) = true
      · rw [if_pos hs]
        cases hnode : t.node (cur ++ [n]) with
        | none =>
            cases rest with
            | nil => exact Or.inl (by simp)
            | cons m rest => exact Or.inr ⟨.enoent, by simp⟩
        | some nd =>
            cases nd with
            | dir m => exact ih (cur ++ [n]) hlink
            | file i =>
                cases rest with
                | nil => exact Or.inl (by simp)
                | cons m rest => exact Or.inr ⟨.enotdir, by simp⟩
            | link target => exact absurd hnode (hlink _ (List.prefix_append _ _) target)
      · rw [if_neg hs]
        exact Or.inr ⟨.eacces, rfl⟩

namespace Open

theorem congr (h : t.Open p) (habove : ∀ q, q <+: p → q ≠ p → t'.node q = t.node q)
    (hbelow : ∀ r, t'.node (p ++ r) = t.node (p ++ r)) : t'.Open p where
  above q hq hne := by
    rw [IsOpenDir, habove q hq hne]
    exact h.above q hq hne
  link r target := by
    rw [hbelow]
    exact h.link r target
  dir r m := by
    rw [hbelow]
    exact h.dir r m

theorem no_link (h : t.Open p) {q : Path} (hq : q <+: p ++ r) (target : String) :
    t.node q ≠ some (.link target) := by
  rcases List.prefix_or_prefix_of_prefix hq (List.prefix_append p r) with hqp | ⟨r', rfl⟩
  · by_cases he : q = p
    · rw [he, ← List.append_nil p]
      exact h.link [] target
    · obtain ⟨m, hm, -⟩ := h.above q hqp he
      rw [hm]
      simp
  · exact h.link r' target

/-- A path in the folder leads nowhere else. -/
theorem locate_or (h : t.Open p) (follow : Bool) (r : Path) :
    t.locate follow (p ++ r) = .ok (p ++ r) ∨ ∃ e, t.locate follow (p ++ r) = .error e := by
  rw [locate, locateFrom]
  rcases @walk_linkless t follow (p ++ r) [] (fun q hq => h.no_link hq) with hw | ⟨e, hw⟩
  · exact Or.inl (by rw [hw, List.nil_append])
  · exact Or.inr ⟨e, by rw [hw]⟩

/-- What is in the folder is found. -/
theorem locate (h : t.Open p) (follow : Bool) (hr : t.node (p ++ r) ≠ none) :
    t.locate follow (p ++ r) = .ok (p ++ r) := by
  refine locate_of_plain (fun q hq hne => ?_) fun target ht => absurd ht (h.link r target)
  obtain ⟨m, hm⟩ := Tree.isDir_above hr hq hne
  rcases List.prefix_or_prefix_of_prefix hq (List.prefix_append p r) with hqp | ⟨r', rfl⟩
  · by_cases he : q = p
    · subst he
      exact ⟨m, hm, (h.dir [] m (by rwa [List.append_nil])).2⟩
    · exact h.above q hqp he
  · exact ⟨m, hm, (h.dir r' m hm).2⟩

end Open

end Tree

namespace Disk

variable {d : Disk} {p : Path}

/-- What the calls say of what is in the folder. -/
theorem entryAt_open (h : d.tree.Open p) (follow : Bool) (r : Path) :
    d.entryAt follow (some (p ++ r)) = (d.tree.node (p ++ r)).map d.entryOf := by
  by_cases hr : d.tree.node (p ++ r) = none
  · rw [hr, Option.map_none, entryAt, find]
    rcases h.locate_or follow r with hok | ⟨e, he⟩
    · rw [hok]
      dsimp only
      rw [hr, Option.map_none]
    · rw [he]
  · rw [entryAt, find, h.locate follow hr]

theorem lstat_open (h : d.tree.Open p) (r : Path) :
    (d.tree.node (p ++ r) = none ∧ ∃ e, d.lstat (some (p ++ r)) = .error e) ∨
      ∃ nd, d.tree.node (p ++ r) = some nd ∧ d.lstat (some (p ++ r)) = .ok (d.nodeStat nd) ∧
        (d.nodeStat nd).isSymlink = false := by
  cases hnode : d.tree.node (p ++ r) with
  | none =>
      refine Or.inl ⟨rfl, entryAt_eq_none.1 ?_⟩
      rw [entryAt_open h, hnode, Option.map_none]
  | some nd =>
      have hfind : d.find false (some (p ++ r)) = .ok (p ++ r) := h.locate false (by simp [hnode])
      refine Or.inr ⟨nd, rfl, statAt_of_find hfind hnode, ?_⟩
      cases nd with
      | link target => exact absurd hnode (h.link r target)
      | _ => rfl

/-- A directory of the folder is listed as it is. -/
theorem readDir_open (h : d.tree.Open p) {r : Path} (hr : d.tree.IsDir (p ++ r)) :
    d.readDir (some (p ++ r)) = d.tree.children (p ++ r) := by
  have hfind : d.find true (some (p ++ r)) = .ok (p ++ r) := h.locate true hr.ne_none
  obtain ⟨m, hm⟩ := hr
  rw [readDir, hfind]
  dsimp only
  rw [Tree.dirMode, hm]
  exact if_pos (h.dir r m hm).1

theorem mem_readDir_open (h : d.tree.Open p) {r : Path} {n : Name} (hn : n ∈ d.readDir (some (p ++ r))) :
    d.tree.node (p ++ r ++ [n]) ≠ none := by
  rw [readDir, find] at hn
  rcases h.locate_or true r with hok | ⟨e, he⟩
  · rw [hok] at hn
    dsimp only at hn
    split_ifs at hn
    · exact Tree.mem_children.1 hn
    · cases hn
  · rw [he] at hn
    cases hn

end Disk

end Posix

namespace VidyaGodFS

open Posix

variable {M : Mount} {w p : Path} {s s' s₀ : VfsState} {L : Layer} {v : Path} {n : Name}

/-! ### Views that see no disk -/

/-- The view is the same in every state. -/
def Unmoved {α : Type} (x : View α) : Prop := ∀ s s', x s = x s'

namespace Unmoved

variable {α β : Type}

theorem pure (a : α) : Unmoved (Pure.pure a : View α) := fun _ _ => rfl

theorem look (r : Except Errno α) : Unmoved (Looks.look fun _ => r : View (Except Errno α)) := fun _ _ => rfl

theorem bind {x : View α} {f : α → View β} (hx : Unmoved x) (hf : ∀ a, Unmoved (f a)) : Unmoved (x >>= f) := by
  intro s s'
  rw [View.bind_apply, View.bind_apply, hx s s']
  exact hf _ s s'

theorem ite {c : Prop} [Decidable c] {x y : View α} (hx : Unmoved x) (hy : Unmoved y) :
    Unmoved (if c then x else y) := by
  split_ifs
  · exact hx
  · exact hy

end Unmoved

/-- **An archive's links are those of its index**, in any state. -/
theorem resolveZipSymlink_unmoved (Z : ZipIndex) (e : ZipEntry) : Unmoved (resolveZipSymlink Z e) := by
  have hone : ∀ e, Unmoved (followZipLink Z e) := by
    intro e
    refine .ite (.pure _) (.bind (.look _) fun r => ?_)
    cases r with
    | error err => exact .pure _
    | ok bs =>
        refine .ite (.pure _) (.ite (.pure _) ?_)
        cases joinNormalized e.name.dropLast (linkTarget bs) with
        | none => exact .pure _
        | some resolved => exact .pure _
  have hchase : ∀ hops e, Unmoved (chaseZipLinks Z hops e) := by
    intro hops
    induction hops with
    | zero => exact fun e => .pure _
    | succ hops ih =>
        refine fun e => .ite (.bind (hone e) fun r => ?_) (.pure _)
        cases r with
        | none => exact .pure _
        | some next => exact ih next
  refine .bind (hchase 8 e) fun r => ?_
  cases r with
  | none => exact .pure _
  | some cur => exact .pure _

/-- What a link of the archive stands for is in the archive. -/
theorem resolveZipSymlink_filed {Z : ZipIndex} {e t : ZipEntry} (s : VfsState)
    (h : (resolveZipSymlink Z e : View (Option ZipEntry)) s = some t) : t = e ∨ ∃ rel, Z.entry rel = some t := by
  have hone : ∀ e, Shows s (fun r => ∀ t, r = some t → ∃ rel, Z.entry rel = some t) (followZipLink Z e) := by
    intro e
    refine Shows.ite (fun _ => Shows.pure (by simp)) fun _ => Shows.bind fun r _ => ?_
    cases r with
    | error err => exact Shows.pure (by simp)
    | ok bs =>
        refine Shows.ite (fun _ => Shows.pure (by simp)) fun _ => Shows.ite (fun _ => Shows.pure (by simp))
          fun _ => ?_
        cases joinNormalized e.name.dropLast (linkTarget bs) with
        | none => exact Shows.pure (by simp)
        | some resolved => exact Shows.pure fun t ht => ⟨resolved, ht⟩
  have hchase : ∀ hops e, Shows s (fun r => ∀ t, r = some t → t = e ∨ ∃ rel, Z.entry rel = some t)
      (chaseZipLinks Z hops e) := by
    intro hops
    induction hops with
    | zero => exact fun e => Shows.pure fun t ht => Or.inl (Option.some_inj.1 ht).symm
    | succ hops ih =>
        refine fun e => Shows.ite (fun _ => Shows.bind fun r hr => ?_)
          fun _ => Shows.pure fun t ht => Or.inl (Option.some_inj.1 ht).symm
        cases r with
        | none => exact Shows.pure (by simp)
        | some next =>
            have hnext : ∃ rel, Z.entry rel = some next := hone e next hr.symm
            refine fun t ht => ?_
            rcases ih next t ht with rfl | hfiled
            · exact Or.inr hnext
            · exact Or.inr hfiled
  have hall : Shows s (fun r => ∀ t, r = some t → t = e ∨ ∃ rel, Z.entry rel = some t)
      (resolveZipSymlink Z e) := by
    refine Shows.bind fun r hr => ?_
    cases r with
    | none => exact Shows.pure (by simp)
    | some cur =>
        refine Shows.pure fun t ht => ?_
        split_ifs at ht
        obtain rfl := Option.some_inj.1 ht
        exact hchase 8 e cur hr.symm
  exact hall t h

/-! ### Grounded layers -/

/-- An index that files each name in its directory, with no directory that is a link, and whose stored
entries are read alike in one piece or several. -/
structure ZipIndex.Filed (Z : ZipIndex) : Prop where
  filed : ∀ rel n, Z.entry (rel ++ [n]) ≠ none ∨ (Z.children (rel ++ [n])).isSome = true →
    ∃ l, Z.children rel = some l ∧ n ∈ l
  plain : ∀ rel l n, Z.children rel = some l → n ∈ l → isMarker n = false
  noLink : ∀ rel e, Z.entry rel = some e → (Z.children rel).isSome = true → e.symlink = false
  whole : ∀ rel e, Z.entry rel = some e → ∀ L, StoredWhole (.zipEntry L Z (some e))

/-- **What a layer is to be like**: a folder or a file that lies beside the writelayer, or an archive. -/
def Grounded (w : Path) (s : VfsState) (L : Layer) : Prop :=
  match L.type with
  | .zip Z => ZipIndex.Filed Z
  | _ => ∃ p, L.source = some p ∧ ¬ w <+: p ∧ ¬ p <+: w ∧ s.disk.tree.Open p ∧
      (∀ r n, s.disk.tree.node (p ++ r ++ [n]) ≠ none → isMarker n = false) ∧
      (L.type = .file → ¬ s.disk.tree.IsDir p)

/-- What lies in a folder beside the writelayer lies beside it. -/
theorem beside_append (hwp : ¬ w <+: p) (hpw : ¬ p <+: w) (r : Path) : ¬ w <+: p ++ r := by
  intro hle
  rcases List.prefix_or_prefix_of_prefix hle (List.prefix_append p r) with h | h
  · exact hwp h
  · exact hpw h

/-- Grounded layers stay so. -/
theorem Grounded.of_outside (h : Grounded w s₀ L) (hs : SameOutside w s₀ s) : Grounded w s L := by
  unfold Grounded at h ⊢
  have hhost : ∀ {type : LayerType} p, L.source = some p ∧ ¬ w <+: p ∧ ¬ p <+: w ∧ s₀.disk.tree.Open p ∧
      (∀ r n, s₀.disk.tree.node (p ++ r ++ [n]) ≠ none → isMarker n = false) ∧
        (type = .file → ¬ s₀.disk.tree.IsDir p) →
      ∃ p, L.source = some p ∧ ¬ w <+: p ∧ ¬ p <+: w ∧ s.disk.tree.Open p ∧
        (∀ r n, s.disk.tree.node (p ++ r ++ [n]) ≠ none → isMarker n = false) ∧
          (type = .file → ¬ s.disk.tree.IsDir p) := by
    rintro type p ⟨hsrc, hwp, hpw, hopen, hplain, hfile⟩
    have hbelow : ∀ r, s.disk.tree.node (p ++ r) = s₀.disk.tree.node (p ++ r) :=
      fun r => hs _ (beside_append hwp hpw r)
    refine ⟨p, hsrc, hwp, hpw, hopen.congr (fun q hq _ => hs q fun hc => hwp (hc.trans hq)) hbelow,
      fun r n hne => hplain r n ?_, fun ht hdir => hfile ht ?_⟩
    · rwa [List.append_assoc, hbelow, ← List.append_assoc] at hne
    · rwa [Tree.IsDir, ← hs p hwp]
  cases ht : L.type with
  | zip Z =>
      rw [ht] at h
      exact h
  | dir =>
      rw [ht] at h
      obtain ⟨p, hp⟩ := h
      exact hhost p hp
  | file =>
      rw [ht] at h
      obtain ⟨p, hp⟩ := h
      exact hhost p hp

/-! ### What a layer answers -/

/-- What one layer answers. -/
def answer (M : Mount) (s : VfsState) (L : Layer) (v : Path) : Option ResolveResult :=
  (resolveLayer M L v : View (Option ResolveResult)) s

/-- A layer has something to say of `v`. -/
def Shown (L : Layer) (v : Path) : Prop := layerCovers L v = true ∧ layerMasked L v = false

instance (L : Layer) (v : Path) : Decidable (Shown L v) := inferInstanceAs (Decidable (_ ∧ _))

theorem answer_of_not_shown (h : ¬ Shown L v) : answer M s L v = none := by
  unfold answer resolveLayer
  rw [if_pos]
  · rfl
  · rw [Shown, not_and, Bool.not_eq_false] at h
    rw [Bool.or_eq_true, Bool.not_eq_true']
    exact (Bool.eq_false_or_eq_true (layerCovers L v)).elim (fun hc => Or.inr (h hc)) Or.inl

theorem answers_dir (ht : L.type = .dir) (hk : L.isKept = false) (hsrc : L.source = some p)
    (ho : s.disk.tree.Open p) (hshow : Shown L v) :
    answer M s L v = (s.disk.tree.node (p ++ sourceRel L v)).map fun _ =>
      .dirLayer (some (p ++ sourceRel L v)) L := by
  have hrw : L.rw = false := by simpa [Layer.isKept, Layer.isDirLayer, ht] using hk
  have hhost : layerHost L v = some (p ++ sourceRel L v) := by
    rw [layerHost, hsrc]
    rfl
  unfold answer resolveLayer
  rw [if_neg (by simp [hshow.1, hshow.2]), ht]
  dsimp only
  rw [View.bind_apply, View.look_apply, hhost]
  rcases Disk.lstat_open ho (sourceRel L v) with ⟨hnone, e, he⟩ | ⟨nd, hnd, hst, hlink⟩
  · rw [he, hnone]
    dsimp only
    rw [View.bind_apply, View.see_apply, hrw, if_neg (by simp)]
    rfl
  · rw [hst, hnd]
    dsimp only
    rw [hlink, if_neg (by simp)]
    rfl

theorem answers_file (ht : L.type = .file) (hsrc : L.source = some p) (ho : s.disk.tree.Open p)
    (hshow : Shown L v) :
    answer M s L v = (s.disk.tree.node p).map fun _ => .fileLayer (some p) L := by
  unfold answer resolveLayer
  rw [if_neg (by simp [hshow.1, hshow.2]), ht]
  dsimp only
  rw [View.bind_apply, View.look_apply, hsrc]
  have hst := Disk.lstat_open ho []
  rw [List.append_nil] at hst
  rcases hst with ⟨hnone, e, he⟩ | ⟨nd, hnd, hst, hlink⟩
  · rw [he, hnone]
    rfl
  · rw [hst, hnd]
    dsimp only
    rw [hlink, if_neg (by simp)]
    rfl

/-- An archive answers the same in any state. -/
theorem answers_zip {Z : ZipIndex} (ht : L.type = .zip Z) (s s' : VfsState) :
    answer M s L v = answer M s' L v := by
  have hun : Unmoved (resolveLayer M L v : View (Option ResolveResult)) := by
    refine .ite (.pure _) ?_
    rw [ht]
    dsimp only
    cases Z.entry (sourceRel L v) with
    | none => exact .ite (.pure _) (.pure _)
    | some e =>
        refine .ite (.bind (resolveZipSymlink_unmoved Z e) fun r => ?_) (.pure _)
        cases r with
        | none => exact .ite (.pure _) (.pure _)
        | some t => exact .pure _
  exact hun s s'

/-- What an archive answers is one of its entries, or a directory of it. -/
theorem answer_zip_filed {Z : ZipIndex} (ht : L.type = .zip Z) {rr : ResolveResult}
    (h : answer M s L v = some rr) : Shown L v ∧
      ((∃ t, rr = .zipEntry L Z (some t) ∧ ∃ rel, Z.entry rel = some t) ∨ rr = .zipEntry L Z none) ∧
      (Z.entry (sourceRel L v) ≠ none ∨ (Z.children (sourceRel L v)).isSome = true) := by
  have hshow : Shown L v := by
    by_contra hc
    rw [answer_of_not_shown hc] at h
    cases h
  refine ⟨hshow, ?_⟩
  have hshows : Shows s (fun r => ∀ rr, r = some rr →
      ((∃ t, rr = .zipEntry L Z (some t) ∧ ∃ rel, Z.entry rel = some t) ∨ rr = .zipEntry L Z none) ∧
      (Z.entry (sourceRel L v) ≠ none ∨ (Z.children (sourceRel L v)).isSome = true)) (resolveLayer M L v) := by
    refine Shows.ite (fun _ => Shows.pure (by simp)) fun _ => ?_
    rw [ht]
    dsimp only
    cases he : Z.entry (sourceRel L v) with
    | none =>
        refine Shows.ite (fun hdir => Shows.pure ?_) fun _ => Shows.pure (by simp)
        rintro rr ⟨rfl⟩
        exact ⟨Or.inr rfl, Or.inr hdir⟩
    | some e =>
        have hown : ∀ rr, some (ResolveResult.zipEntry L Z (some e)) = some rr →
            ((∃ t, rr = .zipEntry L Z (some t) ∧ ∃ rel, Z.entry rel = some t) ∨ rr = .zipEntry L Z none) ∧
            (some e ≠ none ∨ (Z.children (sourceRel L v)).isSome = true) := by
          rintro rr ⟨rfl⟩
          exact ⟨Or.inl ⟨e, rfl, _, he⟩, Or.inl (by simp)⟩
        refine Shows.ite (fun _ => Shows.bind fun r hr => ?_) fun _ => Shows.pure hown
        cases r with
        | none => exact Shows.ite (fun _ => Shows.pure (by simp)) fun _ => Shows.pure hown
        | some t =>
            refine Shows.pure ?_
            rintro rr ⟨rfl⟩
            refine ⟨Or.inl ⟨t, rfl, ?_⟩, Or.inl (by simp)⟩
            rcases resolveZipSymlink_filed s hr.symm with rfl | hfiled
            · exact ⟨_, he⟩
            · exact hfiled
  exact hshows rr h

/-- **A grounded layer answers the same** for as long as nothing beside the writelayer changes. -/
theorem answer_beside (hg : Grounded w s₀ L) (hk : L.isKept = false) (hs : Beside w s₀ s) (v : Path) :
    answer M s L v = answer M s₀ L v := by
  by_cases hshow : Shown L v
  · have hg' := hg.of_outside hs.outside
    unfold Grounded at hg hg'
    cases ht : L.type with
    | zip Z => exact answers_zip ht s s₀
    | dir =>
        rw [ht] at hg hg'
        obtain ⟨p, hsrc, hwp, hpw, ho, -⟩ := hg
        obtain ⟨p', hsrc', -, -, ho', -⟩ := hg'
        obtain rfl := Option.some_inj.1 (hsrc.symm.trans hsrc')
        rw [answers_dir ht hk hsrc ho hshow, answers_dir ht hk hsrc ho' hshow,
          hs.outside _ (beside_append hwp hpw _)]
    | file =>
        rw [ht] at hg hg'
        obtain ⟨p, hsrc, hwp, -, ho, -⟩ := hg
        obtain ⟨p', hsrc', -, -, ho', -⟩ := hg'
        obtain rfl := Option.some_inj.1 (hsrc.symm.trans hsrc')
        rw [answers_file ht hsrc ho hshow, answers_file ht hsrc ho' hshow, hs.outside p hwp]
  · rw [answer_of_not_shown hshow, answer_of_not_shown hshow]

/-- An open source beside the writelayer stays open. -/
theorem Beside.opened {p : Path} (hs : Beside w s₀ s) (hwp : ¬ w <+: p) (hpw : ¬ p <+: w)
    (ho : s₀.disk.tree.Open p) : s.disk.tree.Open p :=
  ho.congr (fun q hq _ => hs.outside q fun hc => hwp (hc.trans hq))
    fun r => hs.outside _ (beside_append hwp hpw r)

/-- An entry of a source beside the writelayer shows, and goes on showing the same. -/
theorem entryAt_beside {p r : Path} {nd : Node} (follow : Bool) (hwp : ¬ w <+: p) (hpw : ¬ p <+: w)
    (ho : s₀.disk.tree.Open p) (hnd : s₀.disk.tree.node (p ++ r) = some nd) :
    s₀.disk.entryAt follow (some (p ++ r)) ≠ none ∧ ∀ s, Beside w s₀ s →
      s.disk.entryAt follow (some (p ++ r)) = s₀.disk.entryAt follow (some (p ++ r)) := by
  refine ⟨by rw [Disk.entryAt_open ho, hnd]; simp, fun s hs => ?_⟩
  have hsame := hs.outside _ (beside_append hwp hpw r)
  rw [Disk.entryAt_open ho, Disk.entryAt_open (hs.opened hwp hpw ho), hsame, hnd, Option.map_some,
    Option.map_some]
  cases nd with
  | dir m => rfl
  | link target => rfl
  | file i =>
      change some (Entry.file (s.disk.inode i).bytes) = _
      rw [hs.inode _ i (beside_append hwp hpw r) hnd]
      rfl

/-- A directory of such a source goes on being one. -/
theorem Beside.lstat_dir {p r : Path} (hs : Beside w s₀ s) (hwp : ¬ w <+: p) (hpw : ¬ p <+: w)
    (ho : s₀.disk.tree.Open p) {follow : Bool}
    (hdir : s₀.disk.entryAt follow (some (p ++ r)) = some .dir) :
    (s.disk.lstat (some (p ++ r))).toOption.any (·.isDir) = true := by
  have hentry := (Disk.entryAt_open ho follow r).symm.trans hdir
  obtain ⟨nd, hnd, hnd'⟩ := Option.map_eq_some_iff.1 hentry
  have hsame := (hs.outside _ (beside_append hwp hpw r)).trans hnd
  rcases Disk.lstat_open (hs.opened hwp hpw ho) r with ⟨hnone, -⟩ | ⟨nd', hnd'', hst, -⟩
  · rw [hnone] at hsame
    cases hsame
  · obtain rfl := Option.some_inj.1 (hsame.symm.trans hnd'')
    rw [hst]
    cases nd with
    | dir m => rfl
    | file i => cases hnd'
    | link target => cases hnd'

/-- **What it answers shows**, and goes on showing the same. -/
theorem answer_shows (hg : Grounded w s₀ L) (hk : L.isKept = false) {rr : ResolveResult}
    (h : answer M s₀ L v = some rr) :
    shown M s₀.disk rr ≠ none ∧ StoredWhole rr ∧
      ∀ s, Beside w s₀ s → shown M s.disk rr = shown M s₀.disk rr ∧
        (shown M s₀.disk rr = some .dir → dirHit s rr = true) := by
  have hshow : Shown L v := by
    by_contra hc
    rw [answer_of_not_shown hc] at h
    cases h
  unfold Grounded at hg
  cases ht : L.type with
  | zip Z =>
      rw [ht] at hg
      obtain ⟨-, hrr, -⟩ := answer_zip_filed ht h
      rcases hrr with ⟨t, rfl, rel, hrel⟩ | rfl
      · refine ⟨by simp [shown], hg.whole rel t hrel L, fun s _ => ⟨rfl, fun hdir => ?_⟩⟩
        cases htdir : t.isDir with
        | true =>
            unfold dirHit hitIsDir
            rw [if_pos (by simp [ResolveResult.isVirtualDir, htdir])]
            rfl
        | false =>
            rw [shown, htdir, if_neg Bool.false_ne_true] at hdir
            split_ifs at hdir <;> cases Option.some_inj.1 hdir
      · exact ⟨by simp [shown], trivial, fun _ _ => ⟨rfl, fun _ => rfl⟩⟩
  | dir =>
      rw [ht] at hg
      obtain ⟨p, hsrc, hwp, hpw, ho, -⟩ := hg
      rw [answers_dir ht hk hsrc ho hshow] at h
      obtain ⟨nd, hnd, rfl⟩ := Option.map_eq_some_iff.1 h
      obtain ⟨hne, hsame⟩ :=
        entryAt_beside (followsLinks M (.dirLayer (some (p ++ sourceRel L v)) L)) hwp hpw ho hnd
      exact ⟨hne, trivial, fun s hs => ⟨hsame s hs, fun hdir => hs.lstat_dir hwp hpw ho hdir⟩⟩
  | file =>
      rw [ht] at hg
      obtain ⟨p, hsrc, hwp, hpw, ho, -, hnot⟩ := hg
      rw [answers_file ht hsrc ho hshow] at h
      obtain ⟨nd, hnd, rfl⟩ := Option.map_eq_some_iff.1 h
      have hnd' : s₀.disk.tree.node (p ++ []) = some nd := by rw [List.append_nil, hnd]
      have hfile := entryAt_beside (followsLinks M (.fileLayer (some p) L)) hwp hpw ho hnd'
      have hentry := Disk.entryAt_open ho (followsLinks M (.fileLayer (some p) L)) []
      rw [List.append_nil] at hfile hentry
      refine ⟨hfile.1, trivial, fun s hs => ⟨hfile.2 s hs, fun hdir => ?_⟩⟩
      have hdir' := hentry.symm.trans hdir
      rw [hnd, Option.map_some, Option.some_inj] at hdir'
      cases nd with
      | dir m => exact absurd ⟨m, hnd⟩ (hnot rfl)
      | file i => cases hdir'
      | link target => cases hdir'

/-! ### Names and their directories -/

theorem sourceRel_concat (h : L.target <+: v) (n : Name) : sourceRel L (v ++ [n]) = sourceRel L v ++ [n] := by
  rw [sourceRel, sourceRel, relUnder, relUnder, List.drop_append_of_le_length h.length_le, List.append_assoc]

/-- A name is kept in the listing of an archive's directory unless it is a link that is not served. -/
theorem mem_zipNames {Z : ZipIndex} {rel : Path} (s : VfsState) (hn : ∀ e, Z.entry (rel ++ [n]) = some e →
      M.flattenSymlinks = true → e.symlink = true → 4096 < e.size ∨ e.stored = false →
      (resolveZipSymlink Z e : View (Option ZipEntry)) s ≠ none) :
    ∀ l : List Name, n ∈ l → n ∈ (zipNames M Z rel l : View (List Name)) s := by
  intro l
  induction l with
  | nil => exact fun hmem => absurd hmem List.not_mem_nil
  | cons c cs ih =>
      intro hmem
      have hrest : n = c ∨ n ∈ (zipNames M Z rel cs : View (List Name)) s :=
        (List.mem_cons.1 hmem).imp id ih
      have hkeep : n ∈ c :: (zipNames M Z rel cs : View (List Name)) s := List.mem_cons.2 hrest
      rw [zipNames, View.bind_apply]
      cases he : Z.entry (rel ++ [c]) with
      | none => exact hkeep
      | some e =>
          dsimp only
          by_cases hskip : (M.flattenSymlinks && e.symlink && (decide (4096 < e.size) || !e.stored)) = true
          · rw [if_pos hskip, View.bind_apply]
            cases hr : (resolveZipSymlink Z e : View (Option ZipEntry)) s with
            | some t => exact hkeep
            | none =>
                refine hrest.resolve_left ?_
                rintro rfl
                simp only [Bool.and_eq_true, Bool.or_eq_true, decide_eq_true_eq, Bool.not_eq_true'] at hskip
                exact hn e he hskip.1.1 hskip.1.2 hskip.2 hr
          · rw [if_neg hskip]
            exact hkeep

/-- Nothing is listed that the archive does not hold. -/
theorem zipNames_sub {Z : ZipIndex} {rel : Path} (s : VfsState) :
    ∀ (l : List Name) (n : Name), n ∈ (zipNames M Z rel l : View (List Name)) s → n ∈ l := by
  intro l
  induction l with
  | nil => exact fun n hn => hn
  | cons c cs ih =>
      have hall : Shows s (fun names => ∀ n ∈ names, n ∈ c :: cs) (zipNames M Z rel (c :: cs)) := by
        refine Shows.bind fun rest hrest => ?_
        have hsub : ∀ n ∈ rest, n ∈ cs := fun n hn => ih n (hrest ▸ hn)
        have hkeep : ∀ n ∈ c :: rest, n ∈ c :: cs :=
          fun n hn => List.mem_cons.2 ((List.mem_cons.1 hn).imp id (hsub n))
        have hskip : ∀ n ∈ rest, n ∈ c :: cs := fun n hn => List.mem_cons_of_mem _ (hsub n hn)
        cases Z.entry (rel ++ [c]) with
        | none => exact Shows.pure hkeep
        | some e =>
            refine Shows.ite (fun _ => Shows.bind fun r _ => ?_) fun _ => Shows.pure hkeep
            cases r with
            | none => exact Shows.pure hskip
            | some t => exact Shows.pure hkeep
      exact hall

/-- A folder that has something at a name has its directory, and lists the name there. -/
theorem answer_up_dir (hg : Grounded w s L) (hk : L.isKept = false) (ht : L.type = .dir)
    (hle : L.target <+: v) (hv : Shown L v) (hshow : Shown L (v ++ [n]))
    (h : answer M s L (v ++ [n]) ≠ none) :
    answer M s L v ≠ none ∧ n ∈ ((layerNames M L v : View Listing) s).names := by
  have hrw : L.rw = false := by simpa [Layer.isKept, Layer.isDirLayer, ht] using hk
  unfold Grounded at hg
  rw [ht] at hg
  obtain ⟨p, hsrc, -, -, ho, -⟩ := hg
  have hnode : s.disk.tree.node (p ++ sourceRel L v ++ [n]) ≠ none := by
    rw [answers_dir ht hk hsrc ho hshow, sourceRel_concat hle, ← List.append_assoc] at h
    intro hc
    rw [hc] at h
    exact h rfl
  have hdir := s.disk.tree.parent_dir _ _ hnode
  constructor
  · rw [answers_dir ht hk hsrc ho hv]
    obtain ⟨m, hm⟩ := hdir
    rw [hm]
    simp
  · unfold layerNames
    rw [ht]
    dsimp only
    have hhost : layerHost L v = some (p ++ sourceRel L v) := by
      rw [layerHost, hsrc]
      rfl
    rw [View.bind_apply, hrw, hhost]
    change n ∈ s.disk.readDir (some (p ++ sourceRel L v))
    rw [Disk.readDir_open ho hdir]
    exact Tree.mem_children.2 hnode

/-- And so does an archive. -/
theorem answer_up_zip (hg : Grounded w s L) {Z : ZipIndex} (ht : L.type = .zip Z)
    (hle : L.target <+: v) (hv : Shown L v) (hshow : Shown L (v ++ [n]))
    (h : answer M s L (v ++ [n]) ≠ none) :
    answer M s L v ≠ none ∧ n ∈ ((layerNames M L v : View Listing) s).names := by
  unfold Grounded at hg
  rw [ht] at hg
  obtain ⟨rr, hrr⟩ := Option.ne_none_iff_exists'.1 h
  have hfiled := (answer_zip_filed ht hrr).2.2
  rw [sourceRel_concat hle] at hfiled
  obtain ⟨l, hl, hmem⟩ := hg.filed _ _ hfiled
  constructor
  · unfold answer resolveLayer
    rw [if_neg (by simp [hv.1, hv.2]), ht]
    dsimp only
    cases he : Z.entry (sourceRel L v) with
    | none =>
        dsimp only
        rw [hl]
        exact Option.some_ne_none _
    | some e =>
        dsimp only
        rw [hg.noLink _ e he (by rw [hl]; rfl), if_neg (by simp)]
        exact Option.some_ne_none _
  · unfold layerNames
    rw [ht]
    dsimp only
    rw [View.bind_apply, hl]
    refine mem_zipNames s (fun e he hflat hlink hbad hnone => h ?_) l hmem
    unfold answer resolveLayer
    rw [if_neg (by simp [hshow.1, hshow.2]), ht, sourceRel_concat hle]
    dsimp only
    rw [he]
    dsimp only
    rw [if_pos (by simp [hflat, hlink]), View.bind_apply, hnone]
    dsimp only
    rw [if_pos hbad]
    rfl

/-- **A layer that has something at a name has its directory, and lists the name there**, or shows at the
name itself. -/
theorem answer_up (hg : Grounded w s L) (hk : L.isKept = false) (h : answer M s L (v ++ [n]) ≠ none) :
    layerMasked L v = false ∧ layerMasked L (v ++ [n]) = false ∧
      (L.place = v ++ [n] ∨ answer M s L v ≠ none ∧ layerCovers L v = true ∧
        n ∈ ((layerNames M L v : View Listing) s).names) := by
  have hshow : Shown L (v ++ [n]) := by
    by_contra hc
    exact h (answer_of_not_shown hc)
  have hmask : layerMasked L v = false := by
    have hmask := hshow.2
    rw [layerMasked, List.any_eq_false] at hmask ⊢
    intro q hq hle
    exact hmask q hq (List.isPrefixOf_iff_prefix.2
      ((List.isPrefixOf_iff_prefix.1 hle).trans (List.prefix_append v [n])))
  refine ⟨hmask, hshow.2, ?_⟩
  have hcov := hshow.1
  unfold layerCovers at hcov
  -- a layer that shows a whole folder
  have hfolder : L.isFileLayer = false → L.place = v ++ [n] ∨ L.target <+: v ∧ layerCovers L v = true := by
    intro hfile
    rw [if_neg (by simp [hfile])] at hcov
    rw [Layer.place, if_neg (by simp [hfile])]
    refine (List.prefix_concat_iff.1 (List.isPrefixOf_iff_prefix.1 hcov)).imp id fun hle => ⟨hle, ?_⟩
    rw [layerCovers, if_neg (by simp [hfile])]
    exact List.isPrefixOf_iff_prefix.2 hle
  cases ht : L.type with
  | file =>
      have hfile : L.isFileLayer = true := by simp [Layer.isFileLayer, ht]
      rw [if_pos hfile] at hcov
      refine Or.inl ?_
      rw [Layer.place, if_pos hfile]
      exact (of_decide_eq_true hcov).symm
  | dir =>
      refine (hfolder (by simp [Layer.isFileLayer, ht])).imp_right fun hunder => ?_
      obtain ⟨hle, hcov'⟩ := hunder
      obtain ⟨hup, hmem⟩ := answer_up_dir hg hk ht hle ⟨hcov', hmask⟩ hshow h
      exact ⟨hup, hcov', hmem⟩
  | zip Z =>
      refine (hfolder (by simp [Layer.isFileLayer, ht])).imp_right fun hunder => ?_
      obtain ⟨hle, hcov'⟩ := hunder
      obtain ⟨hup, hmem⟩ := answer_up_zip hg ht hle ⟨hcov', hmask⟩ hshow h
      exact ⟨hup, hcov', hmem⟩

/-! ### All layers together -/

/-- The answer of the layers is one layer's, or that of the implied directories. -/
theorem lowerLookup_cases (M : Mount) (s : VfsState) (v : Path) :
    (∃ L ∈ M.layers, answer M s L v = some (lowerLookup M s v)) ∨
      (∀ L ∈ M.layers, answer M s L v = none) ∧
        lowerLookup M s v = if v ∈ M.implicitDirs then .implicitDir else .none := by
  have hlayers : ∀ layers, (∃ L ∈ layers, answer M s L v =
        some ((resolveLayers M v layers : View ResolveResult) s)) ∨
      (∀ L ∈ layers, answer M s L v = none) ∧
        (resolveLayers M v layers : View ResolveResult) s = if v ∈ M.implicitDirs then .implicitDir else .none := by
    intro layers
    induction layers with
    | nil => exact Or.inr ⟨by simp, rfl⟩
    | cons L rest ih =>
        cases hL : answer M s L v with
        | some rr =>
            have heq : (resolveLayers M v (L :: rest) : View ResolveResult) s = rr := by
              rw [resolveLayers, View.bind_apply,
                show (resolveLayer M L v : View (Option ResolveResult)) s = some rr from hL]
              rfl
            exact Or.inl ⟨L, by simp, by rw [hL, heq]⟩
        | none =>
            have heq : (resolveLayers M v (L :: rest) : View ResolveResult) s =
                (resolveLayers M v rest : View ResolveResult) s := by
              rw [resolveLayers, View.bind_apply,
                show (resolveLayer M L v : View (Option ResolveResult)) s = none from hL]
            rw [heq]
            rcases ih with ⟨L', hL', h⟩ | ⟨hnone, hrest⟩
            · exact Or.inl ⟨L', List.mem_cons_of_mem _ hL', h⟩
            · exact Or.inr ⟨by simpa [hL] using hnone, hrest⟩
  simpa [lowerLookup] using hlayers M.layers.reverse

section

variable (hk : NoKept M) (hg : ∀ L ∈ M.layers, Grounded w s₀ L)
include hk hg

/-- The answer stays the same, and so does what it shows. -/
theorem lowerLookup_beside (hs : Beside w s₀ s) (v : Path) :
    lowerLookup M s v = lowerLookup M s₀ v := by
  have hone : ∀ layers, (∀ L ∈ layers, L ∈ M.layers) →
      (resolveLayers M v layers : View ResolveResult) s = (resolveLayers M v layers : View ResolveResult) s₀ := by
    intro layers
    induction layers with
    | nil => exact fun _ => rfl
    | cons L rest ih =>
        intro hmem
        have hL := hmem L (by simp)
        have hsame : (resolveLayer M L v : View (Option ResolveResult)) s =
            (resolveLayer M L v : View (Option ResolveResult)) s₀ :=
          answer_beside (hg L hL) (hk L hL) hs v
        rw [resolveLayers, View.bind_apply, View.bind_apply, hsame]
        cases (resolveLayer M L v : View (Option ResolveResult)) s₀ with
        | some rr => rfl
        | none => exact ih fun L' hL' => hmem L' (List.mem_cons_of_mem _ hL')
  exact hone _ fun L hL => by simpa using hL

theorem lowerLookup_shows (v : Path) :
    StoredWhole (lowerLookup M s₀ v) ∧
      (∀ s, Beside w s₀ s → shown M s.disk (lowerLookup M s₀ v) = shown M s₀.disk (lowerLookup M s₀ v) ∧
        (shown M s₀.disk (lowerLookup M s₀ v) = some .dir → dirHit s (lowerLookup M s₀ v) = true)) ∧
      (shown M s₀.disk (lowerLookup M s₀ v) ≠ none ↔
        (∃ L ∈ M.layers, answer M s₀ L v ≠ none) ∨ v ∈ M.implicitDirs) ∧
      (shown M s₀.disk (lowerLookup M s₀ v) = none → lowerLookup M s₀ v = .none) := by
  rcases lowerLookup_cases M s₀ v with ⟨L, hL, hans⟩ | ⟨hnone, heq⟩
  · obtain ⟨hne, hwhole, hsame⟩ := answer_shows (hg L hL) (hk L hL) hans
    exact ⟨hwhole, hsame, iff_of_true hne (Or.inl ⟨L, hL, by simp [hans]⟩), fun hnone => absurd hnone hne⟩
  · rw [heq]
    have hno : ¬ ∃ L ∈ M.layers, answer M s₀ L v ≠ none := by
      rintro ⟨L, hL, hne⟩
      exact hne (hnone L hL)
    split_ifs with himp
    · exact ⟨trivial, fun _ _ => ⟨rfl, fun _ => rfl⟩, iff_of_true (by simp [shown]) (Or.inr himp),
        fun hnone' => by cases hnone'⟩
    · exact ⟨trivial, fun _ _ => ⟨rfl, fun hdir => by cases hdir⟩,
        iff_of_false (by simp [shown]) (by simp [hno, himp]), fun _ => rfl⟩

/-- Where nothing shows, nothing shows below it. -/
theorem lowerLookup_closed {v : Path} {n : Name} (hv : v ≠ [])
    (hnone : shown M s₀.disk (lowerLookup M s₀ v) = none) :
    shown M s₀.disk (lowerLookup M s₀ (v ++ [n])) = none := by
  have hshows := (lowerLookup_shows hk hg v).2.2.1
  by_contra hne
  refine absurd hnone (hshows.2 ?_)
  rcases ((lowerLookup_shows hk hg (v ++ [n])).2.2.1).1 hne with ⟨L, hL, hans⟩ | himp
  · obtain ⟨hmask, hmask', hplace | ⟨hv', -⟩⟩ := answer_up (hg L hL) (hk L hL) hans
    · refine Or.inr (List.mem_flatMap.2 ⟨L, hL, ?_⟩)
      rw [hplace, hmask', if_neg Bool.false_ne_true]
      simp [addAncestors, hv]
    · exact Or.inl ⟨L, hL, hv'⟩
  · obtain ⟨L, hL, hmem⟩ := List.mem_flatMap.1 himp
    refine Or.inr (List.mem_flatMap.2 ⟨L, hL, ?_⟩)
    split_ifs at hmem ⊢ with hmask
    · cases hmem
    · simp only [addAncestors, List.mem_filter, List.mem_inits, decide_eq_true_eq] at hmem ⊢
      have hle : v <+: L.place := (List.prefix_append v [n]).trans hmem.1
      refine ⟨hle, hv, ?_⟩
      intro he
      have := hmem.1.length_le
      rw [← he, List.length_append, List.length_singleton] at this
      omega

/-- What shows is listed. -/
theorem lowerListing_shows (hnamed : ∀ L ∈ M.layers, "" ∉ L.place) (hs : Beside w s₀ s) {v : Path}
    {n : Name} (hne : shown M s₀.disk (lowerLookup M s₀ (v ++ [n])) ≠ none) :
    n ∈ ((lowerListing M v false : View Listing) s).names := by
  have hg' : ∀ L ∈ M.layers, Grounded w s L := fun L hL => (hg L hL).of_outside hs.outside
  refine (mem_lowerListing hk).2 ?_
  have hseg : ∀ L ∈ M.layers, v ++ [n] <+: L.place → n ∈ nextNames v (v ++ [n]) := by
    intro L hL hle
    refine mem_nextNames.2 ⟨fun he => hnamed L hL ?_, List.prefix_rfl⟩
    exact he ▸ hle.mem (by simp)
  rcases ((lowerLookup_shows hk hg (v ++ [n])).2.2.1).1 hne with ⟨L, hL, hans⟩ | himp
  · rw [← answer_beside (hg L hL) (hk L hL) hs] at hans
    obtain ⟨hmask, -, hplace | ⟨-, hcov, hmem⟩⟩ := answer_up (hg' L hL) (hk L hL) hans
    · exact Or.inl ⟨L, hL, hmask, Or.inr (Or.inr (hplace ▸ hseg L hL (hplace ▸ List.prefix_rfl)))⟩
    · exact Or.inl ⟨L, hL, hmask, Or.inl ⟨hcov, hmem⟩⟩
  · obtain ⟨L, hL, hmem⟩ := List.mem_flatMap.1 himp
    refine Or.inr ⟨_, himp, hseg L hL ?_⟩
    split_ifs at hmem
    · cases hmem
    · exact (List.mem_inits _ _).1 (List.mem_of_mem_filter hmem)

/-- No layer lists a marker. -/
theorem plainLayers_of_grounded (hclean : ∀ L ∈ M.layers, Clean L.place) : PlainLayers M w s₀ := by
  refine plainLayers_of hk hclean fun s hs L hL v n hn => ?_
  have hg' := (hg L hL).of_outside hs
  unfold Grounded at hg'
  unfold layerNames at hn
  cases ht : L.type with
  | file =>
      rw [ht] at hn
      cases hn
  | zip Z =>
      rw [ht] at hg' hn
      dsimp only at hn
      rw [View.bind_apply] at hn
      have hsub := zipNames_sub s _ n hn
      cases hc : Z.children (sourceRel L v) with
      | none =>
          rw [hc] at hsub
          cases hsub
      | some l =>
          rw [hc] at hsub
          exact hg'.plain _ l n hc hsub
  | dir =>
      have hrw : L.rw = false := by simpa [Layer.isKept, Layer.isDirLayer, ht] using hk L hL
      rw [ht] at hg' hn
      obtain ⟨p, hsrc, -, -, ho, hplain, -⟩ := hg'
      dsimp only at hn
      have hhost : layerHost L v = some (p ++ sourceRel L v) := by
        rw [layerHost, hsrc]
        rfl
      rw [View.bind_apply, hrw, hhost] at hn
      exact hplain _ n (Disk.mem_readDir_open ho hn)

/-- **Grounded layers are the same whatever is done in the writelayer.** -/
theorem beneath_of_grounded (hclean : ∀ L ∈ M.layers, Clean L.place)
    (hnamed : ∀ L ∈ M.layers, "" ∉ L.place) :
    Beneath M w s₀ fun v => shown M s₀.disk (lowerLookup M s₀ v) where
  reads s s' hs hs' v _ := by
    rw [lowerLookup_beside hk hg hs, ((lowerLookup_shows hk hg v).2.1 s' hs').1]
  steady s hs v _ := by
    rw [lowerLookup_beside hk hg hs]
    exact (lowerLookup_shows hk hg v).1
  shows s hs v _ hnone := by
    rw [lowerLookup_beside hk hg hs, (lowerLookup_shows hk hg v).2.2.2 hnone]
    rfl
  dirs s s' hs hs' v _ hdir := by
    rw [lowerLookup_beside hk hg hs]
    exact ((lowerLookup_shows hk hg v).2.1 s' hs').2 hdir
  closed v n hv hnone := lowerLookup_closed hk hg hv hnone
  listed s hs v n _ hne := lowerListing_shows hk hg hnamed hs hne
  plain := plainLayers_of_grounded hk hg hclean

end

end VidyaGodFS
