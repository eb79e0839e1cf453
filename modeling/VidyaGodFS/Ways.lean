/-
**Ways that stay open.**

A marker goes into a directory, and what is missing of the way there is made first.  Between the
start of a deletion and that moment the host is asked for other things: directories are made, names
go, one is moved.  A way of directories survives all this.  What is there of it stays, with its mode,
and at most directories are added to it.

Main definitions:

* `Tree.OpenWay` — a way on which there are only directories;
* `WayKept`, `WayThere` — what a way may have become, and a way that is there;
* `Markable`, `World.Lets` — a directory that takes a file, and a host that lets it be made.

Main results:

* `WayKept.put_dir`, `WayKept.grows`, `WayKept.move` — what leaves a way as it was;
* `makes_keep`, `drops_keep`, `patches_keep` — **and the calls that do**;
* `createDirectories_arrives` — where `create_directories` succeeds, the way is there;
* `createDirectories_let` — where the host lets it, the missing directories are made.
-/

import VidyaGodFS.Calm
import VidyaGodFS.KeptFolders

set_option relaxedAutoImplicit false
set_option autoImplicit false

namespace Posix

namespace Tree

variable {t t' : Tree} {p q : Path}

/-- What there is on the way to `p`, and at `p`, are directories that can be walked through. -/
def OpenWay (t : Tree) (p : Path) : Prop := ∀ q, q <+: p → t.node q = none ∨ t.IsOpenDir q

theorem OpenWay.of_le (h : t.OpenWay p) (hq : q <+: p) : t.OpenWay q :=
  fun r hr => h r (hr.trans hq)

theorem OpenWay.straight (h : t.OpenWay p) {n : Name} : t.Straight (p ++ [n]) :=
  fun q hq hne => h q ((List.prefix_concat_iff.1 hq).resolve_left hne)

theorem OpenWay.straight_self (h : t.OpenWay p) : t.Straight p := fun q hq _ => h q hq

theorem OpenWay.not_link (h : t.OpenWay p) (hq : q <+: p) (target : String) :
    t.node q ≠ some (.link target) := by
  intro hlink
  rcases h q hq with hnone | ⟨m, hm, -⟩
  · rw [hnone] at hlink
    cases hlink
  · rw [hm] at hlink
    cases hlink

theorem OpenWay.linkless (h : t.OpenWay p) : t.Linkless p := fun _ hq => h.not_link hq

/-- What is no directory is not on the way. -/
theorem OpenWay.not_le {nd : Node} (h : t.OpenWay p) (hq : t.node q = some nd)
    (hdir : nd.isDir = false) : ¬ q <+: p := by
  intro hle
  rcases h q hle with hnone | ⟨m, hm, -⟩
  · rw [hnone] at hq
    cases hq
  · rw [hm] at hq
    obtain rfl := Option.some_inj.1 hq
    cases hdir

theorem IsDir.of_le (h : t.IsDir p) (hq : q <+: p) : t.IsDir q := by
  by_cases hqp : q = p
  · rw [hqp]
    exact h
  · exact isDir_above h.ne_none hq hqp

/-- What is found in a directory at the end of a path without links is in that directory. -/
theorem Linkless.find_below (h : t.Linkless p) {n : Name} (hq : t.locate false (p ++ [n]) = .ok q) :
    q = p ++ [n] := by
  obtain ⟨dir, hdir, rfl⟩ := Tree.locate_concat hq
  rw [h.locate_eq hdir]

theorem OpenWay.find_below (h : t.OpenWay p) {n : Name} (hq : t.locate false (p ++ [n]) = .ok q) :
    q = p ++ [n] := h.linkless.find_below hq

end Tree

/-! ### What may become of a way -/

/-- From `t₀` to `t` nothing has changed on the way to `p` but that missing directories were made. -/
def WayKept (p : Path) (t₀ t : Tree) : Prop :=
  ∀ q, q <+: p → t.node q = t₀.node q ∨ (t₀.node q = none ∧ t.node q = some (.dir 0o777))

namespace WayKept

variable {p q : Path} {t₀ t t' : Tree}

theorem refl (p : Path) (t : Tree) : WayKept p t t := fun _ _ => Or.inl rfl

theorem trans {t' : Tree} (h : WayKept p t₀ t) (h' : WayKept p t t') : WayKept p t₀ t' := by
  intro q hq
  rcases h' q hq with hsame | ⟨hnone, hmade⟩
  · rw [hsame]
    exact h q hq
  · refine Or.inr ⟨?_, hmade⟩
    rcases h q hq with hsame | ⟨hnone', -⟩
    · rw [← hsame, hnone]
    · exact hnone'

theorem lacked (h : WayKept p t₀ t) (hq : q <+: p) (hnone : t.node q = none) :
    t₀.node q = none := by
  rcases h q hq with hsame | ⟨hnone', -⟩
  · rw [← hsame, hnone]
  · exact hnone'

/-- A directory on the way is one that was there, or one that was made. -/
theorem was (h : WayKept p t₀ t) (hq : q <+: p) {nd : Node} (hnd : t.node q = some nd) :
    t₀.node q = some nd ∨ nd = .dir 0o777 := by
  rcases h q hq with hsame | ⟨-, hmade⟩
  · exact Or.inl (hsame.symm.trans hnd)
  · exact Or.inr (Option.some_inj.1 (hnd.symm.trans hmade))

theorem openWay (h : WayKept p t₀ t) (ho : t₀.OpenWay p) : t.OpenWay p := by
  intro q hq
  rcases h q hq with hsame | ⟨-, hmade⟩
  · rcases ho q hq with hnone | ⟨m, hm, hs⟩
    · exact Or.inl (hsame.trans hnone)
    · exact Or.inr ⟨m, hsame.trans hm, hs⟩
  · exact Or.inr ⟨0o777, hmade, VidyaGodFS.full_777.2.2⟩

/-- Making a directory anywhere. -/
theorem put_dir {y : Path} (h : WayKept p t₀ t) (hput : t.CanPut y (.dir 0o777))
    (hnone : t.node y = none) : WayKept p t₀ (t.put y (.dir 0o777) hput) := by
  intro q hq
  rw [Tree.put_node]
  by_cases hqy : q = y
  · subst hqy
    rw [if_pos rfl]
    exact Or.inr ⟨h.lacked hq hnone, rfl⟩
  · rw [if_neg hqy]
    exact h q hq

/-- A change off the way. -/
theorem congr (h : WayKept p t₀ t) (hsame : ∀ q, q <+: p → t'.node q = t.node q) :
    WayKept p t₀ t' := by
  intro q hq
  rw [hsame q hq]
  exact h q hq

theorem put {y : Path} {nd : Node} (h : WayKept p t₀ t) (hput : t.CanPut y nd) (hy : ¬ y <+: p) :
    WayKept p t₀ (t.put y nd hput) :=
  h.congr fun q hq => if_neg fun hqy : q = y => hy (hqy ▸ hq)

theorem erase {y : Path} (h : WayKept p t₀ t) (herase : t.CanErase y) (hy : ¬ y <+: p) :
    WayKept p t₀ (t.erase y herase) :=
  h.congr fun q hq => if_neg fun hqy : q = y => hy (hqy ▸ hq)

theorem move {a b : Path} (h : WayKept p t₀ t) (hmove : t.CanMove a b) (ha : ¬ a <+: p)
    (hb : ¬ b <+: p) : WayKept p t₀ (t.move a b hmove) :=
  h.congr fun q hq => by
    rw [Tree.move_node, if_neg fun hc => hb (hc.trans hq), if_neg fun hc => ha (hc.trans hq)]

/-- A way that is there stays, whatever is added. -/
theorem grows (h : WayKept p t₀ t) (hp : t.IsDir p) (hgrows : t.Grows t') : WayKept p t₀ t' := by
  refine h.congr fun q hq => ?_
  obtain ⟨m, hm⟩ := hp.of_le hq
  rw [hm]
  exact hgrows q _ hm

end WayKept

end Posix

namespace VidyaGodFS

open Posix

variable {M : Mount} {p : Path} {t₀ : Tree}

/-! ### Calls that keep a way -/

/-- The way is what it was, but for directories that were made. -/
def WayFrom (p : Path) (t₀ : Tree) (d : Disk) : Prop := WayKept p t₀ d.tree

/-- And the directory at its end is there. -/
def WayThere (p : Path) (t₀ : Tree) (d : Disk) : Prop := WayKept p t₀ d.tree ∧ d.tree.IsDir p

/-- **Making directories keeps a way.** -/
theorem makes_keep : Makes.Keep (WayFrom p t₀) := by
  intro α call hcall d hd
  cases hcall with
  | mkdir q =>
      rcases Disk.mkdir_cases q 0o777 d with ⟨e, hf⟩ | ⟨y, -, hnone, -, hput, hi, hrun⟩
      · rw [hf]
        exact hd
      · rw [hrun]
        exact WayKept.put_dir hd hput hnone

/-- **So does taking names away.** -/
theorem drops_keep (ho : t₀.OpenWay p) : Drops.Keep (WayFrom p t₀) := by
  intro α call hcall d hd
  cases hcall with
  | unlink q =>
      rcases Disk.unlink_cases q d with ⟨e, hf⟩ | ⟨y, nd, -, hnd, hdir, -, herase, hrun⟩
      · rw [hf]
        exact hd
      · rw [hrun]
        exact WayKept.erase hd herase ((WayKept.openWay hd ho).not_le hnd hdir)

/-- **And once the way is there, whatever adds.** -/
theorem patches_keep (ho : t₀.OpenWay p) : Patches.Keep (WayThere p t₀) := by
  intro α call hcall d hd
  cases hcall with
  | adds h => exact ⟨hd.1.grows hd.2 (adds_grows h d), (adds_grows h d).isDir hd.2⟩
  | drops h =>
      exact ⟨drops_keep ho call h d hd.1, (drops_spared h hd.2).isDir hd.2⟩

/-- A move spares a way that is there, from elsewhere and to elsewhere. -/
theorem rename_wayThere {src dst : HostPath} {d : Disk} (hd : WayThere p t₀ d)
    (hsrc : ∀ x, d.find false src = .ok x → ¬ x <+: p)
    (hdst : ∀ x, d.find false dst = .ok x → ¬ x <+: p) :
    WayThere p t₀ (Disk.rename src dst d).2 := by
  rcases Disk.rename_cases src dst d with
    ⟨e, hf⟩ | ⟨a, b, ha, hb, ⟨-, -, hrun⟩ | ⟨-, -, -, hmove, hrun⟩⟩
  · rw [hf]
    exact hd
  · rw [hrun]
    exact hd
  · rw [hrun]
    have hp : (d.tree.move a b hmove).node p = d.tree.node p := by
      rw [Tree.move_node, if_neg (hdst b hb), if_neg (hsrc a ha)]
    obtain ⟨m, hm⟩ := hd.2
    exact ⟨hd.1.move hmove (hsrc a ha) (hdst b hb), m, hp.trans hm⟩

theorem rmdir_wayKept {host : HostPath} {d : Disk} (hd : WayKept p t₀ d.tree)
    (h : ∀ x, d.find false host = .ok x → ¬ x <+: p) :
    WayKept p t₀ (Disk.rmdir host d).2.tree := by
  rcases Disk.rmdir_cases host d with ⟨e, hf⟩ | ⟨x, hx, -, -, herase, hrun⟩
  · rw [hf]
    exact hd
  · rw [hrun]
    exact hd.erase herase (h x hx)

/-- **A move out of the directory at the end of the way**: that it was made says that the way is
there, and a directory that holds something gives way to nothing. -/
theorem rename_arrives (ho : t₀.OpenWay p) {n : Name} {dst : HostPath} {d d' : Disk}
    (hd : WayKept p t₀ d.tree) (hrun : Disk.rename (some (p ++ [n])) dst d = (.ok (), d')) :
    WayThere p t₀ d' := by
  have hopen := hd.openWay ho
  rcases Disk.rename_cases (some (p ++ [n])) dst d with
    ⟨e, hf⟩ | ⟨a, b, ha, -, hcases⟩
  · rw [hrun] at hf
    cases hf
  obtain rfl := hopen.find_below ha
  rcases hcases with ⟨-, hne, hok⟩ | ⟨-, -, -, hmove, hok⟩
  · obtain rfl : d' = d := congrArg Prod.snd (hrun.symm.trans hok)
    exact ⟨hd, d'.tree.parent_dir p n hne⟩
  · obtain rfl : d' = _ := congrArg Prod.snd (hrun.symm.trans hok)
    have hthere : d.tree.IsDir p := d.tree.parent_dir p n hmove.2.2.1
    have hb : ¬ b <+: p := by
      intro hle
      refine hmove.2.2.1 (Tree.node_eq_none_of_children hmove.2.2.2.2.2
        (hle.trans (List.prefix_append _ _)) ?_)
      rintro rfl
      exact not_append_singleton_le p n hle
    have hp : (d.tree.move (p ++ [n]) b hmove).node p = d.tree.node p := by
      rw [Tree.move_node, if_neg hb, if_neg (not_append_singleton_le p n)]
    obtain ⟨m, hm⟩ := hthere
    exact ⟨hd.move hmove (not_append_singleton_le p n) hb, m, hp.trans hm⟩

/-! ### Where `create_directories` succeeds -/

/-- The missing directories go down to `p` itself, unless that is there. -/
theorem missingDirs_last {d : Disk} (ho : d.tree.OpenWay p) :
    ∀ k {dirs : List Path}, missingDirs d p k = .ok dirs →
      d.tree.IsDir (p.take k) ∨ p.take k ∈ dirs := by
  intro k
  induction k with
  | zero => exact fun _ => Or.inl d.tree.root_dir
  | succ k _ =>
      intro dirs hdirs
      have hpre : p.take (k + 1) <+: p := List.take_prefix _ _
      rcases ho _ hpre with hnone | hopen
      · rw [missingDirs, Disk.stat_straight_none (ho.of_le hpre).straight_self hnone] at hdirs
        dsimp only at hdirs
        rw [if_pos (Or.inl rfl)] at hdirs
        cases hmiss : missingDirs d p k with
        | error e =>
            rw [hmiss] at hdirs
            cases hdirs
        | ok above =>
            rw [hmiss] at hdirs
            obtain rfl := Except.ok.inj hdirs
            exact Or.inr (by simp)
      · exact Or.inl hopen.isDir

/-- What a look that was not refused has seen. -/
theorem looked_ok {α : Type} {f : Disk → Except Errno α} {a : α} {w w' : World}
    (h : (look f : Prog World Errno (Except Errno α)) w = (.ok (.ok a), w')) :
    f w.state.disk = .ok a := by
  cases hb : w.blind 0 with
  | none =>
      rw [look_let f hb] at h
      exact Except.ok.inj (congrArg Prod.fst h)
  | some e =>
      rw [look_refused f hb] at h
      cases h

theorem looked_isDir {w w' : World} {r : Except Errno Stat} (ho : w.state.disk.tree.OpenWay p)
    (h : (look fun d => d.stat (some p) : Prog World Errno (Except Errno Stat)) w = (.ok r, w'))
    (hdir : r.toOption.any (·.isDir) = true) : w.state.disk.tree.IsDir p := by
  cases r with
  | error e => cases hdir
  | ok st =>
      have hst : st.isDir = true := hdir
      obtain ⟨q, nd, hq, hnd, rfl⟩ := Disk.statAt_ok (looked_ok h)
      rw [Disk.nodeStat_isDir] at hst
      obtain rfl := Disk.find_straight ho.straight_self
        (fun target hlink => absurd hlink (ho.not_link (List.prefix_refl p) target)) hq
      cases nd with
      | dir m => exact ⟨m, hnd⟩
      | file i => cases hst
      | link target => cases hst

/-- A directory that `create_directory` is content with is there. -/
theorem createDirectory_arrives (ho : t₀.OpenWay p) {w w' : World}
    (hw : WayKept p t₀ w.state.disk.tree) (hrun : createDirectory p w = (.ok (), w')) :
    w'.state.disk.tree.IsDir p := by
  unfold createDirectory at hrun
  rw [Prog.bind_of_ok (Prog.attempt_apply _ _)] at hrun
  have hkept := Within.act (Makes.mkdir (some p)) _ (makes_keep : Makes.Keep (WayFrom p t₀)) w hw
  rcases hmk : act (Disk.mkdir (some p) 0o777) w with ⟨e | u, w₁⟩
  · rw [hmk] at hrun hkept
    dsimp only at hrun
    obtain ⟨there, w₂, hlook, hstate, -⟩ := (Agrees.look fun d => d.stat (some p)).total w₁
    rw [Prog.bind_of_ok hlook] at hrun
    by_cases hthere : e = .eexist ∧ there.toOption.any (·.isDir) = true
    · rw [if_pos hthere] at hrun
      obtain rfl : w₂ = w' := congrArg Prod.snd hrun
      rw [hstate]
      exact looked_isDir (hkept.openWay ho) hlook hthere.2
    · rw [if_neg hthere] at hrun
      cases hrun
  · rw [hmk] at hrun
    obtain rfl : w₁ = w' := congrArg Prod.snd hrun
    have hok := act_ok hmk
    rcases Disk.mkdir_cases (some p) 0o777 w.state.disk with ⟨e, hf⟩ | ⟨y, hy, -, -, hput, hi, hput'⟩
    · rw [hok] at hf
      cases hf
    · obtain rfl := Disk.find_false_straight (hw.openWay ho).straight_self hy
      rw [hok] at hput'
      have hdisk : w₁.state.disk = _ := congrArg Prod.snd hput'
      rw [hdisk]
      exact ⟨0o777, by simp⟩

/-- **Where `create_directories` succeeds, the way is there.** -/
theorem createDirectories_arrives (ho : t₀.OpenWay p) {w w' : World}
    (hw : WayKept p t₀ w.state.disk.tree) (hrun : createDirectories (some p) w = (.ok (), w')) :
    WayThere p t₀ w'.state.disk := by
  have hkept := createDirectories_makesOnly (some p) _ (makes_keep : Makes.Keep (WayFrom p t₀)) w hw
  rw [hrun] at hkept
  refine ⟨hkept, ?_⟩
  have hloop : ∀ (dirs : List Path) {w : World}, WayKept p t₀ w.state.disk.tree →
      (w.state.disk.tree.IsDir p ∨ p ∈ dirs) → dirs.forM createDirectory w = (.ok (), w') →
        w'.state.disk.tree.IsDir p := by
    intro dirs
    induction dirs with
    | nil =>
        intro w _ hp hrun
        obtain rfl : w = w' := congrArg Prod.snd hrun
        exact hp.resolve_right (by simp)
    | cons q dirs ih =>
        intro w hw hp hrun
        have hfirst := createDirectory_makesOnly q _ (makes_keep : Makes.Keep (WayFrom p t₀)) w hw
        have hgrow := (createDirectory_makesOnly q).adds_of_makes.patches _ (patches_keep ho) w
        change (createDirectory q >>= fun _ => dirs.forM createDirectory) w = _ at hrun
        rcases hq : createDirectory q w with ⟨e | u, w₁⟩
        · rw [Prog.bind_of_error hq] at hrun
          cases hrun
        · rw [Prog.bind_of_ok hq] at hrun
          rw [hq] at hfirst hgrow
          refine ih hfirst ?_ hrun
          rcases hp with hdir | hmem
          · exact Or.inl (hgrow ⟨hw, hdir⟩).2
          · rcases List.mem_cons.1 hmem with rfl | hmem
            · exact Or.inl (createDirectory_arrives ho hw hq)
            · exact Or.inr hmem
  unfold createDirectories at hrun
  dsimp only at hrun
  obtain ⟨r, w₁, hlook, hstate, -⟩ := (Agrees.look fun d => missingDirs d p p.length).total w
  rw [Prog.bind_of_ok hlook] at hrun
  cases r with
  | error e => cases hrun
  | ok dirs =>
      have hw₁ : WayKept p t₀ w₁.state.disk.tree := by rwa [hstate]
      refine hloop dirs hw₁ ?_ hrun
      rw [hstate]
      have hlast := missingDirs_last (hw.openWay ho) p.length (looked_ok hlook)
      rwa [List.take_length] at hlast

/-! ### Where the host lets it -/

/-- A file can be made in `p`, once the missing directories are made. -/
structure Markable (t : Tree) (p : Path) : Prop where
  makeable : Makeable t p
  writable : ∀ m, t.node p = some (.dir m) → Tree.canWrite m = true

/-- The host refuses none of the calls that make `n` directories and then a file. -/
structure World.Lets (w : World) (n : ℕ) : Prop where
  looks : n ≠ 0 → w.blind 0 = none
  acts : ∀ i, i ≤ n → w.fate i = none

theorem missingTo_mono {t t' : Tree} (h : ∀ q, q <+: p → t'.node q = none → t.node q = none) :
    ∀ k, missingTo t' p k ≤ missingTo t p k := by
  intro k
  induction k with
  | zero => exact le_rfl
  | succ k ih =>
      rw [missingTo, missingTo]
      by_cases hlast : t'.node (p.take (k + 1)) = none
      · rw [if_pos hlast, if_pos (h _ (List.take_prefix _ _) hlast)]
        omega
      · rw [if_neg hlast]
        omega

/-- Where none is missing, all are there. -/
theorem ne_none_of_missingTo {t : Tree} :
    ∀ {k : ℕ}, missingTo t p k = 0 → ∀ j, j ≤ k → t.node (p.take j) ≠ none := by
  intro k
  induction k with
  | zero =>
      intro _ j hj
      obtain rfl := Nat.le_zero.1 hj
      obtain ⟨m, hm⟩ := t.root_dir
      simp [hm]
  | succ k ih =>
      intro hcount j hj
      rw [missingTo] at hcount
      rcases Nat.le_succ_iff.1 hj with hj | rfl
      · exact ih (by omega) j hj
      · intro hnone
        rw [if_pos hnone] at hcount
        omega

theorem missingTo_kept {t : Tree} (h : WayKept p t₀ t) (k : ℕ) :
    missingTo t p k ≤ missingTo t₀ p k :=
  missingTo_mono (fun _ hq => h.lacked hq) k

theorem Markable.kept {t : Tree} (hm : Markable t₀ p) (h : WayKept p t₀ t) : Markable t p where
  makeable :=
    { way := h.openWay hm.makeable.way
      writable := fun q n m hq hnone hdir => by
        rcases h.was ((List.prefix_append _ _).trans hq) hdir with hwas | hmade
        · exact hm.makeable.writable q n m hq (h.lacked hq hnone) hwas
        · obtain rfl := Node.dir.inj hmade
          exact full_777.2.1 }
  writable m hdir := by
    rcases h.was (List.prefix_refl p) hdir with hwas | hmade
    · exact hm.writable m hwas
    · obtain rfl := Node.dir.inj hmade
      exact full_777.2.1

theorem Made.wayKept {t : Tree} (h : Made t₀ p t) : WayKept p t₀ t := by
  intro q hq
  rw [h q]
  by_cases hnone : t₀.node q = none
  · rw [if_pos ⟨hq, hnone⟩]
    exact Or.inr ⟨hnone, rfl⟩
  · rw [if_neg fun hc => hnone hc.2]
    exact Or.inl rfl

/-- **Where the host lets it, the missing directories are made**, and the host lets one call more
through. -/
theorem createDirectories_let {w : World} {n : ℕ} (h : Makeable w.state.disk.tree p)
    (hn : missingTo w.state.disk.tree p p.length ≤ n) (hlet : w.Lets n) :
    WayThere p w.state.disk.tree (createDirectories (some p) w).2.state.disk ∧
      (createDirectories (some p) w).2.fate 0 = none := by
  obtain ⟨s, fate, blind⟩ := w
  obtain ⟨dirs, d', hdirs, hlen, hrun, hmade, -⟩ := missingDirs_makes (s := s) h p.length le_rfl
  rw [List.take_length] at hmade
  have hthere : WayThere p s.disk.tree d' :=
    ⟨hmade.wayKept, hmade.isDir ((h.way p (List.prefix_refl p)).imp_right fun ho => ho.isDir)⟩
  have hlens : dirs.length ≤ n := hlen.trans hn
  have hacts : ∀ i, i ≤ n → fate i = none := hlet.acts
  unfold createDirectories
  dsimp only
  cases hblind : blind 0 with
  | none =>
      rw [Prog.bind_of_ok (look_let _ hblind)]
      dsimp only
      rw [hdirs]
      dsimp only
      rw [hrun _ _ fun i hi => hacts i (by omega)]
      exact ⟨hthere, by simpa using hacts dirs.length hlens⟩
  | some e =>
      -- where the look is refused nothing is missing
      rw [Prog.bind_of_ok (look_refused _ hblind)]
      refine ⟨⟨WayKept.refl p _, ?_⟩, hacts 0 (Nat.zero_le n)⟩
      have hzero : n = 0 := by
        by_contra hne
        rw [show blind 0 = none from hlet.looks hne] at hblind
        cases hblind
      have hp := ne_none_of_missingTo (Nat.le_zero.1 (hzero ▸ hn)) p.length le_rfl
      rw [List.take_length] at hp
      exact ((h.way p (List.prefix_refl p)).resolve_left hp).isDir

end VidyaGodFS
