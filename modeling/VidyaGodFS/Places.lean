/-
**The places of a mount, and calls made aside.**

What a mount shows of the host lies at a few places: the writelayer, and the sources of its folders
and files.  Where these lie apart, the host path of a name in one of them is neither at nor above
that of a name in another.  A call that is made at a path beside some others, with no link to lead
it astray, changes nothing of what these lead to.

Main definitions:

* `Tree.Linkless`, `Tree.Gives` — a path without links, and the node it leads to;
* `Sighted` — changes of a tree after which the paths of a set lead to what they led to;
* `Aside`, `CallsAside` — paths beside a set, and the calls made there;
* `Place`, `Mount.Apart` — the places of a mount, and that they lie apart.

Main results:

* `callsAside_keep`, `rename_sighted` — **calls beside a set of paths leave them as they are**;
* `Mount.Apart.le` — a host path at or above that of a name is of the same place.
-/

import VidyaGodFS.Ground
import VidyaGodFS.Spared

set_option relaxedAutoImplicit false
set_option autoImplicit false

namespace Posix

namespace Tree

variable {t t' t₀ : Tree} {p q : Path} {nd : Node}

/-! ### Paths without links -/

/-- No link lies at `p` or on the way to it. -/
def Linkless (t : Tree) (p : Path) : Prop := ∀ q, q <+: p → ∀ target, t.node q ≠ some (.link target)

/-- The path leads to itself, where the node is. -/
def Gives (t : Tree) (p : Path) (nd : Node) : Prop := t.locate false p = .ok p ∧ t.node p = some nd

theorem Linkless.of_le (h : t.Linkless p) (hq : q <+: p) : t.Linkless q := fun r hr => h r (hr.trans hq)

/-- A path without links leads to itself, if it leads anywhere. -/
theorem Linkless.locate_eq (h : t.Linkless p) {follow : Bool} (hq : t.locate follow p = .ok q) :
    q = p := by
  rw [Tree.locate, locateFrom] at hq
  rcases @walk_linkless t follow p [] (fun q hq => h q hq) with hw | ⟨e, hw⟩
  · rw [hw, List.nil_append] at hq
    exact (Except.ok.inj hq).symm
  · rw [hw] at hq
    cases hq

/-- Where the nodes on the way are the same, a walk is the same up to its first link. -/
theorem walk_congr {follow : Bool} :
    ∀ (rest : List Name) (cur : Path), (∀ q, q <+: cur ++ rest → t'.node q = t.node q) →
      t'.walk follow cur (rest.map .name) = t.walk follow cur (rest.map .name) := by
  intro rest
  induction rest with
  | nil => exact fun _ _ => rfl
  | cons n rest ih =>
      intro cur hsame
      have happ : cur ++ n :: rest = (cur ++ [n]) ++ rest := by simp
      have hmode : t'.dirMode cur = t.dirMode cur := by
        rw [dirMode, dirMode, hsame cur (List.prefix_append _ _)]
      rw [happ] at hsame
      have hnode : t'.node (cur ++ [n]) = t.node (cur ++ [n]) := hsame _ (List.prefix_append _ _)
      rw [List.map_cons, walk, walk, hmode, hnode, ih (cur ++ [n]) hsame]

theorem gives_congr (h : t.Linkless p) (hsame : ∀ q, q <+: p → t'.node q = t.node q) :
    t'.Gives p nd ↔ t.Gives p nd := by
  have hlocate : t'.locate false p = t.locate false p := by
    have hwalk : t'.walk false [] (p.map .name) = t.walk false [] (p.map .name) :=
      walk_congr p [] hsame
    rw [locate, locate, locateFrom, locateFrom, hwalk]
    rcases @walk_linkless t false p [] (fun q hq => h q hq) with hw | ⟨e, hw⟩
    · rw [hw]
    · rw [hw]
  rw [Gives, Gives, hlocate, hsame p (List.prefix_refl p)]

theorem not_gives (h : t.node p = none) : ¬ t.Gives p nd := fun hg => by
  rw [hg.2] at h
  cases h

theorem gives_put {new : Node} (h : t.CanPut q new) (hnone : t.node q = none) (hp : t.Linkless p)
    (hne : q ≠ p) : (t.put q new h).Gives p nd ↔ t.Gives p nd := by
  by_cases hle : q <+: p
  · have hbelow : t.node p = none := t.node_eq_none_below hnone hle
    exact iff_of_false (not_gives (by rw [put_node, if_neg hne.symm, hbelow])) (not_gives hbelow)
  · refine gives_congr hp fun r hr => ?_
    rw [put_node, if_neg]
    rintro rfl
    exact hle hr

theorem gives_erase (h : t.CanErase q) (hp : t.Linkless p) (hne : q ≠ p) :
    (t.erase q h).Gives p nd ↔ t.Gives p nd := by
  by_cases hle : q <+: p
  · have hbelow : t.node p = none := node_eq_none_of_children h.2 hle hne
    exact iff_of_false (not_gives (by rw [erase_node, if_neg hne.symm, hbelow])) (not_gives hbelow)
  · refine gives_congr hp fun r hr => ?_
    rw [erase_node, if_neg]
    rintro rfl
    exact hle hr

theorem gives_move {a b : Path} (h : t.CanMove a b) (hp : t.Linkless p) (ha : ¬ a <+: p)
    (hb : ¬ b <+: p) : (t.move a b h).Gives p nd ↔ t.Gives p nd :=
  gives_congr hp fun r hr => by
    rw [move_node, if_neg fun hc => hb (hc.trans hr), if_neg fun hc => ha (hc.trans hr)]

end Tree

/-! ### Changes beside a set of paths -/

/-- From `t₀` to `t` the paths in `P` have led to the same nodes, and no link has been added. -/
structure Sighted (P : Path → Prop) (t₀ t : Tree) : Prop where
  gives : ∀ p, P p → ∀ nd, t.Gives p nd ↔ t₀.Gives p nd
  links : ∀ q target, t.node q = some (.link target) → t₀.node q = some (.link target)

/-- The path lies beside those in `P`, and no link lies on it. -/
structure Aside (P : Path → Prop) (t₀ : Tree) (q : Path) : Prop where
  linkless : t₀.Linkless q
  out : ¬ P q

namespace Sighted

variable {P : Path → Prop} {t₀ t t' : Tree} {p q : Path}

theorem refl (P : Path → Prop) (t : Tree) : Sighted P t t := ⟨fun _ _ _ => Iff.rfl, fun _ _ h => h⟩

theorem linkless (h : Sighted P t₀ t) (hp : t₀.Linkless p) : t.Linkless p :=
  fun q hq target hlink => hp q hq target (h.links q target hlink)

theorem put {nd : Node} (h : Sighted P t₀ t) (hP : ∀ p, P p → t₀.Linkless p) (hout : ¬ P q)
    (hput : t.CanPut q nd) (hnone : t.node q = none) (hnd : ∀ target, nd ≠ .link target) :
    Sighted P t₀ (t.put q nd hput) where
  gives p hp nd' := (Tree.gives_put hput hnone (h.linkless (hP p hp)) (by rintro rfl; exact hout hp)).trans
    (h.gives p hp nd')
  links r target hr := by
    rw [Tree.put_node] at hr
    by_cases hrq : r = q
    · rw [if_pos hrq] at hr
      exact absurd (Option.some_inj.1 hr) (hnd target)
    · rw [if_neg hrq] at hr
      exact h.links r target hr

theorem erase (h : Sighted P t₀ t) (hP : ∀ p, P p → t₀.Linkless p) (hout : ¬ P q)
    (herase : t.CanErase q) : Sighted P t₀ (t.erase q herase) where
  gives p hp nd := (Tree.gives_erase herase (h.linkless (hP p hp)) (by rintro rfl; exact hout hp)).trans
    (h.gives p hp nd)
  links r target hr := by
    rw [Tree.erase_node] at hr
    by_cases hrq : r = q
    · rw [if_pos hrq] at hr
      cases hr
    · rw [if_neg hrq] at hr
      exact h.links r target hr

/-- A move of what holds no link, from elsewhere to elsewhere. -/
theorem move {a b : Path} (h : Sighted P t₀ t) (hP : ∀ p, P p → t₀.Linkless p)
    (hmove : t.CanMove a b) (ha : ∀ p, P p → ¬ a <+: p) (hb : ∀ p, P p → ¬ b <+: p)
    (hlinks : ∀ r target, t₀.node (a ++ r) ≠ some (.link target)) :
    Sighted P t₀ (t.move a b hmove) where
  gives p hp nd := (Tree.gives_move hmove (h.linkless (hP p hp)) (ha p hp) (hb p hp)).trans
    (h.gives p hp nd)
  links r target hr := by
    rw [Tree.move_node] at hr
    split_ifs at hr
    · exact absurd (h.links _ target hr) (hlinks _ target)
    · exact h.links r target hr

end Sighted

end Posix

namespace VidyaGodFS

open Posix

variable {M : Mount} {P : Path → Prop} {t₀ : Tree}

/-- The calls that are made beside the paths in `P`. -/
inductive CallsAside (P : Path → Prop) (t₀ : Tree) : Calls
  | quiet {α : Type} {call : Call α} : Quiet call → CallsAside P t₀ call
  | mkdir {q : Path} (mode : ℕ) : Aside P t₀ q → CallsAside P t₀ (Disk.mkdir (some q) mode)
  | open_ {q : Path} (fl : OpenFlags) (mode : ℕ) :
      Aside P t₀ q → CallsAside P t₀ (Disk.open (some q) fl mode)
  | unlink {q : Path} : Aside P t₀ q → CallsAside P t₀ (Disk.unlink (some q))

/-- **Calls beside a set of paths leave them as they are.** -/
theorem callsAside_keep (hP : ∀ p, P p → t₀.Linkless p) :
    (CallsAside P t₀).Keep fun d => Sighted P t₀ d.tree := by
  intro α call hcall d hd
  have hfailed : ∀ {β : Type} {r : Except Errno β × Disk}, Disk.Failed r d →
      Sighted P t₀ r.2.tree := by
    rintro β r ⟨e, rfl⟩
    exact hd
  cases hcall with
  | quiet hq =>
      rw [hq d]
      exact hd
  | mkdir mode hq =>
      rcases Disk.mkdir_cases (some _) mode d with hf | ⟨y, hy, hnone, -, hput, hi, hrun⟩
      · exact hfailed hf
      · obtain rfl := (hd.linkless hq.linkless).locate_eq hy
        rw [hrun]
        exact hd.put hP hq.out hput hnone nofun
  | open_ fl mode hq =>
      rcases Disk.open_cases (some _) fl mode d with
        hf | ⟨y, hy, ⟨hnone, -, -, hput, hrun⟩ | ⟨i, -, hrun⟩ | ⟨-, hrun⟩⟩
      · exact hfailed hf
      · obtain rfl := (hd.linkless hq.linkless).locate_eq hy
        rw [hrun]
        exact hd.put hP hq.out hput hnone nofun
      · rw [hrun]
        cases fl.trunc <;> exact hd
      · rw [hrun]
        exact hd
  | unlink hq =>
      rcases Disk.unlink_cases (some _) d with hf | ⟨y, nd, hy, -, -, -, herase, hrun⟩
      · exact hfailed hf
      · obtain rfl := (hd.linkless hq.linkless).locate_eq hy
        rw [hrun]
        exact hd.erase hP hq.out herase

/-- **A move from elsewhere to elsewhere.** -/
theorem rename_sighted (hP : ∀ p, P p → t₀.Linkless p) {d : Disk} (hd : Sighted P t₀ d.tree)
    {a b : Path} (hla : t₀.Linkless a) (hlb : t₀.Linkless b)
    (ha : ∀ p, P p → ¬ a <+: p) (hb : ∀ p, P p → ¬ b <+: p)
    (hlinks : ∀ r target, t₀.node (a ++ r) ≠ some (.link target)) :
    Sighted P t₀ (Disk.rename (some a) (some b) d).2.tree := by
  rcases Disk.rename_cases (some a) (some b) d with
    ⟨e, hf⟩ | ⟨x, y, hx, hy, ⟨-, -, hrun⟩ | ⟨-, -, -, hmove, hrun⟩⟩
  · rw [hf]
    exact hd
  · rw [hrun]
    exact hd
  · obtain rfl := (hd.linkless hla).locate_eq hx
    obtain rfl := (hd.linkless hlb).locate_eq hy
    rw [hrun]
    exact hd.move hP hmove ha hb hlinks

/-! ### The places of a mount -/

/-- A place where files are: the writelayer, or the source of a layer. -/
abbrev Place : Type := Option Layer

namespace Mount

variable (M : Mount)

def IsPlace : Place → Prop
  | none => M.writelayer ≠ none
  | some L => L ∈ M.layers ∧ (L.isDirLayer = true ∨ L.isFileLayer = true)

/-- The host path of a name at a place that has it. -/
def hostAt : Place → Path → HostPath
  | none, v => M.wlPath v
  | some L, v => if L.isFileLayer then L.source else layerHost L v

/-- The host path that a place begins at. -/
def rootOf : Place → HostPath
  | none => M.writelayer
  | some L => if L.isFileLayer then L.source else layerHost L L.target

end Mount

namespace Place

/-- The name lies at the place. -/
def Has (o : Place) (v : Path) : Prop :=
  match o with
  | none => True
  | some L => layerCovers L v = true

/-- How the name goes on from the place's own. -/
def tail (o : Place) (v : Path) : Path :=
  match o with
  | none => v
  | some L => if L.isFileLayer then [] else relUnder L v

end Place

theorem relUnder_append {L : Layer} (hfile : L.isFileLayer = false) {v : Path}
    (hcov : layerCovers L v = true) : L.target ++ relUnder L v = v := by
  rw [layerCovers, if_neg (by simp [hfile])] at hcov
  obtain ⟨r, rfl⟩ := List.isPrefixOf_iff_prefix.1 hcov
  rw [relUnder, List.drop_left]

theorem Place.le_of_tail {o : Place} {v u : Path} (hv : o.Has v) (hu : o.Has u)
    (h : o.tail v <+: o.tail u) : v <+: u := by
  cases o with
  | none => exact h
  | some L =>
      unfold Place.Has at hv hu
      unfold Place.tail at h
      dsimp only at hv hu h
      cases hfile : L.isFileLayer with
      | true =>
          rw [layerCovers, if_pos hfile] at hv hu
          obtain rfl := of_decide_eq_true hv
          obtain rfl := of_decide_eq_true hu
          exact List.prefix_refl _
      | false =>
          rw [if_neg (by simp [hfile]), if_neg (by simp [hfile])] at h
          rw [← relUnder_append hfile hv, ← relUnder_append hfile hu]
          exact (List.prefix_append_right_inj _).2 h

theorem join_eq_append {p : HostPath} {a r : Path} (h : p.join a = some r) (b : Path) :
    p.join (a ++ b) = some (r ++ b) := by
  rw [join_append, h]
  rfl

theorem hostAt_eq {o : Place} {r : Path} (h : M.rootOf o = some r) (v : Path) :
    M.hostAt o v = some (r ++ o.tail v) := by
  cases o with
  | none =>
      change M.writelayer.join v = _
      rw [show M.writelayer = some r from h]
      rfl
  | some L =>
      unfold Mount.rootOf at h
      unfold Mount.hostAt Place.tail
      dsimp only at h ⊢
      cases hfile : L.isFileLayer with
      | true =>
          rw [hfile, if_pos rfl] at h
          rw [if_pos rfl, if_pos rfl, h, List.append_nil]
      | false =>
          rw [hfile, if_neg Bool.false_ne_true] at h
          rw [if_neg Bool.false_ne_true, if_neg Bool.false_ne_true]
          refine join_eq_append (a := L.subpath) ?_ _
          have hroot : sourceRel L L.target = L.subpath := by
            rw [sourceRel, relUnder, List.drop_length, List.append_nil]
          rw [layerHost, hroot] at h
          exact h

variable (M) in
/-- Each place begins somewhere, and no two lie one in the other. -/
structure Mount.Apart : Prop where
  root : ∀ o, M.IsPlace o → ∃ r, M.rootOf o = some r
  apart : ∀ o o' r r', M.IsPlace o → M.IsPlace o' → M.rootOf o = some r → M.rootOf o' = some r' →
    r <+: r' → o = o'

namespace Mount.Apart

variable {o o' : Place} {v u q q' : Path}

/-- **A host path at or above that of a name is of the same place**, and of a name at or above. -/
theorem le (h : M.Apart) (ho : M.IsPlace o) (ho' : M.IsPlace o') (hv : o.Has v) (hu : o'.Has u)
    (hq : M.hostAt o v = some q) (hq' : M.hostAt o' u = some q') (hle : q <+: q') :
    o = o' ∧ v <+: u := by
  obtain ⟨r, hr⟩ := h.root o ho
  obtain ⟨r', hr'⟩ := h.root o' ho'
  obtain rfl := Option.some_inj.1 ((hostAt_eq hr v).symm.trans hq)
  obtain rfl := Option.some_inj.1 ((hostAt_eq hr' u).symm.trans hq')
  have hsame : o = o' := by
    rcases List.prefix_or_prefix_of_prefix ((List.prefix_append r _).trans hle)
      (List.prefix_append r' _) with hrr | hrr
    · exact h.apart o o' r r' ho ho' hr hr' hrr
    · exact (h.apart o' o r' r ho' ho hr' hr hrr).symm
  subst hsame
  obtain rfl := Option.some_inj.1 (hr.symm.trans hr')
  exact ⟨rfl, Place.le_of_tail hv hu ((List.prefix_append_right_inj r).1 hle)⟩

theorem host (h : M.Apart) (ho : M.IsPlace o) (v : Path) : ∃ q, M.hostAt o v = some q := by
  obtain ⟨r, hr⟩ := h.root o ho
  exact ⟨_, hostAt_eq hr v⟩

end Mount.Apart

end VidyaGodFS
