/-
**Calls on straight paths.**

A path is straight when nothing but directories that can be walked through lies on its way, as far as
there is anything.  On a straight path a call works at the very place the path names, so what it does
can be read off the tree.

Main definitions:

* `Tree.Straight` — straight paths;
* `Full` — the mode of a directory that its owner can do anything with;
* `Tree.Grows` — a tree that only gained entries.

Main results:

* `Tree.Straight.locate` — a straight path leads where it says, or nowhere;
* `Disk.mkdir_straight`, `Disk.open_straight`, `Disk.unlink_straight` — the calls that succeed there;
* `Tree.locate_grows` — a path that leads to an entry leads there in a larger tree as well;
* `Tree.locate_follow` — a path that leads to no link leads there whether links are followed or not.
-/

import VidyaGodFS.Disk

set_option relaxedAutoImplicit false
set_option autoImplicit false

namespace Posix

/-- All of the owner's permissions. -/
def Full (mode : ℕ) : Prop :=
  Tree.canRead mode = true ∧ Tree.canWrite mode = true ∧ Tree.canSearch mode = true

instance (mode : ℕ) : Decidable (Full mode) := inferInstanceAs (Decidable (_ ∧ _ ∧ _))

namespace Tree

variable {t t' : Tree} {p q : Path}

/-- Nothing but directories that can be walked through lies on the way to `p`. -/
def Straight (t : Tree) (p : Path) : Prop :=
  ∀ q, q <+: p → q ≠ p → t.node q = none ∨ t.IsOpenDir q

theorem Straight.of_le (h : t.Straight p) (hq : q <+: p) : t.Straight q :=
  fun r hr hne => h r (hr.trans hq) fun he => hne (hr.eq_of_length_le (he ▸ hq.length_le))

/-- Either the whole way is there, or it breaks off at a first missing directory. -/
theorem Straight.way (h : t.Straight p) :
    (∀ q, q <+: p → q ≠ p → t.IsOpenDir q) ∨
      ∃ q, q <+: p ∧ q ≠ p ∧ t.node q = none ∧ ∀ r, r <+: q → r ≠ q → t.IsOpenDir r := by
  induction p using List.reverseRecOn with
  | nil => exact Or.inl fun q hq hne => absurd (List.prefix_nil.1 hq) hne
  | append_singleton p n ih =>
      have hpn : p <+: p ++ [n] := List.prefix_append _ _
      have hne : p ≠ p ++ [n] := (append_singleton_ne p n).symm
      rcases ih (h.of_le hpn) with hall | ⟨q, hq, hqp, hnone, hall⟩
      · rcases h p hpn hne with hnone | hopen
        · exact Or.inr ⟨p, hpn, hne, hnone, hall⟩
        · refine Or.inl fun q hq hqne => ?_
          rcases List.prefix_concat_iff.1 hq with rfl | hq
          · exact absurd rfl hqne
          · by_cases hqp : q = p
            · rw [hqp]
              exact hopen
            · exact hall q hq hqp
      · refine Or.inr ⟨q, hq.trans hpn, ?_, hnone, hall⟩
        rintro rfl
        exact not_append_singleton_le p n hq

/-- **A straight path leads where it says, or nowhere.** -/
theorem Straight.locate (h : t.Straight p) {follow : Bool}
    (hlink : ∀ target, t.node p = some (.link target) → follow = false) :
    t.locate follow p = .ok p ∨ (t.locate follow p = .error .enoent ∧ t.node p = none) := by
  rcases h.way with hall | ⟨q, hq, hne, hnone, hall⟩
  · exact Or.inl (locate_of_plain hall hlink)
  · exact Or.inr ⟨locate_of_missing hall hnone hq hne, node_eq_none_below hnone hq⟩

theorem Straight.locate_of_node (h : t.Straight p) {follow : Bool} {nd : Node}
    (hp : t.node p = some nd)
    (hlink : ∀ target, t.node p = some (.link target) → follow = false) :
    t.locate follow p = .ok p := by
  rcases h.locate hlink with hok | ⟨-, hnone⟩
  · exact hok
  · rw [hp] at hnone
    cases hnone

/-- Below a directory a straight path leads where it says, whether it has an entry or not. -/
theorem Straight.locate_of_parent (h : t.Straight p) (hp : p ≠ []) (hpar : t.IsDir p.dropLast)
    {follow : Bool} (hlink : ∀ target, t.node p = some (.link target) → follow = false) :
    t.locate follow p = .ok p := by
  refine locate_of_plain (fun q hq hne => ?_) hlink
  rcases h q hq hne with hnone | hopen
  · obtain ⟨n, hn⟩ := eq_dropLast_append hp
    have hqp : q <+: p.dropLast := by
      rw [hn] at hq
      rcases List.prefix_concat_iff.1 hq with he | hq
      · exact absurd (he.trans hn.symm) hne
      · exact hq
    exact absurd (node_eq_none_below hnone hqp) hpar.ne_none
  · exact hopen

/-! ### Trees that gained entries -/

/-- The entries of `t` are in `t'`, as they were. -/
def Grows (t t' : Tree) : Prop := ∀ p nd, t.node p = some nd → t'.node p = some nd

theorem Grows.refl (t : Tree) : t.Grows t := fun _ _ h => h

theorem Grows.trans {t'' : Tree} (h : t.Grows t') (h' : t'.Grows t'') : t.Grows t'' :=
  fun p nd hp => h' p nd (h p nd hp)

theorem Grows.isDir (h : t.Grows t') (hp : t.IsDir p) : t'.IsDir p := by
  obtain ⟨m, hm⟩ := hp
  exact ⟨m, h p _ hm⟩

theorem Grows.isOpenDir (h : t.Grows t') (hp : t.IsOpenDir p) : t'.IsOpenDir p := by
  obtain ⟨m, hm, hs⟩ := hp
  exact ⟨m, h p _ hm, hs⟩

/-- Putting an entry where there was none. -/
theorem grows_put {nd : Node} (h : t.CanPut p nd) (hp : t.node p = none) :
    t.Grows (t.put p nd h) := by
  intro q nd' hq
  rw [put_node, if_neg]
  · exact hq
  · rintro rfl
    rw [hp] at hq
    cases hq

/-- The directory a walk is in, as a walk sees it. -/
theorem Grows.canSearch_dirMode (h : t.Grows t') (hs : canSearch (t.dirMode p) = true) :
    canSearch (t'.dirMode p) = true := by
  unfold dirMode at hs ⊢
  cases hp : t.node p with
  | none =>
      rw [hp] at hs
      simp [canSearch] at hs
  | some nd =>
      rw [hp] at hs
      rw [h p nd hp]
      exact hs

/-- A walk goes the same way in a larger tree, unless it ends where there was nothing. -/
theorem walk_grows (h : t.Grows t') {follow : Bool} :
    ∀ (rest : List Step) (cur : Path),
      (∀ q, t.walk follow cur rest = .arrived q → t.node q ≠ none →
        t'.walk follow cur rest = .arrived q) ∧
      ∀ c target r, t.walk follow cur rest = .jump c target r →
        t'.walk follow cur rest = .jump c target r := by
  intro rest
  induction rest with
  | nil =>
      refine fun cur => ⟨fun q hq _ => hq, fun c target r hq => ?_⟩
      cases hq
  | cons step rest ih =>
      intro cur
      by_cases hs : canSearch (t.dirMode cur) = true
      · have hs' := h.canSearch_dirMode hs
        cases step with
        | up =>
            rw [walk, walk, if_pos hs, if_pos hs']
            exact ih _
        | name n =>
            rw [walk, walk, if_pos hs, if_pos hs']
            cases hnode : t.node (cur ++ [n]) with
            | none =>
                dsimp only
                by_cases hrest : rest = []
                · rw [if_pos hrest]
                  refine ⟨fun q hq hne => ?_, fun c target r hq => by cases hq⟩
                  obtain rfl : cur ++ [n] = q := by simpa using hq
                  exact absurd hnode hne
                · rw [if_neg hrest]
                  exact ⟨fun q hq => (by cases hq), fun c target r hq => (by cases hq)⟩
            | some nd =>
                rw [h _ nd hnode]
                cases nd with
                | dir m => exact ih _
                | file i => exact ⟨fun q hq _ => hq, fun c target r hq => hq⟩
                | link target => exact ⟨fun q hq _ => hq, fun c target' r hq => hq⟩
      · have hstuck : t.walk follow cur (step :: rest) = .stuck .eacces := by
          cases step <;> rw [walk, if_neg hs]
        rw [hstuck]
        exact ⟨fun q hq => (by cases hq), fun c target r hq => (by cases hq)⟩

theorem locateFrom_grows (h : t.Grows t') {follow : Bool} :
    ∀ (fuel : ℕ) (cur : Path) (steps : List Step),
      t.locateFrom follow fuel cur steps = .ok q → t.node q ≠ none →
      t'.locateFrom follow fuel cur steps = .ok q := by
  intro fuel
  induction fuel with
  | zero => intro cur steps hq; cases hq
  | succ fuel ih =>
      intro cur steps hq hne
      rw [locateFrom] at hq ⊢
      cases hw : t.walk follow cur steps with
      | arrived p =>
          rw [hw] at hq
          obtain rfl : p = q := by simpa using hq
          rw [(walk_grows h steps cur).1 p hw hne]
      | stuck e =>
          rw [hw] at hq
          cases hq
      | jump c target rest =>
          rw [hw] at hq
          rw [(walk_grows h steps cur).2 c target rest hw]
          exact ih _ _ hq hne

/-- **A path that leads to an entry leads there in a larger tree as well.** -/
theorem locate_grows (h : t.Grows t') {follow : Bool} (hq : t.locate follow p = .ok q)
    (hne : t.node q ≠ none) : t'.locate follow p = .ok q :=
  locateFrom_grows h _ _ _ hq hne

/-- A walk goes the same way in a larger tree, also to a file or a directory that is new there. -/
theorem walk_grows_end (h : t.Grows t') {follow : Bool}
    (hq : ∀ target, t'.node q ≠ some (.link target)) :
    ∀ (rest : List Step) (cur : Path), t.walk follow cur rest = .arrived q →
      t'.walk follow cur rest = .arrived q := by
  intro rest
  induction rest with
  | nil => exact fun cur hw => hw
  | cons step rest ih =>
      intro cur hw
      by_cases hs : canSearch (t.dirMode cur) = true
      · have hs' := h.canSearch_dirMode hs
        cases step with
        | up =>
            rw [walk, if_pos hs] at hw
            rw [walk, if_pos hs']
            exact ih _ hw
        | name n =>
            rw [walk, if_pos hs] at hw
            rw [walk, if_pos hs']
            cases hnode : t.node (cur ++ [n]) with
            | none =>
                rw [hnode] at hw
                dsimp only at hw
                by_cases hrest : rest = []
                · subst hrest
                  rw [if_pos rfl] at hw
                  obtain rfl : cur ++ [n] = q := by simpa using hw
                  cases hnew : t'.node (cur ++ [n]) with
                  | none => exact if_pos rfl
                  | some nd =>
                      cases nd with
                      | dir m => rfl
                      | file i => exact if_pos rfl
                      | link target => exact absurd hnew (hq target)
                · rw [if_neg hrest] at hw
                  cases hw
            | some nd =>
                rw [hnode] at hw
                rw [h _ nd hnode]
                cases nd with
                | dir m => exact ih _ hw
                | file j => exact hw
                | link target => exact hw
      · cases step <;> rw [walk, if_neg hs] at hw <;> cases hw

/-- A path leads there also where a file or a directory is new at its end. -/
theorem locate_grows_end (h : t.Grows t') {follow : Bool} (hp : t.locate follow p = .ok q)
    (hq : ∀ target, t'.node q ≠ some (.link target)) : t'.locate follow p = .ok q := by
  have hfrom : ∀ (fuel : ℕ) (cur : Path) (steps : List Step),
      t.locateFrom follow fuel cur steps = .ok q → t'.locateFrom follow fuel cur steps = .ok q := by
    intro fuel
    induction fuel with
    | zero => intro cur steps hl; cases hl
    | succ fuel ih =>
        intro cur steps hl
        rw [locateFrom] at hl ⊢
        cases hw : t.walk follow cur steps with
        | arrived p' =>
            rw [hw] at hl
            obtain rfl : p' = q := by simpa using hl
            rw [walk_grows_end h hq steps cur hw]
        | stuck e =>
            rw [hw] at hl
            cases hl
        | jump c target rest =>
            rw [hw] at hl
            rw [(walk_grows h steps cur).2 c target rest hw]
            exact ih _ _ hl
  exact hfrom _ _ _ hp

/-! ### Links at the end -/

/-- A walk that follows links, links not followed: the same way, or it ends at the last link. -/
theorem walk_unfollow :
    ∀ (rest : List Step) (cur : Path),
      (∀ q, t.walk true cur rest = .arrived q → t.walk false cur rest = .arrived q) ∧
      ∀ c target r, t.walk true cur rest = .jump c target r →
        t.walk false cur rest = .jump c target r ∨
          ∃ q, t.walk false cur rest = .arrived q ∧ t.node q ≠ none := by
  intro rest
  induction rest with
  | nil => exact fun cur => ⟨fun q hq => hq, by rintro _ _ _ ⟨⟩⟩
  | cons step rest ih =>
      intro cur
      by_cases hs : canSearch (t.dirMode cur) = true
      · cases step with
        | up =>
            rw [walk, walk, if_pos hs, if_pos hs]
            exact ih _
        | name n =>
            rw [walk, walk, if_pos hs, if_pos hs]
            cases hnode : t.node (cur ++ [n]) with
            | none => exact ⟨fun q hq => hq, fun c target r hq => Or.inl hq⟩
            | some nd =>
                cases nd with
                | dir m => exact ih _
                | file i => exact ⟨fun q hq => hq, fun c target r hq => Or.inl hq⟩
                | link target =>
                    dsimp only
                    rw [if_neg (by simp)]
                    refine ⟨by rintro _ ⟨⟩, fun c target' r hq => ?_⟩
                    by_cases hrest : rest = []
                    · rw [if_pos ⟨hrest, rfl⟩]
                      exact Or.inr ⟨_, rfl, by simp [hnode]⟩
                    · rw [if_neg (fun h => hrest h.1)]
                      exact Or.inl hq
      · cases step <;> rw [walk, walk, if_neg hs, if_neg hs] <;>
          exact ⟨by rintro _ ⟨⟩, by rintro _ _ _ ⟨⟩⟩

/-- A path that leads somewhere is there itself, links not followed. -/
theorem locate_unfollow (h : t.locate true p = .ok q) :
    ∃ q', t.locate false p = .ok q' ∧ (q' = q ∨ t.node q' ≠ none) := by
  have hfrom : ∀ (fuel : ℕ) (cur : Path) (steps : List Step),
      t.locateFrom true fuel cur steps = .ok q →
        ∃ q', t.locateFrom false fuel cur steps = .ok q' ∧ (q' = q ∨ t.node q' ≠ none) := by
    intro fuel
    induction fuel with
    | zero => intro cur steps hl; cases hl
    | succ fuel ih =>
        intro cur steps hl
        rw [locateFrom] at hl ⊢
        cases hw : t.walk true cur steps with
        | arrived p' =>
            rw [hw] at hl
            obtain rfl : p' = q := by simpa using hl
            rw [(walk_unfollow steps cur).1 p' hw]
            exact ⟨p', rfl, Or.inl rfl⟩
        | stuck e =>
            rw [hw] at hl
            cases hl
        | jump c target rest =>
            rw [hw] at hl
            rcases (walk_unfollow steps cur).2 c target rest hw with hw' | ⟨q', hw', hnode⟩
            · rw [hw']
              exact ih _ _ hl
            · rw [hw']
              exact ⟨q', rfl, Or.inr hnode⟩
  exact hfrom _ _ _ h

/-- A walk that does not end in a link, links not followed, is the walk that follows them. -/
theorem walk_follow :
    ∀ (rest : List Step) (cur : Path),
      (∀ q, t.walk false cur rest = .arrived q → (∀ target, t.node q ≠ some (.link target)) →
        t.walk true cur rest = .arrived q) ∧
      ∀ c target r, t.walk false cur rest = .jump c target r →
        t.walk true cur rest = .jump c target r := by
  intro rest
  induction rest with
  | nil => exact fun cur => ⟨fun q hq _ => hq, fun c target r hq => hq⟩
  | cons step rest ih =>
      intro cur
      by_cases hs : canSearch (t.dirMode cur) = true
      · cases step with
        | up =>
            rw [walk, walk, if_pos hs, if_pos hs]
            exact ih _
        | name n =>
            rw [walk, walk, if_pos hs, if_pos hs]
            cases hnode : t.node (cur ++ [n]) with
            | none => exact ⟨fun q hq _ => hq, fun c target r hq => hq⟩
            | some nd =>
                cases nd with
                | dir m => exact ih _
                | file i => exact ⟨fun q hq _ => hq, fun c target r hq => hq⟩
                | link target =>
                    dsimp only
                    by_cases hrest : rest = []
                    · rw [if_pos ⟨hrest, rfl⟩]
                      refine ⟨fun q hq hlink => ?_, fun c target r hq => by cases hq⟩
                      obtain rfl : cur ++ [n] = q := by simpa using hq
                      exact absurd hnode (hlink target)
                    · rw [if_neg (fun h => hrest h.1), if_neg (fun h => hrest h.1)]
                      exact ⟨fun q hq _ => hq, fun c target r hq => hq⟩
      · cases step <;> rw [walk, walk, if_neg hs, if_neg hs] <;>
          exact ⟨fun q hq _ => hq, fun c target r hq => hq⟩

/-- **A path that does not lead to a link, links not followed, leads there with links followed.** -/
theorem locate_follow (h : t.locate false p = .ok q) (hq : ∀ target, t.node q ≠ some (.link target)) :
    t.locate true p = .ok q := by
  have hfrom : ∀ (fuel : ℕ) (cur : Path) (steps : List Step),
      t.locateFrom false fuel cur steps = .ok q → t.locateFrom true fuel cur steps = .ok q := by
    intro fuel
    induction fuel with
    | zero => exact fun cur steps h => h
    | succ fuel ih =>
        intro cur steps h
        rw [locateFrom] at h ⊢
        cases hw : t.walk false cur steps with
        | arrived p =>
            rw [hw] at h
            obtain rfl : p = q := by simpa using h
            rw [(walk_follow steps cur).1 p hw hq]
        | stuck e =>
            rw [hw] at h
            cases h
        | jump c target rest =>
            rw [hw] at h
            rw [(walk_follow steps cur).2 c target rest hw]
            exact ih _ _ h
  exact hfrom _ _ _ h

/-- A walk that follows links goes where one does that stops at the last, or that one has stopped at a
link. -/
theorem walk_nofollow :
    ∀ (rest : List Step) (cur : Path),
      (∀ q, t.walk true cur rest = .arrived q → t.walk false cur rest = .arrived q) ∧
      ∀ c target r, t.walk true cur rest = .jump c target r →
        t.walk false cur rest = .jump c target r ∨
          ∃ q, t.walk false cur rest = .arrived q ∧ t.node q = some (.link target) := by
  intro rest
  induction rest with
  | nil => exact fun cur => ⟨fun q hq => hq, fun c target r hq => Or.inl hq⟩
  | cons step rest ih =>
      intro cur
      by_cases hs : canSearch (t.dirMode cur) = true
      · cases step with
        | up =>
            rw [walk, walk, if_pos hs, if_pos hs]
            exact ih _
        | name n =>
            rw [walk, walk, if_pos hs, if_pos hs]
            cases hnode : t.node (cur ++ [n]) with
            | none => exact ⟨fun q hq => hq, fun c target r hq => Or.inl hq⟩
            | some nd =>
                cases nd with
                | dir m => exact ih _
                | file i => exact ⟨fun q hq => hq, fun c target r hq => Or.inl hq⟩
                | link target =>
                    dsimp only
                    rw [if_neg (by simp)]
                    refine ⟨fun q hq => (by cases hq), fun c target' r hq => ?_⟩
                    obtain ⟨rfl, rfl, rfl⟩ := Walk.jump.inj hq
                    by_cases hrest : rest = []
                    · rw [if_pos ⟨hrest, rfl⟩]
                      exact Or.inr ⟨_, rfl, hnode⟩
                    · rw [if_neg fun h => hrest h.1]
                      exact Or.inl rfl
      · cases step <;> rw [walk, walk, if_neg hs, if_neg hs] <;>
          exact ⟨fun q hq => hq, fun c target r hq => Or.inl hq⟩

/-- **A path that leads somewhere, links followed, leads there with the last link left alone**, or to
that link. -/
theorem locate_nofollow (h : t.locate true p = .ok q) :
    t.locate false p = .ok q ∨ ∃ q' target, t.locate false p = .ok q' ∧ t.node q' = some (.link target) := by
  have hfrom : ∀ (fuel : ℕ) (cur : Path) (steps : List Step), t.locateFrom true fuel cur steps = .ok q →
      t.locateFrom false fuel cur steps = .ok q ∨ ∃ q' target,
        t.locateFrom false fuel cur steps = .ok q' ∧ t.node q' = some (.link target) := by
    intro fuel
    induction fuel with
    | zero => exact fun cur steps h => Or.inl h
    | succ fuel ih =>
        intro cur steps h
        rw [locateFrom] at h ⊢
        cases hw : t.walk true cur steps with
        | arrived p =>
            rw [hw] at h
            rw [(walk_nofollow steps cur).1 p hw]
            exact Or.inl h
        | stuck e =>
            rw [hw] at h
            cases h
        | jump c target rest =>
            rw [hw] at h
            rcases (walk_nofollow steps cur).2 c target rest hw with hw' | ⟨q', hw', hlink⟩
            · rw [hw']
              exact ih _ _ h
            · rw [hw']
              exact Or.inr ⟨q', target, rfl, hlink⟩
  exact hfrom _ _ _ h

end Tree

/-! ### The calls -/

namespace Disk

variable {d : Disk} {p : Path}

theorem find_straight (h : d.tree.Straight p) {follow : Bool}
    (hlink : ∀ target, d.tree.node p = some (.link target) → follow = false) {q : Path}
    (hq : d.find follow (some p) = .ok q) : q = p := by
  rcases h.locate hlink with hok | ⟨herr, -⟩
  · rw [find, hok] at hq
    exact (Except.ok.inj hq).symm
  · rw [find, herr] at hq
    cases hq

theorem find_false_straight (h : d.tree.Straight p) {q : Path}
    (hq : d.find false (some p) = .ok q) : q = p :=
  find_straight h (fun _ _ => rfl) hq

/-- A call that finds an entry says what it is. -/
theorem statAt_ok {follow : Bool} {hp : HostPath} {st : Stat} (h : d.statAt follow hp = .ok st) :
    ∃ q nd, d.find follow hp = .ok q ∧ d.tree.node q = some nd ∧ st = d.nodeStat nd := by
  unfold statAt at h
  cases hfind : d.find follow hp with
  | error e =>
      rw [hfind] at h
      cases h
  | ok q =>
      rw [hfind] at h
      dsimp only at h
      cases hnode : d.tree.node q with
      | none =>
          rw [hnode] at h
          cases h
      | some nd =>
          rw [hnode] at h
          exact ⟨q, nd, rfl, hnode, (Except.ok.inj h).symm⟩

theorem statAt_of_find {follow : Bool} {hp : HostPath} {q : Path} {nd : Node}
    (hq : d.find follow hp = .ok q) (hnd : d.tree.node q = some nd) :
    d.statAt follow hp = .ok (d.nodeStat nd) := by
  unfold statAt
  rw [hq]
  dsimp only
  rw [hnd]

@[simp] theorem nodeStat_isDir (nd : Node) : (d.nodeStat nd).isDir = nd.isDir := by
  cases nd <;> rfl

/-- What a path leads to, it leads to in a larger tree. -/
theorem find_grows {d' : Disk} (h : d.tree.Grows d'.tree) {follow : Bool} {hp : HostPath} {q : Path}
    (hq : d.find follow hp = .ok q) (hne : d.tree.node q ≠ none) : d'.find follow hp = .ok q := by
  cases hp with
  | none => cases hq
  | some p => exact Tree.locate_grows h hq hne

theorem find_follow {hp : HostPath} {q : Path} (hq : d.find false hp = .ok q)
    (hlink : ∀ target, d.tree.node q ≠ some (.link target)) : d.find true hp = .ok q := by
  cases hp with
  | none => cases hq
  | some p => exact Tree.locate_follow hq hlink

/-- What a call says of a straight path without an entry. -/
theorem statAt_straight_none (h : d.tree.Straight p) (hp : d.tree.node p = none) (follow : Bool) :
    d.statAt follow (some p) = .error .enoent := by
  have hlink : ∀ target, d.tree.node p = some (.link target) → follow = false := by simp [hp]
  unfold statAt
  rcases h.locate hlink with hok | ⟨herr, -⟩
  · rw [find, hok]
    dsimp only
    rw [hp]
  · rw [find, herr]

theorem statAt_straight_some (h : d.tree.Straight p) {nd : Node} (hp : d.tree.node p = some nd)
    {follow : Bool} (hlink : ∀ target, nd = .link target → follow = false) :
    d.statAt follow (some p) = .ok (d.nodeStat nd) := by
  unfold statAt
  rw [find, h.locate_of_node hp fun target ht => hlink target (by rw [hp] at ht; exact Option.some_inj.1 ht)]
  dsimp only
  rw [hp]

theorem lstat_straight_none (h : d.tree.Straight p) (hp : d.tree.node p = none) :
    d.lstat (some p) = .error .enoent := statAt_straight_none h hp false

theorem lstat_straight_some (h : d.tree.Straight p) {nd : Node} (hp : d.tree.node p = some nd) :
    d.lstat (some p) = .ok (d.nodeStat nd) := statAt_straight_some h hp fun _ _ => rfl

theorem stat_straight_none (h : d.tree.Straight p) (hp : d.tree.node p = none) :
    d.stat (some p) = .error .enoent := statAt_straight_none h hp true

theorem stat_straight_dir (h : d.tree.Straight p) {m : ℕ} (hp : d.tree.node p = some (.dir m)) :
    d.stat (some p) = .ok (d.nodeStat (.dir m)) := statAt_straight_some h hp (by simp)

/-- The directory of `p` can be changed. -/
theorem writable_of_dir {m : ℕ} (hm : d.tree.node p.dropLast = some (.dir m))
    (hw : Tree.canWrite m = true) : Writable d.tree p := by
  rw [Writable, Tree.dirMode, hm]
  exact hw

theorem writable_of_full {m : ℕ} (hm : d.tree.node p.dropLast = some (.dir m)) (hf : Full m) :
    Writable d.tree p := writable_of_dir hm hf.2.1

/-- Making a directory where there is none. -/
theorem mkdir_straight (h : d.tree.Straight p) (hp : p ≠ []) (hnone : d.tree.node p = none) {m : ℕ}
    (hpar : d.tree.node p.dropLast = some (.dir m)) (hm : Tree.canWrite m = true) (mode : ℕ) :
    ∃ hput hi, mkdir (some p) mode d = (.ok (), d.put p (.dir mode) hput hi) := by
  have hput : d.tree.CanPut p (.dir mode) := ⟨hp, ⟨m, hpar⟩, fun _ => ⟨mode, rfl⟩⟩
  refine ⟨hput, by simp, ?_⟩
  have hfind : d.find false (some p) = .ok p := h.locate_of_parent hp ⟨m, hpar⟩ (fun _ _ => rfl)
  rw [mkdir, atPath_of_ok hfind, newEntry, if_neg (not_not.2 hnone), if_pos (writable_of_dir hpar hm),
    dif_pos hput]

/-- Creating a file where there is none. -/
theorem open_straight (h : d.tree.Straight p) (hp : p ≠ []) (hnone : d.tree.node p = none) {m : ℕ}
    (hpar : d.tree.node p.dropLast = some (.dir m)) (hm : Tree.canWrite m = true) {fl : OpenFlags}
    (hc : fl.creat = true) (mode : ℕ) :
    ∃ hput, d.open (some p) fl mode = (.ok (.file d.next fl.access), d.addFile p mode hput) := by
  have hput : d.tree.CanPut p (.file d.next) := by
    refine ⟨hp, ⟨m, hpar⟩, fun hdir => ?_⟩
    exact absurd hnone hdir.ne_none
  have hlink : ∀ target, d.tree.node p = some (.link target) →
      (!(fl.nofollow || OpenFlags.exclusive fl)) = false := by simp [hnone]
  refine ⟨hput, ?_⟩
  have hfind : d.find (!(fl.nofollow || OpenFlags.exclusive fl)) (some p) = .ok p :=
    h.locate_of_parent hp ⟨m, hpar⟩ hlink
  refine (atPath_of_ok hfind _).trans ?_
  rw [hnone]
  dsimp only
  rw [openNew, hc, if_neg (by simp), if_pos (writable_of_dir hpar hm), dif_pos hput]

/-- Taking a file away. -/
theorem unlink_straight (h : d.tree.Straight p) (hp : p ≠ []) {i : ℕ}
    (hfile : d.tree.node p = some (.file i)) {m : ℕ}
    (hpar : d.tree.node p.dropLast = some (.dir m)) (hm : Full m) :
    ∃ he, unlink (some p) d = (.ok (), d.erase p he) := by
  have hnot : ¬ d.tree.IsDir p := by
    rintro ⟨m', hm'⟩
    rw [hfile] at hm'
    cases hm'
  have he : d.tree.CanErase p := by
    refine ⟨hp, Tree.children_eq_nil_iff.2 fun n => ?_⟩
    exact Tree.node_eq_none_of_not_isDir hnot (List.prefix_append _ _) (append_singleton_ne p n).symm
  refine ⟨he, ?_⟩
  have hfind : d.find false (some p) = .ok p := h.locate_of_node hfile (fun _ _ => rfl)
  refine (atPath_of_ok hfind _).trans ?_
  rw [hfile]
  dsimp only
  rw [if_pos (writable_of_full hpar hm), dif_pos he]

end Disk

end Posix
