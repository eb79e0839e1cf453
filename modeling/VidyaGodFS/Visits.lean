/-
**What a lookup looks at.**

A lookup walks from the root through directories and links, and its result depends on the nodes it
meets and on nothing else: on a disk that is the same at those places it leads to the same place.
Nothing here is about a particular program.

Main definitions:

* `Tree.walkVisits`, `Tree.visitsFrom`, `Tree.visits` — the places a lookup looks at;
* `Tree.without` — a tree that a place has been taken from;
* `Disk.AlikeAt` — two disks that are the same at some places, files included.

Main results:

* `Tree.locate_alike`, `Disk.statAt_alike`, `Disk.open_alike` — **a call on a path depends on the
  places it visits**;
* `Tree.locate_mem_visits` — the place a lookup leads to is one of them;
* `Tree.visits_closed` — so is all that lies above one of them;
* `Tree.locate_without` — **what a lookup has looked at it cannot do without**;
* `Disk.pread_alike` — so do the bytes that are read through it;
* `Tree.locate_concat` — the directory an entry is found in is where its directory's path leads.
-/

import VidyaGodFS.Straight

set_option relaxedAutoImplicit false
set_option autoImplicit false

namespace Posix

namespace Tree

variable {t t' : Tree}

/-! ### The places a lookup looks at -/

/-- The places that a walk from `cur` looks at. -/
def walkVisits (t : Tree) : Path → List Step → List Path
  | cur, [] => [cur]
  | cur, .up :: rest => cur :: if canSearch (t.dirMode cur) then walkVisits t cur.dropLast rest else []
  | cur, .name n :: rest =>
      cur :: (cur ++ [n]) ::
        match t.node (cur ++ [n]) with
        | some (.dir _) => if canSearch (t.dirMode cur) then walkVisits t (cur ++ [n]) rest else []
        | _ => []

/-- The places that a walk with at most `fuel` links less one looks at. -/
def visitsFrom (t : Tree) (follow : Bool) : ℕ → Path → List Step → List Path
  | 0, _, _ => []
  | fuel + 1, cur, steps =>
      t.walkVisits cur steps ++
        match t.walk follow cur steps with
        | .jump cur target rest =>
            visitsFrom t follow fuel (if linkAbsolute target then [] else cur) (linkSteps target ++ rest)
        | _ => []

/-- The places that looking up a path looks at. -/
def visits (t : Tree) (follow : Bool) (p : Path) : List Path :=
  t.visitsFrom follow (maxSymlinks + 1) [] (p.map .name)

/-- The trees are the same at the places `l`. -/
def AlikeAt (l : List Path) (t t' : Tree) : Prop := ∀ q ∈ l, t'.node q = t.node q

theorem AlikeAt.of_subset {l l' : List Path} (h : AlikeAt l t t') (hl : ∀ q ∈ l', q ∈ l) :
    AlikeAt l' t t' := fun q hq => h q (hl q hq)

theorem dirMode_eq {p : Path} (h : t'.node p = t.node p) : t'.dirMode p = t.dirMode p := by
  rw [dirMode, dirMode, h]

theorem walk_alike {follow : Bool} :
    ∀ (steps : List Step) (cur : Path), AlikeAt (t.walkVisits cur steps) t t' →
      t'.walk follow cur steps = t.walk follow cur steps := by
  intro steps
  induction steps with
  | nil => exact fun cur _ => rfl
  | cons step rest ih =>
      intro cur h
      cases step with
      | up =>
          have hcur : t'.dirMode cur = t.dirMode cur := dirMode_eq (h cur (by simp [walkVisits]))
          rw [walk, walk, hcur]
          split_ifs with hs
          · exact ih _ (h.of_subset fun q hq => by simp [walkVisits, hs, hq])
          · rfl
      | name n =>
          have hcur : t'.dirMode cur = t.dirMode cur := dirMode_eq (h cur (by simp [walkVisits]))
          have hnext : t'.node (cur ++ [n]) = t.node (cur ++ [n]) := h _ (by simp [walkVisits])
          rw [walk, walk, hcur, hnext]
          by_cases hs : canSearch (t.dirMode cur) = true
          · rw [if_pos hs, if_pos hs]
            cases hnode : t.node (cur ++ [n]) with
            | none => rfl
            | some nd =>
                cases nd with
                | dir m => exact ih _ (h.of_subset fun q hq => by simp [walkVisits, hs, hnode, hq])
                | file i => rfl
                | link target => rfl
          · rw [if_neg hs, if_neg hs]

theorem locateFrom_alike {follow : Bool} :
    ∀ (fuel : ℕ) (cur : Path) (steps : List Step),
      AlikeAt (t.visitsFrom follow fuel cur steps) t t' →
      t'.locateFrom follow fuel cur steps = t.locateFrom follow fuel cur steps := by
  intro fuel
  induction fuel with
  | zero => exact fun cur steps _ => rfl
  | succ fuel ih =>
      intro cur steps h
      rw [locateFrom, locateFrom,
        walk_alike steps cur (h.of_subset fun q hq => by simp [visitsFrom, hq])]
      cases hw : t.walk follow cur steps with
      | arrived p => rfl
      | stuck e => rfl
      | jump c target rest => exact ih _ _ (h.of_subset fun q hq => by simp [visitsFrom, hw, hq])

/-- **A lookup depends on the places it visits.** -/
theorem locate_alike {follow : Bool} {p : Path} (h : AlikeAt (t.visits follow p) t t') :
    t'.locate follow p = t.locate follow p :=
  locateFrom_alike _ _ _ h

theorem walk_mem_visits {follow : Bool} {q : Path} :
    ∀ (steps : List Step) (cur : Path), t.walk follow cur steps = .arrived q →
      q ∈ t.walkVisits cur steps := by
  intro steps
  induction steps with
  | nil =>
      intro cur h
      obtain rfl : cur = q := by simpa [walk] using h
      simp [walkVisits]
  | cons step rest ih =>
      intro cur h
      by_cases hs : canSearch (t.dirMode cur) = true
      · cases step with
        | up =>
            rw [walk, if_pos hs] at h
            simp [walkVisits, hs, ih _ h]
        | name n =>
            rw [walk, if_pos hs] at h
            cases hnode : t.node (cur ++ [n]) with
            | none =>
                rw [hnode] at h
                dsimp only at h
                split_ifs at h
                obtain rfl : cur ++ [n] = q := by simpa using h
                simp [walkVisits]
            | some nd =>
                rw [hnode] at h
                cases nd with
                | dir m => simp [walkVisits, hs, hnode, ih _ h]
                | file i =>
                    dsimp only at h
                    split_ifs at h
                    obtain rfl : cur ++ [n] = q := by simpa using h
                    simp [walkVisits]
                | link target =>
                    dsimp only at h
                    split_ifs at h
                    obtain rfl : cur ++ [n] = q := by simpa using h
                    simp [walkVisits]
      · cases step <;> rw [walk, if_neg hs] at h <;> cases h

theorem locateFrom_mem_visits {follow : Bool} {q : Path} :
    ∀ (fuel : ℕ) (cur : Path) (steps : List Step), t.locateFrom follow fuel cur steps = .ok q →
      q ∈ t.visitsFrom follow fuel cur steps := by
  intro fuel
  induction fuel with
  | zero => intro cur steps h; cases h
  | succ fuel ih =>
      intro cur steps h
      rw [locateFrom] at h
      rw [visitsFrom, List.mem_append]
      cases hw : t.walk follow cur steps with
      | arrived p =>
          rw [hw] at h
          obtain rfl : p = q := by simpa using h
          exact Or.inl (walk_mem_visits steps cur hw)
      | stuck e =>
          rw [hw] at h
          cases h
      | jump c target rest =>
          rw [hw] at h
          exact Or.inr (ih _ _ h)

/-- The place a lookup leads to is one it looks at. -/
theorem locate_mem_visits {follow : Bool} {p q : Path} (h : t.locate follow p = .ok q) :
    q ∈ t.visits follow p := locateFrom_mem_visits _ _ _ h

/-- With links followed a lookup looks at least at what it looks at without. -/
theorem visitsFrom_subset :
    ∀ (fuel : ℕ) (cur : Path) (steps : List Step),
      ∀ q ∈ t.visitsFrom false fuel cur steps, q ∈ t.visitsFrom true fuel cur steps := by
  intro fuel
  induction fuel with
  | zero => exact fun cur steps q hq => hq
  | succ fuel ih =>
      intro cur steps q hq
      rw [visitsFrom, List.mem_append] at hq ⊢
      refine hq.imp_right fun hq => ?_
      cases hw : t.walk false cur steps with
      | arrived p =>
          rw [hw] at hq
          cases hq
      | stuck e =>
          rw [hw] at hq
          cases hq
      | jump c target rest =>
          rw [hw] at hq
          rw [(walk_follow steps cur).2 c target rest hw]
          exact ih _ _ q hq

theorem visits_subset {p q : Path} (hq : q ∈ t.visits false p) : q ∈ t.visits true p :=
  visitsFrom_subset _ _ _ q hq

/-! ### Where something is found -/

/-- **A lookup that looks at the same places looks at no others.** -/
theorem walkVisits_alike :
    ∀ (steps : List Step) (cur : Path), AlikeAt (t.walkVisits cur steps) t t' →
      t'.walkVisits cur steps = t.walkVisits cur steps := by
  intro steps
  induction steps with
  | nil => exact fun _ _ => rfl
  | cons step rest ih =>
      intro cur h
      have hcur : t'.dirMode cur = t.dirMode cur := by
        cases step <;> exact dirMode_eq (h cur (by simp [walkVisits]))
      cases step with
      | up =>
          rw [walkVisits, walkVisits, hcur]
          split_ifs with hs
          · rw [ih _ (h.of_subset fun q hq => by simp [walkVisits, hs, hq])]
          · rfl
      | name n =>
          have hnext : t'.node (cur ++ [n]) = t.node (cur ++ [n]) := h _ (by simp [walkVisits])
          rw [walkVisits, walkVisits, hcur, hnext]
          cases hnode : t.node (cur ++ [n]) with
          | none => rfl
          | some nd =>
              cases nd with
              | dir m =>
                  dsimp only
                  split_ifs with hs
                  · rw [ih _ (h.of_subset fun q hq => by simp [walkVisits, hs, hnode, hq])]
                  · rfl
              | file i => rfl
              | link target => rfl

theorem visits_alike {follow : Bool} {p : Path} (h : AlikeAt (t.visits follow p) t t') :
    t'.visits follow p = t.visits follow p := by
  have hfrom : ∀ (fuel : ℕ) (cur : Path) (steps : List Step),
      AlikeAt (t.visitsFrom follow fuel cur steps) t t' →
      t'.visitsFrom follow fuel cur steps = t.visitsFrom follow fuel cur steps := by
    intro fuel
    induction fuel with
    | zero => exact fun _ _ _ => rfl
    | succ fuel ih =>
        intro cur steps h
        have hwalk : AlikeAt (t.walkVisits cur steps) t t' :=
          h.of_subset fun q hq => by simp [visitsFrom, hq]
        rw [visitsFrom, visitsFrom, walkVisits_alike steps cur hwalk, walk_alike steps cur hwalk]
        cases hw : t.walk follow cur steps with
        | arrived p => rfl
        | stuck e => rfl
        | jump c target rest =>
            dsimp only
            rw [ih _ _ (h.of_subset fun q hq => by simp [visitsFrom, hw, hq])]
  exact hfrom _ _ _ h

/-- A walk that goes on has met nothing but what is there. -/
theorem walk_exists {follow : Bool} :
    ∀ (steps : List Step) (cur : Path), t.node cur ≠ none →
      (∀ q, t.walk follow cur steps = .arrived q → t.node q ≠ none →
        ∀ x ∈ t.walkVisits cur steps, t.node x ≠ none) ∧
      ∀ c target r, t.walk follow cur steps = .jump c target r →
        t.node c ≠ none ∧ ∀ x ∈ t.walkVisits cur steps, t.node x ≠ none := by
  intro steps
  induction steps with
  | nil =>
      intro cur hcur
      refine ⟨fun q _ _ x hx => ?_, by rintro _ _ _ ⟨⟩⟩
      obtain rfl := List.mem_singleton.1 hx
      exact hcur
  | cons step rest ih =>
      intro cur hcur
      by_cases hs : canSearch (t.dirMode cur) = true
      · cases step with
        | up =>
            have hup : t.node cur.dropLast ≠ none :=
              fun hnone => hcur (node_eq_none_below hnone (List.dropLast_prefix cur))
            obtain ⟨harr, hjump⟩ := ih cur.dropLast hup
            rw [walk, if_pos hs, walkVisits, if_pos hs]
            refine ⟨fun q hq hnode x hx => ?_, fun c target r hq => ⟨(hjump c target r hq).1, fun x hx => ?_⟩⟩
            · rcases List.mem_cons.1 hx with rfl | hx
              · exact hcur
              · exact harr q hq hnode x hx
            · rcases List.mem_cons.1 hx with rfl | hx
              · exact hcur
              · exact (hjump c target r hq).2 x hx
        | name n =>
            have hends : ∀ {q : Path}, q = cur ++ [n] → t.node q ≠ none →
                ∀ x ∈ [cur, cur ++ [n]], t.node x ≠ none := by
              rintro q rfl hnode x hx
              rcases List.mem_pair.1 hx with rfl | rfl
              · exact hcur
              · exact hnode
            rw [walk, if_pos hs, walkVisits]
            cases hnode : t.node (cur ++ [n]) with
            | none =>
                dsimp only
                refine ⟨fun q hq hne => ?_, fun c target r hq => ?_⟩
                · split_ifs at hq
                  obtain rfl := Walk.arrived.inj hq
                  exact absurd hnode hne
                · split_ifs at hq
            | some nd =>
                have hthere : t.node (cur ++ [n]) ≠ none := by simp [hnode]
                cases nd with
                | file i =>
                    refine ⟨fun q _ _ => hends rfl hthere, fun c target r hq => ?_⟩
                    dsimp only at hq
                    split_ifs at hq
                | link target =>
                    refine ⟨fun q _ _ => hends rfl hthere, fun c target' r hq => ⟨?_, hends rfl hthere⟩⟩
                    dsimp only at hq
                    split_ifs at hq
                    obtain ⟨rfl, -, -⟩ := Walk.jump.inj hq
                    exact hcur
                | dir m =>
                    obtain ⟨harr, hjump⟩ := ih (cur ++ [n]) hthere
                    dsimp only
                    rw [if_pos hs]
                    refine ⟨fun q hq hne x hx => ?_,
                      fun c target r hq => ⟨(hjump c target r hq).1, fun x hx => ?_⟩⟩
                    · rcases List.mem_cons.1 hx with rfl | hx
                      · exact hcur
                      · rcases List.mem_cons.1 hx with rfl | hx
                        · exact hthere
                        · exact harr q hq hne x hx
                    · rcases List.mem_cons.1 hx with rfl | hx
                      · exact hcur
                      · rcases List.mem_cons.1 hx with rfl | hx
                        · exact hthere
                        · exact (hjump c target r hq).2 x hx
      · cases step <;> rw [walk, if_neg hs] <;> exact ⟨by rintro _ ⟨⟩, by rintro _ _ _ ⟨⟩⟩

theorem root_ne_none : t.node [] ≠ none := by
  obtain ⟨m, hm⟩ := t.root_dir
  simp [hm]

/-- **A lookup that finds something has met nothing but what is there.** -/
theorem exists_of_visits {follow : Bool} {p q x : Path} (h : t.locate follow p = .ok q)
    (hq : t.node q ≠ none) (hx : x ∈ t.visits follow p) : t.node x ≠ none := by
  have hfrom : ∀ (fuel : ℕ) (cur : Path) (steps : List Step), t.node cur ≠ none →
      t.locateFrom follow fuel cur steps = .ok q → ∀ x ∈ t.visitsFrom follow fuel cur steps,
        t.node x ≠ none := by
    intro fuel
    induction fuel with
    | zero =>
        intro cur steps _ h
        cases h
    | succ fuel ih =>
        intro cur steps hcur h x hx
        rw [locateFrom] at h
        rw [visitsFrom, List.mem_append] at hx
        cases hw : t.walk follow cur steps with
        | arrived p =>
            rw [hw] at h hx
            obtain rfl : p = q := Except.ok.inj h
            exact (walk_exists steps cur hcur).1 p hw hq x (hx.resolve_right (by simp))
        | stuck e =>
            rw [hw] at h
            cases h
        | jump c target rest =>
            rw [hw] at h hx
            obtain ⟨hc, hwalk⟩ := (walk_exists steps cur hcur).2 c target rest hw
            refine hx.elim (hwalk x) fun hx => ih _ _ ?_ h x hx
            split_ifs
            · exact root_ne_none
            · exact hc
  exact hfrom _ _ _ root_ne_none h x hx

/-! ### The way to a place -/

theorem walk_jump_mem {follow : Bool} {c : Path} {target : String} {r : List Step} :
    ∀ (steps : List Step) (cur : Path), t.walk follow cur steps = .jump c target r →
      c ∈ t.walkVisits cur steps := by
  intro steps
  induction steps with
  | nil =>
      intro cur h
      cases h
  | cons step rest ih =>
      intro cur h
      by_cases hs : canSearch (t.dirMode cur) = true
      · cases step with
        | up =>
            rw [walk, if_pos hs] at h
            simp [walkVisits, hs, ih _ h]
        | name n =>
            rw [walk, if_pos hs] at h
            cases hnode : t.node (cur ++ [n]) with
            | none =>
                rw [hnode] at h
                dsimp only at h
                split_ifs at h
            | some nd =>
                rw [hnode] at h
                cases nd with
                | dir m => simp [walkVisits, hs, hnode, ih _ h]
                | file i =>
                    dsimp only at h
                    split_ifs at h
                | link target' =>
                    dsimp only at h
                    split_ifs at h
                    obtain ⟨rfl, -, -⟩ := Walk.jump.inj h
                    simp [walkVisits]
      · cases step <;> rw [walk, if_neg hs] at h <;> cases h

theorem walkVisits_closed {q x : Path} (hq : q <+: x) :
    ∀ (steps : List Step) (cur : Path), x ∈ t.walkVisits cur steps →
      q ∈ t.walkVisits cur steps ∨ q <+: cur := by
  intro steps
  induction steps with
  | nil =>
      intro cur hx
      obtain rfl := List.mem_singleton.1 hx
      exact Or.inr hq
  | cons step rest ih =>
      intro cur hx
      cases step with
      | up =>
          rw [walkVisits] at hx ⊢
          rcases List.mem_cons.1 hx with rfl | hx
          · exact Or.inr hq
          · split_ifs at hx ⊢
            · refine (ih _ hx).imp (List.mem_cons_of_mem _) fun h => h.trans (List.dropLast_prefix cur)
            · cases hx
      | name n =>
          rw [walkVisits] at hx ⊢
          have hnext : ∀ {l : List Path}, q <+: cur ++ [n] → q ∈ cur :: (cur ++ [n]) :: l ∨ q <+: cur := by
            intro l h
            rcases List.prefix_concat_iff.1 h with rfl | h
            · exact Or.inl (by simp)
            · exact Or.inr h
          rcases List.mem_cons.1 hx with rfl | hx
          · exact Or.inr hq
          · rcases List.mem_cons.1 hx with rfl | hx
            · exact hnext hq
            · cases hnode : t.node (cur ++ [n]) with
              | none =>
                  rw [hnode] at hx
                  cases hx
              | some nd =>
                  rw [hnode] at hx
                  cases nd with
                  | dir m =>
                      dsimp only at hx ⊢
                      split_ifs at hx ⊢
                      · rcases ih _ hx with h | h
                        · exact Or.inl (List.mem_cons_of_mem _ (List.mem_cons_of_mem _ h))
                        · exact hnext h
                      · cases hx
                  | file i => cases hx
                  | link target => cases hx

theorem nil_mem_visits {follow : Bool} {p : Path} : [] ∈ t.visits follow p := by
  rw [visits, visitsFrom, List.mem_append]
  refine Or.inl ?_
  cases p <;> simp [walkVisits]

/-- **A lookup comes to a place from above**: it has looked at all that lies on the way down. -/
theorem visits_closed {follow : Bool} {p q x : Path} (hx : x ∈ t.visits follow p) (hq : q <+: x) :
    q ∈ t.visits follow p := by
  have hfrom : ∀ (fuel : ℕ) (cur : Path) (steps : List Step), x ∈ t.visitsFrom follow fuel cur steps →
      q ∈ t.visitsFrom follow fuel cur steps ∨ q <+: cur := by
    intro fuel
    induction fuel with
    | zero =>
        intro cur steps hx
        cases hx
    | succ fuel ih =>
        intro cur steps hx
        rw [visitsFrom, List.mem_append] at hx ⊢
        rcases hx with hx | hx
        · exact (walkVisits_closed hq steps cur hx).imp_left Or.inl
        · cases hw : t.walk follow cur steps with
          | arrived p =>
              rw [hw] at hx
              cases hx
          | stuck e =>
              rw [hw] at hx
              cases hx
          | jump c target rest =>
              rw [hw] at hx
              rcases ih _ _ hx with h | h
              · exact Or.inl (Or.inr h)
              · split_ifs at h
                · exact Or.inr (h.trans List.nil_prefix)
                · exact (walkVisits_closed h steps cur (walk_jump_mem steps cur hw)).imp_left Or.inl
  rcases hfrom _ _ _ hx with h | h
  · exact h
  · obtain rfl := List.prefix_nil.1 h
    exact nil_mem_visits

/-! ### Taking a place away -/

/-- The tree without what lies at `q` and below. -/
def without (t : Tree) (q : Path) (hq : q ≠ []) : Tree where
  node p := if q.isPrefixOf p then none else t.node p
  names := t.names
  root_dir := by
    obtain ⟨m, hm⟩ := t.root_dir
    refine ⟨m, ?_⟩
    rw [if_neg, hm]
    intro hle
    exact hq (List.prefix_nil.1 (List.isPrefixOf_iff_prefix.1 hle))
  parent_dir p n hne := by
    split_ifs at hne with hle
    · exact absurd rfl hne
    · obtain ⟨m, hm⟩ := t.parent_dir p n hne
      refine ⟨m, ?_⟩
      rw [if_neg, hm]
      intro hle'
      rw [List.isPrefixOf_iff_prefix] at hle hle'
      exact hle (hle'.trans (List.prefix_append p [n]))
  names_mem p n hne := by
    split_ifs at hne
    · exact absurd rfl hne
    · exact t.names_mem p n hne
  height := t.height
  length_le p hne := by
    split_ifs at hne
    · exact absurd rfl hne
    · exact t.length_le p hne

theorem without_node (t : Tree) {q : Path} (hq : q ≠ []) {p : Path} (hp : ¬ q <+: p) :
    (t.without q hq).node p = t.node p := if_neg fun h => hp (List.isPrefixOf_iff_prefix.1 h)

theorem without_node_below (t : Tree) {q : Path} (hq : q ≠ []) {p : Path} (hp : q <+: p) :
    (t.without q hq).node p = none := if_pos (List.isPrefixOf_iff_prefix.2 hp)

/-- **What a lookup has looked at it cannot do without**: nothing is found any more. -/
theorem locate_without {follow : Bool} {p q r : Path} (hq : q ≠ []) (hvisit : q ∈ t.visits follow p)
    (h : (t.without q hq).locate follow p = .ok r) : (t.without q hq).node r = none := by
  by_contra hr
  -- what is found is found by way of what is left, which the whole tree has too
  have hleft : AlikeAt ((t.without q hq).visits follow p) (t.without q hq) t := by
    intro x hx
    refine (without_node t hq fun hle => ?_).symm
    exact exists_of_visits h hr hx (without_node_below t hq hle)
  rw [visits_alike hleft] at hvisit
  exact exists_of_visits h hr hvisit (without_node_below t hq List.prefix_rfl)

/-! ### The directory an entry is in -/

/-- A walk to an entry goes through its directory. -/
theorem walk_concat {n : Name} :
    ∀ (steps : List Step) (cur : Path),
      (∀ q, t.walk false cur (steps ++ [.name n]) = .arrived q →
        ∃ dir, t.walk true cur steps = .arrived dir ∧ q = dir ++ [n]) ∧
      ∀ c target r, t.walk false cur (steps ++ [.name n]) = .jump c target r →
        ∃ r', r = r' ++ [.name n] ∧ t.walk true cur steps = .jump c target r' := by
  intro steps
  induction steps with
  | nil =>
      intro cur
      have hwalk : t.walk false cur [.name n] = .arrived (cur ++ [n]) ∨
          t.walk false cur [.name n] = .stuck .eacces := by
        rw [walk]
        by_cases hs : canSearch (t.dirMode cur) = true
        · rw [if_pos hs]
          refine Or.inl ?_
          cases t.node (cur ++ [n]) with
          | none => rfl
          | some nd => cases nd <;> rfl
        · exact Or.inr (if_neg hs)
      rw [List.nil_append]
      rcases hwalk with hw | hw
      · rw [hw]
        refine ⟨fun q hq => ⟨cur, rfl, ?_⟩, by rintro _ _ _ ⟨⟩⟩
        exact (Walk.arrived.inj hq).symm
      · rw [hw]
        exact ⟨by rintro _ ⟨⟩, by rintro _ _ _ ⟨⟩⟩
  | cons step rest ih =>
      intro cur
      have hrest : rest ++ [Step.name n] ≠ [] := by simp
      by_cases hs : canSearch (t.dirMode cur) = true
      · cases step with
        | up =>
            rw [List.cons_append, walk, walk, if_pos hs, if_pos hs]
            exact ih _
        | name m =>
            rw [List.cons_append, walk, walk, if_pos hs, if_pos hs]
            cases t.node (cur ++ [m]) with
            | none =>
                dsimp only
                rw [if_neg hrest]
                exact ⟨by rintro _ ⟨⟩, by rintro _ _ _ ⟨⟩⟩
            | some nd =>
                cases nd with
                | dir m' => exact ih _
                | file i =>
                    dsimp only
                    rw [if_neg hrest]
                    exact ⟨by rintro _ ⟨⟩, by rintro _ _ _ ⟨⟩⟩
                | link target =>
                    dsimp only
                    rw [if_neg (fun h => hrest h.1), if_neg (by simp)]
                    refine ⟨by rintro _ ⟨⟩, fun c target' r hq => ?_⟩
                    obtain ⟨rfl, rfl, rfl⟩ := Walk.jump.inj hq
                    exact ⟨rest, rfl, rfl⟩
      · cases step <;> rw [List.cons_append, walk, if_neg hs] <;>
          exact ⟨by rintro _ ⟨⟩, by rintro _ _ _ ⟨⟩⟩

/-- **An entry is found in the directory that its directory's path leads to.** -/
theorem locate_concat {p q : Path} {n : Name} (h : t.locate false (p ++ [n]) = .ok q) :
    ∃ dir, t.locate true p = .ok dir ∧ q = dir ++ [n] := by
  have hfrom : ∀ (fuel : ℕ) (cur : Path) (steps : List Step),
      t.locateFrom false fuel cur (steps ++ [.name n]) = .ok q →
        ∃ dir, t.locateFrom true fuel cur steps = .ok dir ∧ q = dir ++ [n] := by
    intro fuel
    induction fuel with
    | zero => intro cur steps h; cases h
    | succ fuel ih =>
        intro cur steps h
        rw [locateFrom] at h ⊢
        cases hw : t.walk false cur (steps ++ [.name n]) with
        | arrived q' =>
            rw [hw] at h
            obtain rfl : q' = q := by simpa using h
            obtain ⟨dir, hdir, hq⟩ := (walk_concat steps cur).1 _ hw
            rw [hdir]
            exact ⟨dir, rfl, hq⟩
        | stuck e =>
            rw [hw] at h
            cases h
        | jump c target r =>
            rw [hw] at h
            obtain ⟨r', rfl, hw'⟩ := (walk_concat steps cur).2 _ _ _ hw
            rw [hw']
            dsimp only at h
            rw [← List.append_assoc] at h
            exact ih _ _ h
  refine hfrom _ _ _ ?_
  rw [locate, List.map_append] at h
  exact h

end Tree

namespace Disk

variable {d d' : Disk}

/-! ### Calls on a path -/

/-- The places that a call on a path looks at. -/
def visits (d : Disk) (follow : Bool) : HostPath → List Path
  | none => []
  | some p => d.tree.visits follow p

/-- The disks are the same at the places `l`, with the files there. -/
structure AlikeAt (l : List Path) (d d' : Disk) : Prop where
  node : Tree.AlikeAt l d.tree d'.tree
  inode : ∀ q ∈ l, ∀ i, d.tree.node q = some (.file i) → d'.inode i = d.inode i

theorem AlikeAt.of_subset {l l' : List Path} (h : AlikeAt l d d') (hl : ∀ q ∈ l', q ∈ l) :
    AlikeAt l' d d' :=
  ⟨h.node.of_subset hl, fun q hq => h.inode q (hl q hq)⟩

theorem visits_subset {p : HostPath} {q : Path} (hq : q ∈ d.visits false p) :
    q ∈ d.visits true p := by
  cases p with
  | none => exact hq
  | some p => exact Tree.visits_subset hq

theorem find_mem_visits {follow : Bool} {p : HostPath} {q : Path} (h : d.find follow p = .ok q) :
    q ∈ d.visits follow p := by
  cases p with
  | none => cases h
  | some p => exact Tree.locate_mem_visits h

/-- The disk without what lies at `q` and below. -/
def without (d : Disk) (q : Path) (hq : q ≠ []) : Disk where
  tree := d.tree.without q hq
  inode := d.inode
  next := d.next
  ino_lt p i hi := by
    by_cases hle : q <+: p
    · rw [Tree.without_node_below d.tree hq hle] at hi
      cases hi
    · rw [Tree.without_node d.tree hq hle] at hi
      exact d.ino_lt p i hi
  dev := d.dev

/-- **A call that has looked at a place says nothing where that is taken away.** -/
theorem statAt_without {follow : Bool} {p : HostPath} {q : Path} (hq : q ≠ [])
    (hvisit : q ∈ d.visits follow p) (st : Stat) : (d.without q hq).statAt follow p ≠ .ok st := by
  intro hst
  obtain ⟨r, nd, hr, hnd, -⟩ := statAt_ok hst
  cases p with
  | none => cases hr
  | some p =>
      have hnone := Tree.locate_without hq hvisit hr
      rw [show (d.without q hq).tree.node r = none from hnone] at hnd
      cases hnd

theorem visits_closed {follow : Bool} {p : HostPath} {q x : Path} (hx : x ∈ d.visits follow p)
    (hq : q <+: x) : q ∈ d.visits follow p := by
  cases p with
  | none => cases hx
  | some p => exact Tree.visits_closed hx hq

variable {follow : Bool} {p : HostPath}

theorem find_alike (h : AlikeAt (d.visits follow p) d d') : d'.find follow p = d.find follow p := by
  cases p with
  | none => rfl
  | some p => exact Tree.locate_alike h.node

theorem nodeStat_alike {l : List Path} (h : AlikeAt l d d') {q : Path} (hq : q ∈ l) {nd : Node}
    (hnd : d.tree.node q = some nd) : d'.nodeStat nd = d.nodeStat nd := by
  cases nd with
  | dir m => rfl
  | link target => rfl
  | file i => rw [nodeStat, nodeStat, h.inode q hq i hnd]

/-- **What a call says of a path depends on the places it visits.** -/
theorem statAt_alike (h : AlikeAt (d.visits follow p) d d') :
    d'.statAt follow p = d.statAt follow p := by
  rw [statAt, statAt, find_alike h]
  cases hq : d.find follow p with
  | error e => rfl
  | ok q =>
      have hmem := find_mem_visits hq
      dsimp only
      rw [h.node q hmem]
      cases hnd : d.tree.node q with
      | none => rfl
      | some nd =>
          dsimp only
          rw [nodeStat_alike h hmem hnd]

theorem canonical_alike (h : AlikeAt (d.visits true p) d d') : d'.canonical p = d.canonical p := by
  rw [canonical, canonical, find_alike h]
  cases hq : d.find true p with
  | error e => rfl
  | ok q =>
      dsimp only
      rw [h.node q (find_mem_visits hq)]

/-- Opening for reading leads to the same file. -/
theorem open_alike {fl : OpenFlags} (hf : fl.nofollow = false) (hc : fl.creat = false)
    (h : AlikeAt (d.visits true p) d d') (mode : ℕ) :
    (Disk.open p fl mode d').1 = (Disk.open p fl mode d).1 := by
  have hx : OpenFlags.exclusive fl = false := by simp [OpenFlags.exclusive, hc]
  have hfollow : (!(fl.nofollow || OpenFlags.exclusive fl)) = true := by simp [hf, hx]
  have hfind := find_alike h
  unfold Disk.open
  rw [hfollow, hx]
  cases hq : d.find true p with
  | error e =>
      rw [hq] at hfind
      exact (congrArg Prod.fst (atPath_of_error hfind _)).trans
        (congrArg Prod.fst (atPath_of_error hq _)).symm
  | ok q =>
      rw [hq] at hfind
      have hmem := find_mem_visits hq
      refine (congrArg Prod.fst (atPath_of_ok hfind _)).trans
        (Eq.trans ?_ (congrArg Prod.fst (atPath_of_ok hq _)).symm)
      rw [h.node q hmem]
      cases hnd : d.tree.node q with
      | none => simp [openNew, hc]
      | some nd =>
          cases nd with
          | link target => rfl
          | dir m =>
              dsimp only
              split_ifs <;> rfl
          | file i =>
              dsimp only
              rw [if_neg Bool.false_ne_true, if_neg Bool.false_ne_true, openIno, openIno,
                h.inode q hmem i hnd]
              split_ifs <;> rfl

/-- What is read from a file opened so is the same. -/
theorem pread_alike {fl : OpenFlags} (hf : fl.nofollow = false) (hc : fl.creat = false)
    (h : AlikeAt (d.visits true p) d d') {mode : ℕ} {file : Handle}
    (hopen : (Disk.open p fl mode d).1 = .ok file) (n off : ℕ) :
    d'.pread file n off = d.pread file n off := by
  have hfollow : (!(fl.nofollow || OpenFlags.exclusive fl)) = true := by
    simp [hf, hc, OpenFlags.exclusive]
  rcases Disk.open_cases p fl mode d with
    ⟨e, hfail⟩ | ⟨q, hq, ⟨-, hcreat, -⟩ | ⟨i, hnd, hrun⟩ | ⟨-, hrun⟩⟩
  · rw [hfail] at hopen
    cases hopen
  · rw [hc] at hcreat
    cases hcreat
  · rw [hrun] at hopen
    obtain rfl := Except.ok.inj hopen
    rw [hfollow] at hq
    rw [pread, pread, h.inode q (find_mem_visits hq) i hnd]
  · rw [hrun] at hopen
    obtain rfl := Except.ok.inj hopen
    rfl

end Disk

end Posix
