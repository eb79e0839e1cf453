/-
**The names a lookup meets.**

A lookup meets the names of the path it is given, and those in the targets of the links on its way;
it meets no others.  So where the names of a path are of a kind, and all links of the tree name that
kind, every place the lookup looks at is named that way, and what is named otherwise makes no
difference to it.  Nothing here is about a particular program.

Main definitions:

* `NamedIn`, `TargetIn` — a path, and the target of a link, with names of one kind only;
* `Tree.LinksIn` — a tree whose links name that kind only.

Main results:

* `Tree.visits_named`, `Tree.locate_named` — **a lookup stays among the names it is given**;
* `Tree.locate_named_alike` — and depends on nothing else;
* `Tree.locate_named_concat` — where a path leads whose last name is of another kind;
* `Tree.LinksIn.put`, `Tree.LinksIn.erase`, `Tree.LinksIn.move` — how the changes of a tree keep it.
-/

import VidyaGodFS.Visits

set_option relaxedAutoImplicit false
set_option autoImplicit false

namespace Posix

variable {N : Name → Prop}

/-- The names of a path are of the kind `N`. -/
def NamedIn (N : Name → Prop) (p : Path) : Prop := ∀ n ∈ p, N n

/-- The target of a link walks through names of the kind `N`. -/
def TargetIn (N : Name → Prop) (target : String) : Prop :=
  ∀ n, Tree.Step.name n ∈ Tree.linkSteps target → N n

theorem NamedIn.nil : NamedIn N [] := fun _ h => absurd h List.not_mem_nil

theorem NamedIn.append {p q : Path} (hp : NamedIn N p) (hq : NamedIn N q) : NamedIn N (p ++ q) :=
  fun n hn => (List.mem_append.1 hn).elim (hp n) (hq n)

theorem NamedIn.concat {p : Path} {n : Name} (hp : NamedIn N p) (hn : N n) : NamedIn N (p ++ [n]) :=
  hp.append fun m hm => by rwa [List.mem_singleton.1 hm]

theorem NamedIn.dropLast {p : Path} (hp : NamedIn N p) : NamedIn N p.dropLast :=
  fun n hn => hp n (List.mem_of_mem_dropLast hn)

namespace Tree

variable {t t' : Tree} {p q : Path}

/-- The links of the tree walk through names of the kind `N`. -/
def LinksIn (N : Name → Prop) (t : Tree) : Prop :=
  ∀ p target, t.node p = some (.link target) → TargetIn N target

theorem walkVisits_named :
    ∀ (steps : List Step) (cur : Path), NamedIn N cur → (∀ n, Step.name n ∈ steps → N n) →
      ∀ q ∈ t.walkVisits cur steps, NamedIn N q := by
  intro steps
  induction steps with
  | nil =>
      intro cur hcur _ q hq
      rw [List.mem_singleton.1 hq]
      exact hcur
  | cons step rest ih =>
      intro cur hcur hsteps q hq
      have hrest : ∀ n, Step.name n ∈ rest → N n := fun n hn => hsteps n (List.mem_cons_of_mem _ hn)
      cases step with
      | up =>
          rw [walkVisits, List.mem_cons] at hq
          rcases hq with rfl | hq
          · exact hcur
          · split_ifs at hq
            · exact ih _ hcur.dropLast hrest q hq
            · cases hq
      | name n =>
          have hnext : NamedIn N (cur ++ [n]) := hcur.concat (hsteps n List.mem_cons_self)
          rw [walkVisits, List.mem_cons, List.mem_cons] at hq
          rcases hq with rfl | rfl | hq
          · exact hcur
          · exact hnext
          · cases hnode : t.node (cur ++ [n]) with
            | none =>
                rw [hnode] at hq
                cases hq
            | some nd =>
                rw [hnode] at hq
                cases nd with
                | dir m =>
                    dsimp only at hq
                    split_ifs at hq
                    · exact ih _ hnext hrest q hq
                    · cases hq
                | file i => cases hq
                | link target => cases hq

/-- A walk is sent on from a place, through a link that is there, to what is left of its steps. -/
theorem walk_jump_named {follow : Bool} {c : Path} {target : String} {r : List Step} :
    ∀ (steps : List Step) (cur : Path), NamedIn N cur → (∀ n, Step.name n ∈ steps → N n) →
      t.walk follow cur steps = .jump c target r →
        NamedIn N c ∧ (∃ p, t.node p = some (.link target)) ∧ ∀ n, Step.name n ∈ r → N n := by
  intro steps
  induction steps with
  | nil => intro cur _ _ h; cases h
  | cons step rest ih =>
      intro cur hcur hsteps h
      have hrest : ∀ n, Step.name n ∈ rest → N n := fun n hn => hsteps n (List.mem_cons_of_mem _ hn)
      by_cases hs : canSearch (t.dirMode cur) = true
      · cases step with
        | up =>
            rw [walk, if_pos hs] at h
            exact ih _ hcur.dropLast hrest h
        | name n =>
            rw [walk, if_pos hs] at h
            cases hnode : t.node (cur ++ [n]) with
            | none =>
                rw [hnode] at h
                dsimp only at h
                split_ifs at h
            | some nd =>
                rw [hnode] at h
                cases nd with
                | dir m => exact ih _ (hcur.concat (hsteps n List.mem_cons_self)) hrest h
                | file i =>
                    dsimp only at h
                    split_ifs at h
                | link target' =>
                    dsimp only at h
                    split_ifs at h
                    obtain ⟨rfl, rfl, rfl⟩ := Walk.jump.inj h
                    exact ⟨hcur, ⟨_, hnode⟩, hrest⟩
      · cases step <;> rw [walk, if_neg hs] at h <;> cases h

theorem visitsFrom_named (ht : t.LinksIn N) {follow : Bool} :
    ∀ (fuel : ℕ) (cur : Path) (steps : List Step), NamedIn N cur →
      (∀ n, Step.name n ∈ steps → N n) →
        ∀ q ∈ t.visitsFrom follow fuel cur steps, NamedIn N q := by
  intro fuel
  induction fuel with
  | zero => intro cur steps _ _ q hq; cases hq
  | succ fuel ih =>
      intro cur steps hcur hsteps q hq
      rw [visitsFrom, List.mem_append] at hq
      rcases hq with hq | hq
      · exact walkVisits_named steps cur hcur hsteps q hq
      · cases hw : t.walk follow cur steps with
        | arrived p =>
            rw [hw] at hq
            cases hq
        | stuck e =>
            rw [hw] at hq
            cases hq
        | jump c target r =>
            rw [hw] at hq
            obtain ⟨hc, ⟨p, hlink⟩, hr⟩ := walk_jump_named steps cur hcur hsteps hw
            refine ih _ _ ?_
              (fun n hn => (List.mem_append.1 hn).elim (ht p target hlink n) (hr n)) q hq
            split_ifs
            · exact NamedIn.nil
            · exact hc

theorem named_steps {p : Path} (hp : NamedIn N p) : ∀ n, Step.name n ∈ p.map Step.name → N n := by
  intro n hn
  obtain ⟨m, hm, he⟩ := List.mem_map.1 hn
  rw [← Step.name.inj he]
  exact hp m hm

/-- **A lookup stays among the names it is given.** -/
theorem visits_named (ht : t.LinksIn N) {follow : Bool} (hp : NamedIn N p) :
    ∀ q ∈ t.visits follow p, NamedIn N q :=
  visitsFrom_named ht _ _ _ NamedIn.nil (named_steps hp)

/-- The place it leads to is named that way. -/
theorem locate_named (ht : t.LinksIn N) {follow : Bool} (hp : NamedIn N p)
    (hq : t.locate follow p = .ok q) : NamedIn N q :=
  visits_named ht hp q (locate_mem_visits hq)

/-- **A lookup depends on the places that are named that way**, and on no others. -/
theorem locate_named_alike (ht : t.LinksIn N) {follow : Bool} (hp : NamedIn N p)
    (halike : ∀ q, NamedIn N q → t'.node q = t.node q) : t'.locate follow p = t.locate follow p :=
  locate_alike fun q hq => halike q (visits_named ht hp q hq)

/-- A walk to an entry goes through its directory, also where a link at the end sends it on. -/
theorem walk_concat_follow {n : Name} {c : Path} {target : String} {r : List Step} :
    ∀ (steps : List Step) (cur : Path),
      t.walk true cur (steps ++ [.name n]) = .jump c target r →
        (∃ r', r = r' ++ [.name n] ∧ t.walk true cur steps = .jump c target r') ∨
          r = [] ∧ t.walk true cur steps = .arrived c ∧ ∃ p, t.node p = some (.link target) := by
  intro steps
  induction steps with
  | nil =>
      intro cur h
      rw [List.nil_append, walk] at h
      by_cases hs : canSearch (t.dirMode cur) = true
      · rw [if_pos hs] at h
        cases hnode : t.node (cur ++ [n]) with
        | none =>
            rw [hnode] at h
            cases h
        | some nd =>
            rw [hnode] at h
            cases nd with
            | dir m => cases h
            | file i => cases h
            | link target' =>
                obtain ⟨rfl, rfl, rfl⟩ := Walk.jump.inj h
                exact Or.inr ⟨rfl, rfl, _, hnode⟩
      · rw [if_neg hs] at h
        cases h
  | cons step rest ih =>
      intro cur h
      have hrest : rest ++ [Step.name n] ≠ [] := by simp
      by_cases hs : canSearch (t.dirMode cur) = true
      · cases step with
        | up =>
            rw [List.cons_append, walk, if_pos hs] at h
            rw [walk, if_pos hs]
            exact ih _ h
        | name m =>
            rw [List.cons_append, walk, if_pos hs] at h
            rw [walk, if_pos hs]
            cases hnode : t.node (cur ++ [m]) with
            | none =>
                rw [hnode] at h
                dsimp only at h
                rw [if_neg hrest] at h
                cases h
            | some nd =>
                rw [hnode] at h
                cases nd with
                | dir m' => exact ih _ h
                | file i =>
                    dsimp only at h
                    rw [if_neg hrest] at h
                    cases h
                | link target' =>
                    dsimp only at h ⊢
                    rw [if_neg (by simp)] at h
                    obtain ⟨rfl, rfl, rfl⟩ := Walk.jump.inj h
                    exact Or.inl ⟨rest, rfl, if_neg (by simp)⟩
      · cases step <;> rw [List.cons_append, walk, if_neg hs] at h <;> cases h

/-- **Where a path leads whose last name is of another kind**: to the entry of that name in the
directory above it, or, through a link there, to a place that is named the common way. -/
theorem locate_named_concat (ht : t.LinksIn N) {n : Name} (hp : NamedIn N p)
    (hq : t.locate true (p ++ [n]) = .ok q) :
    NamedIn N q ∨ ∃ dir, t.locate true p = .ok dir ∧ q = dir ++ [n] := by
  have hfrom : ∀ (fuel : ℕ) (cur : Path) (steps : List Step), NamedIn N cur →
      (∀ m, Step.name m ∈ steps → N m) →
        t.locateFrom true fuel cur (steps ++ [.name n]) = .ok q →
          NamedIn N q ∨ ∃ dir, t.locateFrom true fuel cur steps = .ok dir ∧ q = dir ++ [n] := by
    intro fuel
    induction fuel with
    | zero => intro cur steps _ _ h; cases h
    | succ fuel ih =>
        intro cur steps hcur hsteps h
        rw [locateFrom] at h
        cases hw : t.walk true cur (steps ++ [.name n]) with
        | arrived q' =>
            rw [hw] at h
            obtain rfl : q' = q := by simpa using h
            obtain ⟨dir, hdir, hq'⟩ := (walk_concat steps cur).1 _ ((walk_unfollow _ cur).1 _ hw)
            rw [locateFrom, hdir]
            exact Or.inr ⟨dir, rfl, hq'⟩
        | stuck e =>
            rw [hw] at h
            cases h
        | jump c target r =>
            rw [hw] at h
            dsimp only at h
            have hstart : ∀ {c : Path}, NamedIn N c →
                NamedIn N (if linkAbsolute target then [] else c) := by
              intro c hc
              split_ifs
              · exact NamedIn.nil
              · exact hc
            rcases walk_concat_follow steps cur hw with ⟨r', rfl, hw'⟩ | ⟨rfl, hw', p', hlink⟩
            · obtain ⟨hc, ⟨p', hlink⟩, hr⟩ := walk_jump_named steps cur hcur hsteps hw'
              rw [locateFrom, hw']
              rw [← List.append_assoc] at h
              exact ih _ _ (hstart hc)
                (fun m hm => (List.mem_append.1 hm).elim (ht p' target hlink m) (hr m)) h
            · have hc : NamedIn N c := walkVisits_named steps cur hcur hsteps c (walk_mem_visits steps cur hw')
              rw [List.append_nil] at h
              exact Or.inl (visitsFrom_named ht _ _ _ (hstart hc) (ht p' target hlink) q
                (locateFrom_mem_visits _ _ _ h))
  rw [locate, List.map_append] at hq
  exact hfrom _ _ _ NamedIn.nil (named_steps hp) hq

/-! ### Changes of a tree -/

theorem LinksIn.put {nd : Node} (ht : t.LinksIn N) (h : t.CanPut p nd)
    (hnd : ∀ target, nd = .link target → TargetIn N target) : (t.put p nd h).LinksIn N := by
  intro q target hq
  rw [put_node] at hq
  by_cases hqp : q = p
  · rw [if_pos hqp] at hq
    exact hnd target (Option.some_inj.1 hq)
  · rw [if_neg hqp] at hq
    exact ht q target hq

theorem LinksIn.erase (ht : t.LinksIn N) (h : t.CanErase p) : (t.erase p h).LinksIn N := by
  intro q target hq
  rw [erase_node] at hq
  by_cases hqp : q = p
  · rw [if_pos hqp] at hq
    cases hq
  · rw [if_neg hqp] at hq
    exact ht q target hq

theorem LinksIn.move (ht : t.LinksIn N) (h : t.CanMove p q) : (t.move p q h).LinksIn N := by
  intro x target hx
  rw [move_node] at hx
  by_cases hd : q <+: x
  · rw [if_pos hd] at hx
    exact ht _ target hx
  · rw [if_neg hd] at hx
    by_cases hs : p <+: x
    · rw [if_pos hs] at hx
      cases hx
    · rw [if_neg hs] at hx
      exact ht x target hx

theorem LinksIn.setMode {m : ℕ} (ht : t.LinksIn N) (h : t.IsDir p) :
    (t.setMode p m h).LinksIn N := by
  intro q target hq
  rw [setMode_node] at hq
  by_cases hqp : q = p
  · rw [if_pos hqp] at hq
    cases hq
  · rw [if_neg hqp] at hq
    exact ht q target hq

end Tree

end Posix
