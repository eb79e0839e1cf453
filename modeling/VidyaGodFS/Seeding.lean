/-
**What a mount reads off the markers.**

At its start a mount walks its writelayer and its kept folders and takes their markers into memory.
The walk enters real directories that it can list and whose names are no markers; what it does not
enter it knows nothing of.

Main definitions:

* `Enters`, `EnteredAt` — the walk comes down to the directory of a path;
* `Listable` — a directory that can be listed.

Main results:

* `mem_seedMasks` — **a marker in a directory that the walk enters is taken into memory**;
* `mounted_eq`, `mounted_kept` — the masks that a mount starts with are those its walks find.
-/

import VidyaGodFS.DirVerdicts
import VidyaGodFS.Visits

set_option relaxedAutoImplicit false
set_option autoImplicit false

namespace VidyaGodFS

open Posix

/-! ### The walk -/

/-- From `rel` the walk comes down through the names `r`. -/
def Enters (d : Disk) (base : HostPath) : Path → List Name → Prop
  | _, [] => True
  | rel, n :: r =>
      n ∈ d.readDir (base.join rel) ∧ isMarker n = false ∧
        dirAt d false (base.join (rel ++ [n])) = true ∧ Enters d base (rel ++ [n]) r

/-- The directory can be listed. -/
def Listable (d : Disk) (p : HostPath) : Prop :=
  ∃ q, d.find true p = .ok q ∧ Tree.canRead (d.tree.dirMode q) = true

/-- The walk from `start` comes to the directory of `v` and can list it, and the marker of `v` there
is no marker of the directory itself. -/
def EnteredAt (d : Disk) (base : HostPath) (start v : Path) : Prop :=
  v ≠ [] ∧ mark (baseName v) ≠ opaqueName ∧ Listable d (base.join v.dropLast) ∧
    ∃ r, v.dropLast = start ++ r ∧ Enters d base start r

section

variable {d : Disk} {base : HostPath}

/-- What the walk does with one name. -/
def seedStep (d : Disk) (base : HostPath) (fuel : ℕ) (rel : Path) (n : Name) (masks : KeptMasks) :
    KeptMasks :=
  if n = opaqueName then { masks with opaqueDirs := insert rel masks.opaqueDirs }
  else if isMarker n then { masks with deleted := insert (rel ++ [unmark n]) masks.deleted }
  else if dirAt d false (base.join (rel ++ [n])) then
    ⟨(seedWalk d base fuel (rel ++ [n])).deleted ∪ masks.deleted,
      (seedWalk d base fuel (rel ++ [n])).opaqueDirs ∪ masks.opaqueDirs⟩
  else masks

theorem seedWalk_succ (d : Disk) (base : HostPath) (fuel : ℕ) (rel : Path) :
    seedWalk d base (fuel + 1) rel
      = (d.readDir (base.join rel)).foldr (seedStep d base fuel rel) ⟨∅, ∅⟩ := rfl

theorem seedStep_mono {fuel : ℕ} {rel x : Path} {n : Name} {masks : KeptMasks}
    (hx : x ∈ masks.deleted) : x ∈ (seedStep d base fuel rel n masks).deleted := by
  unfold seedStep
  split_ifs
  · exact hx
  · exact Finset.mem_insert_of_mem hx
  · exact Finset.mem_union_right _ hx
  · exact hx

/-- What one name adds stays. -/
theorem mem_foldr_seedStep {fuel : ℕ} {rel x : Path} {n : Name} {names : List Name}
    (hn : n ∈ names) (hx : ∀ masks, x ∈ (seedStep d base fuel rel n masks).deleted) :
    x ∈ (names.foldr (seedStep d base fuel rel) ⟨∅, ∅⟩).deleted := by
  induction names with
  | nil => cases hn
  | cons m names ih =>
      rw [List.foldr_cons]
      rcases List.mem_cons.1 hn with rfl | hn
      · exact hx _
      · exact seedStep_mono (ih hn)

/-- A marker among the names is taken into memory. -/
theorem mem_seedWalk_marker (fuel : ℕ) {rel : Path} {n : Name} (hn : n ∈ d.readDir (base.join rel))
    (hmark : isMarker n = true) (hne : n ≠ opaqueName) :
    rel ++ [unmark n] ∈ (seedWalk d base (fuel + 1) rel).deleted := by
  refine mem_foldr_seedStep hn fun masks => ?_
  rw [seedStep, if_neg hne, if_pos hmark]
  exact Finset.mem_insert_self _ _

/-- What the walk finds further down is taken into memory. -/
theorem mem_seedWalk_below {fuel : ℕ} {rel : Path} {n : Name} (hn : n ∈ d.readDir (base.join rel))
    (hmark : isMarker n = false) (hdir : dirAt d false (base.join (rel ++ [n])) = true) {x : Path}
    (hx : x ∈ (seedWalk d base fuel (rel ++ [n])).deleted) :
    x ∈ (seedWalk d base (fuel + 1) rel).deleted := by
  have hne : n ≠ opaqueName := by
    rintro rfl
    rw [isMarker_opaqueName] at hmark
    cases hmark
  refine mem_foldr_seedStep hn fun masks => ?_
  rw [seedStep, if_neg hne, if_neg (by simp [hmark]), if_pos hdir]
  exact Finset.mem_union_left _ hx

theorem mem_seedWalk {name : Name} (hne : mark name ≠ opaqueName) :
    ∀ (r : List Name) (rel : Path) (fuel : ℕ), Enters d base rel r → r.length < fuel →
      mark name ∈ d.readDir (base.join (rel ++ r)) →
      rel ++ r ++ [name] ∈ (seedWalk d base fuel rel).deleted := by
  intro r
  induction r with
  | nil =>
      intro rel fuel _ hfuel hname
      obtain ⟨fuel, rfl⟩ := Nat.exists_eq_add_of_lt hfuel
      rw [List.append_nil] at hname ⊢
      have hmem := mem_seedWalk_marker (0 + fuel) hname (isMarker_mark name) hne
      rwa [unmark_mark] at hmem
  | cons n r ih =>
      intro rel fuel henters hfuel hname
      obtain ⟨hn, hmark, hdir, hrest⟩ := henters
      obtain ⟨fuel, rfl⟩ := Nat.exists_eq_add_of_lt hfuel
      have happ : rel ++ n :: r = rel ++ [n] ++ r := by simp
      rw [happ] at hname ⊢
      refine mem_seedWalk_below hn hmark hdir (ih _ _ hrest ?_ hname)
      rw [List.length_cons]
      omega

/-- What a name adds is of it, or of what is below it. -/
theorem mem_foldr_seedStep_cases {fuel : ℕ} {rel x : Path} {names : List Name} :
    (x ∈ (names.foldr (seedStep d base fuel rel) ⟨∅, ∅⟩).deleted →
      ∃ n ∈ names, (isMarker n = true ∧ x = rel ++ [unmark n]) ∨
        (isMarker n = false ∧ dirAt d false (base.join (rel ++ [n])) = true ∧
          x ∈ (seedWalk d base fuel (rel ++ [n])).deleted)) ∧
    (x ∈ (names.foldr (seedStep d base fuel rel) ⟨∅, ∅⟩).opaqueDirs →
      ∃ n ∈ names, (n = opaqueName ∧ x = rel) ∨
        (isMarker n = false ∧ dirAt d false (base.join (rel ++ [n])) = true ∧
          x ∈ (seedWalk d base fuel (rel ++ [n])).opaqueDirs)) := by
  induction names with
  | nil => exact ⟨fun h => absurd h (Finset.notMem_empty x), fun h => absurd h (Finset.notMem_empty x)⟩
  | cons m names ih =>
      have hrest : ∀ {P : Name → Prop}, (∃ n ∈ names, P n) → ∃ n ∈ m :: names, P n :=
        fun ⟨n, hn, hp⟩ => ⟨n, List.mem_cons_of_mem _ hn, hp⟩
      rw [List.foldr_cons, seedStep]
      split_ifs with hopq hmark hdir
      · refine ⟨fun h => hrest (ih.1 h), fun h => ?_⟩
        rcases Finset.mem_insert.1 h with rfl | h
        · exact ⟨m, List.mem_cons_self, Or.inl ⟨hopq, rfl⟩⟩
        · exact hrest (ih.2 h)
      · refine ⟨fun h => ?_, fun h => hrest (ih.2 h)⟩
        rcases Finset.mem_insert.1 h with rfl | h
        · exact ⟨m, List.mem_cons_self, Or.inl ⟨hmark, rfl⟩⟩
        · exact hrest (ih.1 h)
      · have hname : isMarker m = false := by simpa using hmark
        refine ⟨fun h => ?_, fun h => ?_⟩
        · rcases Finset.mem_union.1 h with h | h
          · exact ⟨m, List.mem_cons_self, Or.inr ⟨hname, hdir, h⟩⟩
          · exact hrest (ih.1 h)
        · rcases Finset.mem_union.1 h with h | h
          · exact ⟨m, List.mem_cons_self, Or.inr ⟨hname, hdir, h⟩⟩
          · exact hrest (ih.2 h)
      · exact ⟨fun h => hrest (ih.1 h), fun h => hrest (ih.2 h)⟩

/-- **What the walk takes into memory comes from a marker** in a directory that it enters. -/
theorem seedWalk_cases :
    ∀ (fuel : ℕ) (rel x : Path),
      (x ∈ (seedWalk d base fuel rel).deleted →
        ∃ r n, x = rel ++ r ++ [unmark n] ∧ isMarker n = true ∧ Enters d base rel r ∧
          n ∈ d.readDir (base.join (rel ++ r))) ∧
      (x ∈ (seedWalk d base fuel rel).opaqueDirs →
        ∃ r, x = rel ++ r ∧ Enters d base rel r ∧ opaqueName ∈ d.readDir (base.join (rel ++ r))) := by
  intro fuel
  induction fuel with
  | zero => exact fun rel x => ⟨fun h => absurd h (Finset.notMem_empty x), fun h => absurd h (Finset.notMem_empty x)⟩
  | succ fuel ih =>
      intro rel x
      rw [seedWalk_succ]
      constructor
      · intro h
        obtain ⟨n, hn, ⟨hmark, rfl⟩ | ⟨hname, hdir, h⟩⟩ := mem_foldr_seedStep_cases.1 h
        · exact ⟨[], n, by simp, hmark, trivial, by rwa [List.append_nil]⟩
        · obtain ⟨r, k, rfl, hmark, henters, hk⟩ := (ih (rel ++ [n]) x).1 h
          exact ⟨n :: r, k, by simp, hmark, ⟨hn, hname, hdir, henters⟩, by simpa using hk⟩
      · intro h
        obtain ⟨n, hn, ⟨rfl, rfl⟩ | ⟨hname, hdir, h⟩⟩ := mem_foldr_seedStep_cases.2 h
        · exact ⟨[], by simp, trivial, by rwa [List.append_nil]⟩
        · obtain ⟨r, rfl, henters, hk⟩ := (ih (rel ++ [n]) x).2 h
          exact ⟨n :: r, by simp, ⟨hn, hname, hdir, henters⟩, by simpa using hk⟩

/-! ### How far down it comes -/

/-- One name further down. -/
theorem join_concat {p rel : Path} (h : base.join rel = some p) (n : Name) :
    base.join (rel ++ [n]) = some (p ++ [n]) := by
  cases base with
  | some b =>
      obtain rfl : b ++ rel = p := Option.some_inj.1 h
      simp [HostPath.join]
  | none =>
      cases rel with
      | nil => cases h
      | cons m rel =>
          obtain rfl : m :: rel = p := Option.some_inj.1 h
          rfl

/-- What can be listed is the place of a path. -/
theorem find_of_mem_readDir {p : HostPath} {n : Name} (hn : n ∈ d.readDir p) :
    ∃ q, d.find true p = .ok q ∧ d.tree.node (q ++ [n]) ≠ none := by
  unfold Disk.readDir at hn
  cases hq : d.find true p with
  | error e =>
      rw [hq] at hn
      cases hn
  | ok q =>
      rw [hq] at hn
      dsimp only at hn
      split_ifs at hn with hread
      · exact ⟨q, rfl, Tree.mem_children.1 hn⟩
      · cases hn

/-- A directory that is entered is where its path leads, links followed or not. -/
theorem find_entered {rel q : Path} {n : Name} (hq : d.find true (base.join rel) = .ok q)
    (hdir : dirAt d false (base.join (rel ++ [n])) = true) :
    d.find true (base.join (rel ++ [n])) = .ok (q ++ [n]) := by
  cases hp : base.join rel with
  | none =>
      rw [hp] at hq
      cases hq
  | some p =>
      rw [hp] at hq
      rw [join_concat hp] at hdir ⊢
      have hstat : ∃ st, d.lstat (some (p ++ [n])) = .ok st ∧ st.isDir = true := by
        rw [dirAt, ← Disk.lstat] at hdir
        cases hst : d.lstat (some (p ++ [n])) with
        | error e =>
            rw [hst] at hdir
            cases hdir
        | ok st =>
            rw [hst] at hdir
            exact ⟨st, rfl, hdir⟩
      obtain ⟨st, hst, hisDir⟩ := hstat
      obtain ⟨q₁, nd, hq₁, hnd, rfl⟩ := Disk.statAt_ok hst
      obtain ⟨dir, hdirp, rfl⟩ := Tree.locate_concat hq₁
      have hsame : d.tree.locate true p = .ok q := hq
      rw [hdirp] at hsame
      obtain rfl := Except.ok.inj hsame
      refine Disk.find_follow hq₁ fun target ht => ?_
      rw [hnd] at ht
      rw [Option.some_inj.1 ht] at hisDir
      cases hisDir

/-- The walk comes down the tree. -/
theorem Enters.find :
    ∀ (r : List Name) (rel q : Path), Enters d base rel r → d.find true (base.join rel) = .ok q →
      d.find true (base.join (rel ++ r)) = .ok (q ++ r) := by
  intro r
  induction r with
  | nil =>
      intro rel q _ hq
      rwa [List.append_nil, List.append_nil]
  | cons n r ih =>
      intro rel q henters hq
      obtain ⟨-, -, hdir, hrest⟩ := henters
      have hfind := ih (rel ++ [n]) (q ++ [n]) hrest (find_entered hq hdir)
      rwa [List.append_assoc, List.append_assoc] at hfind

/-- What is entered is there. -/
theorem Enters.node_ne_none :
    ∀ (r : List Name) (rel : Path), Enters d base rel r → r ≠ [] →
      ∃ q, d.tree.node (q ++ r) ≠ none := by
  intro r rel henters hne
  obtain ⟨r, n, rfl⟩ := r.eq_nil_or_concat'.resolve_left hne
  have hlast : ∀ (r : List Name) (rel : Path), Enters d base rel (r ++ [n]) →
      Enters d base rel r ∧ n ∈ d.readDir (base.join (rel ++ r)) := by
    intro r
    induction r with
    | nil => exact fun rel h => ⟨trivial, by rw [List.append_nil]; exact h.1⟩
    | cons m r ih =>
        intro rel h
        obtain ⟨hrest, hn⟩ := ih (rel ++ [m]) h.2.2.2
        rw [List.append_assoc] at hn
        exact ⟨⟨h.1, h.2.1, h.2.2.1, hrest⟩, hn⟩
  obtain ⟨hrest, hn⟩ := hlast r rel henters
  have hstart : ∃ q, d.find true (base.join rel) = .ok q := by
    cases r with
    | nil =>
        obtain ⟨q, hq, -⟩ := find_of_mem_readDir henters.1
        exact ⟨q, hq⟩
    | cons m r =>
        obtain ⟨q, hq, -⟩ := find_of_mem_readDir henters.1
        exact ⟨q, hq⟩
  obtain ⟨q, hq⟩ := hstart
  obtain ⟨q', hq', hnode⟩ := find_of_mem_readDir hn
  rw [hrest.find r rel q hq] at hq'
  rw [← Except.ok.inj hq', List.append_assoc] at hnode
  exact ⟨q, hnode⟩

/-- The walk is never longer than the tree is high. -/
theorem Enters.length_le {r : List Name} {rel : Path} (h : Enters d base rel r) :
    r.length ≤ d.tree.height := by
  by_cases hr : r = []
  · simp [hr]
  · obtain ⟨q, hq⟩ := h.node_ne_none r rel hr
    have hle := d.tree.length_le _ hq
    rw [List.length_append] at hle
    omega

/-- An entry of a directory that can be listed is listed. -/
theorem mem_readDir_of_lstat {p : Path} {n : Name} {st : Stat} (hp : Listable d (some p))
    (hst : d.lstat (some (p ++ [n])) = .ok st) : n ∈ d.readDir (some p) := by
  obtain ⟨q, hq, hread⟩ := hp
  obtain ⟨q₁, nd, hq₁, hnd, -⟩ := Disk.statAt_ok hst
  obtain ⟨dir, hdir, rfl⟩ := Tree.locate_concat hq₁
  have hsame : d.tree.locate true p = .ok q := hq
  rw [hdir] at hsame
  obtain rfl := Except.ok.inj hsame
  rw [Disk.readDir, hq]
  dsimp only
  rw [if_pos hread, Tree.mem_children, hnd]
  exact Option.some_ne_none nd

/-- **A marker in a directory that the walk enters is taken into memory.** -/
theorem mem_seedMasks {start v : Path} (h : EnteredAt d base start v) {st : Stat}
    (hst : d.lstat ((base.join v.dropLast).join [mark (baseName v)]) = .ok st) :
    v ∈ (seedMasks d base start).deleted := by
  obtain ⟨hv, hne, hlist, r, hr, henters⟩ := h
  have hname : v = v.dropLast ++ [baseName v] := by
    rw [baseName, List.getLastD_eq_getLast?, List.getLast?_eq_some_getLast hv, Option.getD_some,
      List.dropLast_append_getLast]
  have hmem : mark (baseName v) ∈ d.readDir (base.join v.dropLast) := by
    cases hp : base.join v.dropLast with
    | none =>
        rw [hp] at hlist
        obtain ⟨q, hq, -⟩ := hlist
        cases hq
    | some p =>
        rw [hp] at hlist hst
        exact mem_readDir_of_lstat hlist hst
  rw [hr] at hmem
  have hseed := mem_seedWalk hne r start (d.tree.height + 1) henters (Nat.lt_succ_of_le henters.length_le) hmem
  rw [← hr, ← hname] at hseed
  exact hseed

end

/-! ### The masks at the start -/

variable {M : Mount}

/-- A directory that is there need not be made. -/
theorem createDirectories_there {s : VfsState} {p : HostPath} (h : dirAt s.disk true p = true) :
    createDirectories p (calm s) = (.ok (), calm s) := by
  cases p with
  | none => cases h
  | some p =>
      have hnone : missingDirs s.disk p p.length = .ok [] := by
        cases hp : p.length with
        | zero => rfl
        | succ k =>
            rw [missingDirs, ← hp, List.take_length]
            rw [dirAt, ← Disk.stat] at h
            cases hst : s.disk.stat (some p) with
            | error e =>
                rw [hst] at h
                cases h
            | ok st =>
                rw [hst] at h
                have hisDir : st.isDir = true := h
                dsimp only
                rw [if_pos hisDir]
      unfold createDirectories
      have hlook : (look fun d => missingDirs d p p.length : Prog World Errno _) (calm s)
          = (.ok (.ok []), calm s) := by
        rw [← hnone]
        exact (Agrees.look _).run (calm s) (calm_calm s).2
      exact (Prog.bind_of_ok hlook).trans rfl

/-- The masks of the kept folders, one after the other. -/
def seedKept (d : Disk) (layers : List Layer) (kept : ℕ → KeptMasks) : ℕ → KeptMasks :=
  layers.foldl
    (fun k L => if L.isKept then Function.update k L.priority (seedKeptMasks d L) else k) kept

theorem seedKept_of_not_mem {d : Disk} {i : ℕ} :
    ∀ (layers : List Layer) (kept : ℕ → KeptMasks), i ∉ layers.map Layer.priority →
      seedKept d layers kept i = kept i := by
  intro layers
  induction layers with
  | nil => exact fun kept _ => rfl
  | cons L layers ih =>
      intro kept hi
      rw [List.map_cons, List.mem_cons, not_or] at hi
      have hstep : seedKept d (L :: layers) kept = seedKept d layers
          (if L.isKept then Function.update kept L.priority (seedKeptMasks d L) else kept) := rfl
      rw [hstep, ih _ hi.2]
      cases L.isKept with
      | false => rfl
      | true => exact Function.update_of_ne hi.1 _ _

theorem seedKept_of_mem {d : Disk} {L : Layer} (hkept : L.isKept = true) :
    ∀ (layers : List Layer) (kept : ℕ → KeptMasks), (layers.map Layer.priority).Nodup → L ∈ layers →
      seedKept d layers kept L.priority = seedKeptMasks d L := by
  intro layers
  induction layers with
  | nil => exact fun kept _ hL => absurd hL List.not_mem_nil
  | cons L' layers ih =>
      intro kept hnodup hL
      rw [List.map_cons, List.nodup_cons] at hnodup
      have hstep : seedKept d (L' :: layers) kept = seedKept d layers
          (if L'.isKept then Function.update kept L'.priority (seedKeptMasks d L') else kept) := rfl
      rcases List.mem_cons.1 hL with rfl | hL
      · rw [hstep, if_pos hkept, seedKept_of_not_mem _ _ hnodup.1, Function.update_self]
      · rw [hstep]
        exact ih _ hnodup.2 hL

/-- The state a mount starts in once its writelayer is made. -/
theorem mounted_of_made {d d' : Disk} (hwl : M.writelayer ≠ none)
    (hmake : makeWritelayer M (calm (unseeded d)) = (.ok (), calm (unseeded d'))) :
    mounted M d allowed allowed = calm
      ⟨d', (seedMasks d' M.writelayer []).deleted, (seedMasks d' M.writelayer []).opaqueDirs,
        seedKept d' M.layers fun _ => ⟨∅, ∅⟩⟩ := by
  have hloop : ∀ (layers : List Layer) (s : VfsState), (layers.forM fun L =>
      if L.isKept then mutate fun s =>
        { s with kept := Function.update s.kept L.priority (seedKeptMasks s.disk L) }
      else pure ()) (calm s) = (.ok (), calm { s with kept := seedKept s.disk layers s.kept }) := by
    intro layers
    induction layers with
    | nil => exact fun s => rfl
    | cons L layers ih =>
        intro s
        have hturn : (if L.isKept then mutate fun s =>
            { s with kept := Function.update s.kept L.priority (seedKeptMasks s.disk L) }
            else pure () : Prog World Errno Unit) (calm s) = (.ok (), calm { s with
              kept := if L.isKept then Function.update s.kept L.priority (seedKeptMasks s.disk L)
                else s.kept }) := by
          cases L.isKept <;> rfl
        exact (Prog.bind_of_ok hturn).trans (ih _)
  have hinit : init M (calm (unseeded d)) = (.ok (), calm
      ⟨d', (seedMasks d' M.writelayer []).deleted, (seedMasks d' M.writelayer []).opaqueDirs,
        seedKept d' M.layers fun _ => ⟨∅, ∅⟩⟩) := by
    unfold init
    rw [Prog.bind_of_ok hmake, Prog.bind_of_ok (mutate_apply _ _)]
    refine (hloop M.layers _).trans ?_
    simp only [calm, seedMasksFromWritelayer, if_neg hwl, unseeded]
  rw [mounted]
  exact congrArg Prod.snd hinit

/-- The state a mount starts in whose writelayer is there. -/
theorem mounted_eq {d : Disk} (hwl : M.writelayer ≠ none) (hdir : dirAt d true M.writelayer = true) :
    mounted M d allowed allowed = calm
      ⟨d, (seedMasks d M.writelayer []).deleted, (seedMasks d M.writelayer []).opaqueDirs,
        seedKept d M.layers fun _ => ⟨∅, ∅⟩⟩ := by
  refine mounted_of_made hwl ?_
  unfold makeWritelayer
  rw [if_neg hwl, ignoring_apply, createDirectories_there hdir]

/-- Making the writelayer leaves the masks for later. -/
theorem makeWritelayer_makes (M : Mount) (d : Disk) :
    ∃ d', makeWritelayer M (calm (unseeded d)) = (.ok (), calm (unseeded d')) := by
  have hdirs : ∀ p, Keeps (fun s => s = unseeded s.disk) (createDirectories p) := by
    intro p
    cases p with
    | none => exact Keeps.fail _
    | some p =>
        refine Keeps.bind (Keeps.look (Agrees.look _)) fun r => ?_
        cases r with
        | error e => exact Keeps.fail e
        | ok dirs =>
            refine Keeps.forM fun q _ => Keeps.bind (Keeps.attempt (Keeps.act fun s hs => ?_)) fun r => ?_
            · rw [hs]
              rfl
            · cases r with
              | ok u => exact Keeps.pure _
              | error e =>
                  exact Keeps.bind (Keeps.look (Agrees.look _)) fun there =>
                    Keeps.ite (fun _ => Keeps.pure _) fun _ => Keeps.fail e
  unfold makeWritelayer
  by_cases hwl : M.writelayer = none
  · rw [if_pos hwl]
    exact ⟨d, rfl⟩
  · rw [if_neg hwl, ignoring_apply]
    have hpost := hdirs M.writelayer (calm (unseeded d)) ⟨calm_calm _, rfl⟩
    rcases hrun : createDirectories M.writelayer (calm (unseeded d)) with ⟨e | u, W⟩ <;>
      rw [hrun] at hpost <;> exact ⟨W.state.disk, by rw [← hpost.2, ← hpost.1.eq]⟩

/-- A kept folder starts with the masks that its walk finds. -/
theorem mounted_kept {d : Disk} (hwl : M.writelayer ≠ none) (hdir : dirAt d true M.writelayer = true)
    {L : Layer} (hL : L ∈ M.layers) (hkept : L.isKept = true) :
    (mounted M d allowed allowed).state.kept L.priority = seedKeptMasks d L := by
  rw [mounted_eq hwl hdir]
  refine seedKept_of_mem hkept _ _ ?_ hL
  rw [M.priority_eq]
  exact List.nodup_range

end VidyaGodFS
