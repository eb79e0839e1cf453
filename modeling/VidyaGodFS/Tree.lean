/-
**Trees of named nodes, and how a path finds its way through them.**

A file tree is a function from paths to nodes: directories, files (named by an inode number) and
symbolic links.  A tree carries the proofs of its own shape, so that no value of the type has an
entry outside a directory: its root is a directory, the parent of every entry is a directory, the
names in use are among a finite list, from which listings are made, and its depth is bounded.

A path is looked up component by component.  A link met on the way, or at the end where the lookup
follows it, sends the walk on through its target; after too many links the lookup gives up.  A
directory is walked through only with the permission to search it.

Main definitions:

* `Errno`, `Name`, `Path`, `Node`, `Tree` — errors, paths and trees;
* `Tree.children` — the names in a directory;
* `Tree.put`, `Tree.erase`, `Tree.move`, `Tree.setMode` — the changes of a tree;
* `Tree.walk`, `Tree.locate` — looking up a path.

Main results:

* `Tree.isDir_above` — **what lies above an entry is a directory**;
* `Tree.put_node`, `Tree.erase_node`, `Tree.move_node` — what the changes do, path by path;
* `Tree.locate_of_plain`, `Tree.locate_of_missing` — looking up a path without links on the way.
-/

import Mathlib.Data.List.Infix
import Mathlib.Data.List.Dedup
import Mathlib.Tactic.Common
import Mathlib.Data.Nat.Notation

set_option relaxedAutoImplicit false
set_option autoImplicit false

namespace Posix

/-- The error numbers told apart, and any other. -/
inductive Errno
  | eperm | enoent | eio | ebadf | eacces | eexist | exdev | enotdir | eisdir | einval | enospc
  | erofs | enametoolong | enotempty | eloop | ebusy
  | other (code : ℕ)
  deriving DecidableEq, Repr

/-- A name, one character for each of its bytes. -/
abbrev Name : Type := String

/-- A path from the root, component by component; `[]` is the root. -/
abbrev Path : Type := List Name

instance : LawfulBEq Path := inferInstance

/-- What a name can stand for. -/
inductive Node
  | dir (mode : ℕ)
  | file (ino : ℕ)
  | link (target : String)
  deriving DecidableEq, Repr

def Node.isDir : Node → Bool
  | .dir _ => true
  | _ => false

/-! ### Prefixes of paths -/

/-- A path has a last component or is the root. -/
theorem eq_dropLast_append {p : Path} (h : p ≠ []) : ∃ n, p = p.dropLast ++ [n] :=
  ⟨p.getLast h, (List.dropLast_append_getLast h).symm⟩

@[simp] theorem append_singleton_dropLast (p : Path) (n : Name) : (p ++ [n]).dropLast = p :=
  List.dropLast_concat

theorem append_singleton_inj {p q : Path} {n m : Name} : p ++ [n] = q ++ [m] ↔ p = q ∧ n = m := by
  constructor
  · intro h
    obtain ⟨hpq, hnm⟩ := List.append_inj' h rfl
    exact ⟨hpq, by simpa using hnm⟩
  · rintro ⟨rfl, rfl⟩
    rfl

theorem append_singleton_ne (p : Path) (n : Name) : p ++ [n] ≠ p := by
  intro h
  simp at h

theorem not_append_singleton_le (p : Path) (n : Name) : ¬ p ++ [n] <+: p := by
  intro h
  have hle := h.length_le
  rw [List.length_append, List.length_singleton] at hle
  omega

/-- Every proper prefix of a path has a next component on it. -/
theorem exists_next_below {q p : Path} (h : q <+: p) (hne : q ≠ p) : ∃ n, q ++ [n] <+: p := by
  obtain ⟨r, rfl⟩ := h
  cases r with
  | nil => simp at hne
  | cons n r => exact ⟨n, r, by simp⟩

/-! ### Trees -/

/-- A tree of named nodes. -/
structure Tree where
  node : Path → Option Node
  /-- All names in use, and maybe others. -/
  names : List Name
  root_dir : ∃ m, node [] = some (.dir m)
  parent_dir : ∀ (p : Path) (n : Name), node (p ++ [n]) ≠ none → ∃ m, node p = some (.dir m)
  names_mem : ∀ (p : Path) (n : Name), node (p ++ [n]) ≠ none → n ∈ names
  /-- A bound on the depth of the tree. -/
  height : ℕ
  length_le : ∀ p : Path, node p ≠ none → p.length ≤ height

namespace Tree

variable (t : Tree)

/-- The path leads to a directory. -/
def IsDir (p : Path) : Prop := ∃ m, t.node p = some (.dir m)

instance (p : Path) : Decidable (t.IsDir p) :=
  match h : t.node p with
  | some (.dir m) => isTrue ⟨m, h⟩
  | none => isFalse (by rintro ⟨m, hm⟩; rw [h] at hm; exact absurd hm (by simp))
  | some (.file i) => isFalse (by rintro ⟨m, hm⟩; rw [h] at hm; exact absurd hm (by simp))
  | some (.link s) => isFalse (by rintro ⟨m, hm⟩; rw [h] at hm; exact absurd hm (by simp))

variable {t}

theorem IsDir.ne_none {p : Path} (h : t.IsDir p) : t.node p ≠ none := by
  obtain ⟨m, hm⟩ := h
  rw [hm]
  simp

/-- **What lies above an entry is a directory.** -/
theorem isDir_above {q p : Path} (h : t.node p ≠ none) (hq : q <+: p) (hne : q ≠ p) :
    t.IsDir q := by
  induction p using List.reverseRecOn with
  | nil => exact absurd (List.prefix_nil.1 hq) hne
  | append_singleton p n ih =>
      have hp : t.IsDir p := t.parent_dir p n h
      rcases List.prefix_concat_iff.1 hq with rfl | hq
      · exact absurd rfl hne
      · by_cases hqp : q = p
        · rw [hqp]
          exact hp
        · exact ih hp.ne_none hq hqp

/-- Nothing lies under a path that has no entry. -/
theorem node_eq_none_below {q p : Path} (h : t.node q = none) (hq : q <+: p) :
    t.node p = none := by
  by_contra hp
  by_cases hne : q = p
  · exact hp (hne ▸ h)
  · exact (isDir_above hp hq hne).ne_none h

/-- Nothing lies under a path that is not a directory. -/
theorem node_eq_none_of_not_isDir {q p : Path} (h : ¬ t.IsDir q) (hq : q <+: p) (hne : q ≠ p) :
    t.node p = none := by
  by_contra hp
  exact h (isDir_above hp hq hne)

/-! ### Listing -/

variable (t)

/-- The names in a directory. -/
def children (p : Path) : List Name := (t.names.filter fun n => (t.node (p ++ [n])).isSome).dedup

variable {t}

theorem mem_children {p : Path} {n : Name} : n ∈ t.children p ↔ t.node (p ++ [n]) ≠ none := by
  rw [children, List.mem_dedup, List.mem_filter, Option.isSome_iff_ne_none]
  exact ⟨fun h => h.2, fun h => ⟨t.names_mem p n h, h⟩⟩

theorem children_eq_nil_iff {p : Path} : t.children p = [] ↔ ∀ n, t.node (p ++ [n]) = none := by
  rw [List.eq_nil_iff_forall_not_mem]
  exact forall_congr' fun n => by rw [mem_children, not_not]

/-- Nothing lies under an empty directory. -/
theorem node_eq_none_of_children {q p : Path} (h : t.children q = []) (hq : q <+: p)
    (hne : q ≠ p) : t.node p = none := by
  obtain ⟨n, hn⟩ := exists_next_below hq hne
  exact node_eq_none_below (children_eq_nil_iff.1 h n) hn

/-! ### Changing a tree -/

variable (t)

/-- `nd` can be put at `p`: the parent is a directory, and no directory gives way to something
else. -/
def CanPut (p : Path) (nd : Node) : Prop :=
  p ≠ [] ∧ t.IsDir p.dropLast ∧ (t.IsDir p → ∃ m, nd = .dir m)

/-- Putting a node at a path, over whatever is there; nothing where it cannot be put. -/
def put (p : Path) (nd : Node) (h : t.CanPut p nd) : Tree where
  node q := if q = p then some nd else t.node q
  names := p.getLast h.1 :: t.names
  root_dir := by
    rw [if_neg h.1.symm]
    exact t.root_dir
  parent_dir := by
    intro q n hq
    by_cases hqp : q ++ [n] = p
    · obtain rfl : q = p.dropLast := by rw [← hqp, append_singleton_dropLast]
      rw [if_neg (fun he => append_singleton_ne _ n (hqp.trans he.symm))]
      exact h.2.1
    · rw [if_neg hqp] at hq
      obtain ⟨m, hm⟩ := t.parent_dir q n hq
      by_cases hq' : q = p
      · obtain ⟨m', rfl⟩ := h.2.2 (hq' ▸ ⟨m, hm⟩)
        exact ⟨m', by rw [if_pos hq']⟩
      · exact ⟨m, by rw [if_neg hq', hm]⟩
  names_mem := by
    intro q n hq
    by_cases hqp : q ++ [n] = p
    · subst hqp
      simp
    · rw [if_neg hqp] at hq
      exact List.mem_cons_of_mem _ (t.names_mem q n hq)
  height := max t.height p.length
  length_le := by
    intro q hq
    by_cases hqp : q = p
    · rw [hqp]
      exact le_max_right _ _
    · rw [if_neg hqp] at hq
      exact (t.length_le q hq).trans (le_max_left _ _)

@[simp] theorem put_node (p : Path) (nd : Node) (h : t.CanPut p nd) (q : Path) :
    (t.put p nd h).node q = if q = p then some nd else t.node q := rfl

/-- The entry at `p` can go: it is not the root, and nothing lies under it. -/
def CanErase (p : Path) : Prop := p ≠ [] ∧ t.children p = []

/-- Taking an entry out. -/
def erase (p : Path) (h : t.CanErase p) : Tree where
  node q := if q = p then none else t.node q
  names := t.names
  root_dir := by
    rw [if_neg h.1.symm]
    exact t.root_dir
  parent_dir := by
    intro q n hq
    by_cases hqp : q ++ [n] = p
    · rw [if_pos hqp] at hq
      exact absurd rfl hq
    · rw [if_neg hqp] at hq
      by_cases hq' : q = p
      · exact absurd (children_eq_nil_iff.1 h.2 n) (hq' ▸ hq)
      · rw [if_neg hq']
        exact t.parent_dir q n hq
  names_mem := by
    intro q n hq
    by_cases hqp : q ++ [n] = p
    · rw [if_pos hqp] at hq
      exact absurd rfl hq
    · rw [if_neg hqp] at hq
      exact t.names_mem q n hq
  height := t.height
  length_le := by
    intro q hq
    by_cases hqp : q = p
    · rw [if_pos hqp] at hq
      exact absurd rfl hq
    · rw [if_neg hqp] at hq
      exact t.length_le q hq

@[simp] theorem erase_node (p : Path) (h : t.CanErase p) (q : Path) :
    (t.erase p h).node q = if q = p then none else t.node q := rfl

/-- The entry at `src` can be moved to `dst`: it is there, `dst` is not inside it, and lies in a
directory with nothing under it. -/
def CanMove (src dst : Path) : Prop :=
  src ≠ [] ∧ dst ≠ [] ∧ t.node src ≠ none ∧ ¬ src <+: dst ∧ t.IsDir dst.dropLast ∧
    t.children dst = []

/-- Moving an entry, with all that lies under it, over whatever is there. -/
def move (src dst : Path) (h : t.CanMove src dst) : Tree where
  node q :=
    if dst <+: q then t.node (src ++ q.drop dst.length)
    else if src <+: q then none else t.node q
  names := dst.getLast h.2.1 :: t.names
  root_dir := by
    rw [if_neg (fun he => h.2.1 (List.prefix_nil.1 he)),
      if_neg (fun he => h.1 (List.prefix_nil.1 he))]
    exact t.root_dir
  parent_dir := by
    obtain ⟨hsrc, hdst, hnode, hnot, hpar, hempty⟩ := h
    intro q n hq
    by_cases hd : dst <+: q ++ [n]
    · rw [if_pos hd] at hq
      rcases List.prefix_concat_iff.1 hd with rfl | hd'
      · -- the new entry itself: its parent was a directory, and has not moved
        rw [append_singleton_dropLast] at hpar
        rw [if_neg (not_append_singleton_le q n),
          if_neg (fun hs => hnot (hs.trans (List.prefix_append _ _)))]
        exact hpar
      · -- an entry that moved along
        rw [if_pos hd']
        rw [List.drop_append_of_le_length hd'.length_le, ← List.append_assoc] at hq
        exact t.parent_dir _ n hq
    · rw [if_neg hd] at hq
      by_cases hs : src <+: q ++ [n]
      · rw [if_pos hs] at hq
        exact absurd rfl hq
      · rw [if_neg hs] at hq
        rw [if_neg (fun he => hd (he.trans (List.prefix_append _ _))),
          if_neg (fun he => hs (he.trans (List.prefix_append _ _)))]
        exact t.parent_dir q n hq
  names_mem := by
    intro q n hq
    by_cases hd : dst <+: q ++ [n]
    · rw [if_pos hd] at hq
      rcases List.prefix_concat_iff.1 hd with rfl | hd'
      · simp
      · rw [List.drop_append_of_le_length hd'.length_le, ← List.append_assoc] at hq
        exact List.mem_cons_of_mem _ (t.names_mem _ n hq)
    · rw [if_neg hd] at hq
      by_cases hs : src <+: q ++ [n]
      · rw [if_pos hs] at hq
        exact absurd rfl hq
      · rw [if_neg hs] at hq
        exact List.mem_cons_of_mem _ (t.names_mem q n hq)
  height := t.height + dst.length
  length_le := by
    intro q hq
    by_cases hd : dst <+: q
    · rw [if_pos hd] at hq
      have hle := t.length_le _ hq
      rw [List.length_append, List.length_drop] at hle
      have := hd.length_le
      omega
    · rw [if_neg hd] at hq
      by_cases hs : src <+: q
      · rw [if_pos hs] at hq
        exact absurd rfl hq
      · rw [if_neg hs] at hq
        have := t.length_le q hq
        omega

@[simp] theorem move_node (src dst : Path) (h : t.CanMove src dst) (q : Path) :
    (t.move src dst h).node q =
      if dst <+: q then t.node (src ++ q.drop dst.length)
      else if src <+: q then none else t.node q := rfl

/-- Giving a directory another mode. -/
def setMode (p : Path) (m : ℕ) (h : t.IsDir p) : Tree where
  node q := if q = p then some (.dir m) else t.node q
  names := t.names
  root_dir := by
    by_cases hp : [] = p
    · exact ⟨m, by rw [if_pos hp]⟩
    · rw [if_neg hp]
      exact t.root_dir
  parent_dir := by
    intro q n hq
    by_cases hqp : q = p
    · exact ⟨m, by rw [if_pos hqp]⟩
    · rw [if_neg hqp]
      by_cases hqn : q ++ [n] = p
      · exact t.parent_dir q n (hqn ▸ h.ne_none)
      · rw [if_neg hqn] at hq
        exact t.parent_dir q n hq
  names_mem := by
    intro q n hq
    by_cases hqn : q ++ [n] = p
    · exact t.names_mem q n (hqn ▸ h.ne_none)
    · rw [if_neg hqn] at hq
      exact t.names_mem q n hq
  height := t.height
  length_le := by
    intro q hq
    by_cases hqp : q = p
    · exact t.length_le q (hqp ▸ h.ne_none)
    · rw [if_neg hqp] at hq
      exact t.length_le q hq

@[simp] theorem setMode_node (p : Path) (m : ℕ) (h : t.IsDir p) (q : Path) :
    (t.setMode p m h).node q = if q = p then some (.dir m) else t.node q := rfl

instance (p : Path) (nd : Node) : Decidable (t.CanPut p nd) :=
  have : Decidable (∃ m, nd = .dir m) :=
    match nd with
    | .dir m => isTrue ⟨m, rfl⟩
    | .file i => isFalse (by rintro ⟨m, hm⟩; cases hm)
    | .link s => isFalse (by rintro ⟨m, hm⟩; cases hm)
  inferInstanceAs (Decidable (_ ∧ _ ∧ (_ → _)))

instance (p : Path) : Decidable (t.CanErase p) := inferInstanceAs (Decidable (_ ∧ _))

instance (src dst : Path) : Decidable (t.CanMove src dst) :=
  inferInstanceAs (Decidable (_ ∧ _ ∧ _ ∧ _ ∧ _ ∧ _))

/-! ### Permissions -/

/-- The permission bits of the owner, who is the one that acts on the tree. -/
def canRead (mode : ℕ) : Bool := mode.testBit 8

def canWrite (mode : ℕ) : Bool := mode.testBit 7

def canSearch (mode : ℕ) : Bool := mode.testBit 6

/-- The mode of a directory; 0 where there is none. -/
def dirMode (p : Path) : ℕ :=
  match t.node p with
  | some (.dir m) => m
  | _ => 0

/-! ### Looking up a path -/

/-- A component of a path as it is walked: a name, or the parent. -/
inductive Step
  | name (n : Name)
  | up
  deriving DecidableEq, Repr

/-- The components of a string, between the slashes. -/
def splitSlash : List Char → List (List Char)
  | [] => [[]]
  | c :: cs =>
      if c = '/' then [] :: splitSlash cs
      else
        match splitSlash cs with
        | [] => [[c]]
        | w :: ws => (c :: w) :: ws

/-- The components that the target of a link walks through: empty ones and `.` are dropped. -/
def linkSteps (target : String) : List Step :=
  (splitSlash target.toList).filterMap fun w =>
    if w = [] ∨ w = ['.'] then none
    else if w = ['.', '.'] then some .up
    else some (.name (String.ofList w))

/-- Whether the target of a link starts at the root. -/
def linkAbsolute (target : String) : Bool := target.toList.head? = some '/'

/-- How far a walk comes: to a path, to an error, or to a link that sends it on from `cur` through
`target` and then `rest`. -/
inductive Walk
  | arrived (p : Path)
  | stuck (e : Errno)
  | jump (cur : Path) (target : String) (rest : List Step)

/-- Walking from the directory `cur` on.  The last component may have no entry, and a link there is
followed or not. -/
def walk (follow : Bool) : Path → List Step → Walk
  | cur, [] => .arrived cur
  | cur, .up :: rest =>
      if canSearch (t.dirMode cur) then walk follow cur.dropLast rest else .stuck .eacces
  | cur, .name n :: rest =>
      if canSearch (t.dirMode cur) then
        match t.node (cur ++ [n]) with
        | none => if rest = [] then .arrived (cur ++ [n]) else .stuck .enoent
        | some (.dir _) => walk follow (cur ++ [n]) rest
        | some (.file _) => if rest = [] then .arrived (cur ++ [n]) else .stuck .enotdir
        | some (.link target) =>
            if rest = [] ∧ follow = false then .arrived (cur ++ [n]) else .jump cur target rest
      else .stuck .eacces

/-- How many links a lookup follows. -/
def maxSymlinks : ℕ := 40

/-- A walk with at most `fuel` links less one. -/
def locateFrom (follow : Bool) : ℕ → Path → List Step → Except Errno Path
  | 0, _, _ => .error .eloop
  | fuel + 1, cur, steps =>
      match t.walk follow cur steps with
      | .arrived p => .ok p
      | .stuck e => .error e
      | .jump cur target rest =>
          locateFrom follow fuel (if linkAbsolute target then [] else cur) (linkSteps target ++ rest)

/-- **Looking up a path**: where it leads once every link on the way, and the last if `follow` says
so, is replaced by its target.  The last component may have no entry. -/
def locate (follow : Bool) (p : Path) : Except Errno Path :=
  t.locateFrom follow (maxSymlinks + 1) [] (p.map .name)

variable {t}

/-- A directory that can be walked through. -/
def IsOpenDir (t : Tree) (p : Path) : Prop := ∃ m, t.node p = some (.dir m) ∧ canSearch m = true

theorem IsOpenDir.isDir {p : Path} (h : t.IsOpenDir p) : t.IsDir p := by
  obtain ⟨m, hm, _⟩ := h
  exact ⟨m, hm⟩

theorem IsOpenDir.canSearch_dirMode {p : Path} (h : t.IsOpenDir p) :
    canSearch (t.dirMode p) = true := by
  obtain ⟨m, hm, hs⟩ := h
  rw [dirMode, hm]
  exact hs

/-- A walk over directories that can be walked through arrives. -/
theorem walk_of_plain {follow : Bool} :
    ∀ (rest : List Name) (cur : Path), (∀ q, cur <+: q → q <+: cur ++ rest → q ≠ cur ++ rest →
        t.IsOpenDir q) →
      (∀ target, t.node (cur ++ rest) = some (.link target) → follow = false) →
      t.walk follow cur (rest.map .name) = .arrived (cur ++ rest) ∨ rest = [] := by
  intro rest
  induction rest with
  | nil => exact fun cur _ _ => Or.inr rfl
  | cons n rest ih =>
      intro cur hopen hlink
      refine Or.inl ?_
      have hcur : t.IsOpenDir cur :=
        hopen cur (List.prefix_refl _) (List.prefix_append _ _) (by simp)
      have happ : cur ++ n :: rest = (cur ++ [n]) ++ rest := by simp
      rw [List.map_cons, walk, if_pos hcur.canSearch_dirMode]
      cases rest with
      | nil =>
          cases hnode : t.node (cur ++ [n]) with
          | none => simp
          | some nd =>
              cases nd with
              | dir m => simp [walk]
              | file i => simp
              | link target => simp [hlink target hnode]
      | cons n' rest =>
          have hnext : t.IsOpenDir (cur ++ [n]) :=
            hopen _ (List.prefix_append _ _) ⟨n' :: rest, happ.symm⟩ (by simp)
          obtain ⟨m, hm, _⟩ := hnext
          rw [hm]
          dsimp only
          rw [happ] at hopen hlink ⊢
          rcases ih (cur ++ [n]) (fun q hq => hopen q ((List.prefix_append _ _).trans hq)) hlink with
            h | h
          · exact h
          · simp at h

/-- **A path over directories that can be walked through leads where it says.** -/
theorem locate_of_plain {follow : Bool} {p : Path}
    (hopen : ∀ q, q <+: p → q ≠ p → t.IsOpenDir q)
    (hlink : ∀ target, t.node p = some (.link target) → follow = false) :
    t.locate follow p = .ok p := by
  rw [locate, locateFrom]
  rcases @walk_of_plain t follow p [] (fun q _ hq hne => hopen q hq hne) hlink with
    h | rfl
  · rw [h, List.nil_append]
  · rfl

/-- A path through a directory that has no entry of the next name leads nowhere. -/
theorem locate_of_missing {follow : Bool} {q p : Path}
    (hopen : ∀ r, r <+: q → r ≠ q → t.IsOpenDir r) (hq : t.node q = none) (hqp : q <+: p)
    (hne : q ≠ p) : t.locate follow p = .error .enoent := by
  obtain ⟨rest, rfl⟩ := hqp
  have hrest : rest ≠ [] := by
    rintro rfl
    simp at hne
  have hwalk : ∀ (a : List Name) (cur : Path), cur ++ a = q →
      t.walk follow cur ((a ++ rest).map .name) = .stuck .enoent ∨ a = [] := by
    intro a
    induction a with
    | nil => exact fun cur _ => Or.inr rfl
    | cons n a ih =>
        intro cur hcur
        refine Or.inl ?_
        have hc : t.IsOpenDir cur := by
          refine hopen cur ⟨n :: a, hcur⟩ ?_
          rintro rfl
          simp at hcur
        rw [List.cons_append, List.map_cons, walk, if_pos hc.canSearch_dirMode]
        cases a with
        | nil =>
            rw [hcur, hq]
            dsimp only
            rw [if_neg (by simpa using hrest)]
        | cons n' a =>
            have hnext : t.IsOpenDir (cur ++ [n]) := by
              refine hopen (cur ++ [n]) ⟨n' :: a, by simpa using hcur⟩ ?_
              rintro rfl
              simp at hcur
            obtain ⟨m, hm, _⟩ := hnext
            rw [hm]
            dsimp only
            rcases ih (cur ++ [n]) (by simpa using hcur) with h | h
            · exact h
            · simp at h
  rw [locate, locateFrom]
  rcases hwalk q [] rfl with h | rfl
  · rw [h]
  · obtain ⟨m, hm⟩ := t.root_dir
    rw [hm] at hq
    simp at hq

end Tree

end Posix
