/-
**Which names a mount finds in any case.**

The map from folded paths to spellings is filled from the layers, the lowest first: of each its target
and the names of its archive, where they show and are not hidden, and then the directories that the
targets imply.  A path that resolves is thereby in the map, under some spelling, but the spelling
may be a lower layer's, and that layer need not serve what it spells: its target may be a place where
its archive has nothing, and a name of its archive may be a link that cannot be read.

Main definitions:

* `pathOf`, `pathText` — paths and their texts;
* `MapOrder`, `zipSpelling`, `layerSpellings`, `Mount.spellings`, `Mount.canonCase` — the map;
* `Layer.Serves`, `Mount.Serves` — what layers serve;
* `Mount.Idle` — a spelling that some layer gives and none serves;
* `Mount.FindsEveryName`, `Mount.NoIdleSpelling`.

Main results:

* `lookup_serves` — a lookup finds what the layers serve;
* `serves_or_idle` — **a spelling is served or idle**;
* `canonicalCase_iff` — **a mount of archives finds every name in any case exactly when no idle
  spelling comes first for a name that it serves**;
* `emptyTarget_hides` — a mount that does not.
-/

import Mathlib.Data.Char
import Mathlib.Data.List.Lex
import Mathlib.Data.List.Sort
import VidyaGodFS.CaseFold
import VidyaGodFS.ChainArchive
import VidyaGodFS.Overlay
import VidyaGodFS.SpecMount
import VidyaGodFS.StackMasks
import VidyaGodFS.ZipListing

set_option relaxedAutoImplicit false
set_option autoImplicit false

namespace VidyaGodFS

open Posix

variable {ε : Type}

/-! ### Paths and their texts -/

/-- The text of a path. -/
def pathText (p : Path) : Text := List.intercalate ['/'] (p.map String.toList)

/-- The path of a text. -/
def pathOf (s : Text) : Path := if s = [] then [] else (Tree.splitSlash s).map String.ofList

/-- `NormalizeVPath`: the slashes at the ends are dropped. -/
def normalizeText (s : Text) : Text := (s.dropWhile (· = '/')).rdropWhile (· = '/')

/-- No name of the path has a slash. -/
def NoSlash (p : Path) : Prop := ∀ n ∈ p, '/' ∉ n.toList

theorem NoSlash.append {p q : Path} (hp : NoSlash p) (hq : NoSlash q) : NoSlash (p ++ q) :=
  fun n hn => (List.mem_append.1 hn).elim (hp n) (hq n)

theorem NoSlash.of_sublist {p q : Path} (h : NoSlash q) (hsub : p.Sublist q) : NoSlash p :=
  fun n hn => h n (hsub.subset hn)

theorem noSlash_pathOf (s : Text) : NoSlash (pathOf s) := by
  rw [pathOf]
  split
  · exact fun n hn => by simp at hn
  · intro n hn
    obtain ⟨w, hw, rfl⟩ := List.mem_map.1 hn
    rw [String.toList_ofList]
    exact (splitSlash_iff.1 rfl).plain w hw

theorem pathText_pathOf (s : Text) : pathText (pathOf s) = s := by
  rw [pathOf]
  split
  · rename_i h
    rw [h]
    rfl
  · have hid : String.toList ∘ String.ofList = id := funext fun w => String.toList_ofList
    rw [pathText, List.map_map, hid, List.map_id]
    exact (splitSlash_iff.1 rfl).joined

theorem pathText_cons_cons (n n' : Name) (p : Path) :
    pathText (n :: n' :: p) = n.toList ++ '/' :: pathText (n' :: p) := by
  simp [pathText, List.intercalate]

theorem pathText_eq_nil {p : Path} : pathText p = [] ↔ p = [] ∨ p = [""] := by
  rcases p with _ | ⟨n, _ | ⟨n', p⟩⟩
  · simp [pathText]
  · simp [pathText]
  · simp [pathText_cons_cons]

/-- A path is the path of its text. -/
theorem pathOf_pathText {p : Path} (h : NoSlash p) (hne : p ≠ [""]) : pathOf (pathText p) = p := by
  by_cases hnil : p = []
  · rw [hnil]
    rfl
  · rw [pathOf, if_neg fun h => (pathText_eq_nil.1 h).elim hnil hne]
    have hsplit : Tree.splitSlash (pathText p) = p.map String.toList := by
      refine splitSlash_iff.2 ⟨by simpa using hnil, ?_, rfl⟩
      intro w hw
      obtain ⟨n, hn, rfl⟩ := List.mem_map.1 hw
      exact h n hn
    rw [hsplit, List.map_map]
    exact (List.map_congr_left fun n _ => String.ofList_toList).trans (List.map_id p)

theorem pathText_concat {p : Path} (hp : p ≠ []) : pathText (p ++ [""]) = pathText p ++ ['/'] := by
  induction p with
  | nil => exact absurd rfl hp
  | cons n p ih =>
      cases p with
      | nil => simp [pathText, List.intercalate]
      | cons n' p =>
          rw [List.cons_append, List.cons_append, pathText_cons_cons, ← List.cons_append,
            ih (by simp), pathText_cons_cons, List.append_assoc, List.cons_append]

theorem getLast?_normalizeText (s : Text) : (normalizeText s).getLast? ≠ some '/' := by
  intro h
  have hne : normalizeText s ≠ [] := by
    intro hnil
    simp [hnil] at h
  have hend := List.rdropWhile_last_not (· = '/') (s.dropWhile (· = '/')) hne
  exact hend (decide_eq_true (Option.some_inj.1 ((List.getLast?_eq_some_getLast hne).symm.trans h)))

/-- The path of a text without slashes at its ends has no empty name at its end. -/
theorem getLast?_pathOf {s : Text} (h : normalizeText s = s) : (pathOf s).getLast? ≠ some "" := by
  intro hlast
  obtain ⟨p, hp⟩ := List.getLast?_eq_some_iff.1 hlast
  have htext := pathText_pathOf s
  rw [hp] at htext
  by_cases hnil : p = []
  · rw [hnil] at htext hp
    have hs : s = [] := htext.symm
    rw [hs] at hp
    simp [pathOf] at hp
  · rw [pathText_concat hnil] at htext
    refine getLast?_normalizeText s ?_
    rw [h, ← htext, List.getLast?_concat]

/-! ### The map -/

/-- The orders in which the names and the directories of an index are walked.  They are kept in
unordered maps, so any order may be. -/
structure MapOrder where
  names : ZipIndex → List Path
  dirs : ZipIndex → List Path
  names_perm : ∀ Z, (names Z).Perm (Z.byName.map Prod.fst)
  dirs_perm : ∀ Z, (dirs Z).Perm (Z.dirChildren.map Prod.fst)

/-- Where the name `rel` of the archive shows.  A name that is the subpath and a slash shows where the
subpath does. -/
def zipSpelling (L : Layer) (rel : Path) : Option Path :=
  if L.subpath.isPrefixOf rel then
    let under := rel.drop L.subpath.length
    some (if under = [""] then L.target else L.target ++ under)
  else none

/-- The spellings that a layer gives, in order: those that are hidden, and the root, are left out. -/
def layerSpellings (order : MapOrder) (L : Layer) : List Path :=
  let given :=
    match L.type with
    | .file => [L.fileVPath]
    | .dir => [L.target]
    | .zip Z => L.target :: (order.names Z ++ order.dirs Z).filterMap (zipSpelling L)
  given.filter fun V => V ≠ [] ∧ layerMasked L V = false

namespace Mount

variable (M : Mount)

/-- All spellings in the order in which they are entered: those of the layers, the lowest first, and
the implied directories. -/
def spellings (order : MapOrder) : List Path :=
  M.layers.flatMap (layerSpellings order) ++
    M.implicitDirs.insertionSort fun p q => pathText p ≤ pathText q

/-- **The map from folded paths to their spellings.** -/
def canonCase (order : MapOrder) : CaseMap :=
  ((M.spellings order).map pathText).foldl CaseMap.add .empty

end Mount

/-! ### What the layers serve -/

/-- A link that is compressed, encrypted or longer than a path: it is not served. -/
def ZipEntry.Unreadable (e : ZipEntry) : Prop :=
  e.symlink = true ∧ (4096 < e.size ∨ e.stored = false)

/-- **The archive layer serves something at `v`**: its index has an entry there that is not an
unreadable link, or a directory that the names of entries imply. -/
def Layer.Serves (flatten : Bool) (L : Layer) (v : Path) : Prop :=
  layerCovers L v = true ∧ layerMasked L v = false ∧ ∃ Z, L.type = .zip Z ∧
    ((∃ e, Z.entry (sourceRel L v) = some e ∧ ¬ (flatten = true ∧ e.Unreadable)) ∨
      Z.entry (sourceRel L v) = none ∧ (Z.children (sourceRel L v)).isSome = true)

/-- Some layer serves something at `v`, or a target implies it. -/
def Mount.Serves (M : Mount) (v : Path) : Prop :=
  (∃ L ∈ M.layers, L.Serves M.flattenSymlinks v) ∨ v ∈ M.implicitDirs

/-- An unreadable link leads nowhere. -/
theorem resolveZipSymlink_unreadable {Z : ZipIndex} {e : ZipEntry} (h : e.Unreadable)
    (s : VfsState) : (resolveZipSymlink Z e : View (Option ZipEntry)) s = none := by
  obtain ⟨hlink, hbad⟩ := h
  have hfollow : (followZipLink Z e : View (Option ZipEntry)) s = none := by
    rw [followZipLink, if_pos]
    · rfl
    · exact hbad.elim (fun h => Or.inr (Or.inr h)) Or.inl
  have hchase : (chaseZipLinks Z 8 e : View (Option ZipEntry)) s = none := by
    rw [chaseZipLinks, if_pos hlink, View.bind_apply, hfollow]
    rfl
  rw [resolveZipSymlink, View.bind_apply, hchase]
  rfl

/-- What an archive layer says of a path: something when it serves it, and nothing otherwise. -/
theorem resolveLayer_zip {M : Mount} {L : Layer} {Z : ZipIndex} (hL : L.type = .zip Z) (v : Path)
    (s : VfsState) :
    (L.Serves M.flattenSymlinks v ∧ ∃ e, (resolveLayer M L v : View (Option ResolveResult)) s
        = some (.zipEntry L Z e)) ∨
      ¬ L.Serves M.flattenSymlinks v ∧ (resolveLayer M L v : View (Option ResolveResult)) s = none := by
  have hzip : ∀ Z', L.type = .zip Z' → Z' = Z := by
    intro Z' hZ'
    rw [hL] at hZ'
    exact (LayerType.zip.inj hZ').symm
  by_cases hshow : layerCovers L v = true ∧ layerMasked L v = false
  · obtain ⟨hcov, hmask⟩ := hshow
    rw [resolveLayer, hcov, hmask, hL]
    dsimp only
    rw [if_neg (by simp)]
    cases he : Z.entry (sourceRel L v) with
    | none =>
        dsimp only
        by_cases hdir : (Z.children (sourceRel L v)).isSome = true
        · rw [if_pos hdir]
          exact Or.inl ⟨⟨hcov, hmask, Z, hL, Or.inr ⟨he, hdir⟩⟩, none, rfl⟩
        · rw [if_neg hdir]
          refine Or.inr ⟨?_, rfl⟩
          rintro ⟨_, _, Z', hZ', ⟨e, he', _⟩ | ⟨_, hdir'⟩⟩
          · rw [hzip Z' hZ', he] at he'
            cases he'
          · rw [hzip Z' hZ'] at hdir'
            exact hdir hdir'
    | some e =>
        dsimp only
        by_cases hbad : M.flattenSymlinks = true ∧ e.Unreadable
        · rw [if_pos (by rw [hbad.1, hbad.2.1]; rfl), View.bind_apply,
            resolveZipSymlink_unreadable hbad.2]
          dsimp only
          rw [if_pos hbad.2.2]
          refine Or.inr ⟨?_, rfl⟩
          rintro ⟨_, _, Z', hZ', ⟨e', he', hgood⟩ | ⟨hnone, _⟩⟩
          · rw [hzip Z' hZ', he] at he'
            obtain rfl := Option.some_inj.1 he'
            exact hgood hbad
          · rw [hzip Z' hZ', he] at hnone
            cases hnone
        · refine Or.inl ⟨⟨hcov, hmask, Z, hL, Or.inl ⟨e, he, hbad⟩⟩, ?_⟩
          by_cases hlink : (M.flattenSymlinks && e.symlink) = true
          · rw [if_pos hlink, View.bind_apply]
            cases (resolveZipSymlink Z e : View (Option ZipEntry)) s with
            | some t => exact ⟨some t, rfl⟩
            | none =>
                rw [Bool.and_eq_true] at hlink
                dsimp only
                rw [if_neg fun h => hbad ⟨hlink.1, hlink.2, h⟩]
                exact ⟨some e, rfl⟩
          · rw [if_neg hlink]
            exact ⟨some e, rfl⟩
  · refine Or.inr ⟨fun h => hshow ⟨h.1, h.2.1⟩, ?_⟩
    rw [resolveLayer, if_pos]
    · rfl
    · rw [Bool.or_eq_true, Bool.not_eq_true']
      by_cases hcov : layerCovers L v = true
      · exact Or.inr (by simpa using fun h => hshow ⟨hcov, h⟩)
      · exact Or.inl (by simpa using hcov)

/-- **A lookup finds what the layers serve.** -/
theorem lookup_serves {M : Mount} (hzip : ∀ L ∈ M.layers, ∃ Z, L.type = .zip Z)
    (hwl : M.writelayer = none) (s : VfsState) (v : Path) :
    (lookup M s v).isNone = false ↔ M.Serves v := by
  have hlayers : ∀ layers : List Layer, (∀ L ∈ layers, ∃ Z, L.type = .zip Z) →
      (((resolveLayers M v layers : View ResolveResult) s).isNone = false ↔
        (∃ L ∈ layers, L.Serves M.flattenSymlinks v) ∨ v ∈ M.implicitDirs) := by
    intro layers
    induction layers with
    | nil =>
        intro _
        rw [resolveLayers, View.pure_apply]
        by_cases hv : v ∈ M.implicitDirs
        · rw [if_pos hv]
          exact iff_of_true rfl (Or.inr hv)
        · rw [if_neg hv]
          exact iff_of_false (by simp [ResolveResult.isNone]) (by simp [hv])
    | cons L layers ih =>
        intro h
        obtain ⟨Z, hZ⟩ := h L (by simp)
        rw [resolveLayers, View.bind_apply]
        rcases resolveLayer_zip hZ v s with ⟨hserves, e, he⟩ | ⟨hnot, he⟩
        · rw [he]
          exact iff_of_true rfl (Or.inl ⟨L, by simp, hserves⟩)
        · rw [he]
          dsimp only
          rw [ih fun L' hL' => h L' (List.mem_cons_of_mem _ hL')]
          simp [hnot]
  rw [lookup, resolve, if_pos hwl, hlayers _ fun L hL => hzip L (List.mem_reverse.1 hL), Mount.Serves]
  simp

/-! ### Spellings and what is served -/

/-- **A spelling that the layer gives and does not serve**: its target, where its archive has nothing
at the subpath, or an unreadable link. -/
def Layer.Idle (flatten : Bool) (L : Layer) (V : Path) : Prop :=
  layerCovers L V = true ∧ layerMasked L V = false ∧ ∃ Z, L.type = .zip Z ∧
    ((V = L.target ∧ Z.entry L.subpath = none ∧ Z.children L.subpath = none) ∨
      ∃ e, Z.entry (sourceRel L V) = some e ∧ flatten = true ∧ e.Unreadable)

/-- A spelling that is idle in some layer and served by none. -/
def Mount.Idle (M : Mount) (V : Path) : Prop :=
  (∃ L ∈ M.layers, L.Idle M.flattenSymlinks V) ∧ ¬ M.Serves V

theorem layerCovers_zip {L : Layer} {Z : ZipIndex} (hL : L.type = .zip Z) (v : Path) :
    layerCovers L v = L.target.isPrefixOf v := by
  rw [layerCovers, Layer.isFileLayer, hL]
  rfl

/-- What the layer has at a path below its target: it serves it, or it is a link that cannot be read,
or nothing. -/
theorem serves_or_idle_or_nothing {L : Layer} {Z : ZipIndex} (hL : L.type = .zip Z) (flatten : Bool)
    {V : Path} (hcov : L.target.isPrefixOf V = true) (hmask : layerMasked L V = false) :
    L.Serves flatten V ∨ L.Idle flatten V ∨
      Z.entry (sourceRel L V) = none ∧ Z.children (sourceRel L V) = none := by
  rw [← layerCovers_zip hL] at hcov
  cases he : Z.entry (sourceRel L V) with
  | some e =>
      by_cases hbad : flatten = true ∧ e.Unreadable
      · exact Or.inr (Or.inl ⟨hcov, hmask, Z, hL, Or.inr ⟨e, he, hbad⟩⟩)
      · exact Or.inl ⟨hcov, hmask, Z, hL, Or.inl ⟨e, he, hbad⟩⟩
  | none =>
      cases hdir : Z.children (sourceRel L V) with
      | some names => exact Or.inl ⟨hcov, hmask, Z, hL, Or.inr ⟨he, by rw [hdir]; rfl⟩⟩
      | none => exact Or.inr (Or.inr ⟨rfl, rfl⟩)

theorem sourceRel_append (L : Layer) (under : Path) :
    sourceRel L (L.target ++ under) = L.subpath ++ under := by
  rw [sourceRel, relUnder, List.drop_left]

theorem mem_names {order : MapOrder} {Z : ZipIndex} {rel : Path} :
    rel ∈ order.names Z ++ order.dirs Z ↔
      Z.entry rel ≠ none ∨ Z.children rel ≠ none := by
  have hkeys : ∀ {α : Type} (m : List (Path × α)), rel ∈ m.map Prod.fst ↔ m.lookup rel ≠ none := by
    intro α m
    rw [ne_eq, List.lookup_eq_none_iff]
    simp
  rw [List.mem_append, (order.names_perm Z).mem_iff, (order.dirs_perm Z).mem_iff, hkeys, hkeys]
  rfl

/-- **A spelling that a layer gives is served there or idle.** -/
theorem layerSpellings_serves {order : MapOrder} {L : Layer} {Z : ZipIndex} (hL : L.type = .zip Z)
    (flatten : Bool) {V : Path} (hV : V ∈ layerSpellings order L) :
    L.Serves flatten V ∨ L.Idle flatten V := by
  rw [layerSpellings, hL] at hV
  obtain ⟨hgiven, hkeep⟩ := List.mem_filter.1 hV
  have hmask : layerMasked L V = false := (of_decide_eq_true hkeep).2
  have htarget : V = L.target → L.Serves flatten V ∨ L.Idle flatten V := by
    rintro rfl
    have hrel : sourceRel L L.target = L.subpath := by
      simpa using sourceRel_append L []
    have hself : L.target.isPrefixOf L.target = true := by simp
    rcases serves_or_idle_or_nothing hL flatten hself hmask with h | h | ⟨hentry, hdir⟩
    · exact Or.inl h
    · exact Or.inr h
    · rw [hrel] at hentry hdir
      exact Or.inr ⟨(layerCovers_zip hL _).trans hself, hmask, Z, hL, Or.inl ⟨rfl, hentry, hdir⟩⟩
  rcases List.mem_cons.1 hgiven with hV | hzip
  · exact htarget hV
  · obtain ⟨rel, hrel, hspell⟩ := List.mem_filterMap.1 hzip
    rw [zipSpelling] at hspell
    split at hspell
    · rename_i hpre
      obtain ⟨under, rfl⟩ := List.isPrefixOf_iff_prefix.1 hpre
      rw [List.drop_left] at hspell
      dsimp only at hspell
      split at hspell
      · exact htarget (Option.some_inj.1 hspell).symm
      · obtain rfl := Option.some_inj.1 hspell
        rcases serves_or_idle_or_nothing hL flatten (by simp) hmask with h | h | ⟨hentry, hdir⟩
        · exact Or.inl h
        · exact Or.inr h
        · rw [sourceRel_append] at hentry hdir
          exact ((mem_names.1 hrel).elim (absurd hentry) (absurd hdir))
    · cases hspell

/-- **What an archive layer serves it spells.** -/
theorem mem_layerSpellings {order : MapOrder} {L : Layer} {flatten : Bool} {v : Path}
    (h : L.Serves flatten v) (hne : v ≠ []) (hlast : v.getLast? ≠ some "") :
    v ∈ layerSpellings order L := by
  obtain ⟨hcov, hmask, Z, hL, hZ⟩ := h
  rw [layerCovers_zip hL] at hcov
  obtain ⟨under, rfl⟩ := List.isPrefixOf_iff_prefix.1 hcov
  rw [layerSpellings, hL]
  refine List.mem_filter.2 ⟨List.mem_cons_of_mem _ (List.mem_filterMap.2 ⟨L.subpath ++ under, ?_, ?_⟩),
    decide_eq_true ⟨hne, hmask⟩⟩
  · rw [sourceRel_append] at hZ
    rw [mem_names]
    rcases hZ with ⟨e, he, _⟩ | ⟨_, hdir⟩
    · exact Or.inl (by simp [he])
    · exact Or.inr (by rw [← Option.isSome_iff_ne_none]; exact hdir)
  · have hunder : under ≠ [""] := by
      rintro rfl
      exact hlast List.getLast?_concat
    rw [zipSpelling, if_pos (by simp), List.drop_left]
    dsimp only
    rw [if_neg hunder]

section Mounts

variable {M : Mount} {order : MapOrder}

theorem serves_or_idle (hzip : ∀ L ∈ M.layers, ∃ Z, L.type = .zip Z) {V : Path}
    (hV : V ∈ M.spellings order) : M.Serves V ∨ M.Idle V := by
  by_cases hserves : M.Serves V
  · exact Or.inl hserves
  · rcases List.mem_append.1 hV with hV | hV
    · obtain ⟨L, hL, hV⟩ := List.mem_flatMap.1 hV
      obtain ⟨Z, hZ⟩ := hzip L hL
      rcases layerSpellings_serves hZ M.flattenSymlinks hV with h | h
      · exact absurd (Or.inl ⟨L, hL, h⟩) hserves
      · exact Or.inr ⟨⟨L, hL, h⟩, hserves⟩
    · exact absurd (Or.inr ((List.mem_insertionSort _).1 hV)) hserves

/-- What the mount serves is spelled. -/
theorem mem_spellings {v : Path} (h : M.Serves v) (hne : v ≠ []) (hlast : v.getLast? ≠ some "") :
    v ∈ M.spellings order := by
  rcases h with ⟨L, hL, h⟩ | h
  · exact List.mem_append_left _ (List.mem_flatMap.2 ⟨L, hL, mem_layerSpellings h hne hlast⟩)
  · exact List.mem_append_right _ ((List.mem_insertionSort _).2 h)

/-- **A mount of archives whose paths are paths of texts**: no name has a slash, and no target starts
with one. -/
structure Mount.PlainNames (M : Mount) : Prop where
  zips : ∀ L ∈ M.layers, ∃ Z, L.type = .zip Z ∧
    ∀ p, Z.entry p ≠ none ∨ Z.children p ≠ none → NoSlash p
  targets : ∀ L ∈ M.layers, NoSlash L.target ∧ L.target.head? ≠ some ""

theorem ne_empty_of_head {p : Path} (h : p.head? ≠ some "") : p ≠ [""] := by
  rintro rfl
  exact h rfl

/-- Every spelling is the path of its text. -/
theorem pathOf_spelling (hM : M.PlainNames) {V : Path} (hV : V ∈ M.spellings order) :
    pathOf (pathText V) = V := by
  rcases List.mem_append.1 hV with hV | hV
  · obtain ⟨L, hL, hV⟩ := List.mem_flatMap.1 hV
    obtain ⟨Z, hZ, hnames⟩ := hM.zips L hL
    obtain ⟨hslash, hhead⟩ := hM.targets L hL
    rw [layerSpellings, hZ] at hV
    obtain ⟨hgiven, hkeep⟩ := List.mem_filter.1 hV
    rcases List.mem_cons.1 hgiven with rfl | hzip
    · exact pathOf_pathText hslash (ne_empty_of_head hhead)
    · obtain ⟨rel, hrel, hspell⟩ := List.mem_filterMap.1 hzip
      rw [zipSpelling] at hspell
      split at hspell
      · dsimp only at hspell
        split at hspell
        · obtain rfl := Option.some_inj.1 hspell
          exact pathOf_pathText hslash (ne_empty_of_head hhead)
        · rename_i hunder
          obtain rfl := Option.some_inj.1 hspell
          have hrest :=
        (hnames rel (mem_names.1 hrel)).of_sublist (List.drop_sublist L.subpath.length rel)
          refine pathOf_pathText (hslash.append hrest) fun heq => ?_
          rcases htarget : L.target with _ | ⟨n, t⟩
          · rw [htarget, List.nil_append] at heq
            exact hunder heq
          · rw [htarget] at heq hhead
            obtain ⟨rfl, _⟩ := List.cons.inj heq
            exact hhead rfl
      · cases hspell
  · rw [List.mem_insertionSort, Mount.implicitDirs] at hV
    obtain ⟨L, hL, hV⟩ := List.mem_flatMap.1 hV
    obtain ⟨Z, hZ, _⟩ := hM.zips L hL
    obtain ⟨hslash, hhead⟩ := hM.targets L hL
    have hplace : L.place = L.target := by
      rw [Layer.place, Layer.isFileLayer, hZ]
      rfl
    rw [hplace] at hV
    split at hV
    · simp at hV
    · obtain ⟨hpre, hkeep⟩ := List.mem_filter.1 hV
      have hpre := (List.mem_inits _ _).1 hpre
      refine pathOf_pathText (hslash.of_sublist hpre.sublist) fun heq => ?_
      rw [heq] at hpre
      obtain ⟨rest, hrest⟩ := hpre
      rw [← hrest] at hhead
      exact hhead rfl

theorem ne_nil_of_mem_spellings {V : Path} (hV : V ∈ M.spellings order) : V ≠ [] := by
  rcases List.mem_append.1 hV with hV | hV
  · obtain ⟨L, hL, hV⟩ := List.mem_flatMap.1 hV
    exact (of_decide_eq_true (List.mem_filter.1 hV).2).1
  · rw [List.mem_insertionSort, Mount.implicitDirs] at hV
    obtain ⟨L, hL, hV⟩ := List.mem_flatMap.1 hV
    split at hV
    · simp at hV
    · exact (of_decide_eq_true (List.mem_filter.1 hV).2).1

/-- A path is spelled as the first spelling with its folding. -/
theorem canonicalCase_of_first {pre post : List Path} {V : Path}
    (hsplit : M.spellings order = pre ++ V :: post)
    (hpre : ∀ W ∈ pre, foldCase (pathText W) ≠ foldCase (pathText V)) {v : Text} (hv : v ≠ [])
    (hfold : foldCase v = foldCase (pathText V)) :
    canonicalCase true (M.canonCase order) v = pathText V := by
  refine canonicalCase_eq hv ?_
  have hfind : (M.spellings order).find? (fun W => foldCase (pathText W) == foldCase v) = some V := by
    refine List.find?_eq_some_iff_append.2 ⟨?_, pre, post, hsplit, fun W hW => ?_⟩
    · rw [hfold, beq_self_eq_true]
    · rw [hfold, beq_false_of_ne (hpre W hW)]
      rfl
  rw [Mount.canonCase, CaseMap.spelling_addAll, List.find?_map]
  exact congrArg (Option.map pathText) hfind

/-- **A name that the mount serves has a first spelling.** -/
theorem exists_first (order : MapOrder) {N : Text} (hnorm : normalizeText N = N) (hne : N ≠ [])
    (hserves : M.Serves (pathOf N)) :
    ∃ pre V post, M.spellings order = pre ++ V :: post ∧
      (∀ W ∈ pre, foldCase (pathText W) ≠ foldCase (pathText V)) ∧
      foldCase N = foldCase (pathText V) := by
  have hpath : pathOf N ≠ [] := by
    intro h
    have := pathText_pathOf N
    rw [h] at this
    exact hne this.symm
  have hmem : pathOf N ∈ M.spellings order :=
    mem_spellings hserves hpath (getLast?_pathOf hnorm)
  have hsome : ((M.spellings order).find? fun V => foldCase (pathText V) == foldCase N).isSome := by
    rw [List.find?_isSome]
    exact ⟨pathOf N, hmem, by rw [pathText_pathOf, beq_self_eq_true]⟩
  obtain ⟨V, hV⟩ := Option.isSome_iff_exists.1 hsome
  obtain ⟨hfold, pre, post, hsplit, hpre⟩ := List.find?_eq_some_iff_append.1 hV
  have hfold : foldCase (pathText V) = foldCase N := eq_of_beq hfold
  refine ⟨pre, V, post, hsplit, fun W hW heq => ?_, hfold.symm⟩
  have := hpre W hW
  rw [heq, hfold] at this
  simp at this

/-- **Every name is found in any case**: what resolves in one spelling resolves in all, as
`CanonicalCase` has it. -/
def Mount.FindsEveryName (M : Mount) (order : MapOrder) (s : VfsState) : Prop :=
  ∀ N v : Text, normalizeText N = N → foldCase v = foldCase N →
    (lookup M s (pathOf N)).isNone = false →
      (lookup M s (pathOf (canonicalCase true (M.canonCase order) v))).isNone = false

/-- **No idle spelling comes first for a name that is served.** -/
def Mount.NoIdleSpelling (M : Mount) (order : MapOrder) : Prop :=
  ∀ pre V post, M.spellings order = pre ++ V :: post →
    (∀ W ∈ pre, foldCase (pathText W) ≠ foldCase (pathText V)) → M.Idle V →
      ∀ N : Text, normalizeText N = N → foldCase N = foldCase (pathText V) → ¬ M.Serves (pathOf N)

theorem findsEveryName_iff (hM : M.PlainNames) (hwl : M.writelayer = none) (order : MapOrder)
    (s : VfsState) : M.FindsEveryName order s ↔ M.NoIdleSpelling order := by
  have hzip : ∀ L ∈ M.layers, ∃ Z, L.type = .zip Z := fun L hL =>
    let ⟨Z, hZ, _⟩ := hM.zips L hL
    ⟨Z, hZ⟩
  have hlook := lookup_serves hzip hwl s
  constructor
  · intro h pre V post hsplit hpre hidle N hnorm hfold hserves
    have hmem : V ∈ M.spellings order := by
      rw [hsplit]
      simp
    have hV := pathOf_spelling hM hmem
    have hne : N ≠ [] := by
      rintro rfl
      have hnil := List.length_eq_zero_iff.1 (length_of_foldCase_eq hfold).symm
      rw [hnil] at hV
      exact ne_nil_of_mem_spellings hmem hV.symm
    have hfound := h N N hnorm rfl ((hlook _).2 hserves)
    rw [canonicalCase_of_first hsplit hpre hne hfold, hV] at hfound
    exact hidle.2 ((hlook V).1 hfound)
  · intro h N v hnorm hfold hN
    by_cases hne : N = []
    · have hv : v = [] := by
        rw [hne] at hfold
        exact List.length_eq_zero_iff.1 (length_of_foldCase_eq hfold)
      rw [hv, canonicalCase, if_pos (Or.inr (Or.inr rfl)), ← hne]
      exact hN
    · have hserves := (hlook _).1 hN
      obtain ⟨pre, V, post, hsplit, hpre, hfirst⟩ := exists_first order hnorm hne hserves
      have hmem : V ∈ M.spellings order := by
        rw [hsplit]
        simp
      have hv : v ≠ [] := by
        rintro rfl
        exact hne (List.length_eq_zero_iff.1 (length_of_foldCase_eq hfold).symm)
      rw [canonicalCase_of_first hsplit hpre hv (hfold.trans hfirst), pathOf_spelling hM hmem, hlook]
      rcases serves_or_idle hzip hmem with hV | hidle
      · exact hV
      · exact absurd hserves (h pre V post hsplit hpre hidle N hnorm hfirst)

end Mounts

/-! ### The mount of a spec -/

/-- No path of the index has a slash in a name. -/
def ZipIndex.NoSlashes (Z : ZipIndex) : Prop :=
  ∀ p, Z.entry p ≠ none ∨ Z.children p ≠ none → NoSlash p

theorem registerParents_noSlash : ∀ (fuel : ℕ) (cur : Path) (kids : List (Path × List Name)),
    NoSlash cur → (∀ p, kids.lookup p ≠ none → NoSlash p) →
      ∀ p, (registerParents fuel cur kids).lookup p ≠ none → NoSlash p := by
  intro fuel
  induction fuel with
  | zero => exact fun cur kids _ h => h
  | succ fuel ih =>
      intro cur kids hcur h
      have hup : NoSlash cur.dropLast := hcur.of_sublist (List.dropLast_sublist cur)
      rw [registerParents]
      cases cur.getLast? with
      | none => exact h
      | some child =>
          dsimp only
          have hadd : ∀ p, (addChild kids cur.dropLast child).lookup p ≠ none → NoSlash p := by
            intro p hp
            rw [addChild, lookup_setKey] at hp
            split at hp
            · rename_i heq
              rw [heq]
              exact hup
            · exact h p hp
          split
          · exact h
          · split
            · exact hadd
            · exact ih _ _ hup hadd

theorem ZipIndex.NoSlashes.add {Z : ZipIndex} (h : Z.NoSlashes) {e : ZipEntry}
    (he : NoSlash e.name) : (Z.add e).NoSlashes := by
  rintro p (hp | hp)
  · rw [entry_add] at hp
    split at hp
    · rename_i heq
      rw [heq]
      exact he
    · exact h p (Or.inl hp)
  · refine registerParents_noSlash _ _ _ he ?_ p hp
    intro q hq
    split at hq
    · rw [lookup_setKey] at hq
      split at hq
      · rename_i heq
        rw [heq]
        exact he
      · exact h q (Or.inr hq)
    · exact h q (Or.inr hq)

theorem addStat_noSlashes (src : ByteSource) (offsets : List (Path × ℕ)) {Z : ZipIndex}
    (h : Z.NoSlashes) (raw : Bytes) (st : ZipStat) :
    Prog.Triple (fun _ => True) (addStat src offsets Z raw st : Prog ℕ ε ZipIndex)
      (fun Z' _ => Z'.NoSlashes) (fun _ _ => True) := by
  have hraw : NoSlash (normalizeVPath raw) := noSlash_pathOf (normalizeText (linkTarget raw))
  rw [addStat]
  dsimp only
  split
  · exact Prog.Triple.pure fun _ _ => h
  · split
    · exact Prog.Triple.pure fun _ _ => h.add hraw
    · split
      · refine Prog.Triple.bind (Q := fun _ _ => True) (Prog.Triple.triv _) fun offset => ?_
        exact Prog.Triple.pure fun _ _ => h.add hraw
      · exact Prog.Triple.pure fun _ _ => h.add hraw

theorem addStats_noSlashes (src : ByteSource) (offsets : List (Path × ℕ))
    (stats : List (Option ZipStat)) : ∀ {Z : ZipIndex}, Z.NoSlashes →
    Prog.Triple (fun _ => True) (addStats src offsets stats Z : Prog ℕ ε ZipIndex)
      (fun Z' _ => Z'.NoSlashes) (fun _ _ => True) := by
  induction stats with
  | nil => exact fun h => Prog.Triple.pure fun _ _ => h
  | cons st stats ih =>
      intro Z h
      rw [addStats]
      rcases st.bind fun st => st.name.map fun raw => (raw, st) with _ | ⟨raw, s⟩
      · exact ih h
      · exact Prog.Triple.bind (addStat_noSlashes src offsets h raw s) fun Z' t hZ' => ih hZ' t trivial

/-- **The paths of an index that is built have no slashes in their names.** -/
theorem buildZipIndex_noSlashes (lib : Libzip ε) (src : ByteSource) :
    Prog.Triple (fun _ => True) (buildZipIndex lib src)
      (fun r _ => ∀ Z, r = some Z → Z.NoSlashes) (fun _ _ => True) := by
  rw [buildZipIndex]
  refine Prog.Triple.bind (Q := fun _ _ => True) (Prog.Triple.triv _) fun r => ?_
  cases r with
  | none => exact Prog.Triple.pure fun _ _ Z hZ => by simp at hZ
  | some stats =>
      refine Prog.Triple.bind (Q := fun _ _ => True) (Prog.Triple.triv _) fun offsets => ?_
      have hstart : (⟨src, [], []⟩ : ZipIndex).NoSlashes := fun p hp => by
        simp [ZipIndex.entry, ZipIndex.children] at hp
      refine Prog.Triple.bind (addStats_noSlashes src offsets stats hstart) fun Z => ?_
      exact Prog.Triple.pure fun _ hZ Z' hZ' => Option.some_inj.1 hZ' ▸ hZ

/-- What holds of every layer a spec's layer surfaces as, and is kept when a layer is hidden
somewhere, holds of the layers of the mount. -/
theorem forall_stackLayers {V : Type} {T : Tools V} {S : Spec} {P : Layer → Prop}
    (hhide : ∀ (L : Layer) (hidden : List Path), P L → P { L with maskedUnder := hidden })
    (hmade : ∀ (B : LayerSpec) (type : LayerType) (st : InitState V) (gi prio : ℕ) (m : Path × Path),
      B ∈ S.layers → surfacesAs T S.chainTop st B gi = some type → m ∈ B.mounts →
        P ⟨type, B.source, m.2, m.1, B.rw, [], prio⟩) : ∀ L ∈ stackLayers T S, P L := by
  have hall : ∀ n ≤ S.layers.length, ∀ L ∈ (stackBefore T S n).layers, P L := by
    intro n
    induction n with
    | zero =>
        intro _ L hL
        cases hL
    | succ n ih =>
        intro hn
        have hB := List.getElem?_eq_getElem (l := S.layers) (i := n) (by omega)
        have henter := (enterStep_mounts T S.chainTop (stackBefore T S n) S.layers[n] n).2
        rw [stackBefore_succ hB, stackStep_eq]
        cases htype : surfacesAs T S.chainTop (stackBefore T S n) S.layers[n] n with
        | none =>
            dsimp only
            rw [henter]
            exact ih (by omega)
        | some type =>
            dsimp only
            intro L hL
            obtain ⟨i, hi⟩ := List.getElem?_of_mem hL
            rw [hideBases] at hi
            dsimp only at hi
            rw [getElem?_hideAll, Option.map_eq_some_iff] at hi
            obtain ⟨L₀, hL₀, rfl⟩ := hi
            refine hhide L₀ _ ?_
            have hmem := List.mem_of_getElem? hL₀
            rw [surface] at hmem
            dsimp only at hmem
            rcases List.mem_append.1 hmem with hmem | hmem
            · rw [henter] at hmem
              exact ih (by omega) L₀ hmem
            · rw [madeLayers, List.mem_mapIdx] at hmem
              obtain ⟨k, hk, rfl⟩ := hmem
              exact hmade _ type _ n _ _ (List.getElem_mem _) htype (List.getElem_mem hk)
  have hend := hall S.layers.length le_rfl
  rwa [stackBefore_length] at hend

/-- The places of a spec are paths that `NormalizeVPath` returns. -/
def Spec.Normalized (S : Spec) : Prop :=
  ∀ B ∈ S.layers, ∀ m ∈ B.mounts, ∃ raw : Text, m.2 = pathOf (normalizeText raw)

theorem head?_normalizeText (s : Text) : (normalizeText s).head? ≠ some '/' := by
  intro h
  obtain ⟨rest, hrest⟩ := List.rdropWhile_prefix (· = '/') (s.dropWhile (· = '/'))
  cases hs : normalizeText s with
  | nil => simp [hs] at h
  | cons c t =>
      rw [hs] at h
      obtain rfl : c = '/' := Option.some_inj.1 h
      rw [show (s.dropWhile (· = '/')).rdropWhile (· = '/') = '/' :: t from hs] at hrest
      have hnot := List.head?_dropWhile_not (fun c : Char => decide (c = '/')) s
      rw [← hrest] at hnot
      simp at hnot

theorem head?_pathOf {s : Text} (h : s.head? ≠ some '/') : (pathOf s).head? ≠ some "" := by
  intro hhead
  have htext := pathText_pathOf s
  rcases hp : pathOf s with _ | ⟨n, _ | ⟨n', p⟩⟩
  · simp [hp] at hhead
  · rw [hp] at hhead htext
    obtain rfl : n = "" := Option.some_inj.1 hhead
    have hs : s = [] := htext.symm
    rw [hs] at hp
    simp [pathOf] at hp
  · rw [hp] at hhead htext
    obtain rfl : n = "" := Option.some_inj.1 hhead
    rw [pathText_cons_cons] at htext
    exact h (by rw [← htext]; rfl)

section SpecMount

variable {files : HostPath → Option ByteSource} {z : Zstd} {lib : Libzip Empty}
  {concat : List ByteSource → ByteSource} {S : Spec} {o : MountOptions}

theorem mountTools_index_noSlashes {v : Source} {p : HostPath} {Z : ZipIndex}
    (h : (mountTools files z lib concat).index v p = some Z) : Z.NoSlashes := by
  have hpost := buildZipIndex_noSlashes lib (v.asSource z) 0 trivial
  change (buildZipIndex lib (v.asSource z) 0).1.toOption.join = some Z at h
  rcases hb : buildZipIndex lib (v.asSource z) 0 with ⟨e | r, t⟩
  · exact e.elim
  · rw [hb] at h hpost
    obtain rfl : r = some Z := h
    exact hpost Z rfl

/-- **The mount of zips and deltas** has archives as its layers, and paths of texts. -/
theorem mountOf_plainNames (harch : ∀ B ∈ S.layers, B.isArchive = true) (hnorm : S.Normalized) :
    (mountOf (mountTools files z lib concat) S o).PlainNames := by
  have hall := forall_stackLayers (T := mountTools files z lib concat) (S := S)
    (P := fun L => (∃ Z, L.type = .zip Z ∧ Z.NoSlashes) ∧ NoSlash L.target ∧ L.target.head? ≠ some "")
    (fun L hidden h => h) ?_
  · exact ⟨fun L hL => (hall L hL).1, fun L hL => (hall L hL).2⟩
  · intro B type st gi prio m hB htype hm
    obtain ⟨raw, hraw⟩ := hnorm B hB m hm
    refine ⟨?_, ?_, ?_⟩
    · rw [surfacesAs_archive (harch B hB)] at htype
      rcases hview : byteView (mountTools files z lib concat) st B gi with _ | ⟨view, behind⟩
      · rw [hview] at htype
        cases htype
      · rw [hview] at htype
        dsimp only at htype
        split at htype
        · cases htype
        · obtain ⟨Z, hZ, rfl⟩ := Option.map_eq_some_iff.1 htype
          exact ⟨Z, rfl, mountTools_index_noSlashes hZ⟩
    · dsimp only
      rw [hraw]
      exact noSlash_pathOf _
    · dsimp only
      rw [hraw]
      exact head?_pathOf (head?_normalizeText raw)

/-- **Which mounts find every name in any case.**  A mount of zips and deltas without a writelayer
does, by `CanonicalCase`, exactly when no idle spelling comes first for a name that it serves; and
whatever the mount, the spelling of a path is its own spelling, keeps its length and its folding, is
one for all spellings of a known path, and changes of a path below a known directory a known prefix
only. -/
theorem canonicalCase_iff (files : HostPath → Option ByteSource) (z : Zstd) (lib : Libzip Empty)
    (concat : List ByteSource → ByteSource) (harch : ∀ B ∈ S.layers, B.isArchive = true)
    (hnorm : S.Normalized) (hwl : o.writelayer = none) (order : MapOrder) (s : VfsState) :
    ((mountOf (mountTools files z lib concat) S o).FindsEveryName order s ∧
        CaseLaws ((mountOf (mountTools files z lib concat) S o).canonCase order)) ↔
      (mountOf (mountTools files z lib concat) S o).NoIdleSpelling order :=
  (and_iff_left (canonicalCase_laws _)).trans
    (findsEveryName_iff (mountOf_plainNames harch hnorm) hwl order s)

end SpecMount

/-! ### A target that its archive has nothing for -/

/-- The maps walked in the order in which they were filled. -/
def entryOrder : MapOrder where
  names Z := Z.byName.map Prod.fst
  dirs Z := Z.dirChildren.map Prod.fst
  names_perm _ := List.Perm.refl _
  dirs_perm _ := List.Perm.refl _

/-- An archive of one file `f`, shown at these places. -/
def fileAt (mounts : List (Path × Path)) : LayerSpec := ⟨.zip, some ["v2.zip"], [], [], mounts, false⟩

/-- Links are flattened, and there is no writelayer. -/
def caseOptions : MountOptions := ⟨none, true, true, 40⟩

def fileMount (mounts : List (Path × Path)) : Mount :=
  mountOf chainTools ⟨[fileAt mounts]⟩ caseOptions

/-- Its index. -/
theorem exists_fileIndex : ∃ Z,
    chainTools.index (.plain (versionSource 2 1)) (some ["v2.zip"]) = some Z ∧
    Z.byName = [(["f"], ⟨["f"], 681, false, false, true, 31⟩)] ∧ Z.dirChildren = [([], ["f"])] := by
  have hmaps : (chainTools.index (.plain (versionSource 2 1)) (some ["v2.zip"])).map
      (fun Z => (Z.byName, Z.dirChildren))
        = some ([(["f"], ⟨["f"], 681, false, false, true, 31⟩)], [([], ["f"])]) := by decide +kernel
  obtain ⟨Z, hZ, hpair⟩ := Option.map_eq_some_iff.1 hmaps
  obtain ⟨hnames, hdirs⟩ := Prod.mk.inj hpair
  exact ⟨Z, hZ, hnames, hdirs⟩

/-- The layers of such a mount. -/
theorem fileMount_layers (mounts : List (Path × Path)) : ∃ Z : ZipIndex,
    (fileMount mounts).layers = madeLayers (fileAt mounts) (.zip Z) 0 ∧
      Z.byName = [(["f"], ⟨["f"], 681, false, false, true, 31⟩)] ∧ Z.dirChildren = [([], ["f"])] := by
  obtain ⟨Z, hZ, hnames, hdirs⟩ := exists_fileIndex
  have hopen : chainTools.openFile (fileAt mounts).source = some (.plain (versionSource 2 1)) := rfl
  refine ⟨Z, ?_, hnames, hdirs⟩
  rw [fileMount, mountOf_layers, stackLayers_zip rfl hopen hZ]

theorem fileAt_isArchive {mounts : List (Path × Path)} :
    ∀ B ∈ (⟨[fileAt mounts]⟩ : Spec).layers, B.isArchive = true := by
  intro B hB
  obtain rfl := List.mem_singleton.1 hB
  rfl

theorem fileMount_zips (mounts : List (Path × Path)) :
    ∀ L ∈ (fileMount mounts).layers, ∃ Z, L.type = .zip Z := by
  obtain ⟨Z, hlayers, _⟩ := fileMount_layers mounts
  intro L hL
  rw [hlayers, madeLayers, List.mem_mapIdx] at hL
  obtain ⟨i, hi, rfl⟩ := hL
  exact ⟨Z, rfl⟩

/-- The archive shows as a whole at the root, and a folder that it does not have is to show at `F`. -/
def missingFolder : List (Path × Path) := [(["none"], ["F"]), ([], [])]

/-- **A target that its archive has nothing for hides a name.**  The file `f` of that archive resolves;
looked up in this very spelling on a mount that is not case-sensitive it becomes `F`, and that does
not resolve. -/
theorem emptyTarget_hides :
    (⟨[fileAt missingFolder]⟩ : Spec).Normalized ∧ normalizeText ['f'] = ['f'] ∧
    (lookup (fileMount missingFolder) (unseeded Disk.blank) (pathOf ['f'])).isNone = false ∧
    (lookup (fileMount missingFolder) (unseeded Disk.blank)
      (pathOf (canonicalCase true ((fileMount missingFolder).canonCase entryOrder) ['f']))).isNone
        = true := by
  obtain ⟨⟨src, byName, dirChildren⟩, hlayers, hnames, hdirs⟩ := fileMount_layers missingFolder
  dsimp only at hnames hdirs
  subst hnames hdirs
  have hmade : (fileMount missingFolder).layers
      = [⟨.zip ⟨src, _, _⟩, some ["v2.zip"], ["F"], ["none"], false, [], 0⟩,
          ⟨.zip ⟨src, _, _⟩, some ["v2.zip"], [], [], false, [], 1⟩] := hlayers
  have hlook := lookup_serves (fileMount_zips missingFolder) rfl (unseeded Disk.blank)
  have hspell : (fileMount missingFolder).spellings entryOrder = [] ++ ["F"] :: [["f"]] := by
    rw [Mount.spellings, Mount.implicitDirs, hmade]
    rfl
  have himplied : (fileMount missingFolder).implicitDirs = [] := by
    rw [Mount.implicitDirs, hmade]
    rfl
  have hF : pathOf (pathText ["F"]) = ["F"] := by decide
  refine ⟨?_, by decide, ?_, ?_⟩
  · intro B hB m hm
    obtain rfl := List.mem_singleton.1 hB
    rcases List.mem_pair.1 hm with rfl | rfl
    · exact ⟨['F'], by decide⟩
    · exact ⟨[], rfl⟩
  · rw [hlook, Mount.Serves, hmade]
    refine Or.inl ⟨_, List.mem_cons_of_mem _ List.mem_cons_self, rfl, rfl, _, rfl, Or.inl ⟨_, rfl, ?_⟩⟩
    simp [ZipEntry.Unreadable]
  · rw [canonicalCase_of_first hspell (by simp) (by simp) (by decide), hF]
    refine Bool.eq_true_of_not_eq_false fun hfound => ?_
    rw [hlook, Mount.Serves, hmade, himplied] at hfound
    rcases hfound with ⟨L, hL, hserves⟩ | himp
    · -- neither place has anything for `F`
      obtain ⟨_, _, Z, hZ, hentry⟩ := hserves
      rcases List.mem_pair.1 hL with rfl | rfl
      · obtain rfl := LayerType.zip.inj hZ
        rcases hentry with ⟨e, he, _⟩ | ⟨_, hdir⟩
        · cases he
        · cases hdir
      · obtain rfl := LayerType.zip.inj hZ
        rcases hentry with ⟨e, he, _⟩ | ⟨_, hdir⟩
        · cases he
        · cases hdir
    · cases himp

/-- Shown in a folder `Data`, the file is found in any case. -/
theorem dataFolder_found :
    (lookup (fileMount [([], ["Data"])]) (unseeded Disk.blank)
      (pathOf (canonicalCase true ((fileMount [([], ["Data"])]).canonCase entryOrder)
        ['D', 'A', 'T', 'A', '/', 'F']))).isNone = false := by
  obtain ⟨⟨src, byName, dirChildren⟩, hlayers, hnames, hdirs⟩ := fileMount_layers [([], ["Data"])]
  dsimp only at hnames hdirs
  subst hnames hdirs
  have hmade : (fileMount [([], ["Data"])]).layers
      = [⟨.zip ⟨src, _, _⟩, some ["v2.zip"], ["Data"], [], false, [], 0⟩] := hlayers
  have hspell : (fileMount [([], ["Data"])]).spellings entryOrder
      = [["Data"], ["Data", "f"], ["Data"]] := by
    rw [Mount.spellings, Mount.implicitDirs, hmade]
    rfl
  have hserves : ∀ V ∈ (fileMount [([], ["Data"])]).spellings entryOrder,
      (fileMount [([], ["Data"])]).Serves V := by
    intro V hV
    rw [hspell] at hV
    rw [Mount.Serves, hmade]
    have hV' : V = ["Data"] ∨ V = ["Data", "f"] ∨ V = ["Data"] := by simpa using hV
    refine Or.inl ⟨_, List.mem_cons_self, ?_⟩
    rcases hV' with rfl | rfl | rfl
    · exact ⟨rfl, rfl, _, rfl, Or.inr ⟨rfl, rfl⟩⟩
    · exact ⟨rfl, rfl, _, rfl, Or.inl ⟨_, rfl, by simp [ZipEntry.Unreadable]⟩⟩
    · exact ⟨rfl, rfl, _, rfl, Or.inr ⟨rfl, rfl⟩⟩
  have hidle : (fileMount [([], ["Data"])]).NoIdleSpelling entryOrder := by
    intro pre V post hsplit _ hV
    exact absurd (hserves V (by rw [hsplit]; simp)) hV.2
  have hnorm : (⟨[fileAt [([], ["Data"])]]⟩ : Spec).Normalized := by
    intro B hB m hm
    obtain rfl := List.mem_singleton.1 hB
    obtain rfl := List.mem_singleton.1 hm
    exact ⟨['D', 'a', 't', 'a'], by decide⟩
  have hfinds : (fileMount [([], ["Data"])]).FindsEveryName entryOrder (unseeded Disk.blank) :=
    ((canonicalCase_iff chainFiles chainZstd oneFileLib _ fileAt_isArchive hnorm rfl entryOrder
      (unseeded Disk.blank)).2 hidle).1
  refine hfinds ['D', 'a', 't', 'a', '/', 'f'] _ (by decide) (by decide) ?_
  rw [lookup_serves (fileMount_zips [([], ["Data"])]) rfl]
  exact hserves _ (by rw [hspell]; decide)

end VidyaGodFS
