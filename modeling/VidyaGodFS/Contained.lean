/-
**Directory layers and their sources.**

With flattening a data layer does not serve a link that leads out of its source: the lookup compares
the places that the link and the source stand for.  It does so where the last component of the path
is a link, and only there.  A link further up leads out of the source unnoticed.

What a lookup finds depends on the places it looks at.  Where these belong to the mount, nothing that
happens elsewhere on the host shows, neither in what is found nor in what is read there.

Main definitions:

* `Contained` — what a host path stands for lies in a source;
* `WayInside` — the last link on the way to an entry does not lead out of the source;
* `Own`, `SameWithin` — the places of a mount, and disks that are the same there;
* `LookupStays` — a lookup that leaves the places of the mount nowhere;
* `readOnce` — opening, and reading once;
* `Independent` — a hit in which nothing shows that happens elsewhere.

Main results:

* `dirHit_contained_iff` — **when a hit lies in the source of its layer, and what it depends on**;
* `passwd_served` — a file of the host, served through a link to the directory it is in.
-/

import VidyaGodFS.DirVerdicts
import VidyaGodFS.Visits

set_option relaxedAutoImplicit false
set_option autoImplicit false

namespace VidyaGodFS

open Posix

variable {M : Mount}

/-! ### Inside a source -/

/-- Where a source is, all links resolved.  The empty path stands for the whole host. -/
def sourceRoot (d : Disk) : HostPath → Option Path
  | none => some []
  | some p => d.canonical (some p)

/-- What the host path stands for, all links resolved, is the source or lies below it. -/
def Contained (d : Disk) (host source : HostPath) : Prop :=
  ∃ p root, d.canonical host = some p ∧ sourceRoot d source = some root ∧ root <+: p

/-- No link lies between the path and what is `rest` below it. -/
def LinkFree (d : Disk) (p : HostPath) (rest : Path) : Prop :=
  ∀ q, q <+: rest → q ≠ [] → q ≠ rest → linkAt d (p.join q) = false

/-- **The last link on the way into the source does not lead out of it**: with what the path goes on
with behind it, it comes to the source or below.  Where there is no link nothing is asked. -/
def WayInside (d : Disk) (source : HostPath) (rel : Path) : Prop :=
  ∀ r rest, rel = r ++ rest → rest ≠ [] → linkAt d (source.join r) = true →
    LinkFree d (source.join r) rest → ∃ p root, d.canonical (source.join r) = some p ∧
      sourceRoot d source = some root ∧ root <+: p ++ rest

/-- The test of the lookup is the one for containment. -/
theorem symlinkContained_iff (d : Disk) (host source : HostPath) :
    symlinkContained d host source = true ↔ Contained d host source := by
  unfold symlinkContained Contained sourceRoot
  cases hp : d.canonical host with
  | none => cases source <;> simp
  | some p =>
      cases source with
      | none => simp
      | some q => cases hq : d.canonical (some q) <;> simp [hq, List.isPrefixOf_iff_prefix]

/-- An entry is at the end of its own path. -/
theorem canonical_of_lstat {d : Disk} {host : HostPath} {st : Stat} (hst : d.lstat host = .ok st)
    (hlink : st.isSymlink = false) :
    ∃ q, d.find false host = .ok q ∧ d.tree.node q ≠ none ∧ d.canonical host = some q := by
  obtain ⟨q, nd, hq, hnd, rfl⟩ := Disk.statAt_ok hst
  have hfollow : d.find true host = .ok q := by
    refine Disk.find_follow hq fun target ht => ?_
    rw [hnd] at ht
    rw [Option.some_inj.1 ht] at hlink
    cases hlink
  refine ⟨q, hq, by simp [hnd], ?_⟩
  rw [Disk.canonical, hfollow]
  dsimp only
  rw [if_neg (by simp [hnd])]

/-- A directory that something lies in is where its path leads. -/
theorem canonical_parent {d : Disk} {p q : Path} {n : Name}
    (hq : d.find false (some (p ++ [n])) = .ok q)
    (hnode : d.tree.node q ≠ none) : ∃ dir, d.canonical (some p) = some dir ∧ q = dir ++ [n] := by
  obtain ⟨dir, hdir, rfl⟩ := Tree.locate_concat hq
  obtain ⟨m, hm⟩ := d.tree.parent_dir dir n hnode
  refine ⟨dir, ?_, rfl⟩
  have hfind : d.find true (some p) = .ok dir := hdir
  rw [Disk.canonical, hfind]
  dsimp only
  rw [if_neg (by simp [hm])]

/-- What a path leads to, there is something to be said of. -/
theorem lstat_of_canonical {d : Disk} {p q : Path} (h : d.canonical (some p) = some q) :
    ∃ st, d.lstat (some p) = .ok st := by
  unfold Disk.canonical at h
  cases hfind : d.find true (some p) with
  | error e =>
      rw [hfind] at h
      cases h
  | ok q' =>
      rw [hfind] at h
      dsimp only at h
      split_ifs at h with hnode
      obtain ⟨nd, hnd⟩ := Option.ne_none_iff_exists'.1 hnode
      rcases Tree.locate_nofollow (show d.tree.locate true p = .ok q' from hfind) with hok | ⟨q'', target, hok, hlink⟩
      · exact ⟨_, Disk.statAt_of_find hok hnd⟩
      · exact ⟨_, Disk.statAt_of_find hok hlink⟩

/-- **Without a link in between, a path goes on from where its beginning leads.** -/
theorem canonical_below {d : Disk} {p : Path} : ∀ {rest : Path}, rest ≠ [] →
    LinkFree d (some p) rest → ∀ {st : Stat}, d.lstat (some (p ++ rest)) = .ok st → st.isSymlink = false →
      ∃ q, d.canonical (some p) = some q ∧ d.canonical (some (p ++ rest)) = some (q ++ rest) := by
  intro rest
  induction rest using List.reverseRecOn with
  | nil => exact fun h => absurd rfl h
  | append_singleton init n ih =>
      intro _ hfree st hst hlink
      obtain ⟨q', hq', hnode, hcanon⟩ := canonical_of_lstat hst hlink
      rw [← List.append_assoc] at hq'
      obtain ⟨dir, hdir, rfl⟩ := canonical_parent hq' hnode
      by_cases hinit : init = []
      · subst hinit
        rw [List.append_nil] at hdir
        exact ⟨dir, hdir, hcanon⟩
      · obtain ⟨st', hst'⟩ := lstat_of_canonical hdir
        have hfree' : linkAt d (some (p ++ init)) = false :=
          hfree init (List.prefix_append init [n]) hinit (by simp)
        have hlink' : st'.isSymlink = false := by
          rw [linkAt, hst'] at hfree'
          exact hfree'
        have hinner : LinkFree d (some p) init := fun q hq hne hne' =>
          hfree q (hq.trans (List.prefix_append init [n])) hne fun he => by
            have := hq.length_le
            rw [he, List.length_append, List.length_singleton] at this
            omega
        obtain ⟨q, hq, hcanon'⟩ := ih hinit hinner hst' hlink'
        rw [hdir] at hcanon'
        obtain rfl := Option.some_inj.1 hcanon'
        exact ⟨q, hq, by rw [hcanon, List.append_assoc]⟩

/-- The way to an entry has a last link, or none. -/
theorem exists_lastLink (d : Disk) (source : HostPath) (rel : Path) :
    ∃ r rest, rel = r ++ rest ∧ (rest = [] → rel = []) ∧
      (r = [] ∨ linkAt d (source.join r) = true) ∧ LinkFree d (source.join r) rest := by
  induction rel using List.reverseRecOn with
  | nil => exact ⟨[], [], rfl, fun _ => rfl, Or.inl rfl, fun q hq hne => absurd (List.prefix_nil.1 hq) hne⟩
  | append_singleton init n ih =>
      have hlast : ∀ {r : Path}, LinkFree d (source.join r) [n] := fun q hq hne hne' => by
        rcases List.prefix_concat_iff.1 (show q <+: [] ++ [n] from hq) with rfl | hq
        · exact absurd rfl hne'
        · exact absurd (List.prefix_nil.1 hq) hne
      by_cases hlink : linkAt d (source.join init) = true
      · exact ⟨init, [n], rfl, by simp, Or.inr hlink, hlast⟩
      · obtain ⟨r, rest, rfl, hrest, hr, hfree⟩ := ih
        by_cases hnil : rest = []
        · subst hnil
          obtain rfl : r = [] := by simpa using hrest rfl
          exact ⟨[], [n], rfl, by simp, Or.inl rfl, hlast⟩
        · refine ⟨r, rest ++ [n], List.append_assoc _ _ _, by simp, hr, fun q hq hne hne' => ?_⟩
          rcases List.prefix_concat_iff.1 hq with rfl | hq
          · exact absurd rfl hne'
          · by_cases he : q = rest
            · rw [he, ← join_append]
              simpa using hlink
            · exact hfree q hq hne he

/-- **An entry that is no link lies in the source just where the last link on the way to it does not
lead out.** -/
theorem contained_iff_wayInside {d : Disk} {source : HostPath} {rel : Path} {st : Stat}
    (hst : d.lstat (source.join rel) = .ok st) (hlink : st.isSymlink = false) :
    Contained d (source.join rel) source ↔ WayInside d source rel := by
  have hbelow : ∀ r rest, rel = r ++ rest → rest ≠ [] → LinkFree d (source.join r) rest →
      source.join r ≠ none → ∃ q, d.canonical (source.join r) = some q ∧
        d.canonical (source.join rel) = some (q ++ rest) := by
    rintro r rest rfl hrest hfree hsome
    obtain ⟨p, hp⟩ := Option.ne_none_iff_exists'.1 hsome
    rw [join_append, hp] at hst ⊢
    rw [hp] at hfree
    exact canonical_below hrest hfree hst hlink
  constructor
  · rintro ⟨p', root, hp', hroot, hle⟩ r rest hrel hrest hr hfree
    have hsome : source.join r ≠ none := by
      intro hnone
      rw [hnone] at hr
      cases hr
    obtain ⟨q, hq, hcanon⟩ := hbelow r rest hrel hrest hfree hsome
    rw [hcanon] at hp'
    obtain rfl := Option.some_inj.1 hp'
    exact ⟨q, root, hq, hroot, hle⟩
  · intro hway
    obtain ⟨q, hq, hnode, hcanon⟩ := canonical_of_lstat hst hlink
    cases source with
    | none => exact ⟨q, [], hcanon, rfl, List.nil_prefix⟩
    | some p =>
        obtain ⟨r, rest, hrel, hnil, hr, hfree⟩ := exists_lastLink d (some p) rel
        by_cases hrest : rest = []
        · -- the source itself
          obtain rfl := hnil hrest
          have hself : d.canonical (some p) = some q := by simpa [HostPath.join] using hcanon
          exact ⟨q, q, hcanon, hself, List.prefix_rfl⟩
        · rcases hr with rfl | hr
          · obtain ⟨root, hroot, hcanon'⟩ := hbelow [] rest hrel hrest hfree (by simp [HostPath.join])
            have hsource : d.canonical (some p) = some root := by simpa [HostPath.join] using hroot
            exact ⟨_, root, hcanon', hsource, List.prefix_append root rest⟩
          · obtain ⟨p', root, hp', hroot, hle⟩ := hway r rest hrel hrest hr hfree
            obtain ⟨q', hq', hcanon'⟩ := hbelow r rest hrel hrest hfree (by simp [HostPath.join])
            rw [hp'] at hq'
            obtain rfl := Option.some_inj.1 hq'
            exact ⟨_, root, hcanon', hroot, hle⟩

/-! ### What a lookup depends on -/

/-- A lookup that yields the same in both states. -/
def Steady {α : Type} (s s' : VfsState) (p : View α) : Prop := p s' = p s

namespace Steady

variable {α β : Type} {s s' : VfsState}

theorem pure (a : α) : Steady s s' (Pure.pure a) := rfl

theorem see {f : VfsState → α} (h : f s' = f s) : Steady s s' (Looks.see f) := h

theorem look {f : Disk → Except Errno α} (h : f s'.disk = f s.disk) :
    Steady s s' (Looks.look f) := h

theorem bind_of {p : View α} {f : α → View β} {a : α} (h : Steady s s' p) (ha : p s = a)
    (hf : Steady s s' (f a)) : Steady s s' (p >>= f) := by
  subst ha
  change f (p s') s' = f (p s) s
  rw [show p s' = p s from h]
  exact hf

theorem bind {p : View α} {f : α → View β} (h : Steady s s' p) (hf : ∀ a, Steady s s' (f a)) :
    Steady s s' (p >>= f) := bind_of h rfl (hf _)

theorem ite {c : Prop} [Decidable c] {p p' : View α} (h : c → Steady s s' p)
    (h' : ¬ c → Steady s s' p') : Steady s s' (if c then p else p') := by
  by_cases hc : c
  · rw [if_pos hc]
    exact h hc
  · rw [if_neg hc]
    exact h' hc

end Steady

/-- An archive is not read from the host's disk. -/
theorem followZipLink_steady {s s' : VfsState} (Z : ZipIndex) (E : ZipEntry) :
    Steady s s' (followZipLink Z E) := by
  unfold followZipLink
  refine Steady.ite (fun _ => Steady.pure _) fun _ => Steady.bind (Steady.look rfl) fun r => ?_
  cases r with
  | error e => exact Steady.pure _
  | ok bs =>
      refine Steady.ite (fun _ => Steady.pure _) fun _ =>
        Steady.ite (fun _ => Steady.pure _) fun _ => ?_
      cases joinNormalized E.name.dropLast (linkTarget bs) <;> exact Steady.pure _

theorem resolveZipSymlink_steady {s s' : VfsState} (Z : ZipIndex) (E : ZipEntry) :
    Steady s s' (resolveZipSymlink Z E) := by
  have hchase : ∀ (hops : ℕ) (E : ZipEntry), Steady s s' (chaseZipLinks Z hops E) := by
    intro hops
    induction hops with
    | zero => exact fun E => Steady.pure _
    | succ hops ih =>
        intro E
        refine Steady.ite (fun _ => Steady.bind (followZipLink_steady Z E) fun r => ?_)
          fun _ => Steady.pure _
        cases r with
        | none => exact Steady.pure _
        | some next => exact ih next
  refine Steady.bind (hchase 8 E) fun r => ?_
  cases r <;> exact Steady.pure _

/-- The place `q` is one on the way to `p`, or lies there or below. -/
def InOrTo (d : Disk) (p : HostPath) (q : Path) : Prop :=
  q ∈ d.visits true p ∨ ∃ root, sourceRoot d p = some root ∧ root <+: q

/-- The places of a mount: its sources and its writelayer, with the ways to them. -/
def Own (M : Mount) (d : Disk) (q : Path) : Prop :=
  (M.writelayer ≠ none ∧ InOrTo d M.writelayer q) ∨ ∃ L ∈ M.layers, InOrTo d L.source q

/-- The disks are the same at the places of the mount. -/
structure SameWithin (M : Mount) (d d' : Disk) : Prop where
  node : ∀ q, Own M d q → d'.tree.node q = d.tree.node q
  inode : ∀ q i, Own M d q → d.tree.node q = some (.file i) → d'.inode i = d.inode i

theorem SameWithin.alikeAt {d d' : Disk} (h : SameWithin M d d') {l : List Path}
    (hl : ∀ q ∈ l, Own M d q) : Disk.AlikeAt l d d' :=
  ⟨fun q hq => h.node q (hl q hq), fun q hq i => h.inode q i (hl q hq)⟩

/-- The path that a lookup asks the host for in a layer; an archive is not asked for on the host. -/
def askedHost (L : Layer) (v : Path) : HostPath :=
  match L.type with
  | .dir => layerHost L v
  | .file => L.source
  | .zip _ => none

/-- In the layers of the list, down to the one that serves `v`, the lookup leaves the places of the
mount nowhere. -/
def LayersStay (M : Mount) (s : VfsState) (v : Path) : List Layer → Prop
  | [] => True
  | L :: rest =>
      (layerCovers L v = true → layerMasked L v = false →
        ∀ q ∈ s.disk.visits true (askedHost L v), Own M s.disk q) ∧
      ((resolveLayer M L v : View (Option ResolveResult)) s = none → LayersStay M s v rest)

/-- **The lookup leaves the places of the mount nowhere.** -/
def LookupStays (M : Mount) (s : VfsState) (v : Path) : Prop :=
  (M.writelayer ≠ none → ∀ q ∈ s.disk.visits false (M.wlPath v), Own M s.disk q) ∧
    LayersStay M s v M.layers.reverse

section

variable {s : VfsState} {d' : Disk} {v : Path} {L : Layer}

/-- The test for containment asks for nothing else than the link and the source. -/
theorem symlinkContained_alike {d : Disk} {host source : HostPath}
    (hhost : Disk.AlikeAt (d.visits true host) d d')
    (hsource : Disk.AlikeAt (d.visits true source) d d') :
    symlinkContained d' host source = symlinkContained d host source := by
  unfold symlinkContained
  rw [Disk.canonical_alike hhost, Disk.canonical_alike hsource]

theorem resolveLayer_steady (hL : L ∈ M.layers) (hsame : SameWithin M s.disk d')
    (hstays : layerCovers L v = true → layerMasked L v = false →
      ∀ q ∈ s.disk.visits true (askedHost L v), Own M s.disk q) :
    Steady s { s with disk := d' } (resolveLayer M L v) := by
  have hsource : Disk.AlikeAt (s.disk.visits true L.source) s.disk d' :=
    hsame.alikeAt fun q hq => Or.inr ⟨L, hL, Or.inl hq⟩
  unfold resolveLayer
  refine Steady.ite (fun _ => Steady.pure _) fun hcov => ?_
  obtain ⟨hcovers, hmasked⟩ : layerCovers L v = true ∧ layerMasked L v = false := by simpa using hcov
  have hasked := hsame.alikeAt (hstays hcovers hmasked)
  have hlstat : d'.lstat (askedHost L v) = s.disk.lstat (askedHost L v) :=
    Disk.statAt_alike (hasked.of_subset fun q hq => Disk.visits_subset hq)
  have hstat : d'.stat (askedHost L v) = s.disk.stat (askedHost L v) := Disk.statAt_alike hasked
  have hinside := symlinkContained_alike hasked hsource
  unfold askedHost at hlstat hstat hinside
  cases htype : L.type with
  | dir =>
      rw [htype] at hlstat hstat hinside
      refine Steady.bind (Steady.look hlstat) fun r => ?_
      cases r with
      | error e =>
          exact Steady.bind (Steady.see rfl) fun masked =>
            Steady.ite (fun _ => Steady.pure _) fun _ => Steady.pure _
      | ok st =>
          refine Steady.ite (fun _ => Steady.bind (Steady.look hstat) fun r => ?_)
            fun _ => Steady.pure _
          cases r with
          | error e => exact Steady.pure _
          | ok st' =>
              refine Steady.bind (Steady.look (congrArg Except.ok hinside)) fun r => ?_
              rcases r with e | ⟨⟨⟩ | ⟨⟩⟩ <;> exact Steady.pure _
  | file =>
      rw [htype] at hlstat hstat
      refine Steady.bind (Steady.look hlstat) fun r => ?_
      cases r with
      | error e => exact Steady.pure _
      | ok st =>
          refine Steady.ite (fun _ => Steady.bind (Steady.look hstat) fun r => ?_)
            fun _ => Steady.pure _
          cases r <;> exact Steady.pure _
  | zip Z =>
      dsimp only
      cases Z.entry (sourceRel L v) with
      | none => exact Steady.ite (fun _ => Steady.pure _) fun _ => Steady.pure _
      | some e =>
          refine Steady.ite (fun _ => Steady.bind (resolveZipSymlink_steady Z e) fun r => ?_)
            fun _ => Steady.pure _
          cases r with
          | none => exact Steady.ite (fun _ => Steady.pure _) fun _ => Steady.pure _
          | some t => exact Steady.pure _

theorem resolveLayers_steady (hsame : SameWithin M s.disk d') :
    ∀ layers : List Layer, (∀ L ∈ layers, L ∈ M.layers) → LayersStay M s v layers →
      Steady s { s with disk := d' } (resolveLayers M v layers) := by
  intro layers
  induction layers with
  | nil => exact fun _ _ => Steady.pure _
  | cons L rest ih =>
      intro hmem hstays
      have hL := resolveLayer_steady (hmem L (by simp)) hsame hstays.1
      cases hrr : (resolveLayer M L v : View (Option ResolveResult)) s with
      | none =>
          refine Steady.bind_of hL hrr ?_
          exact ih (fun L' hL' => hmem L' (by simp [hL'])) (hstays.2 hrr)
      | some rr => exact Steady.bind_of hL hrr (Steady.pure rr)

/-- **A lookup that stays in the places of the mount finds the same whatever happens elsewhere.** -/
theorem lookup_alike (hsame : SameWithin M s.disk d') (hstays : LookupStays M s v) :
    lookup M { s with disk := d' } v = lookup M s v := by
  have hlayers := resolveLayers_steady hsame M.layers.reverse (fun L hL => List.mem_reverse.1 hL)
    hstays.2
  have hresolve : Steady s { s with disk := d' } (resolve M v) := by
    unfold resolve
    refine Steady.ite (fun _ => hlayers) fun hwl => Steady.bind (Steady.see rfl) fun gone =>
      Steady.ite (fun _ => Steady.pure _) fun _ => Steady.bind (Steady.look ?_) fun r => ?_
    · exact Disk.statAt_alike (hsame.alikeAt (hstays.1 hwl))
    · cases r with
      | ok st => exact Steady.pure _
      | error e =>
          exact Steady.bind (Steady.see rfl) fun under =>
            Steady.ite (fun _ => Steady.pure _) fun _ => hlayers
  exact hresolve

/-- What a directory layer serves is what it was asked for. -/
theorem resolveLayer_asked (M : Mount) (s : VfsState) (L : Layer) (v : Path) :
    Shows s (fun r => ∀ host L', r = some (.dirLayer host L') →
      layerCovers L v = true ∧ layerMasked L v = false ∧ host = askedHost L v ∧ L' = L)
      (resolveLayer M L v) := by
  unfold resolveLayer
  refine Shows.ite (fun _ => Shows.pure (by simp)) fun hcov => ?_
  obtain ⟨hcovers, hmasked⟩ : layerCovers L v = true ∧ layerMasked L v = false := by simpa using hcov
  unfold askedHost
  cases L.type with
  | dir =>
      have hfound : ∀ host L', some (ResolveResult.dirLayer (layerHost L v) L)
        = some (.dirLayer host L') →
          layerCovers L v = true ∧ layerMasked L v = false ∧ host = layerHost L v ∧ L' = L := by
        rintro host L' ⟨⟩
        exact ⟨hcovers, hmasked, rfl, rfl⟩
      refine Shows.bind fun r _ => ?_
      cases r with
      | error e =>
          exact Shows.bind fun masked _ => Shows.ite (fun _ => Shows.pure (by simp))
            fun _ => Shows.pure (by simp)
      | ok st =>
          refine Shows.ite (fun _ => Shows.bind fun r _ => ?_) fun _ => Shows.pure hfound
          cases r with
          | error e => exact Shows.pure (by simp)
          | ok st' =>
              refine Shows.bind fun r _ => ?_
              rcases r with e | ⟨⟨⟩ | ⟨⟩⟩
              · exact Shows.pure (by simp)
              · exact Shows.pure (by simp)
              · exact Shows.pure hfound
  | file =>
      refine Shows.bind fun r _ => ?_
      cases r with
      | error e => exact Shows.pure (by simp)
      | ok st =>
          refine Shows.ite (fun _ => Shows.bind fun r _ => ?_) fun _ => Shows.pure (by simp)
          cases r <;> exact Shows.pure (by simp)
  | zip Z =>
      dsimp only
      cases Z.entry (sourceRel L v) with
      | none => exact Shows.ite (fun _ => Shows.pure (by simp)) fun _ => Shows.pure (by simp)
      | some e =>
          refine Shows.ite (fun _ => Shows.bind fun r _ => ?_) fun _ => Shows.pure (by simp)
          cases r with
          | none => exact Shows.ite (fun _ => Shows.pure (by simp)) fun _ => Shows.pure (by simp)
          | some t => exact Shows.pure (by simp)

theorem layersStay_hit {host : HostPath} :
    ∀ layers : List Layer, LayersStay M s v layers →
      (resolveLayers M v layers : View ResolveResult) s = .dirLayer host L →
      ∀ q ∈ s.disk.visits true host, Own M s.disk q := by
  intro layers
  induction layers with
  | nil =>
      intro _ hrr
      by_cases h : v ∈ M.implicitDirs <;> simp [resolveLayers, h] at hrr
  | cons L' rest ih =>
      intro hstays hrr
      have hasked := resolveLayer_asked M s L' v
      rw [resolveLayers_cons] at hrr
      cases hr : (resolveLayer M L' v : View (Option ResolveResult)) s with
      | none =>
          rw [hr] at hrr
          exact ih (hstays.2 hr) hrr
      | some rr =>
          rw [hr] at hrr
          obtain rfl : rr = .dirLayer host L := hrr
          obtain ⟨hcovers, hmasked, rfl, -⟩ := hasked host L hr
          exact hstays.1 hcovers hmasked

/-- A lookup ends above the layers, or with what they say. -/
theorem lookup_cases (M : Mount) (s : VfsState) (v : Path) :
    lookup M s v = .none ∨ (∃ host, lookup M s v = .writeLayer host) ∨
      lookup M s v = lowerLookup M s v := by
  have hrun : Shows s (fun rr => rr = .none ∨ (∃ host, rr = .writeLayer host) ∨
      rr = lowerLookup M s v) (resolve M v) := by
    unfold resolve
    refine Shows.ite (fun _ => Or.inr (Or.inr rfl)) fun _ => Shows.bind fun gone _ =>
      Shows.ite (fun _ => Or.inl rfl) fun _ => Shows.bind fun r _ => ?_
    cases r with
    | ok st => exact Or.inr (Or.inl ⟨_, rfl⟩)
    | error e =>
        exact Shows.bind fun under _ => Shows.ite (fun _ => Or.inl rfl) fun _ => Or.inr (Or.inr rfl)
  exact hrun

/-- What was found in a directory layer is one of the places of the mount, and so is all that lies on
the way to it. -/
theorem lookupStays_hit {host : HostPath} (hstays : LookupStays M s v)
    (hit : lookup M s v = .dirLayer host L) : ∀ q ∈ s.disk.visits true host, Own M s.disk q := by
  have hlower : lowerLookup M s v = .dirLayer host L := by
    rcases lookup_cases M s v with h | ⟨host', h⟩ | h
    · rw [h] at hit
      cases hit
    · rw [h] at hit
      cases hit
    · rw [← h, hit]
  exact layersStay_hit M.layers.reverse hstays.2 hlower

end

/-! ### Reading through a hit -/

/-- Opening for reading. -/
def readFlags : OpenFlags := ⟨.rdonly, false, false, false, false⟩

/-- Opening a file of the mount and reading from it once. -/
def readOnce (M : Mount) (v : Path) (n off : ℕ) : Prog World Errno Bytes := do
  match ← vfsOpen M v readFlags with
  | some file => vfsRead file n off
  | none => Prog.fail .eisdir

theorem open_readFlags (p : HostPath) (mode : ℕ) (d : Disk) : (Disk.open p readFlags mode d).2 = d := by
  rcases Disk.open_cases p readFlags mode d with
    ⟨e, hfail⟩ | ⟨q, -, ⟨-, hcreat, -⟩ | ⟨i, -, hrun⟩ | ⟨-, hrun⟩⟩
  · rw [hfail]
  · cases hcreat
  · rw [hrun]
    rfl
  · rw [hrun]

/-- Reading through a hit in a directory layer reads the host's file. -/
theorem readOnce_dirLayer {s : VfsState} {v : Path} {host : HostPath} {L : Layer}
    (hit : lookup M s v = .dirLayer host L) (n off : ℕ) :
    (readOnce M v n off (calm s)).1 =
      if dirAt s.disk false host then .error .eisdir
      else
        match (Disk.open host readFlags 0 s.disk).1 with
        | .ok file => s.disk.pread file n off
        | .error e => .error e := by
  have hdir : (hitIsDir true (.dirLayer host L) : Prog World Errno Bool) (calm s)
      = (.ok (dirAt s.disk false host), calm s) := (hitIsDir_agrees true _).run (calm s) (calm_calm s).2
  have hopen : vfsOpen M v readFlags (calm s) =
      (if dirAt s.disk false host then pure none
        else openForRead (.dirLayer host L) readFlags : Prog World Errno (Option OpenFile)) (calm s) := by
    unfold vfsOpen
    have hit' : lookup M (calm s).state v = .dirLayer host L := hit
    rw [Prog.bind_of_ok (resolve_run M (calm_calm s).2 v), hit']
    exact (Prog.bind_of_ok hdir).trans rfl
  unfold readOnce
  by_cases hd : dirAt s.disk false host = true
  · rw [if_pos hd] at hopen
    rw [if_pos hd, Prog.bind_of_ok (hopen.trans (Prog.pure_apply _ _))]
    rfl
  · rw [if_neg hd] at hopen ⊢
    have hact : openForRead (.dirLayer host L) readFlags (calm s) =
        (((Disk.open host readFlags 0 s.disk).1).map (fun h => some (.host h)), calm s) := by
      change ((act (Disk.open host readFlags 0) >>= fun h => pure (some (OpenFile.host h))) (calm s)) = _
      have hcall := act_calm (Disk.open host readFlags 0) s
      rw [open_readFlags] at hcall
      cases hr : (Disk.open host readFlags 0 s.disk).1 with
      | error e =>
          rw [hr] at hcall
          rw [Prog.bind_of_error hcall]
          rfl
      | ok h =>
          rw [hr] at hcall
          rw [Prog.bind_of_ok hcall]
          rfl
    rw [hact] at hopen
    cases hr : (Disk.open host readFlags 0 s.disk).1 with
    | error e =>
        rw [hr] at hopen
        rw [Prog.bind_of_error hopen]
    | ok h =>
        rw [hr] at hopen
        rw [Prog.bind_of_ok hopen]
        rfl

/-- **What is read through a hit in a directory layer is the same whatever happens elsewhere.** -/
theorem readOnce_alike {s : VfsState} {d' : Disk} {v : Path} {host : HostPath} {L : Layer}
    (hsame : SameWithin M s.disk d') (hstays : LookupStays M s v)
    (hit : lookup M s v = .dirLayer host L) (n off : ℕ) :
    (readOnce M v n off (calm { s with disk := d' })).1 = (readOnce M v n off (calm s)).1 := by
  have hpath : Disk.AlikeAt (s.disk.visits true host) s.disk d' :=
    hsame.alikeAt (lookupStays_hit hstays hit)
  have hdir : dirAt d' false host = dirAt s.disk false host := by
    rw [dirAt, dirAt, Disk.statAt_alike (hpath.of_subset fun q hq => Disk.visits_subset hq)]
  have hopen : (Disk.open host readFlags 0 d').1 = (Disk.open host readFlags 0 s.disk).1 :=
    Disk.open_alike rfl rfl hpath 0
  rw [readOnce_dirLayer ((lookup_alike hsame hstays).trans hit), readOnce_dirLayer hit]
  dsimp only
  rw [hdir, hopen]
  cases hr : (Disk.open host readFlags 0 s.disk).1 with
  | error e => rfl
  | ok file =>
      dsimp only
      rw [Disk.pread_alike rfl rfl hpath hr]

/-! ### What is outside shows -/

/-- **Nothing that happens outside of the mount's places shows in the hit**: neither in what is found
nor in what is read through it. -/
def Independent (M : Mount) (s : VfsState) (v : Path) (host : HostPath) (L : Layer) : Prop :=
  ∀ d', SameWithin M s.disk d' → lookup M { s with disk := d' } v = .dirLayer host L ∧
    ∀ n off, (readOnce M v n off (calm { s with disk := d' })).1 = (readOnce M v n off (calm s)).1

theorem sourceRoot_mem_visits {d : Disk} {p root : Path} (h : sourceRoot d (some p) = some root) :
    root ∈ d.visits true (some p) := by
  have h : d.canonical (some p) = some root := h
  unfold Disk.canonical at h
  cases hfind : d.find true (some p) with
  | error e =>
      rw [hfind] at h
      cases h
  | ok q =>
      rw [hfind] at h
      dsimp only at h
      split_ifs at h
      obtain rfl := Option.some_inj.1 h
      exact Disk.find_mem_visits hfind

/-- What lies above a place of a source, or of the way to it, is one too. -/
theorem InOrTo.above {d : Disk} {p : HostPath} {q x : Path} (h : InOrTo d p x) (hq : q <+: x) :
    InOrTo d p q := by
  rcases h with hx | ⟨root, hroot, hle⟩
  · exact Or.inl (Disk.visits_closed hx hq)
  · rcases List.prefix_or_prefix_of_prefix hle hq with hin | hto
    · exact Or.inr ⟨root, hroot, hin⟩
    · cases p with
      | none =>
          obtain rfl := Option.some_inj.1 hroot
          exact Or.inr ⟨[], rfl, List.nil_prefix⟩
      | some p => exact Or.inl (Disk.visits_closed (sourceRoot_mem_visits hroot) hto)

theorem Own.above {d : Disk} {q x : Path} (h : Own M d x) (hq : q <+: x) : Own M d q := by
  rcases h with ⟨hwl, hx⟩ | ⟨L, hL, hx⟩
  · exact Or.inl ⟨hwl, hx.above hq⟩
  · exact Or.inr ⟨L, hL, hx.above hq⟩

/-- The root of the host is on the way to every source. -/
theorem own_nil {d : Disk} {L : Layer} (hL : L ∈ M.layers) : Own M d [] := by
  refine Or.inr ⟨L, hL, ?_⟩
  cases hsource : L.source with
  | none => exact Or.inr ⟨[], rfl, List.nil_prefix⟩
  | some p => exact Or.inl Tree.nil_mem_visits

/-- **A hit shows every place outside that the way to it goes through**: if such a place is taken away,
the layer does not serve the path any more. -/
theorem own_of_independent {s : VfsState} {v : Path} {host : HostPath} {L : Layer}
    (hflat : M.flattenSymlinks = true) (hrw : L.rw = false) (hL : L ∈ M.layers)
    (h : Independent M s v host L) : ∀ q ∈ s.disk.visits true host, Own M s.disk q := by
  intro q hvisit
  by_contra hout
  have hq : q ≠ [] := by
    rintro rfl
    exact hout (own_nil hL)
  have hsame : SameWithin M s.disk (s.disk.without q hq) :=
    ⟨fun x hx => Tree.without_node _ hq fun hle => hout (hx.above hle), fun _ _ _ _ => rfl⟩
  have hseen := lookup_seen M { s with disk := s.disk.without q hq } v
  rw [(h _ hsame).1] at hseen
  obtain ⟨st, hst, hlinked⟩ := hseen
  cases hlink : st.isSymlink with
  | true =>
      obtain ⟨⟨st', hst'⟩, -⟩ := hlinked hflat hrw hlink
      exact Disk.statAt_without hq hvisit st' hst'
  | false => exact Disk.statAt_without hq hvisit st (stat_of_lstat hst hlink)

/-! ### When a layer keeps to its source -/

/-- **A data layer under flattening, and its source.**  What a hit stands for lies in the source
exactly when the hit is a link itself, which the lookup has tested, or when the last link above it does
not lead out.  What happens outside of the mount's places shows in the hit if the way to it goes through
such a place, and does not show if nothing that was asked for goes through one. -/
theorem dirHit_contained_iff (M : Mount) (s : VfsState) (v : Path) (host : HostPath) (L : Layer)
    (hflat : M.flattenSymlinks = true) (hrw : L.rw = false)
    (hit : lookup M s v = .dirLayer host L) :
    (Contained s.disk host L.source ↔
      linkAt s.disk host = true ∨ WayInside s.disk L.source (sourceRel L v)) ∧
    (Independent M s v host L → ∀ q ∈ s.disk.visits true host, Own M s.disk q) ∧
    (LookupStays M s v → Independent M s v host L) := by
  have hfits : Fits M v (lookup M s v) :=
    resolve_fits M v (calm s) _ _ (resolve_run M (calm_calm s).2 v)
  have hseen := lookup_seen M s v
  rw [hit] at hfits hseen
  obtain ⟨hL, -, -, rfl⟩ := hfits
  obtain ⟨st, hst, hlinked⟩ := hseen
  have hlinkAt : linkAt s.disk (layerHost L v) = st.isSymlink := by
    rw [linkAt, hst]
    rfl
  refine ⟨?_, own_of_independent hflat hrw hL, fun hstays d' hsame =>
    ⟨(lookup_alike hsame hstays).trans hit, fun n off => readOnce_alike hsame hstays hit n off⟩⟩
  rw [hlinkAt]
  cases hlink : st.isSymlink with
  | true =>
      simp only [true_or, iff_true]
      exact (symlinkContained_iff _ _ _).1 (hlinked hflat hrw hlink).2
  | false =>
      simp only [Bool.false_eq_true, false_or]
      exact contained_iff_wayInside hst hlink

/-! ### A link to a directory of the host -/

/-- Making an empty file. -/
def touch (p : HostPath) : Call Unit := fun d =>
  ((.ok () : Except Errno Unit), (Disk.open p ⟨.wronly, true, false, false, false⟩ 0o644 d).2)

/-- A source with a link to a directory inside it and one to a directory of the host, and another source
with a directory of the same name. -/
def leakyDisk : Disk :=
  [Disk.mkdir (some ["etc"]) 0o755, touch (some ["etc", "passwd"]),
    Disk.mkdir (some ["src"]) 0o755, Disk.mkdir (some ["src", "lib"]) 0o755,
    touch (some ["src", "lib", "data"]), Disk.symlink "lib" (some ["src", "in"]),
    Disk.symlink "/etc" (some ["src", "out"]), Disk.mkdir (some ["base"]) 0o755,
    Disk.mkdir (some ["base", "out"]) 0o755].foldl (fun d call => (call d).2) Disk.blank

def plainLayer : Layer := ⟨.dir, some ["base"], [], [], false, [], 0⟩

def leakyLayer : Layer := ⟨.dir, some ["src"], [], [], false, [], 1⟩

def leakyMount : Mount where
  writelayer := none
  readOnly := false
  flattenSymlinks := true
  layers := [plainLayer, leakyLayer]
  priority_eq := rfl
  pathDepth := 8

def leakyState : VfsState := (mounted leakyMount leakyDisk allowed allowed).state

/-- **A file of the host is served as if it were the layer's**: the link above it is not tested.  The
link itself is not served, but the layer below has a directory of its name, so that the kernel asks. -/
theorem passwd_served :
    lookup leakyMount leakyState ["out"] = .dirLayer (some ["base", "out"]) plainLayer ∧
      dirAt leakyState.disk false (some ["base", "out"]) = true ∧
      lookup leakyMount leakyState ["out", "passwd"]
        = .dirLayer (some ["src", "out", "passwd"]) leakyLayer ∧
      ¬ Contained leakyState.disk (some ["src", "out", "passwd"]) leakyLayer.source ∧
      leakyState.disk.canonical (some ["src", "out", "passwd"]) = some ["etc", "passwd"] := by
  have hplace : leakyState.disk.canonical (some ["src", "out", "passwd"]) = some ["etc", "passwd"] := by
    decide +kernel
  have hroot : sourceRoot leakyState.disk leakyLayer.source = some ["src"] := by decide +kernel
  refine ⟨rfl, by decide +kernel, rfl, ?_, hplace⟩
  rintro ⟨p, root, hp, hroot', hle⟩
  rw [hplace] at hp
  rw [hroot] at hroot'
  obtain rfl := Option.some_inj.1 hp
  obtain rfl := Option.some_inj.1 hroot'
  exact absurd hle (by decide)

/-- A file reached through the link that stays inside is in the source. -/
theorem data_contained :
    Contained leakyState.disk (some ["src", "in", "data"]) leakyLayer.source := by
  refine ((dirHit_contained_iff leakyMount leakyState ["in", "data"] _ leakyLayer rfl rfl rfl).1).2
    (Or.inr fun r rest hrel hrest hr _ => ?_)
  have hrel : ["in", "data"] = r ++ rest := hrel
  have hmem : r ∈ [[], ["in"], ["in", "data"]] := (List.mem_inits r ["in", "data"]).2 ⟨rest, hrel.symm⟩
  rcases List.mem_cons.1 hmem with rfl | hmem
  · -- the source is no link
    exact absurd hr (by decide +kernel)
  · rcases List.mem_pair.1 hmem with rfl | rfl
    · obtain rfl : rest = ["data"] := by simpa using hrel.symm
      exact ⟨["src", "lib"], ["src"], by decide +kernel, by decide +kernel, by decide⟩
    · exact absurd (by simpa using hrel) hrest

end VidyaGodFS
