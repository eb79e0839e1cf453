/-
**A whole run on the mount is one on a plain file system.**

The kernel asks one operation after the other, and hands the files that the mount opened back to it.
Whatever it asks, each operation does to the scene what the operation of that name does in a plain file
system, or fails and leaves the scene alone; and this holds after any number of operations.  There is one
exception, and the theorems say just when it occurs: a directory that moves to a name of which the layers
have something may bring that out again.

Main definitions:

* `Requested` — what the kernel asks, in the state the mount is in;
* `effect` — what a plain file system makes of it, and `Faithful` — when the mount does the same;
* `Driven` — the states that such requests lead to, with the files that are open;
* `WellMounted` — the mounts and the disks to start on.

Main results:

* `yielded_iff` — **one operation**;
* `driven_plainly` — **every operation of every run**;
* `driven_lists`, `driven_reads` — what the listings and the reads of a run serve;
* `driven_spares` — what no run changes.
-/

import VidyaGodFS.Ground
import VidyaGodFS.SceneMove

set_option relaxedAutoImplicit false
set_option autoImplicit false

namespace VidyaGodFS

open Posix

variable {M : Mount} {w : Path} {s₀ s : VfsState} {low : Path → Option Entry}

/-! ### What is asked -/

/-- Running an operation, for the file that it opens too. -/
def yielded (M : Mount) : Op → Prog World Errno (Option OpenFile)
  | .create v mode flags => do
      let file ← vfsCreate M v mode flags
      pure (some file)
  | .open_ v flags => vfsOpen M v flags
  | op => do
      exec M op
      pure none

/-- **What the kernel asks**, having looked: a new name is not there and an old one is, a directory is
removed as one and has all rights for its owner, links are not opened, and of the open files each is
one that the mount gave out. -/
def Requested (M : Mount) (w : Path) (s : VfsState) (files : List OpenFile) : Op → Prop
  | .create v _ _ => Asked M s v ∧ scene M s v = none
  | .mkdir v mode => Asked M s v ∧ scene M s v = none ∧ Full mode
  | .symlink target v => Asked M s v ∧ scene M s v = none ∧ target ≠ ""
  | .link vf vt => Asked M s vf ∧ scene M s vf ≠ none ∧ Asked M s vt ∧ scene M s vt = none
  | .unlink v => Asked M s v ∧ scene M s v ≠ some .dir
  | .rmdir v => Asked M s v ∧ scene M s v = some .dir
  | .rename vf vt => Asked M s vf ∧ scene M s vf ≠ none ∧ Asked M s vt ∧
      (scene M s vf = some .dir → scene M s vt = none ∧ ¬ vf <+: vt) ∧
      (scene M s vf ≠ some .dir → scene M s vt ≠ some .dir ∧ ¬ SharesFile w s vf vt)
  | .open_ v flags => Asked M s v ∧ scene M s v ≠ none ∧ (∀ target, scene M s v ≠ some (.link target)) ∧
      flags.creat = false
  | .write file _ _ => file ∈ files
  | .truncate v file _ => (∀ f ∈ file, f ∈ files) ∧ Asked M s v ∧ scene M s v ≠ none ∧
      ∀ target, scene M s v ≠ some (.link target)
  | .chmod v mode => Asked M s v ∧ scene M s v ≠ none ∧ (∀ target, scene M s v ≠ some (.link target)) ∧
      (scene M s v = some .dir → Full mode)

/-- The names whose file is cut: those of the open file, or of the one at the path. -/
def cutNames (w : Path) (s : VfsState) (v : Path) : Option OpenFile → Path → Prop
  | some (.host handle) => NamedBy w s (.host handle)
  | _ => SharesFile w s v

/-- **What a plain file system makes of the scene.** -/
noncomputable def effect (M : Mount) (w : Path) (s : VfsState) : Op → Path → Option Entry
  | .create v _ _ => Scene.put (scene M s) v (some (.file []))
  | .mkdir v _ => Scene.put (scene M s) v (some .dir)
  | .symlink target v => Scene.put (scene M s) v (some (.link target))
  | .link vf vt => Scene.put (scene M s) vt (scene M s vf)
  | .unlink v | .rmdir v => Scene.put (scene M s) v none
  | .rename vf vt => Scene.moved (scene M s) vf vt
  | .open_ v flags =>
      if flags.trunc then rewritten (fun _ => []) (SharesFile w s v) (scene M s) else scene M s
  | .write file bs off => rewritten (overwrite · off bs) (NamedBy w s file) (scene M s)
  | .truncate v file size => rewritten (resize · size) (cutNames w s v file) (scene M s)
  | .chmod _ _ => scene M s

/-- **When an operation does what its name says**: a directory has to move to where nothing of the layers
comes out. -/
def Faithful (M : Mount) (s : VfsState) : Op → Prop
  | .rename vf vt => scene M s vf = some .dir → Unmixed M s vf vt
  | _ => True

/-! ### One operation -/

section

variable (hM : M.writelayer = some w) (hk : NoKept M) (hb : Beneath M w s₀ low)
include hM hk hb

/-- **One operation, if it moves no directory, is that of a plain file system**, or fails and leaves the
scene alone; what it opens may be written without a change to any layer. -/
theorem yielded_plainly (h : Orderly w s₀ s) {files : List OpenFile} (hfiles : ∀ f ∈ files, Upper w s₀ f)
    {op : Op} (hop : Requested M w s files op)
    (hmoves : ∀ vf vt, op = .rename vf vt → scene M s vf ≠ some .dir) :
    PlainlyYields M w s₀ s (yielded M op) (effect M w s op) (fun file => ∀ f ∈ file, Upper w s₀ f) := by
  have hunit : ∀ {α : Type} {m : Prog World Errno α} {after : Path → Option Entry}, Plainly M w s₀ s m after →
      PlainlyYields M w s₀ s (do let _ ← m; pure none) after (fun file => ∀ f ∈ file, Upper w s₀ f) :=
    fun hm => Calmly.bind hm fun _ => Calmly.pure fun _ hs => ⟨hs, by simp⟩
  cases op with
  | create v mode flags =>
      refine Calmly.bind (vfsCreate_plainly hM hk hb h hop.1 hop.2 mode flags) fun file => Calmly.pure ?_
      rintro s' ⟨hs, hup⟩
      refine ⟨hs, fun f hf => ?_⟩
      obtain rfl := Option.some_inj.1 hf
      exact hup
  | mkdir v mode => exact hunit (vfsMkdir_plainly hM hk hb h hop.1 hop.2.1 hop.2.2)
  | symlink target v => exact hunit (vfsSymlink_plainly hM hk hb h hop.1 hop.2.1 hop.2.2)
  | link vf vt =>
      obtain ⟨hf, hx, ht, hnone⟩ := hop
      obtain ⟨x, hx⟩ := Option.ne_none_iff_exists'.1 hx
      refine hunit ?_
      rw [effect, hx]
      exact vfsLink_plainly hM hk hb h hf hx ht hnone
  | unlink v => exact hunit (vfsUnlink_plainly hM hk hb h hop.1 hop.2)
  | rmdir v => exact hunit (vfsRmdir_plainly hM hk hb h hop.1 hop.2)
  | rename vf vt =>
      obtain ⟨hf, hx, ht, -, hop⟩ := hop
      have hdir := hmoves vf vt rfl
      obtain ⟨x, hx⟩ := Option.ne_none_iff_exists'.1 hx
      refine hunit (vfsRename_plainly hM hk hb h hf hx (fun he => hdir ?_) ht (hop hdir).1 (hop hdir).2)
      rw [hx, he]
  | open_ v flags =>
      obtain ⟨hv, hx, hlink, hcreat⟩ := hop
      obtain ⟨x, hx⟩ := Option.ne_none_iff_exists'.1 hx
      refine vfsOpen_plainly hM hk hb h hv hx (fun target he => hlink target ?_) hcreat
      rw [hx, he]
  | write file bs off =>
      refine hunit (Calmly.bind (vfsWrite_plainly hM hb h (hfiles file hop) bs off) fun _ =>
        Calmly.pure fun _ hs => hs)
  | truncate v file size =>
      obtain ⟨hmem, hv, hx, hlink⟩ := hop
      obtain ⟨x, hx⟩ := Option.ne_none_iff_exists'.1 hx
      have hlink' : ∀ target, x ≠ .link target := fun target he => hlink target (by rw [hx, he])
      have hpath : (∀ handle, file ≠ some (.host handle)) →
          Plainly M w s₀ s (vfsTruncate M v file size) (rewritten (resize · size) (SharesFile w s v) (scene M s)) :=
        fun hfile => vfsTruncate_plainly hM hk hb h hv hx hlink' hfile size
      cases file with
      | none => exact hunit (hpath (by simp))
      | some file =>
          cases file with
          | zip zr => exact hunit (hpath (by simp))
          | host handle =>
              exact hunit (vfsTruncate_open_plainly hM hb h v (hfiles _ (hmem _ rfl)) size)
  | chmod v mode =>
      obtain ⟨hv, hx, hlink, hmode⟩ := hop
      obtain ⟨x, hx⟩ := Option.ne_none_iff_exists'.1 hx
      refine hunit (vfsChmod_plainly hM hk hb h hv hx (fun target he => hlink target ?_) fun he => hmode ?_)
      · rw [hx, he]
      · rw [hx, he]

/-- **One operation is that of a plain file system just when it is faithful**, or fails and leaves the
scene alone. -/
theorem yielded_iff (h : Orderly w s₀ s) {files : List OpenFile} (hfiles : ∀ f ∈ files, Upper w s₀ f)
    {op : Op} (hop : Requested M w s files op) :
    Calmly (fun t => t = s) (yielded M op)
      (fun file s' => (Orderly w s₀ s' ∧ (scene M s' = effect M w s op ↔ Faithful M s op)) ∧
        ∀ f ∈ file, Upper w s₀ f)
      (fun _ s' => Orderly w s₀ s' ∧ scene M s' = scene M s) := by
  by_cases hmoves : ∃ vf vt, op = .rename vf vt ∧ scene M s vf = some .dir
  · obtain ⟨vf, vt, rfl, hdir⟩ := hmoves
    obtain ⟨hf, -, ht, hop, -⟩ := hop
    refine Calmly.bind (vfsRename_moves hM hk hb h hf hdir ht (hop hdir).1 (hop hdir).2) fun _ =>
      Calmly.pure fun s' hs => ⟨⟨hs.1, hs.2.trans ?_⟩, by simp⟩
    exact ⟨fun hun _ => hun, fun hun => hun hdir⟩
  · have hfaithful : Faithful M s op := by
      cases op with
      | rename vf vt => exact fun hdir => absurd ⟨vf, vt, rfl, hdir⟩ hmoves
      | _ => trivial
    exact Calmly.conseq (yielded_plainly hM hk hb h hfiles hop fun vf vt he hdir => hmoves ⟨vf, vt, he, hdir⟩)
      (fun _ hs => hs) (fun _ _ hs => ⟨⟨hs.1.1, iff_of_true hs.1.2 hfaithful⟩, hs.2⟩) fun _ _ hs => hs

end

/-! ### Runs -/

/-- **The states that requests lead to**, with the files that are open then. -/
inductive Driven (M : Mount) (w : Path) (s₀ : VfsState) : List OpenFile → VfsState → Prop
  | start : Driven M w s₀ [] s₀
  | done {files : List OpenFile} {s : VfsState} {op : Op} {file : Option OpenFile} {W : World} :
      Driven M w s₀ files s → Requested M w s files op → yielded M op (calm s) = (.ok file, W) →
      Driven M w s₀ (file.toList ++ files) W.state
  | failed {files : List OpenFile} {s : VfsState} {op : Op} {e : Errno} {W : World} :
      Driven M w s₀ files s → Requested M w s files op → yielded M op (calm s) = (.error e, W) →
      Driven M w s₀ files W.state

/-- **A disk that a mount can start on**: no file of the writelayer is one of another place, nothing is
there that its marker says is deleted, and the writelayer is on one file system. -/
structure Fit (w : Path) (d : Disk) : Prop where
  shape : Shape w d.tree
  apart : ∀ x q i, Clean x → d.tree.node (w ++ x) = some (.file i) → ¬ w <+: q →
    d.tree.node q ≠ some (.file i)
  exclusive : ∀ v n, Clean (v ++ [n]) → d.tree.node (w ++ v ++ [mark n]) ≠ none →
    d.tree.node (w ++ (v ++ [n])) = none
  device : ∀ v, d.dev (w ++ v) = d.dev w

theorem Fit.orderly {d : Disk} (h : Fit w d) : Orderly w (mountedState w d) (mountedState w d) where
  synced := synced_mountedState h.shape
  beside := Beside.refl _
  apart := h.apart
  exclusive v hv hclean := by
    have hs := synced_mountedState h.shape
    rcases v.eq_nil_or_concat' with rfl | ⟨u, n, rfl⟩
    · exact absurd hv hs.root
    · exact h.exclusive u n hclean ((hs.whiteouts u n).1 hv).2
  device := h.device

/-- **A mount to start on such a disk**: the writelayer is all that is written to, and each layer below
stays as it is. -/
structure WellMounted (M : Mount) (w : Path) (d : Disk) : Prop where
  writelayer : M.writelayer = some w
  noKept : NoKept M
  clean : ∀ L ∈ M.layers, Clean L.place
  named : ∀ L ∈ M.layers, "" ∉ L.place
  grounded : ∀ L ∈ M.layers, Grounded w (mountedState w d) L
  fit : Fit w d

theorem WellMounted.beneath {d : Disk} (h : WellMounted M w d) : Beneath M w (mountedState w d)
    fun v => shown M d (lowerLookup M (mountedState w d) v) :=
  beneath_of_grounded h.noKept h.grounded h.clean h.named

section

variable {d : Disk} {files : List OpenFile} (hr : WellMounted M w d) (h : Driven M w (mountedState w d) files s)
include hr h

/-- The states stay in good order, and nothing that is open is a layer's to write. -/
theorem Driven.orderly : Orderly w (mountedState w d) s ∧ ∀ f ∈ files, Upper w (mountedState w d) f := by
  induction h with
  | start => exact ⟨hr.fit.orderly, by simp⟩
  | @done files s op file W _ hop hrun ih =>
      have hpost := yielded_iff hr.writelayer hr.noKept hr.beneath ih.1 ih.2 hop (calm s)
        ⟨calm_calm s, rfl⟩
      rw [hrun] at hpost
      obtain ⟨-, hs, hup⟩ := hpost
      refine ⟨hs.1, fun f hf => ?_⟩
      rcases List.mem_append.1 hf with hf | hf
      · exact hup f (by simpa using hf)
      · exact ih.2 f hf
  | @failed files s op e W _ hop hrun ih =>
      have hpost := yielded_iff hr.writelayer hr.noKept hr.beneath ih.1 ih.2 hop (calm s)
        ⟨calm_calm s, rfl⟩
      rw [hrun] at hpost
      exact ⟨hpost.2.1, ih.2⟩

/-- **Every operation of every run is that of a plain file system just when it is faithful**, or fails
and leaves the scene alone. -/
theorem driven_plainly {op : Op} (hop : Requested M w s files op) :
    match yielded M op (calm s) with
    | (.ok _, W) => scene M W.state = effect M w s op ↔ Faithful M s op
    | (.error _, W) => scene M W.state = scene M s := by
  obtain ⟨hs, hfiles⟩ := h.orderly hr
  have hpost := yielded_iff hr.writelayer hr.noKept hr.beneath hs hfiles hop (calm s) ⟨calm_calm s, rfl⟩
  rcases hrun : yielded M op (calm s) with ⟨e | file, W⟩ <;> rw [hrun] at hpost
  · exact hpost.2.2
  · exact hpost.2.1.2

/-- **No run changes anything beside the writelayer**: no name, no byte and no mode. -/
theorem driven_spares {q : Path} (hq : ¬ w <+: q) :
    s.disk.tree.node q = d.tree.node q ∧
      ∀ i, d.tree.node q = some (.file i) → s.disk.inode i = d.inode i := by
  have hbeside := (h.orderly hr).1.beside
  exact ⟨hbeside.outside q hq, fun i hi => hbeside.inode q i hq hi⟩

/-- **The listings of every run are those of the scene**: of a directory each name once, with the
attributes of what is there. -/
theorem driven_lists {v : Path} (hclean : Clean v) (hdir : scene M s v = some .dir) :
    ((typedListing M s v).map Prod.fst).Nodup ∧ ∀ n a, (n, a) ∈ typedListing M s v ↔
      ∃ x, scene M s (v ++ [n]) = some x ∧ attr M s (v ++ [n]) = .ok a ∧ Describes a x :=
  readdir_shows hr.writelayer hr.noKept hr.beneath (h.orderly hr).1 hclean hdir

/-- **The reads of every run serve the scene**: the attributes tell what is there, a file yields its
bytes and a link its target. -/
theorem driven_reads {v : Path} (hv : Asked M s v) :
    (match scene M s v with
      | none => ∃ e, attr M s v = .error e
      | some x => ∃ a, attr M s v = .ok a ∧ Describes a x) ∧
    (∀ bs file W, scene M s v = some (.file bs) →
      vfsOpen M v ⟨.rdonly, false, false, false, false⟩ (calm s) = (.ok (some file), W) →
      ∀ n off, off < 2 ^ 63 → vfsRead file n off W = (.ok (slice bs off n), W)) ∧
    ∀ target target' W, scene M s v = some (.link target) →
      vfsReadlink M v (calm s) = (.ok target', W) → target' = target := by
  have hs := (h.orderly hr).1
  have hscene : scene M s v = entryAt M s v := by rw [hv.scene, served, if_pos hv.clean]
  rw [hscene]
  refine ⟨attr_shows M s v, fun bs file W hx hopen n off hoff => ?_, fun target target' W hx hrun => ?_⟩
  · exact read_shows hx (hs.steady hr.writelayer hr.beneath hv.reached hv.clean) hopen hoff
  · exact (readlink_shows hx hrun).1

end

/-! ### A file below the writelayer -/

theorem oneFileDisk_fit : Fit ["w"] oneFileDisk where
  shape := oneFileDisk_shape
  apart x q i _ hx _ := by
    rw [oneFileDisk_node, if_neg (by simp)] at hx
    split_ifs at hx <;> cases hx
  exclusive v n _ hne := by
    rw [oneFileDisk_node, if_neg (by simp), if_neg (by simp), if_neg (by simp)] at hne
    exact absurd rfl hne
  device _ := rfl

/-- A file at `pkg`, beside the writelayer. -/
theorem grounded_pkg {target : Path} {s : VfsState} (hroot : s.disk.tree.node [] = some (.dir 0o755))
    (hnode : ∀ r, s.disk.tree.node (["pkg"] ++ r) = if r = [] then some (.file 0) else none) :
    Grounded ["w"] s ⟨.file, some ["pkg"], target, [], false, [], 0⟩ := by
  refine ⟨["pkg"], rfl, by decide, by decide, ⟨fun q hq hne => ?_, fun r link => ?_, fun r m => ?_⟩,
    fun r n hne => ?_, fun _ => ?_⟩
  · rcases List.prefix_concat_iff.1 (show q <+: [] ++ ["pkg"] from hq) with rfl | hq
    · exact absurd rfl hne
    · rw [List.prefix_nil.1 hq]
      exact ⟨0o755, hroot, by decide⟩
  · rw [hnode]
    split_ifs <;> simp
  · rw [hnode]
    split_ifs <;> simp
  · rw [List.append_assoc, hnode, if_neg (by simp)] at hne
    exact absurd rfl hne
  · rintro ⟨m, hm⟩
    rw [show s.disk.tree.node ["pkg"] = _ from hnode []] at hm
    cases hm

/-- A name in the root of the mount. -/
theorem asked_single {n : Name} (hn : isMarker n = false) (hroot : DirAt M s []) : Asked M s [n] where
  ne := by simp
  clean := clean_concat.2 ⟨clean_nil, hn⟩
  walks q hq hne := by
    rcases List.prefix_concat_iff.1 (show q <+: [] ++ [n] from hq) with rfl | hq
    · exact absurd rfl hne
    · rwa [List.prefix_nil.1 hq]

theorem oneFileMount_wellMounted : WellMounted oneFileMount ["w"] oneFileDisk where
  writelayer := rfl
  noKept := oneFileMount_noKept
  clean L hL := by
    obtain rfl := List.mem_singleton.1 hL
    intro n hn
    obtain rfl := List.mem_singleton.1 hn
    decide
  named L hL := by
    obtain rfl := List.mem_singleton.1 hL
    decide
  grounded L hL := by
    obtain rfl := List.mem_singleton.1 hL
    refine grounded_pkg rfl fun r => ?_
    rw [mountedState, oneFileDisk_node]
    simp
  fit := oneFileDisk_fit

theorem oneFileMount_asked : Asked oneFileMount (mountedState ["w"] oneFileDisk) ["pkg"] :=
  asked_single (by decide) ⟨_, rfl, rfl⟩

theorem oneFileMount_shows : scene oneFileMount (mountedState ["w"] oneFileDisk) ["pkg"] = some (.file []) := by
  rw [oneFileMount_asked.scene]
  decide +kernel

theorem oneFileMount_unlinks : Requested oneFileMount ["w"] (mountedState ["w"] oneFileDisk) []
    (.unlink ["pkg"]) :=
  ⟨oneFileMount_asked, by rw [oneFileMount_shows]; decide⟩

/-- The run that deletes the file. -/
def unlinkedScene : World := (yielded oneFileMount (.unlink ["pkg"]) (calm (mountedState ["w"] oneFileDisk))).2

/-- A run that opens nothing. -/
theorem yielded_none {op : Op} {W : World} (h : (yielded M op W).1.toOption.map Option.isSome = some false) :
    yielded M op W = (.ok none, (yielded M op W).2) := by
  rcases hrun : yielded M op W with ⟨e | file, W'⟩ <;> rw [hrun] at h
  · cases h
  · obtain rfl : file = none := by simpa [Except.toOption] using h
    rfl

theorem unlinkedScene_run : yielded oneFileMount (.unlink ["pkg"]) (calm (mountedState ["w"] oneFileDisk)) =
    (.ok none, unlinkedScene) := yielded_none (by decide +kernel)

theorem driven_spares_unlinked : unlinkedScene.state.disk.tree.node ["pkg"] = some (.file 0) := by
  have hrun : Driven oneFileMount ["w"] (mountedState ["w"] oneFileDisk) [] unlinkedScene.state :=
    .done .start oneFileMount_unlinks unlinkedScene_run
  rw [(driven_spares oneFileMount_wellMounted hrun (by decide)).1]
  rfl

/-! ### A file that is written, and a new directory -/

/-- The mount with the file opened for a change: it has been brought up. -/
def openedScene : World :=
  (yielded oneFileMount (.open_ ["pkg"] ⟨.rdwr, false, false, false, false⟩)
    (calm (mountedState ["w"] oneFileDisk))).2

/-- The copy, opened. -/
def openedFile : OpenFile := .host (.file 1 .rdwr)

def writtenScene : World :=
  (yielded oneFileMount (.write openedFile [1, 2, 3] 0) (calm openedScene.state)).2

def editedScene : World := (yielded oneFileMount (.mkdir ["a"] 0o755) (calm writtenScene.state)).2

theorem openedScene_run : yielded oneFileMount (.open_ ["pkg"] ⟨.rdwr, false, false, false, false⟩)
    (calm (mountedState ["w"] oneFileDisk)) = (.ok (some openedFile), openedScene) := rfl

theorem asked_edited {s : VfsState} {n : Name} (hn : isMarker n = false) : Asked oneFileMount s [n] :=
  asked_single hn ⟨_, rfl, rfl⟩

/-- The run: the file is opened and written, and a directory is made. -/
theorem editedScene_driven :
    Driven oneFileMount ["w"] (mountedState ["w"] oneFileDisk) [openedFile] editedScene.state := by
  have hopen : Requested oneFileMount ["w"] (mountedState ["w"] oneFileDisk) []
      (.open_ ["pkg"] ⟨.rdwr, false, false, false, false⟩) :=
    ⟨oneFileMount_asked, by rw [oneFileMount_shows]; simp, by rw [oneFileMount_shows]; simp, rfl⟩
  have hopened := Driven.done .start hopen openedScene_run
  have hwritten : Driven oneFileMount ["w"] (mountedState ["w"] oneFileDisk) [openedFile] writtenScene.state :=
    hopened.done (show Requested oneFileMount ["w"] _ _ (.write openedFile [1, 2, 3] 0) from List.mem_cons_self)
      (yielded_none (by decide +kernel))
  refine hwritten.done (show Requested oneFileMount ["w"] _ _ (.mkdir ["a"] 0o755) from
    ⟨asked_edited (by decide), ?_, by decide⟩)
    (yielded_none (by decide +kernel))
  rw [(asked_edited (by decide)).scene]
  decide +kernel

theorem edited_shows {n : Name} {x : Entry} (hn : isMarker n = false)
    (hx : entryAt oneFileMount editedScene.state [n] = some x) :
    scene oneFileMount editedScene.state [n] = some x := by
  rwa [(asked_edited hn).scene, served, if_pos (asked_edited (s := editedScene.state) hn).clean]

theorem edited_file : entryAt oneFileMount editedScene.state ["pkg"] = some (.file [1, 2, 3]) := by
  decide +kernel

/-- The root lists the written file and the new directory. -/
theorem driven_lists_edited : ∃ a b, ("pkg", a) ∈ typedListing oneFileMount editedScene.state [] ∧ a.isDir = false ∧
    ("a", b) ∈ typedListing oneFileMount editedScene.state [] ∧ b.isDir = true := by
  have hroot : scene oneFileMount editedScene.state [] = some .dir :=
    Scene.walked_of_reached Scene.reached_nil
  have hlists := (driven_lists oneFileMount_wellMounted editedScene_driven clean_nil hroot).2
  have hfile := attr_shows oneFileMount editedScene.state ["pkg"]
  have hnew := attr_shows oneFileMount editedScene.state ["a"]
  have hdir : entryAt oneFileMount editedScene.state ["a"] = some .dir := by decide +kernel
  rw [edited_file] at hfile
  rw [hdir] at hnew
  obtain ⟨a, ha, hdesc⟩ := hfile
  obtain ⟨b, hb, hdesc'⟩ := hnew
  exact ⟨a, b, (hlists "pkg" a).2 ⟨_, edited_shows (by decide) edited_file, ha, hdesc⟩, hdesc.1,
    (hlists "a" b).2 ⟨_, edited_shows (by decide) hdir, hb, hdesc'⟩, hdesc'.1⟩

/-- What is read of the file is what was written. -/
theorem driven_reads_edited : ∃ file W,
    vfsOpen oneFileMount ["pkg"] ⟨.rdonly, false, false, false, false⟩ (calm editedScene.state) =
      (.ok (some file), W) ∧
    vfsRead file 4 1 W = (.ok [2, 3], W) := by
  have hok : (vfsOpen oneFileMount ["pkg"] ⟨.rdonly, false, false, false, false⟩
      (calm editedScene.state)).1.toOption.join.isSome = true := by decide +kernel
  rcases hrun : vfsOpen oneFileMount ["pkg"] ⟨.rdonly, false, false, false, false⟩
    (calm editedScene.state) with ⟨e | file, W⟩ <;> rw [hrun] at hok
  · cases hok
  · obtain ⟨file, rfl⟩ := Option.isSome_iff_exists.1 hok
    exact ⟨file, W, rfl, (driven_reads oneFileMount_wellMounted editedScene_driven
      (asked_edited (by decide))).2.1 _ _ _ (edited_shows (by decide) edited_file) hrun 4 1 (by decide)⟩

/-! ### A directory over a deleted one -/

theorem canPut_directory : oneFileDisk.tree.CanPut ["w", "a"] (.dir 0o755) :=
  ⟨by simp, ⟨0o755, rfl⟩, fun _ => ⟨0o755, rfl⟩⟩

/-- The writelayer has a directory. -/
def directoryDisk : Disk := oneFileDisk.put ["w", "a"] (.dir 0o755) canPut_directory (by simp)

theorem canPut_deletion : directoryDisk.tree.CanPut ["w", mark "b"] (.file directoryDisk.next) := by
  refine ⟨by simp, ⟨0o755, rfl⟩, ?_⟩
  rintro ⟨m, hm⟩
  cases hm

/-- And the directory of the layer is deleted in it. -/
def deletedDisk : Disk := directoryDisk.addFile ["w", mark "b"] 0o644 canPut_deletion

theorem deletedDisk_node (q : Path) : deletedDisk.tree.node q =
    if q = ["w", mark "b"] then some (.file 1) else if q = ["w", "a"] then some (.dir 0o755)
    else oneFileDisk.tree.node q := rfl

theorem deletedDisk_inside (v : Path) : deletedDisk.tree.node (["w"] ++ v) =
    if v = [mark "b"] then some (.file 1) else if v = ["a"] then some (.dir 0o755)
    else if v = [] then some (.dir 0o755) else none := by
  rw [deletedDisk_node, oneFileDisk_node]
  simp

theorem deletedDisk_fit : Fit ["w"] deletedDisk where
  shape :=
    { above := fun q hq hne => by
        rcases List.prefix_concat_iff.1 (show q <+: [] ++ ["w"] from hq) with rfl | hq
        · exact absurd rfl hne
        · rw [List.prefix_nil.1 hq]
          exact ⟨0o755, rfl, by decide⟩
      root := ⟨0o755, rfl⟩
      full := fun v m hm => by
        rw [deletedDisk_inside] at hm
        split_ifs at hm
        · cases hm
        · obtain rfl : 0o755 = m := by simpa using hm
          decide
        · obtain rfl : 0o755 = m := by simpa using hm
          decide
      markers := fun v n hn hne => by
        rw [List.append_assoc, deletedDisk_inside] at hne ⊢
        split_ifs at hne ⊢ with hmark ha hnil
        · exact ⟨1, rfl⟩
        · obtain ⟨-, rfl⟩ := List.append_singleton_inj.1 (show v ++ [n] = [] ++ ["a"] from ha)
          exact absurd hn (by decide)
        · simp at hnil
        · exact absurd rfl hne }
  apart x q i hx hi _ := by
    rw [deletedDisk_inside] at hi
    split_ifs at hi with hmark
    · rw [hmark] at hx
      exact absurd (hx (mark "b") (by simp)) (by decide)
    · cases hi
    · cases hi
  exclusive v n _ hne := by
    rw [List.append_assoc, deletedDisk_inside] at hne
    split_ifs at hne with hmark ha hnil
    · obtain ⟨rfl, hn⟩ := List.append_singleton_inj.1 (show v ++ [mark n] = [] ++ [mark "b"] from hmark)
      obtain rfl := mark_inj.1 hn
      rfl
    · obtain ⟨-, ha⟩ := List.append_singleton_inj.1 (show v ++ [mark n] = [] ++ ["a"] from ha)
      exact absurd (ha ▸ isMarker_mark n) (by decide)
    · simp at hnil
    · exact absurd rfl hne
  device _ := rfl

theorem nestedFileMount_wellMounted : WellMounted nestedFileMount ["w"] deletedDisk where
  writelayer := rfl
  noKept L hL := by
    obtain rfl := List.mem_singleton.1 hL
    rfl
  clean L hL := by
    obtain rfl := List.mem_singleton.1 hL
    intro n hn
    revert n
    decide
  named L hL := by
    obtain rfl := List.mem_singleton.1 hL
    decide
  grounded L hL := by
    obtain rfl := List.mem_singleton.1 hL
    refine grounded_pkg rfl fun r => ?_
    rw [mountedState, deletedDisk_node, oneFileDisk_node]
    simp
  fit := deletedDisk_fit

/-- The mount's start: `a` is there, and `b` is not. -/
def deletedState : VfsState := mountedState ["w"] deletedDisk

theorem asked_deleted {n : Name} (hn : isMarker n = false) : Asked nestedFileMount deletedState [n] :=
  asked_single hn ⟨_, rfl, rfl⟩

theorem directory_shows : scene nestedFileMount deletedState ["a"] = some .dir := by
  rw [(asked_deleted (by decide)).scene]
  decide +kernel

theorem deletion_shows : scene nestedFileMount deletedState ["b"] = none := by
  rw [(asked_deleted (by decide)).scene]
  decide +kernel

theorem nestedFileMount_renames : Requested nestedFileMount ["w"] deletedState [] (.rename ["a"] ["b"]) := by
  refine ⟨asked_deleted (by decide), ?_, asked_deleted (by decide), fun _ => ⟨deletion_shows, by decide⟩,
    fun hdir => absurd directory_shows hdir⟩
  rw [directory_shows]
  simp

/-- The file below comes out in the place of the directory. -/
theorem not_faithful_rename : ¬ Faithful nestedFileMount deletedState (.rename ["a"] ["b"]) := by
  intro hun
  have hreach : Reached nestedFileMount deletedState (["a"] ++ ["pkg"]) := by
    refine Scene.reached_concat.2 ⟨(asked_deleted (by decide)).reached, ?_⟩
    rw [← (asked_deleted (by decide)).scene, directory_shows]
  have hopq : deletedState.opaqueSet = ∅ := by decide +kernel
  have hnone : scene nestedFileMount deletedState (["a"] ++ ["pkg"]) = none := by
    rw [scene, Scene.walked_of_reached hreach]
    decide +kernel
  rcases hun directory_shows ["pkg"] (by decide) hreach hnone with hwh | ⟨q, -, -, -, hq⟩ | ⟨q, -, -, hq⟩ | hlow
  · revert hwh
    decide +kernel
  · rw [hopq] at hq
    exact absurd hq (Finset.notMem_empty q)
  · rw [hopq] at hq
    exact absurd hq (Finset.notMem_empty q)
  · revert hlow
    decide +kernel

/-- The run that moves the directory there. -/
def mixedScene : World := (yielded nestedFileMount (.rename ["a"] ["b"]) (calm deletedState)).2

theorem mixedScene_run : yielded nestedFileMount (.rename ["a"] ["b"]) (calm deletedState) =
    (.ok none, mixedScene) := yielded_none (by decide +kernel)

/-- A file that is deleted is gone; a directory over a deleted one has its files. -/
theorem driven_plainly_mixed : scene oneFileMount unlinkedScene.state ["pkg"] = none ∧
    scene nestedFileMount mixedScene.state ≠ Scene.moved (scene nestedFileMount deletedState) ["a"] ["b"] := by
  constructor
  · have hpost := driven_plainly oneFileMount_wellMounted .start oneFileMount_unlinks
    rw [unlinkedScene_run] at hpost
    rw [hpost.2 trivial]
    exact Scene.put_self none
  · have hpost := driven_plainly nestedFileMount_wellMounted .start nestedFileMount_renames
    rw [← deletedState, mixedScene_run] at hpost
    exact fun he => not_faithful_rename (hpost.1 he)

end VidyaGodFS
