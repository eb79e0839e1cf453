/-
**Bytes that change.**

A file that is opened for a change is brought to the writelayer first, and is changed there.  What it
holds shows at each name that it has in the writelayer, and at no other path.

Main definitions:

* `rewritten` — the scene with other bytes at some names;
* `SharesFile`, `NamedBy` — the names that share a file with a path, or are those of an open file.

Main results:

* `setInode_scene` — **other bytes for a file show at its names, and nowhere else**;
* `vfsOpen_plainly`, `vfsTruncate_plainly`, `vfsWrite_plainly`, `vfsChmod_plainly` — what opening,
  cutting, writing and a change of the mode make of the scene.
-/

import VidyaGodFS.SceneOps

set_option relaxedAutoImplicit false
set_option autoImplicit false

namespace VidyaGodFS

open Posix

variable {M : Mount} {w : Path} {s₀ s s' : VfsState} {v : Path} {low : Path → Option Entry}

/-! ### Bytes -/

/-- Other bytes for a file. -/
def rewriteEntry (g : Bytes → Bytes) : Entry → Entry
  | .file bs => .file (g bs)
  | x => x

open Classical in
/-- The scene with other bytes at some names. -/
noncomputable def rewritten (g : Bytes → Bytes) (names : Path → Prop) (t : Path → Option Entry) :
    Path → Option Entry := Scene.changed t (rewriteEntry g) names

/-- `u` is `v`, or a further name of its file. -/
def SharesFile (w : Path) (s : VfsState) (v u : Path) : Prop :=
  u = v ∨ Clean u ∧ ∃ i, s.disk.tree.node (w ++ v) = some (.file i) ∧ s.disk.tree.node (w ++ u) = some (.file i)

/-- The names of an open file. -/
def NamedBy (w : Path) (s : VfsState) : OpenFile → Path → Prop
  | .host (.file i _) => NameOf w s i
  | .host .dir => fun _ => False
  | .zip _ => fun _ => False

section

variable {i : ℕ} {f : Inode} {g : Bytes → Bytes} (hM : M.writelayer = some w) (hb : Beneath M w s₀ low)

theorem Orderly.setInode (h : Orderly w s₀ s) (hi : Inside w s₀ i) (f : Inode) :
    Orderly w s₀ { s with disk := s.disk.setInode i f } where
  synced := h.synced.of_namesKept ⟨rfl, rfl, rfl, rfl⟩
  beside := by
    refine h.beside.trans ⟨fun _ _ => rfl, fun q j hq hj => ?_⟩
    refine Function.update_of_ne (fun he => hi q hq ?_) _ _
    rw [← h.beside.outside q hq, ← he, hj]
  apart := h.apart
  exclusive := h.exclusive
  device := h.device

include hM hb

/-- **Other bytes for a file** show at all of its names, and nowhere else. -/
theorem setInode_scene (h : Orderly w s₀ s) (hi : Inside w s₀ i) (hf : f.bytes = g (s.disk.inode i).bytes) :
    scene M { s with disk := s.disk.setInode i f } = rewritten g (NameOf w s i) (scene M s) := by
  classical
  have h' := h.setInode hi f
  have hentry : ∀ nd, (s.disk.setInode i f).entryOf nd =
      if nd = .file i then rewriteEntry g (s.disk.entryOf nd) else s.disk.entryOf nd := by
    intro nd
    cases nd with
    | dir m => rfl
    | link target => rfl
    | file j =>
        change Entry.file (Function.update s.disk.inode i f j).bytes = _
        by_cases hj : j = i
        · rw [if_pos (by rw [hj]), hj, Function.update_self, hf]
          rfl
        · rw [if_neg fun he => hj (Node.file.inj he), Function.update_of_ne hj]
          rfl
  have hboth : ∀ u, Reached M s u → Reached M { s with disk := s.disk.setInode i f } u ∧
      served M { s with disk := s.disk.setInode i f } u =
        if NameOf w s i u then (served M s u).map (rewriteEntry g) else served M s u := by
    intro u
    induction u using List.reverseRecOn with
    | nil =>
        refine fun _ => ⟨Scene.reached_nil, ?_⟩
        have hroot : served M s [] = some .dir := rfl
        rw [hroot, Option.map_some]
        exact (ite_self _).symm
    | append_singleton u n ih =>
        intro hu
        obtain ⟨hreach, hdir⟩ := Scene.reached_concat.1 hu
        obtain ⟨hreach', heq⟩ := ih hreach
        rw [hdir, Option.map_some, show rewriteEntry g Entry.dir = .dir from rfl, ite_self] at heq
        have hu' := Scene.reached_concat (n := n).2 ⟨hreach', heq⟩
        refine ⟨hu', ?_⟩
        by_cases hclean : Clean (u ++ [n])
        · rw [served_eq hM hb h' hu' hclean (by simp), served_eq hM hb h hu hclean (by simp), stacked, stacked]
          dsimp only
          by_cases hgone : u ++ [n] ∈ s.whiteoutSet
          · rw [if_pos hgone, if_pos hgone, Option.map_none, ite_self]
          · rw [if_neg hgone, if_neg hgone]
            have htree : (s.disk.setInode i f).tree = s.disk.tree := rfl
            rw [htree, show Covered { s with disk := s.disk.setInode i f } (u ++ [n]) =
              Covered s (u ++ [n]) from rfl]
            cases hnode : s.disk.tree.node (w ++ (u ++ [n])) with
            | none =>
                have hno : ¬ NameOf w s i (u ++ [n]) := by
                  rintro ⟨-, hc⟩
                  rw [hnode] at hc
                  cases hc
                rw [if_neg hno]
            | some nd =>
                dsimp only
                rw [hentry nd, Option.map_some]
                by_cases hnd : nd = .file i
                · rw [if_pos hnd, if_pos ⟨hclean, hnode.trans (by rw [hnd])⟩]
                · rw [if_neg hnd, if_neg fun hc => hnd (Option.some_inj.1 (hnode.symm.trans hc.2))]
        · rw [served, served, if_neg hclean, if_neg hclean, Option.map_none, ite_self]
  refine Scene.walked_changed (fun u hu hname => ?_) fun u hu hname => ?_
  · rw [(hboth u hu).2, if_neg hname]
  · have hne : u ≠ [] := by
      rintro rfl
      have hroot := h.synced.shape.root
      rw [Tree.IsDir, show s.disk.tree.node w = s.disk.tree.node (w ++ []) by rw [List.append_nil], hname.2] at hroot
      obtain ⟨m, hm⟩ := hroot
      cases hm
    have hserved := h.served_node hM hb hu hname.1 hne hname.2
    refine ⟨_, hserved, by rintro ⟨⟩, by rintro ⟨⟩, ?_⟩
    rw [(hboth u hu).2, if_pos hname, hserved, Option.map_some]

/-- **Other bytes for a file** change what shows at its names, and nothing else. -/
theorem setInode_plainly (h : Orderly w s₀ s) (hi : Inside w s₀ i) (hf : f.bytes = g (s.disk.inode i).bytes) :
    Orderly w s₀ { s with disk := s.disk.setInode i f } ∧
      scene M { s with disk := s.disk.setInode i f } = rewritten g (NameOf w s i) (scene M s) :=
  ⟨h.setInode hi f, setInode_scene hM hb h hi hf⟩

end

/-- What has been brought has the names that it had. -/
theorem Brought.nameOf {x : Entry} {i : ℕ} (h : Brought M w s₀ v x s s') (hclean : Clean v)
    (hi : s'.disk.tree.node (w ++ v) = some (.file i)) : NameOf w s' i = SharesFile w s v := by
  funext u
  refine propext ⟨fun hu => ?_, ?_⟩
  · by_cases huv : u = v
    · exact Or.inl huv
    · have hold := h.files u i huv hu.2
      obtain ⟨nd, hnd, -, hnew⟩ := h.entry
      obtain rfl := Option.some_inj.1 (hnd.symm.trans hi)
      rcases hnew i rfl with hv | hlt
      · exact Or.inr ⟨hu.1, i, hv, hold⟩
      · have := s.disk.ino_lt _ i hold
        omega
  · rintro (rfl | ⟨hu, j, hv, hj⟩)
    · exact ⟨hclean, hi⟩
    · obtain rfl : j = i := Node.file.inj (Option.some_inj.1 ((h.grows _ _ hv).symm.trans hi))
      exact ⟨hu, h.grows _ _ hj⟩

/-- Where the entries are left as they are nothing changes. -/
theorem rewritten_eq {g : Bytes → Bytes} {names : Path → Prop} {t : Path → Option Entry}
    (h : ∀ u, names u → (t u).map (rewriteEntry g) = t u) : rewritten g names t = t := by
  funext u
  unfold rewritten Scene.changed
  split_ifs with hu
  · exact h u hu
  · rfl

/-- Another mode for a directory. -/
theorem Orderly.setMode (h : Orderly w s₀ s) (hclean : Clean v) (hdir : s.disk.tree.IsDir (w ++ v)) {mode : ℕ}
    (hmode : Full mode) : Orderly w s₀ { s with disk := s.disk.setMode (w ++ v) mode hdir } := by
  have hnode : ∀ q, q ≠ w ++ v → (s.disk.setMode (w ++ v) mode hdir).tree.node q = s.disk.tree.node q :=
    fun q hq => if_neg hq
  have hfile : ∀ {q i}, (s.disk.setMode (w ++ v) mode hdir).tree.node q = some (.file i) →
      s.disk.tree.node q = some (.file i) := by
    intro q i hi
    by_cases hq : q = w ++ v
    · rw [hq, show (s.disk.setMode (w ++ v) mode hdir).tree.node (w ++ v) = _ from if_pos rfl] at hi
      cases hi
    · exact (hnode q hq).symm.trans hi
  refine h.step (h.synced.setMode hclean hdir hmode) ⟨le_rfl, fun _ _ => rfl, rfl⟩
    (fun u i hu hi => Or.inr ⟨u, hu, hfile hi⟩) fun u hu hclean' => ?_
  have hnone := h.exclusive u hu hclean'
  refine (hnode _ fun he => hdir.ne_none ?_).trans hnone
  rw [← he, hnone]

/-! ### Through a path -/

section

variable {x : Entry} {α : Type} (hM : M.writelayer = some w) (hk : NoKept M) (hb : Beneath M w s₀ low)

/-- The lookup that comes first. -/
theorem looked_up (s : VfsState) {f : ResolveResult → Prog World Errno α} {Q : α → VfsState → Prop}
    {E : Errno → VfsState → Prop} (hE : E .enoent s)
    (hf : Calmly (fun t => t = s) (f (lookup M s v)) Q E) :
    Calmly (fun t => t = s)
      (do let rr ← resolve M v
          if rr.isNone then Prog.fail .enoent else f rr) Q E := by
  refine Calmly.bind (Q := fun rr t => t = s ∧ rr = lookup M s v)
    (Calmly.look (resolve_agrees M v) (by rintro s rfl; exact ⟨rfl, rfl⟩)) fun rr => Calmly.assuming ?_
  rintro s ⟨rfl, rfl⟩
  exact Calmly.ite (fun _ => Calmly.fail (by rintro s rfl; exact hE)) fun _ => hf

include hM hk hb

/-- What is changed has been brought up. -/
theorem copied_then (h : Orderly w s₀ s) (hv : Asked M s v) (hx : scene M s v = some x)
    {f : Prog World Errno α} {Q : α → VfsState → Prop}
    (hf : ∀ s₁, Brought M w s₀ v x s s₁ → Calmly (fun t => t = s₁) f Q
      (fun _ s' => Orderly w s₀ s' ∧ scene M s' = scene M s)) :
    Calmly (fun t => t = s) (do makeWritable M v (lookup M s v); f) Q
      (fun _ s' => Orderly w s₀ s' ∧ scene M s' = scene M s) := by
  refine Calmly.bind (Calmly.conseq (makeWritable_still hM hb hk h hv.reached hv.clean hv.ne (hv.scene ▸ hx))
    (fun _ hs => hs) (fun _ _ hs => hs) fun _ _ hs => ⟨hs.1, hs.2.scene_eq⟩) fun _ => ?_
  exact Calmly.assuming hf

/-- **A file is cut or filled up**, with all its names. -/
theorem vfsTruncate_plainly (h : Orderly w s₀ s) (hv : Asked M s v) (hx : scene M s v = some x)
    (hlink : ∀ target, x ≠ .link target) {file : Option OpenFile} (hfile : ∀ handle, file ≠ some (.host handle))
    (size : ℕ) :
    Plainly M w s₀ s (vfsTruncate M v file size)
      (rewritten (resize · size) (SharesFile w s v) (scene M s)) := by
  unfold vfsTruncate
  refine Calmly.ite (fun _ => Plainly.fail h _) fun _ => ?_
  split
  · exact absurd rfl (hfile _)
  · refine looked_up s ⟨h, rfl⟩ (copied_then hM hk hb h hv hx fun s₁ h₁ => ?_)
    rw [writeHost_eq hM hk]
    refine Calmly.act ?_
    rintro s₁ rfl
    rcases Disk.truncate_cases (some (w ++ v)) size s₁.disk with ⟨e, hf⟩ | ⟨q, i, hq, hi, hrun⟩
    · rw [hf]
      exact ⟨h₁.orderly, h₁.same.scene_eq⟩
    · obtain ⟨nd, hnd, hentry, -⟩ := h₁.entry
      obtain rfl := Disk.find_straight (h₁.orderly.synced.shape.straight
        (h₁.orderly.openWay hM (h₁.same v hv.reached).1 hv.clean)) (fun target ht => by
          obtain rfl := Option.some_inj.1 (hnd.symm.trans ht)
          exact absurd hentry.symm (hlink target)) hq
      rw [hrun, ← h₁.nameOf hv.clean hi, ← h₁.same.scene_eq]
      exact setInode_plainly hM hb h₁.orderly (h₁.orderly.inside ⟨hv.clean, hi⟩) rfl

/-- **A change of the mode** changes nothing else. -/
theorem vfsChmod_plainly (h : Orderly w s₀ s) (hv : Asked M s v) (hx : scene M s v = some x)
    (hlink : ∀ target, x ≠ .link target) {mode : ℕ} (hmode : x = .dir → Full mode) :
    Plainly M w s₀ s (vfsChmod M v mode) (scene M s) := by
  unfold vfsChmod
  refine Calmly.ite (fun _ => Plainly.fail h _) fun _ => ?_
  refine looked_up s ⟨h, rfl⟩ (copied_then hM hk hb h hv hx fun s₁ h₁ => ?_)
  rw [writeHost_eq hM hk]
  refine Calmly.act ?_
  rintro s₁ rfl
  obtain ⟨nd, hnd, hentry, -⟩ := h₁.entry
  have hfind : ∀ {q}, s₁.disk.find true (some (w ++ v)) = .ok q → q = w ++ v := by
    intro q hq
    refine Disk.find_straight (h₁.orderly.synced.shape.straight
      (h₁.orderly.openWay hM (h₁.same v hv.reached).1 hv.clean)) (fun target ht => ?_) hq
    obtain rfl := Option.some_inj.1 (hnd.symm.trans ht)
    exact absurd hentry.symm (hlink target)
  rcases Disk.chmod_cases (some (w ++ v)) mode s₁.disk with ⟨e, hf⟩ | ⟨q, hq, ⟨i, hi, hrun⟩ | ⟨hdir, hrun⟩⟩
  · rw [hf]
    exact ⟨h₁.orderly, h₁.same.scene_eq⟩
  · obtain rfl := hfind hq
    rw [hrun, ← h₁.same.scene_eq]
    obtain ⟨h', hscene⟩ := setInode_plainly (g := id) hM hb h₁.orderly (h₁.orderly.inside ⟨hv.clean, hi⟩)
      (f := { s₁.disk.inode i with mode := mode }) rfl
    refine ⟨h', hscene.trans (rewritten_eq fun u _ => ?_)⟩
    rw [show rewriteEntry id = id from funext fun e => by cases e <;> rfl, Option.map_id, id]
  · obtain rfl := hfind hq
    rw [hrun, ← h₁.same.scene_eq]
    have hfull : Full mode := by
      obtain ⟨m, hm⟩ := hdir
      obtain rfl := Option.some_inj.1 (hnd.symm.trans hm)
      exact hmode hentry.symm
    have h' := h₁.orderly.setMode hv.clean hdir hfull
    refine ⟨h', SameScene.scene_eq fun u => served_frame hM hb h₁.orderly h' (P := fun _ => True)
      (fun _ _ _ _ => trivial) (fun _ _ => Iff.rfl) (fun _ _ _ _ _ => Iff.rfl) (fun u nd _ _ hnd => ?_)
      (fun u nd _ _ hnone hnd => ?_) u trivial⟩
    · by_cases huv : w ++ u = w ++ v
      · obtain ⟨m, hm⟩ := hdir
        rw [huv, hm] at hnd
        obtain rfl := Option.some_inj.1 hnd
        exact ⟨.dir mode, if_pos huv, rfl⟩
      · exact ⟨nd, (if_neg huv).trans hnd, rfl⟩
    · have hne : w ++ u ≠ w ++ v := fun he => hdir.ne_none (he ▸ hnone)
      rw [show (s₁.disk.setMode (w ++ v) mode hdir).tree.node (w ++ u) = _ from if_neg hne, hnone] at hnd
      cases hnd

omit hM hk hb in
/-- Opening for reading changes nothing. -/
theorem openForRead_still (h : Orderly w s₀ s) (rr : ResolveResult) {flags : OpenFlags}
    (hcreat : flags.creat = false) (hwant : OpenFlags.wantWrite flags = false) :
    PlainlyYields M w s₀ s (openForRead rr flags) (scene M s) (fun file => ∀ f ∈ file, Upper w s₀ f) := by
  obtain ⟨hwrites, htrunc⟩ : flags.access.writes = false ∧ flags.trunc = false := by
    simpa [OpenFlags.wantWrite] using hwant
  have hopen : ∀ p, Calmly (fun t => t = s) (act (Disk.open p flags 0))
      (fun handle t => t = s ∧ Upper w s₀ (.host handle)) (fun _ t => t = s) := by
    intro p
    refine Calmly.act ?_
    rintro s rfl
    rcases Disk.open_cases p flags 0 s.disk with
      ⟨e, hf⟩ | ⟨q, -, ⟨-, hc, -⟩ | ⟨i, -, hrun⟩ | ⟨-, hrun⟩⟩
    · rw [hf]
      exact Eq.refl s
    · rw [hcreat] at hc
      cases hc
    · rw [hrun, htrunc]
      refine ⟨rfl, fun hw => ?_⟩
      rw [hwrites] at hw
      cases hw
    · rw [hrun]
      exact ⟨rfl, trivial⟩
  have hhost : ∀ p, PlainlyYields M w s₀ s (do let handle ← act (Disk.open p flags 0); pure (some (.host handle)))
      (scene M s) (fun file => ∀ f ∈ file, Upper w s₀ f) := by
    intro p
    refine Calmly.bind (Calmly.conseq (hopen p) (fun _ hs => hs) (fun _ _ hs => hs) fun e t hs => ?_)
      fun handle => Calmly.pure ?_
    · rw [hs]
      exact ⟨h, rfl⟩
    · rintro t ⟨rfl, hup⟩
      refine ⟨⟨h, rfl⟩, fun f hf => ?_⟩
      obtain rfl := Option.some_inj.1 hf
      exact hup
  unfold openForRead
  split
  · split
    · exact Calmly.fail (by rintro s rfl; exact ⟨h, rfl⟩)
    · refine Calmly.pure ?_
      rintro t rfl
      refine ⟨⟨h, rfl⟩, fun f hf => ?_⟩
      obtain rfl := Option.some_inj.1 hf
      trivial
  · exact hhost _

/-- **Opening a file** changes nothing that shows, but that what is cut is empty. -/
theorem vfsOpen_plainly (h : Orderly w s₀ s) (hv : Asked M s v) (hx : scene M s v = some x)
    (hlink : ∀ target, x ≠ .link target) {flags : OpenFlags} (hcreat : flags.creat = false) :
    PlainlyYields M w s₀ s (vfsOpen M v flags)
      (if flags.trunc then rewritten (fun _ => []) (SharesFile w s v) (scene M s) else scene M s)
      (fun file => ∀ f ∈ file, Upper w s₀ f) := by
  unfold vfsOpen
  refine looked_up s ⟨h, rfl⟩ (Calmly.bind (Q := fun _ t => t = s)
    (Calmly.look (hitIsDir_agrees true _) fun _ ht => ht) fun isDir => ?_)
  have hfail : ∀ e, PlainlyYields M w s₀ s (Prog.fail e : Prog World Errno (Option OpenFile))
      (if flags.trunc then rewritten (fun _ => []) (SharesFile w s v) (scene M s) else scene M s)
      (fun file => ∀ f ∈ file, Upper w s₀ f) :=
    fun e => Calmly.fail (by rintro s rfl; exact ⟨h, rfl⟩)
  have htrunc : OpenFlags.wantWrite flags ≠ true → flags.trunc = false := by
    intro hwant
    have hwant : flags.access.writes = false ∧ flags.trunc = false := by
      simpa [OpenFlags.wantWrite] using hwant
    exact hwant.2
  refine Calmly.ite (fun _ => Calmly.ite (fun _ => hfail _) fun hwant => Calmly.pure ?_)
    fun _ => Calmly.ite (fun _ => Calmly.ite (fun _ => hfail _) fun _ => ?_) fun hwant => ?_
  · rintro s rfl
    rw [htrunc hwant]
    exact ⟨⟨h, rfl⟩, by simp⟩
  · unfold openForWrite
    refine copied_then hM hk hb h hv hx fun s₁ h₁ => ?_
    rw [writeHost_eq hM hk]
    refine Calmly.bind (Q := fun handle s' => (Orderly w s₀ s' ∧ scene M s' =
        if flags.trunc then rewritten (fun _ => []) (SharesFile w s v) (scene M s) else scene M s) ∧
        Upper w s₀ (.host handle)) (Calmly.act ?_) fun handle => Calmly.pure ?_
    · rintro s₁ rfl
      obtain ⟨nd, hnd, hentry, -⟩ := h₁.entry
      rcases Disk.open_cases (some (w ++ v)) flags 0 s₁.disk with
        ⟨e, hf⟩ | ⟨q, hq, hopen⟩
      · rw [hf]
        exact ⟨h₁.orderly, h₁.same.scene_eq⟩
      · obtain rfl := Disk.find_straight (h₁.orderly.synced.shape.straight
          (h₁.orderly.openWay hM (h₁.same v hv.reached).1 hv.clean)) (fun target ht => by
            obtain rfl := Option.some_inj.1 (hnd.symm.trans ht)
            exact absurd hentry.symm (hlink target)) hq
        rcases hopen with ⟨-, hc, -⟩ | ⟨i, hi, hrun⟩ | ⟨⟨m, hm⟩, hrun⟩
        · rw [hcreat] at hc
          cases hc
        · have hname : NameOf w s₁ i v := ⟨hv.clean, hi⟩
          rw [hrun]
          refine ⟨?_, fun _ => h₁.orderly.inside hname⟩
          rw [← h₁.nameOf hv.clean hi, ← h₁.same.scene_eq]
          cases flags.trunc with
          | true => exact setInode_plainly hM hb h₁.orderly (h₁.orderly.inside hname) rfl
          | false => exact ⟨h₁.orderly, rfl⟩
        · -- a directory
          obtain rfl := Option.some_inj.1 (hnd.symm.trans hm)
          rw [hrun]
          refine ⟨⟨h₁.orderly, h₁.same.scene_eq.trans ?_⟩, trivial⟩
          split_ifs
          · refine (rewritten_eq ?_).symm
            rintro u (rfl | ⟨-, i, hi, -⟩)
            · rw [hx, ← hentry]
              rfl
            · rw [h₁.grows _ _ hi] at hm
              cases hm
          · rfl
    · rintro s' ⟨hs, hup⟩
      refine ⟨hs, fun f hf => ?_⟩
      obtain rfl := Option.some_inj.1 hf
      exact hup
  · have hwant' : OpenFlags.wantWrite flags = false := by simpa using hwant
    rw [htrunc hwant]
    exact openForRead_still h _ hcreat hwant'

/-! ### Through a handle -/

omit hk in
/-- **Writing** shows at the names of the file, and nowhere else. -/
theorem vfsWrite_plainly (h : Orderly w s₀ s) {file : OpenFile} (hup : Upper w s₀ file) (bs : Bytes) (off : ℕ) :
    Plainly M w s₀ s (vfsWrite M file bs off)
      (rewritten (overwrite · off bs) (NamedBy w s file) (scene M s)) := by
  unfold vfsWrite
  refine Calmly.ite (fun _ => Plainly.fail h _) fun _ => ?_
  cases file with
  | zip zr => exact Plainly.fail h _
  | host handle =>
      refine Calmly.act ?_
      rintro s rfl
      cases handle with
      | dir => exact ⟨h, rfl⟩
      | file i access =>
          unfold Disk.pwrite
          dsimp only
          by_cases hw : access.writes = false
          · rw [if_pos hw]
            exact ⟨h, rfl⟩
          · rw [if_neg hw]
            by_cases hoff : off < 2 ^ 63
            · rw [if_pos hoff]
              exact setInode_plainly hM hb h (hup (by simpa using hw)) rfl
            · rw [if_neg hoff]
              exact ⟨h, rfl⟩

omit hk in
/-- **Cutting an open file.** -/
theorem vfsTruncate_open_plainly (h : Orderly w s₀ s) (v : Path) {handle : Handle}
    (hup : Upper w s₀ (.host handle)) (size : ℕ) :
    Plainly M w s₀ s (vfsTruncate M v (some (.host handle)) size)
      (rewritten (resize · size) (NamedBy w s (.host handle)) (scene M s)) := by
  unfold vfsTruncate
  refine Calmly.ite (fun _ => Plainly.fail h _) fun _ => Calmly.act ?_
  rintro s rfl
  cases handle with
  | dir => exact ⟨h, rfl⟩
  | file i access =>
      by_cases hw : access.writes = false
      · rw [show Disk.ftruncate (.file i access) size = Prog.fail .einval from if_pos hw]
        exact ⟨h, rfl⟩
      · rw [show Disk.ftruncate (.file i access) size = Disk.resizeIno i size from if_neg hw]
        unfold Disk.resizeIno
        by_cases hsize : size < 2 ^ 63
        · rw [if_pos hsize]
          exact setInode_plainly hM hb h (hup (by simpa using hw)) rfl
        · rw [if_neg hsize]
          exact ⟨h, rfl⟩

end

end VidyaGodFS
