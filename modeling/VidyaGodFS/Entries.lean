/-
**What the mount shows at a path.**

A lookup says which host file or archive entry a path stands for.  What the operations then serve of it
is an *entry*: a directory, a file with its bytes, or a link with its target.  The attributes, reading a
link and reading a file all serve one and the same entry.

Main definitions:

* `Entry`, `Disk.entryAt` — the entries of a host;
* `shown`, `entryAt` — what stands behind what a lookup found, and behind a path;
* `StoredWhole` — an archive's entry whose bytes can be read in pieces.

Main results:

* `attr_shows`, `readlink_shows`, `read_shows` — **attributes, links and reads serve the entry**.
-/

import VidyaGodFS.CopyUp

set_option relaxedAutoImplicit false
set_option autoImplicit false

namespace Posix

/-! ### Links at the end -/

namespace Tree

variable {t : Tree}

theorem IsDir.not_link {p : Path} (h : t.IsDir p) (target : String) : t.node p ≠ some (.link target) := by
  obtain ⟨m, hm⟩ := h
  rw [hm]
  simp

theorem IsDir.dropLast {p : Path} (h : t.IsDir p) : t.IsDir p.dropLast := by
  rcases p.eq_nil_or_concat' with rfl | ⟨p, n, rfl⟩
  · exact h
  · rw [append_singleton_dropLast]
    exact t.parent_dir p n h.ne_none

/-- A walk that follows links ends at none, and each link on its way lies in a directory. -/
theorem walk_true_ends :
    ∀ (rest : List Step) (cur : Path), t.IsDir cur →
      (∀ q, t.walk true cur rest = .arrived q → ∀ target, t.node q ≠ some (.link target)) ∧
      ∀ c target r, t.walk true cur rest = .jump c target r → t.IsDir c := by
  intro rest
  induction rest with
  | nil =>
      refine fun cur hcur => ⟨?_, by rintro _ _ _ ⟨⟩⟩
      rintro q ⟨rfl⟩
      exact hcur.not_link
  | cons step rest ih =>
      intro cur hcur
      by_cases hs : canSearch (t.dirMode cur) = true
      · cases step with
        | up =>
            rw [walk, if_pos hs]
            exact ih _ hcur.dropLast
        | name n =>
            rw [walk, if_pos hs]
            cases hnode : t.node (cur ++ [n]) with
            | none =>
                dsimp only
                by_cases hrest : rest = []
                · rw [if_pos hrest]
                  refine ⟨?_, by rintro _ _ _ ⟨⟩⟩
                  rintro q ⟨rfl⟩ target
                  rw [hnode]
                  simp
                · rw [if_neg hrest]
                  exact ⟨by rintro _ ⟨⟩, by rintro _ _ _ ⟨⟩⟩
            | some nd =>
                cases nd with
                | dir m => exact ih _ ⟨m, hnode⟩
                | file i =>
                    dsimp only
                    by_cases hrest : rest = []
                    · rw [if_pos hrest]
                      refine ⟨?_, by rintro _ _ _ ⟨⟩⟩
                      rintro q ⟨rfl⟩ target
                      rw [hnode]
                      simp
                    · rw [if_neg hrest]
                      exact ⟨by rintro _ ⟨⟩, by rintro _ _ _ ⟨⟩⟩
                | link target =>
                    dsimp only
                    rw [if_neg (by simp)]
                    refine ⟨by rintro _ ⟨⟩, ?_⟩
                    rintro c target' r ⟨rfl, -, -⟩
                    exact hcur
      · cases step <;> rw [walk, if_neg hs] <;> exact ⟨by rintro _ ⟨⟩, by rintro _ _ _ ⟨⟩⟩

/-- A path whose links are followed leads to no link. -/
theorem locate_true_ends {p q : Path} (h : t.locate true p = .ok q) (target : String) :
    t.node q ≠ some (.link target) := by
  have hfrom : ∀ (fuel : ℕ) (cur : Path) (steps : List Step), t.IsDir cur →
      t.locateFrom true fuel cur steps = .ok q → t.node q ≠ some (.link target) := by
    intro fuel
    induction fuel with
    | zero => intro cur steps _ hl; cases hl
    | succ fuel ih =>
        intro cur steps hcur hl
        rw [locateFrom] at hl
        cases hw : t.walk true cur steps with
        | arrived p' =>
            rw [hw] at hl
            obtain rfl : p' = q := by simpa using hl
            exact (walk_true_ends steps cur hcur).1 p' hw target
        | stuck e =>
            rw [hw] at hl
            cases hl
        | jump c target' rest =>
            rw [hw] at hl
            refine ih _ _ ?_ hl
            split_ifs
            · exact t.root_dir
            · exact (walk_true_ends steps cur hcur).2 c target' rest hw
  exact hfrom _ _ _ t.root_dir h

end Tree

/-! ### The entries of a host -/

/-- What is at a place: a directory, a file with its bytes, or a link. -/
inductive Entry
  | dir
  | file (bytes : List UInt8)
  | link (target : String)
  deriving DecidableEq, Repr

namespace Disk

variable {d : Disk} {follow : Bool} {p : HostPath}

def entryOf (d : Disk) : Node → Entry
  | .dir _ => .dir
  | .file i => .file (d.inode i).bytes
  | .link target => .link target

/-- What a path leads to, its last link followed or not. -/
def entryAt (d : Disk) (follow : Bool) (p : HostPath) : Option Entry :=
  match d.find follow p with
  | .error _ => none
  | .ok q => (d.tree.node q).map d.entryOf

theorem entryAt_eq_some {x : Entry} : d.entryAt follow p = some x ↔
    ∃ q nd, d.find follow p = .ok q ∧ d.tree.node q = some nd ∧ d.entryOf nd = x := by
  unfold entryAt
  cases hq : d.find follow p with
  | error e => simp
  | ok q => simp [Option.map_eq_some_iff]

/-- What there is an entry of can be asked about. -/
theorem entryAt_eq_none : d.entryAt follow p = none ↔ ∃ e, d.statAt follow p = .error e := by
  unfold entryAt statAt
  cases d.find follow p with
  | error e => simp
  | ok q =>
      dsimp only
      cases d.tree.node q <;> simp

/-- Links that are followed are not seen. -/
theorem entryAt_true_ne_link (target : String) : d.entryAt true p ≠ some (.link target) := by
  intro h
  obtain ⟨q, nd, hq, hnd, hx⟩ := entryAt_eq_some.1 h
  cases nd with
  | link target' =>
      cases p with
      | none => cases hq
      | some p => exact Tree.locate_true_ends hq target' hnd
  | _ => cases hx

theorem pread_reads {access : Access} (ha : access.reads = true) (i n : ℕ) {off : ℕ}
    (hoff : off < 2 ^ 63) : d.pread (.file i access) n off = .ok (slice (d.inode i).bytes off n) := by
  unfold pread
  dsimp only
  rw [if_neg (by simp [ha]), if_pos hoff]

theorem entryAt_straight {p : Path} (h : d.tree.Straight p) :
    d.entryAt false (some p) = (d.tree.node p).map d.entryOf := by
  unfold entryAt
  rcases @Tree.Straight.locate _ _ h false (fun _ _ => rfl) with hok | ⟨herr, hnone⟩
  · rw [find, hok]
  · rw [find, herr, hnone]
    rfl

end Disk

end Posix

namespace VidyaGodFS

open Posix

variable {M : Mount} {w : Path} {s : VfsState} {v : Path}

/-! ### Behind a lookup -/

/-- The bytes of an archive's entry. -/
def zipBytes (Z : ZipIndex) (e : ZipEntry) : Bytes :=
  match readZipEntry ⟨Z.src, e.dataOffset, e.size⟩ e.size 0 with
  | .ok bs => bs
  | .error _ => []

/-- The target that they spell. -/
def zipTarget (Z : ZipIndex) (e : ZipEntry) : String := String.ofList (linkTarget (zipBytes Z e))

/-- **What stands behind what a lookup found.** -/
def shown (M : Mount) (d : Disk) (rr : ResolveResult) : Option Entry :=
  match rr with
  | .none => none
  | .implicitDir => some .dir
  | .zipEntry _ _ none => some .dir
  | .zipEntry _ Z (some e) =>
      some (if e.isDir then .dir else if e.symlink then .link (zipTarget Z e) else .file (zipBytes Z e))
  | .writeLayer host | .dirLayer host _ | .fileLayer host _ => d.entryAt (followsLinks M rr) host

/-- **What the mount shows at a path.** -/
def entryAt (M : Mount) (s : VfsState) (v : Path) : Option Entry :=
  if v = [] then some .dir else shown M s.disk (lookup M s v)

/-- A stored entry whose bytes are the same however the reads cut them. -/
def StoredWhole : ResolveResult → Prop
  | .zipEntry _ Z (some e) => e.isDir = false → e.stored = true →
      (zipBytes Z e).length = e.size ∧ ∀ n off, off < 2 ^ 63 →
        readZipEntry ⟨Z.src, e.dataOffset, e.size⟩ n off = .ok (slice (zipBytes Z e) off n)
  | _ => True

/-- The attributes tell the kind of an entry. -/
def Describes (a : VfsAttr) : Entry → Prop
  | .dir => a.isDir = true ∧ a.isSymlink = false
  | .file _ => a.isDir = false ∧ a.isSymlink = false
  | .link _ => a.isDir = false ∧ a.isSymlink = true

theorem describes_nodeStat (d : Disk) (nd : Node) : Describes (.ofStat (d.nodeStat nd)) (d.entryOf nd) := by
  cases nd <;> exact ⟨rfl, rfl⟩

/-- **The attributes are those of the entry.** -/
theorem attr_shows (M : Mount) (s : VfsState) (v : Path) :
    match entryAt M s v with
    | none => ∃ e, attr M s v = .error e
    | some x => ∃ a, attr M s v = .ok a ∧ Describes a x := by
  have hhost : ∀ (follow : Bool) (host : HostPath) (r : Except Errno Stat), r = s.disk.statAt follow host →
      match s.disk.entryAt follow host with
      | none => ∃ e, r.map VfsAttr.ofStat = .error e
      | some x => ∃ a, r.map VfsAttr.ofStat = .ok a ∧ Describes a x := by
    rintro follow host _ rfl
    cases hx : s.disk.entryAt follow host with
    | none =>
        obtain ⟨e, he⟩ := Disk.entryAt_eq_none.1 hx
        exact ⟨e, by rw [he]; rfl⟩
    | some x =>
        obtain ⟨q, nd, hq, hnd, rfl⟩ := Disk.entryAt_eq_some.1 hx
        exact ⟨_, by rw [Disk.statAt_of_find hq hnd]; rfl, describes_nodeStat s.disk nd⟩
  by_cases hroot : v = []
  · rw [entryAt, if_pos hroot]
    refine ⟨⟨true, false, 0o755, 0⟩, ?_, rfl, rfl⟩
    unfold attr vfsGetattr
    rw [if_pos hroot]
    rfl
  · rw [entryAt, if_neg hroot, attr_eq hroot]
    cases lookup M s v with
    | none => exact ⟨_, rfl⟩
    | implicitDir => exact ⟨_, rfl, rfl, rfl⟩
    | writeLayer host =>
        have hfollow : followsLinks M (.writeLayer host) = false := by
          simp [followsLinks, ResolveResult.isWriteLayer]
        rw [shown, hfollow]
        exact hhost false host _ rfl
    | dirLayer host L =>
        refine hhost (followsLinks M (.dirLayer host L)) host _ ?_
        cases followsLinks M (.dirLayer host L) <;> rfl
    | fileLayer host L =>
        refine hhost (followsLinks M (.fileLayer host L)) host _ ?_
        cases followsLinks M (.fileLayer host L) <;> rfl
    | zipEntry L Z e =>
        cases e with
        | none => exact ⟨_, rfl, rfl, rfl⟩
        | some e =>
            simp only [shown]
            cases hdir : e.isDir with
            | true => exact ⟨_, rfl, rfl, rfl⟩
            | false =>
                cases hlink : e.symlink with
                | true => exact ⟨_, rfl, rfl, rfl⟩
                | false => exact ⟨_, rfl, rfl, rfl⟩

/-- The mount shows a directory where it says so. -/
theorem dirAt_iff : DirAt M s v ↔ entryAt M s v = some .dir := by
  have hshows := attr_shows M s v
  cases hx : entryAt M s v with
  | none =>
      rw [hx] at hshows
      obtain ⟨e, he⟩ := hshows
      refine iff_of_false ?_ (by simp)
      rintro ⟨a, ha, -⟩
      rw [he] at ha
      cases ha
  | some x =>
      rw [hx] at hshows
      obtain ⟨a, ha, htells⟩ := hshows
      have hdir : DirAt M s v ↔ a.isDir = true := by
        constructor
        · rintro ⟨b, hb, hdir⟩
          rw [ha] at hb
          rwa [Except.ok.inj hb]
        · exact fun hd => ⟨a, ha, hd⟩
      rw [hdir]
      cases x with
      | dir => exact iff_of_true htells.1 rfl
      | file bs => exact iff_of_false (by rw [htells.1]; simp) (by simp)
      | link target => exact iff_of_false (by rw [htells.1]; simp) (by simp)

/-- A call that only looks. -/
theorem act_look {α : Type} (f : Disk → Except Errno α) (s : VfsState) :
    act (fun d => (f d, d)) (calm s) = (f s.disk, calm s) := rfl

/-- Reading a link of the host. -/
theorem readlink_host {target target' : String} {W : World} {follow : Bool} {host : HostPath}
    (hentry : s.disk.entryAt follow host = some (.link target))
    (hread : act (fun d => (d.readlink host, d)) (calm s) = (.ok target', W)) :
    target' = target ∧ W = calm s := by
  obtain rfl : follow = false := by
    by_contra hf
    rw [show follow = true by simpa using hf] at hentry
    exact Disk.entryAt_true_ne_link target hentry
  obtain ⟨q, nd, hq, hnd, hlink⟩ := Disk.entryAt_eq_some.1 hentry
  have hread' : s.disk.readlink host = .ok target := by
    cases nd with
    | link t =>
        obtain rfl : t = target := by simpa [Disk.entryOf] using hlink
        rw [Disk.readlink, hq]
        dsimp only
        rw [hnd]
    | _ => cases hlink
  obtain ⟨h₁, h₂⟩ := Prod.mk.inj ((act_look (fun d => d.readlink host) s).symm.trans hread)
  rw [hread'] at h₁
  exact ⟨(Except.ok.inj h₁).symm, h₂.symm⟩

/-- Reading a link of an archive. -/
theorem readZipLink_yields {target' : String} {W : World} {Z : ZipIndex} {e : ZipEntry}
    (hrun : readZipLink Z e (calm s) = (.ok target', W)) : target' = zipTarget Z e ∧ W = calm s := by
  unfold readZipLink at hrun
  split_ifs at hrun
  · cases hrun
  · unfold openZipEntry at hrun
    cases hst : e.stored with
    | false =>
        rw [hst] at hrun
        cases hrun
    | true =>
        rw [hst, if_pos rfl] at hrun
        dsimp only at hrun
        unfold zipTarget zipBytes
        cases hread : readZipEntry ⟨Z.src, e.dataOffset, e.size⟩ e.size 0 with
        | error err =>
            rw [Prog.bind_of_error ((act_look _ s).trans (by rw [hread]))] at hrun
            cases hrun
        | ok bs =>
            rw [Prog.bind_of_ok ((act_look _ s).trans (by rw [hread]))] at hrun
            obtain ⟨h₁, h₂⟩ := Prod.mk.inj hrun
            exact ⟨(Except.ok.inj h₁).symm, h₂.symm⟩

/-- **Reading a link yields the target of the entry.** -/
theorem readlink_shows {target target' : String} {W : World} (hx : entryAt M s v = some (.link target))
    (hrun : vfsReadlink M v (calm s) = (.ok target', W)) : target' = target ∧ W = calm s := by
  by_cases hroot : v = []
  · rw [entryAt, if_pos hroot] at hx
    cases hx
  rw [entryAt, if_neg hroot] at hx
  rw [vfsReadlink, Prog.bind_of_ok (resolve_run M (calm_calm s).2 v),
    show (calm s).state = s from rfl] at hrun
  cases hrr : lookup M s v with
  | none =>
      rw [hrr] at hx
      cases hx
  | implicitDir =>
      rw [hrr] at hx
      cases hx
  | writeLayer host =>
      rw [hrr] at hx hrun
      exact readlink_host hx hrun
  | dirLayer host L =>
      rw [hrr] at hx hrun
      dsimp only at hrun
      split_ifs at hrun
      · exact readlink_host hx hrun
      · cases hrun
  | fileLayer host L =>
      rw [hrr] at hx hrun
      dsimp only at hrun
      split_ifs at hrun
      · exact readlink_host hx hrun
      · cases hrun
  | zipEntry L Z e =>
      rw [hrr] at hx hrun
      cases e with
      | none => cases hx
      | some e =>
          dsimp only at hrun
          cases hlink : e.symlink with
          | false =>
              rw [hlink, if_neg Bool.false_ne_true] at hrun
              cases hrun
          | true =>
              rw [hlink, if_pos rfl] at hrun
              simp only [shown, hlink, if_true, Option.some_inj] at hx
              split_ifs at hx
              obtain rfl : zipTarget Z e = target := by simpa using hx
              exact readZipLink_yields hrun

/-- Reading a file of the host. -/
theorem read_host {bs : Bytes} {file : OpenFile} {W : World} {follow : Bool} {host : HostPath}
    (hentry : s.disk.entryAt follow host = some (.file bs))
    (hrun : (do let h ← act (Disk.open host ⟨.rdonly, false, false, false, false⟩ 0)
                pure (some (.host h)) : Prog World Errno (Option OpenFile)) (calm s)
      = (.ok (some file), W)) {n off : ℕ} (hoff : off < 2 ^ 63) :
    vfsRead file n off W = (.ok (slice bs off n), W) := by
  obtain ⟨q, nd, hq, hnd, hbs⟩ := Disk.entryAt_eq_some.1 hentry
  cases nd with
  | dir m => cases hbs
  | link target => cases hbs
  | file i =>
      obtain rfl : (s.disk.inode i).bytes = bs := by simpa [Disk.entryOf] using hbs
      have hq' : s.disk.find true host = .ok q := by
        cases follow with
        | true => exact hq
        | false => exact Disk.find_follow hq (by simp [hnd])
      rcases Disk.open_cases host ⟨.rdonly, false, false, false, false⟩ 0 s.disk with
        ⟨e, hf⟩ | ⟨q₁, hq₁, ⟨hnone, -⟩ | ⟨j, hj, hok⟩ | ⟨⟨m, hm⟩, -⟩⟩
      · have hact : act (Disk.open host ⟨.rdonly, false, false, false, false⟩ 0) (calm s) =
            (.error e, calm s) := by rw [act_calm, hf]
        rw [Prog.bind_of_error hact] at hrun
        cases hrun
      · obtain rfl : q = q₁ := Except.ok.inj (hq'.symm.trans hq₁)
        rw [hnd] at hnone
        cases hnone
      · obtain rfl : q = q₁ := Except.ok.inj (hq'.symm.trans hq₁)
        rw [hnd] at hj
        obtain rfl : i = j := by simpa using hj
        have hact : act (Disk.open host ⟨.rdonly, false, false, false, false⟩ 0) (calm s) =
            (.ok (.file i .rdonly), calm s) := by
          rw [act_calm, hok]
          rfl
        rw [Prog.bind_of_ok hact] at hrun
        obtain ⟨h₁, rfl⟩ := Prod.mk.inj hrun
        obtain rfl := Option.some_inj.1 (Except.ok.inj h₁)
        change (s.disk.pread (.file i .rdonly) n off, calm s) = _
        rw [Disk.pread_reads rfl i n hoff]
      · obtain rfl : q = q₁ := Except.ok.inj (hq'.symm.trans hq₁)
        rw [hnd] at hm
        cases hm

/-- Reading what a look-up found. -/
theorem openForRead_shows {bs : Bytes} {file : OpenFile} {W : World} {rr : ResolveResult}
    (hx : shown M s.disk rr = some (.file bs)) (hsteady : StoredWhole rr)
    (hopen : openForRead rr ⟨.rdonly, false, false, false, false⟩ (calm s) = (.ok (some file), W))
    {n off : ℕ} (hoff : off < 2 ^ 63) : vfsRead file n off W = (.ok (slice bs off n), W) := by
  cases rr with
  | none => cases hx
  | implicitDir => cases hx
  | writeLayer host => exact read_host hx hopen hoff
  | dirLayer host L => exact read_host hx hopen hoff
  | fileLayer host L => exact read_host hx hopen hoff
  | zipEntry L Z e =>
      cases e with
      | none => cases hx
      | some e =>
          simp only [shown, Option.some_inj] at hx
          split_ifs at hx with hd hl
          obtain rfl : zipBytes Z e = bs := by simpa using hx
          unfold openForRead openZipEntry at hopen
          dsimp only at hopen
          cases hst : e.stored with
          | false =>
              rw [hst] at hopen
              cases hopen
          | true =>
              rw [hst, if_pos rfl] at hopen
              obtain ⟨h₁, rfl⟩ := Prod.mk.inj hopen
              obtain rfl := Option.some_inj.1 (Except.ok.inj h₁)
              have hread := (hsteady (by simpa using hd) hst).2 n off hoff
              change (readZipEntry _ n off, calm s) = _
              rw [hread]

/-- **Reading a file yields the bytes of the entry.** -/
theorem read_shows {bs : Bytes} {file : OpenFile} {W : World} (hx : entryAt M s v = some (.file bs))
    (hsteady : StoredWhole (lookup M s v))
    (hopen : vfsOpen M v ⟨.rdonly, false, false, false, false⟩ (calm s) = (.ok (some file), W))
    {n off : ℕ} (hoff : off < 2 ^ 63) :
    vfsRead file n off W = (.ok (slice bs off n), W) := by
  by_cases hroot : v = []
  · rw [entryAt, if_pos hroot] at hx
    cases hx
  rw [entryAt, if_neg hroot] at hx
  rw [vfsOpen, Prog.bind_of_ok (resolve_run M (calm_calm s).2 v),
    show (calm s).state = s from rfl] at hopen
  by_cases hnone : (lookup M s v).isNone = true
  · rw [if_pos hnone] at hopen
    cases hopen
  rw [if_neg hnone,
    Prog.bind_of_ok ((hitIsDir_agrees true (lookup M s v)).run (calm s) rfl)] at hopen
  have hwant : ¬ OpenFlags.wantWrite ⟨.rdonly, false, false, false, false⟩ = true := by decide
  by_cases hdir : (hitIsDir true (lookup M s v) : View Bool) (calm s).state = true
  · rw [if_pos hdir, if_neg hwant] at hopen
    cases hopen
  · rw [if_neg hdir, if_neg hwant] at hopen
    exact openForRead_shows hx hsteady hopen hoff

end VidyaGodFS
