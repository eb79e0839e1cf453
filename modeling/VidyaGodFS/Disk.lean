/-
**A disk, and the calls a program makes on it.**

A disk is a tree of names over numbered files, each with its bytes and its permission bits.  The
calls are those of a POSIX system: each finds its path in the tree, fails for a reason the tree
gives, and otherwise makes one change.  A call that fails leaves the disk as it was.

The caller owns everything on the disk, so the owner's permission bits are the ones that count:
reading and writing a file, listing a directory, changing its entries, walking through it.  Modes
are taken as given: there is no mask for new files.  Times and link counts are not kept.

Main definitions:

* `HostPath`, `Disk`, `Stat`, `Handle`;
* `Disk.lstat`, `Disk.stat`, `Disk.readDir`, `Disk.readlink`, `Disk.canonical`, `Disk.pread` — the
  calls that look;
* `Disk.mkdir`, `Disk.unlink`, `Disk.rmdir`, `Disk.rename`, `Disk.link`, `Disk.symlink`,
  `Disk.open`, `Disk.pwrite`, `Disk.ftruncate`, `Disk.truncate`, `Disk.chmod`, `Disk.fchmod` — the
  calls that act.

Main results:

* `Disk.mkdir_cases`, `Disk.open_cases`, `Disk.rename_cases` and their like — **what each call can
  do**: fail and leave the disk as it was, or make its one change at the place the path leads to.
-/

import VidyaGodFS.Prog
import VidyaGodFS.Slice
import VidyaGodFS.Tree

set_option relaxedAutoImplicit false
set_option autoImplicit false

namespace Posix

/-- A path as a program writes it; `none` is the empty string, which names nothing. -/
abbrev HostPath : Type := Option Path

/-- The path `rel` below a directory.  The root of the disk is below the empty string. -/
def HostPath.join : HostPath → Path → HostPath
  | some p, rel => some (p ++ rel)
  | none, [] => none
  | none, n :: rel => some (n :: rel)

/-- A file without its name. -/
structure Inode where
  bytes : List UInt8
  mode : ℕ
  deriving DecidableEq, Repr

/-- Names over numbered files. -/
structure Disk where
  tree : Tree
  inode : ℕ → Inode
  /-- The number of the next new file. -/
  next : ℕ
  ino_lt : ∀ (p : Path) (i : ℕ), tree.node p = some (.file i) → i < next
  /-- The file system a directory is on. -/
  dev : Path → ℕ

/-- What a call says of a node. -/
structure Stat where
  mode : ℕ
  size : ℕ
  isDir : Bool
  isSymlink : Bool
  isRegular : Bool
  deriving DecidableEq, Repr

/-- How an open file may be used. -/
inductive Access
  | rdonly | wronly | rdwr
  deriving DecidableEq, Repr

def Access.reads : Access → Bool
  | .wronly => false
  | _ => true

def Access.writes : Access → Bool
  | .rdonly => false
  | _ => true

/-- The flags of `open`. -/
structure OpenFlags where
  access : Access
  creat : Bool
  excl : Bool
  trunc : Bool
  nofollow : Bool
  deriving DecidableEq, Repr

/-- An open file, or an open directory. -/
inductive Handle
  | file (ino : ℕ) (access : Access)
  | dir
  deriving DecidableEq, Repr

/-- A call: it acts on the disk, and may fail. -/
abbrev Call (α : Type) : Type := Prog Disk Errno α

/-! ### Bytes of a file -/

/-- The content once `bs` is written at `off`; a gap is filled with zeros. -/
def overwrite (content : List UInt8) (off : ℕ) (bs : List UInt8) : List UInt8 :=
  if bs = [] then content
  else (content ++ List.replicate (off - content.length) 0).take off ++ bs
    ++ content.drop (off + bs.length)

/-- The content cut or filled with zeros to `size` bytes. -/
def resize (content : List UInt8) (size : ℕ) : List UInt8 :=
  content.take size ++ List.replicate (size - content.length) 0

namespace Disk

variable (d : Disk)

/-! ### The changes of a disk -/

/-- A new name for a node: a directory, a link, or a file that is there. -/
def put (p : Path) (nd : Node) (h : d.tree.CanPut p nd) (hi : ∀ i, nd = .file i → i < d.next) :
    Disk where
  tree := d.tree.put p nd h
  inode := d.inode
  next := d.next
  ino_lt := by
    intro q i hq
    rw [Tree.put_node] at hq
    by_cases hqp : q = p
    · rw [if_pos hqp] at hq
      exact hi i (Option.some_inj.1 hq)
    · rw [if_neg hqp] at hq
      exact d.ino_lt q i hq
  dev := d.dev

/-- A new, empty file. -/
def addFile (p : Path) (mode : ℕ) (h : d.tree.CanPut p (.file d.next)) : Disk where
  tree := d.tree.put p (.file d.next) h
  inode := Function.update d.inode d.next ⟨[], mode⟩
  next := d.next + 1
  ino_lt := by
    intro q i hq
    rw [Tree.put_node] at hq
    by_cases hqp : q = p
    · rw [if_pos hqp] at hq
      obtain rfl : d.next = i := Node.file.inj (Option.some_inj.1 hq)
      omega
    · rw [if_neg hqp] at hq
      have := d.ino_lt q i hq
      omega
  dev := d.dev

/-- A name taken away. -/
def erase (p : Path) (h : d.tree.CanErase p) : Disk where
  tree := d.tree.erase p h
  inode := d.inode
  next := d.next
  ino_lt := by
    intro q i hq
    rw [Tree.erase_node] at hq
    by_cases hqp : q = p
    · rw [if_pos hqp] at hq
      cases hq
    · rw [if_neg hqp] at hq
      exact d.ino_lt q i hq
  dev := d.dev

/-- A name moved, with all that lies under it. -/
def move (src dst : Path) (h : d.tree.CanMove src dst) : Disk where
  tree := d.tree.move src dst h
  inode := d.inode
  next := d.next
  ino_lt := by
    intro q i hq
    rw [Tree.move_node] at hq
    by_cases hd : dst <+: q
    · rw [if_pos hd] at hq
      exact d.ino_lt _ i hq
    · rw [if_neg hd] at hq
      by_cases hs : src <+: q
      · rw [if_pos hs] at hq
        cases hq
      · rw [if_neg hs] at hq
        exact d.ino_lt q i hq
  dev := d.dev

/-- Another mode for a directory. -/
def setMode (p : Path) (mode : ℕ) (h : d.tree.IsDir p) : Disk where
  tree := d.tree.setMode p mode h
  inode := d.inode
  next := d.next
  ino_lt := by
    intro q i hq
    rw [Tree.setMode_node] at hq
    by_cases hqp : q = p
    · rw [if_pos hqp] at hq
      cases hq
    · rw [if_neg hqp] at hq
      exact d.ino_lt q i hq
  dev := d.dev

/-- Other bytes or another mode for a file. -/
def setInode (i : ℕ) (f : Inode) : Disk := { d with inode := Function.update d.inode i f }

section

variable {d}

@[simp] theorem put_tree {p : Path} {nd : Node} (h : d.tree.CanPut p nd)
    (hi : ∀ i, nd = .file i → i < d.next) : (d.put p nd h hi).tree = d.tree.put p nd h := rfl

@[simp] theorem addFile_tree {p : Path} {mode : ℕ} (h : d.tree.CanPut p (.file d.next)) :
    (d.addFile p mode h).tree = d.tree.put p (.file d.next) h := rfl

@[simp] theorem erase_tree {p : Path} (h : d.tree.CanErase p) :
    (d.erase p h).tree = d.tree.erase p h := rfl

@[simp] theorem move_tree {src dst : Path} (h : d.tree.CanMove src dst) :
    (d.move src dst h).tree = d.tree.move src dst h := rfl

@[simp] theorem setMode_tree {p : Path} {mode : ℕ} (h : d.tree.IsDir p) :
    (d.setMode p mode h).tree = d.tree.setMode p mode h := rfl

end

/-- A disk with nothing on it. -/
def blank : Disk where
  tree :=
    { node := fun p => if p = [] then some (.dir 0o755) else none
      names := []
      root_dir := ⟨0o755, rfl⟩
      parent_dir := fun p n h => absurd (if_neg (by simp)) h
      names_mem := fun p n h => absurd (if_neg (by simp)) h
      height := 0
      length_le := fun p h => by
        by_cases hp : p = []
        · simp [hp]
        · exact absurd (if_neg hp) h }
  inode _ := ⟨[], 0o644⟩
  next := 0
  ino_lt := by
    intro p i h
    by_cases hp : p = [] <;> simp [hp] at h
  dev _ := 0

/-! ### Calls that look -/

/-- Looking up a path as a program writes it. -/
def find (follow : Bool) : HostPath → Except Errno Path
  | none => .error .enoent
  | some p => d.tree.locate follow p

def nodeStat : Node → Stat
  | .dir mode => ⟨mode, 0, true, false, false⟩
  | .file i => ⟨(d.inode i).mode, (d.inode i).bytes.length, false, false, true⟩
  | .link target => ⟨0o777, target.toList.length, false, true, false⟩

/-- What is at the end of a path. -/
def statAt (follow : Bool) (p : HostPath) : Except Errno Stat :=
  match d.find follow p with
  | .error e => .error e
  | .ok q =>
      match d.tree.node q with
      | none => .error .enoent
      | some nd => .ok (d.nodeStat nd)

/-- `lstat`: a link at the end is not followed. -/
def lstat (p : HostPath) : Except Errno Stat := d.statAt false p

/-- `stat`: a link at the end is followed. -/
def stat (p : HostPath) : Except Errno Stat := d.statAt true p

/-- The names in a directory; none where there is no directory that may be listed. -/
def readDir (p : HostPath) : List Name :=
  match d.find true p with
  | .error _ => []
  | .ok q => if Tree.canRead (d.tree.dirMode q) then d.tree.children q else []

def readlink (p : HostPath) : Except Errno String :=
  match d.find false p with
  | .error e => .error e
  | .ok q =>
      match d.tree.node q with
      | none => .error .enoent
      | some (.link target) => .ok target
      | some _ => .error .einval

/-- The path without any links of what is there. -/
def canonical (p : HostPath) : Option Path :=
  match d.find true p with
  | .error _ => none
  | .ok q => if d.tree.node q = none then none else some q

/-- Up to `n` bytes of an open file at `off`. -/
def pread : Handle → ℕ → ℕ → Except Errno (List UInt8)
  | .dir, _, _ => .error .eisdir
  | .file i access, n, off =>
      if access.reads = false then .error .ebadf
      else if off < 2 ^ 63 then .ok (slice (d.inode i).bytes off n)
      else .error .einval

/-! ### Calls that act -/

variable {α : Type}

/-- A call on the place a path leads to. -/
def atPath (follow : Bool) (p : HostPath) (k : Path → Call α) : Call α := fun d =>
  match d.find follow p with
  | .error e => (.error e, d)
  | .ok q => k q d

/-- The directory that holds an entry lets its entries be changed. -/
def Writable (t : Tree) (q : Path) : Prop := Tree.canWrite (t.dirMode q.dropLast) = true

instance (t : Tree) (q : Path) : Decidable (Writable t q) := inferInstanceAs (Decidable (_ = _))

/-- A new entry that is not a file. -/
def newEntry (q : Path) (nd : Node) (hnd : ∀ i, nd ≠ .file i) : Call Unit := fun d =>
  if d.tree.node q ≠ none then (.error .eexist, d)
  else if Writable d.tree q then
    if h : d.tree.CanPut q nd then
      (.ok (), d.put q nd h fun i hi => absurd hi (hnd i))
    else (.error .enoent, d)
  else (.error .eacces, d)

def mkdir (p : HostPath) (mode : ℕ) : Call Unit :=
  atPath false p fun q => newEntry q (.dir mode) (by simp)

def symlink (target : String) (p : HostPath) : Call Unit :=
  if target = "" then Prog.fail .enoent
  else atPath false p fun q => newEntry q (.link target) (by simp)

def unlink (p : HostPath) : Call Unit :=
  atPath false p fun q d =>
    match d.tree.node q with
    | none => (.error .enoent, d)
    | some (.dir _) => (.error .eisdir, d)
    | some _ =>
        if Writable d.tree q then
          if h : d.tree.CanErase q then (.ok (), d.erase q h) else (.error .ebusy, d)
        else (.error .eacces, d)

def rmdir (p : HostPath) : Call Unit :=
  atPath false p fun q d =>
    match d.tree.node q with
    | none => (.error .enoent, d)
    | some (.dir _) =>
        if q = [] then (.error .ebusy, d)
        else if Writable d.tree q then
          if h : d.tree.CanErase q then (.ok (), d.erase q h) else (.error .enotempty, d)
        else (.error .eacces, d)
    | some _ => (.error .enotdir, d)

/-- Whether what is at the new name of a `rename` may give way to what is moved there. -/
def replaces : Node → Option Node → Except Errno Unit
  | _, none => .ok ()
  | .dir _, some (.dir _) => .ok ()
  | .dir _, some _ => .error .enotdir
  | _, some (.dir _) => .error .eisdir
  | _, some _ => .ok ()

/-- Two names of one file, or one name twice. -/
def SameFile (t : Tree) (a b : Path) : Prop :=
  a = b ∨ ∃ i, t.node a = some (.file i) ∧ t.node b = some (.file i)

instance (t : Tree) (a b : Path) : Decidable (SameFile t a b) :=
  have : Decidable (∃ i, t.node a = some (.file i) ∧ t.node b = some (.file i)) :=
    match h : t.node a with
    | some (.file i) => decidable_of_iff (t.node b = some (.file i)) (by simp)
    | none => isFalse (by simp)
    | some (.dir m) => isFalse (by simp)
    | some (.link s) => isFalse (by simp)
  inferInstanceAs (Decidable (_ ∨ _))

/-- Moving the node `nd` at `a` to `b`, once both are found. -/
def renameAt (a b : Path) (nd : Node) : Call Unit := fun d =>
  match replaces nd (d.tree.node b) with
  | .error e => (.error e, d)
  | .ok () =>
      if h : d.tree.CanMove a b then (.ok (), d.move a b h) else (.error .enotempty, d)

/-- `rename`.  A directory that changes its parent has to be writable itself, for its `..`. -/
def rename (src dst : HostPath) : Call Unit :=
  atPath false src fun a => atPath false dst fun b d =>
    if d.dev a.dropLast ≠ d.dev b.dropLast then (.error .exdev, d)
    else if a = [] ∨ b = [] then (.error .ebusy, d)
    else
      match d.tree.node a with
      | none => (.error .enoent, d)
      | some nd =>
          if SameFile d.tree a b then (.ok (), d)
          else if a <+: b then (.error .einval, d)
          else if b <+: a then (.error .enotempty, d)
          else if ¬ Writable d.tree a ∨ ¬ Writable d.tree b then (.error .eacces, d)
          else
            match nd with
            | .dir mode =>
                if a.dropLast ≠ b.dropLast ∧ ¬ Tree.canWrite mode then (.error .eacces, d)
                else renameAt a b nd d
            | _ => renameAt a b nd d

/-- `link`: a further name for a file, or for a link itself. -/
def link (src dst : HostPath) : Call Unit :=
  atPath false src fun a => atPath false dst fun b d =>
    match h : d.tree.node a with
    | none => (.error .enoent, d)
    | some nd =>
        if d.tree.node b ≠ none then (.error .eexist, d)
        else if d.dev a.dropLast ≠ d.dev b.dropLast then (.error .exdev, d)
        else if nd.isDir then (.error .eperm, d)
        else if Writable d.tree b then
          if hp : d.tree.CanPut b nd then
            (.ok (), d.put b nd hp fun i hi => d.ino_lt a i (by rw [h, hi]))
          else (.error .enoent, d)
        else (.error .eacces, d)

/-- Opening the file number `i`. -/
def openIno (i : ℕ) (fl : OpenFlags) : Call Handle := fun d =>
  if fl.access.reads = true ∧ ¬ Tree.canRead (d.inode i).mode ∨
      (fl.access.writes = true ∨ fl.trunc = true) ∧ ¬ Tree.canWrite (d.inode i).mode then
    (.error .eacces, d)
  else (.ok (.file i fl.access), if fl.trunc then d.setInode i { d.inode i with bytes := [] } else d)

/-- Making the file that `open` was asked to create. -/
def openNew (q : Path) (fl : OpenFlags) (mode : ℕ) : Call Handle := fun d =>
  if fl.creat = false then (.error .enoent, d)
  else if Writable d.tree q then
    if h : d.tree.CanPut q (.file d.next) then
      (.ok (.file d.next fl.access), d.addFile q mode h)
    else (.error .enoent, d)
  else (.error .eacces, d)

def OpenFlags.exclusive (fl : OpenFlags) : Bool := fl.creat && fl.excl

/-- `open`.  A link at the end is followed, also to a file that is then created. -/
def «open» (p : HostPath) (fl : OpenFlags) (mode : ℕ) : Call Handle :=
  atPath (!(fl.nofollow || OpenFlags.exclusive fl)) p fun q d =>
    match d.tree.node q with
    | none => openNew q fl mode d
    | some (.file i) =>
        if OpenFlags.exclusive fl then (.error .eexist, d) else openIno i fl d
    | some (.link _) => (.error (if OpenFlags.exclusive fl then .eexist else .eloop), d)
    | some (.dir m) =>
        if OpenFlags.exclusive fl then (.error .eexist, d)
        else if fl.creat = true ∨ fl.access.writes = true ∨ fl.trunc = true then (.error .eisdir, d)
        else if Tree.canRead m then (.ok .dir, d)
        else (.error .eacces, d)

/-- Writing all of `bs` to an open file at `off`. -/
def pwrite (h : Handle) (bs : List UInt8) (off : ℕ) : Call ℕ := fun d =>
  match h with
  | .dir => (.error .ebadf, d)
  | .file i access =>
      if access.writes = false then (.error .ebadf, d)
      else if off < 2 ^ 63 then
        (.ok bs.length,
          d.setInode i { d.inode i with bytes := overwrite (d.inode i).bytes off bs })
      else (.error .einval, d)

/-- Cutting or extending a file. -/
def resizeIno (i size : ℕ) : Call Unit := fun d =>
  if size < 2 ^ 63 then
    (.ok (), d.setInode i { d.inode i with bytes := resize (d.inode i).bytes size })
  else (.error .einval, d)

def ftruncate (h : Handle) (size : ℕ) : Call Unit :=
  match h with
  | .dir => Prog.fail .einval
  | .file i access => if access.writes = false then Prog.fail .einval else resizeIno i size

def truncate (p : HostPath) (size : ℕ) : Call Unit :=
  atPath true p fun q d =>
    match d.tree.node q with
    | some (.file i) =>
        if Tree.canWrite (d.inode i).mode then resizeIno i size d else (.error .eacces, d)
    | some (.dir _) => (.error .eisdir, d)
    | some (.link _) => (.error .eloop, d)
    | none => (.error .enoent, d)

def fchmod (h : Handle) (mode : ℕ) : Call Unit := fun d =>
  match h with
  | .dir => (.error .ebadf, d)
  | .file i _ => (.ok (), d.setInode i { d.inode i with mode := mode })

def chmod (p : HostPath) (mode : ℕ) : Call Unit :=
  atPath true p fun q d =>
    match h : d.tree.node q with
    | some (.file i) => (.ok (), d.setInode i { d.inode i with mode := mode })
    | some (.dir m) => (.ok (), d.setMode q mode ⟨m, h⟩)
    | some (.link _) => (.error .eloop, d)
    | none => (.error .enoent, d)

/-! ### What each call can do -/

section

variable {d} {p : HostPath} {q : Path}

theorem atPath_of_ok {follow : Bool} (h : d.find follow p = .ok q) (k : Path → Call α) :
    atPath follow p k d = k q d := by
  unfold atPath
  rw [h]

theorem atPath_of_error {follow : Bool} {e : Errno} (h : d.find follow p = .error e)
    (k : Path → Call α) : atPath follow p k d = (.error e, d) := by
  unfold atPath
  rw [h]

theorem atPath_cases (follow : Bool) (p : HostPath) (k : Path → Call α) (d : Disk) :
    (∃ e, d.find follow p = .error e ∧ atPath follow p k d = (.error e, d)) ∨
      ∃ q, d.find follow p = .ok q ∧ atPath follow p k d = k q d := by
  cases hfind : d.find follow p with
  | error e => exact Or.inl ⟨e, rfl, atPath_of_error hfind k⟩
  | ok q => exact Or.inr ⟨q, rfl, atPath_of_ok hfind k⟩

/-- The call failed and left the disk as it was. -/
def Failed (r : Except Errno α × Disk) (d : Disk) : Prop := ∃ e, r = (.error e, d)

theorem newEntry_cases (q : Path) (nd : Node) (hnd : ∀ i, nd ≠ .file i) (d : Disk) :
    Failed (newEntry q nd hnd d) d ∨
      (d.tree.node q = none ∧ Writable d.tree q ∧ ∃ h hi, newEntry q nd hnd d = (.ok (), d.put q nd h hi)) := by
  unfold newEntry
  by_cases hq : d.tree.node q = none
  · rw [if_neg (not_not.2 hq)]
    by_cases hw : Writable d.tree q
    · rw [if_pos hw]
      by_cases h : d.tree.CanPut q nd
      · rw [dif_pos h]
        exact Or.inr ⟨hq, hw, h, _, rfl⟩
      · rw [dif_neg h]
        exact Or.inl ⟨_, rfl⟩
    · rw [if_neg hw]
      exact Or.inl ⟨_, rfl⟩
  · rw [if_pos hq]
    exact Or.inl ⟨_, rfl⟩

theorem mkdir_cases (p : HostPath) (mode : ℕ) (d : Disk) :
    Failed (mkdir p mode d) d ∨
      ∃ q, d.find false p = .ok q ∧ d.tree.node q = none ∧ Writable d.tree q ∧
        ∃ h hi, mkdir p mode d = (.ok (), d.put q (.dir mode) h hi) := by
  unfold mkdir
  rcases atPath_cases false p (fun q => newEntry q (.dir mode) (by simp)) d with
    ⟨e, -, h⟩ | ⟨q, hq, h⟩
  · exact Or.inl ⟨e, h⟩
  · rw [h]
    rcases newEntry_cases q (.dir mode) (by simp) d with hf | ⟨hn, hw, hp⟩
    · exact Or.inl hf
    · exact Or.inr ⟨q, hq, hn, hw, hp⟩

theorem symlink_cases (target : String) (p : HostPath) (d : Disk) :
    Failed (symlink target p d) d ∨
      ∃ q, d.find false p = .ok q ∧ d.tree.node q = none ∧ Writable d.tree q ∧
        ∃ h hi, symlink target p d = (.ok (), d.put q (.link target) h hi) := by
  unfold symlink
  by_cases ht : target = ""
  · rw [if_pos ht]
    exact Or.inl ⟨_, rfl⟩
  · rw [if_neg ht]
    rcases atPath_cases false p (fun q => newEntry q (.link target) (by simp)) d with
      ⟨e, -, h⟩ | ⟨q, hq, h⟩
    · exact Or.inl ⟨e, h⟩
    · rw [h]
      rcases newEntry_cases q (.link target) (by simp) d with hf | ⟨hn, hw, hp⟩
      · exact Or.inl hf
      · exact Or.inr ⟨q, hq, hn, hw, hp⟩

theorem unlink_cases (p : HostPath) (d : Disk) :
    Failed (unlink p d) d ∨
      ∃ q nd, d.find false p = .ok q ∧ d.tree.node q = some nd ∧ nd.isDir = false ∧
        Writable d.tree q ∧ ∃ h, unlink p d = (.ok (), d.erase q h) := by
  unfold unlink
  rcases atPath_cases false p _ d with ⟨e, -, h⟩ | ⟨q, hq, h⟩
  · exact Or.inl ⟨e, h⟩
  rw [h]
  cases hn : d.tree.node q with
  | none => exact Or.inl ⟨_, rfl⟩
  | some nd =>
      cases nd with
      | dir m => exact Or.inl ⟨_, rfl⟩
      | file i =>
          by_cases hw : Writable d.tree q
          · by_cases he : d.tree.CanErase q
            · exact Or.inr ⟨q, _, hq, hn, rfl, hw, he, by simp [hw, he]⟩
            · exact Or.inl ⟨.ebusy, by simp [hw, he]⟩
          · exact Or.inl ⟨.eacces, by simp [hw]⟩
      | link target =>
          by_cases hw : Writable d.tree q
          · by_cases he : d.tree.CanErase q
            · exact Or.inr ⟨q, _, hq, hn, rfl, hw, he, by simp [hw, he]⟩
            · exact Or.inl ⟨.ebusy, by simp [hw, he]⟩
          · exact Or.inl ⟨.eacces, by simp [hw]⟩

theorem rmdir_cases (p : HostPath) (d : Disk) :
    Failed (rmdir p d) d ∨
      ∃ q, d.find false p = .ok q ∧ d.tree.IsDir q ∧ Writable d.tree q ∧
        ∃ h, rmdir p d = (.ok (), d.erase q h) := by
  unfold rmdir
  rcases atPath_cases false p _ d with ⟨e, -, h⟩ | ⟨q, hq, h⟩
  · exact Or.inl ⟨e, h⟩
  rw [h]
  cases hn : d.tree.node q with
  | none => exact Or.inl ⟨_, rfl⟩
  | some nd =>
      cases nd with
      | file i => exact Or.inl ⟨_, rfl⟩
      | link target => exact Or.inl ⟨_, rfl⟩
      | dir m =>
          by_cases hroot : q = []
          · exact Or.inl ⟨.ebusy, by simp [hroot]⟩
          · by_cases hw : Writable d.tree q
            · by_cases he : d.tree.CanErase q
              · exact Or.inr ⟨q, hq, ⟨m, hn⟩, hw, he, by simp [hroot, hw, he]⟩
              · exact Or.inl ⟨.enotempty, by simp [hroot, hw, he]⟩
            · exact Or.inl ⟨.eacces, by simp [hroot, hw]⟩

theorem openIno_cases (i : ℕ) (fl : OpenFlags) (d : Disk) :
    Failed (openIno i fl d) d ∨
      openIno i fl d = (.ok (.file i fl.access),
        if fl.trunc then d.setInode i { d.inode i with bytes := [] } else d) := by
  unfold openIno
  split
  · exact Or.inl ⟨_, rfl⟩
  · exact Or.inr rfl

theorem openNew_cases (q : Path) (fl : OpenFlags) (mode : ℕ) (d : Disk) :
    Failed (openNew q fl mode d) d ∨
      (fl.creat = true ∧ Writable d.tree q ∧
        ∃ h, openNew q fl mode d = (.ok (.file d.next fl.access), d.addFile q mode h)) := by
  unfold openNew
  cases hc : fl.creat with
  | false => exact Or.inl ⟨.enoent, by simp⟩
  | true =>
      by_cases hw : Writable d.tree q
      · by_cases h : d.tree.CanPut q (.file d.next)
        · exact Or.inr ⟨rfl, hw, h, by simp [hw, h]⟩
        · exact Or.inl ⟨.enoent, by simp [hw, h]⟩
      · exact Or.inl ⟨.eacces, by simp [hw]⟩

/-- What `open` does to the disk, and what it yields. -/
theorem open_cases (p : HostPath) (fl : OpenFlags) (mode : ℕ) (d : Disk) :
    Failed (d.open p fl mode) d ∨
      ∃ q, d.find (!(fl.nofollow || OpenFlags.exclusive fl)) p = .ok q ∧
        ((d.tree.node q = none ∧ fl.creat = true ∧ Writable d.tree q ∧
            ∃ h, d.open p fl mode = (.ok (.file d.next fl.access), d.addFile q mode h)) ∨
          (∃ i, d.tree.node q = some (.file i) ∧
            d.open p fl mode = (.ok (.file i fl.access),
              if fl.trunc then d.setInode i { d.inode i with bytes := [] } else d)) ∨
          (d.tree.IsDir q ∧ d.open p fl mode = (.ok .dir, d))) := by
  unfold «open»
  rcases atPath_cases _ p _ d with ⟨e, -, h⟩ | ⟨q, hq, h⟩
  · exact Or.inl ⟨e, h⟩
  rw [h]
  cases hn : d.tree.node q with
  | none =>
      rcases openNew_cases q fl mode d with hf | ⟨hc, hw, hp⟩
      · exact Or.inl hf
      · exact Or.inr ⟨q, hq, Or.inl ⟨hn, hc, hw, hp⟩⟩
  | some nd =>
      cases nd with
      | link target => exact Or.inl ⟨_, rfl⟩
      | file i =>
          dsimp only
          by_cases hx : OpenFlags.exclusive fl = true
          · rw [if_pos hx]
            exact Or.inl ⟨_, rfl⟩
          · rw [if_neg hx]
            rcases openIno_cases i fl d with hf | hp
            · exact Or.inl hf
            · exact Or.inr ⟨q, hq, Or.inr (Or.inl ⟨i, hn, hp⟩)⟩
      | dir m =>
          dsimp only
          by_cases hx : OpenFlags.exclusive fl = true
          · rw [if_pos hx]
            exact Or.inl ⟨_, rfl⟩
          · rw [if_neg hx]
            by_cases hc : fl.creat = true ∨ fl.access.writes = true ∨ fl.trunc = true
            · rw [if_pos hc]
              exact Or.inl ⟨_, rfl⟩
            · rw [if_neg hc]
              by_cases hr : Tree.canRead m
              · rw [if_pos hr]
                exact Or.inr ⟨q, hq, Or.inr (Or.inr ⟨⟨m, hn⟩, rfl⟩)⟩
              · rw [if_neg hr]
                exact Or.inl ⟨_, rfl⟩

theorem renameAt_cases (a b : Path) (nd : Node) (d : Disk) :
    Failed (renameAt a b nd d) d ∨ ∃ h, renameAt a b nd d = (.ok (), d.move a b h) := by
  unfold renameAt
  cases replaces nd (d.tree.node b) with
  | error e => exact Or.inl ⟨e, rfl⟩
  | ok u =>
      by_cases h : d.tree.CanMove a b
      · exact Or.inr ⟨h, by simp [h]⟩
      · exact Or.inl ⟨.enotempty, by simp [h]⟩

/-- What `rename` does to the disk. -/
theorem rename_cases (src dst : HostPath) (d : Disk) :
    Failed (rename src dst d) d ∨
      ∃ a b, d.find false src = .ok a ∧ d.find false dst = .ok b ∧
        ((SameFile d.tree a b ∧ d.tree.node a ≠ none ∧ rename src dst d = (.ok (), d)) ∨
          (Writable d.tree a ∧ Writable d.tree b ∧ ¬ b <+: a ∧
            ∃ h, rename src dst d = (.ok (), d.move a b h))) := by
  unfold rename
  rcases atPath_cases false src _ d with ⟨e, -, h⟩ | ⟨a, ha, h⟩
  · exact Or.inl ⟨e, h⟩
  rw [h]
  rcases atPath_cases false dst _ d with ⟨e, -, h'⟩ | ⟨b, hb, h'⟩
  · exact Or.inl ⟨e, h'⟩
  rw [h']
  by_cases hdev : d.dev a.dropLast ≠ d.dev b.dropLast
  · rw [if_pos hdev]
    exact Or.inl ⟨_, rfl⟩
  rw [if_neg hdev]
  by_cases hroot : a = [] ∨ b = []
  · rw [if_pos hroot]
    exact Or.inl ⟨_, rfl⟩
  rw [if_neg hroot]
  cases hn : d.tree.node a with
  | none => exact Or.inl ⟨_, rfl⟩
  | some nd =>
      dsimp only
      by_cases hsame : SameFile d.tree a b
      · rw [if_pos hsame]
        exact Or.inr ⟨a, b, ha, hb, Or.inl ⟨hsame, by rw [hn]; exact Option.some_ne_none nd, rfl⟩⟩
      rw [if_neg hsame]
      by_cases hab : a <+: b
      · rw [if_pos hab]
        exact Or.inl ⟨_, rfl⟩
      rw [if_neg hab]
      by_cases hba : b <+: a
      · rw [if_pos hba]
        exact Or.inl ⟨_, rfl⟩
      rw [if_neg hba]
      by_cases hw : ¬ Writable d.tree a ∨ ¬ Writable d.tree b
      · rw [if_pos hw]
        exact Or.inl ⟨_, rfl⟩
      rw [if_neg hw]
      obtain ⟨hwa, hwb⟩ : Writable d.tree a ∧ Writable d.tree b := by
        rwa [not_or, not_not, not_not] at hw
      have hmove : ∀ r, (Failed r d ∨ ∃ h, r = (.ok (), d.move a b h)) → Failed r d ∨
          ∃ a' b', d.find false src = .ok a' ∧ d.find false dst = .ok b' ∧
            ((SameFile d.tree a' b' ∧ d.tree.node a' ≠ none ∧ r = (.ok (), d)) ∨
              (Writable d.tree a' ∧ Writable d.tree b' ∧ ¬ b' <+: a' ∧
                ∃ h, r = (.ok (), d.move a' b' h))) := by
        rintro r (hf | hp)
        · exact Or.inl hf
        · exact Or.inr ⟨a, b, ha, hb, Or.inr ⟨hwa, hwb, hba, hp⟩⟩
      refine hmove _ ?_
      cases nd with
      | dir mode =>
          dsimp only
          by_cases hm : a.dropLast ≠ b.dropLast ∧ ¬ Tree.canWrite mode
          · exact Or.inl ⟨.eacces, if_pos hm⟩
          · rw [if_neg hm]
            exact renameAt_cases a b _ d
      | file i => exact renameAt_cases a b _ d
      | link target => exact renameAt_cases a b _ d

/-- What `link` does to the disk. -/
theorem link_cases (src dst : HostPath) (d : Disk) :
    Failed (link src dst d) d ∨
      ∃ a b nd, d.find false src = .ok a ∧ d.find false dst = .ok b ∧ d.tree.node a = some nd ∧
        nd.isDir = false ∧ d.tree.node b = none ∧ Writable d.tree b ∧
        ∃ h hi, link src dst d = (.ok (), d.put b nd h hi) := by
  unfold link
  rcases atPath_cases false src _ d with ⟨e, -, h⟩ | ⟨a, ha, h⟩
  · exact Or.inl ⟨e, h⟩
  rw [h]
  rcases atPath_cases false dst _ d with ⟨e, -, h'⟩ | ⟨b, hb, h'⟩
  · exact Or.inl ⟨e, h'⟩
  rw [h']
  split
  · exact Or.inl ⟨_, rfl⟩
  · rename_i nd hn
    by_cases hbn : d.tree.node b = none
    · rw [if_neg (not_not.2 hbn)]
      by_cases hdev : d.dev a.dropLast ≠ d.dev b.dropLast
      · rw [if_pos hdev]
        exact Or.inl ⟨_, rfl⟩
      rw [if_neg hdev]
      cases hdir : nd.isDir with
      | true => exact Or.inl ⟨.eperm, by simp⟩
      | false =>
          rw [if_neg Bool.false_ne_true]
          by_cases hw : Writable d.tree b
          · rw [if_pos hw]
            by_cases hp : d.tree.CanPut b nd
            · rw [dif_pos hp]
              exact Or.inr ⟨a, b, nd, ha, hb, hn, hdir, hbn, hw, hp,
                fun i hi => d.ino_lt a i (by rw [hn, hi]), rfl⟩
            · rw [dif_neg hp]
              exact Or.inl ⟨_, rfl⟩
          · rw [if_neg hw]
            exact Or.inl ⟨_, rfl⟩
    · rw [if_pos hbn]
      exact Or.inl ⟨_, rfl⟩

/-- What `truncate` does to the disk. -/
theorem truncate_cases (p : HostPath) (size : ℕ) (d : Disk) :
    Failed (truncate p size d) d ∨
      ∃ q i, d.find true p = .ok q ∧ d.tree.node q = some (.file i) ∧
        truncate p size d =
          (.ok (), d.setInode i { d.inode i with bytes := resize (d.inode i).bytes size }) := by
  unfold truncate
  rcases atPath_cases true p _ d with ⟨e, -, h⟩ | ⟨q, hq, h⟩
  · exact Or.inl ⟨e, h⟩
  rw [h]
  cases hn : d.tree.node q with
  | none => exact Or.inl ⟨_, rfl⟩
  | some nd =>
      cases nd with
      | dir m => exact Or.inl ⟨_, rfl⟩
      | link target => exact Or.inl ⟨_, rfl⟩
      | file i =>
          dsimp only
          by_cases hw : Tree.canWrite (d.inode i).mode
          · rw [if_pos hw, resizeIno]
            by_cases hs : size < 2 ^ 63
            · rw [if_pos hs]
              exact Or.inr ⟨q, i, hq, hn, rfl⟩
            · rw [if_neg hs]
              exact Or.inl ⟨_, rfl⟩
          · rw [if_neg hw]
            exact Or.inl ⟨_, rfl⟩

/-- What `chmod` does to the disk. -/
theorem chmod_cases (p : HostPath) (mode : ℕ) (d : Disk) :
    Failed (chmod p mode d) d ∨
      ∃ q, d.find true p = .ok q ∧
        ((∃ i, d.tree.node q = some (.file i) ∧
            chmod p mode d = (.ok (), d.setInode i { d.inode i with mode := mode })) ∨
          ∃ h, chmod p mode d = (.ok (), d.setMode q mode h)) := by
  unfold chmod
  rcases atPath_cases true p _ d with ⟨e, -, h⟩ | ⟨q, hq, h⟩
  · exact Or.inl ⟨e, h⟩
  rw [h]
  split
  · rename_i i hn
    exact Or.inr ⟨q, hq, Or.inl ⟨i, hn, rfl⟩⟩
  · rename_i m hn
    exact Or.inr ⟨q, hq, Or.inr ⟨⟨m, hn⟩, rfl⟩⟩
  · exact Or.inl ⟨_, rfl⟩
  · exact Or.inl ⟨_, rfl⟩

end

end Disk

end Posix
