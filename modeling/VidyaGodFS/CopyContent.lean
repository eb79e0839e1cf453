/-
**What a copy is.**

A copy that is complete is the entry that it was made of: a directory for a directory, a link with the
same target for a link, and for a file a new one with all of its bytes, however long it is and in
however many pieces they were read.  No file that was there before has changed; and a copy that fails
leaves nothing behind at its place.

Main definitions:

* `Older` — the files that were there have not changed;
* `OnlyFile` — at most one file has changed;
* `Copied`, `AsBefore` — one entry more, and none.

Main results:

* `copyLoop_copies` — **the loop copies every byte**;
* `copyTo_copies` — **a complete copy is the entry that it was made of**.
-/

import VidyaGodFS.Entries

set_option relaxedAutoImplicit false
set_option autoImplicit false

namespace VidyaGodFS

open Posix

variable {M : Mount} {w : Path}

/-! ### Pieces -/

/-- Writing on at the end of what was written. -/
theorem overwrite_append {content bs : Bytes} (hbs : bs ≠ []) :
    overwrite content content.length bs = content ++ bs := by
  rw [overwrite, if_neg hbs, Nat.sub_self, List.replicate_zero, List.append_nil, List.take_length,
    List.drop_eq_nil_of_le (Nat.le_add_right ..), List.append_nil]

/-- What comes of a file of which the next piece is written. -/
theorem overwrite_take {lower : Bytes} {pos k : ℕ} {buf : Bytes} (hbuf : buf <+: lower.drop pos) (hk : 0 < k)
    (hkbuf : k ≤ buf.length) :
    overwrite (lower.take pos) pos (buf.take k) = lower.take (pos + k) := by
  have hlen : buf.length ≤ lower.length - pos := by simpa using hbuf.length_le
  have hpos : (lower.take pos).length = pos := by
    rw [List.length_take]
    omega
  have hpiece : buf.take k = (lower.drop pos).take k := by
    obtain ⟨rest, hrest⟩ := hbuf
    rw [← hrest, List.take_append_of_le_length hkbuf]
  have hne : buf.take k ≠ [] := by
    intro hnil
    have := congrArg List.length hnil
    rw [List.length_take, List.length_nil] at this
    omega
  have happend : overwrite (lower.take pos) (lower.take pos).length (buf.take k)
      = lower.take pos ++ buf.take k := overwrite_append hne
  rw [hpos] at happend
  rw [happend, hpiece, List.take_add]

theorem copyChunk_pos : 0 < copyChunk := by decide

/-! ### Files that change -/

/-- The files that were there have not changed. -/
structure Older (d d' : Disk) : Prop where
  next : d.next ≤ d'.next
  inode : ∀ i, i < d.next → d'.inode i = d.inode i
  dev : d'.dev = d.dev

namespace Older

variable {d d' d'' : Disk}

theorem refl (d : Disk) : Older d d := ⟨le_rfl, fun _ _ => rfl, rfl⟩

theorem trans (h : Older d d') (h' : Older d' d'') : Older d d'' :=
  ⟨h.next.trans h'.next, fun i hi => (h'.inode i (hi.trans_le h.next)).trans (h.inode i hi),
    h'.dev.trans h.dev⟩

/-- What is in the tree is older than the next file. -/
theorem entryOf (h : Older d d') {q : Path} {nd : Node} (hq : d.tree.node q = some nd) :
    d'.entryOf nd = d.entryOf nd := by
  cases nd with
  | file i => rw [Disk.entryOf, Disk.entryOf, h.inode i (d.ino_lt q i hq)]
  | _ => rfl

end Older

/-- At most the file number `i` has changed. -/
structure OnlyFile (i : ℕ) (s₀ s : VfsState) : Prop where
  names : NamesKept s₀ s
  next : s.disk.next = s₀.disk.next
  inode : ∀ j, j ≠ i → s.disk.inode j = s₀.disk.inode j
  dev : s.disk.dev = s₀.disk.dev

namespace OnlyFile

variable {i : ℕ} {s₀ s s' : VfsState}

theorem refl (s : VfsState) : OnlyFile i s s := ⟨NamesKept.refl s, rfl, fun _ _ => rfl, rfl⟩

theorem trans (h : OnlyFile i s₀ s) (h' : OnlyFile i s s') : OnlyFile i s₀ s' where
  names := ⟨h'.names.tree.trans h.names.tree, h'.names.whiteoutSet.trans h.names.whiteoutSet,
    h'.names.opaqueSet.trans h.names.opaqueSet, h'.names.kept.trans h.names.kept⟩
  next := h'.next.trans h.next
  inode j hj := (h'.inode j hj).trans (h.inode j hj)
  dev := h'.dev.trans h.dev

theorem setInode (s : VfsState) (f : Inode) : OnlyFile i s { s with disk := s.disk.setInode i f } := by
  refine ⟨⟨rfl, rfl, rfl, rfl⟩, rfl, fun j hj => ?_, rfl⟩
  change Function.update s.disk.inode i f j = _
  exact Function.update_of_ne hj _ _

end OnlyFile

/-! ### The loop -/

/-- The state after the file number `i` was filled with `bs`. -/
def Filled (i : ℕ) (bs : Bytes) (s₀ s : VfsState) : Prop :=
  OnlyFile i s₀ s ∧ (s.disk.inode i).bytes = bs

/-- A read that yields the bytes `src`, whatever becomes of the file number `i`. -/
def ReadsFrom (i : ℕ) (src : Bytes) (s₀ : VfsState) (read : ℕ → Prog World Errno Bytes) : Prop :=
  ∀ off s, OnlyFile i s₀ s → Calmly (fun s' => s' = s) (read off)
    (fun got s' => s' = s ∧ got = slice src off copyChunk) (fun _ s' => s' = s)

/-- **The loop copies every byte**, or stops where a call fails. -/
theorem copyLoop_copies {i : ℕ} {src : Bytes} {s₀ : VfsState} {read : ℕ → Prog World Errno Bytes}
    (hread : ReadsFrom i src s₀ read) :
    ∀ (fuel off : ℕ), off ≤ src.length → src.length - off < fuel →
      Calmly (Filled i (src.take off) s₀) (copyLoop (.file i .wronly) read fuel off)
        (fun _ => Filled i src s₀) (fun _ => OnlyFile i s₀) := by
  intro fuel
  induction fuel with
  | zero =>
      intro off _ hfuel
      omega
  | succ fuel ih =>
      intro off hoff hfuel
      refine Calmly.assuming fun s hs => ?_
      refine Calmly.bind (Q := fun got s' => s' = s ∧ got = slice src off copyChunk)
        (Calmly.conseq (hread off s hs.1) (fun _ h => h) (fun _ _ h => h)
          (by rintro e s' rfl; exact hs.1)) fun got => ?_
      refine Calmly.assuming ?_
      rintro s ⟨rfl, rfl⟩
      have hpre : slice src off copyChunk <+: src.drop off := List.take_prefix _ _
      refine Calmly.ite (fun hnil => ?_) fun hne => ?_
      · -- nothing is left
        have hend : off = src.length := by
          have hlen := congrArg List.length hnil
          rw [length_slice, List.length_nil] at hlen
          have := copyChunk_pos
          omega
        refine Calmly.pure ?_
        rintro s' rfl
        exact ⟨hs.1, by rw [hs.2, hend, List.take_length]⟩
      · have hlen : (slice src off copyChunk).length ≤ src.length - off := by simp
        have hpos : 0 < (slice src off copyChunk).length := List.length_pos_iff.2 hne
        refine Calmly.bind (Q := fun _ => Filled i (src.take (off + (slice src off copyChunk).length)) s₀)
          (Calmly.act ?_) fun _ => ih _ (by omega) (by omega)
        rintro s' rfl
        unfold Disk.pwrite
        dsimp only
        rw [if_neg (by decide)]
        by_cases hlt : off < 2 ^ 63
        · rw [if_pos hlt]
          refine ⟨hs.1.trans (OnlyFile.setInode _ _), ?_⟩
          have hpiece := overwrite_take hpre hpos le_rfl
          rw [List.take_length] at hpiece
          change (Function.update s'.disk.inode i _ i).bytes = _
          rw [Function.update_self, hs.2, hpiece]
        · rw [if_neg hlt]
          exact hs.1

/-! ### Reading the original -/

theorem OnlyFile.act {α : Type} {i : ℕ} {s₀ : VfsState} {call : Call α}
    (h : ∀ s : VfsState, OnlyFile i s { s with disk := (call s.disk).2 }) : Keeps (OnlyFile i s₀) (act call) :=
  Keeps.act fun s hs => hs.trans (h s)

/-- A file of the host other than the copy. -/
theorem readsFrom_pread {i j : ℕ} (hij : j ≠ i) {s₀ : VfsState} :
    ReadsFrom i (s₀.disk.inode j).bytes s₀
      (fun off => act fun d => (d.pread (.file j .rdonly) copyChunk off, d)) := by
  intro off s hs
  refine Calmly.act ?_
  rintro s' rfl
  by_cases hoff : off < 2 ^ 63
  · rw [Disk.pread_reads rfl j copyChunk hoff, hs.inode j hij]
    exact ⟨rfl, rfl⟩
  · unfold Disk.pread
    dsimp only
    rw [if_neg (by decide), if_neg hoff]
    exact rfl

/-- An archive's entry. -/
theorem readsFrom_zip {i : ℕ} {Z : ZipIndex} {e : ZipEntry} {bs : Bytes} {s₀ : VfsState}
    (hread : ∀ n off, off < 2 ^ 63 → readZipEntry ⟨Z.src, e.dataOffset, e.size⟩ n off
      = .ok (slice bs off n)) :
    ReadsFrom i bs s₀
      (fun off => act fun d => (readZipEntry ⟨Z.src, e.dataOffset, e.size⟩ copyChunk off, d)) := by
  intro off s hs
  refine Calmly.act ?_
  rintro s' rfl
  by_cases hoff : off < 2 ^ 63
  · rw [hread copyChunk off hoff]
    exact ⟨rfl, rfl⟩
  · unfold readZipEntry
    rw [if_neg hoff]
    exact rfl

/-- Setting the mode of the copy. -/
theorem fchmod_onlyFile (i : ℕ) (access : Access) (mode : ℕ) (s : VfsState) :
    OnlyFile i s { s with disk := (Disk.fchmod (.file i access) mode s.disk).2 } :=
  OnlyFile.setInode s _

/-- The copy keeps its bytes when its mode is set. -/
theorem filled_fchmod {i : ℕ} {bs : Bytes} {s₀ : VfsState} (access : Access) (mode : ℕ) :
    Keeps (Filled i bs s₀) (act (Disk.fchmod (.file i access) mode)) := by
  refine Keeps.act fun s hs => ⟨hs.1.trans (fchmod_onlyFile i access mode s), ?_⟩
  change (Function.update s.disk.inode i _ i).bytes = bs
  rw [Function.update_self]
  exact hs.2

/-- The copy of a host file, once it is open: its bytes, or a failure. -/
theorem copyHostFile_copies {i : ℕ} {host : HostPath} {s₀ : VfsState} {x : Entry}
    (hnew : (s₀.disk.inode i).bytes = []) (hx : s₀.disk.entryAt true host = some x)
    (hother : ∀ q, s₀.disk.find true host = .ok q → s₀.disk.tree.node q ≠ some (.file i)) :
    Calmly (fun s => s = s₀) (copyHostFile host (.file i .wronly))
      (fun _ s => ∃ bs, x = .file bs ∧ Filled i bs s₀ s) (fun _ => OnlyFile i s₀) := by
  obtain ⟨q, nd, hq, hnd, rfl⟩ := Disk.entryAt_eq_some.1 hx
  unfold copyHostFile
  refine Calmly.bind (Q := fun inp s => s = s₀ ∧ (inp = .dir ∨
    ∃ j, nd = .file j ∧ inp = .file j .rdonly)) (Calmly.act ?_) fun inp => Calmly.assuming ?_
  · rintro s rfl
    rcases Disk.open_cases host ⟨.rdonly, false, false, false, false⟩ 0 s.disk with
      ⟨e, hf⟩ | ⟨q', hq', ⟨-, hcreat, -⟩ | ⟨j, hj, hrun⟩ | ⟨-, hrun⟩⟩
    · rw [hf]
      exact .refl s
    · cases hcreat
    · obtain rfl : q = q' := Except.ok.inj (hq.symm.trans hq')
      rw [hrun]
      exact ⟨rfl, Or.inr ⟨j, Option.some_inj.1 (hnd.symm.trans hj), rfl⟩⟩
    · rw [hrun]
      exact ⟨rfl, Or.inl rfl⟩
  have hmode : ∀ {I : VfsState → Prop}, (∀ mode, Keeps I (act (Disk.fchmod (.file i .wronly) mode))) →
      Keeps I (copyMode host (.file i .wronly)) := by
    intro I hI
    refine Keeps.bind (Keeps.look (Agrees.look _)) fun r => ?_
    cases r with
    | error e => exact Keeps.pure _
    | ok st => exact Keeps.ignoring (hI _)
  have hfails : ∀ rc : Except Errno Unit, Calmly (OnlyFile i s₀)
      (do copyMode host (.file i .wronly); withOutcome rc)
      (fun _ s => OnlyFile i s₀ s ∧ rc = .ok ()) (fun _ => OnlyFile i s₀) := by
    intro rc
    refine Calmly.bind (hmode fun mode => OnlyFile.act (fchmod_onlyFile i .wronly mode)) fun _ => ?_
    cases rc with
    | ok u => exact Calmly.pure fun s hs => ⟨hs, rfl⟩
    | error e => exact Calmly.fail fun s hs => hs
  rintro s ⟨rfl, hinp⟩
  refine Calmly.bind (Q := fun size s' => s' = s ∧ size = handleSize s.disk inp)
    (Calmly.look (Agrees.see _) (by rintro s' rfl; exact ⟨rfl, rfl⟩)) fun size => Calmly.assuming ?_
  rintro s ⟨rfl, rfl⟩
  rcases hinp with rfl | ⟨j, rfl, rfl⟩
  · -- a directory cannot be read
    refine Calmly.bind (Q := fun rc s' => s' = s ∧ ∃ e, rc = .error e) ?_ fun rc => ?_
    · refine Calmly.conseq (Calmly.attempt (Q := fun _ _ => False) (E := fun _ s' => s' = s) ?_)
        (fun _ h => h) (fun r s' h => ?_) fun _ _ h => h
      · refine Calmly.bind (Q := fun _ _ => False) (Calmly.act ?_) fun got => Calmly.assuming ?_
        · rintro s' rfl
          exact rfl
        · exact fun _ h => h.elim
      · cases r with
        | ok u => exact h.elim
        | error e => exact ⟨h, e, rfl⟩
    · refine Calmly.assuming ?_
      rintro s' ⟨rfl, e, rfl⟩
      exact Calmly.conseq (hfails (.error e)) (by rintro s rfl; exact .refl s)
        (fun _ _ h => by cases h.2) fun _ _ h => h
  · -- every byte of the file
    have hij : j ≠ i := by
      rintro rfl
      exact hother q hq hnd
    have hloop := copyLoop_copies (@readsFrom_pread i j hij s) ((s.disk.inode j).bytes.length + 1) 0
      (Nat.zero_le _) (by omega)
    refine Calmly.bind (Calmly.conseq (Calmly.attempt hloop) ?_ (fun _ _ h => h) fun _ _ h => h) fun rc => ?_
    · rintro s' rfl
      exact ⟨.refl s', by rw [hnew, List.take_zero]⟩
    · cases rc with
      | ok u =>
          refine Calmly.bind (Q := fun _ => Filled i (s.disk.inode j).bytes s)
            (Calmly.conseq (hmode fun mode => filled_fchmod .wronly mode) (fun _ h => h) (fun _ _ h => h)
              fun _ _ h => h.1) fun _ => Calmly.pure fun s' h => ⟨_, rfl, h⟩
      | error e =>
          exact Calmly.conseq (hfails (.error e)) (fun _ h => h) (fun _ _ h => by cases h.2) fun _ _ h => h

/-- The copy of an archive's entry, once it is open. -/
theorem copyZipEntry_copies {i : ℕ} {L : Layer} {Z : ZipIndex} {e : ZipEntry} {s₀ : VfsState}
    (hnew : (s₀.disk.inode i).bytes = []) (hdir : e.isDir = false)
    (hsteady : StoredWhole (.zipEntry L Z (some e))) :
    Calmly (fun s => s = s₀) (copyZipEntry Z e (.file i .wronly)) (fun _ => Filled i (zipBytes Z e) s₀)
      (fun _ => OnlyFile i s₀) := by
  unfold copyZipEntry openZipEntry
  cases hst : e.stored with
  | false => exact Calmly.fail (by rintro s rfl; exact .refl s)
  | true =>
      obtain ⟨hlen, hread⟩ := hsteady hdir hst
      rw [if_pos rfl]
      refine Calmly.bind (Q := fun _ => Filled i (zipBytes Z e) s₀)
        (Calmly.conseq (copyLoop_copies (readsFrom_zip hread) (e.size + 1) 0 (Nat.zero_le _) (by omega))
          ?_ (fun _ _ h => h) fun _ _ h => h) fun _ => ?_
      · rintro s rfl
        exact ⟨.refl s, by rw [hnew, List.take_zero]⟩
      · exact Calmly.ignoring (filled_fchmod .wronly _)

/-! ### One entry more -/

/-- Nothing that shows has changed. -/
structure AsBefore (s₀ s : VfsState) : Prop where
  node : ∀ q, s.disk.tree.node q = s₀.disk.tree.node q
  whiteoutSet : s.whiteoutSet = s₀.whiteoutSet
  opaqueSet : s.opaqueSet = s₀.opaqueSet
  kept : s.kept = s₀.kept
  older : Older s₀.disk s.disk

/-- The entry `x` has been put at `v` in the writelayer, as a new file if it is one, and nothing else
has changed. -/
structure Copied (w v : Path) (s₀ s : VfsState) (x : Entry) : Prop where
  other : ∀ q, q ≠ w ++ v → s.disk.tree.node q = s₀.disk.tree.node q
  entry : ∃ nd, s.disk.tree.node (w ++ v) = some nd ∧ s.disk.entryOf nd = x ∧
    ∀ i, nd = .file i → s₀.disk.next ≤ i
  whiteoutSet : s.whiteoutSet = s₀.whiteoutSet
  opaqueSet : s.opaqueSet = s₀.opaqueSet
  kept : s.kept = s₀.kept
  older : Older s₀.disk s.disk

section

variable {s₀ : VfsState} {v : Path} {x : Entry}

theorem AsBefore.refl (s : VfsState) : AsBefore s s := ⟨fun _ => rfl, rfl, rfl, rfl, Older.refl _⟩

/-- A new name for something that is no file. -/
theorem copied_put {nd : Node} (hput : s₀.disk.tree.CanPut (w ++ v) nd) (hi : ∀ i, nd ≠ .file i)
    (hx : s₀.disk.entryOf nd = x) :
    Copied w v s₀ { s₀ with disk := s₀.disk.put (w ++ v) nd hput fun i h => absurd h (hi i) } x where
  other q hq := if_neg hq
  entry := by
    refine ⟨nd, if_pos rfl, ?_, fun i h => absurd h (hi i)⟩
    rw [← hx]
    cases nd <;> rfl
  whiteoutSet := rfl
  opaqueSet := rfl
  kept := rfl
  older := ⟨le_rfl, fun _ _ => rfl, rfl⟩

/-- A copy of a file: its bytes, or nothing. -/
theorem copyFile_copies (h : Vacant w v s₀) {copy : Handle → Prog World Errno Unit}
    (hcopy : ∀ hput, Calmly (fun s => s = { s₀ with disk := s₀.disk.addFile (w ++ v) 0o644 hput })
      (copy (.file s₀.disk.next .wronly))
      (fun _ s => ∃ bs, x = .file bs ∧ Filled s₀.disk.next bs
        { s₀ with disk := s₀.disk.addFile (w ++ v) 0o644 hput } s)
      (fun _ => OnlyFile s₀.disk.next { s₀ with disk := s₀.disk.addFile (w ++ v) 0o644 hput })) :
    Calmly (fun s => s = s₀) (copyFile (some (w ++ v)) copy) (fun _ s => Copied w v s₀ s x)
      (fun _ => AsBefore s₀) := by
  obtain ⟨m, hm, hfull⟩ := h.full_parent
  have hne : w ++ v ≠ [] := by simp [h.ne]
  obtain ⟨hput, hopen⟩ : ∃ hput, Disk.open (some (w ++ v)) ⟨.wronly, true, false, true, false⟩ 0o644
      s₀.disk = (.ok (.file s₀.disk.next .wronly), s₀.disk.addFile (w ++ v) 0o644 hput) :=
    Disk.open_straight (h.shape.straight h.way) hne h.none hm hfull.2.1 rfl 0o644
  obtain ⟨s₁, hs₁⟩ : ∃ s₁, s₁ = { s₀ with disk := s₀.disk.addFile (w ++ v) 0o644 hput } := ⟨_, rfl⟩
  have hcopy₁ := hcopy hput
  rw [← hs₁] at hcopy₁
  have hnext₁ : s₁.disk.next = s₀.disk.next + 1 := by rw [hs₁]; rfl
  have hnode₁ : ∀ q, s₁.disk.tree.node q
      = if q = w ++ v then some (.file s₀.disk.next) else s₀.disk.tree.node q := by
    rw [hs₁]
    exact fun _ => rfl
  have hinode₁ : ∀ i, i < s₀.disk.next → s₁.disk.inode i = s₀.disk.inode i := by
    intro i hi
    rw [hs₁]
    exact Function.update_of_ne (Nat.ne_of_lt hi) _ _
  have holder : ∀ {s}, OnlyFile s₀.disk.next s₁ s → Older s₀.disk s.disk := fun hs =>
    ⟨by rw [hs.next, hnext₁]; omega,
      fun i hi => (hs.inode i (Nat.ne_of_lt hi)).trans (hinode₁ i hi), by rw [hs.dev, hs₁]; rfl⟩
  have hmasks : ∀ {s}, OnlyFile s₀.disk.next s₁ s → s.whiteoutSet = s₀.whiteoutSet ∧
      s.opaqueSet = s₀.opaqueSet ∧ s.kept = s₀.kept := fun hs =>
    ⟨by rw [hs.names.whiteoutSet, hs₁], by rw [hs.names.opaqueSet, hs₁], by rw [hs.names.kept, hs₁]⟩
  unfold copyFile
  refine Calmly.bind (Q := fun out s => s = s₁ ∧ out = .file s₀.disk.next .wronly) (Calmly.act ?_)
    fun out => Calmly.assuming ?_
  · rintro s rfl
    rw [hopen]
    exact ⟨hs₁.symm, rfl⟩
  rintro s ⟨rfl, rfl⟩
  refine Calmly.bind (Calmly.attempt hcopy₁) fun r => ?_
  cases r with
  | ok u =>
      refine Calmly.pure ?_
      rintro s' ⟨bs, rfl, hfill, hbs⟩
      obtain ⟨hwh, hopq, hkept⟩ := hmasks hfill
      refine ⟨fun q hq => ?_, ⟨.file s₀.disk.next, ?_, by rw [Disk.entryOf, hbs], ?_⟩, hwh, hopq, hkept,
        holder hfill⟩
      · rw [hfill.names.tree, hnode₁, if_neg hq]
      · rw [hfill.names.tree, hnode₁, if_pos rfl]
      · rintro i ⟨rfl⟩
        exact le_rfl
  | error e =>
      -- the copy failed: the new name goes again
      refine Calmly.bind (Q := fun _ => AsBefore s₀) (Calmly.ignoring (Calmly.act fun s' hs => ?_))
        fun _ => Calmly.fail fun _ hs => hs
      obtain ⟨hwh, hopq, hkept⟩ := hmasks hs
      have hnode : s'.disk.tree.node (w ++ v) = some (.file s₀.disk.next) := by
        rw [hs.names.tree, hnode₁, if_pos rfl]
      have hpar : s'.disk.tree.node (w ++ v).dropLast = some (.dir m) := by
        rw [hs.names.tree, hnode₁, if_neg, hm]
        intro he
        rw [he, h.none] at hm
        cases hm
      have hstraight : s'.disk.tree.Straight (w ++ v) := by
        intro q hq hqv
        rw [hs.names.tree, hnode₁, if_neg hqv, Tree.IsOpenDir, hnode₁, if_neg hqv]
        exact h.shape.straight h.way q hq hqv
      obtain ⟨he, hrun⟩ := Disk.unlink_straight hstraight hne hnode hpar hfull
      rw [hrun]
      refine ⟨fun q => ?_, hwh, hopq, hkept, (holder hs).next, (holder hs).inode, (holder hs).dev⟩
      change (if q = w ++ v then none else s'.disk.tree.node q) = _
      by_cases hq : q = w ++ v
      · rw [if_pos hq, hq, h.none]
      · rw [if_neg hq, hs.names.tree, hnode₁, if_neg hq]

/-- A copy of a link, or nothing. -/
theorem symlink_copies (h : Vacant w v s₀) (target : String) :
    Calmly (fun s => s = s₀) (act (Disk.symlink target (some (w ++ v))))
      (fun _ s => Copied w v s₀ s (.link target)) (fun _ => AsBefore s₀) := by
  refine Calmly.act ?_
  rintro s rfl
  rcases Disk.symlink_cases target (some (w ++ v)) s.disk with
    ⟨e, hf⟩ | ⟨q, hq, hnone, -, hput, hi, hrun⟩
  · rw [hf]
    exact .refl s
  · obtain rfl := Disk.find_false_straight (h.shape.straight h.way) hq
    rw [hrun]
    exact copied_put hput (by simp) rfl

/-- A directory at a vacant place. -/
theorem createDirectoriesEio_copies (h : Vacant w v s₀) :
    Calmly (fun s => s = s₀) (createDirectoriesEio (some (w ++ v)))
      (fun _ s => Copied w v s₀ s .dir) (fun _ => AsBefore s₀) := by
  have hway : DirWay w s₀.disk.tree v := by
    intro q hq
    by_cases hqv : q = v
    · exact Or.inl (hqv ▸ h.none)
    · exact h.way q hq hqv
  rintro ⟨s, fate, blind⟩ ⟨hcalm, rfl⟩
  obtain ⟨d, hrun, hmade, hnames⟩ := createDirectories_makes (h.shape.makeable hway)
  rw [hcalm.eq]
  unfold createDirectoriesEio
  rw [Prog.bind_of_ok (Prog.attempt_apply _ _), hrun]
  refine ⟨calm_calm _, fun q hq => ?_, ⟨.dir 0o777, ?_, rfl, by rintro i ⟨⟩⟩, rfl, rfl, rfl, ?_⟩
  · -- whatever lies above is there
    change d.tree.node q = s.disk.tree.node q
    rw [hmade, if_neg]
    rintro ⟨hle, hnone⟩
    rcases prefix_append_cases hle with ⟨hqw, -⟩ | ⟨r, rfl, hr⟩
    · exact h.shape.root.ne_none (Tree.node_eq_none_below hnone hqw)
    · have hrv : r ≠ v := fun he => hq (by rw [he])
      have hdrop : r <+: v.dropLast := by
        obtain ⟨n, hn⟩ := eq_dropLast_append h.ne
        rw [hn] at hr hrv
        exact (List.prefix_concat_iff.1 hr).resolve_left hrv
      exact h.parent.ne_none (Tree.node_eq_none_below hnone
        ((List.prefix_append_right_inj w).2 hdrop))
  · change d.tree.node (w ++ v) = some (.dir 0o777)
    rw [hmade, if_pos ⟨List.prefix_rfl, h.none⟩]
  · refine ⟨hnames.2.1.ge, fun i _ => ?_, hnames.2.2⟩
    change d.inode i = s.disk.inode i
    rw [hnames.1]

/-! ### The copy of what a lookup found -/

/-- What is copied as a directory is one. -/
theorem asDir_iff {rr : ResolveResult} (hrw : rr.rwPassthrough = false) (hwl : rr.isWriteLayer = false)
    {s : VfsState} (hx : shown M s.disk rr = some x) (hfile : ∀ host L, rr ≠ .fileLayer host L) :
    asDir M s rr = true ↔ x = .dir := by
  cases rr with
  | none => cases hx
  | implicitDir =>
      obtain rfl := Option.some_inj.1 hx
      exact iff_of_true rfl rfl
  | writeLayer host => cases hwl
  | fileLayer host L => exact absurd rfl (hfile host L)
  | zipEntry L Z e =>
      cases e with
      | none =>
          obtain rfl := Option.some_inj.1 hx
          exact iff_of_true rfl rfl
      | some e =>
          obtain rfl := Option.some_inj.1 hx
          change e.isDir = true ↔ _
          cases e.isDir <;> cases e.symlink <;> simp
  | dirLayer host L =>
      have hlayer : L.rw = false := hrw
      obtain ⟨q, nd, hq, hnd, rfl⟩ := Disk.entryAt_eq_some.1 hx
      have hstat : (if M.flattenSymlinks && !L.rw then s.disk.stat host else s.disk.lstat host)
          = .ok (s.disk.nodeStat nd) := by
        rw [followsLinks, hwl, hrw] at hq
        cases hf : M.flattenSymlinks <;> rw [hf] at hq <;>
          simp only [hlayer, Bool.not_false, Bool.and_true, if_true, Bool.false_eq_true, if_false] at hq ⊢ <;>
          exact Disk.statAt_of_find hq hnd
      change (if M.flattenSymlinks && !L.rw then s.disk.stat host
        else s.disk.lstat host).toOption.any (·.isDir) = true ↔ _
      rw [hstat]
      cases nd <;> simp [Disk.entryOf, Disk.nodeStat, Except.toOption]

/-- What a host file holds is there when the copy of it is made. -/
theorem copyHostFile_vacant (h : Vacant w v s₀) {follow : Bool} {host : HostPath}
    (hx : s₀.disk.entryAt follow host = some x) (hlink : ∀ target, x ≠ .link target) :
    Calmly (fun s => s = s₀) (copyFile (some (w ++ v)) (copyHostFile host))
      (fun _ s => Copied w v s₀ s x) (fun _ => AsBefore s₀) := by
  refine copyFile_copies h fun hput => ?_
  obtain ⟨q, nd, hq, hnd, rfl⟩ := Disk.entryAt_eq_some.1 hx
  have hq' : s₀.disk.find true host = .ok q := by
    cases follow with
    | true => exact hq
    | false => exact Disk.find_follow hq fun target ht => hlink target (by
        rw [Option.some_inj.1 (hnd.symm.trans ht)]
        rfl)
  have hgrows : s₀.disk.tree.Grows (s₀.disk.addFile (w ++ v) 0o644 hput).tree :=
    Tree.grows_put hput h.none
  have hq₁ := Disk.find_grows hgrows hq' (by simp [hnd])
  have hnd₁ := hgrows q nd hnd
  have holder : Older s₀.disk (s₀.disk.addFile (w ++ v) 0o644 hput) :=
    ⟨Nat.le_succ _, fun i hi => Function.update_of_ne (Nat.ne_of_lt hi) _ _, rfl⟩
  refine copyHostFile_copies ?_ (Disk.entryAt_eq_some.2 ⟨q, nd, hq₁, hnd₁, holder.entryOf hnd⟩) ?_
  · change (Function.update s₀.disk.inode s₀.disk.next _ s₀.disk.next).bytes = []
    rw [Function.update_self]
  · intro q' hq₂ hfile
    obtain rfl : q = q' := Except.ok.inj (hq₁.symm.trans hq₂)
    rw [hnd₁] at hfile
    have := s₀.disk.ino_lt q _ (hnd.trans hfile)
    omega

/-- A host's link is copied as one exactly where links show. -/
theorem copyHost_copies (h : Vacant w v s₀) {rr : ResolveResult} {host : HostPath}
    (hrr : (∃ L, L.rw = false ∧ rr = .dirLayer host L) ∨ ∃ L, rr = .fileLayer host L)
    (hx : shown M s₀.disk rr = some x) :
    Calmly (fun s => s = s₀)
      (do
        if ← copiesAsLink M rr then do
          let target ← act fun d => (d.readlink rr.hostPath, d)
          act (Disk.symlink target (some (w ++ v)))
        else copyFile (some (w ++ v)) (copyHostFile rr.hostPath))
      (fun _ s => Copied w v s₀ s x) (fun _ => AsBefore s₀) := by
  have hfollow : followsLinks M rr = M.flattenSymlinks := by
    rcases hrr with ⟨L, hL, rfl⟩ | ⟨L, rfl⟩
    · simp [followsLinks, ResolveResult.isWriteLayer, ResolveResult.rwPassthrough, hL]
    · simp [followsLinks, ResolveResult.isWriteLayer, ResolveResult.rwPassthrough]
  have hhost : rr.hostPath = host := by rcases hrr with ⟨L, -, rfl⟩ | ⟨L, rfl⟩ <;> rfl
  have hentry : s₀.disk.entryAt M.flattenSymlinks host = some x := by
    rw [← hfollow]
    rcases hrr with ⟨L, -, rfl⟩ | ⟨L, rfl⟩ <;> exact hx
  have hlinked : (copiesAsLink M rr : View Bool) s₀ =
      (!M.flattenSymlinks && (s₀.disk.lstat host).toOption.any (·.isSymlink)) := by
    rcases hrr with ⟨L, -, rfl⟩ | ⟨L, rfl⟩ <;> unfold copiesAsLink <;> dsimp only <;>
      cases M.flattenSymlinks <;> rfl
  refine Calmly.bind (Q := fun b s => s = s₀ ∧ b = (copiesAsLink M rr : View Bool) s₀)
    (Calmly.look (copiesAsLink_agrees M rr) (by rintro s rfl; exact ⟨rfl, rfl⟩)) fun b => ?_
  refine Calmly.assuming ?_
  rintro s ⟨rfl, rfl⟩
  rw [hlinked, hhost]
  cases hflat : M.flattenSymlinks with
  | true =>
      rw [hflat] at hentry
      refine copyHostFile_vacant h hentry ?_
      rintro target rfl
      exact Disk.entryAt_true_ne_link target hentry
  | false =>
      rw [hflat] at hentry
      obtain ⟨q, nd, hq, hnd, rfl⟩ := Disk.entryAt_eq_some.1 hentry
      have hstat : s.disk.lstat host = .ok (s.disk.nodeStat nd) := Disk.statAt_of_find hq hnd
      rw [hstat]
      cases nd with
      | dir m => exact copyHostFile_vacant h hentry (by rintro _ ⟨⟩)
      | file i => exact copyHostFile_vacant h hentry (by rintro _ ⟨⟩)
      | link target =>
          refine Calmly.bind (Q := fun t s' => s' = s ∧ t = target) (Calmly.act ?_) fun t =>
            Calmly.assuming ?_
          · rintro s' rfl
            rw [Disk.readlink, hq]
            dsimp only
            rw [hnd]
            exact ⟨rfl, rfl⟩
          · rintro s' ⟨rfl, rfl⟩
            exact symlink_copies h t

/-- **A complete copy is the entry that it was made of**, and one that fails is nothing. -/
theorem copyTo_copies (h : Vacant w v s₀) {rr : ResolveResult} (hrw : rr.rwPassthrough = false)
    (hwl : rr.isWriteLayer = false) (hx : shown M s₀.disk rr = some x) (hsteady : StoredWhole rr) :
    Calmly (fun s => s = s₀) (copyTo M (some (w ++ v)) rr) (fun _ s => Copied w v s₀ s x)
      (fun _ => AsBefore s₀) := by
  unfold copyTo
  refine Calmly.bind (Q := fun b s => s = s₀ ∧ b = asDir M s₀ rr)
    (Calmly.look (copiesAsDir_agrees M rr) (by rintro s rfl; exact ⟨rfl, rfl⟩)) fun b => ?_
  refine Calmly.assuming ?_
  rintro s ⟨rfl, rfl⟩
  have hasDir : (∀ host L, rr ≠ .fileLayer host L) → asDir M s rr = true → x = .dir :=
    fun hfile => (asDir_iff hrw hwl hx hfile).1
  refine Calmly.ite (fun hdir => ?_) fun hdir => ?_
  · obtain rfl : x = .dir := by
      refine hasDir ?_ hdir
      rintro host L rfl
      cases hdir
    exact createDirectoriesEio_copies h
  · have hdir : asDir M s rr = false := by simpa using hdir
    cases rr with
    | none => cases hx
    | implicitDir => cases hdir
    | writeLayer host => cases hwl
    | dirLayer host L => exact copyHost_copies h (Or.inl ⟨L, hrw, rfl⟩) hx
    | fileLayer host L => exact copyHost_copies h (Or.inr ⟨L, rfl⟩) hx
    | zipEntry L Z e =>
        cases e with
        | none => cases hdir
        | some e =>
            have hedir : e.isDir = false := hdir
            obtain rfl := Option.some_inj.1 hx
            rw [hedir, if_neg Bool.false_ne_true]
            refine Calmly.ite (fun hlink => ?_) fun hlink => ?_
            · rw [if_pos hlink]
              refine Calmly.bind (Q := fun target s' => s' = s ∧ target = zipTarget Z e) ?_
                fun target => Calmly.assuming ?_
              · unfold readZipLink openZipEntry
                refine Calmly.ite (fun _ => Calmly.fail (by rintro s' rfl; exact .refl s')) fun _ => ?_
                cases hst : e.stored with
                | false => exact Calmly.fail (by rintro s' rfl; exact .refl s')
                | true =>
                    obtain ⟨hlen, hread⟩ := hsteady hedir hst
                    rw [if_pos rfl]
                    refine Calmly.bind (Q := fun got s' => s' = s ∧ got = zipBytes Z e) (Calmly.act ?_)
                      fun got => Calmly.pure ?_
                    · rintro s' rfl
                      rw [hread e.size 0 (by decide)]
                      refine ⟨rfl, ?_⟩
                      rw [slice, List.drop_zero, ← hlen, List.take_length]
                    · rintro s' ⟨rfl, rfl⟩
                      exact ⟨rfl, rfl⟩
              · rintro s' ⟨rfl, rfl⟩
                exact symlink_copies h _
            · rw [if_neg hlink]
              refine copyFile_copies h fun hput => ?_
              refine Calmly.conseq (copyZipEntry_copies ?_ hedir hsteady) (fun _ h => h)
                (fun _ _ h => ⟨_, rfl, h⟩) fun _ _ h => h
              change (Function.update s.disk.inode s.disk.next _ s.disk.next).bytes = []
              rw [Function.update_self]

end

end VidyaGodFS
