/-
**A call that is not interrupted.**

The moves of a call that opens or cuts a file were read off its calls on the host.  Made one after
the other without interruption, on a host that refuses nothing, they are the operation itself: where
the operation comes to an end, the call's moves come to an end too, and what the calls share stands
for what is in the writelayer then.

Main definitions:

* `Stands` — the shared state of the calls stands for the file in the writelayer.

Main results:

* `vfsOpen_alone`, `vfsTruncate_alone` — **an operation that is not interrupted is a call making all
  of its moves**;
* `vfsOpenRead_alone` — so is an opening for reading, whose handle reads what the mount shows.
-/

import VidyaGodFS.CopyRace
import VidyaGodFS.SceneBytes

set_option relaxedAutoImplicit false
set_option autoImplicit false

namespace VidyaGodFS

open Posix Interleave

variable {ι : Type} {M : Mount} {w v : Path} {s₀ s s' : VfsState} {low : Path → Option Entry}
  {lower content : Bytes} {i : ι} {c : CopyState ι}

/-- What the calls share stands for the file at `v` in the writelayer, and no call is copying up. -/
structure Stands (w v : Path) (s : VfsState) (c : CopyState ι) : Prop where
  free : c.holder = none
  vacant : c.entry = none → s.disk.tree.node (w ++ v) = none
  there : ∀ n, c.entry = some n →
    ∃ j, s.disk.tree.node (w ++ v) = some (.file j) ∧ c.bytes n = (s.disk.inode j).bytes

/-- What is cut to nothing is empty. -/
theorem resize_zero (content : Bytes) : resize content 0 = [] := by
  simp [resize]

namespace Stands

/-- The file's bytes change, and those that stand for them. -/
theorem setInode (h : Stands w v s c) {n j : ℕ} (hn : c.entry = some n)
    (hj : s.disk.tree.node (w ++ v) = some (.file j)) (e : FileEdit) {f : Inode}
    (hf : f.bytes = e.apply (s.disk.inode j).bytes) :
    Stands w v { s with disk := s.disk.setInode j f } (c.edit n e) where
  free := h.free
  vacant := h.vacant
  there m hm := by
    obtain rfl := Option.some_inj.1 (hn.symm.trans hm)
    obtain ⟨j', hj', hbytes⟩ := h.there n hn
    obtain rfl := Node.file.inj (Option.some_inj.1 (hj.symm.trans hj'))
    refine ⟨j, hj', ?_⟩
    change Function.update c.bytes n (e.apply (c.bytes n)) n = (Function.update s.disk.inode j f j).bytes
    rw [Function.update_self, Function.update_self, hbytes, hf]

/-- The whole of a copy that was just made. -/
theorem copied {j : ℕ} (hj : s.disk.tree.node (w ++ v) = some (.file j))
    (hbytes : (s.disk.inode j).bytes = lower) : Stands w v s (c.copied lower) where
  free := rfl
  vacant := by rintro ⟨⟩
  there n hn := by
    obtain rfl := Option.some_inj.1 hn
    exact ⟨j, hj, (CopyState.fill_bytes c.make c.next lower).trans hbytes.symm⟩

end Stands

/-- A call that finds no file makes the whole of it, and comes to its copy. -/
theorem reaches_alone {a : CopyAsk} (ha : a.wantWrite = true) (hfree : c.holder = none)
    (hnone : c.entry = none) :
    Solo (CopyMove lower) i c (.start a) (c.copied lower) (.reaching a) := by
  have hbegin : Solo (WholeMove lower) i c (.start a) (c.lock (some i)).make
      (.filling a c.next 0 []) := copyUp_begins ha hnone hfree
  have hempty : Underway lower 0 ((c.lock (some i)).make.bytes c.next) := by
    rw [show (c.lock (some i)).make.bytes c.next = [] from c.make_bytes]
    exact ⟨Nat.zero_le _, Nat.zero_le _, rfl⟩
  have hrest : Solo (WholeMove lower) i (c.lock (some i)).make (.filling a c.next 0 [])
      (((c.lock (some i)).make.fill c.next lower).finish c.next) (.leaving a (.ok ())) :=
    fill_rest a c.next hempty
  exact ((hbegin.trans hrest).mono fun h => h.1).tail .unlock

section

variable (hM : M.writelayer = some w) (hk : NoKept M) (hb : Beneath M w s₀ low)
include hM hb

/-- **What is brought up for a change** is what a call has made on its own. -/
theorem brought_alone {a : CopyAsk} (ha : a.wantWrite = true) (h : Orderly w s₀ s) (hv : Asked M s v)
    (hx : scene M s v = some (.file content)) (hc : Stands w v s c)
    (hlow : c.entry = none → content = lower) (h' : Brought M w s₀ v (.file content) s s') :
    ∃ c' n, Solo (CopyMove lower) i c (.start a) c' (.reaching a) ∧ c'.entry = some n ∧
      Stands w v s' c' := by
  obtain ⟨nd, hnd, hentry, -⟩ := h'.entry
  obtain ⟨j, rfl, hbytes⟩ : ∃ j, nd = .file j ∧ (s'.disk.inode j).bytes = content := by
    cases nd with
    | file j => exact ⟨j, rfl, Entry.file.inj hentry⟩
    | dir m => cases hentry
    | link target => cases hentry
  cases hn : c.entry with
  | none => exact ⟨_, c.next, reaches_alone ha hc.free hn, rfl, .copied hnd (hbytes.trans (hlow hn))⟩
  | some n =>
      refine ⟨c, n, .single (.found (by simp [hn])), hn, hc.free, fun hnone => ?_, fun m hm => ?_⟩
      · rw [hn] at hnone
        cases hnone
      · obtain rfl := Option.some_inj.1 (hn.symm.trans hm)
        -- the file was there before, and it is what the mount showed
        obtain ⟨k, hk, hbytes'⟩ := hc.there n hn
        have hserved := h.served_node hM hb hv.reached hv.clean hv.ne hk
        rw [← hv.scene, hx] at hserved
        obtain rfl : j = k := Node.file.inj (Option.some_inj.1 (hnd.symm.trans (h'.grows _ _ hk)))
        exact ⟨j, hnd, hbytes'.trans ((Entry.file.inj (Option.some_inj.1 hserved)).symm.trans
          hbytes.symm)⟩

include hk

/-- **Opening for a change, not interrupted.** -/
theorem vfsOpen_alone (h : Orderly w s₀ s) (hv : Asked M s v)
    (hx : scene M s v = some (.file content)) (hc : Stands w v s c)
    (hlow : c.entry = none → content = lower) {flags : OpenFlags} (hcreat : flags.creat = false)
    (hwant : OpenFlags.wantWrite flags = true) (append : Bool) :
    Calmly (fun t => t = s) (vfsOpen M v flags)
      (fun file s' => ∃ c' n j,
        Solo (CopyMove lower) i c (.start (.open flags.access flags.trunc append)) c'
          (.opened (.copy n flags.access append)) ∧
        Stands w v s' c' ∧ file = some (.host (.file j flags.access)) ∧
        s'.disk.tree.node (w ++ v) = some (.file j) ∧ c'.bytes n = (s'.disk.inode j).bytes)
      fun _ _ => True := by
  unfold vfsOpen
  refine looked_up s trivial (Calmly.bind (Q := fun _ t => t = s)
    (Calmly.look (hitIsDir_agrees true _) fun _ ht => ht) fun isDir => ?_)
  refine Calmly.ite (fun _ => ?_) fun _ => ?_
  · rw [if_pos hwant]
    exact Calmly.fail fun _ _ => trivial
  rw [if_pos hwant]
  refine Calmly.ite (fun _ => Calmly.fail fun _ _ => trivial) fun _ => ?_
  unfold openForWrite
  refine Calmly.conseq (copied_then hM hk hb h hv hx (Q := fun file s' => ∃ c' n j,
    Solo (CopyMove lower) i c (.start (.open flags.access flags.trunc append)) c'
      (.opened (.copy n flags.access append)) ∧
    Stands w v s' c' ∧ file = some (.host (.file j flags.access)) ∧
    s'.disk.tree.node (w ++ v) = some (.file j) ∧ c'.bytes n = (s'.disk.inode j).bytes) fun s₁ h₁ => ?_)
    (fun _ hs => hs) (fun _ _ hs => hs) fun _ _ _ => trivial
  have hwrite : (CopyAsk.open flags.access flags.trunc append).wantWrite = true := hwant
  obtain ⟨c₁, n, hsolo, hn, hc₁⟩ := brought_alone (i := i) hM hb hwrite h hv hx hc hlow h₁
  obtain ⟨j, hj, hbytes⟩ := hc₁.there n hn
  rw [writeHost_eq hM hk]
  refine Calmly.bind (Q := fun handle s' => handle = .file j flags.access ∧
      s'.disk.tree.node (w ++ v) = some (.file j) ∧ ∃ c',
        Solo (CopyMove lower) i c (.start (.open flags.access flags.trunc append)) c'
          (.opened (.copy n flags.access append)) ∧
        Stands w v s' c' ∧ c'.bytes n = (s'.disk.inode j).bytes) (Calmly.act ?_) fun handle =>
    Calmly.pure fun s' hs => ?_
  · rintro t rfl
    rcases Disk.open_cases (some (w ++ v)) flags 0 t.disk with ⟨e, hf⟩ | ⟨q, hq, hopen⟩
    · rw [hf]
      exact ⟨h₁.orderly, h₁.same.scene_eq⟩
    obtain rfl := Disk.find_straight (h₁.orderly.synced.shape.straight
      (h₁.orderly.openWay hM (h₁.same v hv.reached).1 hv.clean))
      (fun target ht => by rw [hj] at ht; cases ht) hq
    rcases hopen with ⟨-, hmake, -⟩ | ⟨j', hj', hrun⟩ | ⟨⟨m, hm⟩, -⟩
    · rw [hcreat] at hmake
      cases hmake
    · obtain rfl : j = j' := Node.file.inj (Option.some_inj.1 (hj.symm.trans hj'))
      rw [hrun]
      cases htrunc : flags.trunc with
      | true =>
          rw [htrunc] at hsolo
          refine ⟨rfl, hj, _, hsolo.tail (.openCopyTrunc hn), hc₁.setInode hn hj (.cut 0) ?_, ?_⟩
          · exact (resize_zero _).symm
          · change Function.update c₁.bytes n (FileEdit.apply (c₁.bytes n) (.cut 0)) n
              = (Function.update t.disk.inode j _ j).bytes
            rw [Function.update_self, Function.update_self]
            exact resize_zero _
      | false =>
          rw [htrunc] at hsolo
          exact ⟨rfl, hj, c₁, hsolo.tail (.openCopy hn), hc₁, hbytes⟩
    · rw [hj] at hm
      cases hm
  · obtain ⟨rfl, hj', c', hsolo', hc', hbytes'⟩ := hs
    exact ⟨c', n, j, hsolo', hc', rfl, hj', hbytes'⟩

/-- **Cutting a file by its path, not interrupted.** -/
theorem vfsTruncate_alone (h : Orderly w s₀ s) (hv : Asked M s v)
    (hx : scene M s v = some (.file content)) (hc : Stands w v s c)
    (hlow : c.entry = none → content = lower) (size : ℕ) :
    Calmly (fun t => t = s) (vfsTruncate M v none size)
      (fun _ s' => ∃ c', Solo (CopyMove lower) i c (.start (.cut size)) c' (.returned (.ok ())) ∧
        Stands w v s' c') fun _ _ => True := by
  unfold vfsTruncate
  refine Calmly.ite (fun _ => Calmly.fail fun _ _ => trivial) fun _ => ?_
  refine looked_up s trivial (Calmly.conseq (copied_then hM hk hb h hv hx (Q := fun _ s' => ∃ c',
    Solo (CopyMove lower) i c (.start (.cut size)) c' (.returned (.ok ())) ∧ Stands w v s' c')
    fun s₁ h₁ => ?_) (fun _ hs => hs) (fun _ _ hs => hs) fun _ _ _ => trivial)
  obtain ⟨c₁, n, hsolo, hn, hc₁⟩ :=
    brought_alone (i := i) (a := .cut size) hM hb rfl h hv hx hc hlow h₁
  obtain ⟨j, hj, hbytes⟩ := hc₁.there n hn
  rw [writeHost_eq hM hk]
  refine Calmly.act ?_
  rintro t rfl
  rcases Disk.truncate_cases (some (w ++ v)) size t.disk with ⟨e, hf⟩ | ⟨q, j', hq, hj', hrun⟩
  · rw [hf]
    exact ⟨h₁.orderly, h₁.same.scene_eq⟩
  · obtain rfl := Disk.find_straight (h₁.orderly.synced.shape.straight
      (h₁.orderly.openWay hM (h₁.same v hv.reached).1 hv.clean))
      (fun target ht => by rw [hj] at ht; cases ht) hq
    obtain rfl : j = j' := Node.file.inj (Option.some_inj.1 (hj.symm.trans hj'))
    rw [hrun]
    exact ⟨_, hsolo.tail (.cutCopy hn), hc₁.setInode hn hj (.cut size) rfl⟩

omit hk in
/-- **Opening for reading, not interrupted**: the handle reads what the mount shows. -/
theorem vfsOpenRead_alone (h : Orderly w s₀ s) (hv : Asked M s v)
    (hx : scene M s v = some (.file content)) (hc : Stands w v s c)
    (hlow : c.entry = none → content = lower) {flags : OpenFlags} (hcreat : flags.creat = false)
    (hwant : OpenFlags.wantWrite flags = false) (append : Bool) :
    Calmly (fun t => t = s) (vfsOpen M v flags)
      (fun _ s' => scene M s' = scene M s ∧ ∃ handle,
        Solo (CopyMove lower) i c (.start (.open flags.access flags.trunc append)) c
          (.opened handle) ∧ handle.content lower c = content)
      fun _ _ => True := by
  have hreads : ∃ handle, Solo (CopyMove lower) i c
      (.start (.open flags.access flags.trunc append)) c (.opened handle) ∧
      handle.content lower c = content := by
    cases hn : c.entry with
    | none =>
        exact ⟨.lower, (Solo.single (.readsBelow hn hwant)).tail .openBelow, (hlow hn).symm⟩
    | some n =>
        have htrunc : flags.trunc = false := (Bool.or_eq_false_iff.1 hwant).2
        rw [htrunc]
        refine ⟨.copy n flags.access append, (Solo.single (.found (by simp [hn]))).tail (.openCopy hn), ?_⟩
        obtain ⟨j, hj, hbytes⟩ := hc.there n hn
        have hserved := h.served_node hM hb hv.reached hv.clean hv.ne hj
        rw [← hv.scene, hx] at hserved
        exact hbytes.trans (Entry.file.inj (Option.some_inj.1 hserved)).symm
  unfold vfsOpen
  refine looked_up s trivial (Calmly.bind (Q := fun _ t => t = s)
    (Calmly.look (hitIsDir_agrees true _) fun _ ht => ht) fun isDir => ?_)
  refine Calmly.ite (fun _ => ?_) fun _ => ?_
  · rw [if_neg (by simp [hwant])]
    exact Calmly.pure fun t ht => ⟨congrArg (scene M) ht, hreads⟩
  · rw [if_neg (by simp [hwant])]
    exact Calmly.conseq (openForRead_still h _ hcreat hwant) (fun _ hs => hs)
      (fun _ _ hs => ⟨hs.1.2, hreads⟩) fun _ _ _ => trivial

end

end VidyaGodFS
