/-
**Runs on a faithful host.**

In a calm world no call is refused: a call fails only for a reason that the disk gives.  A program
run there is a program on the state, and `Calmly` is its Hoare triple.

`create_directories` on a straight path then does just what its name says.

Main definitions:

* `Calmly`, `Keeps` — triples and invariants of calm runs;
* `Makeable`, `missingTo` — a path whose missing directories can be made, and how many there are.

Main results:

* `Calmly.bind`, `Calmly.act`, `Calmly.look`, `Calmly.forM` — the rules;
* `createDirectories_makes` — **the missing directories of a straight path are made, and nothing
  else happens**.
-/

import VidyaGodFS.Host
import VidyaGodFS.Straight

set_option relaxedAutoImplicit false
set_option autoImplicit false

namespace VidyaGodFS

open Posix

variable {α β : Type}

/-! ### Triples -/

/-- From a state in `P` the program, run where nothing is refused, ends in `Q` or fails into `E`. -/
def Calmly (P : VfsState → Prop) (m : Prog World Errno α) (Q : α → VfsState → Prop)
    (E : Errno → VfsState → Prop) : Prop :=
  Prog.Triple (fun w => w.Calm ∧ P w.state) m (fun a w => w.Calm ∧ Q a w.state)
    (fun e w => w.Calm ∧ E e w.state)

namespace Calmly

variable {P P' : VfsState → Prop} {Q Q' : α → VfsState → Prop} {R : β → VfsState → Prop}
  {E E' : Errno → VfsState → Prop}

theorem conseq {m : Prog World Errno α} (h : Calmly P m Q E) (hP : ∀ s, P' s → P s)
    (hQ : ∀ a s, Q a s → Q' a s) (hE : ∀ e s, E e s → E' e s) : Calmly P' m Q' E' :=
  Prog.Triple.conseq h (fun _ hw => ⟨hw.1, hP _ hw.2⟩) (fun a _ hw => ⟨hw.1, hQ a _ hw.2⟩)
    fun e _ hw => ⟨hw.1, hE e _ hw.2⟩

/-- What is known of a run for two reasons. -/
theorem and {m : Prog World Errno α} (h : Calmly P m Q E) (h' : Calmly P m Q' E') :
    Calmly P m (fun a s => Q a s ∧ Q' a s) (fun e s => E e s ∧ E' e s) := by
  intro w hw
  have hpost := h w hw
  have hpost' := h' w hw
  rcases hm : m w with ⟨e | a, w'⟩ <;> rw [hm] at hpost hpost' <;>
    exact ⟨hpost.1, hpost.2, hpost'.2⟩

theorem pure {a : α} (h : ∀ s, P s → Q a s) : Calmly P (Pure.pure a) Q E :=
  Prog.Triple.pure fun _ hw => ⟨hw.1, h _ hw.2⟩

theorem fail {e : Errno} (h : ∀ s, P s → E e s) : Calmly P (Prog.fail e) Q E :=
  Prog.Triple.fail fun _ hw => ⟨hw.1, h _ hw.2⟩

/-- **The rule of sequencing.** -/
theorem bind {m : Prog World Errno α} {f : α → Prog World Errno β} (hm : Calmly P m Q E)
    (hf : ∀ a, Calmly (Q a) (f a) R E) : Calmly P (m >>= f) R E :=
  Prog.Triple.bind hm hf

/-- A lookup yields what its plain reading does. -/
theorem look {p : View α} {q : Prog World Errno α} (hq : Agrees p q)
    (h : ∀ s, P s → Q (p s) s) : Calmly P q Q E := by
  intro w hw
  rw [hq.run w hw.1.2]
  exact ⟨hw.1, h _ hw.2⟩

/-- A call of the host. -/
theorem act {call : Call α}
    (h : ∀ s, P s → Prog.Post (fun a d => Q a { s with disk := d })
      (fun e d => E e { s with disk := d }) (call s.disk)) : Calmly P (act call) Q E := by
  intro w hw
  have hpost := h _ hw.2
  rw [hw.1.eq, act_calm]
  rcases hrun : call w.state.disk with ⟨e | a, d⟩
  · rw [hrun] at hpost
    exact ⟨calm_calm _, hpost⟩
  · rw [hrun] at hpost
    exact ⟨calm_calm _, hpost⟩

theorem mutate {f : VfsState → VfsState} {Q : Unit → VfsState → Prop}
    (h : ∀ s, P s → Q () (f s)) : Calmly P (mutate f) Q E := fun _ hw => ⟨hw.1, h _ hw.2⟩

/-- An outcome nobody looks at. -/
theorem ignoring {m : Prog World Errno α} {Q : Unit → VfsState → Prop}
    (h : Calmly P m (fun _ => Q ()) (fun _ => Q ())) : Calmly P (ignoring m) Q E := by
  intro w hw
  have hpost := h w hw
  rcases hm : m w with ⟨e | a, w'⟩
  · rw [hm] at hpost
    rw [ignoring_apply, hm]
    exact hpost
  · rw [hm] at hpost
    rw [ignoring_apply, hm]
    exact hpost

/-- Looking at an outcome. -/
theorem attempt {m : Prog World Errno α} (h : Calmly P m Q E) :
    Calmly P (Prog.attempt m)
      (fun r s => match r with
        | .ok a => Q a s
        | .error e => E e s) E' := by
  intro w hw
  have hpost := h w hw
  rcases hm : m w with ⟨e | a, w'⟩
  · rw [hm] at hpost
    rw [Prog.attempt_apply, hm]
    exact hpost
  · rw [hm] at hpost
    rw [Prog.attempt_apply, hm]
    exact hpost

theorem ite {c : Prop} [Decidable c] {m m' : Prog World Errno α} (h : c → Calmly P m Q E)
    (h' : ¬ c → Calmly P m' Q E) : Calmly P (if c then m else m') Q E := by
  by_cases hc : c
  · rw [if_pos hc]
    exact h hc
  · rw [if_neg hc]
    exact h' hc

/-- A fact about the state in hand. -/
theorem assuming {m : Prog World Errno α} (h : ∀ s₀, P s₀ → Calmly (fun s => s = s₀) m Q E) :
    Calmly P m Q E := fun w hw => h _ hw.2 w ⟨hw.1, rfl⟩

end Calmly

/-- The program keeps `I` where nothing is refused, whether it succeeds or fails. -/
def Keeps (I : VfsState → Prop) (m : Prog World Errno α) : Prop :=
  Calmly I m (fun _ => I) (fun _ => I)

namespace Keeps

variable {I : VfsState → Prop}

theorem pure (a : α) : Keeps I (Pure.pure a : Prog World Errno α) := Calmly.pure fun _ hs => hs

theorem fail (e : Errno) : Keeps I (Prog.fail e : Prog World Errno α) := Calmly.fail fun _ hs => hs

theorem bind {m : Prog World Errno α} {f : α → Prog World Errno β} (hm : Keeps I m)
    (hf : ∀ a, Keeps I (f a)) : Keeps I (m >>= f) := Calmly.bind hm hf

theorem look {p : View α} {q : Prog World Errno α} (hq : Agrees p q) : Keeps I q :=
  Calmly.look hq fun _ hs => hs

theorem ite {c : Prop} [Decidable c] {m m' : Prog World Errno α} (h : c → Keeps I m)
    (h' : ¬ c → Keeps I m') : Keeps I (if c then m else m') := Calmly.ite h h'

theorem ignoring {m : Prog World Errno α} (h : Keeps I m) : Keeps I (ignoring m) :=
  Calmly.ignoring h

theorem attempt {m : Prog World Errno α} (h : Keeps I m) :
    Keeps I (Prog.attempt m : Prog World Errno (Except Errno α)) :=
  Calmly.conseq (Calmly.attempt h) (fun _ hs => hs)
    (fun r s hs => by cases r <;> exact hs) fun _ _ hs => hs

/-- A loop keeps what each of its turns keeps. -/
theorem forM {γ : Type} {f : γ → Prog World Errno PUnit} :
    ∀ {l : List γ}, (∀ x ∈ l, Keeps I (f x)) → Keeps I (l.forM f) := by
  intro l
  induction l with
  | nil => exact fun _ => pure _
  | cons x l ih =>
      intro h
      exact bind (h x (by simp)) fun _ => ih fun y hy => h y (by simp [hy])

/-- A call of the host that keeps `I`. -/
theorem act {call : Call α} (h : ∀ s, I s → I { s with disk := (call s.disk).2 }) :
    Keeps I (act call) := by
  refine Calmly.act fun s hs => ?_
  have hs' := h s hs
  rcases hrun : call s.disk with ⟨e | a, d⟩ <;> rw [hrun] at hs' <;> exact hs'

end Keeps

/-! ### Making directories -/

/-- The missing directories on the way to `p`, and `p` itself, can be made: what is there is open,
and the last that is there can be written. -/
structure Makeable (t : Tree) (p : Path) : Prop where
  way : ∀ q, q <+: p → t.node q = none ∨ t.IsOpenDir q
  writable : ∀ (q : Path) (n : Name) (m : ℕ), q ++ [n] <+: p → t.node (q ++ [n]) = none →
    t.node q = some (.dir m) → Tree.canWrite m = true

/-- The tree with the missing directories down to `p`. -/
def Made (t : Tree) (p : Path) (t' : Tree) : Prop :=
  ∀ q, t'.node q = if q <+: p ∧ t.node q = none then some (.dir 0o777) else t.node q

/-- A disk on which only the names have changed. -/
def NamesOnly (d d' : Disk) : Prop := d'.inode = d.inode ∧ d'.next = d.next ∧ d'.dev = d.dev

theorem NamesOnly.refl (d : Disk) : NamesOnly d d := ⟨rfl, rfl, rfl⟩

theorem Made.grows {t t' : Tree} {p : Path} (h : Made t p t') : t.Grows t' := by
  intro q nd hq
  rw [h q, if_neg (by simp [hq]), hq]

theorem Made.isDir {t t' : Tree} {p : Path} (h : Made t p t')
    (hp : t.node p = none ∨ t.IsDir p) : t'.IsDir p := by
  rcases hp with hnone | hdir
  · exact ⟨0o777, by rw [h p, if_pos ⟨List.prefix_refl p, hnone⟩]⟩
  · exact h.grows.isDir hdir

theorem full_777 : Full 0o777 := by decide

theorem exists_take_succ {p : Path} {k : ℕ} (hk : k < p.length) :
    ∃ n, p.take (k + 1) = p.take k ++ [n] := ⟨p[k], List.take_succ_eq_append_getElem hk⟩

/-- How many of the first `k` directories on the way to `p` are missing. -/
def missingTo (t : Tree) (p : Path) : ℕ → ℕ
  | 0 => 0
  | k + 1 => missingTo t p k + if t.node (p.take (k + 1)) = none then 1 else 0

/-- Making one directory more, if the host lets it. -/
theorem createDirectory_makes {s : VfsState} {a : Path} {n : Name}
    (hopen : ∀ q, q <+: a → s.disk.tree.IsOpenDir q) {m : ℕ}
    (hm : s.disk.tree.node a = some (.dir m)) (hw : Tree.canWrite m = true)
    (hnone : s.disk.tree.node (a ++ [n]) = none) :
    ∃ hput hi, ∀ fate blind : ℕ → Option Errno, fate 0 = none →
      createDirectory (a ++ [n]) ⟨s, fate, blind⟩
        = (.ok (), ⟨{ s with disk := s.disk.put (a ++ [n]) (.dir 0o777) hput hi },
            fun i => fate (i + 1), blind⟩) := by
  have hstraight : s.disk.tree.Straight (a ++ [n]) := by
    intro q hq hne
    exact Or.inr (hopen q ((List.prefix_concat_iff.1 hq).resolve_left hne))
  obtain ⟨hput, hi, hmk⟩ := Disk.mkdir_straight hstraight (by simp) hnone
    (by rw [append_singleton_dropLast]; exact hm) hw 0o777
  refine ⟨hput, hi, fun fate blind hlet => ?_⟩
  unfold createDirectory
  rw [Prog.bind_of_ok (Prog.attempt_apply _ _), act_let _ hlet]
  dsimp only
  rw [hmk]
  rfl

/-- Making the directories down to the first `k` components of `p`. -/
theorem missingDirs_makes {s : VfsState} {p : Path} (h : Makeable s.disk.tree p) :
    ∀ k, k ≤ p.length → ∃ dirs d', missingDirs s.disk p k = .ok dirs ∧
      dirs.length ≤ missingTo s.disk.tree p k ∧
      (∀ fate blind : ℕ → Option Errno, (∀ i < dirs.length, fate i = none) →
        (dirs.forM createDirectory) ⟨s, fate, blind⟩
          = (.ok (), ⟨{ s with disk := d' }, fun i => fate (i + dirs.length), blind⟩)) ∧
      Made s.disk.tree (p.take k) d'.tree ∧ NamesOnly s.disk d' := by
  intro k
  induction k with
  | zero =>
      refine fun _ => ⟨[], s.disk, rfl, le_rfl, fun _ _ _ => rfl, fun q => ?_, NamesOnly.refl _⟩
      rw [List.take_zero, if_neg]
      rintro ⟨hq, hnone⟩
      obtain rfl := List.prefix_nil.1 hq
      obtain ⟨m, hm⟩ := s.disk.tree.root_dir
      rw [hm] at hnone
      cases hnone
  | succ k ih =>
      intro hk
      have hpre : p.take (k + 1) <+: p := List.take_prefix _ _
      have hstraight : s.disk.tree.Straight (p.take (k + 1)) :=
        fun q hq _ => h.way q (hq.trans hpre)
      rcases h.way _ hpre with hnone | hopen
      · -- the last of them is missing: those above are made first
        obtain ⟨dirs, d', hdirs, hlen, hrun, hmade, hnames⟩ := ih (Nat.le_of_succ_le hk)
        obtain ⟨n, hsucc⟩ := exists_take_succ (Nat.lt_of_succ_le hk)
        have hcount : missingTo s.disk.tree p (k + 1) = missingTo s.disk.tree p k + 1 := by
          rw [missingTo, if_pos hnone]
        rw [hsucc] at hpre hstraight hnone
        have hopen' : ∀ q, q <+: p.take k → d'.tree.IsOpenDir q := by
          intro q hq
          rcases h.way q (hq.trans (List.take_prefix k p)) with hmiss | hopen
          · exact ⟨0o777, by rw [hmade, if_pos ⟨hq, hmiss⟩], full_777.2.2⟩
          · exact hmade.grows.isOpenDir hopen
        have hpar : ∃ m, d'.tree.node (p.take k) = some (.dir m) ∧ Tree.canWrite m = true := by
          rcases h.way _ (List.take_prefix k p) with hmiss | ⟨m, hm, -⟩
          · exact ⟨0o777, by rw [hmade, if_pos ⟨List.prefix_refl _, hmiss⟩], full_777.2.1⟩
          · exact ⟨m, hmade.grows _ _ hm, h.writable _ n m hpre hnone hm⟩
        have hnone' : d'.tree.node (p.take k ++ [n]) = none := by
          rw [hmade, if_neg, hnone]
          exact fun hle => not_append_singleton_le _ _ hle.1
        obtain ⟨m, hm, hw⟩ := hpar
        obtain ⟨hput, hi, hlast⟩ :=
          createDirectory_makes (s := { s with disk := d' }) hopen' hm hw hnone'
        refine ⟨dirs ++ [p.take (k + 1)], d'.put _ _ hput hi, ?_, ?_, fun fate blind hlet => ?_,
          fun q => ?_, hnames⟩
        · rw [missingDirs, hsucc, Disk.stat_straight_none hstraight hnone]
          dsimp only
          rw [if_pos (Or.inl rfl), hdirs]
        · rw [List.length_append, List.length_singleton, hcount]
          omega
        · rw [List.length_append, List.length_singleton] at hlet ⊢
          rw [Prog.forM_append_of_ok (hrun fate blind fun i hi => hlet i (by omega)), hsucc]
          have hnext := hlast (fun i => fate (i + dirs.length)) blind
            (by simpa using hlet dirs.length (by omega))
          refine (Prog.bind_of_ok hnext).trans ?_
          simp only [Nat.add_assoc, Nat.add_comm 1]
          rfl
        · rw [Disk.put_tree, Tree.put_node, hmade q, hsucc]
          by_cases hq : q = p.take k ++ [n]
          · rw [if_pos hq, if_pos ⟨hq ▸ List.prefix_refl _, hq ▸ hnone⟩]
          · simp only [hq, if_false, List.prefix_concat_iff, false_or]
      · obtain ⟨m, hm, -⟩ := hopen
        refine ⟨[], s.disk, ?_, Nat.zero_le _, fun _ _ _ => rfl, fun q => ?_, NamesOnly.refl _⟩
        · rw [missingDirs, Disk.stat_straight_dir hstraight hm]
          rfl
        · rw [if_neg]
          rintro ⟨hq, hnone⟩
          have hsome := Tree.node_eq_none_below hnone hq
          rw [hm] at hsome
          cases hsome

/-- **The missing directories of a straight path are made, and nothing else happens.** -/
theorem createDirectories_makes {s : VfsState} {p : Path} (h : Makeable s.disk.tree p) :
    ∃ d', createDirectories (some p) (calm s) = (.ok (), calm { s with disk := d' }) ∧
      Made s.disk.tree p d'.tree ∧ NamesOnly s.disk d' := by
  obtain ⟨dirs, d', hdirs, -, hrun, hmade, hnames⟩ := missingDirs_makes h p.length le_rfl
  rw [List.take_length] at hmade
  refine ⟨d', ?_, hmade, hnames⟩
  unfold createDirectories
  dsimp only
  rw [Prog.bind_of_ok ((Agrees.look _).run (calm s) rfl), View.look_apply,
    show (calm s).state = s from rfl, hdirs]
  exact hrun allowed allowed fun _ _ => rfl

end VidyaGodFS
