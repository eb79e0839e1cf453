/-
**The host a mount runs on.**

The operations of the mount change two things: the host's disk, and the masks that the mount keeps
in memory.  Every call on the host may also be refused, for reasons of its own; a call that is
refused has no effect.  A `World` holds the state and what is going to be refused: `fate` says it
for the calls that act, in the order they are made, and `blind` for those that only look.

Lookups are written once for two readings of the same text.  Run in `View` they are functions of
the state; run in a `World` they may be refused along the way.  Where nothing is refused the two
agree, and the world stays as it was (`Agrees`).

Main definitions:

* `KeptMasks`, `VfsState`, `World`;
* `Looks`, `View` — what a lookup may do, and its plain reading;
* `act`, `mutate` — calls on the host, and changes of the masks;
* `createDirectories`, `missingDirs` — `std::filesystem::create_directories`.

Main results:

* `Agrees.bind`, `Agrees.look` — lookups do the same in both readings;
* `Returns.bind` — what is known of every outcome.
-/

import Mathlib.Data.Finset.Basic
import VidyaGodFS.ByteSource
import VidyaGodFS.Disk

set_option relaxedAutoImplicit false
set_option autoImplicit false

namespace VidyaGodFS

open Posix

/-- The markers of a kept folder, as its files show them: the names deleted there and the
directories made again over deleted ones, as paths in its source. -/
structure KeptMasks where
  deleted : Finset Path
  opaqueDirs : Finset Path

/-- What the operations change: the disk, and the masks kept in memory. -/
structure VfsState where
  disk : Disk
  /-- The whiteouted names. -/
  whiteoutSet : Finset Path
  /-- The directories that mask everything below them. -/
  opaqueSet : Finset Path
  /-- The masks of each kept folder, by the priority of its layer. -/
  kept : ℕ → KeptMasks

/-- A state, and which of the calls to come the host refuses. -/
structure World where
  state : VfsState
  fate : ℕ → Option Errno
  blind : ℕ → Option Errno

/-- Nothing is refused. -/
def allowed : ℕ → Option Errno := fun _ => none

namespace World

/-- Lookups are not refused. -/
def Clear (w : World) : Prop := w.blind = allowed

/-- Nothing is refused: the host is a faithful tree. -/
def Calm (w : World) : Prop := w.fate = allowed ∧ w.Clear

end World

/-- A world in which nothing is refused. -/
def calm (s : VfsState) : World := ⟨s, allowed, allowed⟩

theorem calm_calm (s : VfsState) : (calm s).Calm := ⟨rfl, rfl⟩

theorem World.Calm.eq {w : World} (h : w.Calm) : w = calm w.state := by
  obtain ⟨s, f, b⟩ := w
  obtain ⟨rfl, rfl⟩ : f = allowed ∧ b = allowed := h
  rfl

/-! ### Looking -/

/-- What a lookup runs in: it sees the state, and looks at the host, which may refuse. -/
class Looks (m : Type → Type) where
  see {α : Type} : (VfsState → α) → m α
  look {α : Type} : (Disk → Except Errno α) → m (Except Errno α)

export Looks (see look)

/-- A lookup as a function of the state. -/
def View (α : Type) : Type := VfsState → α

instance : Monad View where
  pure a := fun _ => a
  bind x f := fun s => f (x s) s

instance : Looks View where
  see f := f
  look f := fun s => f s.disk

instance : Looks (Prog World Errno) where
  see f := fun w => (.ok (f w.state), w)
  look f := fun w =>
    (.ok (match w.blind 0 with
      | some e => .error e
      | none => f w.state.disk), { w with blind := fun n => w.blind (n + 1) })

section

variable {α β : Type}

@[simp] theorem View.pure_apply (a : α) (s : VfsState) : (pure a : View α) s = a := rfl

@[simp] theorem View.bind_apply (x : View α) (f : α → View β) (s : VfsState) :
    (x >>= f) s = f (x s) s := rfl

@[simp] theorem View.see_apply (f : VfsState → α) (s : VfsState) : (see f : View α) s = f s := rfl

@[simp] theorem View.look_apply (f : Disk → Except Errno α) (s : VfsState) :
    (look f : View (Except Errno α)) s = f s.disk := rfl

/-- **The two readings of a lookup.**  Where no lookup is refused it yields what its plain reading
does, and leaves the world as it was; in any world it yields something, and leaves the state and
the fate of the calls to come as they were. -/
structure Agrees (p : View α) (q : Prog World Errno α) : Prop where
  run : ∀ w : World, w.Clear → q w = (.ok (p w.state), w)
  total : ∀ w : World, ∃ a w', q w = (.ok a, w') ∧ w'.state = w.state ∧ w'.fate = w.fate

namespace Agrees

theorem pure (a : α) : Agrees (Pure.pure a) (Pure.pure a) :=
  ⟨fun _ _ => rfl, fun w => ⟨a, w, rfl, rfl, rfl⟩⟩

theorem see (f : VfsState → α) : Agrees (Looks.see f) (Looks.see f) :=
  ⟨fun _ _ => rfl, fun w => ⟨f w.state, w, rfl, rfl, rfl⟩⟩

theorem look (f : Disk → Except Errno α) : Agrees (Looks.look f) (Looks.look f) := by
  constructor
  · intro w hw
    obtain ⟨s, fate, blind⟩ := w
    obtain rfl : blind = allowed := hw
    rfl
  · exact fun w => ⟨_, _, rfl, rfl, rfl⟩

theorem bind {p : View α} {q : Prog World Errno α} {f : α → View β} {g : α → Prog World Errno β}
    (h : Agrees p q) (hf : ∀ a, Agrees (f a) (g a)) : Agrees (p >>= f) (q >>= g) := by
  constructor
  · intro w hw
    rw [Prog.bind_of_ok (h.run w hw)]
    exact (hf _).run w hw
  · intro w
    obtain ⟨a, w₁, hrun, hstate, hfate⟩ := h.total w
    obtain ⟨b, w₂, hrun', hstate', hfate'⟩ := (hf a).total w₁
    exact ⟨b, w₂, by rw [Prog.bind_of_ok hrun, hrun'], hstate'.trans hstate, hfate'.trans hfate⟩

theorem ite {c : Prop} [Decidable c] {p p' : View α} {q q' : Prog World Errno α}
    (h : c → Agrees p q) (h' : ¬ c → Agrees p' q') :
    Agrees (if c then p else p') (if c then q else q') := by
  by_cases hc : c
  · rw [if_pos hc, if_pos hc]
    exact h hc
  · rw [if_neg hc, if_neg hc]
    exact h' hc

end Agrees

/-- What a lookup yields in the state `s`, read plainly, satisfies `Q`. -/
def Shows (s : VfsState) (Q : α → Prop) (p : View α) : Prop := Q (p s)

namespace Shows

variable {s : VfsState}

theorem pure {Q : α → Prop} {a : α} (h : Q a) : Shows s Q (Pure.pure a) := h

theorem bind {Q : β → Prop} {p : View α} {f : α → View β} (h : ∀ a, a = p s → Shows s Q (f a)) :
    Shows s Q (p >>= f) := h (p s) rfl

theorem ite {Q : α → Prop} {c : Prop} [Decidable c] {p p' : View α} (h : c → Shows s Q p)
    (h' : ¬ c → Shows s Q p') : Shows s Q (if c then p else p') := by
  by_cases hc : c
  · rw [if_pos hc]
    exact h hc
  · rw [if_neg hc]
    exact h' hc

end Shows

/-- Every outcome of the program that is not a failure satisfies `Q`. -/
def Returns (Q : α → Prop) (q : Prog World Errno α) : Prop := ∀ w a w', q w = (.ok a, w') → Q a

namespace Returns

theorem pure {Q : α → Prop} {a : α} (h : Q a) : Returns Q (Pure.pure a) := by
  intro w b w' hrun
  obtain ⟨rfl, rfl⟩ : a = b ∧ w = w' := by simpa using hrun
  exact h

theorem bind {Q : α → Prop} {R : β → Prop} {q : Prog World Errno α} {g : α → Prog World Errno β}
    (h : Returns Q q) (hg : ∀ a, Q a → Returns R (g a)) : Returns R (q >>= g) := by
  intro w b w' hrun
  rcases hq : q w with ⟨e | a, w₁⟩
  · rw [Prog.bind_of_error hq] at hrun
    simp at hrun
  · rw [Prog.bind_of_ok hq] at hrun
    exact hg a (h w a w₁ hq) w₁ b w' hrun

theorem triv (q : Prog World Errno α) : Returns (fun _ => True) q := fun _ _ _ _ => trivial

theorem ite {Q : α → Prop} {c : Prop} [Decidable c] {q q' : Prog World Errno α}
    (h : c → Returns Q q) (h' : ¬ c → Returns Q q') : Returns Q (if c then q else q') := by
  by_cases hc : c
  · rw [if_pos hc]
    exact h hc
  · rw [if_neg hc]
    exact h' hc

end Returns

end

/-! ### Acting -/

/-- A call on the host, unless it is refused. -/
def act {α : Type} (call : Call α) : Prog World Errno α := fun w =>
  match w.fate 0 with
  | some e => (.error e, { w with fate := fun n => w.fate (n + 1) })
  | none =>
      ((call w.state.disk).1,
        { w with
          state := { w.state with disk := (call w.state.disk).2 }
          fate := fun n => w.fate (n + 1) })

/-- A change of the masks. -/
def mutate (f : VfsState → VfsState) : Prog World Errno Unit :=
  Prog.modify fun w => { w with state := f w.state }

/-- A call whose outcome nobody looks at. -/
def ignoring {α : Type} (m : Prog World Errno α) : Prog World Errno Unit := do
  let _ ← Prog.attempt m
  pure ()

theorem see_bind {α β : Type} (f : VfsState → α) (k : α → Prog World Errno β) (w : World) :
    ((see f : Prog World Errno α) >>= k) w = k (f w.state) w := rfl

theorem act_calm {α : Type} (call : Call α) (s : VfsState) :
    act call (calm s) = ((call s.disk).1, calm { s with disk := (call s.disk).2 }) := rfl

/-- A look that the host lets through sees the disk. -/
theorem look_let {α : Type} (f : Disk → Except Errno α) {w : World} (h : w.blind 0 = none) :
    (look f : Prog World Errno (Except Errno α)) w
      = (.ok (f w.state.disk), ⟨w.state, w.fate, fun n => w.blind (n + 1)⟩) := by
  unfold look instLooksProgWorldErrno
  dsimp only
  rw [h]

theorem look_refused {α : Type} (f : Disk → Except Errno α) {w : World} {e : Errno}
    (h : w.blind 0 = some e) :
    (look f : Prog World Errno (Except Errno α)) w
      = (.ok (.error e), ⟨w.state, w.fate, fun n => w.blind (n + 1)⟩) := by
  unfold look instLooksProgWorldErrno
  dsimp only
  rw [h]

/-- A call that the host lets through runs on the disk. -/
theorem act_let {α : Type} (call : Call α) {w : World} (h : w.fate 0 = none) :
    act call w = ((call w.state.disk).1,
      ⟨{ w.state with disk := (call w.state.disk).2 }, fun n => w.fate (n + 1), w.blind⟩) := by
  unfold act
  rw [h]

/-- A call on the host that succeeds has run on the disk. -/
theorem act_ok {α : Type} {call : Call α} {w w' : World} {a : α} (h : act call w = (.ok a, w')) :
    call w.state.disk = (.ok a, w'.state.disk) := by
  unfold act at h
  cases hf : w.fate 0 with
  | some e =>
      rw [hf] at h
      cases h
  | none =>
      rw [hf] at h
      dsimp only at h
      obtain ⟨ha, rfl⟩ := Prod.mk.inj h
      exact Prod.ext ha rfl

@[simp] theorem mutate_apply (f : VfsState → VfsState) (w : World) :
    mutate f w = (.ok (), { w with state := f w.state }) := rfl

@[simp] theorem ignoring_apply {α : Type} (m : Prog World Errno α) (w : World) :
    ignoring m w = (.ok (), (m w).2) := rfl

/-! ### `create_directories` -/

/-- The directories missing on the way to the first `k` components of `p`, the topmost first. -/
def missingDirs (d : Disk) (p : Path) : ℕ → Except Errno (List Path)
  | 0 => .ok []
  | k + 1 =>
      match d.stat (some (p.take (k + 1))) with
      | .ok st => if st.isDir then .ok [] else .error .enotdir
      | .error e =>
          if e = .enoent ∨ e = .enotdir then
            match missingDirs d p k with
            | .ok dirs => .ok (dirs ++ [p.take (k + 1)])
            | .error e => .error e
          else .error e

/-- `create_directory`: a directory that turns up in the meantime is as good. -/
def createDirectory (p : Path) : Prog World Errno Unit := do
  match ← Prog.attempt (act (Disk.mkdir (some p) 0o777)) with
  | .ok () => pure ()
  | .error e => do
      let there ← look fun d => d.stat (some p)
      if e = .eexist ∧ there.toOption.any (·.isDir) then pure () else Prog.fail e

/-- `std::filesystem::create_directories`. -/
def createDirectories : HostPath → Prog World Errno Unit
  | none => Prog.fail .einval
  | some p => do
      match ← look fun d => missingDirs d p p.length with
      | .error e => Prog.fail e
      | .ok dirs => dirs.forM createDirectory

end VidyaGodFS
