/-
**What an archive's file leaves behind.**

Once an archive is indexed, neither the name of the file it came from nor the way its stream fails
shows in what the mount answers: a read that fails yields no bytes, as one at the end does.
`unnamed` drops the name of the file and makes the stream quiet.

Main definitions:

* `ByteSource.quiet`, `ZipIndex.quiet` — reads that fail yield nothing;
* `Layer.unnamed` — a layer without the file of its archive.

Main results:

* `resolveZipSymlink_quiet` — chasing the links of an archive does not tell the two apart;
* `Layer.unnamed_hide` — neither does hiding.
-/

import VidyaGodFS.Layers

set_option relaxedAutoImplicit false
set_option autoImplicit false

namespace VidyaGodFS

open Posix

/-! ### Quiet streams -/

/-- The bytes of a read, none where it fails. -/
def bytesOf : Except Errno Bytes → Bytes
  | .ok bs => bs
  | .error _ => []

namespace ByteSource

/-- The stream whose reads yield nothing where they fail. -/
def quiet (src : ByteSource) : ByteSource where
  size := src.size
  pread t n off := .ok (bytesOf (src.pread t n off))
  size_lt := src.size_lt
  length_pread_le := by
    intro t n off bs hbs
    obtain rfl := Except.ok.inj hbs
    cases hread : src.pread t n off with
    | ok bs => exact src.length_pread_le hread
    | error e => exact Nat.zero_le n

theorem quiet_pread (src : ByteSource) (t n off : ℕ) :
    src.quiet.pread t n off = .ok (bytesOf (src.pread t n off)) := rfl

/-- Two quiet streams with the same bytes are the same. -/
theorem quiet_congr {src src' : ByteSource} (hsize : src.size = src'.size)
    (hread : ∀ t n off, bytesOf (src.pread t n off) = bytesOf (src'.pread t n off)) :
    src.quiet = src'.quiet := by
  have hpread : src.quiet.pread = src'.quiet.pread := by
    funext t n off
    rw [quiet_pread, quiet_pread, hread]
  have hsize' : src.quiet.size = src'.quiet.size := hsize
  generalize src.quiet = a at *
  generalize src'.quiet = b at *
  cases a
  cases b
  simp only at hpread hsize'
  subst hpread hsize'
  rfl

end ByteSource

/-- The archive with the stream made quiet. -/
def ZipIndex.quiet (Z : ZipIndex) : ZipIndex := { Z with src := Z.src.quiet }

@[simp] theorem entry_quiet (Z : ZipIndex) (p : Path) : Z.quiet.entry p = Z.entry p := rfl

@[simp] theorem children_quiet (Z : ZipIndex) (p : Path) : Z.quiet.children p = Z.children p := rfl

/-- One link of the archive: a read that fails and one that comes to nothing both lead nowhere. -/
theorem followZipLink_quiet (Z : ZipIndex) (E : ZipEntry) :
    (followZipLink Z.quiet E : View (Option ZipEntry)) = followZipLink Z E := by
  unfold followZipLink
  split
  · rfl
  · rename_i hsize
    have hne : E.size ≠ 0 := fun h => hsize (Or.inr (Or.inl h))
    have hpread : Z.quiet.src.pread 0 E.size E.dataOffset
        = .ok (bytesOf (Z.src.pread 0 E.size E.dataOffset)) := rfl
    funext s
    rw [View.bind_apply, View.bind_apply, View.look_apply, View.look_apply, hpread]
    cases Z.src.pread 0 E.size E.dataOffset with
    | ok bs => rfl
    | error e =>
        dsimp only [bytesOf]
        rw [if_pos fun h => hne h.symm]

theorem resolveZipSymlink_quiet (Z : ZipIndex) (E : ZipEntry) :
    (resolveZipSymlink Z.quiet E : View (Option ZipEntry)) = resolveZipSymlink Z E := by
  have hchase : ∀ (hops : ℕ) (E : ZipEntry),
      (chaseZipLinks Z.quiet hops E : View (Option ZipEntry)) = chaseZipLinks Z hops E := by
    intro hops
    induction hops with
    | zero => exact fun E => rfl
    | succ hops ih =>
        intro E
        rw [chaseZipLinks, chaseZipLinks, followZipLink_quiet]
        simp only [ih]
  rw [resolveZipSymlink, resolveZipSymlink, hchase]

/-! ### Layers -/

/-- What a layer shows, the stream of its archive made quiet. -/
def LayerType.quiet : LayerType → LayerType
  | .dir => .dir
  | .file => .file
  | .zip Z => .zip Z.quiet

namespace Layer

/-- The layer without the file of its archive. -/
def unnamed (L : Layer) : Layer :=
  match L.type with
  | .zip Z => { L with source := none, type := .zip Z.quiet }
  | _ => L

variable (L : Layer)

theorem unnamed_type : L.unnamed.type = L.type.quiet := by
  rw [unnamed]
  split
  · rename_i h
    rw [h]
    rfl
  · rename_i h
    cases htype : L.type with
    | dir => rfl
    | file => rfl
    | zip Z => exact absurd htype (h Z)

@[simp] theorem unnamed_target : L.unnamed.target = L.target := by
  rw [unnamed]
  split <;> rfl

@[simp] theorem unnamed_subpath : L.unnamed.subpath = L.subpath := by
  rw [unnamed]
  split <;> rfl

@[simp] theorem unnamed_rw : L.unnamed.rw = L.rw := by
  rw [unnamed]
  split <;> rfl

@[simp] theorem unnamed_maskedUnder : L.unnamed.maskedUnder = L.maskedUnder := by
  rw [unnamed]
  split <;> rfl

@[simp] theorem unnamed_priority : L.unnamed.priority = L.priority := by
  rw [unnamed]
  split <;> rfl

/-- Hiding a layer. -/
theorem unnamed_hide (masked : List Path) :
    { L with maskedUnder := masked }.unnamed = { L.unnamed with maskedUnder := masked } := by
  obtain ⟨type, source, target, subpath, rw, _, priority⟩ := L
  cases type <;> rfl

theorem unnamed_of_dir (h : L.type = .dir) : L.unnamed = L := by rw [unnamed, h]

theorem unnamed_of_file (h : L.type = .file) : L.unnamed = L := by rw [unnamed, h]

@[simp] theorem unnamed_isFileLayer : L.unnamed.isFileLayer = L.isFileLayer := by
  rw [isFileLayer, isFileLayer, unnamed_type]
  cases L.type <;> rfl

@[simp] theorem unnamed_isKept : L.unnamed.isKept = L.isKept := by
  rw [isKept, isKept, isDirLayer, isDirLayer, unnamed_type, unnamed_rw]
  cases L.type <;> rfl

@[simp] theorem unnamed_place : L.unnamed.place = L.place := by
  cases htype : L.type with
  | dir => rw [L.unnamed_of_dir htype]
  | file => rw [L.unnamed_of_file htype]
  | zip Z =>
      have hfile : L.isFileLayer = false := by rw [isFileLayer, htype]
      rw [place, place, unnamed_isFileLayer, unnamed_target, hfile]
      rfl

end Layer

@[simp] theorem layerCovers_unnamed (L : Layer) (v : Path) :
    layerCovers L.unnamed v = layerCovers L v := by
  cases htype : L.type with
  | dir => rw [L.unnamed_of_dir htype]
  | file => rw [L.unnamed_of_file htype]
  | zip Z =>
      have hfile : L.isFileLayer = false := by rw [Layer.isFileLayer, htype]
      rw [layerCovers, layerCovers, Layer.unnamed_isFileLayer, Layer.unnamed_target, hfile]
      rfl

@[simp] theorem layerMasked_unnamed (L : Layer) (v : Path) :
    layerMasked L.unnamed v = layerMasked L v := by
  rw [layerMasked, layerMasked, Layer.unnamed_maskedUnder]

@[simp] theorem sourceRel_unnamed (L : Layer) (v : Path) : sourceRel L.unnamed v = sourceRel L v := by
  rw [sourceRel, sourceRel, relUnder, relUnder, Layer.unnamed_target, Layer.unnamed_subpath]

end VidyaGodFS
