/-
**The layers of a mount.**

A mount stacks layers: directories, archives and single files of the host, each shown at a place of
the mount.  Above them all may lie a writelayer, and a directory layer may be *kept*: what is written
under it goes straight to its source.  Nothing of this changes while the mount is served.

A path of the mount is a list of names, the root `[]`.  Host paths are taken as absolute and in
plain form.

Main definitions:

* `Layer`, `Mount` — a layer, and the layers with what else is fixed;
* `layerCovers`, `layerMasked`, `relUnder`, `sourceRel` — where a layer shows, and as what;
* `implicitDirs` — the directories that only the places of the layers imply;
* `wlPath`, `whiteoutPath`, `keptHost`, `keptMarker` — the host paths of a name and of its markers;
* `isMarker`, `mark`, `unmark` — names of markers.

Main results:

* `unmark_mark`, `mark_unmark` — a marker's name says what it marks.
-/

import VidyaGodFS.ZipLayer

set_option relaxedAutoImplicit false
set_option autoImplicit false

namespace VidyaGodFS

open Posix

/-! ### Layers -/

/-- What a layer shows.  A delta has become the archive it composes to. -/
inductive LayerType
  | dir
  | zip (index : ZipIndex)
  | file

structure Layer where
  type : LayerType
  source : HostPath
  /-- Where the layer shows; for a single file, the directory it shows in. -/
  target : Path
  /-- What of the source shows there. -/
  subpath : Path
  /-- A directory layer whose source takes what is written under it. -/
  rw : Bool
  /-- Where deltas built over this layer hide it. -/
  maskedUnder : List Path
  priority : ℕ

/-- What is fixed while the mount is served. -/
structure Mount where
  /-- `none` where there is no writelayer. -/
  writelayer : HostPath
  readOnly : Bool
  flattenSymlinks : Bool
  /-- The lowest layer first. -/
  layers : List Layer
  priority_eq : layers.map Layer.priority = List.range layers.length
  /-- How many levels deep a path of the host can be. -/
  pathDepth : ℕ

/-- The last name of a path. -/
def baseName (p : Path) : Name := p.getLastD ""

namespace Layer

variable (L : Layer)

def isDirLayer : Bool :=
  match L.type with
  | .dir => true
  | _ => false

def isFileLayer : Bool :=
  match L.type with
  | .file => true
  | _ => false

/-- A kept folder. -/
def isKept : Bool := L.isDirLayer && L.rw

def fileBase : Name := baseName (L.source.getD [])

/-- Where a single file shows. -/
def fileVPath : Path := L.target ++ [L.fileBase]

/-- The path a layer is there for. -/
def place : Path := if L.isFileLayer then L.fileVPath else L.target

end Layer

/-- Layers of one priority are one layer. -/
theorem Mount.eq_of_priority {M : Mount} {L L' : Layer} (hL : L ∈ M.layers) (hL' : L' ∈ M.layers)
    (h : L.priority = L'.priority) : L = L' := by
  have hnodup : (M.layers.map Layer.priority).Nodup := by
    rw [M.priority_eq]
    exact List.nodup_range
  exact List.inj_on_of_nodup_map hnodup hL hL' h

/-! ### Where a layer shows -/

theorem join_append (p : HostPath) (r rest : Path) : p.join (r ++ rest) = (p.join r).join rest := by
  cases p with
  | some p => exact congrArg some (List.append_assoc p r rest).symm
  | none =>
      cases r with
      | nil => rfl
      | cons n r => rfl

def layerCovers (L : Layer) (v : Path) : Bool :=
  if L.isFileLayer then v = L.fileVPath else L.target.isPrefixOf v

/-- `v` lies where a delta built over `L` hides it. -/
def layerMasked (L : Layer) (v : Path) : Bool := L.maskedUnder.any (·.isPrefixOf v)

/-- The path below the place a layer shows at. -/
def relUnder (L : Layer) (v : Path) : Path := v.drop L.target.length

/-- The path on the side of the source. -/
def sourceRel (L : Layer) (v : Path) : Path := L.subpath ++ relUnder L v

/-- The host path behind a directory layer's `v`. -/
def layerHost (L : Layer) (v : Path) : HostPath := L.source.join (sourceRel L v)

/-- The directories strictly above a path, without the root. -/
def addAncestors (p : Path) : List Path := p.inits.filter fun q => q ≠ [] ∧ q ≠ p

namespace Mount

variable (M : Mount)

/-- The directories above the places of what is visible. -/
def implicitDirs : List Path :=
  M.layers.flatMap fun L => if layerMasked L L.place then [] else addAncestors L.place

/-- The kept folder that takes what is written at `v`: the highest that covers it. -/
def keptLayerFor (v : Path) : Option Layer :=
  M.layers.reverse.find? fun L => L.isKept && layerCovers L v

/-- Where what is written at `v` goes, if a kept folder takes it. -/
def passthroughHost (v : Path) : Option HostPath := (M.keptLayerFor v).map (layerHost · v)

/-- The host path of `v` in the writelayer. -/
def wlPath (v : Path) : HostPath := M.writelayer.join v

end Mount

/-! ### Markers -/

/-- The name starts with `.wh.`. -/
def isMarker (n : Name) : Bool := ".wh.".toList.isPrefixOf n.toList

/-- The marker that says `n` is deleted. -/
def mark (n : Name) : Name := ".wh." ++ n

/-- What a marker is about. -/
def unmark (n : Name) : Name := String.ofList (n.toList.drop 4)

/-- The marker of a directory that masks what is below it. -/
def opaqueName : Name := ".wh..wh..opq"

@[simp] theorem isMarker_mark (n : Name) : isMarker (mark n) = true := by
  simp [isMarker, mark]

@[simp] theorem unmark_mark (n : Name) : unmark (mark n) = n := by
  simp [unmark, mark]

theorem mark_unmark {n : Name} (h : isMarker n = true) : mark (unmark n) = n := by
  obtain ⟨rest, hrest⟩ := List.isPrefixOf_iff_prefix.1 h
  have htoList : (mark (unmark n)).toList = ".wh.".toList ++ n.toList.drop 4 := by
    simp [mark, unmark]
  rw [← String.toList_inj, htoList, ← hrest]
  rfl

theorem mark_inj {n m : Name} : mark n = mark m ↔ n = m :=
  ⟨fun h => by simpa using congrArg unmark h, congrArg mark⟩

/-- A directory's own marker, as the marker of a name. -/
theorem opaqueName_eq : opaqueName = mark ".wh..opq" := by decide

@[simp] theorem isMarker_opaqueName : isMarker opaqueName = true := by decide

namespace Mount

variable (M : Mount)

/-- The marker in the writelayer that says `v` is deleted. -/
def whiteoutPath (v : Path) : HostPath := (M.wlPath v.dropLast).join [mark (baseName v)]

def opaqueMarker (v : Path) : HostPath := (M.wlPath v).join [opaqueName]

end Mount

def keptHost (L : Layer) (rel : Path) : HostPath := L.source.join rel

/-- The marker in a kept folder that says `rel` is deleted; none for the folder itself, which cannot
hide itself. -/
def keptMarker (L : Layer) (rel : Path) : HostPath :=
  if rel = [] then none else (keptHost L rel.dropLast).join [mark (baseName rel)]

/-- The last name of the path is a marker's. -/
def markerName (v : Path) : Bool := isMarker (baseName v)

end VidyaGodFS
