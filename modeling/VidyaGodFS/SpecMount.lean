/-
**The mount of a spec.**

A mount stacks the layers that the loop makes of a spec, numbered in the order they are made.  The
streams are the host's files, the deltas over them, and archives are indexed from either.

Main definitions:

* `MountOptions`, `mountOf` — the mount of a spec;
* `DeltaByteSource.asSource` — a reader as a stream;
* `mountTools` — files, deltas and archives as the mount handles them.

Main results:

* `stackLayers_priority` — the layers are numbered in order.
-/

import VidyaGodFS.DeltaSource
import VidyaGodFS.StackChains
import VidyaGodFS.ZipScan

set_option relaxedAutoImplicit false
set_option autoImplicit false

namespace VidyaGodFS

open Posix

/-! ### The layers of a mount -/

section Priority

variable {V : Type} (T : Tools V)

theorem priority_hideBases (st : InitState V) (gi : ℕ) (behind : List ℕ) :
    (hideBases st gi behind).layers.map Layer.priority = st.layers.map Layer.priority := by
  have hat : ∀ (layers : List Layer) (h : ℕ × Path),
      (hideAt layers h).map Layer.priority = layers.map Layer.priority := by
    rintro layers ⟨i, p⟩
    rw [hideAt]
    dsimp only
    induction layers generalizing i with
    | nil => simp
    | cons L layers ih =>
        cases i with
        | zero => rfl
        | succ i => rw [List.modify_succ_cons, List.map_cons, List.map_cons, ih]
  have hall : ∀ (hidden : List (ℕ × Path)) (layers : List Layer),
      (hidden.foldl hideAt layers).map Layer.priority = layers.map Layer.priority := by
    intro hidden
    induction hidden with
    | nil => exact fun _ => rfl
    | cons x hidden ih => exact fun layers => (ih _).trans (hat layers x)
  exact hall _ _

theorem priority_surface {st : InitState V} (L : LayerSpec) (gi : ℕ) (type : LayerType)
    (h : st.layers.map Layer.priority = List.range st.layers.length) :
    (surface st L gi type).layers.map Layer.priority
      = List.range (surface st L gi type).layers.length := by
  have hmade : (madeLayers L type st.layers.length).map Layer.priority
      = (List.range L.mounts.length).map (st.layers.length + ·) := by
    refine List.ext_getElem? fun i => ?_
    rw [madeLayers, List.getElem?_map, List.getElem?_mapIdx, List.getElem?_map]
    rcases Nat.lt_or_ge i L.mounts.length with hi | hi
    · rw [List.getElem?_eq_getElem hi, List.getElem?_range hi]
      rfl
    · rw [List.getElem?_eq_none hi, List.getElem?_eq_none (by simpa using hi)]
      rfl
  rw [surface]
  dsimp only
  rw [List.map_append, h, hmade, List.length_append, List.range_add, madeLayers, List.length_mapIdx]

/-- **The layers are numbered in order.** -/
theorem stackLayers_priority (S : Spec) :
    (stackLayers T S).map Layer.priority = List.range (stackLayers T S).length := by
  have hall : ∀ n ≤ S.layers.length, (stackBefore T S n).layers.map Layer.priority
      = List.range (stackBefore T S n).layers.length := by
    intro n
    induction n with
    | zero => exact fun _ => rfl
    | succ n ih =>
        intro hn
        have hL := List.getElem?_eq_getElem (l := S.layers) (i := n) (by omega)
        have henter := (enterStep_mounts T S.chainTop (stackBefore T S n) S.layers[n] n).2
        have hprio : (enterStep T S.chainTop (stackBefore T S n) S.layers[n] n).layers.map
            Layer.priority = List.range
              (enterStep T S.chainTop (stackBefore T S n) S.layers[n] n).layers.length := by
          rw [henter]
          exact ih (by omega)
        rw [stackBefore_succ hL, stackStep_eq]
        split
        · exact hprio
        · rename_i type _
          have hsurface := priority_surface S.layers[n] n type hprio
          have hlen := congrArg List.length (priority_hideBases (surface (enterStep T S.chainTop
            (stackBefore T S n) S.layers[n] n) S.layers[n] n type) n
              (hides T (stackBefore T S n) S.layers[n] n))
          rw [List.length_map, List.length_map] at hlen
          rw [priority_hideBases, hsurface, hlen]
  have hend := hall S.layers.length le_rfl
  rwa [stackBefore_length] at hend

end Priority

/-- What a spec says besides its layers. -/
structure MountOptions where
  writelayer : HostPath
  readOnly : Bool
  flattenSymlinks : Bool
  pathDepth : ℕ

/-- **The mount of a spec.** -/
def mountOf {V : Type} (T : Tools V) (S : Spec) (o : MountOptions) : Mount where
  writelayer := o.writelayer
  readOnly := o.readOnly
  flattenSymlinks := o.flattenSymlinks
  layers := stackLayers T S
  priority_eq := stackLayers_priority T S
  pathDepth := o.pathDepth

theorem mountOf_layers {V : Type} (T : Tools V) (S : Spec) (o : MountOptions) :
    (mountOf T S o).layers = stackLayers T S := rfl

/-! ### Files, deltas and archives -/

/-- A reader as a stream.  The size is a `uint64_t`, and a read never yields more than was asked for;
a read starts with an empty cache, where the program keeps the cache from one read to the next.  One
that does not end yields nothing. -/
def DeltaByteSource.asSource (z : Zstd) (D : DeltaByteSource) : ByteSource where
  size := D.targetSize % 2 ^ 64
  pread t n off :=
    match (D.pread z n off ⟨t, [], []⟩).1 with
    | .ok bs => .ok (bs.take n)
    | .error (.errno e) => .error e
    | .error .hang => .error .eio
  size_lt := Nat.mod_lt _ (by decide)
  length_pread_le := by
    intro t n off bs hbs
    split at hbs
    · obtain rfl := Except.ok.inj hbs
      exact List.length_take_le ..
    · simp at hbs
    · simp at hbs

def Source.asSource (z : Zstd) : Source → ByteSource
  | .plain src => src
  | .delta D => D.asSource z

/-- Files, deltas and archives as the mount handles them: `files` is what the host's files hold,
`lib` lists the entries of an archive, and `concat` puts streams one after the other. -/
def mountTools (files : HostPath → Option ByteSource) (z : Zstd) (lib : Libzip Empty)
    (concat : List ByteSource → ByteSource) : Tools Source where
  openFile p := (files p).map .plain
  concat parts := .plain (concat (parts.map (Source.asSource z)))
  compose d base := ((create z (d.asSource z) (some base) false ⟨0, []⟩).1.toOption).map .delta
  index v _ := (buildZipIndex lib (v.asSource z) 0).1.toOption.join

end VidyaGodFS
