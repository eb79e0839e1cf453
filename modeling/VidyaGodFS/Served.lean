/-
**What a mount answers, without the files of its archives.**

What is looked up, listed and read in a mount is looked up, listed and read in the mount whose
layers are unnamed.  So two mounts that differ in the files of their archives only answer alike.

Main definitions:

* `Mount.unnamed`, `ResolveResult.unnamed` — without the files of the archives;
* `readAt` — reading from a path of the mount;
* `SameServed` — **two mounts answer alike.**

Main results:

* `lookup_unnamed`, `listing_unnamed`, `attr_unnamed`, `readAt_unnamed` — what is looked up, listed
  and read;
* `sameServed_of_unnamed` — **two mounts that differ in the files of archives answer alike.**
-/

import VidyaGodFS.Unnamed
import VidyaGodFS.VfsOps

set_option relaxedAutoImplicit false
set_option autoImplicit false

namespace VidyaGodFS

open Posix

/-! ### Mounts -/

namespace Mount

/-- The mount without the files of its archives. -/
def unnamed (M : Mount) : Mount where
  writelayer := M.writelayer
  readOnly := M.readOnly
  flattenSymlinks := M.flattenSymlinks
  layers := M.layers.map Layer.unnamed
  priority_eq := by
    rw [List.map_map, List.length_map, ← M.priority_eq]
    exact List.map_congr_left fun L _ => L.unnamed_priority
  pathDepth := M.pathDepth

theorem unnamed_implicitDirs (M : Mount) : M.unnamed.implicitDirs = M.implicitDirs := by
  rw [implicitDirs, implicitDirs, unnamed, List.flatMap_map]
  exact List.flatMap_congr fun L _ => by rw [Layer.unnamed_place, layerMasked_unnamed]

end Mount

/-! ### Looking up -/

namespace ResolveResult

/-- What was found, without the file of the archive it is in. -/
def unnamed : ResolveResult → ResolveResult
  | .zipEntry L Z e => .zipEntry L.unnamed Z.quiet e
  | rr => rr

end ResolveResult

variable (M : Mount) (s : VfsState) (v : Path)

theorem resolveLayer_unnamed (L : Layer) :
    (resolveLayer M.unnamed L.unnamed v : View (Option ResolveResult)) s
      = ((resolveLayer M L v : View (Option ResolveResult)) s).map ResolveResult.unnamed := by
  have hflat : M.unnamed.flattenSymlinks = M.flattenSymlinks := rfl
  unfold resolveLayer
  rw [layerCovers_unnamed, layerMasked_unnamed, Layer.unnamed_type, sourceRel_unnamed, hflat]
  by_cases hc : (!layerCovers L v || layerMasked L v) = true
  · rw [if_pos hc, if_pos hc]
    rfl
  · rw [if_neg hc, if_neg hc]
    cases htype : L.type with
    | dir =>
        -- the same lookup, and no archive's entry comes out
        rw [L.unnamed_of_dir htype]
        refine Shows.bind (Q := fun r : Option ResolveResult => r = r.map ResolveResult.unnamed) fun r _ => ?_
        cases r with
        | error e => exact Shows.bind fun masked _ => Shows.ite (fun _ => rfl) fun _ => rfl
        | ok st =>
            refine Shows.ite (fun _ => Shows.bind fun r _ => ?_) fun _ => rfl
            cases r with
            | error e => rfl
            | ok st' =>
                refine Shows.bind fun r _ => ?_
                rcases r with e | ⟨⟨⟩ | ⟨⟩⟩ <;> rfl
    | file =>
        rw [L.unnamed_of_file htype]
        refine Shows.bind (Q := fun r : Option ResolveResult => r = r.map ResolveResult.unnamed) fun r _ => ?_
        cases r with
        | error e => rfl
        | ok st =>
            refine Shows.ite (fun _ => Shows.bind fun r _ => ?_) fun _ => rfl
            cases r with
            | error e => rfl
            | ok st' => rfl
    | zip Z =>
        dsimp only [LayerType.quiet]
        rw [entry_quiet, children_quiet]
        cases Z.entry (sourceRel L v) with
        | none =>
            dsimp only
            split <;> rfl
        | some e =>
            dsimp only
            rw [resolveZipSymlink_quiet]
            split
            · rw [View.bind_apply, View.bind_apply]
              cases (resolveZipSymlink Z e : View (Option ZipEntry)) s with
              | none =>
                  dsimp only
                  split <;> rfl
              | some t => rfl
            · rfl

theorem resolveLayers_unnamed (layers : List Layer) :
    (resolveLayers M.unnamed v (layers.map Layer.unnamed) : View ResolveResult) s
      = ((resolveLayers M v layers : View ResolveResult) s).unnamed := by
  induction layers with
  | nil =>
      rw [List.map_nil, resolveLayers, resolveLayers, Mount.unnamed_implicitDirs]
      split <;> rfl
  | cons L rest ih =>
      rw [List.map_cons, resolveLayers, resolveLayers, View.bind_apply, View.bind_apply,
        resolveLayer_unnamed]
      cases (resolveLayer M L v : View (Option ResolveResult)) s with
      | none => exact ih
      | some rr => rfl

/-- **What is looked up** does not depend on the files of the archives. -/
theorem lookup_unnamed : lookup M.unnamed s v = (lookup M s v).unnamed := by
  have hlayers := resolveLayers_unnamed M s v M.layers.reverse
  rw [List.map_reverse] at hlayers
  unfold lookup resolve
  by_cases hwl : M.writelayer = none
  · rw [if_pos hwl, if_pos (show M.unnamed.writelayer = none from hwl)]
    exact hlayers
  · rw [if_neg hwl, if_neg (show ¬ M.unnamed.writelayer = none from hwl), View.bind_apply,
      View.bind_apply, View.see_apply, View.see_apply]
    by_cases hgone : isWhiteouted M s v = true
    · rw [if_pos hgone, if_pos (show isWhiteouted M.unnamed s v = true from hgone)]
      rfl
    · rw [if_neg hgone, if_neg (show ¬ isWhiteouted M.unnamed s v = true from hgone),
        View.bind_apply, View.bind_apply, View.look_apply, View.look_apply,
        show M.unnamed.wlPath v = M.wlPath v from rfl]
      cases s.disk.lstat (M.wlPath v) with
      | ok st => rfl
      | error e =>
          dsimp only
          rw [View.bind_apply, View.bind_apply, View.see_apply, View.see_apply]
          by_cases hunder : (isUnderOpaque M s v || isUnderWhiteout M s v) = true
          · rw [if_pos hunder, if_pos (show (isUnderOpaque M.unnamed s v ||
              isUnderWhiteout M.unnamed s v) = true from hunder)]
            rfl
          · rw [if_neg hunder, if_neg (show ¬ (isUnderOpaque M.unnamed s v ||
              isUnderWhiteout M.unnamed s v) = true from hunder)]
            exact hlayers

/-! ### Listing -/

theorem placeNames_unnamed (L : Layer) : placeNames L.unnamed v = placeNames L v := by
  cases htype : L.type with
  | dir => rw [L.unnamed_of_dir htype]
  | file => rw [L.unnamed_of_file htype]
  | zip Z =>
      have hfile : L.isFileLayer = false := by rw [Layer.isFileLayer, htype]
      rw [placeNames, placeNames, Layer.unnamed_isFileLayer, Layer.unnamed_place, hfile]
      simp

theorem layerNames_unnamed (L : Layer) :
    (layerNames M.unnamed L.unnamed v : View Listing) = layerNames M L v := by
  have hnames : ∀ (Z : ZipIndex) (rel : Path) (names : List Name),
      (zipNames M.unnamed Z.quiet rel names : View (List Name)) = zipNames M Z rel names := by
    intro Z rel names
    induction names with
    | nil => rfl
    | cons c cs ih =>
        rw [zipNames, zipNames, ih]
        simp only [entry_quiet, resolveZipSymlink_quiet]
        rfl
  unfold layerNames
  rw [Layer.unnamed_type, sourceRel_unnamed]
  cases htype : L.type with
  | dir =>
      rw [L.unnamed_of_dir htype]
      rfl
  | file => rfl
  | zip Z =>
      dsimp only [LayerType.quiet]
      rw [hnames, children_quiet]

theorem layersListing_unnamed (prio : ℕ) (layers : List Layer) :
    (layersListing M.unnamed prio v (layers.map Layer.unnamed) : View Listing)
      = layersListing M prio v layers := by
  induction layers with
  | nil => rfl
  | cons L rest ih =>
      rw [List.map_cons, layersListing, layersListing, ih, layerListing, layerListing,
        Layer.unnamed_priority, layerMasked_unnamed, layerCovers_unnamed, layerNames_unnamed,
        placeNames_unnamed]

theorem opaquePrio_unnamed : opaquePrio M.unnamed s v = opaquePrio M s v := by
  have hopaque : ∀ L : Layer, keptOpaqueDir s L.unnamed v = keptOpaqueDir s L v := by
    intro L
    rw [keptOpaqueDir, keptOpaqueDir, Layer.unnamed_isKept, sourceRel_unnamed,
      Layer.unnamed_priority]
  rw [opaquePrio, opaquePrio]
  change ((M.layers.map Layer.unnamed).filter _).foldr _ 0 = _
  rw [List.filter_map, List.foldr_map]
  simp only [Function.comp_def, Layer.unnamed_isKept, layerCovers_unnamed, hopaque,
    Layer.unnamed_priority]

/-- **What is listed** does not depend on the files of the archives. -/
theorem listing_unnamed : listing M.unnamed s v = listing M s v := by
  have hlower : ∀ opq : Bool,
      (lowerListing M.unnamed v opq : View Listing) s = (lowerListing M v opq : View Listing) s := by
    intro opq
    rw [lowerListing, lowerListing]
    cases opq with
    | true => rfl
    | false =>
        have hlayers := congrFun (layersListing_unnamed M v (opaquePrio M s v) M.layers) s
        have hprio := opaquePrio_unnamed M s v
        have hdirs := M.unnamed_implicitDirs
        change Listing.merge ((layersListing M.unnamed (opaquePrio M.unnamed s v) v
            (M.layers.map Layer.unnamed) : View Listing) s)
          ⟨M.unnamed.implicitDirs.flatMap (nextNames v), [], []⟩
            = Listing.merge ((layersListing M (opaquePrio M s v) v M.layers : View Listing) s)
          ⟨M.implicitDirs.flatMap (nextNames v), [], []⟩
        rw [hprio, hdirs, hlayers]
  have hwrite : (writeNames M.unnamed v : View (List Name)) = writeNames M v := rfl
  rw [listing, listing, collectChildren, collectChildren, hwrite, View.bind_apply,
    View.bind_apply, View.bind_apply, View.bind_apply, hlower]

/-! ### Attributes and reads -/

/-- **The attributes** do not depend on the files of the archives. -/
theorem attr_unnamed : attr M.unnamed s v = attr M s v := by
  have hlookup : (resolve M.unnamed v : View ResolveResult) s
      = ((resolve M v : View ResolveResult) s).unnamed := lookup_unnamed M s v
  rw [attr, attr, vfsGetattr, vfsGetattr]
  split
  · rfl
  · rw [View.bind_apply, View.bind_apply, hlookup]
    cases (resolve M v : View ResolveResult) s with
    | zipEntry L Z e =>
        cases e with
        | none => rfl
        | some e => rfl
    | _ => rfl

/-- The bytes that a read from the path `v` of the mount yields, none where it fails. -/
def readAt (w : World) (size off : ℕ) : Bytes :=
  match vfsOpen M v ⟨.rdonly, false, false, false, false⟩ w with
  | (.ok (some file), w') => bytesOf (vfsRead file size off w').1
  | _ => []

/-- A read of an entry over the quiet stream. -/
theorem readZipEntry_quiet (src : ByteSource) (dataOffset len size off : ℕ) :
    bytesOf (readZipEntry ⟨src.quiet, dataOffset, len⟩ size off)
      = bytesOf (readZipEntry ⟨src, dataOffset, len⟩ size off) := by
  rw [readZipEntry, readZipEntry]
  split
  · dsimp only
    split <;> rfl
  · rfl

/-- Opening an entry of an archive for reading. -/
theorem vfsOpen_zipEntry {w : World} (hw : w.Clear) {L : Layer} {Z : ZipIndex} {e : ZipEntry}
    (h : lookup M w.state v = .zipEntry L Z (some e)) :
    vfsOpen M v ⟨.rdonly, false, false, false, false⟩ w
      = if e.isDir then (.ok none, w)
        else if e.stored then (.ok (some (.zip ⟨Z.src, e.dataOffset, e.size⟩)), w)
        else (.error .eio, w) := by
  have hhit : (hitIsDir true (.zipEntry L Z (some e)) : Prog World Errno Bool) w
      = (.ok e.isDir, w) := by
    cases hdir : e.isDir <;> simp [hitIsDir, ResolveResult.isVirtualDir, hdir]
  have hthere : ¬ (ResolveResult.zipEntry L Z (some e)).isNone = true := Bool.false_ne_true
  rw [vfsOpen, Prog.bind_of_ok (resolve_run M hw v), h, if_neg hthere, Prog.bind_of_ok hhit]
  cases e.isDir with
  | true => rfl
  | false =>
      rw [if_neg Bool.false_ne_true, if_neg Bool.false_ne_true,
        if_neg (show ¬ OpenFlags.wantWrite ⟨.rdonly, false, false, false, false⟩ = true by decide),
        openForRead, openZipEntry]
      cases e.stored with
      | true => rfl
      | false => rfl

/-- **What is read** does not depend on the files of the archives. -/
theorem readAt_unnamed {w : World} (hw : w.Clear) (size off : ℕ) :
    readAt M.unnamed v w size off = readAt M v w size off := by
  have hlookup := lookup_unnamed M w.state v
  rw [readAt, readAt]
  cases hrr : lookup M w.state v with
  | zipEntry L Z e =>
      cases e with
      | none =>
          rw [vfsOpen, vfsOpen, Prog.bind_of_ok (resolve_run M.unnamed hw v),
            Prog.bind_of_ok (resolve_run M hw v), hlookup, hrr]
          rfl
      | some e =>
          rw [hrr] at hlookup
          rw [vfsOpen_zipEntry M v hw hrr, vfsOpen_zipEntry M.unnamed v hw hlookup]
          cases e.isDir with
          | true => rfl
          | false =>
              cases e.stored with
              | false => rfl
              | true =>
                  have hread := readZipEntry_quiet Z.src e.dataOffset e.size size off
                  rw [if_neg Bool.false_ne_true, if_neg Bool.false_ne_true, if_pos rfl, if_pos rfl]
                  dsimp only
                  rw [vfsRead, vfsRead]
                  unfold act
                  cases w.fate 0 with
                  | some err => rfl
                  | none => exact hread
  | _ =>
      rw [vfsOpen, vfsOpen, Prog.bind_of_ok (resolve_run M.unnamed hw v),
        Prog.bind_of_ok (resolve_run M hw v), hlookup, hrr]
      rfl

/-- A file of an archive that is mounted alone. -/
theorem lookup_zip {M : Mount} {s : VfsState} {L : Layer} {Z : ZipIndex} {e : ZipEntry} {v : Path}
    (hwl : M.writelayer = none) (hflat : M.flattenSymlinks = false) (hlayers : M.layers = [L])
    (htype : L.type = .zip Z) (hcov : layerCovers L v = true) (hmask : layerMasked L v = false)
    (he : Z.entry (sourceRel L v) = some e) : lookup M s v = .zipEntry L Z (some e) := by
  have hlayer : (resolveLayer M L v : View (Option ResolveResult)) s
      = some (.zipEntry L Z (some e)) := by
    rw [resolveLayer, hcov, hmask, htype]
    dsimp only
    rw [he, hflat]
    rfl
  rw [lookup, resolve, if_pos hwl, hlayers, List.reverse_singleton, resolveLayers, View.bind_apply,
    hlayer]
  rfl

/-! ### Two mounts -/

/-- The state a mount starts in does not depend on the files of the archives. -/
theorem init_unnamed : init M.unnamed = init M := by
  let seed : Layer → Prog World Errno Unit := fun L =>
    if L.isKept then mutate fun s =>
      { s with kept := Function.update s.kept L.priority (seedKeptMasks s.disk L) }
    else pure ()
  have hseed : ∀ L : Layer, seed L.unnamed = seed L := by
    intro L
    cases hkept : L.isKept with
    | false => simp [seed, hkept]
    | true =>
        -- a kept folder is no archive
        have htype : L.type = .dir := by
          rw [Layer.isKept, Bool.and_eq_true, Layer.isDirLayer] at hkept
          split at hkept
          · assumption
          · simp at hkept
        rw [L.unnamed_of_dir htype]
  have hall : ∀ layers : List Layer, (layers.map Layer.unnamed).forM seed = layers.forM seed := by
    intro layers
    induction layers with
    | nil => rfl
    | cons L layers ih => exact congrArg₂ (fun p q => p >>= fun _ => q) (hseed L) ih
  exact congrArg (fun p => makeWritelayer M >>= fun _ =>
    mutate (seedMasksFromWritelayer M) >>= fun _ => p) (hall M.layers)

/-- **Two mounts answer alike**: they start in the same state, and whatever the state, what is looked
up is the same but for the file of an archive, the same names are listed, the attributes are the
same and the same bytes are read. -/
structure SameServed (M' M : Mount) : Prop where
  mounted : ∀ d fate blind, mounted M' d fate blind = mounted M d fate blind
  lookup : ∀ s v, (lookup M' s v).unnamed = (lookup M s v).unnamed
  listing : ∀ s v, listing M' s v = listing M s v
  attr : ∀ s v, attr M' s v = attr M s v
  read : ∀ w : World, w.Clear → ∀ v size off, readAt M' v w size off = readAt M v w size off

/-- **Two mounts that differ in the files of archives answer alike.** -/
theorem sameServed_of_unnamed {M' M : Mount} (h : M'.unnamed = M.unnamed) : SameServed M' M where
  mounted d fate blind := by
    rw [VidyaGodFS.mounted, VidyaGodFS.mounted, ← init_unnamed, h, init_unnamed]
  lookup s v := by rw [← lookup_unnamed, ← lookup_unnamed, h]
  listing s v := by rw [← listing_unnamed, ← listing_unnamed M, h]
  attr s v := by rw [← attr_unnamed, ← attr_unnamed M, h]
  read w hw v size off := by rw [← readAt_unnamed M' v hw, ← readAt_unnamed M v hw, h]

end VidyaGodFS
