/-
**A delta chain is its last version.**

A chain of deltas, each generated from one version of an archive to the next, stands for the bytes
of the last version.  Mounted, it is told from one archive of those bytes neither by looking up a
path, nor by listing a directory, nor by reading.

Main definitions:

* `ByteSource.ReadsAs` — a stream holds the bytes, and nothing comes past their end;
* `Libzip.OfBytes` — what the library lists depends on the bytes of the archive only;
* `DeltaOf`, `Versions` — the files of the chain hold the first version and the deltas to the next.

Main results:

* `buildZipIndex_same` — streams of the same bytes are indexed alike;
* `streams_of_versions` — the chain composes to its last version;
* `chain_is_archive` — **the chain is served as one archive.**
-/

import VidyaGodFS.ChainRun
import VidyaGodFS.DeltaRoundTrip
import VidyaGodFS.Served
import VidyaGodFS.SpecMount
import VidyaGodFS.StackMasks
import VidyaGodFS.ZipStored

set_option relaxedAutoImplicit false
set_option autoImplicit false

namespace VidyaGodFS

open Posix

variable {ε σ : Type}

/-! ### Programs with the same outcome -/

/-- Whatever the clock, both programs fail alike or yield results that `R` relates. -/
def SameOutcome {α β : Type} (R : α → β → Prop) (p : Prog ℕ ε α) (q : Prog ℕ ε β) : Prop :=
  ∀ t t', (∃ a b, (p t).1 = .ok a ∧ (q t').1 = .ok b ∧ R a b) ∨
    ∃ e, (p t).1 = .error e ∧ (q t').1 = .error e

namespace SameOutcome

variable {α β γ δ : Type}

theorem pure {R : α → β → Prop} {a : α} {b : β} (h : R a b) :
    SameOutcome R (Pure.pure a : Prog ℕ ε α) (Pure.pure b) :=
  fun _ _ => Or.inl ⟨a, b, rfl, rfl, h⟩

theorem bind {R : α → β → Prop} {Q : γ → δ → Prop} {p : Prog ℕ ε α} {q : Prog ℕ ε β}
    {f : α → Prog ℕ ε γ} {g : β → Prog ℕ ε δ} (h : SameOutcome R p q)
    (hf : ∀ a b, R a b → SameOutcome Q (f a) (g b)) : SameOutcome Q (p >>= f) (q >>= g) := by
  intro t t'
  rcases hp : p t with ⟨e | a, t₁⟩
  · rcases h t t' with ⟨a, _, ha, _⟩ | ⟨e', he, he'⟩
    · rw [hp] at ha
      simp at ha
    · rw [hp] at he
      obtain rfl := Except.error.inj he
      rcases hq : q t' with ⟨e' | b, t₂⟩
      · rw [hq] at he'
        obtain rfl := Except.error.inj he'
        rw [Prog.bind_of_error hp, Prog.bind_of_error hq]
        exact Or.inr ⟨_, rfl, rfl⟩
      · rw [hq] at he'
        simp at he'
  · rcases h t t' with ⟨a', b, ha, hb, hab⟩ | ⟨e', he, _⟩
    · rw [hp] at ha
      obtain rfl := Except.ok.inj ha
      rcases hq : q t' with ⟨e' | b', t₂⟩
      · rw [hq] at hb
        simp at hb
      · rw [hq] at hb
        obtain rfl := Except.ok.inj hb
        rw [Prog.bind_of_ok hp, Prog.bind_of_ok hq]
        exact hf a b' hab t₁ t₂
    · rw [hp] at he
      simp at he

theorem ite {R : α → β → Prop} {c : Prop} [Decidable c] {p p' : Prog ℕ ε α} {q q' : Prog ℕ ε β}
    (h : c → SameOutcome R p q) (h' : ¬ c → SameOutcome R p' q') :
    SameOutcome R (if c then p else p') (if c then q else q') := by
  by_cases hc : c
  · rw [if_pos hc, if_pos hc]
    exact h hc
  · rw [if_neg hc, if_neg hc]
    exact h' hc

end SameOutcome

/-! ### Streams of the same bytes -/

/-- **The stream holds the bytes `content`**: a read yields those it asks for, as many as there are,
and none past the end, where it may fail as well. -/
structure ByteSource.ReadsAs (src : ByteSource) (content : Bytes) : Prop where
  size_eq : src.size = content.length
  read : ∀ t n off, bytesOf (src.pread t n off) = slice content off n

/-- What the library lists depends on the bytes of the archive only. -/
def Libzip.OfBytes (lib : Libzip ε) : Prop :=
  ∀ (content : Bytes) (src src' : ByteSource), src.ReadsAs content → src'.ReadsAs content →
    SameOutcome Eq (lib src) (lib src')

/-- A buffer reads as its bytes. -/
theorem memByteSource_readsAs (data : Bytes) (h : data.length < 2 ^ 64) :
    (memByteSource data h).ReadsAs data := ⟨rfl, fun _ _ _ => rfl⟩

namespace ByteSource.ReadsAs

variable {src src' : ByteSource} {content : Bytes}

theorem quiet_eq (h : src.ReadsAs content) (h' : src'.ReadsAs content) : src.quiet = src'.quiet :=
  quiet_congr (h.size_eq.trans h'.size_eq.symm) fun t n off => by rw [h.read, h'.read]

theorem preadAllLoop_eq (h : src.ReadsAs content) :
    ∀ (fuel n off : ℕ) (done : Bytes) (t : ℕ), n ≤ fuel →
      ((src.preadAllLoop fuel n off done : Prog ℕ ε _) t).1
        = .ok (if (slice content off n).length = n then some (done ++ slice content off n)
            else none) := by
  have hlt : content.length < 2 ^ 64 := h.size_eq ▸ src.size_lt
  intro fuel
  induction fuel with
  | zero =>
      intro n off done t hn
      obtain rfl : n = 0 := by omega
      simp [preadAllLoop]
  | succ fuel ih =>
      intro n off done t hn
      rcases Nat.eq_zero_or_pos n with rfl | hpos
      · simp [preadAllLoop]
      · have hread := h.read t n off
        have hlen := length_slice content off n
        have hstep : (src.read n off : Prog ℕ ε _) t = (.ok (src.pread t n off), t + 1) := rfl
        rw [preadAllLoop, if_neg (by omega), Prog.bind_of_ok hstep]
        -- nothing came, or as many bytes as there are
        rcases hres : src.pread t n off with e | _ | ⟨b, bs⟩
        · rw [hres, bytesOf] at hread
          rw [← hread, if_neg (by simpa using hpos.ne)]
          rfl
        · rw [hres, bytesOf] at hread
          rw [← hread, if_neg (by simpa using hpos.ne)]
          rfl
        · rw [hres, bytesOf] at hread
          dsimp only
          rw [hread]
          have hk : 0 < (slice content off n).length := by
            rw [← hread, List.length_cons]
            omega
          generalize hkn : (slice content off n).length = k at hk hlen ⊢
          rw [add64_eq (by omega), ih (n - k) (off + k) (done ++ slice content off n) (t + 1)
            (by omega), length_slice]
          by_cases hfull : k = n
          · rw [if_pos (by omega), if_pos hfull, hfull, Nat.sub_self, slice_zero, List.append_nil]
          · rw [if_neg (by omega), if_neg hfull]

/-- An exact read succeeds where the bytes are there. -/
theorem preadAll_eq (h : src.ReadsAs content) (n off t : ℕ) :
    ((src.preadAll n off : Prog ℕ ε _) t).1
      = .ok (if (slice content off n).length = n then some (slice content off n) else none) := by
  rw [preadAll, h.preadAllLoop_eq n n off [] t le_rfl, List.nil_append]

theorem preadAll_same (h : src.ReadsAs content) (h' : src'.ReadsAs content) (n off : ℕ) :
    SameOutcome (ε := ε) Eq (src.preadAll n off) (src'.preadAll n off) := by
  intro t t'
  exact Or.inl ⟨_, _, h.preadAll_eq n off t, h'.preadAll_eq n off t', rfl⟩

end ByteSource.ReadsAs

section Index

variable {src src' : ByteSource} {content : Bytes}

theorem findCentralDir_same (h : src.ReadsAs content) (h' : src'.ReadsAs content) :
    SameOutcome (ε := ε) Eq (findCentralDir src) (findCentralDir src') := by
  rw [findCentralDir, findCentralDir, h.size_eq, h'.size_eq]
  refine SameOutcome.ite (fun _ => SameOutcome.pure rfl) fun _ => ?_
  refine SameOutcome.bind (h.preadAll_same h' _ _) fun buf buf' heq => ?_
  subst heq
  cases buf with
  | none => exact SameOutcome.pure rfl
  | some buf =>
      dsimp only
      split
      · exact SameOutcome.pure rfl
      · refine SameOutcome.ite (fun _ => SameOutcome.ite (fun _ => SameOutcome.pure rfl) fun _ => ?_)
          fun _ => SameOutcome.pure rfl
        refine SameOutcome.bind (h.preadAll_same h' _ _) fun loc loc' heq => ?_
        subst heq
        cases loc with
        | none => exact SameOutcome.pure rfl
        | some loc =>
            refine SameOutcome.ite (fun _ => SameOutcome.pure rfl) fun _ => ?_
            refine SameOutcome.bind (h.preadAll_same h' _ _) fun z64 z64' heq => ?_
            subst heq
            cases z64 with
            | none => exact SameOutcome.pure rfl
            | some z64 =>
                exact SameOutcome.ite (fun _ => SameOutcome.pure rfl) fun _ => SameOutcome.pure rfl

theorem recordOffset_same (h : src.ReadsAs content) (h' : src'.ReadsAs content) (hdr : Bytes)
    (pos : ℕ) : SameOutcome (ε := ε) Eq (recordOffset src hdr pos) (recordOffset src' hdr pos) := by
  rw [recordOffset, recordOffset]
  refine SameOutcome.ite (fun _ => ?_) fun _ => SameOutcome.pure rfl
  refine SameOutcome.bind (h.preadAll_same h' _ _) fun extra extra' heq => ?_
  subst heq
  cases extra with
  | none => exact SameOutcome.pure rfl
  | some extra => exact SameOutcome.pure rfl

theorem walkRecords_same (h : src.ReadsAs content) (h' : src'.ReadsAs content)
    (cb : σ → Bytes → ℕ → ℕ → σ × Bool) : ∀ (n pos : ℕ) (s : σ),
      SameOutcome (ε := ε) Eq (walkRecords src cb n pos s) (walkRecords src' cb n pos s) := by
  intro n
  induction n with
  | zero => exact fun _ _ => SameOutcome.pure rfl
  | succ n ih =>
      intro pos s
      refine SameOutcome.bind (h.preadAll_same h' _ _) fun hdr hdr' heq => ?_
      subst heq
      cases hdr with
      | none => exact SameOutcome.pure rfl
      | some hdr =>
          refine SameOutcome.ite (fun _ => SameOutcome.pure rfl) fun _ => ?_
          refine SameOutcome.bind (h.preadAll_same h' _ _) fun name name' heq => ?_
          subst heq
          cases name with
          | none => exact SameOutcome.pure rfl
          | some name =>
              refine SameOutcome.bind (recordOffset_same h h' hdr pos) fun lh lh' heq => ?_
              subst heq
              exact SameOutcome.ite (fun _ => ih _ _) fun _ => SameOutcome.pure rfl

theorem centralDirOffsets_same (h : src.ReadsAs content) (h' : src'.ReadsAs content) :
    SameOutcome (ε := ε) Eq (centralDirOffsets src) (centralDirOffsets src') := by
  refine SameOutcome.bind (R := Eq) ?_ fun out out' heq => SameOutcome.pure (by rw [heq])
  refine SameOutcome.bind (findCentralDir_same h h') fun found found' heq => ?_
  subst heq
  cases found with
  | none => exact SameOutcome.pure rfl
  | some found => exact walkRecords_same h h' _ _ _ _

theorem storedOffset_same (h : src.ReadsAs content) (h' : src'.ReadsAs content)
    (lhOffsets : List (Path × ℕ)) (vrel : Path) : SameOutcome (ε := ε) Eq
      (storedOffset src lhOffsets vrel) (storedOffset src' lhOffsets vrel) := by
  rw [storedOffset, storedOffset]
  cases lhOffsets.lookup vrel with
  | none => exact SameOutcome.pure rfl
  | some lhOffset =>
      refine SameOutcome.bind (R := Eq) ?_ fun doff doff' heq => SameOutcome.pure (by rw [heq])
      refine SameOutcome.bind (h.preadAll_same h' _ _) fun lh lh' heq => ?_
      subst heq
      cases lh with
      | none => exact SameOutcome.pure rfl
      | some lh =>
          exact SameOutcome.ite (fun _ => SameOutcome.pure rfl) fun _ => SameOutcome.pure rfl

theorem addStats_same (h : src.ReadsAs content) (h' : src'.ReadsAs content)
    (lhOffsets : List (Path × ℕ)) : ∀ (stats : List (Option ZipStat)) (Z Z' : ZipIndex),
      Z.quiet = Z'.quiet → SameOutcome (ε := ε) (fun Z Z' => Z.quiet = Z'.quiet)
        (addStats src lhOffsets stats Z) (addStats src' lhOffsets stats Z') := by
  have hadd : ∀ (Z Z' : ZipIndex) (e : ZipEntry), Z.quiet = Z'.quiet →
      (Z.add e).quiet = (Z'.add e).quiet := by
    intro Z Z' e hZ
    exact congrArg (ZipIndex.add · e) hZ
  intro stats
  induction stats with
  | nil => exact fun Z Z' hZ => SameOutcome.pure hZ
  | cons st stats ih =>
      intro Z Z' hZ
      rw [addStats, addStats]
      cases st.bind fun st => st.name.map fun raw => (raw, st) with
      | none =>
          exact SameOutcome.bind (R := fun Z Z' => Z.quiet = Z'.quiet) (SameOutcome.pure hZ) ih
      | some named =>
          obtain ⟨raw, st⟩ := named
          refine SameOutcome.bind (R := fun Z Z' => Z.quiet = Z'.quiet) ?_ ih
          rw [addStat, addStat]
          refine SameOutcome.ite (fun _ => SameOutcome.pure hZ) fun _ =>
            SameOutcome.ite (fun _ => SameOutcome.pure (hadd Z Z' _ hZ)) fun _ =>
              SameOutcome.ite (fun _ => ?_) fun _ => SameOutcome.pure (hadd Z Z' _ hZ)
          refine SameOutcome.bind (storedOffset_same h h' _ _) fun off off' heq => ?_
          subst heq
          exact SameOutcome.pure (hadd Z Z' _ hZ)

/-- **Streams of the same bytes are indexed alike.** -/
theorem buildZipIndex_same {lib : Libzip ε} (hlib : lib.OfBytes) (h : src.ReadsAs content)
    (h' : src'.ReadsAs content) :
    SameOutcome (fun Z Z' => Z.map ZipIndex.quiet = Z'.map ZipIndex.quiet)
      (buildZipIndex lib src) (buildZipIndex lib src') := by
  refine SameOutcome.bind (hlib content src src' h h') fun stats stats' heq => ?_
  subst heq
  cases stats with
  | none => exact SameOutcome.pure rfl
  | some stats =>
      refine SameOutcome.bind (centralDirOffsets_same h h') fun lhs lhs' heq => ?_
      subst heq
      have hstart : (⟨src, [], []⟩ : ZipIndex).quiet = (⟨src', [], []⟩ : ZipIndex).quiet := by
        rw [ZipIndex.quiet, ZipIndex.quiet]
        dsimp only
        rw [h.quiet_eq h']
      refine SameOutcome.bind (addStats_same h h' lhs stats _ _ hstart) fun Z Z' hZ => ?_
      refine SameOutcome.pure ?_
      rw [Option.map_some, Option.map_some, hZ]

end Index

/-! ### The versions of a chain -/

/-- **The file is a delta** that was generated from the bytes `base` to the bytes `target`, and
nothing failed. -/
def DeltaOf (z : Zstd) (file : ByteSource) (base target : Bytes) : Prop :=
  ∃ (env : GenEnv) (blockSize : UInt32), env.Faultless ∧ base.length < 2 ^ 63 ∧
    target.length < 2 ^ 63 ∧ FitsIn32 z env base target blockSize ∧
    (generateDelta z env base target blockSize).length < 2 ^ 63 ∧
    file.Delivers (generateDelta z env base target blockSize)

/-- **The files of these layers** hold a first version, and the deltas from each version to the
next; the last version is `v`. -/
inductive Versions (files : HostPath → Option ByteSource) (z : Zstd) (S : Spec) :
    List ℕ → Bytes → Prop
  | zip {m : ℕ} {L : LayerSpec} {f : ByteSource} {v : Bytes} (hL : S.layers[m]? = some L)
      (hf : files L.source = some f) (hv : f.Delivers v) : Versions files z S [m] v
  | delta {ms : List ℕ} {d : ℕ} {L : LayerSpec} {f : ByteSource} {v v' : Bytes}
      (h : Versions files z S ms v) (hL : S.layers[d]? = some L) (hf : files L.source = some f)
      (hv : DeltaOf z f v v') : Versions files z S (ms ++ [d]) v'

section Chain

variable {files : HostPath → Option ByteSource} {z : Zstd} {lib : Libzip Empty}
  {concat : List ByteSource → ByteSource} {S : Spec}

/-- A sound reader, as a stream. -/
theorem DeltaByteSource.StandsFor.readsAs {D : DeltaByteSource} {content : Bytes}
    (h : D.StandsFor z content) : (D.asSource z).ReadsAs content := by
  obtain ⟨under, lits, hsound, rfl⟩ := h
  constructor
  · rw [hsound.length_content]
    exact Nat.mod_eq_of_lt hsound.size_lt
  · intro t n off
    obtain ⟨st', hst', _⟩ := DeltaByteSource.pread_eq hsound n off (cacheOk_nil _ _ t)
    rw [DeltaByteSource.asSource]
    dsimp only
    rw [hst']
    dsimp only [bytesOf]
    rw [slice, List.take_take, Nat.min_self]

/-- **The chain composes to its last version**, up to `2 ^ 24` deltas. -/
theorem streams_of_versions (lib : Libzip Empty) (concat : List ByteSource → ByteSource)
    (hz : z.RoundTrips) {ms : List ℕ} {v : Bytes}
    (h : Versions files z S ms v) : ms.length ≤ 2 ^ 24 + 1 →
      ∃ src, Streams (mountTools files z lib concat) S ms src ∧ src.adds.length + 1 = ms.length ∧
        ((∃ f, src = .plain f ∧ f.Delivers v) ∨ ∃ D, src = .delta D ∧ D.StandsFor z v) := by
  induction h with
  | @zip m L f v hL hf hv =>
      intro _
      refine ⟨.plain f, .zip hL ?_, rfl, Or.inl ⟨f, rfl, hv⟩⟩
      change (files L.source).map Source.plain = _
      rw [hf, Option.map_some]
  | @delta ms d L f v v' h hL hf hv ih =>
      intro hlen
      rw [List.length_append, List.length_singleton] at hlen
      obtain ⟨src, hsrc, hadds, hstands⟩ := ih (by omega)
      obtain ⟨env, blockSize, henv, hbase, htarget, hfits, hsize, hdelivers⟩ := hv
      have hholds : src.Holds z v := by
        rcases hstands with ⟨f, rfl, hfv⟩ | ⟨D, rfl, hD⟩
        · exact hfv
        · refine ⟨?_, hD⟩
          change D.addSources.length + 1 = ms.length at hadds
          omega
      obtain ⟨D, io', hcreate, _, hadds', hD⟩ :=
        (generateDelta_applies hz henv hbase htarget hfits hsize).2 f hdelivers src hholds false
          ⟨0, []⟩
      refine ⟨.delta D, .delta hsrc hL (f := .plain f) ?_ ?_, ?_, Or.inr ⟨D, rfl, hD⟩⟩
      · change (files L.source).map Source.plain = _
        rw [hf, Option.map_some]
      · change ((create z f (some src) false ⟨0, []⟩).1.toOption).map Source.delta = _
        rw [hcreate]
        rfl
      · rw [List.length_append, List.length_singleton, ← hadds]
        exact congrArg (· + 1) hadds'

/-- The zip `Z` takes the place of the delta `L`: it shows where that does. -/
structure InPlaceOf (L Z : LayerSpec) : Prop where
  type : Z.type = .zip
  target : Z.target = L.target
  submounts : Z.submounts = L.submounts
  rw : Z.rw = L.rw

theorem InPlaceOf.mounts {L Z : LayerSpec} (h : InPlaceOf L Z) (hd : L.type = .delta) :
    Z.mounts = L.mounts := by
  rw [LayerSpec.mounts, LayerSpec.mounts, h.submounts, h.target, h.type, hd]
  simp

/-- **A chain is served as one archive.**  Where a zip and up to `2 ^ 24` deltas over it, each
generated from one version to the next, stand one over the other at a target, and no other delta is
based there, the mount answers as the mount with one zip of the last version in their place does:
what is looked up, what is listed and what is read is the same. -/
theorem chain_is_archive (files : HostPath → Option ByteSource) {z : Zstd} (hz : z.RoundTrips)
    {lib : Libzip Empty} (hlib : lib.OfBytes) (concat : List ByteSource → ByteSource) {S : Spec}
    {t : Path} {pre : List ℕ} {last : ℕ} (h : S.HasChain t pre last) (hk : pre.length ≤ 2 ^ 24)
    {v : Bytes} (hv : Versions files z S (pre ++ [last]) v) {L Z : LayerSpec}
    (hL : S.layers[last]? = some L) (hZ : InPlaceOf L Z) {f : ByteSource}
    (hf : files Z.source = some f) (hfv : f.ReadsAs v) (o : MountOptions) :
    SameServed (mountOf (mountTools files z lib concat) (S.collapse pre last Z) o)
      (mountOf (mountTools files z lib concat) S o) := by
  obtain ⟨src, hsrc, hadds, hstands⟩ := streams_of_versions lib concat hz hv
    (by rw [List.length_append, List.length_singleton]; omega)
  obtain ⟨L', hL', _, htarget⟩ := h.archiveAt (Or.inr rfl)
  obtain rfl : L = L' := Option.some_inj.1 (hL.symm.trans hL')
  have hd : L.type = .delta := by
    obtain ⟨D, hD, htype, _⟩ := h.deltas last h.last_mem_tail
    rwa [Option.some_inj.1 (hL.symm.trans hD)]
  -- the chain has a delta, so its stream is a reader
  obtain ⟨D, rfl, hD⟩ : ∃ D, src = .delta D ∧ D.StandsFor z v := by
    refine hstands.resolve_left ?_
    rintro ⟨f, rfl, _⟩
    obtain ⟨_, _, hhead, _⟩ := h.zip
    cases pre with
    | nil => simp at hhead
    | cons a pre => simp [Source.adds] at hadds
  have hopen : (mountTools files z lib concat).openFile Z.source = some (.plain f) := by
    change (files Z.source).map Source.plain = _
    rw [hf, Option.map_some]
  have hindex : SameIndex (mountTools files z lib concat) (.plain f) Z.source (.delta D)
      L.source := by
    change ((buildZipIndex lib f 0).1.toOption.join).map ZipIndex.quiet
      = ((buildZipIndex lib (D.asSource z) 0).1.toOption.join).map ZipIndex.quiet
    rcases buildZipIndex_same hlib hfv hD.readsAs 0 0 with ⟨a, b, ha, hb, hab⟩ | ⟨e, _, _⟩
    · rw [ha, hb]
      exact hab
    · exact e.elim
  have hlayers := stackLayers_collapse h hZ.type hL (hZ.target.trans htarget) (hZ.mounts hd) hZ.rw
    hsrc hopen hindex
  refine sameServed_of_unnamed ?_
  have hunnamed : (stackLayers (mountTools files z lib concat) (S.collapse pre last Z)).map
      Layer.unnamed = (stackLayers (mountTools files z lib concat) S).map Layer.unnamed := by
    rw [← List.forall₂_eq_eq_eq, List.forall₂_map_left_iff, List.forall₂_map_right_iff]
    exact hlayers
  rw [Mount.unnamed, Mount.unnamed]
  simp only [mountOf, hunnamed]

end Chain

/-! ### A chain past the limit -/

/-- An archive of one stored file `f`; two of its 681 bytes are `b` and `c`. -/
def versionOf (b c : UInt8) : Bytes :=
  localBytes [0x66] (List.replicate 479 0 ++ [b, c] ++ List.replicate 200 7)
    ++ centralBytes [0x66] 681 0
    ++ leBytes 4 0x06054b50 ++ leBytes 4 0 ++ leBytes 2 1 ++ leBytes 2 1 ++ leBytes 4 47
    ++ leBytes 4 712 ++ leBytes 2 0

theorem versionOf_length (b c : UInt8) : (versionOf b c).length = 781 := by
  rw [versionOf]
  simp only [List.length_append, localBytes, centralBytes, length_leBytes, List.length_replicate,
    List.length_cons, List.length_nil]

theorem first_scan : scanTarget quietEnv (versionOf 0 0) (versionOf 0 1)
    = some ([⟨KIND_COPY, 511, 0⟩, ⟨KIND_ADD, 1, 0⟩, ⟨KIND_COPY, 269, 512⟩], ⟨[1], 1, true⟩, 0) := by
  have hlen₁ : extendLen (versionOf 0 0) (versionOf 0 1) 0 0 (versionOf 0 0).length ANCHOR = 511 :=
    extendLen_eq (by decide +kernel) (by decide +kernel) (by decide +kernel) (by decide +kernel) _ _
      (by decide) (by decide +kernel)
  have hlen₂ : extendLen (versionOf 0 0) (versionOf 0 1) 512 512 (versionOf 0 0).length ANCHOR
      = 269 :=
    extendLen_eq (by decide +kernel) (by decide +kernel) (by decide +kernel) (by decide +kernel) _ _
      (by decide) (by decide +kernel)
  generalize hindex : anchorIndex (versionOf 0 0) = index
  have h₁ : scanLoop quietEnv (versionOf 0 0) (versionOf 0 1) index 781
      ⟨0, 0, hashWin (versionOf 0 1), 0, 0, [], Spill.empty⟩
        = scanLoop quietEnv (versionOf 0 0) (versionOf 0 1) index 780
          ⟨511, 511, hashWin ((versionOf 0 1).drop 511), 0, 0, [⟨KIND_COPY, 511, 0⟩],
            Spill.empty⟩ :=
    scanLoop_match (k := 780) (p := 0) (o := 0) (n := 511) (b := 0) (r := []) (by decide +kernel)
      (by rw [← hindex]; decide +kernel) hlen₁ rfl (if_pos le_rfl) (if_pos (by decide +kernel))
  have h₂ : scanLoop quietEnv (versionOf 0 0) (versionOf 0 1) index 780
          ⟨511, 511, hashWin ((versionOf 0 1).drop 511), 0, 0, [⟨KIND_COPY, 511, 0⟩], Spill.empty⟩
      = scanLoop quietEnv (versionOf 0 0) (versionOf 0 1) index 779
          ⟨512, 511, hashWin ((versionOf 0 1).drop 512), 0, 0, [⟨KIND_COPY, 511, 0⟩],
            Spill.empty⟩ :=
    scanLoop_roll (k := 779) (p := 511) (by decide +kernel)
      (by rw [← hindex]; decide +kernel) (by decide +kernel)
  have h₃ : scanLoop quietEnv (versionOf 0 0) (versionOf 0 1) index 779
          ⟨512, 511, hashWin ((versionOf 0 1).drop 512), 0, 0, [⟨KIND_COPY, 511, 0⟩], Spill.empty⟩
      = scanLoop quietEnv (versionOf 0 0) (versionOf 0 1) index 778
        ⟨781, 781, hashWin ((versionOf 0 1).drop 512), 0, 0,
          [⟨KIND_COPY, 511, 0⟩, ⟨KIND_ADD, 1, 0⟩] ++ [⟨KIND_COPY, 269, 512⟩], ⟨[1], 1, true⟩⟩ :=
    scanLoop_match (k := 778) (p := 512) (o := 512) (n := 269) (b := 0)
      (r := [⟨KIND_COPY, 511, 0⟩, ⟨KIND_ADD, 1, 0⟩]) (l := ⟨[1], 1, true⟩) (by decide +kernel)
      (by rw [← hindex]; decide +kernel) hlen₂
      (by decide +kernel) (by decide +kernel) (if_neg (by decide +kernel))
  rw [scanTarget, hindex, show (versionOf 0 1).length = 781 by decide +kernel, h₁, h₂, h₃,
    scanLoop_end _ (by decide +kernel)]
  rfl

theorem last_scan : scanTarget quietEnv (versionOf 0 1) (versionOf 2 1)
    = some ([⟨KIND_COPY, 510, 0⟩, ⟨KIND_ADD, 1, 0⟩, ⟨KIND_COPY, 270, 511⟩], ⟨[2], 1, true⟩, 0) := by
  have hlen₁ : extendLen (versionOf 0 1) (versionOf 2 1) 0 0 (versionOf 0 1).length ANCHOR = 510 :=
    extendLen_eq (by decide +kernel) (by decide +kernel) (by decide +kernel) (by decide +kernel) _ _
      (by decide) (by decide +kernel)
  have hlen₂ : extendLen (versionOf 0 1) (versionOf 2 1) 512 512 (versionOf 0 1).length ANCHOR
      = 269 :=
    extendLen_eq (by decide +kernel) (by decide +kernel) (by decide +kernel) (by decide +kernel) _ _
      (by decide) (by decide +kernel)
  generalize hindex : anchorIndex (versionOf 0 1) = index
  have h₁ : scanLoop quietEnv (versionOf 0 1) (versionOf 2 1) index 781
      ⟨0, 0, hashWin (versionOf 2 1), 0, 0, [], Spill.empty⟩
        = scanLoop quietEnv (versionOf 0 1) (versionOf 2 1) index 780
          ⟨510, 510, hashWin ((versionOf 2 1).drop 510), 0, 0, [⟨KIND_COPY, 510, 0⟩],
            Spill.empty⟩ :=
    scanLoop_match (k := 780) (p := 0) (o := 0) (n := 510) (b := 0) (r := []) (by decide +kernel)
      (by rw [← hindex]; decide +kernel) hlen₁ rfl (if_pos le_rfl) (if_pos (by decide +kernel))
  have h₂ : scanLoop quietEnv (versionOf 0 1) (versionOf 2 1) index 780
          ⟨510, 510, hashWin ((versionOf 2 1).drop 510), 0, 0, [⟨KIND_COPY, 510, 0⟩], Spill.empty⟩
      = scanLoop quietEnv (versionOf 0 1) (versionOf 2 1) index 779
          ⟨511, 510, hashWin ((versionOf 2 1).drop 511), 0, 0, [⟨KIND_COPY, 510, 0⟩],
            Spill.empty⟩ :=
    scanLoop_roll (k := 779) (p := 510) (by decide +kernel) (by rw [← hindex]; decide +kernel)
      (by decide +kernel)
  have h₃ : scanLoop quietEnv (versionOf 0 1) (versionOf 2 1) index 779
          ⟨511, 510, hashWin ((versionOf 2 1).drop 511), 0, 0, [⟨KIND_COPY, 510, 0⟩], Spill.empty⟩
      = scanLoop quietEnv (versionOf 0 1) (versionOf 2 1) index 778
          ⟨512, 510, hashWin ((versionOf 2 1).drop 512), 0, 0, [⟨KIND_COPY, 510, 0⟩],
            Spill.empty⟩ :=
    scanLoop_roll (k := 778) (p := 511) (by decide +kernel) (by rw [← hindex]; decide +kernel)
      (by decide +kernel)
  have h₄ : scanLoop quietEnv (versionOf 0 1) (versionOf 2 1) index 778
          ⟨512, 510, hashWin ((versionOf 2 1).drop 512), 0, 0, [⟨KIND_COPY, 510, 0⟩], Spill.empty⟩
      = scanLoop quietEnv (versionOf 0 1) (versionOf 2 1) index 777
        ⟨781, 781, hashWin ((versionOf 2 1).drop 512), 0, 0,
          [⟨KIND_COPY, 510, 0⟩, ⟨KIND_ADD, 1, 0⟩] ++ [⟨KIND_COPY, 270, 511⟩], ⟨[2], 1, true⟩⟩ :=
    scanLoop_match (k := 777) (p := 512) (o := 512) (n := 269) (b := 1)
      (r := [⟨KIND_COPY, 510, 0⟩, ⟨KIND_ADD, 1, 0⟩]) (l := ⟨[2], 1, true⟩) (by decide +kernel)
      (by rw [← hindex]; decide +kernel) hlen₂ (by decide +kernel) (by decide +kernel)
      (if_neg (by decide +kernel))
  rw [scanTarget, hindex, versionOf_length, h₁, h₂, h₃, h₄, scanLoop_end _ (by decide +kernel)]
  rfl

/-- The deltas from the first version to the second, from the second to itself, and from it to the
third. -/
def firstFile : DeltaFile :=
  deltaFileOf (versionOf 0 0) (versionOf 0 1) 0
    [⟨KIND_COPY, 511, 0⟩, ⟨KIND_ADD, 1, 0⟩, ⟨KIND_COPY, 269, 512⟩] [⟨0, 10, 1⟩] (storedFrame [1])

def sameFile : DeltaFile :=
  deltaFileOf (versionOf 0 1) (versionOf 0 1) 0 [⟨KIND_COPY, 781, 0⟩] [] []

def lastFile : DeltaFile :=
  deltaFileOf (versionOf 0 1) (versionOf 2 1) 0
    [⟨KIND_COPY, 510, 0⟩, ⟨KIND_ADD, 1, 0⟩, ⟨KIND_COPY, 270, 511⟩] [⟨0, 10, 1⟩] (storedFrame [2])

/-- The segment tables of the three, with their frames. -/
def chainTables : List (Bytes × Bytes) :=
  [(firstFile.segRaw, [40, 181, 47, 253, 32, 51, 253, 0, 0, 184, 0, 255, 1, 0, 1, 1, 0, 13, 1, 0, 0,
      0, 0, 0, 0, 0, 2, 0, 0, 0, 0, 0, 0, 2, 0, 160, 27, 7, 32, 2]),
    (sameFile.segRaw, [40, 181, 47, 253, 32, 17, 85, 0, 0, 32, 0, 13, 3, 0, 1, 0, 7, 32, 2]),
    (lastFile.segRaw, [40, 181, 47, 253, 32, 51, 253, 0, 0, 184, 0, 254, 1, 0, 1, 1, 0, 14, 1, 0, 0,
      0, 0, 0, 0, 255, 1, 0, 0, 0, 0, 0, 0, 2, 0, 160, 27, 7, 32, 2])]

def chainZstd : Zstd := packingZstd chainTables

theorem chainZstd_roundTrips : chainZstd.RoundTrips :=
  packingZstd_roundTrips (by decide +kernel) (by decide +kernel)

theorem first_packBlocks : packBlocks chainZstd quietEnv (effectiveBlockSize 0) [1] 1 0 0 []
    Spill.empty = some ([⟨0, 10, 1⟩], ⟨storedFrame [1], 1, true⟩) := by decide +kernel

theorem last_packBlocks : packBlocks chainZstd quietEnv (effectiveBlockSize 0) [2] 1 0 0 []
    Spill.empty = some ([⟨0, 10, 1⟩], ⟨storedFrame [2], 1, true⟩) := by decide +kernel

theorem same_scan : scanTarget quietEnv (versionOf 0 1) (versionOf 0 1)
    = some ([⟨KIND_COPY, 781, 0⟩], Spill.empty, 0) := by
  rw [scanTarget_self (by rw [versionOf_length]; decide), versionOf_length]

/-! The files. -/

/-- A generated file, in memory. -/
theorem deltaOf_memory {z : Zstd} {base target : Bytes} {segs : List RawSeg} {lit out : Spill}
    {polls : ℕ} {blocks : List BlockRec}
    (hscan : scanTarget quietEnv base target = some (segs, lit, polls)) (hok : lit.ok = true)
    (hpack : packBlocks z quietEnv (effectiveBlockSize 0) lit.data lit.data.length 0 polls []
      Spill.empty = some (blocks, out)) (hsegs : segs.length < 2 ^ 32)
    (hlit : lit.data.length ≤ effectiveBlockSize 0)
    (hframe : (z.compress (slice lit.data 0 (effectiveBlockSize 0)) ZLEVEL).length < 2 ^ 32)
    (hblocks : blocks.length < 2 ^ 32) (hb : base.length < 2 ^ 63) (ht : target.length < 2 ^ 63)
    (hlen : ((deltaFileOf base target 0 segs blocks out.data).encode z).length < 2 ^ 63) :
    DeltaOf z (memByteSource ((deltaFileOf base target 0 segs blocks out.data).encode z)
      (hlen.trans (by decide))) base target := by
  have hgen : generateDelta z quietEnv base target 0
      = (deltaFileOf base target 0 segs blocks out.data).encode z :=
    generateDelta_encode quietEnv_faultless hscan hok hpack
  refine ⟨quietEnv, 0, quietEnv_faultless, hb, ht,
    fitsIn32_of hscan hpack hsegs hlit hframe hblocks, ?_, ?_⟩
  · rwa [hgen]
  · rw [hgen]
    exact memByteSource_delivers _ _

theorem firstFile_lt : (firstFile.encode chainZstd).length < 2 ^ 63 := by decide +kernel

theorem sameFile_lt : (sameFile.encode chainZstd).length < 2 ^ 63 := by decide +kernel

theorem lastFile_lt : (lastFile.encode chainZstd).length < 2 ^ 63 := by decide +kernel

theorem versionOf_lt (b c : UInt8) : (versionOf b c).length < 2 ^ 63 := by
  rw [versionOf_length]
  decide

def firstDelta : ByteSource :=
  memByteSource (firstFile.encode chainZstd) (firstFile_lt.trans (by decide))

def sameDelta : ByteSource :=
  memByteSource (sameFile.encode chainZstd) (sameFile_lt.trans (by decide))

def lastDelta : ByteSource :=
  memByteSource (lastFile.encode chainZstd) (lastFile_lt.trans (by decide))

def versionSource (b c : UInt8) : ByteSource :=
  memByteSource (versionOf b c) ((versionOf_lt b c).trans (by decide))

theorem firstDelta_of : DeltaOf chainZstd firstDelta (versionOf 0 0) (versionOf 0 1) :=
  deltaOf_memory first_scan rfl first_packBlocks (by decide) (by decide) (by decide +kernel)
    (by decide) (versionOf_lt 0 0) (versionOf_lt 0 1) firstFile_lt

theorem sameDelta_of : DeltaOf chainZstd sameDelta (versionOf 0 1) (versionOf 0 1) :=
  have hpack : packBlocks chainZstd quietEnv (effectiveBlockSize 0) Spill.empty.data 0 0 0 []
      Spill.empty = some ([], Spill.empty) := rfl
  deltaOf_memory same_scan rfl hpack (by decide) (by decide) (by decide +kernel) (by decide)
    (versionOf_lt 0 1) (versionOf_lt 0 1) sameFile_lt

theorem lastDelta_of : DeltaOf chainZstd lastDelta (versionOf 0 1) (versionOf 2 1) :=
  deltaOf_memory last_scan rfl last_packBlocks (by decide) (by decide) (by decide +kernel)
    (by decide) (versionOf_lt 0 1) (versionOf_lt 2 1) lastFile_lt

/-- A file of the chain fits its fields. -/
theorem chainFile_fits {base target : Bytes} (hb : base.length < 2 ^ 63)
    (ht : target.length < 2 ^ 63) {segs : List RawSeg} {blocks : List BlockRec} {region : Bytes}
    (hsegs : segs.length < 2 ^ 32) (hblocks : blocks.length < 2 ^ 32)
    (hs : ∀ s ∈ segs, s.len < 2 ^ 64 ∧ s.srcOff < 2 ^ 64)
    (hbs : ∀ x ∈ blocks, x.compOff < 2 ^ 64 ∧ x.compLen < 2 ^ 32 ∧ x.uncompLen < 2 ^ 32)
    (hsum : (segs.map RawSeg.len).sum = target.length) :
    (deltaFileOf base target 0 segs blocks region).Fits := by
  obtain ⟨hpos, hlt⟩ := effectiveBlockSize_pos 0
  have h64 : (2 : ℕ) ^ 63 < 2 ^ 64 := by decide
  exact ⟨hpos, hlt, ht.trans h64, hb.trans h64, (fnv1a64 base).toNat_lt, hsegs, hblocks, hs, hbs,
    hsum⟩

theorem firstFile_fits : firstFile.Fits :=
  chainFile_fits (versionOf_lt 0 0) (versionOf_lt 0 1) (by decide) (by decide) (by decide) (by decide)
    (versionOf_length 0 1).symm

theorem sameFile_fits : sameFile.Fits :=
  chainFile_fits (versionOf_lt 0 1) (versionOf_lt 0 1) (by decide) (by decide) (by decide) (by decide)
    (versionOf_length 0 1).symm

theorem lastFile_fits : lastFile.Fits :=
  chainFile_fits (versionOf_lt 0 1) (versionOf_lt 2 1) (by decide) (by decide) (by decide) (by decide)
    (versionOf_length 2 1).symm

/-! The readers. -/

/-- The map of the second version over the first. -/
def middleSegs : List FlatSeg :=
  [⟨0, 511, 0, 0, KIND_COPY⟩, ⟨511, 1, 0, 0, KIND_ADD⟩, ⟨512, 269, 512, 0, KIND_COPY⟩]

theorem composeSegs_same (n : ℕ) : composeSegs middleSegs n [⟨KIND_COPY, 781, 0⟩]
    = .ok (middleSegs.map fun s => { s with targetOff := 0 }) := by
  have hat : segAt middleSegs 0 = 0 := by decide +kernel
  have hcopy : composeCopy middleSegs 0 781
      = .ok (middleSegs.map fun s => { s with targetOff := 0 }) := by
    rfl
  rw [composeSegs, if_neg (by decide)]
  dsimp only
  rw [hat, List.drop_zero, hcopy]
  rfl

theorem composeSegs_last (n : ℕ) : composeSegs middleSegs n
    [⟨KIND_COPY, 510, 0⟩, ⟨KIND_ADD, 1, 0⟩, ⟨KIND_COPY, 270, 511⟩]
      = .ok [⟨0, 510, 0, 0, KIND_COPY⟩, ⟨0, 1, 0, n, KIND_ADD⟩, ⟨0, 1, 0, 0, KIND_ADD⟩,
          ⟨0, 269, 512, 0, KIND_COPY⟩] := by
  have hat : segAt middleSegs 0 = 0 := by decide +kernel
  have hat' : segAt middleSegs 511 = 1 := by decide +kernel
  simp only [composeSegs, hat, hat']
  rfl

/-- The reader of the first delta and of `k` more that change nothing. -/
def chainReader (k : ℕ) : DeltaByteSource where
  baseSrc := versionSource 0 0
  addSources := (firstFile.parsed chainZstd firstDelta).add ::
    List.replicate k (sameFile.parsed chainZstd sameDelta).add
  segs := middleSegs
  targetSize := 781

/-- The reader of those and of the last delta. -/
def lastReader (k : ℕ) : DeltaByteSource where
  baseSrc := versionSource 0 0
  addSources := (chainReader k).addSources ++ [(lastFile.parsed chainZstd lastDelta).add]
  segs := [⟨0, 510, 0, 0, KIND_COPY⟩, ⟨510, 1, 0, (k + 1) % 2 ^ 32, KIND_ADD⟩,
    ⟨511, 1, 0, 0, KIND_ADD⟩, ⟨512, 269, 512, 0, KIND_COPY⟩]
  targetSize := 781

theorem create_first : ∃ io', create chainZstd firstDelta (some (.plain (versionSource 0 0))) false
    ⟨0, []⟩ = (.ok (chainReader 0), io') := by
  obtain ⟨io', hparse⟩ : ∃ io', parseDelta chainZstd firstDelta ⟨0, []⟩
      = (.ok (firstFile.parsed chainZstd firstDelta), io') :=
    parseDelta_encode chainZstd_roundTrips firstFile_fits (memByteSource_delivers _ _) firstFile_lt
      ⟨0, []⟩
  exact ⟨io', create_over_plain hparse rfl (versionOf_length 0 1) rfl⟩

theorem create_same (k : ℕ) : ∃ io', create chainZstd sameDelta (some (.delta (chainReader k))) false
    ⟨0, []⟩ = (.ok (chainReader (k + 1)), io') := by
  obtain ⟨io', hparse⟩ : ∃ io', parseDelta chainZstd sameDelta ⟨0, []⟩
      = (.ok (sameFile.parsed chainZstd sameDelta), io') :=
    parseDelta_encode chainZstd_roundTrips sameFile_fits (memByteSource_delivers _ _) sameFile_lt
      ⟨0, []⟩
  have hplace : placeSegs 0 (middleSegs.map fun s => { s with targetOff := 0 })
      = (middleSegs, 781) := rfl
  have hbase : (chainReader k).targetSize = (sameFile.parsed chainZstd sameDelta).baseSize :=
    (versionOf_length 0 1).symm
  have hcreate := create_over_delta hparse hbase (versionOf_length 0 1)
    (composeSegs_same ((chainReader k).addSources.length % 2 ^ 32)) hplace
  refine ⟨io', hcreate.trans ?_⟩
  rw [chainReader, chainReader, List.replicate_succ']
  rfl

theorem create_last (k : ℕ) : ∃ io', create chainZstd lastDelta (some (.delta (chainReader k))) false
    ⟨0, []⟩ = (.ok (lastReader k), io') := by
  obtain ⟨io', hparse⟩ : ∃ io', parseDelta chainZstd lastDelta ⟨0, []⟩
      = (.ok (lastFile.parsed chainZstd lastDelta), io') :=
    parseDelta_encode chainZstd_roundTrips lastFile_fits (memByteSource_delivers _ _) lastFile_lt
      ⟨0, []⟩
  have hadds : (chainReader k).addSources.length = k + 1 := by
    rw [chainReader, List.length_cons, List.length_replicate]
  have hplace : placeSegs 0 [⟨0, 510, 0, 0, KIND_COPY⟩, ⟨0, 1, 0, (k + 1) % 2 ^ 32, KIND_ADD⟩,
      ⟨0, 1, 0, 0, KIND_ADD⟩, ⟨0, 269, 512, 0, KIND_COPY⟩] = ((lastReader k).segs, 781) := rfl
  have hcompose := composeSegs_last ((chainReader k).addSources.length % 2 ^ 32)
  rw [← hadds] at hplace
  exact ⟨io', create_over_delta hparse (versionOf_length 0 1).symm (versionOf_length 2 1) hcompose
    hplace⟩

/-! The spec. -/

/-- A zip, or a delta over it, at the root. -/
def zipAt (n : Name) : LayerSpec := ⟨.zip, some [n], [], [], [], false⟩

def deltaAt (n : Name) : LayerSpec := ⟨.delta, some [n], [], [], [], false⟩

/-- The first version, its delta, `k` deltas that change nothing, and the last one. -/
def chainOf (k : ℕ) : Spec where
  layers := zipAt "v0.zip" :: deltaAt "first.vgd" ::
    (List.replicate k (deltaAt "same.vgd") ++ [deltaAt "last.vgd"])

def chainFiles (p : HostPath) : Option ByteSource :=
  [(some ["v0.zip"], versionSource 0 0), (some ["first.vgd"], firstDelta),
    (some ["same.vgd"], sameDelta), (some ["last.vgd"], lastDelta),
    (some ["v2.zip"], versionSource 2 1)].lookup p

/-- A library that lists the one file. -/
def oneFileLib : Libzip Empty := fun _ =>
  pure (some [some ⟨some [0x66], some 681, some 0, some 0, none⟩])

theorem oneFileLib_ofBytes : oneFileLib.OfBytes :=
  fun _ _ _ _ _ => SameOutcome.pure rfl

def chainTools : Tools Source :=
  mountTools chainFiles chainZstd oneFileLib fun parts => parts.headD (versionSource 0 0)

theorem chainOf_same {k i : ℕ} (hi : i < k) :
    (chainOf k).layers[i + 2]? = some (deltaAt "same.vgd") := by
  rw [chainOf, List.getElem?_cons_succ, List.getElem?_cons_succ, List.getElem?_append_left (by simpa),
    List.getElem?_replicate_of_lt hi]

theorem chainOf_last (k : ℕ) : (chainOf k).layers[k + 2]? = some (deltaAt "last.vgd") := by
  rw [chainOf, List.getElem?_cons_succ, List.getElem?_cons_succ, List.getElem?_append_right (by simp),
    List.length_replicate, Nat.sub_self]
  rfl

theorem chainOf_length (k : ℕ) : (chainOf k).layers.length = k + 3 := by
  simp [chainOf]

/-- All but the first layer are deltas. -/
theorem chainOf_delta {k i : ℕ} (hi : i < k + 2) :
    ∃ n, (chainOf k).layers[i + 1]? = some (deltaAt n) := by
  rcases i with _ | i
  · exact ⟨_, rfl⟩
  · rcases Nat.lt_or_ge i k with hlt | hge
    · exact ⟨_, chainOf_same hlt⟩
    · obtain rfl : i = k := by omega
      exact ⟨_, chainOf_last i⟩

theorem range_chain (k : ℕ) : List.range (k + 2) ++ [k + 2] = List.range (k + 3) :=
  List.range_succ.symm

theorem mem_tail_range {n d : ℕ} : d ∈ (List.range (n + 1)).tail ↔ 0 < d ∧ d ≤ n := by
  rw [List.range_succ_eq_map, List.tail_cons, List.mem_map]
  constructor
  · rintro ⟨i, hi, rfl⟩
    have := List.mem_range.1 hi
    omega
  · rintro ⟨hpos, hle⟩
    exact ⟨d - 1, List.mem_range.2 (by omega), by omega⟩

theorem chainOf_hasChain (k : ℕ) : (chainOf k).HasChain [] (List.range (k + 2)) (k + 2) := by
  have hat : ∀ i ≤ k + 2, (chainOf k).ArchiveAt [] i := by
    intro i hi
    rcases i with _ | i
    · exact ⟨_, rfl, rfl, rfl⟩
    · obtain ⟨n, hn⟩ := chainOf_delta (k := k) (i := i) (by omega)
      exact ⟨_, hn, rfl, rfl⟩
  refine ⟨?_, ?_, ?_, ?_⟩
  · rw [range_chain]
    refine (List.isChain_range_succ _ _).2 fun i hi => ?_
    exact ⟨[], Nat.lt_succ_self i, hat i (by omega), hat (i + 1) (by omega), fun j hj hj' => by omega⟩
  · exact ⟨0, _, by rw [List.range_succ_eq_map, List.head?_cons], rfl, rfl, rfl⟩
  · intro d hd
    rw [range_chain] at hd
    obtain ⟨hpos, hle⟩ := mem_tail_range.1 hd
    obtain ⟨n, hn⟩ := chainOf_delta (k := k) (i := d - 1) (by omega)
    rw [Nat.sub_add_cancel hpos] at hn
    exact ⟨_, hn, rfl, rfl, Or.inl rfl⟩
  · intro j L hL hd _
    rw [range_chain]
    have hlt := (List.getElem?_eq_some_iff.1 hL).1
    rw [chainOf_length] at hlt
    refine mem_tail_range.2 ⟨Nat.pos_of_ne_zero ?_, by omega⟩
    rintro rfl
    obtain rfl : zipAt "v0.zip" = L := Option.some_inj.1 hL
    simp [zipAt] at hd

theorem versionSource_delivers (b c : UInt8) : (versionSource b c).Delivers (versionOf b c) :=
  memByteSource_delivers _ _

theorem chainOf_versions (k : ℕ) : Versions chainFiles chainZstd (chainOf k)
    (List.range (k + 2) ++ [k + 2]) (versionOf 2 1) := by
  have hsame : ∀ i ≤ k, Versions chainFiles chainZstd (chainOf k) (List.range (i + 2))
      (versionOf 0 1) := by
    intro i
    induction i with
    | zero =>
        intro _
        exact .delta (.zip (L := zipAt "v0.zip") rfl rfl (versionSource_delivers 0 0))
          (L := deltaAt "first.vgd") rfl rfl firstDelta_of
    | succ i ih =>
        intro hi
        rw [List.range_succ]
        exact .delta (ih (by omega)) (chainOf_same (by omega)) rfl sameDelta_of
  exact .delta (hsame k le_rfl) (chainOf_last k) rfl lastDelta_of

theorem chainTools_compose {d : ByteSource} {base : Source} {D : DeltaByteSource}
    (h : ∃ io', create chainZstd d (some base) false ⟨0, []⟩ = (.ok D, io')) :
    chainTools.compose (.plain d) base = some (.delta D) := by
  obtain ⟨io', hD⟩ := h
  change ((create chainZstd d (some base) false ⟨0, []⟩).1.toOption).map Source.delta = _
  rw [hD]
  rfl

theorem chainOf_streams (k : ℕ) : Streams chainTools (chainOf k) (List.range (k + 2) ++ [k + 2])
    (.delta (lastReader k)) := by
  have hsame : ∀ i ≤ k, Streams chainTools (chainOf k) (List.range (i + 2))
      (.delta (chainReader i)) := by
    intro i
    induction i with
    | zero =>
        intro _
        exact .delta (.zip (L := zipAt "v0.zip") rfl rfl) (L := deltaAt "first.vgd") rfl rfl
          (chainTools_compose create_first)
    | succ i ih =>
        intro hi
        rw [List.range_succ]
        exact .delta (ih (by omega)) (chainOf_same (by omega)) rfl (chainTools_compose (create_same i))
  exact .delta (hsame k le_rfl) (chainOf_last k) rfl (chainTools_compose (create_last k))

/-! What is served. -/

theorem chainOf_collapse (k : ℕ) (Z : LayerSpec) :
    (chainOf k).collapse (List.range (k + 2)) (k + 2) Z = ⟨[Z]⟩ := by
  have hdropped : dropped (List.range (k + 2)) (chainOf k).layers = [(deltaAt "last.vgd", k + 2)] := by
    have hsplit : (chainOf k).layers = (zipAt "v0.zip" :: deltaAt "first.vgd" ::
        List.replicate k (deltaAt "same.vgd")) ++ [deltaAt "last.vgd"] := rfl
    have hlen : (zipAt "v0.zip" :: deltaAt "first.vgd" ::
        List.replicate k (deltaAt "same.vgd")).length = k + 2 := by simp
    rw [hsplit, dropped_concat, hlen, if_neg (by simp), dropped, List.filter_eq_nil_iff.2]
    · rfl
    · intro x hx
      have hlt := List.snd_lt_of_mem_zipIdx hx
      rw [hlen] at hlt
      simpa using hlt
  rw [Spec.collapse, hdropped]
  simp

theorem mountTools_index_src {files : HostPath → Option ByteSource} {z : Zstd} {lib : Libzip Empty}
    {concat : List ByteSource → ByteSource} {v : Source} {p : HostPath} {Z : ZipIndex}
    (h : (mountTools files z lib concat).index v p = some Z) : Z.src = v.asSource z :=
  buildZipIndex_src h

theorem lastReader_adds {k : ℕ} :
    (lastReader k).addSources[k + 1]? = some (lastFile.parsed chainZstd lastDelta).add := by
  rw [lastReader, chainReader, List.getElem?_append_right (by simp)]
  simp

/-- **The two files share a key** in the cache of blocks, so both bytes are read from one. -/
theorem lastReader_pread {k : ℕ} (hk : k + 1 = 2 ^ 24) :
    ((lastReader k).pread chainZstd 2 510 ⟨0, [], []⟩).1 = .ok [2, 2] := by
  have hk' : k + 1 = 16777216 := hk
  have hlast := lastReader_adds (k := k)
  rw [hk'] at hlast
  have hfirst : (lastReader k).addSources[0]? = some (firstFile.parsed chainZstd firstDelta).add := rfl
  have hread : readAdd chainZstd 16777216 (lastFile.parsed chainZstd lastDelta).add 1 0 ⟨0, [], []⟩
      = (.ok [2], ⟨1, [(0, [2])], [0]⟩) := by
    rfl
  have hread' : readAdd chainZstd 0 (firstFile.parsed chainZstd firstDelta).add 1 0
      ⟨1, [(0, [2])], [0]⟩ = (.ok [2], ⟨1, [(0, [2])], [0]⟩) := by
    rfl
  have hsegs : (lastReader k).segs = [⟨0, 510, 0, 0, KIND_COPY⟩, ⟨510, 1, 0, 16777216, KIND_ADD⟩,
      ⟨511, 1, 0, 0, KIND_ADD⟩, ⟨512, 269, 512, 0, KIND_COPY⟩] := by
    rw [lastReader, hk']
    rfl
  have hat : segAt (lastReader k).segs 510 = 1 := by
    rw [hsegs]
    decide
  have hseg : (lastReader k).readSeg chainZstd ⟨510, 1, 0, 16777216, KIND_ADD⟩ 0 1 ⟨0, [], []⟩
      = (.ok [2], ⟨1, [(0, [2])], [0]⟩) := by
    rw [DeltaByteSource.readSeg, if_neg (by decide), hlast]
    exact hread
  have hseg' : (lastReader k).readSeg chainZstd ⟨511, 1, 0, 0, KIND_ADD⟩ 0 1 ⟨1, [(0, [2])], [0]⟩
      = (.ok [2], ⟨1, [(0, [2])], [0]⟩) := by
    rw [DeltaByteSource.readSeg, if_neg (by decide), hfirst]
    exact hread'
  have hsize : (lastReader k).targetSize = 781 := rfl
  have hdrop : (lastReader k).segs.drop 1 = [⟨510, 1, 0, 16777216, KIND_ADD⟩,
      ⟨511, 1, 0, 0, KIND_ADD⟩, ⟨512, 269, 512, 0, KIND_COPY⟩] := by rw [hsegs]; rfl
  rw [DeltaByteSource.pread, hat, hsize, hdrop, hsegs, if_neg (by simp),
    DeltaByteSource.preadSegs_turn (by decide) (by decide) (by decide) (by decide) hseg,
    show add64 0 1 = 1 by decide, show add64 510 1 = 511 by decide,
    DeltaByteSource.preadSegs_turn (by decide) (by decide) (by decide) (by decide) hseg']
  rfl

/-- The mount has no writelayer. -/
def chainOptions : MountOptions := ⟨none, true, false, 40⟩

/-- The first version and two deltas are served as the third version. -/
theorem shortChain_is_archive : (chainOf 0).HasChain [] (List.range 2) 2 ∧
    (List.range 2).length ≤ 2 ^ 24 ∧
    SameServed (mountOf chainTools ((chainOf 0).collapse (List.range 2) 2 (zipAt "v2.zip"))
      chainOptions) (mountOf chainTools (chainOf 0) chainOptions) :=
  have hZ : InPlaceOf (deltaAt "last.vgd") (zipAt "v2.zip") := ⟨rfl, rfl, rfl, rfl⟩
  have hf : chainFiles (zipAt "v2.zip").source = some (versionSource 2 1) := rfl
  have hread : (versionSource 2 1).ReadsAs (versionOf 2 1) := memByteSource_readsAs _ _
  ⟨chainOf_hasChain 0, by decide, chain_is_archive chainFiles chainZstd_roundTrips
    oneFileLib_ofBytes _ (chainOf_hasChain 0) (by decide) (chainOf_versions 0) (chainOf_last 0) hZ hf
    hread chainOptions⟩

/-- **A chain past the limit is not served as one archive.**  It has `2 ^ 24 + 1` deltas, and two
neighbouring bytes of its last version come from the first and from the last of them. -/
theorem longChain_not_archive : ∃ k, k + 1 = 2 ^ 24 ∧ chainZstd.RoundTrips ∧ oneFileLib.OfBytes ∧
    (chainOf k).HasChain [] (List.range (k + 2)) (k + 2) ∧
    Versions chainFiles chainZstd (chainOf k) (List.range (k + 2) ++ [k + 2]) (versionOf 2 1) ∧
    (chainOf k).layers[k + 2]? = some (deltaAt "last.vgd") ∧
    InPlaceOf (deltaAt "last.vgd") (zipAt "v2.zip") ∧
    chainFiles (zipAt "v2.zip").source = some (versionSource 2 1) ∧
    (versionSource 2 1).ReadsAs (versionOf 2 1) ∧
    ¬ SameServed
      (mountOf chainTools ((chainOf k).collapse (List.range (k + 2)) (k + 2) (zipAt "v2.zip"))
        chainOptions)
      (mountOf chainTools (chainOf k) chainOptions) := by
  obtain ⟨k, hk⟩ : ∃ k, k + 1 = 2 ^ 24 := ⟨2 ^ 24 - 1, by decide⟩
  refine ⟨k, hk, chainZstd_roundTrips, oneFileLib_ofBytes, chainOf_hasChain k, chainOf_versions k,
    chainOf_last k, ⟨rfl, rfl, rfl, rfl⟩, rfl, memByteSource_readsAs _ _, ?_⟩
  intro h
  let s : VfsState := unseeded Disk.blank
  obtain ⟨Z, hZ, he⟩ : ∃ Z, chainTools.index (.plain (versionSource 2 1)) (zipAt "v2.zip").source
      = some Z ∧ Z.entry ["f"] = some ⟨["f"], 681, false, false, true, 31⟩ := by
    have hentry : ((chainTools.index (.plain (versionSource 2 1)) (zipAt "v2.zip").source).bind
        fun Z => Z.entry ["f"]) = some ⟨["f"], 681, false, false, true, 31⟩ := by decide +kernel
    exact Option.bind_eq_some_iff.1 hentry
  have hZsrc : Z.src = versionSource 2 1 := mountTools_index_src hZ
  have hlook := h.lookup s ["f"]
  rw [chainOf_collapse] at hlook
  have hopen : chainTools.openFile (zipAt "v2.zip").source = some (.plain (versionSource 2 1)) := rfl
  have hzip : (mountOf chainTools ⟨[zipAt "v2.zip"]⟩ chainOptions).layers
      = [⟨.zip Z, some ["v2.zip"], [], [], false, [], 0⟩] := by
    rw [mountOf_layers, stackLayers_zip rfl hopen hZ]
    rfl
  rw [lookup_zip rfl rfl hzip rfl rfl rfl he] at hlook
  cases hA : lookup (mountOf chainTools (chainOf k) chainOptions) s ["f"] with
  | zipEntry L Z' e =>
      rw [hA] at hlook
      have hquiet : Z.quiet = Z'.quiet := (ResolveResult.zipEntry.inj hlook).2.1
      have hclear : World.Clear ⟨s, allowed, allowed⟩ := rfl
      have hrun := resolve_run (mountOf chainTools (chainOf k) chainOptions) hclear ["f"]
      obtain ⟨hL, _, htype⟩ := hA ▸ resolve_fits _ _ _ _ _ hrun
      rw [mountOf_layers, stackLayers_alone (chainOf_hasChain k) (fun n hn => List.mem_range.2 hn)
        (chainOf_length k) (chainOf_last k) (chainOf_streams k)] at hL
      cases hindex : chainTools.index (.delta (lastReader k)) (deltaAt "last.vgd").source with
      | none =>
          rw [hindex] at hL
          simp at hL
      | some index =>
          rw [hindex] at hL
          obtain rfl : L = _ := List.mem_singleton.1 hL
          obtain rfl : index = Z' := by simpa using htype
          have hsrc : index.src = (lastReader k).asSource chainZstd := mountTools_index_src hindex
          have hread := congrArg (fun Z : ZipIndex => Z.src.pread 0 2 510) hquiet
          have hpread : bytesOf (Z.src.pread 0 2 510) = bytesOf (index.src.pread 0 2 510) :=
            Except.ok.inj hread
          rw [hZsrc, hsrc] at hpread
          have hlast : ((lastReader k).asSource chainZstd).pread 0 2 510 = .ok [2, 2] := by
            dsimp only [DeltaByteSource.asSource]
            rw [lastReader_pread hk]
            rfl
          have hzip : (versionSource 2 1).pread 0 2 510 = .ok [2, 1] := by
            rw [versionSource]
            dsimp only [memByteSource]
            rw [show slice (versionOf 2 1) 510 2 = [2, 1] by decide +kernel]
          rw [hlast, hzip] at hpread
          simp [bytesOf] at hpread
  | _ =>
      rw [hA] at hlook
      simp [ResolveResult.unnamed] at hlook

/-! The first version and its delta in other stacks. -/

/-- The first delta, wherever it is mounted, over the first version. -/
theorem byteView_first {st : InitState Source} {L : LayerSpec} {gi : ℕ} {behind : List ℕ} {t : Path}
    (hL : L.type = .delta) (hsource : L.source = some ["first.vgd"]) (hbases : L.bases = [t])
    (hbase : st.baseByTarget t = some (.plain (versionSource 0 0)))
    (hbehind : st.baseLayersByTarget t = behind) :
    byteView chainTools st L gi = some (.delta (chainReader 0), gi :: behind) := by
  have hopen : chainTools.openFile L.source = some (.plain firstDelta) := by rw [hsource]; rfl
  have hjoin : chainTools.joined [.plain (versionSource 0 0)] = .plain (versionSource 0 0) := rfl
  rw [byteView, hopen]
  dsimp only
  rw [if_pos hL, hbases, List.mapM_cons, hbase]
  dsimp only [List.mapM_nil, bind, pure, Option.bind]
  rw [hjoin, chainTools_compose create_first, List.flatMap_cons, List.flatMap_nil, List.append_nil, hbehind]

/-- The zip at the root, and the delta over it. -/
def zipThenDelta : Spec where
  layers := [zipAt "v0.zip", deltaAt "first.vgd"]

/-- The zip at `x`, and a delta at the root that names it as its base. -/
def zipBelowDelta : Spec where
  layers :=
    [⟨.zip, some ["v0.zip"], ["x"], [], [], false⟩,
      ⟨.delta, some ["first.vgd"], [], [["x"]], [], false⟩]

theorem index_v0 : (chainTools.index (.plain (versionSource 0 0)) (some ["v0.zip"])).isSome = true := by
  decide +kernel

theorem index_first :
    (chainTools.index (.delta (chainReader 0)) (some ["first.vgd"])).isSome = true := by
  decide +kernel

theorem zipThenDelta_open : AllOpen chainTools zipThenDelta := by
  intro j L hL _
  match j with
  | 0 =>
      obtain rfl := Option.some_inj.1 hL
      exact ⟨_, _, rfl, fun _ => index_v0⟩
  | 1 =>
      obtain rfl := Option.some_inj.1 hL
      exact ⟨_, _, byteView_first rfl rfl rfl rfl rfl, fun _ => index_first⟩
  | j + 2 => simp [zipThenDelta] at hL

theorem zipBelowDelta_views : (stackBefore chainTools zipBelowDelta 1).baseByTarget ["x"] =
      some (.plain (versionSource 0 0)) ∧
    (stackBefore chainTools zipBelowDelta 1).baseLayersByTarget ["x"] = [0] := by
  obtain ⟨hbase, hbehind, -⟩ := stackStep_views chainTools zipBelowDelta.chainTop
    (stackBefore chainTools zipBelowDelta 0) ⟨.zip, some ["v0.zip"], ["x"], [], [], false⟩ 0
  rw [stackBefore_succ rfl, hbase, hbehind]
  exact ⟨rfl, rfl⟩

theorem zipBelowDelta_open : AllOpen chainTools zipBelowDelta := by
  intro j L hL _
  match j with
  | 0 =>
      obtain rfl := Option.some_inj.1 hL
      exact ⟨_, _, rfl, fun _ => index_v0⟩
  | 1 =>
      obtain rfl := Option.some_inj.1 hL
      exact ⟨_, _, byteView_first rfl rfl rfl zipBelowDelta_views.1 zipBelowDelta_views.2,
        fun _ => index_first⟩
  | j + 2 => simp [zipBelowDelta] at hL

/-- Where both are at the root the zip is left out, and the delta is composed over it. -/
theorem zipThenDelta_surface :
    (stackRun chainTools zipThenDelta).mountedAs 0 = [] ∧
      ∃ (parts : List Source) (q : ℕ) (v : Source) (b : List ℕ), zipThenDelta.Next q 1 ∧
        ViewOf chainTools zipThenDelta q v b ∧ parts[0]? = some v := by
  obtain ⟨hsurf, hover⟩ := archives_surface chainTools zipThenDelta zipThenDelta_open
  obtain ⟨_, parts, _, _, _, _, _, _, hprev⟩ := hover 1 _ rfl rfl
  obtain ⟨q, v, b, hnext, _, hq, hpart⟩ := hprev 0 rfl
  refine ⟨(hsurf 0 _ rfl rfl).2 ⟨1, _, ?_, rfl, rfl⟩, parts, q, v, b, hnext, hq, hpart⟩
  exact ⟨[], by decide, ⟨_, rfl, rfl, rfl⟩, ⟨_, rfl, rfl, rfl⟩, fun j hj hj' => by omega⟩

/-- A zip mounted at `x` is hidden there, by the delta at the root that was built from it. -/
theorem zipBelowDelta_masked : ∃ i ∈ (stackRun chainTools zipBelowDelta).mountedAs 0, ∃ L,
    (stackLayers chainTools zipBelowDelta)[i]? = some L ∧ layerMasked L ["x"] = true := by
  have hzip : zipBelowDelta.layers[0]? = some ⟨.zip, some ["v0.zip"], ["x"], [], [], false⟩ := rfl
  have hdelta : zipBelowDelta.layers[1]? = some ⟨.delta, some ["first.vgd"], [], [["x"]], [], false⟩ := rfl
  have hlater : ∀ {L : LayerSpec} {g : ℕ}, zipBelowDelta.layers[g]? = some L → g < 2 := fun hL =>
    (List.getElem?_eq_some_iff.1 hL).1
  -- neither is folded away: they are at different targets
  have hfolded : ∀ j, ¬ zipBelowDelta.Folded j := by
    rintro j ⟨g, G, ⟨t, hlt, ⟨L, hL, -, ht⟩, ⟨L', hL', -, ht'⟩, -⟩, -, -⟩
    have hg := hlater hL'
    obtain rfl : j = 0 := by omega
    obtain rfl : g = 1 := by omega
    obtain rfl := Option.some_inj.1 (hzip.symm.trans hL)
    obtain rfl := Option.some_inj.1 (hdelta.symm.trans hL')
    exact absurd (ht.trans ht'.symm) (by decide)
  have hsurf : ∀ {j L}, zipBelowDelta.layers[j]? = some L → L.isArchive = true →
      (stackRun chainTools zipBelowDelta).mountedAs j ≠ [] := fun hL ha hnil =>
    hfolded _ ((mountedAs_eq_nil_iff zipBelowDelta_open hL ha).1 hnil)
  obtain ⟨i, hi⟩ : ∃ i, i ∈ (stackRun chainTools zipBelowDelta).mountedAs 0 :=
    List.exists_mem_of_ne_nil _ (hsurf hzip rfl)
  have hhidden := hidden_stackBefore zipBelowDelta_open 2 le_rfl
  rw [show 2 = zipBelowDelta.layers.length from rfl, stackBefore_length] at hhidden
  obtain ⟨L, hL⟩ : ∃ L, (stackLayers chainTools zipBelowDelta)[i]? = some L :=
    ⟨_, List.getElem?_eq_getElem (hhidden.made 0 i hi).2⟩
  have hfrom : zipBelowDelta.BuiltFrom 1 0 := by
    refine .base hdelta rfl List.mem_cons_self ⟨by omega, ⟨⟨_, hzip, rfl, rfl⟩, ?_⟩, fun i _ _ => by omega⟩
    refine Or.inr fun i hi _ => ?_
    obtain rfl : i = 0 := by omega
    decide
  exact ⟨i, hi, L, hL, (layerMasked_iff chainTools zipBelowDelta zipBelowDelta_open 0 i L hi hL ["x"]).2
    ⟨1, _, hdelta, hsurf hdelta rfl, hfrom, ([], []), List.mem_cons_self, List.nil_prefix⟩⟩

end VidyaGodFS
