/-
**The validator and the server.**

Before an archive is mounted the validator looks for a compressed entry, by the methods of the
records.  The server asks for more: the library must say that the entry is neither compressed nor
encrypted, its name as the library has it must be the name of a record as the archive has it, and
the local header of that record must stand where the record says.  An archive without a compressed
record can still fail on the rest, and then it is mounted with files that cannot be opened.

The library may tell of other entries than the walk finds, and may spell their names in another way:
nothing is asked of it here but that it opens the archive.

Main definitions:

* `lastOf` — of the records, or of the entries, of one path the last;
* `Opens` — the library opens the archive;
* `HeaderAt` — a local header stands at an offset;
* `ValidatorAgrees` — what passes the validator can be opened.

Main results:

* `firstCompressedEntry_iff` — **the validator finds a compressed record if there is one**;
* `addStats_entry` — what the index has for a path;
* `validatorAgrees_iff` — **when the validator agrees with the server**.
-/

import VidyaGodFS.ZipPlain

set_option relaxedAutoImplicit false
set_option autoImplicit false

namespace VidyaGodFS

open Posix

variable {ε : Type}

/-! ### The validator -/

theorem callUntil_seekCompressed (l : List Called) :
    callUntil seekCompressed [] l = [] ↔ ∀ c ∈ l, c.method = 0 := by
  induction l with
  | nil => simp [callUntil]
  | cons c l ih =>
      rw [callUntil, List.forall_mem_cons]
      by_cases hm : c.method = 0
      · have hseek : seekCompressed [] c.name c.method c.lhOffset = ([], true) := if_pos hm
        rw [callBack, hseek, if_pos rfl, ih]
        exact ⟨fun h => ⟨hm, h⟩, fun h => h.2⟩
      · have hseek : seekCompressed [] c.name c.method c.lhOffset
            = (if c.name = [] then "(entry)".toList.map Char.toUInt8 else c.name, false) := if_neg hm
        rw [callBack, hseek, if_neg (by simp)]
        constructor
        · intro hnil
          dsimp only at hnil
          split at hnil
          · exact absurd hnil (by decide)
          · rename_i hne
            exact absurd hnil hne
        · exact fun h => absurd h.1 hm

/-- **The validator finds a compressed record if there is one.** -/
theorem firstCompressedEntry_iff {src : ByteSource} {bytes : Bytes} (h : src.Delivers bytes)
    (hend : src.EndsAtSize) {l : List Called} (hall : FindsAll ε src l) (t : ℕ) :
    ∃ r t', (firstCompressedEntry src : Prog ℕ ε _) t = (.ok r, t') ∧
      (r = [] ↔ ∀ c ∈ l, c.method = 0) := by
  obtain ⟨t', hwalk⟩ := hall.until h hend seekCompressed [] t
  refine ⟨callUntil seekCompressed [] l, t', ?_, callUntil_seekCompressed l⟩
  rw [firstCompressedEntry]
  exact Prog.bind_of_ok hwalk

/-! ### What the index has for a path -/

/-- The last of those that have the path `p`. -/
def lastOf {α : Type} (path : α → Path) (l : List α) (p : Path) : Option α :=
  l.reverse.find? fun x => path x = p

/-- The path of a record, by its name in the archive. -/
def Called.path (c : Called) : Path := normalizeVPath c.name

/-- The entries that the library has a name for, each with it. -/
def namedStats (stats : List (Option ZipStat)) : List (Bytes × ZipStat) :=
  stats.filterMap fun st => st.bind fun st => st.name.map fun raw => (raw, st)

/-- The path of an entry, by its name in the library. -/
def statPath (x : Bytes × ZipStat) : Path := normalizeVPath x.1

/-- **A local header stands at `lh`**, and tells where the data is. -/
structure HeaderAt (bytes : Bytes) (lh : ℕ) : Prop where
  inside : lh + 30 ≤ bytes.length
  sig : rd32 bytes lh = 0x04034b50
  placed : add64 lh (30 + rd16 bytes (lh + 26) + rd16 bytes (lh + 28)) ≠ UINT64_MAX

theorem lastOf_cons {α : Type} (path : α → Path) (x : α) (l : List α) (p : Path) :
    lastOf path (x :: l) p = (lastOf path l p).or (if path x = p then some x else none) := by
  rw [lastOf, List.reverse_cons, List.find?_append, lastOf]
  congr 1
  by_cases h : path x = p
  · rw [if_pos h, List.find?_cons_of_pos (by simpa using h)]
  · rw [if_neg h, List.find?_cons_of_neg (by simpa using h), List.find?_nil]

/-- The offset of a record joins the offsets by name. -/
def keepOffset (out : List (Path × ℕ)) (c : Called) : List (Path × ℕ) :=
  if c.path = [] then out else setKey out c.path c.lhOffset

/-- **The offset kept for a path is that of its last record.** -/
theorem lookup_foldl_keepOffset {p : Path} (hp : p ≠ []) (l : List Called) :
    ∀ out : List (Path × ℕ), (l.foldl keepOffset out).lookup p
      = ((lastOf Called.path l p).map Called.lhOffset).or (out.lookup p) := by
  induction l with
  | nil => exact fun _ => rfl
  | cons c l ih =>
      intro out
      rw [List.foldl_cons, ih, lastOf_cons]
      cases lastOf Called.path l p with
      | some c' => rfl
      | none =>
          rw [Option.none_or, Option.map_none, Option.none_or, keepOffset]
          by_cases hc : c.path = p
          · have hne : c.path ≠ [] := fun h => hp (hc.symm.trans h)
            rw [if_pos hc, if_neg hne, lookup_setKey, if_pos hc.symm]
            rfl
          · rw [if_neg hc, Option.map_none, Option.none_or]
            split
            · rfl
            · rw [lookup_setKey, if_neg (Ne.symm hc)]

/-- The offsets are those of the records that the walk finds. -/
theorem centralDirOffsets_findsAll {src : ByteSource} {l : List Called} (hall : FindsAll ε src l)
    (t : ℕ) :
    ∃ t', (centralDirOffsets src : Prog ℕ ε _) t = (.ok (l.foldl keepOffset []), t') := by
  obtain ⟨t', hwalk⟩ := hall _ (fun (out : List (Path × ℕ)) raw (_ : ℕ) lhOffset =>
    (if normalizeVPath raw = [] then out else setKey out (normalizeVPath raw) lhOffset, true))
    (fun _ _ _ _ => rfl) [] t
  refine ⟨t', ?_⟩
  rw [centralDirOffsets]
  exact Prog.bind_of_ok hwalk

/-- The data of an entry is found exactly if its local header is. -/
theorem localDataOffset_iff {src : ByteSource} {bytes : Bytes} (h : src.Delivers bytes)
    (hend : src.EndsAtSize) (lh t : ℕ) :
    ∃ r t', (localDataOffset src lh : Prog ℕ ε ℕ) t = (.ok r, t') ∧
      (r ≠ UINT64_MAX ↔ HeaderAt bytes lh) := by
  obtain ⟨t', hread⟩ := preadAll_bytesAt (ε := ε) h hend 30 lh t
  rw [localDataOffset, Prog.bind_of_ok hread, bytesAt]
  by_cases hin : lh + 30 ≤ bytes.length
  · rw [if_pos (Or.inr hin)]
    dsimp only
    rw [rd32_slice (by omega), Nat.add_zero, rd16_slice (by omega), rd16_slice (by omega)]
    by_cases hsig : rd32 bytes lh = 0x04034b50
    · rw [if_neg (not_not.2 hsig)]
      exact ⟨_, t', rfl, fun hr => ⟨hin, hsig, hr⟩, fun hat => hat.placed⟩
    · rw [if_pos hsig]
      exact ⟨_, t', rfl, fun hr => absurd rfl hr, fun hat => absurd hat.sig hsig⟩
  · rw [if_neg (by omega)]
    exact ⟨_, t', rfl, fun hr => absurd rfl hr, fun hat => absurd hat.inside hin⟩

theorem storedOffset_iff {src : ByteSource} {bytes : Bytes} (h : src.Delivers bytes)
    (hend : src.EndsAtSize) (offsets : List (Path × ℕ)) (p : Path) (t : ℕ) :
    ∃ r t', (storedOffset src offsets p : Prog ℕ ε _) t = (.ok r, t') ∧
      (r.isSome = true ↔ ∃ lh, offsets.lookup p = some lh ∧ HeaderAt bytes lh) := by
  rw [storedOffset]
  cases hlookup : offsets.lookup p with
  | none => exact ⟨none, t, rfl, by simp⟩
  | some lh =>
      obtain ⟨r, t', hrun, hr⟩ := localDataOffset_iff (ε := ε) h hend lh t
      refine ⟨_, t', Prog.bind_of_ok hrun, ?_⟩
      have hsome : (if r = UINT64_MAX then none else some r).isSome = true ↔ HeaderAt bytes lh := by
        rw [← hr]
        split
        · rename_i hmax
          exact ⟨(absurd · Bool.false_ne_true), fun hne => absurd hmax hne⟩
        · rename_i hne
          exact ⟨fun _ => hne, fun _ => rfl⟩
      rw [hsome]
      constructor
      · exact fun hat => ⟨lh, rfl, hat⟩
      · rintro ⟨_, ⟨rfl⟩, hat⟩
        exact hat

/-- What the server needs to open what the library tells of, under the path `p`. -/
def Servable (bytes : Bytes) (offsets : List (Path × ℕ)) (p : Path) (st : ZipStat) : Prop :=
  st.isStored = true ∧ ∃ lh, offsets.lookup p = some lh ∧ HeaderAt bytes lh

/-- The entry `E` of the index is one for `raw` and what the library tells of it. -/
structure EntryOf (bytes : Bytes) (offsets : List (Path × ℕ)) (p : Path) (x : Bytes × ZipStat)
    (E : ZipEntry) : Prop where
  isDir : E.isDir = true ↔ x.1.getLast? = some 47
  stored : E.isDir = false → (E.stored = true ↔ Servable bytes offsets p x.2)

/-- One entry joins the index, under its own path and no other. -/
theorem addStat_entry {src : ByteSource} {bytes : Bytes} (h : src.Delivers bytes)
    (hend : src.EndsAtSize) (offsets : List (Path × ℕ)) (Z : ZipIndex) (raw : Bytes) (st : ZipStat)
    (t : ℕ) :
    ∃ Z' t', (addStat src offsets Z raw st : Prog ℕ ε _) t = (.ok Z', t') ∧
      ∀ p, p ≠ [] → if statPath (raw, st) = p
        then ∃ E, Z'.entry p = some E ∧ EntryOf bytes offsets p (raw, st) E
        else Z'.entry p = Z.entry p := by
  rw [addStat]
  dsimp only
  by_cases hroot : normalizeVPath raw = []
  · rw [if_pos hroot]
    refine ⟨Z, t, rfl, fun p hp => ?_⟩
    rw [if_neg (fun heq => hp (heq.symm.trans hroot))]
  · rw [if_neg hroot]
    have hadd : ∀ e : ZipEntry, e.name = statPath (raw, st) →
        EntryOf bytes offsets e.name (raw, st) e → ∀ p, p ≠ [] →
        if statPath (raw, st) = p
          then ∃ E, (Z.add e).entry p = some E ∧ EntryOf bytes offsets p (raw, st) E
          else (Z.add e).entry p = Z.entry p := by
      intro e hname hof p _
      split
      · rename_i heq
        obtain rfl := heq
        exact ⟨e, by rw [entry_add, if_pos hname.symm], hname ▸ hof⟩
      · rename_i hne
        rw [entry_add, if_neg]
        rw [hname]
        exact fun heq => hne heq.symm
    by_cases hdir : raw.getLast? = some 47
    · rw [if_pos hdir]
      exact ⟨_, t, rfl, hadd _ rfl ⟨⟨fun _ => hdir, fun _ => rfl⟩, (absurd ·.symm Bool.false_ne_true)⟩⟩
    · rw [if_neg hdir]
      by_cases hstored : st.isStored = true
      · obtain ⟨r, t', hrun, hr⟩ := storedOffset_iff (ε := ε) h hend offsets (normalizeVPath raw) t
        rw [if_pos hstored]
        exact ⟨_, t', Prog.bind_of_ok hrun,
          hadd _ rfl ⟨⟨(absurd · Bool.false_ne_true), fun hd => absurd hd hdir⟩,
          fun _ => hr.trans ⟨fun hlh => ⟨hstored, hlh⟩, fun hs => hs.2⟩⟩⟩
      · rw [if_neg hstored]
        exact ⟨_, t, rfl, hadd _ rfl ⟨⟨(absurd · Bool.false_ne_true), fun hd => absurd hd hdir⟩,
          fun _ => ⟨(absurd · Bool.false_ne_true), fun hs => absurd hs.1 hstored⟩⟩⟩

/-- **The index has for a path the entry that the library lists last.** -/
theorem addStats_entry {src : ByteSource} {bytes : Bytes} (h : src.Delivers bytes)
    (hend : src.EndsAtSize) (offsets : List (Path × ℕ)) (stats : List (Option ZipStat)) :
    ∀ (Z : ZipIndex) (t : ℕ), ∃ Z' t', (addStats src offsets stats Z : Prog ℕ ε _) t
        = (.ok Z', t') ∧
      ∀ p, p ≠ [] → match lastOf statPath (namedStats stats) p with
        | none => Z'.entry p = Z.entry p
        | some x => ∃ E, Z'.entry p = some E ∧ EntryOf bytes offsets p x E := by
  induction stats with
  | nil => exact fun Z t => ⟨Z, t, rfl, fun p _ => rfl⟩
  | cons st stats ih =>
      intro Z t
      rw [addStats, namedStats, List.filterMap_cons]
      rcases st.bind fun st => st.name.map fun raw => (raw, st) with _ | ⟨raw, s⟩
      · exact ih Z t
      · obtain ⟨Z₁, t₁, h₁, hentry₁⟩ := addStat_entry (ε := ε) h hend offsets Z raw s t
        obtain ⟨Z', t', h', hentry⟩ := ih Z₁ t₁
        refine ⟨Z', t', (Prog.bind_of_ok h₁).trans h', fun p hp => ?_⟩
        have hfirst := hentry₁ p hp
        have hrest := hentry p hp
        dsimp only
        rw [lastOf_cons, ← namedStats]
        cases hlast : lastOf statPath (namedStats stats) p with
        | some x =>
            rw [hlast] at hrest
            exact hrest
        | none =>
            rw [hlast] at hrest
            dsimp only at hrest
            rw [Option.none_or]
            by_cases hx : statPath (raw, s) = p
            · rw [if_pos hx] at hfirst ⊢
              rw [hrest]
              exact hfirst
            · rw [if_neg hx] at hfirst ⊢
              exact hrest.trans hfirst

/-- The library opens the archive, and tells of its entries. -/
def Opens (lib : Libzip ε) (src : ByteSource) (stats : List (Option ZipStat)) : Prop :=
  ∀ t, ∃ t', lib src t = (.ok (some stats), t')

/-- The index that is built, path by path. -/
theorem buildZipIndex_entry {src : ByteSource} {bytes : Bytes} (h : src.Delivers bytes)
    (hend : src.EndsAtSize) {lib : Libzip ε} {stats : List (Option ZipStat)}
    (hlib : Opens lib src stats) {l : List Called} (hall : FindsAll ε src l) (t : ℕ) :
    ∃ Z t', buildZipIndex lib src t = (.ok (some Z), t') ∧ Z.entry [] = none ∧
      ∀ p, p ≠ [] → match lastOf statPath (namedStats stats) p with
        | none => Z.entry p = none
        | some x => ∃ E, Z.entry p = some E ∧ EntryOf bytes (l.foldl keepOffset []) p x E := by
  obtain ⟨t₁, hopen⟩ := hlib t
  obtain ⟨t₂, hoffsets⟩ := centralDirOffsets_findsAll hall t₁
  obtain ⟨Z, t', hadd, hentry⟩ := addStats_entry (ε := ε) h hend (l.foldl keepOffset []) stats
    ⟨src, [], []⟩ t₂
  obtain ⟨Z', t'', hadd', _, hkeep⟩ := addStats_keeps (ε := ε) src (l.foldl keepOffset []) stats
    ⟨src, [], []⟩ t₂
  obtain ⟨rfl, -⟩ : Z' = Z ∧ t'' = t' := by
    rw [hadd] at hadd'
    cases hadd'
    exact ⟨rfl, rfl⟩
  refine ⟨Z', t', ?_, hkeep [] (Or.inl rfl), hentry⟩
  rw [buildZipIndex, Prog.bind_of_ok hopen]
  dsimp only
  rw [Prog.bind_of_ok hoffsets, Prog.bind_of_ok hadd]
  rfl

/-! ### Both together -/

/-- **What passes the validator can be opened**: where it names no compressed entry, every file of
the index has a reader. -/
def ValidatorAgrees (lib : Libzip ε) (src : ByteSource) : Prop :=
  ∀ t t₁ t₂ t₃ Z, (firstCompressedEntry src : Prog ℕ ε _) t = (.ok [], t₁) →
    buildZipIndex lib src t₂ = (.ok (some Z), t₃) →
    ∀ p E, Z.entry p = some E → E.isDir = false → ∃ reader, openZipEntry Z E = .ok reader

/-- An entry can be opened if its bytes are stored. -/
theorem openZipEntry_iff (Z : ZipIndex) (E : ZipEntry) :
    (∃ reader, openZipEntry Z E = .ok reader) ↔ E.stored = true := by
  rw [openZipEntry]
  constructor
  · rintro ⟨reader, h⟩
    split at h
    · assumption
    · cases h
  · intro h
    rw [if_pos h]
    exact ⟨_, rfl⟩

/-- **When the validator agrees with the server**: some record is compressed, or every file that the
library lists last for its path is stored by what the library says of it, and its path is, by the
names in the archive, that of a record the last of which has its local header. -/
theorem validatorAgrees_iff {src : ByteSource} {bytes : Bytes} (h : src.Delivers bytes)
    (hend : src.EndsAtSize) {lib : Libzip ε} {stats : List (Option ZipStat)}
    (hlib : Opens lib src stats) {l : List Called} (hall : FindsAll ε src l) :
    ValidatorAgrees lib src ↔ (∃ c ∈ l, c.method ≠ 0) ∨
      ∀ p raw st, p ≠ [] → lastOf statPath (namedStats stats) p = some (raw, st) →
        raw.getLast? ≠ some 47 → st.isStored = true ∧
          ∃ c, lastOf Called.path l p = some c ∧ HeaderAt bytes c.lhOffset := by
  constructor
  · intro hagree
    by_cases hcomp : ∃ c ∈ l, c.method ≠ 0
    · exact Or.inl hcomp
    · have hall0 : ∀ c ∈ l, c.method = 0 := by simpa using hcomp
      obtain ⟨r, t₁, hfirst, hr⟩ := firstCompressedEntry_iff (ε := ε) h hend hall 0
      obtain rfl := hr.2 hall0
      obtain ⟨Z, t₃, hbuild, -, hentry⟩ := buildZipIndex_entry h hend hlib hall 0
      refine Or.inr fun p raw st hp hlast hfile => ?_
      have hE := hentry p hp
      rw [hlast] at hE
      obtain ⟨E, hE, hof⟩ := hE
      have hEfile : E.isDir = false := by
        rw [← Bool.not_eq_true]
        exact fun hd => hfile (hof.isDir.1 hd)
      have hopen := hagree 0 t₁ 0 t₃ Z hfirst hbuild p E hE hEfile
      obtain ⟨hstored, lh, hlookup, hheader⟩ := (hof.stored hEfile).1
        ((openZipEntry_iff Z E).1 hopen)
      rw [lookup_foldl_keepOffset hp, List.lookup_nil, Option.or_none] at hlookup
      obtain ⟨c, hc, rfl⟩ := Option.map_eq_some_iff.1 hlookup
      exact ⟨hstored, c, hc, hheader⟩
  · intro hcond t t₁ t₂ t₃ Z hfirst hbuild p E hE hEfile
    obtain ⟨r, t₁', hfirst', hr⟩ := firstCompressedEntry_iff (ε := ε) h hend hall t
    obtain rfl : [] = r := by
      rw [hfirst] at hfirst'
      cases hfirst'
      rfl
    have hall0 := hr.1 rfl
    obtain ⟨Z', t₃', hbuild', hroot, hentry⟩ := buildZipIndex_entry h hend hlib hall t₂
    obtain rfl : Z = Z' := by
      rw [hbuild] at hbuild'
      cases hbuild'
      rfl
    rw [openZipEntry_iff]
    by_cases hp : p = []
    · rw [hp, hroot] at hE
      cases hE
    · have hfound := hentry p hp
      cases hlast : lastOf statPath (namedStats stats) p with
      | none =>
          rw [hlast] at hfound
          rw [hfound] at hE
          cases hE
      | some x =>
          rw [hlast] at hfound
          obtain ⟨E', hE', hof⟩ := hfound
          obtain rfl : E = E' := Option.some_inj.1 (hE.symm.trans hE')
          rcases hcond with ⟨c, hc, hcomp⟩ | hcond
          · exact absurd (hall0 c hc) hcomp
          · have hfile : x.1.getLast? ≠ some 47 := by
              intro hd
              rw [hof.isDir.2 hd] at hEfile
              cases hEfile
            obtain ⟨hstored, c, hc, hheader⟩ := hcond p x.1 x.2 hp hlast hfile
            refine (hof.stored hEfile).2 ⟨hstored, c.lhOffset, ?_, hheader⟩
            rw [lookup_foldl_keepOffset hp, hc]
            rfl

/-! An archive of one stored file, which may be encrypted. -/

/-- The file `a` with the bytes `hi`; the flags of its record are `flags`. -/
def flaggedZip (flags : ℕ) : Bytes :=
  localBytes [0x61] [0x68, 0x69]
    ++ (leBytes 4 0x02014b50 ++ leBytes 4 20 ++ leBytes 2 flags ++ leBytes 6 0 ++ leBytes 4 0
      ++ leBytes 4 2 ++ leBytes 4 2 ++ leBytes 2 1 ++ leBytes 4 0 ++ leBytes 8 0 ++ leBytes 4 0
      ++ [0x61])
    ++ leBytes 4 0x06054b50 ++ leBytes 4 0 ++ leBytes 2 1 ++ leBytes 2 1 ++ leBytes 4 47
    ++ leBytes 4 33 ++ leBytes 2 0

def flaggedFile (encrypted : Bool) : ZipRecord := ⟨[0x61], 0, encrypted, 2, 2, 0⟩

theorem length_flaggedZip (flags : ℕ) : (flaggedZip flags).length = 102 := by
  simp [flaggedZip, localBytes]

def flaggedSource (flags : ℕ) : ByteSource :=
  memByteSource (flaggedZip flags) (by rw [length_flaggedZip]; omega)

theorem plainFile_wellFormed : WellFormed (flaggedZip 0) [flaggedFile false] := by
  refine ⟨⟨33, ⟨by decide +kernel, by decide +kernel, by decide +kernel,
    Or.inl (by decide +kernel)⟩, @CentralDir.cons _ 33 80 _ _ ?_ (.nil 80)⟩, ?_⟩
  · exact ⟨by decide +kernel, by decide +kernel, by decide +kernel, by decide +kernel,
      by decide +kernel, by decide +kernel, [], by decide +kernel, by simp,
      ⟨by decide +kernel, by decide +kernel⟩, ⟨by decide +kernel, by decide +kernel⟩,
      ⟨by decide +kernel, by decide +kernel⟩, fun h => absurd h (by decide +kernel)⟩
  · intro R hR
    obtain rfl := List.mem_singleton.1 hR
    exact ⟨by decide +kernel, by decide +kernel, fun _ _ => rfl⟩

theorem lockedFile_wellFormed : WellFormed (flaggedZip 1) [flaggedFile true] := by
  refine ⟨⟨33, ⟨by decide +kernel, by decide +kernel, by decide +kernel,
    Or.inl (by decide +kernel)⟩, @CentralDir.cons _ 33 80 _ _ ?_ (.nil 80)⟩, ?_⟩
  · exact ⟨by decide +kernel, by decide +kernel, by decide +kernel, by decide +kernel,
      by decide +kernel, by decide +kernel, [], by decide +kernel, by simp,
      ⟨by decide +kernel, by decide +kernel⟩, ⟨by decide +kernel, by decide +kernel⟩,
      ⟨by decide +kernel, by decide +kernel⟩, fun h => absurd h (by decide +kernel)⟩
  · intro R hR
    obtain rfl := List.mem_singleton.1 hR
    exact ⟨by decide +kernel, by decide +kernel, fun _ _ => rfl⟩

/-- What the library tells of the file. -/
def flaggedStats (encrypted : Bool) : List (Option ZipStat) :=
  [some ⟨some [0x61], some 2, some 0, some (if encrypted then 1 else 0), none⟩]

theorem opens_flagged (encrypted : Bool) (src : ByteSource) :
    Opens (reporting [flaggedFile encrypted]) src (flaggedStats encrypted) := fun t => ⟨t, rfl⟩

/-- Without encryption the file passes the validator and can be opened. -/
theorem plainFile_agrees : ValidatorAgrees (reporting [flaggedFile false]) (flaggedSource 0) := by
  refine (validatorAgrees_iff (memByteSource_delivers _ _) (memByteSource_endsAtSize _ _)
    (opens_flagged false _) (plainFile_wellFormed.findsAll (memByteSource_delivers _ _))).2
    (Or.inr fun p raw st hp hlast _ => ?_)
  obtain ⟨rfl, rfl⟩ := Prod.mk.inj
    (List.mem_singleton.1 (List.mem_reverse.1 (List.mem_of_find?_eq_some hlast)))
  obtain rfl : statPath _ = p := by simpa using List.find?_some hlast
  exact ⟨rfl, (flaggedFile false).called, List.find?_cons_of_pos (by decide), by decide +kernel,
    by decide +kernel, by decide +kernel⟩

/-- With encryption it passes the validator, and cannot be opened. -/
theorem lockedFile_passes : WellFormed (flaggedZip 1) [flaggedFile true] ∧
    (flaggedSource 1).Delivers (flaggedZip 1) ∧ (flaggedSource 1).EndsAtSize ∧
    Opens (reporting [flaggedFile true]) (flaggedSource 1) (flaggedStats true) ∧
    FindsAll Unit (flaggedSource 1) [(flaggedFile true).called] ∧
    ¬ ValidatorAgrees (reporting [flaggedFile true]) (flaggedSource 1) := by
  have hdel : (flaggedSource 1).Delivers (flaggedZip 1) := memByteSource_delivers _ _
  have hend : (flaggedSource 1).EndsAtSize := memByteSource_endsAtSize _ _
  have hopens := opens_flagged true (flaggedSource 1)
  have hall : FindsAll Unit (flaggedSource 1) [(flaggedFile true).called] :=
    lockedFile_wellFormed.findsAll hdel
  refine ⟨lockedFile_wellFormed, hdel, hend, hopens, hall, fun hagree => ?_⟩
  obtain ⟨r, t₁, hfirst, hr⟩ := firstCompressedEntry_iff hdel hend hall 0
  obtain rfl := hr.2 (by simp [ZipRecord.called, flaggedFile])
  obtain ⟨Z, t₃, hbuild, -, hentry⟩ := buildZipIndex_entry hdel hend hopens hall 0
  have hlast : lastOf statPath (namedStats (flaggedStats true)) ["a"]
      = some ([0x61], ⟨some [0x61], some 2, some 0, some 1, none⟩) :=
    List.find?_cons_of_pos (by decide)
  have hE := hentry ["a"] (by simp)
  rw [hlast] at hE
  obtain ⟨E, hE, hof⟩ := hE
  have hfile : E.isDir = false := by
    rw [← Bool.not_eq_true, hof.isDir]
    decide
  have hopen := hagree 0 t₁ 0 t₃ Z hfirst hbuild ["a"] E hE hfile
  have hserve := (hof.stored hfile).1 ((openZipEntry_iff Z E).1 hopen)
  exact absurd hserve.1 (by decide)

end VidyaGodFS
