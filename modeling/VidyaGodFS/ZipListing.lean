/-
**Walking an archive by its listings.**

The index of an archive lists, under each directory, the names that entries have there.  An entry
puts its own name under its parent, that one's under the parent above, and so on up to the root; but
an entry whose name has two slashes in a row has an ancestor with an empty name, and there the
registration stops.  Nothing above such an ancestor is listed for that entry, and no walk by
listings ever comes below it.

Main definitions:

* `Lists`, `ZipIndex.Lists` — a directory lists a name;
* `indexedNames` — the paths of the entries that the library reports;
* `ZipIndex.WalksToEntries` — what a walk from the root comes to, and what it meets.

Main results:

* `registerParents_lists`, `addStats_lists` — **what is listed**: the names on the way to an entry,
  down from its last ancestor with an empty name;
* `walksToEntries_iff` — **every entry is reached from the root exactly when no name has an empty
  part**.
-/

import VidyaGodFS.ZipValidator

set_option relaxedAutoImplicit false
set_option autoImplicit false

namespace VidyaGodFS

open Posix

variable {ε : Type}

/-! ### What is listed -/

/-- The directory `d` lists the name `c`. -/
def Lists (kids : List (Path × List Name)) (d : Path) (c : Name) : Prop :=
  ∃ names, kids.lookup d = some names ∧ c ∈ names

/-- The directory `d` of the archive lists the name `c`. -/
def ZipIndex.Lists (Z : ZipIndex) : Path → Name → Prop := VidyaGodFS.Lists Z.dirChildren

/-- The entry `N` has the name `c` registered under its ancestor `d`: no ancestor between them has
an empty name. -/
def Registers (N d : Path) (c : Name) : Prop := d ++ [c] <+: N ∧ "" ∉ N.drop d.length

theorem not_lists_nil (d : Path) (c : Name) : ¬ Lists [] d c := by
  rintro ⟨names, h, -⟩
  cases h

theorem lists_addChild (kids : List (Path × List Name)) (parent d : Path) (child c : Name) :
    Lists (addChild kids parent child) d c ↔ Lists kids d c ∨ (d = parent ∧ c = child) := by
  rw [Lists, addChild, lookup_setKey]
  by_cases hd : d = parent
  · subst hd
    rw [if_pos rfl]
    constructor
    · rintro ⟨names, hnames, hc⟩
      obtain rfl := Option.some_inj.1 hnames
      rcases List.mem_insert_iff.1 hc with rfl | hc
      · exact Or.inr ⟨rfl, rfl⟩
      · cases hk : kids.lookup d with
        | none => rw [hk] at hc; cases hc
        | some names => exact Or.inl ⟨names, hk, by rwa [hk] at hc⟩
    · rintro (⟨names, hnames, hc⟩ | ⟨-, rfl⟩)
      · refine ⟨_, rfl, List.mem_insert_iff.2 (Or.inr ?_)⟩
        rw [hnames]
        exact hc
      · exact ⟨_, rfl, List.mem_insert_self⟩
  · rw [if_neg hd]
    exact ⟨Or.inl, fun h => h.resolve_right fun h => hd h.1⟩

/-- A directory entered without children lists what it did. -/
theorem lists_setKey_nil {kids : List (Path × List Name)} {p : Path} (hp : kids.lookup p = none)
    (d : Path) (c : Name) : Lists (setKey kids p []) d c ↔ Lists kids d c := by
  rw [Lists, lookup_setKey]
  by_cases hd : d = p
  · subst hd
    rw [if_pos rfl, Lists, hp]
    constructor
    · rintro ⟨names, hnames, hc⟩
      obtain rfl := Option.some_inj.1 hnames
      cases hc
    · rintro ⟨names, hnames, -⟩
      cases hnames
  · rw [if_neg hd]
    rfl

/-- What is registered for `init ++ [child]`: the last name, and where that is not empty what is
registered for `init`. -/
theorem registers_concat (init : Path) (child : Name) (d : Path) (c : Name) :
    Registers (init ++ [child]) d c ↔
      child ≠ "" ∧ ((d = init ∧ c = child) ∨ Registers init d c) := by
  constructor
  · rintro ⟨hpre, hdrop⟩
    have hd : d.length ≤ init.length := by
      have := hpre.length_le
      simp only [List.length_append, List.length_singleton] at this
      omega
    rw [List.drop_append_of_le_length hd, List.mem_append, not_or, List.mem_singleton] at hdrop
    refine ⟨fun h => hdrop.2 h.symm, ?_⟩
    rcases List.prefix_concat_iff.1 hpre with heq | hpre
    · exact Or.inl (List.append_inj' heq rfl |>.imp id fun h => (List.cons.inj h).1)
    · exact Or.inr ⟨hpre, hdrop.1⟩
  · rintro ⟨hchild, ⟨rfl, rfl⟩ | ⟨hpre, hdrop⟩⟩
    · refine ⟨List.prefix_rfl, ?_⟩
      rw [List.drop_left, List.mem_singleton]
      exact hchild.symm
    · have hd : d.length ≤ init.length := by
        have := hpre.length_le
        simp only [List.length_append, List.length_singleton] at this
        omega
      refine ⟨hpre.trans (List.prefix_append _ _), ?_⟩
      rw [List.drop_append_of_le_length hd, List.mem_append, not_or, List.mem_singleton]
      exact ⟨hdrop, hchild.symm⟩

theorem not_registers_nil (d : Path) (c : Name) : ¬ Registers [] d c := by
  rintro ⟨hpre, -⟩
  exact absurd (List.prefix_nil.1 hpre) (by simp)

/-- **What the parents of an entry list after it was registered.** -/
theorem registerParents_lists (d : Path) (c : Name) :
    ∀ (fuel : ℕ) (cur : Path) (kids : List (Path × List Name)), cur.length ≤ fuel →
      (Lists (registerParents fuel cur kids) d c ↔ Lists kids d c ∨ Registers cur d c) := by
  intro fuel
  induction fuel with
  | zero =>
      intro cur kids hfuel
      obtain rfl := List.length_eq_zero_iff.1 (Nat.le_zero.1 hfuel)
      exact ⟨Or.inl, fun h => h.resolve_right (not_registers_nil d c)⟩
  | succ fuel ih =>
      intro cur kids hfuel
      rcases List.eq_nil_or_concat' cur with rfl | ⟨init, child, rfl⟩
      · exact ⟨Or.inl, fun h => h.resolve_right (not_registers_nil d c)⟩
      · rw [registerParents, List.getLast?_concat]
        dsimp only
        rw [List.dropLast_concat, registers_concat]
        by_cases hchild : child = ""
        · rw [if_pos hchild]
          exact ⟨Or.inl, fun h => h.resolve_right fun h => h.1 hchild⟩
        · rw [if_neg hchild]
          by_cases hinit : init = []
          · -- the last name stands under the root
            subst hinit
            rw [if_pos rfl, lists_addChild]
            refine or_congr_right ⟨fun h => ⟨hchild, Or.inl h⟩, fun h => ?_⟩
            exact h.2.resolve_right (not_registers_nil d c)
          · rw [if_neg hinit, ih _ _ (by simpa using hfuel), lists_addChild, or_assoc]
            exact or_congr_right ⟨fun h => ⟨hchild, h⟩, fun h => h.2⟩

/-! ### The index -/

/-- One entry more: its ancestors list the names on the way to it. -/
theorem lists_add (Z : ZipIndex) (e : ZipEntry) (d : Path) (c : Name) :
    (Z.add e).Lists d c ↔ Z.Lists d c ∨ Registers e.name d c := by
  rw [ZipIndex.Lists, ZipIndex.add]
  dsimp only
  rw [registerParents_lists d c _ _ _ le_rfl]
  split
  · rename_i h
    rw [lists_setKey_nil h.2]
    rfl
  · rfl

/-- The paths of the entries the library reports; a name of slashes alone stands for none. -/
def indexedNames (stats : List (Option ZipStat)) : List Path :=
  ((namedStats stats).map statPath).filter (· ≠ [])

theorem mem_indexedNames {stats : List (Option ZipStat)} {N : Path} :
    N ∈ indexedNames stats ↔ N ≠ [] ∧
      ∃ st raw, some st ∈ stats ∧ st.name = some raw ∧ normalizeVPath raw = N := by
  rw [indexedNames, List.mem_filter, List.mem_map, decide_eq_true_eq, and_comm]
  refine and_congr_right fun _ => ?_
  constructor
  · rintro ⟨⟨raw, st⟩, hx, hN⟩
    obtain ⟨o, ho, hbind⟩ := List.mem_filterMap.1 hx
    obtain ⟨s, rfl, hs⟩ := Option.bind_eq_some_iff.1 hbind
    obtain ⟨r, hname, hpair⟩ := Option.map_eq_some_iff.1 hs
    obtain ⟨rfl, rfl⟩ := Prod.mk.inj hpair
    exact ⟨s, r, ho, hname, hN⟩
  · rintro ⟨st, raw, hst, hname, hN⟩
    refine ⟨(raw, st), List.mem_filterMap.2 ⟨some st, hst, ?_⟩, hN⟩
    rw [Option.bind_some, hname, Option.map_some]

/-- One entry of the archive joins the index, unless it stands for the root. -/
theorem addStat_lists (src : ByteSource) (offsets : List (Path × ℕ)) (Z : ZipIndex) (raw : Bytes)
    (st : ZipStat) (t : ℕ) :
    ∃ Z' t', (addStat src offsets Z raw st : Prog ℕ ε _) t = (.ok Z', t') ∧
      (∀ p, Z'.entry p ≠ none ↔
        Z.entry p ≠ none ∨ (p = normalizeVPath raw ∧ normalizeVPath raw ≠ [])) ∧
      ∀ d c, Z'.Lists d c ↔ Z.Lists d c ∨ Registers (normalizeVPath raw) d c := by
  have hadd : ∀ e : ZipEntry, e.name = normalizeVPath raw → normalizeVPath raw ≠ [] →
      (∀ p, (Z.add e).entry p ≠ none ↔
        Z.entry p ≠ none ∨ (p = normalizeVPath raw ∧ normalizeVPath raw ≠ [])) ∧
      ∀ d c, (Z.add e).Lists d c ↔ Z.Lists d c ∨ Registers (normalizeVPath raw) d c := by
    rintro e hname hne
    refine ⟨fun p => ?_, fun d c => hname ▸ lists_add Z e d c⟩
    rw [entry_add, hname]
    by_cases hp : p = normalizeVPath raw
    · rw [if_pos hp]
      exact ⟨fun _ => Or.inr ⟨hp, hne⟩, fun _ => by simp⟩
    · rw [if_neg hp]
      exact ⟨Or.inl, fun h => h.resolve_right fun h => hp h.1⟩
  rw [addStat]
  dsimp only
  split
  · rename_i hnil
    refine ⟨Z, t, rfl, fun p => ⟨Or.inl, fun h => h.resolve_right fun h => h.2 hnil⟩, fun d c => ?_⟩
    rw [hnil]
    exact ⟨Or.inl, fun h => h.resolve_right (not_registers_nil d c)⟩
  · rename_i hne
    split
    · exact ⟨_, t, rfl, hadd _ rfl hne⟩
    · split
      · obtain ⟨r, t', ht'⟩ := storedOffset_ends (ε := ε) src offsets (normalizeVPath raw) t
        exact ⟨_, t', Prog.bind_of_ok ht', hadd _ rfl hne⟩
      · exact ⟨_, t, rfl, hadd _ rfl hne⟩

/-- **The index of the entries that the library reports**: their paths are its keys, and what they
register is what it lists. -/
theorem addStats_lists (src : ByteSource) (offsets : List (Path × ℕ))
    (stats : List (Option ZipStat)) (Z : ZipIndex) (t : ℕ) :
    ∃ Z' t', (addStats src offsets stats Z : Prog ℕ ε _) t = (.ok Z', t') ∧
      (∀ p, Z'.entry p ≠ none ↔ Z.entry p ≠ none ∨ p ∈ indexedNames stats) ∧
      ∀ d c, Z'.Lists d c ↔ Z.Lists d c ∨ ∃ N ∈ indexedNames stats, Registers N d c := by
  induction stats generalizing Z t with
  | nil =>
      refine ⟨Z, t, rfl, fun p => ⟨Or.inl, fun h => h.resolve_right List.not_mem_nil⟩,
        fun d c => ⟨Or.inl, fun h => h.resolve_right ?_⟩⟩
      rintro ⟨N, hN, -⟩
      exact List.not_mem_nil hN
  | cons st stats ih =>
      rw [addStats, indexedNames, namedStats, List.filterMap_cons]
      rcases st.bind fun st => st.name.map fun raw => (raw, st) with _ | ⟨raw, s⟩
      · exact ih Z t
      · obtain ⟨Z₁, t₁, h₁, hkeys₁, hlists₁⟩ := addStat_lists (ε := ε) src offsets Z raw s t
        obtain ⟨Z', t', h, hkeys, hlists⟩ := ih Z₁ t₁
        have hmem : ∀ N, N ∈ ((statPath (raw, s) :: (namedStats stats).map statPath).filter
            (· ≠ [])) ↔ (N = normalizeVPath raw ∧ normalizeVPath raw ≠ []) ∨
              N ∈ indexedNames stats := by
          intro N
          rw [List.filter_cons, indexedNames]
          by_cases hne : statPath (raw, s) = []
          · rw [if_neg fun h => absurd hne (of_decide_eq_true h)]
            exact ⟨Or.inr, fun h => h.resolve_left fun h => h.2 hne⟩
          · rw [if_pos (decide_eq_true hne), List.mem_cons]
            exact or_congr_left ⟨fun h => ⟨h, hne⟩, fun h => h.1⟩
        refine ⟨Z', t', (Prog.bind_of_ok h₁).trans h, fun p => ?_, fun d c => ?_⟩
        · exact (hkeys p).trans ((or_congr_left (hkeys₁ p)).trans
            (or_assoc.trans (or_congr_right (hmem p).symm)))
        · rw [hlists, hlists₁, or_assoc]
          refine or_congr_right ⟨?_, ?_⟩
          · rintro (hreg | ⟨N, hN, hreg⟩)
            · by_cases hne : normalizeVPath raw = []
              · exact absurd (hne ▸ hreg) (not_registers_nil d c)
              · exact ⟨_, (hmem _).2 (Or.inl ⟨rfl, hne⟩), hreg⟩
            · exact ⟨N, (hmem _).2 (Or.inr hN), hreg⟩
          · rintro ⟨N, hN, hreg⟩
            rcases (hmem N).1 hN with ⟨rfl, -⟩ | hN
            · exact Or.inl hreg
            · exact Or.inr ⟨N, hN, hreg⟩

/-- The index that is built has the paths the library reports, and lists what they register. -/
theorem buildZipIndex_lists {lib : Libzip ε} {src : ByteSource} {t t₁ t' : ℕ}
    {stats : List (Option ZipStat)} {Z : ZipIndex} (hlib : lib src t = (.ok (some stats), t₁))
    (h : buildZipIndex lib src t = (.ok (some Z), t')) :
    (∀ p, Z.entry p ≠ none ↔ p ∈ indexedNames stats) ∧
      ∀ d c, Z.Lists d c ↔ ∃ N ∈ indexedNames stats, Registers N d c := by
  rw [buildZipIndex, Prog.bind_of_ok hlib] at h
  dsimp only at h
  rcases hoff : (centralDirOffsets src : Prog ℕ ε _) t₁ with ⟨e | offsets, t₂⟩
  · rw [Prog.bind_of_error hoff] at h
    cases h
  · obtain ⟨Z', t₃, hadd, hkeys, hlists⟩ := addStats_lists (ε := ε) src offsets stats
      ⟨src, [], []⟩ t₂
    rw [Prog.bind_of_ok hoff, Prog.bind_of_ok hadd] at h
    cases h
    refine ⟨fun p => (hkeys p).trans ⟨fun h => h.resolve_left ?_, Or.inr⟩,
      fun d c => (hlists d c).trans ⟨fun h => h.resolve_left (not_lists_nil d c), Or.inr⟩⟩
    exact fun h => h rfl

/-! ### Walks -/

namespace ZipIndex

variable (Z : ZipIndex)

/-- One step of a walk: from a directory to a name it lists. -/
def Step (d p : Path) : Prop := ∃ c, Z.Lists d c ∧ p = d ++ [c]

/-- **Walking the listings from the root comes to every entry**, and meets no name without an entry
at it or below it. -/
structure WalksToEntries : Prop where
  reaches : ∀ N, Z.entry N ≠ none → Relation.ReflTransGen Z.Step [] N
  meets : ∀ d c, Z.Lists d c → ∃ N, Z.entry N ≠ none ∧ d ++ [c] <+: N

end ZipIndex

/-- A walk stays at paths without an empty part. -/
theorem ZipIndex.Step.named {Z : ZipIndex} {names : List Path}
    (hlists : ∀ d c, Z.Lists d c ↔ ∃ N ∈ names, Registers N d c) {p : Path}
    (h : Relation.ReflTransGen Z.Step [] p) : "" ∉ p := by
  induction h with
  | refl => exact List.not_mem_nil
  | tail _ hstep ih =>
      obtain ⟨c, hc, rfl⟩ := hstep
      obtain ⟨N, _, ⟨rest, rfl⟩, hdrop⟩ := (hlists _ _).1 hc
      rw [List.append_assoc, List.drop_left, List.singleton_append, List.mem_cons, not_or] at hdrop
      rw [List.mem_append, not_or, List.mem_singleton]
      exact ⟨ih, hdrop.1⟩

/-- A walk comes to every path on the way to an entry without an empty part. -/
theorem ZipIndex.Step.reaches {Z : ZipIndex} {names : List Path}
    (hlists : ∀ d c, Z.Lists d c ↔ ∃ N ∈ names, Registers N d c) {N : Path} (hN : N ∈ names)
    (hnamed : "" ∉ N) {p : Path} (hp : p <+: N) : Relation.ReflTransGen Z.Step [] p := by
  induction p using List.reverseRecOn with
  | nil => exact .refl
  | append_singleton d c ih =>
      refine (ih ((List.prefix_append d [c]).trans hp)).tail ⟨c, (hlists d c).2 ⟨N, hN, hp, ?_⟩, rfl⟩
      exact fun h => hnamed (List.mem_of_mem_drop h)

/-- **Which archives can be walked.**  In the index of an archive every entry is reached from the
root by listings, and nothing else is met, exactly when no reported name, without the slashes at its
ends, has two slashes in a row. -/
theorem walksToEntries_iff {lib : Libzip ε} {src : ByteSource} {t t₁ t' : ℕ}
    {stats : List (Option ZipStat)} {Z : ZipIndex} (hlib : lib src t = (.ok (some stats), t₁))
    (h : buildZipIndex lib src t = (.ok (some Z), t')) :
    Z.WalksToEntries ↔
      ∀ st raw, some st ∈ stats → st.name = some raw → "" ∉ normalizeVPath raw := by
  obtain ⟨hkeys, hlists⟩ := buildZipIndex_lists hlib h
  constructor
  · intro hwalks st raw hst hname hempty
    have hne : normalizeVPath raw ≠ [] := fun hnil => by simp [hnil] at hempty
    have hN := (hkeys _).2 (mem_indexedNames.2 ⟨hne, st, raw, hst, hname, rfl⟩)
    exact ZipIndex.Step.named hlists (hwalks.reaches _ hN) hempty
  · intro hnamed
    refine ⟨fun N hN => ?_, fun d c hc => ?_⟩
    · have hmem := (hkeys N).1 hN
      obtain ⟨_, st, raw, hst, hname, rfl⟩ := mem_indexedNames.1 hmem
      exact ZipIndex.Step.reaches hlists hmem (hnamed st raw hst hname) List.prefix_rfl
    · obtain ⟨N, hN, hpre, _⟩ := (hlists d c).1 hc
      exact ⟨N, (hkeys N).2 hN, hpre⟩

/-! An archive of one stored file. -/

/-- The file `name` with the one byte `h`. -/
def soleFileZip (name : Bytes) : Bytes :=
  localBytes name [0x68] ++ centralBytes name 1 0
    ++ leBytes 4 0x06054b50 ++ leBytes 4 0 ++ leBytes 2 1 ++ leBytes 2 1
    ++ leBytes 4 (46 + name.length) ++ leBytes 4 (31 + name.length) ++ leBytes 2 0

def soleFile (name : Bytes) : ZipRecord := ⟨name, 0, false, 1, 1, 0⟩

/-- The file `a//b`, two slashes in its name. -/
def slashedName : Bytes := [0x61, 0x2f, 0x2f, 0x62]

/-- The file `a/b`, in a directory. -/
def nestedName : Bytes := [0x61, 0x2f, 0x62]

theorem soleFileZip_wellFormed {name : Bytes} (h : name = slashedName ∨ name = nestedName) :
    WellFormed (soleFileZip name) [soleFile name] := by
  have hend : EndAt (soleFileZip name) 1 (31 + name.length) := by
    rcases h with rfl | rfl <;>
      exact ⟨by decide +kernel, by decide +kernel, by decide +kernel, Or.inl (by decide +kernel)⟩
  have hcentral : CentralAt (soleFileZip name) (31 + name.length) (soleFile name)
      (77 + 2 * name.length) := by
    rcases h with rfl | rfl <;>
      exact ⟨by decide +kernel, by decide +kernel, by decide +kernel, by decide +kernel,
        by decide +kernel, by decide +kernel, [], by decide +kernel, by simp,
        ⟨by decide +kernel, by decide +kernel⟩, ⟨by decide +kernel, by decide +kernel⟩,
        ⟨by decide +kernel, by decide +kernel⟩, fun h => absurd h (by decide +kernel)⟩
  have hlocal : LocalAt (soleFileZip name) (soleFile name) := by
    rcases h with rfl | rfl <;> exact ⟨by decide +kernel, by decide +kernel, fun _ _ => rfl⟩
  refine ⟨⟨_, hend, .cons hcentral (.nil _)⟩, fun R hR => ?_⟩
  obtain rfl := List.mem_singleton.1 hR
  exact hlocal

def slashedSource : ByteSource := memByteSource (soleFileZip slashedName) (by decide +kernel)

def nestedSource : ByteSource := memByteSource (soleFileZip nestedName) (by decide +kernel)

/-- What the library tells of the file. -/
def soleFileStats (name : Bytes) : List (Option ZipStat) :=
  [some ⟨some name, some 1, some 0, some 0, none⟩]

/-- The index of that archive has the file, and no walk comes to it. -/
theorem slashedZip_lost : WellFormed (soleFileZip slashedName) [soleFile slashedName] ∧
    Reports (reporting [soleFile slashedName]) slashedSource [soleFile slashedName] ∧
    ∃ Z t', buildZipIndex (reporting [soleFile slashedName]) slashedSource 0 = (.ok (some Z), t') ∧
      Z.entry ["a", "", "b"] ≠ none ∧ ¬ Relation.ReflTransGen Z.Step [] ["a", "", "b"] := by
  refine ⟨(soleFileZip_wellFormed (Or.inl rfl)), reports_reporting _ _, ?_⟩
  obtain ⟨Z, t', hbuild, -⟩ := buildZipIndex_stored (reporting [soleFile slashedName])
    slashedSource (soleFileZip slashedName) _ ⟨rfl, fun _ _ _ _ => rfl⟩ (soleFileZip_wellFormed (Or.inl rfl))
    (reports_reporting _ _) 0
  have hlib : reporting [soleFile slashedName] slashedSource 0
      = (.ok (some (soleFileStats slashedName)), 0) := rfl
  obtain ⟨hkeys, hlists⟩ := buildZipIndex_lists hlib hbuild
  refine ⟨Z, t', hbuild, (hkeys _).2 (by decide), fun hwalk => ?_⟩
  exact absurd (by decide) (ZipIndex.Step.named hlists hwalk)

/-- The archive of a file in a directory is walked to both of them. -/
theorem nestedZip_walks : ∃ Z t', buildZipIndex (reporting [soleFile nestedName])
      nestedSource 0 = (.ok (some Z), t') ∧ Z.entry ["a", "b"] ≠ none ∧
    Z.WalksToEntries := by
  obtain ⟨Z, t', hbuild, -⟩ := buildZipIndex_stored (reporting [soleFile nestedName])
    nestedSource (soleFileZip nestedName) _ ⟨rfl, fun _ _ _ _ => rfl⟩
    (soleFileZip_wellFormed (Or.inr rfl)) (reports_reporting _ _) 0
  have hlib : reporting [soleFile nestedName] nestedSource 0
      = (.ok (some (soleFileStats nestedName)), 0) := rfl
  refine ⟨Z, t', hbuild, ((buildZipIndex_lists hlib hbuild).1 _).2 (by decide),
    (walksToEntries_iff hlib hbuild).2 fun st raw hst hname => ?_⟩
  obtain rfl := Option.some_inj.1 (List.mem_singleton.1 hst)
  obtain rfl := Option.some_inj.1 hname
  decide

end VidyaGodFS
