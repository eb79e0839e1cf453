/-
**Names in any case.**

On a mount that is not case-sensitive a path is looked up as the layers spell it.  A map has, for the
folded text of every path that a layer knows, the first spelling it was given; of a path that a
program asks for the longest prefix in the map takes its spelling, and the rest stays as it is.

Folding is ASCII folding, so it keeps every length, and what is cut off the folded text is cut off
the path at the same place.

Main definitions:

* `tryEmplace` — a map keeps the first value of a key;
* `foldCase`, `CaseMap` — folding, and maps from folded texts to spellings of them;
* `rfindSlash`, `canonicalCase` — the spelling of a path;
* `LongestKnown` — the longest prefix in the map, at a slash or at the end;
* `CaseLaws` — what the spelling keeps.

Main results:

* `lookup_emplaceAll` — a map filled from a list has the first of each key;
* `canonicalCase_spec` — **the index arithmetic finds the longest known prefix**;
* `canonicalCase_laws` — the spelling of a path has its length and its folding, is its own spelling,
  and is one for all spellings of a known path.
-/

import VidyaGodFS.ZipLinks

set_option relaxedAutoImplicit false
set_option autoImplicit false

namespace VidyaGodFS

/-! ### Maps that keep the first value -/

section FirstWins

variable {κ α : Type} [BEq κ] [LawfulBEq κ]

/-- `m.try_emplace(k, v)`. -/
def tryEmplace (m : List (κ × α)) (k : κ) (v : α) : List (κ × α) :=
  if (m.lookup k).isSome then m else m ++ [(k, v)]

theorem lookup_tryEmplace (m : List (κ × α)) (k k' : κ) (v : α) :
    (tryEmplace m k v).lookup k' = (m.lookup k').or (if k' == k then some v else none) := by
  rw [tryEmplace]
  split
  · rename_i hk
    obtain ⟨v', hv'⟩ := Option.isSome_iff_exists.1 hk
    cases h : k' == k with
    | true =>
        rw [eq_of_beq h, hv']
        rfl
    | false => rw [if_neg Bool.false_ne_true, Option.or_none]
  · rw [List.lookup_append, List.lookup_cons, List.lookup_nil]
    cases k' == k <;> rfl

/-- **A map filled from a list has the first of each key.** -/
theorem lookup_emplaceAll (key : α → κ) (l : List α) (m : List (κ × α)) (k : κ) :
    (l.foldl (fun m x => tryEmplace m (key x) x) m).lookup k
      = (m.lookup k).or (l.find? fun x => key x == k) := by
  induction l generalizing m with
  | nil => simp
  | cons x l ih =>
      rw [List.foldl_cons, ih, lookup_tryEmplace, Option.or_assoc, List.find?_cons, BEq.comm]
      cases key x == k <;> rfl

end FirstWins

/-! ### Folding -/

/-- A path as the program has it: its names with slashes between. -/
abbrev Text : Type := List Char

/-- `A` to `Z` in lower case. -/
def foldChar (c : Char) : Char :=
  if 'A' ≤ c ∧ c ≤ 'Z' then Char.ofNat (c.toNat - 'A'.toNat + 'a'.toNat) else c

def foldCase (s : Text) : Text := s.map foldChar

@[simp] theorem length_foldCase (s : Text) : (foldCase s).length = s.length := List.length_map ..

theorem foldCase_append (s t : Text) : foldCase (s ++ t) = foldCase s ++ foldCase t :=
  List.map_append ..

theorem foldCase_drop (s : Text) (n : ℕ) : foldCase (s.drop n) = (foldCase s).drop n :=
  List.map_drop ..

/-- Texts with one folding have one length. -/
theorem length_of_foldCase_eq {s t : Text} (h : foldCase s = foldCase t) : s.length = t.length := by
  have := congrArg List.length h
  rwa [length_foldCase, length_foldCase] at this

/-- Folded texts and how they are spelled. -/
structure CaseMap where
  entries : List (Text × Text)
  folded : ∀ e ∈ entries, foldCase e.2 = e.1

namespace CaseMap

def empty : CaseMap := ⟨[], by simp⟩

/-- `canonCase.try_emplace(FoldCase(V), V)`. -/
def add (m : CaseMap) (V : Text) : CaseMap where
  entries := tryEmplace m.entries (foldCase V) V
  folded := by
    intro e he
    rw [tryEmplace] at he
    split at he
    · exact m.folded e he
    · rcases List.mem_append.1 he with he | he
      · exact m.folded e he
      · rw [List.mem_singleton.1 he]

def spelling (m : CaseMap) (F : Text) : Option Text := m.entries.lookup F

theorem foldCase_spelling {m : CaseMap} {F V : Text} (h : m.spelling F = some V) :
    foldCase V = F := by
  obtain ⟨l, r, heq, _⟩ := List.lookup_eq_some_iff.1 h
  exact m.folded (F, V) (by rw [heq]; simp)

/-- A map made of a list of texts has the first of each folding. -/
theorem spelling_addAll (l : List Text) (F : Text) :
    (l.foldl add empty).spelling F = l.find? fun V => foldCase V == F := by
  have hentries : ∀ m : CaseMap, (l.foldl add m).entries
      = l.foldl (fun e V => tryEmplace e (foldCase V) V) m.entries := by
    induction l with
    | nil => exact fun _ => rfl
    | cons V l ih => exact fun m => ih (m.add V)
  rw [spelling, hentries, lookup_emplaceAll foldCase, empty, List.lookup_nil, Option.none_or]

end CaseMap

/-! ### The spelling of a path -/

/-- `F.rfind('/', i)`. -/
def rfindSlash (F : Text) : ℕ → Option ℕ
  | 0 => if F[0]? = some '/' then some 0 else none
  | i + 1 => if F[i + 1]? = some '/' then some (i + 1) else rfindSlash F i

/-- The loop of `canonicalCase` from `cut` on.  Every turn cuts at an earlier slash. -/
def canonicalLoop (m : CaseMap) (vrel F : Text) : ℕ → ℕ → Text
  | 0, _ => vrel
  | fuel + 1, cut =>
      match m.spelling (F.take cut) with
      | some V => V ++ vrel.drop cut
      | none =>
          match rfindSlash F (cut - 1) with
          | none => vrel
          | some slash => if slash = 0 then vrel else canonicalLoop m vrel F fuel slash

/-- **The path `vrel` as the layers spell it.** -/
def canonicalCase (caseInsensitive : Bool) (m : CaseMap) (vrel : Text) : Text :=
  if caseInsensitive = false ∨ m.entries = [] ∨ vrel = [] then vrel
  else canonicalLoop m vrel (foldCase vrel) (foldCase vrel).length (foldCase vrel).length

/-! ### The longest known prefix -/

/-- A prefix ends at the end of the text or before a slash, and is not empty. -/
def IsCut (F : Text) (c : ℕ) : Prop := 0 < c ∧ (c = F.length ∨ F[c]? = some '/')

/-- **The longest prefix in the map**: the one up to `c`, which is spelled `V`. -/
structure LongestKnown (m : CaseMap) (F : Text) (c : ℕ) (V : Text) : Prop where
  cut : IsCut F c
  known : m.spelling (F.take c) = some V
  longest : ∀ c', c < c' → IsCut F c' → m.spelling (F.take c') = none

theorem IsCut.le_length {F : Text} {c : ℕ} (h : IsCut F c) : c ≤ F.length := by
  obtain ⟨_, rfl | hslash⟩ := h
  · exact le_rfl
  · exact (List.getElem?_eq_some_iff.1 hslash).1.le

theorem LongestKnown.length_eq {m : CaseMap} {F V : Text} {c : ℕ} (h : LongestKnown m F c V) :
    V.length = c := by
  have hlen := congrArg List.length (CaseMap.foldCase_spelling h.known)
  rwa [length_foldCase, List.length_take, Nat.min_eq_left h.cut.le_length] at hlen

/-- There is at most one. -/
theorem LongestKnown.unique {m : CaseMap} {F V V' : Text} {c c' : ℕ} (h : LongestKnown m F c V)
    (h' : LongestKnown m F c' V') : c = c' ∧ V = V' := by
  rcases Nat.lt_trichotomy c c' with hlt | rfl | hlt
  · have := h.longest c' hlt h'.cut
    simp [h'.known] at this
  · exact ⟨rfl, Option.some_inj.1 (h.known.symm.trans h'.known)⟩
  · have := h'.longest c hlt h.cut
    simp [h.known] at this

/-- What `rfind` finds is the last slash up to `i`. -/
theorem rfindSlash_spec (F : Text) (i : ℕ) :
    (∃ j ≤ i, rfindSlash F i = some j ∧ F[j]? = some '/' ∧ ∀ k, j < k → k ≤ i → F[k]? ≠ some '/') ∨
      rfindSlash F i = none ∧ ∀ k ≤ i, F[k]? ≠ some '/' := by
  induction i with
  | zero =>
      by_cases h : F[0]? = some '/'
      · exact Or.inl ⟨0, le_rfl, if_pos h, h, fun k hk hk' => by omega⟩
      · refine Or.inr ⟨if_neg h, fun k hk => ?_⟩
        obtain rfl : k = 0 := by omega
        exact h
  | succ i ih =>
      rw [rfindSlash]
      by_cases h : F[i + 1]? = some '/'
      · exact Or.inl ⟨i + 1, le_rfl, if_pos h, h, fun k hk hk' => by omega⟩
      · rw [if_neg h]
        -- the last slash up to `i` is also the last one up to `i + 1`
        have hlast : ∀ k, k ≤ i + 1 → (k ≤ i → F[k]? ≠ some '/') → F[k]? ≠ some '/' := by
          intro k hk hrest
          rcases Nat.eq_or_lt_of_le hk with rfl | hlt
          · exact h
          · exact hrest (by omega)
        rcases ih with ⟨j, hj, hfind, hslash, hnone⟩ | ⟨hfind, hnone⟩
        · exact Or.inl ⟨j, by omega, hfind, hslash, fun k hk hk' => hlast k hk' (hnone k hk)⟩
        · exact Or.inr ⟨hfind, fun k hk => hlast k hk (hnone k)⟩

/-- The loop from a cut on, when no longer prefix is known. -/
theorem canonicalLoop_spec (m : CaseMap) (vrel F : Text) :
    ∀ (fuel cut : ℕ), cut ≤ fuel → IsCut F cut →
      (∀ c, cut < c → IsCut F c → m.spelling (F.take c) = none) →
      (∃ c V, LongestKnown m F c V ∧ canonicalLoop m vrel F fuel cut = V ++ vrel.drop c) ∨
        (∀ c, IsCut F c → m.spelling (F.take c) = none) ∧
          canonicalLoop m vrel F fuel cut = vrel := by
  intro fuel
  induction fuel with
  | zero =>
      intro cut hf hcut _
      have := hcut.1
      omega
  | succ fuel ih =>
      intro cut hf hcut hlonger
      rw [canonicalLoop]
      cases hknown : m.spelling (F.take cut) with
      | some V => exact Or.inl ⟨cut, V, ⟨hcut, hknown, hlonger⟩, rfl⟩
      | none =>
          have hpos := hcut.1
          -- a cut before this one ends before a slash
          have hbefore : ∀ c, IsCut F c → c < cut → c ≤ cut - 1 ∧ F[c]? = some '/' := by
            intro c hc hlt
            have hle := hcut.le_length
            rcases hc.2 with heq | hslash
            · omega
            · exact ⟨by omega, hslash⟩
          have hfrom : ∀ c, IsCut F c → cut ≤ c → m.spelling (F.take c) = none := by
            intro c hc hle
            rcases Nat.eq_or_lt_of_le hle with rfl | hlt
            · exact hknown
            · exact hlonger c hlt hc
          dsimp only
          rcases rfindSlash_spec F (cut - 1) with ⟨j, hj, hfind, hslash, hnone⟩ | ⟨hfind, hnone⟩
          · rw [hfind]
            dsimp only
            by_cases h0 : j = 0
            · rw [if_pos h0]
              refine Or.inr ⟨fun c hc => ?_, rfl⟩
              rcases Nat.lt_or_ge c cut with hlt | hge
              · obtain ⟨hle, hslash'⟩ := hbefore c hc hlt
                exact absurd hslash' (hnone c (by have := hc.1; omega) hle)
              · exact hfrom c hc hge
            · rw [if_neg h0]
              refine ih j (by omega) ⟨Nat.pos_of_ne_zero h0, Or.inr hslash⟩ fun c hlt hc => ?_
              rcases Nat.lt_or_ge c cut with hlt' | hge
              · obtain ⟨hle, hslash'⟩ := hbefore c hc hlt'
                exact absurd hslash' (hnone c hlt hle)
              · exact hfrom c hc hge
          · rw [hfind]
            refine Or.inr ⟨fun c hc => ?_, rfl⟩
            rcases Nat.lt_or_ge c cut with hlt | hge
            · obtain ⟨hle, hslash'⟩ := hbefore c hc hlt
              exact absurd hslash' (hnone c hle)
            · exact hfrom c hc hge

/-- **The index arithmetic finds the longest known prefix**: it takes its spelling, and the rest stays;
a path of which no prefix is known stays as it is. -/
theorem canonicalCase_spec (m : CaseMap) (v : Text) :
    (∃ c V, LongestKnown m (foldCase v) c V ∧ canonicalCase true m v = V ++ v.drop c) ∨
      (∀ c, IsCut (foldCase v) c → m.spelling ((foldCase v).take c) = none) ∧
        canonicalCase true m v = v := by
  by_cases hskip : m.entries = [] ∨ v = []
  · rw [canonicalCase, if_pos (Or.inr hskip)]
    refine Or.inr ⟨fun c hc => ?_, rfl⟩
    rcases hskip with hnil | rfl
    · rw [CaseMap.spelling, hnil, List.lookup_nil]
    · have hpos := hc.1
      have hle := hc.le_length
      rw [length_foldCase, List.length_nil] at hle
      omega
  · rw [canonicalCase, if_neg (by simpa using hskip)]
    have hne : v ≠ [] := fun h => hskip (Or.inr h)
    have hpos : 0 < (foldCase v).length := by
      rw [length_foldCase]
      exact List.length_pos_of_ne_nil hne
    refine canonicalLoop_spec m v (foldCase v) _ _ le_rfl ⟨hpos, Or.inl rfl⟩ fun c hlt hc => ?_
    have := hc.le_length
    omega

/-! ### What the spelling keeps -/

section Laws

variable {m : CaseMap} {v V : Text} {c : ℕ}

theorem canonicalCase_of_known (h : LongestKnown m (foldCase v) c V) :
    canonicalCase true m v = V ++ v.drop c := by
  rcases canonicalCase_spec m v with ⟨c', V', h', heq⟩ | ⟨hnone, _⟩
  · obtain ⟨rfl, rfl⟩ := h.unique h'
    exact heq
  · have hknown := h.known
    rw [hnone c h.cut] at hknown
    simp at hknown

/-- The spelling of a path has its folding. -/
theorem foldCase_canonicalCase (m : CaseMap) (v : Text) :
    foldCase (canonicalCase true m v) = foldCase v := by
  rcases canonicalCase_spec m v with ⟨c, V, h, heq⟩ | ⟨_, heq⟩
  · rw [heq, foldCase_append, CaseMap.foldCase_spelling h.known, foldCase_drop, List.take_append_drop]
  · rw [heq]

/-- It is its own spelling: the same prefix is known, in the spelling it already has. -/
theorem canonicalCase_idem (m : CaseMap) (v : Text) :
    canonicalCase true m (canonicalCase true m v) = canonicalCase true m v := by
  rcases canonicalCase_spec m v with ⟨c, V, h, heq⟩ | ⟨_, heq⟩
  · have hfold := foldCase_canonicalCase m v
    rw [heq] at hfold ⊢
    rw [canonicalCase_of_known (v := V ++ v.drop c) (by rw [hfold]; exact h),
      List.drop_left' h.length_eq]
  · rw [heq, heq]

/-- A path that is in the map is spelled as it is there. -/
theorem canonicalCase_eq (hv : v ≠ []) (h : m.spelling (foldCase v) = some V) :
    canonicalCase true m v = V := by
  have hpos : 0 < (foldCase v).length := by
    rw [length_foldCase]
    exact List.length_pos_of_ne_nil hv
  have hlong : LongestKnown m (foldCase v) (foldCase v).length V := by
    refine ⟨⟨hpos, Or.inl rfl⟩, by rwa [List.take_length], fun c hlt hc => ?_⟩
    have := hc.le_length
    omega
  rw [canonicalCase_of_known hlong, length_foldCase, List.drop_length, List.append_nil]

end Laws

/-- **What the spelling of paths keeps**, with the map `m`. -/
structure CaseLaws (m : CaseMap) : Prop where
  idem : ∀ v, canonicalCase true m (canonicalCase true m v) = canonicalCase true m v
  length_eq : ∀ v, (canonicalCase true m v).length = v.length
  fold_eq : ∀ v, foldCase (canonicalCase true m v) = foldCase v
  /-- All spellings of a path in the map get one. -/
  agree : ∀ v w, (m.spelling (foldCase v)).isSome → foldCase w = foldCase v →
    canonicalCase true m w = canonicalCase true m v
  /-- Below a directory in the map only a prefix changes, the longest one in the map. -/
  below : ∀ d r, d ≠ [] → (m.spelling (foldCase d)).isSome →
    ∃ c V, d.length ≤ c ∧ LongestKnown m (foldCase (d ++ '/' :: r)) c V ∧
      canonicalCase true m (d ++ '/' :: r) = V ++ (d ++ '/' :: r).drop c

/-- The laws hold with every map. -/
theorem canonicalCase_laws (m : CaseMap) : CaseLaws m where
  idem := canonicalCase_idem m
  length_eq v := length_of_foldCase_eq (foldCase_canonicalCase m v)
  fold_eq := foldCase_canonicalCase m
  agree := by
    intro v w hknown hfold
    obtain ⟨V, hV⟩ := Option.isSome_iff_exists.1 hknown
    by_cases hv : v = []
    · have hlen := length_of_foldCase_eq hfold
      rw [hv, List.length_nil, List.length_eq_zero_iff] at hlen
      rw [hv, hlen]
    · have hw : w ≠ [] := by
        rintro rfl
        have hlen := length_of_foldCase_eq hfold
        exact hv (List.length_eq_zero_iff.1 hlen.symm)
      rw [canonicalCase_eq hv hV, canonicalCase_eq hw (by rw [hfold]; exact hV)]
  below := by
    intro d r hd hknown
    obtain ⟨D, hD⟩ := Option.isSome_iff_exists.1 hknown
    have hfold : foldCase (d ++ '/' :: r) = foldCase d ++ '/' :: foldCase r := by
      rw [foldCase_append]
      rfl
    have hcut : IsCut (foldCase (d ++ '/' :: r)) d.length := by
      refine ⟨List.length_pos_of_ne_nil hd, Or.inr ?_⟩
      rw [hfold, ← length_foldCase d, List.getElem?_append_right le_rfl, Nat.sub_self]
      rfl
    have hknown : m.spelling ((foldCase (d ++ '/' :: r)).take d.length) = some D := by
      rw [hfold, List.take_left' (length_foldCase d), hD]
    rcases canonicalCase_spec m (d ++ '/' :: r) with ⟨c, V, h, heq⟩ | ⟨hnone, _⟩
    · refine ⟨c, V, ?_, h, heq⟩
      by_contra hlt
      have hlater := h.longest d.length (Nat.not_le.1 hlt) hcut
      rw [hknown] at hlater
      simp at hlater
    · rw [hnone _ hcut] at hknown
      simp at hknown

/-- The longest prefix that is known is written as the map has it. -/
example : canonicalCase true ([['D', 'a'], ['D', 'a', '/', 'S', 'u', 'b']].foldl CaseMap.add .empty)
    ['D', 'A', '/', 's', 'U', 'B', '/', 'N', 'e', 'w'] = ['D', 'a', '/', 'S', 'u', 'b', '/', 'N', 'e', 'w'] := by
  decide

end VidyaGodFS
