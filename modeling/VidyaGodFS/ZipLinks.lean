/-
**The links of an archive, followed by the letter.**

A link of an archive is followed without looking at what lies on the way: the words of its target
are read one after the other from the link's own directory on, an empty word and `.` stay where they
are, `..` goes up, and any other word goes down.  Going up from the root has no meaning, and a link
that does so leads nowhere, even if it came back.

This module says so as relations, on the bytes of the archive, and compares them with the program.

Main definitions:

* `ByteSource.Answers` — a source as its contract has it;
* `Words`, `Leads` — the words of a text, and where they lead;
* `LinkHop`, `LinkHops` — one link of the archive, and a chain of them.

Main results:

* `splitSlash_iff`, `wordsFrom_eq` — the words of a text are what stands between its slashes;
* `pushSegments_iff`, `joinNormalized_iff` — a path is joined as its words lead;
* `resolveZipSymlink_iff` — **a link stands for a file exactly if at most eight links lead to it**.
-/

import VidyaGodFS.ZipScan

set_option relaxedAutoImplicit false
set_option autoImplicit false

namespace VidyaGodFS

open Posix

/-- The source holds the bytes `content`: a read inside them returns all of its range, and one that
reaches past their end comes out shorter than was asked for. -/
structure ByteSource.Answers (src : ByteSource) (content : Bytes) : Prop where
  inside : ∀ t n off, off + n ≤ content.length → src.pread t n off = .ok (slice content off n)
  outside : ∀ t n off bs, 0 < n → content.length < off + n → src.pread t n off = .ok bs →
    bs.length < n

/-- A buffer answers with its bytes. -/
theorem memByteSource_answers (data : Bytes) (h : data.length < 2 ^ 64) :
    (memByteSource data h).Answers data where
  inside _ _ _ _ := rfl
  outside := by
    intro t n off bs hn hlt hread
    obtain rfl := Except.ok.inj hread
    rw [length_slice]
    omega

/-! ### The words of a text -/

/-- `ws` are the words of `text`: they have no slashes, and `text` is them with slashes between. -/
structure Words (text : List Char) (ws : List (List Char)) : Prop where
  nonempty : ws ≠ []
  plain : ∀ w ∈ ws, '/' ∉ w
  joined : List.intercalate ['/'] ws = text

theorem splitSlash_eq_splitOn (text : List Char) : Tree.splitSlash text = text.splitOn '/' := by
  induction text with
  | nil => rfl
  | cons c cs ih =>
      rw [Tree.splitSlash, List.splitOn, List.splitOnP_cons_eq_if_modifyHead, ← List.splitOn, ← ih]
      by_cases hc : c = '/'
      · rw [if_pos hc, if_pos (by simp [hc])]
      · rw [if_neg hc, if_neg (by simp [hc])]
        cases hcs : Tree.splitSlash cs with
        | nil =>
            rw [ih] at hcs
            exact absurd hcs (List.splitOnP_ne_nil _ cs)
        | cons w ws => rfl

/-- **Splitting gives the words**, and they are the only ones. -/
theorem splitSlash_iff {text : List Char} {ws : List (List Char)} :
    Tree.splitSlash text = ws ↔ Words text ws := by
  rw [splitSlash_eq_splitOn]
  constructor
  · rintro rfl
    refine ⟨List.splitOnP_ne_nil _ text, ?_, List.intercalate_splitOn '/'⟩
    rw [← splitSlash_eq_splitOn]
    induction text with
    | nil => simp [Tree.splitSlash]
    | cons c cs ih =>
        rw [Tree.splitSlash]
        split
        · simpa using ih
        · rename_i hc
          cases hcs : Tree.splitSlash cs with
          | nil => simpa using Ne.symm hc
          | cons w ws =>
              rw [hcs] at ih
              intro w' hw'
              rcases List.mem_cons.1 hw' with rfl | hw'
              · simpa using ⟨Ne.symm hc, ih w List.mem_cons_self⟩
              · exact ih w' (List.mem_cons_of_mem _ hw')
  · rintro ⟨hne, hplain, rfl⟩
    exact List.splitOn_intercalate '/' hplain hne

/-- The loop of the program over the words of `p`, from the position `s` on: a word ends before the
next slash, or where `p` ends. -/
def wordsFrom (p : List Char) : ℕ → ℕ → List (List Char)
  | 0, _ => []
  | fuel + 1, s =>
      if s ≤ p.length then
        match (p.drop s).findIdx? (· = '/') with
        | none => [p.drop s]
        | some k => slice p s k :: wordsFrom p fuel (s + k + 1)
      else []

/-- **The loop finds the words.** -/
theorem wordsFrom_eq (p : List Char) :
    ∀ (fuel s : ℕ), s ≤ p.length → p.length - s < fuel →
      wordsFrom p fuel s = Tree.splitSlash (p.drop s) := by
  have hsplit : ∀ text : List Char, Tree.splitSlash text =
      match text.findIdx? (· = '/') with
      | none => [text]
      | some k => text.take k :: Tree.splitSlash (text.drop (k + 1)) := by
    intro text
    induction text with
    | nil => rfl
    | cons c cs ih =>
        rw [Tree.splitSlash, List.findIdx?_cons]
        by_cases hc : c = '/'
        · rw [if_pos hc, if_pos (by simp [hc])]
          rfl
        · rw [if_neg hc, if_neg (by simp [hc]), ih]
          cases cs.findIdx? (· = '/') with
          | none => rfl
          | some k => rfl
  intro fuel
  induction fuel with
  | zero => intro s _ hlt; omega
  | succ fuel ih =>
      intro s hs hlt
      rw [wordsFrom, if_pos hs, hsplit]
      cases hk : (p.drop s).findIdx? (· = '/') with
      | none => rfl
      | some k =>
          have hklt : k < (p.drop s).length := (List.findIdx?_eq_some_iff_getElem.1 hk).1
          rw [List.length_drop] at hklt
          dsimp only
          rw [ih (s + k + 1) (by omega) (by omega), List.drop_drop, slice, Nat.add_assoc]

/-! ### Where words lead -/

/-- **Reading the words `ws` one after the other leads from `p` to `q`.** -/
inductive Leads : Path → List (List Char) → Path → Prop
  | done (p : Path) : Leads p [] p
  | stay {p q : Path} {w : List Char} {ws : List (List Char)} : w = [] ∨ w = ['.'] →
      Leads p ws q → Leads p (w :: ws) q
  | up {p q : Path} {n : Name} {ws : List (List Char)} :
      Leads p ws q → Leads (p ++ [n]) (['.', '.'] :: ws) q
  | down {p q : Path} {w : List Char} {ws : List (List Char)} :
      w ≠ [] → w ≠ ['.'] → w ≠ ['.', '.'] →
      Leads (p ++ [String.ofList w]) ws q → Leads p (w :: ws) q

/-- **Pushing words goes where they lead.** -/
theorem pushSegments_iff {ws : List (List Char)} :
    ∀ {p q : Path}, pushSegments p ws = some q ↔ Leads p ws q := by
  induction ws with
  | nil =>
      intro p q
      constructor
      · rintro ⟨rfl⟩
        exact .done p
      · rintro ⟨⟩
        rfl
  | cons w ws ih =>
      intro p q
      rw [pushSegments]
      constructor
      · intro h
        by_cases hup : w = ['.', '.']
        · rw [if_pos hup] at h
          subst hup
          by_cases hp : p = []
          · rw [if_pos hp] at h
            cases h
          · rw [if_neg hp] at h
            rw [← List.dropLast_append_getLast hp]
            exact .up (ih.1 h)
        · rw [if_neg hup] at h
          by_cases hdown : w ≠ [] ∧ w ≠ ['.']
          · rw [if_pos hdown] at h
            exact .down hdown.1 hdown.2 hup (ih.1 h)
          · rw [if_neg hdown] at h
            refine .stay ?_ (ih.1 h)
            rw [not_and_or, not_not, not_not] at hdown
            exact hdown
      · intro h
        cases h with
        | stay hw h =>
            have hup : w ≠ ['.', '.'] := by rcases hw with rfl | rfl <;> decide
            have hdown : ¬ (w ≠ [] ∧ w ≠ ['.']) := by rcases hw with rfl | rfl <;> decide
            rw [if_neg hup, if_neg hdown]
            exact ih.2 h
        | up h =>
            rw [if_pos rfl, if_neg (by simp), List.dropLast_concat]
            exact ih.2 h
        | down hne hdot hup h =>
            rw [if_neg hup, if_pos ⟨hne, hdot⟩]
            exact ih.2 h

/-- **A directory's name and a target are joined as their words lead**, from the root on. -/
theorem joinNormalized_iff {base q : Path} {target : List Char} :
    joinNormalized base target = some q ↔
      ∃ dir ws, Leads [] (base.map String.toList) dir ∧ Words target ws ∧ Leads dir ws q := by
  rw [joinNormalized]
  constructor
  · intro h
    cases hdir : pushSegments [] (base.map String.toList) with
    | none =>
        rw [hdir] at h
        cases h
    | some dir =>
        rw [hdir] at h
        exact ⟨dir, _, pushSegments_iff.1 hdir, splitSlash_iff.1 rfl, pushSegments_iff.1 h⟩
  · rintro ⟨dir, ws, hdir, hws, hlead⟩
    rw [pushSegments_iff.2 hdir]
    dsimp only
    rw [splitSlash_iff.2 hws]
    exact pushSegments_iff.2 hlead

/-! ### Links and chains of them -/

/-- **The link `E` leads to `T`**: the archive stores its target, as long as a path at most and
relative, and from the directory that `E` stands in the words of the target lead to `T`, never up
from the root. -/
structure LinkHop (Z : ZipIndex) (content : Bytes) (E T : ZipEntry) : Prop where
  link : E.symlink = true
  stored : E.stored = true
  size : 0 < E.size ∧ E.size ≤ 4096
  inside : E.dataOffset + E.size ≤ content.length
  relative : (linkTarget (slice content E.dataOffset E.size)).head? ≠ some '/'
  leads : ∃ dir ws q, Leads [] (E.name.dropLast.map String.toList) dir ∧
    Words (linkTarget (slice content E.dataOffset E.size)) ws ∧ Leads dir ws q ∧ Z.entry q = some T

/-- A chain of `n` links from `E` to `T`. -/
inductive LinkHops (Z : ZipIndex) (content : Bytes) : ℕ → ZipEntry → ZipEntry → Prop
  | start (E : ZipEntry) : LinkHops Z content 0 E E
  | hop {n : ℕ} {E N T : ZipEntry} : LinkHop Z content E N → LinkHops Z content n N T →
      LinkHops Z content (n + 1) E T

variable {Z : ZipIndex} {content : Bytes}

/-- What following a link reads and joins. -/
theorem followZipLink_view (Z : ZipIndex) (E : ZipEntry) (s : VfsState) :
    (followZipLink Z E : View _) s =
      if E.stored = false ∨ E.size = 0 ∨ 4096 < E.size then none
      else
        match Z.src.pread 0 E.size E.dataOffset with
        | .error _ => none
        | .ok bs =>
            if bs.length ≠ E.size then none
            else if (linkTarget bs).head? = some '/' then none
            else (joinNormalized E.name.dropLast (linkTarget bs)).bind Z.entry := by
  rw [followZipLink]
  split
  · rfl
  · rw [View.bind_apply, View.look_apply]
    cases Z.src.pread 0 E.size E.dataOffset with
    | error e => rfl
    | ok bs =>
        dsimp only
        split
        · rfl
        · split
          · rfl
          · cases joinNormalized E.name.dropLast (linkTarget bs) with
            | none => rfl
            | some resolved => rfl

/-- **One link is followed to where it leads.** -/
theorem followZipLink_iff (hsrc : Z.src.Answers content) {E T : ZipEntry}
    (hlink : E.symlink = true) (s : VfsState) :
    (followZipLink Z E : View _) s = some T ↔ LinkHop Z content E T := by
  rw [followZipLink_view]
  constructor
  · intro h
    by_cases hguard : E.stored = false ∨ E.size = 0 ∨ 4096 < E.size
    · rw [if_pos hguard] at h
      cases h
    · rw [if_neg hguard] at h
      have hstored : E.stored = true := by
        rw [← Bool.not_eq_false]
        exact fun hE => hguard (Or.inl hE)
      cases hread : Z.src.pread 0 E.size E.dataOffset with
      | error e =>
          rw [hread] at h
          cases h
      | ok bs =>
          rw [hread] at h
          dsimp only at h
          by_cases hshort : bs.length ≠ E.size
          · rw [if_pos hshort] at h
            cases h
          · rw [if_neg hshort] at h
            -- a read as long as was asked for lies inside the archive
            have hin : E.dataOffset + E.size ≤ content.length := by
              by_contra hout
              have := hsrc.outside 0 E.size E.dataOffset bs (by omega) (by omega) hread
              omega
            obtain rfl : slice content E.dataOffset E.size = bs :=
              Except.ok.inj ((hsrc.inside 0 _ _ hin).symm.trans hread)
            by_cases habs : (linkTarget (slice content E.dataOffset E.size)).head? = some '/'
            · rw [if_pos habs] at h
              cases h
            · rw [if_neg habs] at h
              obtain ⟨q, hjoin, hentry⟩ := Option.bind_eq_some_iff.1 h
              obtain ⟨dir, ws, hdir, hws, hlead⟩ := joinNormalized_iff.1 hjoin
              exact ⟨hlink, hstored, by omega, hin, habs, dir, ws, q, hdir, hws, hlead, hentry⟩
  · rintro ⟨-, hstored, ⟨hpos, hle⟩, hin, hrel, dir, ws, q, hdir, hws, hlead, hentry⟩
    have hlen : (slice content E.dataOffset E.size).length = E.size := length_slice_of_le hin
    have hguard : ¬ (E.stored = false ∨ E.size = 0 ∨ 4096 < E.size) := by
      rw [hstored]
      rintro (h | h | h)
      · cases h
      · omega
      · omega
    rw [if_neg hguard, hsrc.inside 0 _ _ hin]
    dsimp only
    rw [if_neg (not_not.2 hlen), if_neg hrel, joinNormalized_iff.2 ⟨dir, ws, hdir, hws, hlead⟩]
    exact hentry

/-- **Chasing ends at what is no link** exactly where a chain of links leads that is not longer. -/
theorem chaseZipLinks_iff (hsrc : Z.src.Answers content) {T : ZipEntry} (hT : T.symlink = false)
    (s : VfsState) :
    ∀ (hops : ℕ) (E : ZipEntry), (chaseZipLinks Z hops E : View _) s = some T ↔
      ∃ n, n ≤ hops ∧ LinkHops Z content n E T := by
  intro hops
  induction hops with
  | zero =>
      intro E
      constructor
      · rintro ⟨rfl⟩
        exact ⟨0, le_rfl, .start _⟩
      · rintro ⟨n, hn, hchain⟩
        obtain rfl := Nat.le_zero.1 hn
        cases hchain
        rfl
  | succ hops ih =>
      intro E
      rw [chaseZipLinks]
      by_cases hlink : E.symlink = true
      · rw [if_pos hlink, View.bind_apply]
        constructor
        · intro h
          cases hnext : (followZipLink Z E : View _) s with
          | none =>
              rw [hnext] at h
              cases h
          | some N =>
              rw [hnext] at h
              obtain ⟨n, hn, hchain⟩ := (ih N).1 h
              exact ⟨n + 1, by omega, .hop ((followZipLink_iff hsrc hlink s).1 hnext) hchain⟩
        · rintro ⟨n, hn, hchain⟩
          cases hchain with
          | start =>
              rw [hlink] at hT
              cases hT
          | @hop n _ N _ hhop hchain =>
              rw [(followZipLink_iff hsrc hlink s).2 hhop]
              exact (ih N).2 ⟨n, by omega, hchain⟩
      · rw [if_neg hlink]
        constructor
        · rintro ⟨rfl⟩
          exact ⟨0, by omega, .start _⟩
        · rintro ⟨n, hn, hchain⟩
          cases hchain with
          | start => rfl
          | hop hhop _ => exact absurd hhop.link hlink

/-- **A link of an archive stands for `T` exactly if a chain of one to eight links leads to it**, and
it is neither a link nor a directory.  In every other case the answer is that it stands for no
file. -/
theorem resolveZipSymlink_iff (hsrc : Z.src.Answers content) {E : ZipEntry}
    (hlink : E.symlink = true) (w : World) (hw : w.Clear) :
    ∃ r, (resolveZipSymlink Z E : Prog World Errno _) w = (.ok r, w) ∧
      ∀ T, r = some T ↔ ∃ n, 1 ≤ n ∧ n ≤ 8 ∧ LinkHops Z content n E T ∧
        T.symlink = false ∧ T.isDir = false := by
  refine ⟨_, (resolveZipSymlink_agrees Z E).run w hw, fun T => ?_⟩
  rw [resolveZipSymlink, View.bind_apply]
  constructor
  · intro h
    cases hchase : (chaseZipLinks Z 8 E : View _) w.state with
    | none =>
        rw [hchase] at h
        cases h
    | some cur =>
        rw [hchase] at h
        have h' : (if cur.symlink || cur.isDir then none else some cur) = some T := h
        obtain ⟨hplain, rfl⟩ : ¬ (cur.symlink || cur.isDir) = true ∧ cur = T := by
          simpa only [Option.ite_none_left_eq_some, Option.some.injEq] using h'
        obtain ⟨hsym, hdir⟩ : cur.symlink = false ∧ cur.isDir = false := by simpa using hplain
        obtain ⟨n, hn, hchain⟩ := (chaseZipLinks_iff hsrc hsym w.state 8 E).1 hchase
        refine ⟨n, ?_, hn, hchain, hsym, hdir⟩
        cases hchain with
        | start =>
            rw [hlink] at hsym
            cases hsym
        | hop _ _ => omega
  · rintro ⟨n, _, hn, hchain, hsym, hdir⟩
    rw [(chaseZipLinks_iff hsrc hsym w.state 8 E).2 ⟨n, hn, hchain⟩]
    change (if T.symlink || T.isDir then none else some T) = some T
    rw [hsym, hdir]
    rfl

/-! A link `d/l` with the target `../f`. -/

def climbBytes : Bytes := [0x2e, 0x2e, 0x2f, 0x66]

def climbLink : ZipEntry := ⟨["d", "l"], 4, false, true, true, 0⟩

def climbFile : ZipEntry := ⟨["f"], 4, false, false, true, 0⟩

def climbZip : ZipIndex :=
  ⟨memByteSource climbBytes (by decide), [(["d", "l"], climbLink), (["f"], climbFile)], []⟩

theorem climbLink_hop : LinkHop climbZip climbBytes climbLink climbFile where
  link := rfl
  stored := rfl
  size := by decide
  inside := by decide
  relative := by decide
  leads := ⟨["d"], [['.', '.'], ['f']], ["f"], pushSegments_iff.1 (by decide),
    splitSlash_iff.1 (by decide), pushSegments_iff.1 (by decide), by decide⟩

/-- It stands for the file beside its directory. -/
theorem climbLink_resolves :
    (resolveZipSymlink climbZip climbLink : Prog World Errno _) (calm ⟨Disk.blank, ∅, ∅,
      fun _ => ⟨∅, ∅⟩⟩) = (.ok (some climbFile), calm ⟨Disk.blank, ∅, ∅, fun _ => ⟨∅, ∅⟩⟩) := by
  obtain ⟨r, hrun, hr⟩ := resolveZipSymlink_iff (Z := climbZip)
    (memByteSource_answers climbBytes (by decide)) (show climbLink.symlink = true from rfl)
    (calm ⟨Disk.blank, ∅, ∅, fun _ => ⟨∅, ∅⟩⟩) rfl
  rw [hrun, (hr climbFile).2 ⟨1, le_rfl, by omega, .hop climbLink_hop (.start _), rfl, rfl⟩]

end VidyaGodFS
