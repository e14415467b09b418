import PosixCommons.Framework.Memory
import PosixCommons.Framework.Strings

/-!
# Substring search from the right

`common/boyermoore.c`: `generateAlphaSkip` and `generateFindSkip` build the two
tables of a query, and `boyermooreSearchIn` slides the query over a text,
comparing from the right and shifting by the larger of the two entries at the
byte that failed.

The search is right for any tables that are safe (`Boyermoore.Safe`): each entry
moves the query forward, and never past an alignment that is compatible with what
the comparison saw. `searchLoop_spec` proves it for the text as the comparison
reads it, `fold` of its bytes, so that it serves both case modes. The tables are
safe for the query as the mode reads it (`boyermooreInit_shift`), which in the
case-sensitive mode is the query (`boyermooreInit_safe`): the second loop of
`generateFindSkip` overwrites an entry of the first only with the distance of a
reoccurrence of the matched suffix, and later writes are shorter.
-/

open Framework

namespace Posixc

/-- `tolower` on a byte, in the C locale. A byte from 0x80 on is taken as unsigned and is no
letter. Where `char` is signed the source passes it as a negative number, for which C promises
nothing, so what is said of such bytes is said of a library that leaves them as they are. -/
def tolower (c : UInt8) : UInt8 := if 65 ≤ c ∧ c ≤ 90 then c + 32 else c

/-- `toupper` on a byte, in the C locale. -/
def toupper (c : UInt8) : UInt8 := if 97 ≤ c ∧ c ≤ 122 then c - 32 else c

/-- A byte as the comparisons of a mode read it. -/
def fold (caseSensitive : Bool) (c : UInt8) : UInt8 :=
  if caseSensitive then c else tolower c

/-- `posixc_boyermoore`. -/
structure Boyermoore where
  alphaSkipLookup : Region ℕ
  findSkipLookup : Region ℕ
  caseSensitive : Bool
  query : Region UInt8
  queryLen : ℕ

/-- The loop of `is_prefix`, with `n` iterations left. -/
def isPrefixLoop (s : Region UInt8) (pos : ℕ) (caseSensitive : Bool) : ℕ → ℕ → Exec Bool
  | 0, _ => .ok true
  | n + 1, i => do
    let x ← s.read i
    let y ← s.read (i + pos)
    if fold caseSensitive x ≠ fold caseSensitive y then return false
    else isPrefixLoop s pos caseSensitive n (i + 1)

/-- `is_prefix`: whether the suffix of `s` from `pos` on is also a prefix of it. -/
def isPrefix (s : Region UInt8) (sLen pos : ℕ) (caseSensitive : Bool) : Exec Bool :=
  isPrefixLoop s pos caseSensitive (sLen - pos) 0

/-- The loop of `suffix_len`, with `n` iterations left. -/
def suffixLenLoop (s : Region UInt8) (sLen pos : ℕ) (caseSensitive : Bool) :
    ℕ → ℕ → Exec ℕ
  | 0, i => .ok i
  | n + 1, i => do
    let x ← s.read (pos - i)
    let y ← s.read (sLen - i - 1)
    if fold caseSensitive x ≠ fold caseSensitive y then return i
    else suffixLenLoop s sLen pos caseSensitive n (i + 1)

/-- `suffix_len`: how far the bytes of `s` up to `pos` agree with its end, short
of the first byte. -/
def suffixLen (s : Region UInt8) (sLen pos : ℕ) (caseSensitive : Bool) : Exec ℕ :=
  suffixLenLoop s sLen pos caseSensitive pos 0

/-- The first loop of `generate_find_skip`, from `i` down. -/
def prefixPass (find : Region UInt8) (fLen : ℕ) (caseSensitive : Bool) :
    ℕ → ℕ → Region ℕ → Exec (Region ℕ)
  | 0, _, sl => .ok sl
  | i + 1, lastPrefix, sl => do
    let found ← isPrefix find fLen (i + 1) caseSensitive
    let lastPrefix := if found then i + 1 else lastPrefix
    let sl ← sl.write i (lastPrefix + (fLen - (i + 1)))
    prefixPass find fLen caseSensitive i lastPrefix sl

/-- The second loop of `generate_find_skip`, with `n` iterations left. -/
def suffixPass (find : Region UInt8) (fLen : ℕ) (caseSensitive : Bool) :
    ℕ → ℕ → Region ℕ → Exec (Region ℕ)
  | 0, _, sl => .ok sl
  | n + 1, i, sl => do
    let sLen ← suffixLen find fLen i caseSensitive
    let x ← find.read (i - sLen)
    let y ← find.read (fLen - 1 - sLen)
    let sl ← if x ≠ y then sl.write (fLen - 1 - sLen) (fLen - 1 - i + sLen) else pure sl
    suffixPass find fLen caseSensitive n (i + 1) sl

/-- `generate_find_skip`. -/
def generateFindSkip (find : Region UInt8) (fLen : ℕ) (caseSensitive : Bool) :
    Exec (Region ℕ) := do
  let sl ← prefixPass find fLen caseSensitive fLen fLen (Region.alloc fLen)
  suffixPass find fLen caseSensitive fLen 0 sl

/-- The first loop of `generate_alpha_skip`, with `n` iterations left. -/
def alphaFill (fLen : ℕ) : ℕ → ℕ → Region ℕ → Exec (Region ℕ)
  | 0, _, skip => .ok skip
  | n + 1, i, skip => do
    let skip ← skip.write i fLen
    alphaFill fLen n (i + 1) skip

/-- The second loop of `generate_alpha_skip`, with `n` iterations left; `fLen` is
already decremented. -/
def alphaPass (find : Region UInt8) (fLen : ℕ) (caseSensitive : Bool) :
    ℕ → ℕ → Region ℕ → Exec (Region ℕ)
  | 0, _, skip => .ok skip
  | n + 1, i, skip => do
    let c ← find.read i
    let skip ←
      if caseSensitive then skip.write c.toNat (fLen - i)
      else do
        let skip ← skip.write (tolower c).toNat (fLen - i)
        skip.write (toupper c).toNat (fLen - i)
    alphaPass find fLen caseSensitive n (i + 1) skip

/-- `generate_alpha_skip`. -/
def generateAlphaSkip (find : Region UInt8) (fLen : ℕ) (caseSensitive : Bool) :
    Exec (Region ℕ) := do
  let skip ← alphaFill fLen 256 0 (Region.alloc 256)
  alphaPass find (fLen - 1) caseSensitive (fLen - 1) 0 skip

/-- `posixc_boyermoore_init`. -/
def boyermooreInit (query : Region UInt8) (queryLen : ℕ) (caseSensitive : Bool) :
    Exec Boyermoore := do
  let alphaSkipLookup ← generateAlphaSkip query queryLen caseSensitive
  let findSkipLookup ← generateFindSkip query queryLen caseSensitive
  return { alphaSkipLookup, findSkipLookup, caseSensitive, query, queryLen }

/-- The inner loop of the search, with `k` bytes of the query left to compare. It
stops at the first that differs, or at `k = 0` with `pos` one before the match,
which wraps when the match is at the start of the text. -/
def compareBack (bm : Boyermoore) (text : Region UInt8) : ℕ → ℕ → Exec (ℕ × ℕ)
  | 0, pos => .ok (pos, 0)
  | k + 1, pos => do
    let x ← text.read pos
    let y ← bm.query.read k
    if fold bm.caseSensitive x = y then compareBack bm text k (toSize (pos + (2 ^ 64 - 1)))
    else return (pos, k + 1)

/-- The outer loop of the search. -/
def searchLoop (bm : Boyermoore) (text : Region UInt8) (textLen : ℕ) :
    ℕ → ℕ → Exec (Option ℕ)
  | 0, _ => .error .exhausted
  | fuel + 1, pos =>
    if pos < textLen then do
      let (pos, k) ← compareBack bm text bm.queryLen pos
      if k = 0 then return some (toSize (pos + 1))
      else do
        let c ← text.read pos
        let alpha ← bm.alphaSkipLookup.read c.toNat
        let find ← bm.findSkipLookup.read (k - 1)
        searchLoop bm text textLen fuel (toSize (pos + max alpha find))
    else return none

/-- `posixc_boyermoore_search_in`. The result is an offset into `text`, `none`
for `NULL`. -/
def boyermooreSearchIn (fuel : ℕ) (bm : Boyermoore) (text : Region UInt8) (textLen : ℕ) :
    Exec (Option ℕ) :=
  searchLoop bm text textLen fuel (toSize (bm.queryLen + (2 ^ 64 - 1)))

/-- `posixc_boyermoore_contains`. -/
def boyermooreContains (fuel : ℕ) (text : Region UInt8) (textLen : ℕ)
    (query : Region UInt8) (queryLen : ℕ) : Exec (Option ℕ) := do
  let tmp ← boyermooreInit query queryLen true
  boyermooreSearchIn fuel tmp text textLen

/-- `posixc_boyermoore_contains_case_ignored`. -/
def boyermooreContainsCaseIgnored (fuel : ℕ) (text : Region UInt8) (textLen : ℕ)
    (query : Region UInt8) (queryLen : ℕ) : Exec (Option ℕ) := do
  let tmp ← boyermooreInit query queryLen false
  boyermooreSearchIn fuel tmp text textLen

/-! ### Safe shifts -/

/-- An alpha entry of the query `q` for the raw byte `c`, which the comparison
reads as `φ c`: no further than to the last place where `q` has that byte, its
end excepted. -/
structure AlphaSafe (q : List UInt8) (φ : UInt8 → UInt8) (alpha : UInt8 → ℕ) : Prop where
  le : ∀ c, alpha c ≤ q.length
  last : ∀ c i, i + 1 < q.length → q[i]? = some (φ c) → alpha c ≤ q.length - 1 - i

/-- A find entry of the query `q` at the index `j` that failed: forward, and no
further than to a compatible alignment. -/
structure FindSafe (q : List UInt8) (find : ℕ → ℕ) : Prop where
  forward : ∀ j, j < q.length → q.length - 1 - j < find j
  le : ∀ j, j < q.length → find j ≤ q.length - 1 - j + q.length
  safe : ∀ j e, j < q.length → 0 < e → Compatible q j e → find j ≤ q.length - 1 - j + e

/-- **No alignment is passed over.** From an alignment `a` at which the query
matches beyond `j` and fails at `j`, the larger of two safe shifts moves forward
and reaches no further than the next occurrence. -/
theorem shift_safe {q t : List UInt8} {φ : UInt8 → UInt8} {alpha : UInt8 → ℕ} {find : ℕ → ℕ}
    (hα : AlphaSafe q φ alpha) (hf : FindSafe q find) {a j : ℕ} {c : UInt8}
    (hj : j < q.length) (hc : t[a + j]? = some (φ c))
    (hmatch : ∀ k, j < k → k < q.length → t[a + k]? = q[k]?) (hfail : q[j]? ≠ some (φ c)) :
    q.length - 1 - j < max (alpha c) (find j) ∧
      ∀ e, 0 < e → OccursAt q t (a + e) → max (alpha c) (find j) ≤ q.length - 1 - j + e := by
  refine ⟨lt_of_lt_of_le (hf.forward j hj) (le_max_right _ _), fun e he hocc => max_le ?_ ?_⟩
  · -- the byte that failed comes under the query at `j - e`, or the query is past it
    by_cases hej : e ≤ j
    · have hat : q[j - e]? = some (φ c) := by
        rw [← hc, ← hocc.2 (j - e) (by omega)]
        congr 1
        omega
      have h := hα.last c (j - e) (by omega) hat
      omega
    · have h := hα.le c
      omega
  · -- the occurrence is compatible with the comparison
    refine hf.safe j e hj he (hocc.compatible hj hmatch ?_)
    rw [hc]
    exact hfail.symm

/-! ### The search -/

/-- An object whose query is `q` and whose tables are safe for it. -/
structure Boyermoore.Safe (bm : Boyermoore) (q : List UInt8) : Prop where
  query : bm.query.Holds q
  len : bm.queryLen = q.length
  alpha : ∃ alpha, AlphaSafe q (fold bm.caseSensitive) alpha ∧
    ∀ c : UInt8, bm.alphaSkipLookup.read c.toNat = .ok (alpha c)
  find : ∃ find, FindSafe q find ∧ ∀ j, j < q.length → bm.findSkipLookup.read j = .ok (find j)

section Search

variable {bm : Boyermoore} {q t : List UInt8} {text : Region UInt8}

/-- Decrementing a `size_t` that is not zero. -/
theorem toSize_pred {n : ℕ} (h : n < 2 ^ 64) : toSize (n + 1 + (2 ^ 64 - 1)) = n := by
  unfold toSize
  omega

theorem compareBack_le {k k' pos pos' : ℕ}
    (h : compareBack bm text k pos = .ok (pos', k')) : k' ≤ k := by
  -- each iteration takes one from `k`, and stopping takes nothing
  induction k generalizing pos with
  | zero => exact (Prod.mk.inj (Except.ok.inj h)).2.ge
  | succ k ih =>
    rw [compareBack] at h
    obtain ⟨x, -, h⟩ := Exec.bind_eq_ok.mp h
    obtain ⟨y, -, h⟩ := Exec.bind_eq_ok.mp h
    split at h
    · exact (ih h).trans (Nat.le_succ k)
    · exact (Prod.mk.inj (Except.ok.inj h)).2.ge

/-- **The comparison from the right**, at the alignment `a` with `k` bytes left:
it stops at the length `k'` beyond which the text, as the mode reads it, is the
query, and below which it is not. -/
theorem compareBack_spec (hq : bm.query.Holds q) (htext : text.Holds t) (a : ℕ)
    (hsize : t.length < 2 ^ 64) (k : ℕ) (hk : k ≤ q.length) (hfit : a + k ≤ t.length) :
    ∃ k', k' ≤ k ∧
      compareBack bm text k (toSize (a + k + (2 ^ 64 - 1))) =
        .ok (toSize (a + k' + (2 ^ 64 - 1)), k') ∧
      (∀ m, k' ≤ m → m < k → (t.map (fold bm.caseSensitive))[a + m]? = q[m]?) ∧
      (∀ j, k' = j + 1 → (t.map (fold bm.caseSensitive))[a + j]? ≠ q[j]?) := by
  induction k with
  | zero => exact ⟨0, le_rfl, rfl, fun m hm hlt => by omega, fun j hj => by omega⟩
  | succ k ih =>
    have hat : a + k < t.length := by omega
    have hkq : k < q.length := hk
    have hmap : (t.map (fold bm.caseSensitive))[a + k]? =
        some (fold bm.caseSensitive t[a + k]) := by
      rw [List.getElem?_map, List.getElem?_eq_getElem hat, Option.map_some]
    rw [← Nat.add_assoc, toSize_pred (by omega), compareBack, htext.read hat, Exec.ok_bind,
      hq.read hkq, Exec.ok_bind]
    by_cases heq : fold bm.caseSensitive t[a + k] = q[k]
    · -- the bytes agree, and the comparison goes on one to the left
      rw [if_pos heq]
      obtain ⟨k', hle, hrun, hmatch, hfail⟩ := ih (by omega) (by omega)
      refine ⟨k', by omega, hrun, fun m hm hlt => ?_, hfail⟩
      rcases Nat.lt_succ_iff_lt_or_eq.mp hlt with hlt | rfl
      · exact hmatch m hm hlt
      · rw [hmap, heq, List.getElem?_eq_getElem hkq]
    · -- the bytes differ, with nothing compared before
      rw [if_neg heq]
      refine ⟨k + 1, le_rfl, ?_, fun m hm hlt => by omega, fun j hj => ?_⟩
      · rw [← Nat.add_assoc, toSize_pred (by omega)]
        rfl
      · obtain rfl : k = j := by omega
        rw [hmap, List.getElem?_eq_getElem hkq]
        exact fun h => heq (Option.some.inj h)

/-- **The search loop.** With the query aligned at `a` and no occurrence before
it, the loop returns the leftmost occurrence of the query in the text as the mode
reads it. Every iteration moves the alignment forward, so it needs no more
iterations than there are alignments left. -/
theorem searchLoop_spec (hsafe : bm.Safe q) (htext : text.Holds t) (hq : q ≠ [])
    (hsize : t.length + 2 * q.length < 2 ^ 64) (fuel : ℕ) :
    ∀ a, 0 < fuel → t.length < fuel + a → a + q.length ≤ t.length + 2 * q.length →
      (∀ b, b < a → ¬ OccursAt q (t.map (fold bm.caseSensitive)) b) →
      ∃ r, IsFirst q (t.map (fold bm.caseSensitive)) r ∧
        searchLoop bm text t.length fuel (a + q.length - 1) = .ok r := by
  have hpos : 0 < q.length := List.length_pos_iff.mpr hq
  obtain ⟨alpha, hα, hαread⟩ := hsafe.alpha
  obtain ⟨find, hf, hfread⟩ := hsafe.find
  induction fuel with
  | zero => intro a h; omega
  | succ fuel ih =>
    intro a _ hfuel hbound hbefore
    rw [searchLoop]
    by_cases hin : a + q.length - 1 < t.length
    · -- the query fits at `a`, and is compared there
      rw [if_pos hin, hsafe.len]
      obtain ⟨k, hk, hrun, hmatch, hfail⟩ := compareBack_spec hsafe.query htext
        a (by omega) q.length le_rfl (by omega)
      rw [show a + q.length - 1 = toSize (a + q.length + (2 ^ 64 - 1)) by
        unfold toSize; omega, hrun, Exec.ok_bind]
      rcases k with _ | j
      · -- the whole query matched
        refine ⟨some a, ⟨⟨by rw [List.length_map]; omega, fun m hm => ?_⟩, hbefore⟩, ?_⟩
        · exact hmatch m (Nat.zero_le m) hm
        · change Except.ok (some (toSize (toSize (a + 0 + (2 ^ 64 - 1)) + 1))) = _
          rw [show toSize (toSize (a + 0 + (2 ^ 64 - 1)) + 1) = a by unfold toSize; omega]
      · -- the byte at `j` failed
        have hat : a + j < t.length := by omega
        have hjq : j < q.length := by omega
        have hmap : (t.map (fold bm.caseSensitive))[a + j]? =
            some (fold bm.caseSensitive t[a + j]) := by
          rw [List.getElem?_map, List.getElem?_eq_getElem hat, Option.map_some]
        have hne : q[j]? ≠ some (fold bm.caseSensitive t[a + j]) := by
          rw [← hmap]
          exact (hfail j rfl).symm
        obtain ⟨hforward, hsafeShift⟩ := shift_safe hα hf hjq hmap
          (fun m hm hlt => hmatch m hm hlt) hne
        have hαle := hα.le t[a + j]
        have hfle := hf.le j hjq
        set shift := max (alpha t[a + j]) (find j) with hshift
        have hshiftle : shift ≤ q.length - 1 - j + q.length := by omega
        -- the alignment after the shift
        obtain ⟨a', ha'⟩ : ∃ a', a' + q.length - 1 = a + j + shift ∧
            a' = a + (shift - (q.length - 1 - j)) := ⟨_, by omega, rfl⟩
        -- none of the alignments before it is an occurrence
        obtain ⟨r, hr, hloop⟩ := ih a' (by omega) (by omega) (by omega) (by
          intro b hb hocc
          rcases lt_trichotomy b a with hlt | rfl | hgt
          · exact hbefore b hlt hocc
          · exact hfail j rfl (hocc.2 j hjq)
          · have h := hsafeShift (b - a) (by omega) (by rwa [Nat.add_sub_of_le hgt.le])
            omega)
        refine ⟨r, hr, ?_⟩
        rw [← Nat.add_assoc, toSize_pred (by omega)]
        dsimp only
        rw [if_neg (Nat.succ_ne_zero j),
          htext.read hat, Exec.ok_bind, hαread, Exec.ok_bind, Nat.add_sub_cancel, hfread j hjq,
          Exec.ok_bind, ← hshift, toSize_of_lt (by omega), ← ha'.1]
        exact hloop
    · -- the query no longer fits
      refine ⟨none, fun b hocc => ?_, if_neg hin⟩
      have hfit := hocc.1
      rw [List.length_map] at hfit
      exact hbefore b (by omega) hocc

/-- **The search.** With safe tables, `posixc_boyermoore_search_in` returns the
leftmost occurrence of the query in the text as the mode reads it. -/
theorem boyermooreSearchIn_spec (hsafe : bm.Safe q) (htext : text.Holds t) (hq : q ≠ [])
    (hsize : t.length + 2 * q.length < 2 ^ 64) {fuel : ℕ} (hfuel : t.length < fuel) :
    ∃ r, IsFirst q (t.map (fold bm.caseSensitive)) r ∧
      boyermooreSearchIn fuel bm text t.length = .ok r := by
  have hpos : 0 < q.length := List.length_pos_iff.mpr hq
  have h := searchLoop_spec hsafe htext hq hsize fuel 0 (by omega) (by omega) (by omega)
    (fun b hb => by omega)
  rwa [Nat.zero_add, show q.length - 1 = toSize (bm.queryLen + (2 ^ 64 - 1)) by
    rw [hsafe.len]; unfold toSize; omega] at h

end Search

/-! ### The alpha table -/

section AlphaTable

variable {find : Region UInt8} {q : List UInt8} {cs : Bool}

/-- The alpha table after the first `m` bytes of the query: every entry is set,
and safe for those bytes. -/
def AlphaInv (q : List UInt8) (cs : Bool) (m : ℕ) (skip : Region ℕ) : Prop :=
  skip.len = 256 ∧ ∀ c : UInt8, ∃ v, skip.read c.toNat = .ok v ∧ v ≤ q.length ∧
    ∀ i, i < m → q[i]? = some (fold cs c) → v ≤ q.length - 1 - i

theorem alphaFill_spec (fLen n : ℕ) :
    ∀ i skip, i + n = 256 → skip.len = 256 → (∀ m, m < i → skip.read m = .ok fLen) →
      ∃ skip', alphaFill fLen n i skip = .ok skip' ∧ skip'.len = 256 ∧
        ∀ m, m < 256 → skip'.read m = .ok fLen := by
  induction n with
  | zero => exact fun i skip hi hlen hread => ⟨skip, rfl, hlen, fun m hm => hread m (by omega)⟩
  | succ n ih =>
    intro i skip hi hlen hread
    rw [alphaFill, Region.write_ok (by omega), Exec.ok_bind]
    refine ih (i + 1) _ (by omega) hlen fun m hm => ?_
    -- the entry just written, and those before it
    by_cases hmi : m = i
    · subst hmi
      exact Region.put_read_self (by omega) _
    · rw [Region.put_read_of_ne hmi]
      exact hread m (by omega)

/-- Writing the distance of the byte at `i` to an entry keeps the table safe for
the bytes before, and makes the entry safe for that byte. -/
theorem AlphaInv.put {m : ℕ} {skip : Region ℕ} (h : AlphaInv q cs m skip) (c : UInt8) :
    AlphaInv q cs m (skip.put c.toNat (q.length - 1 - m)) ∧
      (skip.put c.toNat (q.length - 1 - m)).read c.toNat = .ok (q.length - 1 - m) := by
  have hlt : c.toNat < skip.len := by
    rw [h.1]
    exact c.toNat_lt
  refine ⟨⟨h.1, fun d => ?_⟩, Region.put_read_self hlt _⟩
  by_cases hd : d = c
  · -- the bytes before `m` are no closer to the end than `m` is
    subst hd
    exact ⟨_, Region.put_read_self hlt _, by omega, fun i hi _ => by omega⟩
  · rw [Region.put_read_of_ne fun he => hd (UInt8.toNat_inj.mp he)]
    exact h.2 d

/-- The letters that a byte is written under cover every byte the comparison
reads as it. -/
theorem eq_tolower_or_toupper {c d : UInt8} (h : d = tolower c) :
    c = tolower d ∨ c = toupper d := by
  -- a table over the 256 bytes
  have hall : ∀ n : Fin 256, UInt8.ofFin n = tolower (tolower (UInt8.ofFin n)) ∨
      UInt8.ofFin n = toupper (tolower (UInt8.ofFin n)) := by decide +kernel
  subst h
  exact hall c.toFin

theorem alphaPass_spec (cs : Bool) (hfind : find.Holds q) (n : ℕ) :
    ∀ i skip, i + n = q.length - 1 → AlphaInv q cs i skip →
      ∃ skip', alphaPass find (q.length - 1) cs n i skip = .ok skip' ∧
        AlphaInv q cs (q.length - 1) skip' := by
  induction n with
  | zero => exact fun i skip hi hinv => ⟨skip, rfl, by rwa [← hi]⟩
  | succ n ih =>
    intro i skip hi hinv
    have hiq : i < q.length := by omega
    have hlt : ∀ c : UInt8, c.toNat < 256 := fun c => c.toNat_lt
    rw [alphaPass, hfind.read hiq, Exec.ok_bind]
    cases cs with
    | true =>
      -- the byte is written under itself
      obtain ⟨h₁, h₂⟩ := hinv.put q[i]
      rw [if_pos rfl, Region.write_ok (by rw [hinv.1]; exact hlt _), Exec.ok_bind]
      refine ih (i + 1) _ (by omega) ⟨h₁.1, fun c => ?_⟩
      obtain ⟨v, hv, hle, hsafe⟩ := h₁.2 c
      refine ⟨v, hv, hle, fun k hk hc => ?_⟩
      rcases Nat.lt_succ_iff_lt_or_eq.mp hk with hk | rfl
      · exact hsafe k hk hc
      · -- the entry of the byte itself
        rw [List.getElem?_eq_getElem hiq, Option.some.injEq] at hc
        obtain rfl : c = q[k] := hc.symm
        rw [h₂] at hv
        exact (Except.ok.inj hv).ge
    | false =>
      -- the byte is written under both its cases
      obtain ⟨h₁, hr₁⟩ := hinv.put (tolower q[i])
      obtain ⟨h₂, hr₂⟩ := h₁.put (toupper q[i])
      rw [if_neg Bool.false_ne_true, Region.write_ok (by rw [hinv.1]; exact hlt _), Exec.ok_bind,
        Region.write_ok (by rw [Region.put_len, hinv.1]; exact hlt _), Exec.ok_bind]
      refine ih (i + 1) _ (by omega) ⟨h₂.1, fun c => ?_⟩
      obtain ⟨v, hv, hle, hsafe⟩ := h₂.2 c
      refine ⟨v, hv, hle, fun k hk hc => ?_⟩
      rcases Nat.lt_succ_iff_lt_or_eq.mp hk with hk | rfl
      · exact hsafe k hk hc
      · -- an entry of one of the two cases of the byte
        rw [List.getElem?_eq_getElem hiq, Option.some.injEq] at hc
        by_cases hup : c = toupper q[k]
        · subst hup
          rw [hr₂] at hv
          exact (Except.ok.inj hv).ge
        · rw [Region.put_read_of_ne fun he => hup (UInt8.toNat_inj.mp he),
            (eq_tolower_or_toupper hc).resolve_right hup, hr₁] at hv
          exact (Except.ok.inj hv).ge

/-- **The alpha table** is safe in both modes. -/
theorem generateAlphaSkip_spec (cs : Bool) (hfind : find.Holds q) (hq : q ≠ []) :
    ∃ skip, generateAlphaSkip find q.length cs = .ok skip ∧
      ∃ alpha, AlphaSafe q (fold cs) alpha ∧ ∀ c : UInt8, skip.read c.toNat = .ok (alpha c) := by
  have hpos : 0 < q.length := List.length_pos_iff.mpr hq
  obtain ⟨skip₀, hrun₀, hlen₀, hread₀⟩ := alphaFill_spec q.length 256 0 (Region.alloc 256) rfl rfl
    (fun m hm => by omega)
  -- an entry that no byte was written to is the length of the query
  obtain ⟨skip, hrun, hinv⟩ := alphaPass_spec cs hfind (q.length - 1) 0 skip₀ (Nat.zero_add _)
    ⟨hlen₀, fun c => ⟨q.length, hread₀ _ c.toNat_lt, le_rfl, fun i hi => by omega⟩⟩
  choose alpha hread hle hlast using hinv.2
  refine ⟨skip, ?_, alpha, ⟨hle, fun c i hi hc => hlast c i (by omega) hc⟩, hread⟩
  rw [generateAlphaSkip, hrun₀, Exec.ok_bind, hrun]

theorem tolower_tolower (c : UInt8) : tolower (tolower c) = tolower c := by
  unfold tolower
  grind

theorem toupper_tolower (c : UInt8) : toupper (tolower c) = toupper c := by
  unfold tolower toupper
  grind

/-- The second loop writes the same for a query and for what the mode reads it as. -/
theorem alphaPass_fold {find' : Region UInt8} (hfind : find.Holds q)
    (hfind' : find'.Holds (q.map (fold cs))) (fLen n : ℕ) :
    ∀ i skip, i + n ≤ q.length → alphaPass find fLen cs n i skip = alphaPass find' fLen cs n i skip := by
  induction n with
  | zero => exact fun _ _ _ => rfl
  | succ n ih =>
    intro i skip hi
    have hlt : i < q.length := by omega
    have hrest : ∀ skip, alphaPass find fLen cs n (i + 1) skip =
        alphaPass find' fLen cs n (i + 1) skip := fun skip => ih (i + 1) skip (by omega)
    rw [alphaPass, alphaPass, hfind.read hlt, hfind'.read (by rwa [List.length_map]),
      List.getElem_map]
    simp only [Exec.ok_bind, hrest]
    -- either case of a letter has the same two cases
    cases cs with
    | true => rfl
    | false => simp only [fold, Bool.false_eq_true, if_false, tolower_tolower, toupper_tolower]

/-- **The alpha table as the mode reads the query.** It is safe for that, too. -/
theorem generateAlphaSkip_fold (cs : Bool) (hfind : find.Holds q) (hq : q ≠ []) :
    ∃ skip, generateAlphaSkip find q.length cs = .ok skip ∧
      ∃ alpha, AlphaSafe (q.map (fold cs)) (fold cs) alpha ∧
        ∀ c : UInt8, skip.read c.toNat = .ok (alpha c) := by
  have hfind' := Region.holds_ofList (q.map (fold cs))
  obtain ⟨skip, hskip, halpha⟩ := generateAlphaSkip_spec cs hfind' (mt List.map_eq_nil_iff.mp hq)
  refine ⟨skip, ?_, halpha⟩
  calc generateAlphaSkip find q.length cs
      = generateAlphaSkip (Region.ofList (q.map (fold cs))) q.length cs := by
        rw [generateAlphaSkip, generateAlphaSkip]
        simp only [alphaPass_fold hfind hfind' (q.length - 1) (q.length - 1) 0 _ (by omega)]
    _ = .ok skip := by rw [← hskip, List.length_map]

end AlphaTable

/-! ### The find table -/

section FindTable

variable {find : Region UInt8} {q : List UInt8} {cs : Bool}

/-- The query shifted by `e` agrees with itself as far as it overlaps. -/
def IsShift (q : List UInt8) (e : ℕ) : Prop :=
  ∀ k, e ≤ k → k < q.length → q[k - e]? = q[k]?

theorem map_getElem?_eq_iff {i j : ℕ} (hi : i < q.length) (hj : j < q.length) :
    (q.map (fold cs))[i]? = (q.map (fold cs))[j]? ↔ fold cs q[i] = fold cs q[j] := by
  rw [List.getElem?_map, List.getElem?_map, List.getElem?_eq_getElem hi,
    List.getElem?_eq_getElem hj, Option.map_some, Option.map_some, Option.some.injEq]

theorem isPrefixLoop_spec (hfind : find.Holds q) {pos : ℕ} (n : ℕ) :
    ∀ i, i + pos + n = q.length →
      (∀ k, k < i → (q.map (fold cs))[k]? = (q.map (fold cs))[k + pos]?) →
      ∃ b, isPrefixLoop find pos cs n i = .ok b ∧
        (b = true ↔ IsShift (q.map (fold cs)) pos) := by
  induction n with
  | zero =>
    intro i hi hbefore
    refine ⟨true, rfl, fun _ k hk hlt => ?_, fun _ => rfl⟩
    rw [List.length_map] at hlt
    rw [hbefore (k - pos) (by omega), Nat.sub_add_cancel hk]
  | succ n ih =>
    intro i hi hbefore
    have hi₁ : i < q.length := by omega
    have hi₂ : i + pos < q.length := by omega
    rw [isPrefixLoop, hfind.read hi₁, Exec.ok_bind, hfind.read hi₂, Exec.ok_bind]
    by_cases heq : fold cs q[i] = fold cs q[i + pos]
    · -- one more byte of the overlap agrees
      rw [if_neg (not_not.mpr heq)]
      refine ih (i + 1) (by omega) fun k hk => ?_
      rcases Nat.lt_succ_iff_lt_or_eq.mp hk with hk | rfl
      · exact hbefore k hk
      · exact (map_getElem?_eq_iff hi₁ hi₂).mpr heq
    · -- a byte of the overlap differs
      rw [if_pos heq]
      refine ⟨false, rfl, fun h => absurd h Bool.false_ne_true, fun h => ?_⟩
      have hk := h (i + pos) (by omega) (by rwa [List.length_map])
      rw [Nat.add_sub_cancel] at hk
      exact absurd ((map_getElem?_eq_iff hi₁ hi₂).mp hk) heq

/-- `is_prefix` decides whether the query shifted by `pos` agrees with itself. -/
theorem isPrefix_spec (cs : Bool) (hfind : find.Holds q) {pos : ℕ} (hpos : pos ≤ q.length) :
    ∃ b, isPrefix find q.length pos cs = .ok b ∧
      (b = true ↔ IsShift (q.map (fold cs)) pos) :=
  isPrefixLoop_spec hfind (q.length - pos) 0 (by omega) fun k hk => by omega

theorem suffixLenLoop_spec (hfind : find.Holds q) {pos : ℕ} (hpos : pos < q.length) (n : ℕ) :
    ∀ i, i + n = pos →
      (∀ k, k < i → (q.map (fold cs))[pos - k]? = (q.map (fold cs))[q.length - 1 - k]?) →
      ∃ s, suffixLenLoop find q.length pos cs n i = .ok s ∧ s ≤ pos ∧
        (∀ k, k < s → (q.map (fold cs))[pos - k]? = (q.map (fold cs))[q.length - 1 - k]?) ∧
        (s < pos → (q.map (fold cs))[pos - s]? ≠ (q.map (fold cs))[q.length - 1 - s]?) := by
  induction n with
  | zero => exact fun i hi hbefore => ⟨i, rfl, by omega, hbefore, fun h => by omega⟩
  | succ n ih =>
    intro i hi hbefore
    have hi₁ : pos - i < q.length := by omega
    have hi₂ : q.length - 1 - i < q.length := by omega
    rw [suffixLenLoop, hfind.read hi₁, Exec.ok_bind,
      show q.length - i - 1 = q.length - 1 - i by omega, hfind.read hi₂, Exec.ok_bind]
    by_cases heq : fold cs q[pos - i] = fold cs q[q.length - 1 - i]
    · -- the agreement is one byte longer
      rw [if_neg (not_not.mpr heq)]
      refine ih (i + 1) (by omega) fun k hk => ?_
      rcases Nat.lt_succ_iff_lt_or_eq.mp hk with hk | rfl
      · exact hbefore k hk
      · exact (map_getElem?_eq_iff hi₁ hi₂).mpr heq
    · rw [if_pos heq]
      exact ⟨i, rfl, by omega, hbefore, fun _ h => heq ((map_getElem?_eq_iff hi₁ hi₂).mp h)⟩

/-- `suffix_len` measures the agreement of the bytes up to `pos` with the end of
the query, stopping short of the first byte. -/
theorem suffixLen_spec (cs : Bool) (hfind : find.Holds q) {pos : ℕ} (hpos : pos < q.length) :
    ∃ s, suffixLen find q.length pos cs = .ok s ∧ s ≤ pos ∧
      (∀ k, k < s → (q.map (fold cs))[pos - k]? = (q.map (fold cs))[q.length - 1 - k]?) ∧
      (s < pos → (q.map (fold cs))[pos - s]? ≠ (q.map (fold cs))[q.length - 1 - s]?) :=
  suffixLenLoop_spec hfind hpos pos 0 (Nat.zero_add _) fun k hk => by omega

/-- The find table once the second loop has covered the bytes before `m`. The
entry at `j` moves the alignment by some `d`, and no further than to a compatible
alignment: beyond the byte that failed on account of the first loop, and at or
before it as far as the second loop has got. -/
def FindInv (q : List UInt8) (m : ℕ) (sl : Region ℕ) : Prop :=
  sl.len = q.length ∧ ∀ j, j < q.length → ∃ d, sl.read j = .ok (q.length - 1 - j + d) ∧
    0 < d ∧ d ≤ q.length ∧ (∀ e, j < e → Compatible q j e → d ≤ e) ∧
    (∀ e, 0 < e → e ≤ j → q.length - 1 - e < m → Compatible q j e → d ≤ e)

/-- The first loop: from `i` down, with `lastPrefix` the least shift above `i`
that agrees with the query. -/
theorem prefixPass_spec (cs : Bool) (hfind : find.Holds q) (i : ℕ) :
    ∀ lastPrefix sl, i ≤ q.length → 0 < lastPrefix → lastPrefix ≤ q.length →
      sl.len = q.length →
      (∀ e, i < e → e ≤ q.length → IsShift (q.map (fold cs)) e → lastPrefix ≤ e) →
      (∀ j, i ≤ j → j < q.length → ∃ d, sl.read j = .ok (q.length - 1 - j + d) ∧ 0 < d ∧
        d ≤ q.length ∧ ∀ e, j < e → e ≤ q.length → IsShift (q.map (fold cs)) e → d ≤ e) →
      ∃ sl', prefixPass find q.length cs i lastPrefix sl = .ok sl' ∧
        FindInv (q.map (fold cs)) 0 sl' := by
  induction i with
  | zero =>
    intro lastPrefix sl hi hpos hle hlen hshift hdone
    refine ⟨sl, rfl, by rw [hlen, List.length_map], fun j hj => ?_⟩
    rw [List.length_map] at hj
    obtain ⟨d, hread, hd, hdle, hsafe⟩ := hdone j (Nat.zero_le j) hj
    refine ⟨d, by rw [hread, List.length_map], hd, by rwa [List.length_map], ?_, fun e _ _ h => by omega⟩
    intro e hje hcomp
    by_cases heq : e ≤ q.length
    · -- beyond the failed byte, compatible alignments are shifts of the query
      refine hsafe e hje heq fun k hk hlt => hcomp.1 k (by omega) hlt hk
    · omega
  | succ i ih =>
    intro lastPrefix sl hi hpos hle hlen hshift hdone
    -- the iteration that writes the entry `i`
    obtain ⟨b, hb, hiff⟩ := isPrefix_spec cs hfind hi
    set last := if b = true then i + 1 else lastPrefix with hlast
    have hrun : prefixPass find q.length cs (i + 1) lastPrefix sl =
        prefixPass find q.length cs i last (sl.put i (last + (q.length - (i + 1)))) := by
      rw [prefixPass, hb, Exec.ok_bind]
      change (sl.write i (last + (q.length - (i + 1))) >>= _) = _
      rw [Region.write_ok (by omega), Exec.ok_bind]
    rw [hrun]
    have hlastpos : 0 < last := by rw [hlast]; split <;> omega
    have hlastle : last ≤ q.length := by rw [hlast]; split <;> omega
    -- `last` is the least shift above `i`, which is `i + 1` if that is one
    have hnext : ∀ e, i < e → e ≤ q.length → IsShift (q.map (fold cs)) e → last ≤ e := by
      intro e hie heq hsh
      rcases Nat.lt_or_ge (i + 1) e with hlt | hge
      · have h := hshift e hlt heq hsh
        rw [hlast]
        split <;> omega
      · obtain rfl : e = i + 1 := by omega
        rw [hlast, if_pos (hiff.mpr hsh)]
    refine ih last _ (by omega) hlastpos hlastle hlen hnext fun j hij hj => ?_
    rcases Nat.lt_or_ge i j with hlt | hge
    · rw [Region.put_read_of_ne (by omega)]
      exact hdone j hlt hj
    · obtain rfl : j = i := by omega
      refine ⟨last, ?_, hlastpos, hlastle, hnext⟩
      rw [Region.put_read_self (by omega)]
      congr 1
      omega

/-- **The step of the second loop.** At the byte `m` the loop measures the
agreement `s` with the end of the query. The only entry that this alignment can
matter to is the one at `q.length - 1 - s`, and it is written unless the bytes
before the agreement are equal. -/
theorem suffixPass_spec (cs : Bool) (hfind : find.Holds q) (n : ℕ) :
    ∀ m sl, m + n = q.length → FindInv (q.map (fold cs)) m sl →
      ∃ sl', suffixPass find q.length cs n m sl = .ok sl' ∧
        FindInv (q.map (fold cs)) q.length sl' := by
  induction n with
  | zero => exact fun m sl hm hinv => ⟨sl, rfl, by rwa [← hm]⟩
  | succ n ih =>
    intro m sl hm hinv
    have hmq : m < q.length := by omega
    obtain ⟨s, hs, hsm, hagree, hstop⟩ := suffixLen_spec cs hfind hmq
    have hi₁ : m - s < q.length := by omega
    have hi₂ : q.length - 1 - s < q.length := by omega
    have hlen : (q.map (fold cs)).length = q.length := List.length_map _
    rw [suffixPass, hs, Exec.ok_bind, hfind.read hi₁, Exec.ok_bind, hfind.read hi₂, Exec.ok_bind]
    -- an entry that the alignment matters to is the one written
    have honly : ∀ j e, j < q.length → 0 < e → e ≤ j → q.length - 1 - e = m →
        Compatible (q.map (fold cs)) j e → j = q.length - 1 - s ∧ q[m - s] ≠ q[q.length - 1 - s] := by
      intro j e hj he hej hem hcomp
      have hs₀ : s = q.length - 1 - j := by
        rcases lt_trichotomy s (q.length - 1 - j) with hlt | heq | hgt
        · -- the agreement would stop inside the matched suffix
          have h := hcomp.1 (q.length - 1 - s) (by omega) (by omega) (by omega)
          rw [show q.length - 1 - s - e = m - s by omega] at h
          exact absurd h (hstop (by omega))
        · exact heq
        · -- the agreement would reach the byte that failed
          have h := hagree (q.length - 1 - j) hgt
          rw [show m - (q.length - 1 - j) = j - e by omega,
            show q.length - 1 - (q.length - 1 - j) = j by omega] at h
          exact absurd h (hcomp.2 hej)
      refine ⟨by omega, fun heq => hcomp.2 hej ?_⟩
      rw [show j - e = m - s by omega, show j = q.length - 1 - s by omega]
      exact (map_getElem?_eq_iff hi₁ hi₂).mpr (by rw [heq])
    by_cases hwrite : q[m - s] ≠ q[q.length - 1 - s]
    · rw [if_pos hwrite, Region.write_ok (by rw [hinv.1, hlen]; exact hi₂), Exec.ok_bind]
      refine ih (m + 1) _ (by omega) ⟨hinv.1, fun j hj => ?_⟩
      rw [hlen] at hj ⊢
      by_cases hjs : j = q.length - 1 - s
      · -- the entry written: the last byte never gets here, so it moves forward
        have hmlast : m ≠ q.length - 1 := by
          rintro rfl
          exact hwrite rfl
        refine ⟨q.length - 1 - m, ?_, by omega, by omega, fun e he _ => by omega,
          fun e _ _ hem _ => by omega⟩
        rw [hjs, Region.put_read_self (by rw [hinv.1, hlen]; exact hi₂)]
        congr 1
        omega
      · -- another entry stays, and this alignment does not matter to it
        rw [Region.put_read_of_ne hjs]
        obtain ⟨d, hread, hd, hdle, hbeyond, hwithin⟩ := hinv.2 j (by rwa [hlen])
        rw [hlen] at hread hdle hwithin
        refine ⟨d, hread, hd, hdle, hbeyond, fun e he hej hem hcomp => ?_⟩
        rcases Nat.lt_succ_iff_lt_or_eq.mp hem with hlt | heq
        · exact hwithin e he hej hlt hcomp
        · exact absurd (honly j e hj he hej heq hcomp).1 hjs
    · -- nothing is written, and the alignment matters to no entry
      rw [if_neg hwrite]
      refine ih (m + 1) _ (by omega) ⟨hinv.1, fun j hj => ?_⟩
      rw [hlen] at hj ⊢
      obtain ⟨d, hread, hd, hdle, hbeyond, hwithin⟩ := hinv.2 j (by rwa [hlen])
      rw [hlen] at hread hdle hwithin
      refine ⟨d, hread, hd, hdle, hbeyond, fun e he hej hem hcomp => ?_⟩
      rcases Nat.lt_succ_iff_lt_or_eq.mp hem with hlt | heq
      · exact hwithin e he hej hlt hcomp
      · exact absurd (honly j e hj he hej heq hcomp).2 hwrite

/-- **The find table** is safe for the query as the mode reads it. -/
theorem generateFindSkip_spec (cs : Bool) (hfind : find.Holds q) (hq : q ≠ []) :
    ∃ sl, generateFindSkip find q.length cs = .ok sl ∧
      ∃ skip, FindSafe (q.map (fold cs)) skip ∧
        ∀ j, j < q.length → sl.read j = .ok (skip j) := by
  have hpos : 0 < q.length := List.length_pos_iff.mpr hq
  obtain ⟨sl₀, hrun₀, hinv₀⟩ := prefixPass_spec cs hfind q.length q.length
    (Region.alloc q.length) le_rfl hpos le_rfl rfl (fun e h h' => by omega) (fun j h h' => by omega)
  obtain ⟨sl, hrun, hinv⟩ := suffixPass_spec cs hfind q.length 0 sl₀ (Nat.zero_add _) hinv₀
  have hlen : (q.map (fold cs)).length = q.length := List.length_map _
  choose! d hread hd hdle hbeyond hwithin using hinv.2
  refine ⟨sl, by rw [generateFindSkip, hrun₀, Exec.ok_bind, hrun], fun j => q.length - 1 - j + d j,
    ⟨?_, ?_, ?_⟩, fun j hj => ?_⟩
  · intro j hj
    have := hd j hj
    rw [hlen] at *
    omega
  · intro j hj
    have := hdle j hj
    rw [hlen] at *
    omega
  · intro j e hj he hcomp
    -- the first loop saw the shifts beyond `j`, the second those within
    have hde : d j ≤ e := by
      rcases Nat.lt_or_ge j e with hlt | hge
      · exact hbeyond j hj e hlt hcomp
      · exact hwithin j hj e he hge (by rw [hlen] at *; omega) hcomp
    rw [hlen]
    omega
  · rw [hread j (by rwa [hlen]), hlen]

/-- The object that `posixc_boyermoore_init` makes. Its tables are safe for the query
as the mode reads it. -/
theorem boyermooreInit_tables (cs : Bool) (hfind : find.Holds q) (hq : q ≠ []) :
    ∃ skip sl, boyermooreInit find q.length cs = .ok ⟨skip, sl, cs, find, q.length⟩ ∧
      (∃ alpha, AlphaSafe (q.map (fold cs)) (fold cs) alpha ∧
        ∀ c : UInt8, skip.read c.toNat = .ok (alpha c)) ∧
      ∃ find, FindSafe (q.map (fold cs)) find ∧ ∀ j, j < q.length → sl.read j = .ok (find j) := by
  obtain ⟨skip, hskip, halpha⟩ := generateAlphaSkip_fold cs hfind hq
  obtain ⟨sl, hsl, hfindskip⟩ := generateFindSkip_spec cs hfind hq
  refine ⟨skip, sl, ?_, halpha, hfindskip⟩
  rw [boyermooreInit, hskip, Exec.ok_bind, hsl, Exec.ok_bind]
  rfl

/-- The tables that `posixc_boyermoore_init` builds are safe whenever the query
is written as the mode reads it: in the case-sensitive mode always. -/
theorem boyermooreInit_safe (cs : Bool) (hfind : find.Holds q) (hq : q ≠ [])
    (hfold : q.map (fold cs) = q) :
    ∃ bm, boyermooreInit find q.length cs = .ok bm ∧ bm.Safe q ∧ bm.caseSensitive = cs := by
  obtain ⟨skip, sl, hinit, halpha, hskip⟩ := boyermooreInit_tables cs hfind hq
  rw [hfold] at halpha hskip
  exact ⟨_, hinit, ⟨hfind, rfl, halpha, hskip⟩, rfl⟩

/-- The byte of the text at `i` is that of the query at `k`, as the mode compares
them. -/
def SameAt (cs : Bool) (q t : List UInt8) (i k : ℕ) : Prop :=
  (t[i]?).map (fold cs) = (q[k]?).map (fold cs)

instance (cs : Bool) (q t : List UInt8) (i k : ℕ) : Decidable (SameAt cs q t i k) :=
  inferInstanceAs (Decidable (_ = _))

/-- The whole query matches the text at the alignment `a`. -/
def MatchesAt (cs : Bool) (q t : List UInt8) (a : ℕ) : Prop :=
  a + q.length ≤ t.length ∧ ∀ k, k < q.length → SameAt cs q t (a + k) k

/-- A match is an occurrence of what the mode reads in what it reads. -/
theorem matchesAt_iff {t : List UInt8} {a : ℕ} :
    MatchesAt cs q t a ↔ OccursAt (q.map (fold cs)) (t.map (fold cs)) a := by
  simp only [MatchesAt, SameAt, OccursAt, List.length_map, List.getElem?_map]

/-- **Shifts are safe in both modes.** At an alignment `a` inside a text where the last
`m` bytes of the query match and the one before them does not, adding the larger of the
two entries to the position leads to the end of a later alignment `a'`, and the query
matches at none of those between. -/
theorem boyermooreInit_shift (cs : Bool) (hfind : find.Holds q) (hq : q ≠ []) :
    ∃ bm, boyermooreInit find q.length cs = .ok bm ∧
      ∀ (t : List UInt8) (a m j : ℕ) (c : UInt8), a + q.length ≤ t.length → m < q.length →
        j = q.length - 1 - m → (∀ k, j < k → k < q.length → SameAt cs q t (a + k) k) →
        t[a + j]? = some c → ¬ SameAt cs q t (a + j) j →
        ∃ alpha skip, bm.alphaSkipLookup.read c.toNat = .ok alpha ∧
          bm.findSkipLookup.read j = .ok skip ∧
          ∃ a', a + j + max alpha skip = a' + (q.length - 1) ∧ a < a' ∧
            ∀ b, a < b → b < a' → ¬ MatchesAt cs q t b := by
  obtain ⟨skip, sl, hinit, ⟨alpha, hα, hαread⟩, ⟨find', hf, hfread⟩⟩ :=
    boyermooreInit_tables cs hfind hq
  refine ⟨_, hinit, fun t a m j c hfit hm hjm hmatch hc hfail => ?_⟩
  have hlen : (q.map (fold cs)).length = q.length := List.length_map _
  have hj : j < q.length := by omega
  -- the comparison, of the text and the query as the mode reads them
  have hread : (t.map (fold cs))[a + j]? = some (fold cs c) := by
    rw [List.getElem?_map, hc, Option.map_some]
  have hbeyond : ∀ k, j < k → k < (q.map (fold cs)).length →
      (t.map (fold cs))[a + k]? = (q.map (fold cs))[k]? := by
    intro k hjk hk
    rw [hlen] at hk
    rw [List.getElem?_map, List.getElem?_map]
    exact hmatch k hjk hk
  have hstop : (q.map (fold cs))[j]? ≠ some (fold cs c) := by
    rw [← hread, List.getElem?_map, List.getElem?_map]
    exact Ne.symm hfail
  obtain ⟨hforward, hnone⟩ := shift_safe hα hf (by rwa [hlen]) hread hbeyond hstop
  rw [hlen] at hforward hnone
  refine ⟨alpha c, find' j, hαread c, hfread j hj,
    a + j + max (alpha c) (find' j) - (q.length - 1), by omega, by omega, fun b hab hb hocc => ?_⟩
  -- a match is no nearer than the end of the shift
  have hle := hnone (b - a) (by omega) (by
    rw [Nat.add_sub_of_le hab.le]
    exact matchesAt_iff.mp hocc)
  omega

/-- The query `Aba` at the start of the text `xBaba`: the comparison fails at its last
byte. -/
theorem boyermooreInit_shift_xBaba :
    ∃ bm, boyermooreInit (Region.ofList [65, 98, 97]) 3 false = .ok bm ∧
      ∃ alpha skip, bm.alphaSkipLookup.read 120 = .ok alpha ∧
        bm.findSkipLookup.read 0 = .ok skip ∧ ∃ a', max alpha skip = a' + 2 ∧ 0 < a' ∧
          ∀ b, 0 < b → b < a' → ¬ MatchesAt false [65, 98, 97] [120, 66, 97, 98, 97] b := by
  obtain ⟨bm, hinit, hshift⟩ :=
    boyermooreInit_shift false (Region.holds_ofList [65, 98, 97]) (by decide)
  have hmatch : ∀ k, 0 < k → k < 3 →
      SameAt false [65, 98, 97] [120, 66, 97, 98, 97] (0 + k) k := by
    intro k hpos hk
    obtain rfl | rfl : k = 1 ∨ k = 2 := by omega
    · rfl
    · rfl
  obtain ⟨alpha, skip, halpha, hskip, a', ha', hrest⟩ := hshift [120, 66, 97, 98, 97] 0 2 0 120
    (by decide) (by decide) rfl hmatch rfl (by decide)
  rw [Nat.zero_add] at ha'
  exact ⟨bm, hinit, alpha, skip, halpha, hskip, a', ha', hrest⟩

end FindTable

/-! ### The case-sensitive search -/

section Contains

variable {text query : Region UInt8} {t q : List UInt8}

theorem map_fold_true (xs : List UInt8) : xs.map (fold true) = xs := List.map_id xs

/-- **The case-sensitive search.** `posixc_boyermoore_contains` returns the
leftmost occurrence of the query in the text, `NULL` when there is none. -/
theorem boyermooreContains_spec (htext : text.Holds t) (hquery : query.Holds q) (hq : q ≠ [])
    (hsize : t.length + 2 * q.length < 2 ^ 64) :
    ∃ r, IsFirst q t r ∧
      Exec.Returns (fun fuel => boyermooreContains fuel text t.length query q.length) r := by
  obtain ⟨bm, hinit, hsafe, hcs⟩ := boyermooreInit_safe true hquery hq (map_fold_true q)
  obtain ⟨r, hr, -⟩ := boyermooreSearchIn_spec hsafe htext hq hsize (Nat.lt_succ_self _)
  rw [hcs, map_fold_true] at hr
  refine ⟨r, hr, t.length + 1, fun fuel hfuel => ?_⟩
  -- every bound from there on gives the leftmost occurrence, which is unique
  obtain ⟨r', hr', hrun⟩ := boyermooreSearchIn_spec hsafe htext hq hsize hfuel
  rw [hcs, map_fold_true] at hr'
  change boyermooreContains fuel text t.length query q.length = .ok r
  rw [boyermooreContains, hinit, Exec.ok_bind, hrun, hr.unique hr']

/-- **The search over exactly its arguments.** The text, the query and the two
tables are arrays of exactly their lengths, and every access to them is checked;
`posixc_boyermoore_contains` returns the leftmost position of the query, and
`NULL` exactly when there is none. -/
theorem boyermooreContains_leftmost (t q : List UInt8) (hq : q ≠ [])
    (hsize : t.length + 2 * q.length < 2 ^ 64) :
    ∃ r, Exec.Returns (fun fuel => boyermooreContains fuel (Region.ofList t) t.length
        (Region.ofList q) q.length) r ∧
      IsFirst q t r ∧ (r = none ↔ ¬ q <:+: t) := by
  obtain ⟨r, hr, hret⟩ :=
    boyermooreContains_spec (Region.holds_ofList t) (Region.holds_ofList q) hq hsize
  refine ⟨r, hret, hr, ?_⟩
  rw [← hr.isSome_iff]
  cases r <;> simp

/-- A periodic query, found at its second alignment. -/
theorem boyermooreContains_leftmost_abab :
    ∃ r, Exec.Returns (fun fuel => boyermooreContains fuel
        (Region.ofList [97, 98, 98, 97, 98, 97, 98]) 7 (Region.ofList [97, 98, 97, 98]) 4) r ∧
      IsFirst ([97, 98, 97, 98] : List UInt8) [97, 98, 98, 97, 98, 97, 98] r ∧
      (r = none ↔ ¬ ([97, 98, 97, 98] : List UInt8) <:+: [97, 98, 98, 97, 98, 97, 98]) :=
  boyermooreContains_leftmost [97, 98, 98, 97, 98, 97, 98] [97, 98, 97, 98] (by decide) (by decide)

/-- Over no text at all the search returns `NULL`. -/
theorem boyermooreContains_zero (hquery : query.Holds q) (hq : q ≠ []) (fuel : ℕ) :
    boyermooreContains (fuel + 1) text 0 query q.length = .ok none := by
  obtain ⟨bm, hinit, -, -⟩ := boyermooreInit_safe true hquery hq (map_fold_true q)
  rw [boyermooreContains, hinit, Exec.ok_bind, boyermooreSearchIn, searchLoop,
    if_neg (Nat.not_lt_zero _)]
  rfl

/-- The loop does not run off a text that it is told is long enough for one more
shift: it finds something or reads outside the text. -/
theorem searchLoop_ne_none {bm : Boyermoore} (hsafe : bm.Safe q) {textLen : ℕ}
    (hlong : text.len + 2 * q.length ≤ textLen) (hsize : textLen < 2 ^ 64) (fuel : ℕ) :
    ∀ pos, pos < textLen → searchLoop bm text textLen fuel pos ≠ .ok none := by
  obtain ⟨alpha, hα, hαread⟩ := hsafe.alpha
  obtain ⟨find, hf, hfread⟩ := hsafe.find
  induction fuel with
  | zero => intro pos _ h; cases h
  | succ fuel ih =>
    intro pos hpos h
    rw [searchLoop, if_pos hpos] at h
    obtain ⟨⟨pos', k⟩, hback, h⟩ := Exec.bind_eq_ok.mp h
    dsimp only at h
    split at h
    · cases h
    · next hk =>
      obtain ⟨c, hc, h⟩ := Exec.bind_eq_ok.mp h
      obtain ⟨v, hv, h⟩ := Exec.bind_eq_ok.mp h
      obtain ⟨w, hw, h⟩ := Exec.bind_eq_ok.mp h
      -- the byte that failed is inside the text, and a shift is at most twice the query
      have hin := Region.read_lt hc
      have hv' : v ≤ q.length := by
        rw [hαread] at hv
        exact Except.ok.inj hv ▸ hα.le c
      have hkq : k - 1 < q.length := by
        have := compareBack_le hback
        rw [hsafe.len] at this
        omega
      have hw' : w ≤ q.length - 1 - (k - 1) + q.length := by
        rw [hfread (k - 1) hkq] at hw
        exact Except.ok.inj hw ▸ hf.le (k - 1) hkq
      refine ih _ ?_ h
      rw [toSize_of_lt (by omega)]
      omega

/-- Told that the text is longer than it is by two lengths of the query, the
search does not return `NULL`. -/
theorem boyermooreContains_ne_none (hquery : query.Holds q) (hq : q ≠ []) {textLen : ℕ}
    (hlong : text.len + 2 * q.length ≤ textLen) (hsize : textLen < 2 ^ 64) (fuel : ℕ) :
    boyermooreContains fuel text textLen query q.length ≠ .ok none := by
  have hpos : 0 < q.length := List.length_pos_iff.mpr hq
  obtain ⟨bm, hinit, hsafe, -⟩ := boyermooreInit_safe true hquery hq (map_fold_true q)
  intro h
  rw [boyermooreContains, hinit, Exec.ok_bind] at h
  refine searchLoop_ne_none hsafe hlong hsize fuel _ ?_ h
  rw [hsafe.len]
  unfold toSize
  omega

end Contains

end Posixc
