import PosixCommons.Framework.Memory
import PosixCommons.Framework.Strings

/-!
# Substring search with a failure table

`common/kmp.c`: `kmpFailure` builds the table `P` of border lengths of the
needle, `kmpPrefixSearch` scans the text with it and `kmpContains` runs the two
over a table of `needle_len` entries on the stack.

The table is right for every needle of at least two bytes (`kmpFailure_spec`).
The search reads it in the wrong place: where the matched length is `j` the link
to follow is the border of the matched prefix, `P[j-1]`, and the code follows
`P[j+1]`. `Drift` is the walk it takes down those links. It never climbs
(`Drift.le`), but it may leave the table or go round in a cycle, and the length
at which it stops need not be one the text ends with. `Undisturbed` says that on
this text none of that happens, and is what the search needs to be right
(`kmpContains_of_undisturbed`); `OffTable` says that the first walk to go wrong
has no end, and then the search does not return (`not_offTable_of_kmpContains`).
-/

open Framework

namespace Posixc

/-- `kmp_prefix`. -/
structure KmpPrefix where
  P : Region ℕ
  len : ℕ
  str : Region UInt8

/-- `while (j > 0 && c != needle[j]) j = P[slot j];`, the inner loop of both
functions. They differ in the entry they read. -/
def fallback (c : Exec UInt8) (needle : Region UInt8) (P : Region ℕ) (slot : ℕ → ℕ) :
    ℕ → ℕ → Exec ℕ
  | _, 0 => .ok 0
  | 0, _ + 1 => .error .exhausted
  | fuel + 1, j + 1 => do
    let x ← c
    let y ← needle.read (j + 1)
    if x ≠ y then
      let j' ← P.read (slot (j + 1))
      fallback c needle P slot fuel j'
    else
      return j + 1

/-- The `for` loop of `kmp_failure`, with `n` iterations left. -/
def kmpFailureLoop (fuel : ℕ) (str : Region UInt8) :
    ℕ → Region ℕ → ℕ → ℕ → Exec (Region ℕ)
  | 0, P, _, _ => .ok P
  | n + 1, P, i, j => do
    let j ← fallback (str.read i) str P (fun j => j - 1) fuel j
    let x ← str.read i
    let y ← str.read j
    let j := if x = y then j + 1 else j
    let P ← P.write i j
    kmpFailureLoop fuel str n P (i + 1) j

/-- `kmp_failure`. -/
def kmpFailure (fuel : ℕ) (str : Region UInt8) (len : ℕ) (P : Region ℕ) :
    Exec (Region ℕ) := do
  let P ← P.write 0 0
  let P ← P.write 1 0
  kmpFailureLoop fuel str (len - 1) P 1 0

/-- The `for` loop of `kmp_prefix_search`, with `n` iterations left. -/
def kmpSearchLoop (fuel : ℕ) (text : Region UInt8) (pre : KmpPrefix) :
    ℕ → ℕ → ℕ → Exec ℤ
  | 0, _, _ => .ok (-1)
  | n + 1, i, j => do
    let j ← fallback (text.read i) pre.str pre.P (fun j => j + 1) fuel j
    let x ← pre.str.read j
    let y ← text.read i
    let j := if x = y then j + 1 else j
    if j = pre.len then
      return toInt (i - pre.len + 1)
    else
      kmpSearchLoop fuel text pre n (i + 1) j

/-- `kmp_prefix_search`. -/
def kmpPrefixSearch (fuel : ℕ) (text : Region UInt8) (textLen : ℕ) (pre : KmpPrefix) :
    Exec ℤ := kmpSearchLoop fuel text pre textLen 0 0

/-- `posixc_kmp_contains`. The result is an offset into `text`, `none` for
`NULL`. -/
def kmpContains (fuel : ℕ) (text : Region UInt8) (textLen : ℕ) (needle : Region UInt8)
    (needleLen : ℕ) : Exec (Option ℤ) := do
  let P ← kmpFailure fuel needle needleLen (Region.alloc needleLen)
  let rv ← kmpPrefixSearch fuel text textLen ⟨P, needleLen, needle⟩
  return if rv = -1 then none else some rv

/-! ### The failure table -/

/-- The table holds the border lengths of `p`: entry `i` is that of the prefix of
length `i + 1`. -/
def IsFailureTable (p : List UInt8) (P : Region ℕ) : Prop :=
  P.len = p.length ∧ ∀ i, i < p.length → P.read i = .ok (border p (i + 1))

/-- **The inner loop over correct links.** When the entry read at `m` is the
border of the prefix of length `m`, the loop walks down the borders of the
matched prefix and stops at the first that the next byte continues. -/
theorem fallback_of_links {c : UInt8} {needle : Region UInt8} {P : Region ℕ}
    {slot : ℕ → ℕ} {p w : List UInt8} {b j fuel : ℕ} (hneedle : needle.Holds p)
    (hb : b < p.length) (hlink : ∀ m, 0 < m → m ≤ b → P.read (slot m) = .ok (border p m))
    (hcand : Candidate p w b c j) (hfuel : j ≤ fuel) :
    ∃ j', fallback (.ok c) needle P slot fuel j = .ok j' ∧ Candidate p w b c j' ∧
      (j' = 0 ∨ p[j']? = some c) := by
  induction fuel generalizing j with
  | zero =>
    obtain rfl : j = 0 := by omega
    exact ⟨0, rfl, hcand, Or.inl rfl⟩
  | succ fuel ih =>
    rcases j with _ | j
    · exact ⟨0, rfl, hcand, Or.inl rfl⟩
    · -- the loop stops at a length that `c` continues, and else goes to its border
      have hlt : j + 1 < p.length := lt_of_le_of_lt hcand.le hb
      rw [fallback, Exec.ok_bind, hneedle.read hlt, Exec.ok_bind]
      by_cases hc : c = p[j + 1]
      · rw [if_neg (not_not.mpr hc)]
        exact ⟨j + 1, rfl, hcand, Or.inr (by rw [List.getElem?_eq_getElem hlt, ← hc])⟩
      · have hne : p[j + 1]? ≠ some c := by
          rw [List.getElem?_eq_getElem hlt]
          exact fun he => hc (Option.some.inj he).symm
        rw [if_pos hc, hlink (j + 1) (Nat.succ_pos j) hcand.le, Exec.ok_bind]
        have hdown : border p (j + 1) < j + 1 := border_lt (Nat.succ_pos j)
        exact ih (hcand.border (Nat.succ_pos j) hne) (by omega)

/-- One iteration of the table: it writes the next border length. -/
theorem kmpFailureLoop_spec {str : Region UInt8} {p : List UInt8} (hstr : str.Holds p) (n : ℕ) :
    ∀ (P : Region ℕ) (i : ℕ), 0 < i → i + n = p.length → p.length ≤ P.len →
      (∀ m, m < i → P.read m = .ok (border p (m + 1))) →
      ∃ P', (∀ fuel, p.length ≤ fuel → kmpFailureLoop fuel str n P i (border p i) = .ok P') ∧
        P'.len = P.len ∧ ∀ m, m < p.length → P'.read m = .ok (border p (m + 1)) := by
  induction n with
  | zero =>
    intro P i hi hin hroom hread
    exact ⟨P, fun _ _ => rfl, rfl, fun m hm => hread m (by omega)⟩
  | succ n ih =>
    intro P i hi hin hroom hread
    have hlt : i < p.length := by omega
    have hdown := border_lt (p := p) hi
    -- the entries written so far are the links that the inner loop needs
    have hlink : ∀ m, 0 < m → m ≤ i - 1 → P.read (m - 1) = .ok (border p m) := by
      intro m hm hle
      rw [hread (m - 1) (by omega), Nat.sub_add_cancel hm]
    -- the entry written now, and those before it
    have hwritten : ∀ m, m < i + 1 →
        (P.put i (border p (i + 1))).read m = .ok (border p (m + 1)) := by
      intro m hm
      by_cases hmi : m = i
      · subst hmi
        exact Region.put_read_self (by omega) _
      · rw [Region.put_read_of_ne hmi]
        exact hread m (by omega)
    obtain ⟨P', hrest, hlen', hread'⟩ := ih (P.put i (border p (i + 1))) (i + 1) (by omega)
      (by omega) hroom hwritten
    refine ⟨P', fun fuel hfuel => ?_, hlen', hread'⟩
    obtain ⟨j', hrun, hcand, hstop⟩ := fallback_of_links hstr (by omega) hlink
      (candidate_overlap p (p.take i) (i - 1) p[i]) (show border p i ≤ fuel by omega)
    have hj' : j' < p.length := lt_of_le_of_lt hcand.le (by omega)
    -- the extended length is the border of the prefix one longer
    have hnext : (if p[i] = p[j'] then j' + 1 else j') = border p (i + 1) := by
      have hext := hcand.extend_eq (by omega) hstop
      rw [Nat.sub_add_cancel hi, ← List.take_succ_eq_append_getElem hlt] at hext
      rw [border, Nat.add_sub_cancel, ← hext, extend, List.getElem?_eq_getElem hj']
      simp only [Option.some.injEq, eq_comm]
    rw [kmpFailureLoop, hstr.read hlt, show fallback (.ok p[i]) str P (fun j => j - 1) fuel
      (border p i) = .ok j' from hrun]
    simp only [Exec.ok_bind, hstr.read hj', hnext]
    rw [Region.write_ok (by omega), Exec.ok_bind]
    exact hrest fuel hfuel

/-- What `kmp_failure` leaves in an array that has room for the table, whatever the
array held. -/
theorem kmpFailure_table {str : Region UInt8} {p : List UInt8} (hstr : str.Holds p)
    (hlen : 2 ≤ p.length) {P : Region ℕ} (hroom : p.length ≤ P.len) :
    ∃ P', (∀ fuel, p.length ≤ fuel → kmpFailure fuel str p.length P = .ok P') ∧
      P'.len = P.len ∧ ∀ m, m < p.length → P'.read m = .ok (border p (m + 1)) := by
  have hfirst : 0 < P.len := by omega
  have hsecond : 1 < (P.put 0 0).len := by
    rw [Region.put_len]
    omega
  have hzero : ∀ m, m < 1 → ((P.put 0 0).put 1 0).read m = .ok (border p (m + 1)) := by
    intro m hm
    obtain rfl : m = 0 := Nat.lt_one_iff.mp hm
    rw [Region.put_read_of_ne Nat.zero_ne_one, border_one]
    exact Region.put_read_self hfirst 0
  -- the loop starts with the border of the prefix of length 1
  obtain ⟨P', hloop, hlen', hread⟩ := kmpFailureLoop_spec hstr (p.length - 1)
    ((P.put 0 0).put 1 0) 1 Nat.one_pos (by omega) hroom hzero
  refine ⟨P', fun fuel hfuel => ?_, hlen', hread⟩
  rw [kmpFailure, Region.write_ok hfirst, Exec.ok_bind, Region.write_ok hsecond, Exec.ok_bind,
    ← border_one p]
  exact hloop fuel hfuel

/-- **The failure table.** For a needle of at least two bytes `kmp_failure`
returns and leaves in every entry the length of the longest proper border of the
prefix ending there. -/
theorem kmpFailure_spec {str : Region UInt8} {p : List UInt8} (hstr : str.Holds p)
    (hlen : 2 ≤ p.length) {fuel : ℕ} (hfuel : p.length ≤ fuel) :
    ∃ P, kmpFailure fuel str p.length (Region.alloc p.length) = .ok P ∧
      IsFailureTable p P := by
  obtain ⟨P, hrun, htable⟩ := kmpFailure_table hstr hlen (P := Region.alloc p.length) le_rfl
  exact ⟨P, hrun fuel hfuel, htable⟩

/-- `k` is the length of the longest proper prefix of `w` that is also a suffix of
it. -/
def LongestBorder (w : List UInt8) (k : ℕ) : Prop :=
  k < w.length ∧ w.take k <:+ w ∧ ∀ m, m < w.length → w.take m <:+ w → m ≤ k

/-- The border of a prefix is the longest of its borders. -/
theorem longestBorder_border {p : List UInt8} {n : ℕ} (hn : 0 < n) (hle : n ≤ p.length) :
    LongestBorder (p.take n) (border p n) := by
  have hlen : (p.take n).length = n := List.length_take_of_le hle
  have htake : ∀ m, m < n → (p.take n).take m = p.take m := by
    intro m hm
    rw [List.take_take, min_eq_left hm.le]
  have hlt : border p n < n := border_lt hn
  refine ⟨hlt.trans_eq hlen.symm, ?_, fun m hm hsuf => ?_⟩
  · rw [htake _ hlt]
    exact take_overlap_suffix p (n - 1) (p.take n)
  · rw [hlen] at hm
    rw [htake m hm] at hsuf
    exact le_overlap (Nat.le_sub_one_of_lt hm) hsuf

/-- **Every entry of the table.** On a string of at least two bytes `kmp_failure`
returns, and the entry `i` is then the length of the longest proper prefix of the
bytes up to `i` that is also a suffix of them. -/
theorem kmpFailure_longestBorder {str : Region UInt8} {s : List UInt8} {P : Region ℕ}
    (hstr : str.Holds s) (hlen : 2 ≤ s.length) (hroom : s.length ≤ P.len) :
    ∃ P', Exec.Returns (fun fuel => kmpFailure fuel str s.length P) P' ∧
      ∀ i, i < s.length → ∃ k, P'.read i = .ok k ∧ LongestBorder (s.take (i + 1)) k := by
  obtain ⟨P', hrun, -, hread⟩ := kmpFailure_table hstr hlen hroom
  exact ⟨P', ⟨s.length, hrun⟩, fun i hi =>
    ⟨border s (i + 1), hread i hi, longestBorder_border (Nat.succ_pos i) hi⟩⟩

/-- The string `aab`, and an array with one entry more than it needs. -/
theorem kmpFailure_longestBorder_aab :
    ∃ P', Exec.Returns (fun fuel => kmpFailure fuel (Region.ofList [97, 97, 98]) 3
        (Region.alloc 4)) P' ∧
      ∀ i, i < 3 → ∃ k, P'.read i = .ok k ∧
        LongestBorder (([97, 97, 98] : List UInt8).take (i + 1)) k :=
  kmpFailure_longestBorder (Region.holds_ofList [97, 97, 98]) (by decide) (by decide)

/-- With fewer than two entries the second write of `kmp_failure` is outside the
table. -/
theorem kmpFailure_short (fuel : ℕ) (str : Region UInt8) {len : ℕ} (hlen : len < 2) :
    kmpFailure fuel str len (Region.alloc len) = .error .outOfBounds := by
  rw [kmpFailure]
  rcases Nat.eq_zero_or_pos len with rfl | hpos
  · rw [Region.write_of_len_le (by rw [Region.alloc_len]), Exec.error_bind]
  · rw [Region.write_ok (by rwa [Region.alloc_len]), Exec.ok_bind,
      Region.write_of_len_le (by rw [Region.put_len, Region.alloc_len]; omega), Exec.error_bind]

/-! ### The walk of the search -/

/-- The walk of the search from the matched length `j` on the byte `c`: from a
length that `c` does not continue to the entry two places further than the border
of the matched prefix. `Drift p c j j'` when the walk ends, at `j'`. -/
inductive Drift (p : List UInt8) (c : UInt8) : ℕ → ℕ → Prop
  | stop {j : ℕ} (h : j = 0 ∨ p[j]? = some c) : Drift p c j j
  | link {j j' : ℕ} (hj : 0 < j) (hc : p[j]? ≠ some c) (hin : j + 1 < p.length)
      (h : Drift p c (border p (j + 2)) j') : Drift p c j j'

theorem Drift.stopped {p : List UInt8} {c : UInt8} {j j' : ℕ} (h : Drift p c j j') :
    j' = 0 ∨ p[j']? = some c := by
  induction h with
  | stop h => exact h
  | link _ _ _ _ ih => exact ih

theorem Drift.unique {p : List UInt8} {c : UInt8} {j j₁ j₂ : ℕ} (h₁ : Drift p c j j₁)
    (h₂ : Drift p c j j₂) : j₁ = j₂ := by
  induction h₁ with
  | stop h =>
    cases h₂ with
    | stop => rfl
    | link hj hc => exact absurd h (not_or.mpr ⟨hj.ne', hc⟩)
  | link hj hc _ _ ih =>
    cases h₂ with
    | stop h => exact absurd h (not_or.mpr ⟨hj.ne', hc⟩)
    | link _ _ _ h => exact ih h

/-- The walk never ends above where it started. A link can only climb by one, in
a run of equal bytes, and then the next byte does not continue the end of the run
either. -/
theorem Drift.le {p : List UInt8} {c : UInt8} {j j' : ℕ} (h : Drift p c j j') : j' ≤ j := by
  induction h with
  | stop h => exact le_rfl
  | @link j j' hj hc hin h ih =>
    have hlt := border_lt (p := p) (show 0 < j + 2 by omega)
    by_contra hgt
    -- the link climbed by one, so the prefix of length `j + 2` is one byte repeated
    have hb : border p (j + 2) = j + 1 := by omega
    obtain rfl : j' = j + 1 := by omega
    have hsuf := take_overlap_suffix p (j + 1) (p.take (j + 2))
    rw [show overlap p (j + 1) (p.take (j + 2)) = j + 1 from hb,
      List.take_succ_eq_append_getElem hin] at hsuf
    have hsame := ((take_succ_suffix_concat (by omega)).mp hsuf).2
    -- the walk stopped there on `c`, which would have continued `j` as well
    rcases h.stopped with h0 | hstop
    · omega
    · rw [List.getElem?_eq_getElem hin] at hstop
      exact hc (hsame.trans hstop)

section Walk

variable {c : UInt8} {needle : Region UInt8} {P : Region ℕ} {p : List UInt8}

/-- When the inner loop of the search ends, it has taken the walk. -/
theorem drift_of_fallback (hneedle : needle.Holds p) (hP : IsFailureTable p P)
    {fuel j j' : ℕ} (hj : j < p.length)
    (h : fallback (.ok c) needle P (fun j => j + 1) fuel j = .ok j') : Drift p c j j' := by
  induction fuel generalizing j with
  | zero =>
    rcases j with _ | j
    · obtain rfl : 0 = j' := Except.ok.inj h
      exact .stop (Or.inl rfl)
    · cases h
  | succ fuel ih =>
    rcases j with _ | j
    · obtain rfl : 0 = j' := Except.ok.inj h
      exact .stop (Or.inl rfl)
    · rw [fallback, Exec.ok_bind, hneedle.read hj, Exec.ok_bind] at h
      split at h
      · next hc =>
        have hne : p[j + 1]? ≠ some c := by
          rw [List.getElem?_eq_getElem hj]
          exact fun he => hc (Option.some.inj he).symm
        -- the link was read, so it is in the table
        obtain ⟨k, hk, hrest⟩ := Exec.bind_eq_ok.mp h
        have hin : j + 2 < p.length := hP.1 ▸ Region.read_lt hk
        rw [hP.2 (j + 2) hin] at hk
        obtain rfl : border p (j + 3) = k := Except.ok.inj hk
        have hlt : border p (j + 3) < j + 3 := border_lt (by omega)
        exact .link (Nat.succ_pos j) hne hin (ih (show border p (j + 3) < _ by omega) hrest)
      · next hc =>
        obtain rfl : j + 1 = j' := Except.ok.inj h
        refine .stop (Or.inr ?_)
        rw [List.getElem?_eq_getElem hj, not_not.mp hc]

/-- When the walk ends, so does the inner loop of the search, within a bound that
does not depend on the table it runs on. -/
theorem fallback_of_drift (hneedle : needle.Holds p) {j j' : ℕ} (h : Drift p c j j')
    (hj : j < p.length) :
    ∃ N, ∀ fuel, N ≤ fuel → ∀ P, IsFailureTable p P →
      fallback (.ok c) needle P (fun j => j + 1) fuel j = .ok j' := by
  -- the bound is the number of links of the walk
  induction h with
  | @stop j h =>
    refine ⟨1, fun fuel hle P hP => ?_⟩
    obtain ⟨fuel, rfl⟩ := Nat.exists_eq_add_of_le' hle
    rcases j with _ | j
    · simp [fallback]
    · have hc : p[j + 1] = c := by
        rcases h with h | h
        · omega
        · rwa [List.getElem?_eq_getElem hj, Option.some.injEq] at h
      simp [fallback, hneedle.read hj, hc]
  | @link j j' hpos hc hin h ih =>
    have hlt := border_lt (p := p) (show 0 < j + 2 by omega)
    obtain ⟨N, hN⟩ := ih (by omega)
    refine ⟨N + 1, fun fuel hle P hP => ?_⟩
    obtain ⟨fuel, rfl⟩ := Nat.exists_eq_add_of_le' (show 1 ≤ fuel by omega)
    obtain ⟨j, rfl⟩ := Nat.exists_eq_add_of_le' (show 1 ≤ j by omega)
    have hne : c ≠ p[j + 1] := by
      intro he
      exact hc (by rw [List.getElem?_eq_getElem hj, he])
    rw [fallback, Exec.ok_bind, hneedle.read hj, Exec.ok_bind, if_pos hne,
      hP.2 _ hin, Exec.ok_bind]
    exact hN fuel (by omega) P hP

end Walk

/-! ### The search -/

section Search

variable {text : Region UInt8} {pre : KmpPrefix} {p : List UInt8}

/-- One iteration of the search, once its inner loop ends at `j'`. -/
theorem kmpSearchLoop_succ (hstr : pre.str.Holds p) {fuel n i j j' : ℕ} {c : UInt8}
    (hread : text.read i = .ok c)
    (hfall : fallback (.ok c) pre.str pre.P (fun j => j + 1) fuel j = .ok j')
    (hj' : j' < p.length) :
    kmpSearchLoop fuel text pre (n + 1) i j =
      if extend p c j' = pre.len then .ok (toInt (i - pre.len + 1))
      else kmpSearchLoop fuel text pre n (i + 1) (extend p c j') := by
  have hext : (if p[j'] = c then j' + 1 else j') = extend p c j' := by
    rw [extend, List.getElem?_eq_getElem hj']
    simp only [Option.some.injEq]
  rw [kmpSearchLoop, hread, hfall]
  simp only [Exec.ok_bind, hstr.read hj', hext]
  rfl

/-- Inverting an iteration of a search that succeeds: it read the byte, its walk
ended, and the search went on from the extended length. -/
theorem kmpSearchLoop_inv (hstr : pre.str.Holds p) (hP : IsFailureTable p pre.P)
    {fuel n i j : ℕ} {r : ℤ} (hj : j < p.length)
    (h : kmpSearchLoop fuel text pre (n + 1) i j = .ok r) :
    ∃ c j', text.read i = .ok c ∧ Drift p c j j' ∧
      (if extend p c j' = pre.len then .ok (toInt (i - pre.len + 1))
        else kmpSearchLoop fuel text pre n (i + 1) (extend p c j')) = Except.ok r := by
  -- the byte is read again after the inner loop, which needs it only for `j > 0`
  obtain ⟨c, hread⟩ : ∃ c, text.read i = .ok c := by
    rw [kmpSearchLoop] at h
    obtain ⟨_, -, h⟩ := Exec.bind_eq_ok.mp h
    obtain ⟨_, -, h⟩ := Exec.bind_eq_ok.mp h
    obtain ⟨c, hc, -⟩ := Exec.bind_eq_ok.mp h
    exact ⟨c, hc⟩
  obtain ⟨j', hfall⟩ : ∃ j', fallback (.ok c) pre.str pre.P (fun j => j + 1) fuel j = .ok j' := by
    rw [kmpSearchLoop, hread] at h
    obtain ⟨j', hj', -⟩ := Exec.bind_eq_ok.mp h
    exact ⟨j', hj'⟩
  have hdrift := drift_of_fallback hstr hP hj hfall
  refine ⟨c, j', hread, hdrift, ?_⟩
  rw [← kmpSearchLoop_succ hstr hread hfall (lt_of_le_of_lt hdrift.le hj)]
  exact h

theorem extend_le {c : UInt8} {j : ℕ} (hj : j < p.length) : extend p c j ≤ p.length := by
  unfold extend
  split <;> omega

/-- A search told to go past the end of the text it is given does not answer
that the needle is absent: it reads outside the text first, unless it stops
before. -/
theorem kmpSearchLoop_nonneg (pre : KmpPrefix) (hstr : pre.str.Holds p) (hP : IsFailureTable p pre.P)
    (hlen : pre.len = p.length) (htext : text.len < 2 ^ 31) {fuel n i j : ℕ} {r : ℤ}
    (hj : j < p.length) (hji : j ≤ i) (hi : i ≤ text.len) (hn : text.len < i + n)
    (h : kmpSearchLoop fuel text pre n i j = .ok r) : 0 ≤ r := by
  induction n generalizing i j with
  | zero => omega
  | succ n ih =>
    obtain ⟨c, j', hread, hdrift, hrest⟩ := kmpSearchLoop_inv hstr hP hj h
    have hlt := Region.read_lt hread
    have hj' := hdrift.le
    have hle : extend p c j' ≤ p.length := extend_le (by omega)
    have hstep : extend p c j' ≤ i + 1 := by
      unfold extend
      split <;> omega
    split at hrest
    · -- a match of `pre.len` bytes ends at `i`, so it starts in the text
      next heq =>
      obtain rfl := Except.ok.inj hrest
      rw [toInt_of_lt (by omega) (by omega)]
      omega
    · next hne => exact ih (by omega) hstep hlt (by omega) hrest

/-- The walk at position `i` of the text ends, and at a length whose extension is
the matched length one byte further. -/
def StepsRight (p t : List UInt8) (i : ℕ) : Prop :=
  ∃ c j, t[i]? = some c ∧ Drift p c (matchLen p (t.take i)) j ∧
    extend p c j = matchLen p (t.take (i + 1))

/-- No walk goes wrong on the text, up to the first occurrence of the needle. -/
def Undisturbed (p t : List UInt8) : Prop :=
  ∀ i, i < t.length → ¬ p <:+: t.take i → StepsRight p t i

/-- The first walk to go wrong on the text, before any occurrence of the needle,
has no end: it leaves the table or never stops. -/
def OffTable (p t : List UInt8) : Prop :=
  ∃ i c, t[i]? = some c ∧ ¬ p <:+: t.take i ∧ (∀ m, m < i → StepsRight p t m) ∧
    ∀ j, ¬ Drift p c (matchLen p (t.take i)) j

/-- The walk ends at once where the matched prefix goes on or is empty. -/
theorem stepsRight_of_match {t : List UInt8} (hp : p ≠ []) {i : ℕ} {c : UInt8}
    (hc : t[i]? = some c) (hbefore : ¬ p <:+ t.take i)
    (hstop : matchLen p (t.take i) = 0 ∨ p[matchLen p (t.take i)]? = some c) :
    StepsRight p t i := by
  refine ⟨c, _, hc, .stop hstop, ?_⟩
  obtain ⟨hi, hget⟩ := List.getElem?_eq_some_iff.mp hc
  rw [List.take_succ_eq_append_getElem hi, hget]
  -- the matched length is a candidate to begin with
  refine (matchLen_concat hp ?_ hstop).symm
  rw [matchLen_eq_overlap hbefore]
  exact candidate_overlap p _ _ c

theorem undisturbed_of_match {t : List UInt8} (hp : p ≠ [])
    (h : ∀ i, i < t.length → ¬ p <:+: t.take i →
      matchLen p (t.take i) = 0 ∨ p[matchLen p (t.take i)]? = t[i]?) : Undisturbed p t := by
  intro i hi hbefore
  refine stepsRight_of_match hp (List.getElem?_eq_getElem hi)
    (fun hs => hbefore hs.isInfix) ?_
  rw [← List.getElem?_eq_getElem hi]
  exact h i hi hbefore

/-- **The search loop on an undisturbed text.** From the matched length at `i`
it returns the leftmost occurrence as an `int`, `-1` when there is none. -/
theorem kmpSearchLoop_of_undisturbed {needle : Region UInt8} {t : List UInt8}
    (hneedle : needle.Holds p) (hp : p ≠ []) (htext : text.Holds t)
    (hun : Undisturbed p t) (n : ℕ) :
    ∀ i, i + n = t.length → ¬ p <:+: t.take i →
      ∃ r : Option ℕ, IsFirst p t r ∧ ∃ N, ∀ fuel, N ≤ fuel → ∀ P, IsFailureTable p P →
        kmpSearchLoop fuel text ⟨P, p.length, needle⟩ n i (matchLen p (t.take i)) =
          .ok (r.elim (-1) fun a => toInt a) := by
  have hpos : 0 < p.length := List.length_pos_iff.mpr hp
  induction n with
  | zero =>
    intro i hi hbefore
    rw [List.take_of_length_le (by omega)] at hbefore
    exact ⟨none, isFirst_none hbefore, 0, fun _ _ _ _ => rfl⟩
  | succ n ih =>
    intro i hi hbefore
    have hlt : i < t.length := by omega
    obtain ⟨c, j', hc, hdrift, hnext⟩ := hun i hlt hbefore
    have hread : text.read i = .ok c := by
      rw [htext.read hlt, (List.getElem?_eq_some_iff.mp hc).2]
    have hm : matchLen p (t.take i) < p.length := matchLen_lt fun h => hbefore h.isInfix
    have hj' : j' < p.length := lt_of_le_of_lt hdrift.le hm
    -- enough iterations for this walk, and for those of the rest of the text
    obtain ⟨N, hN⟩ := fallback_of_drift hneedle hdrift hm
    by_cases hfull : p <:+ t.take (i + 1)
    · -- the needle ends here, and for the first time
      have hle : p.length ≤ i + 1 := by
        calc p.length ≤ (t.take (i + 1)).length := hfull.length_le
          _ ≤ i + 1 := List.length_take_le _ _
      refine ⟨_, isFirst_of_suffix_take hlt hbefore hfull, N, fun fuel hfuel P hP => ?_⟩
      rw [kmpSearchLoop_succ hneedle hread (hN fuel hfuel P hP) hj', hnext,
        matchLen_eq_length_iff.mpr hfull, if_pos rfl]
      have hat : (i : ℤ) - p.length + 1 = (i + 1 - p.length : ℕ) := by omega
      rw [Option.elim_some, ← hat]
    · -- the needle does not end here, and the search goes on
      have hafter : ¬ p <:+: t.take (i + 1) := by
        rw [List.take_succ_eq_append_getElem hlt, List.infix_concat_iff]
        rw [List.take_succ_eq_append_getElem hlt] at hfull
        exact fun h => h.elim hfull hbefore
      obtain ⟨r, hr, M, hM⟩ := ih (i + 1) (by omega) hafter
      refine ⟨r, hr, max N M, fun fuel hfuel P hP => ?_⟩
      rw [kmpSearchLoop_succ hneedle hread (hN fuel (by omega) P hP) hj', hnext,
        if_neg fun h => hfull (matchLen_eq_length_iff.mp h)]
      exact hM fuel (by omega) P hP

/-- A search that succeeds has taken no walk without an end. -/
theorem not_offTable_of_kmpSearchLoop (pre : KmpPrefix) {t : List UInt8} (hstr : pre.str.Holds p)
    (hP : IsFailureTable p pre.P) (hlen : pre.len = p.length) (htext : text.Holds t)
    {i : ℕ} {c : UInt8} (hc : t[i]? = some c) (hbefore : ¬ p <:+: t.take i)
    (hright : ∀ m, m < i → StepsRight p t m)
    (hend : ∀ j, ¬ Drift p c (matchLen p (t.take i)) j) (fuel n : ℕ) :
    ∀ k r, k ≤ i → i < k + n →
      kmpSearchLoop fuel text pre n k (matchLen p (t.take k)) ≠ .ok r := by
  obtain ⟨hi, hget⟩ := List.getElem?_eq_some_iff.mp hc
  -- no earlier prefix of the text contains the needle
  have hnot : ∀ k, k ≤ i → ¬ p <:+: t.take k := fun k hk h => hbefore <| by
    rw [← Nat.min_eq_left hk, ← List.take_take] at h
    exact h.trans (List.take_prefix _ _).isInfix
  induction n with
  | zero => intro k r hk hn; omega
  | succ n ih =>
    intro k r hk hn h
    have hm : matchLen p (t.take k) < p.length := matchLen_lt fun hs => hnot k hk hs.isInfix
    obtain ⟨c', j', hread, hdrift, hrest⟩ := kmpSearchLoop_inv hstr hP hm h
    have hkt : k < t.length := by omega
    obtain rfl : t[k] = c' := by
      rw [htext.read hkt] at hread
      exact Except.ok.inj hread
    rcases eq_or_lt_of_le hk with rfl | hlt
    · -- at `i` the walk would have to end
      rw [hget] at hdrift
      exact hend j' hdrift
    · obtain ⟨c', j₁, hc', hdrift₁, hnext⟩ := hright k hlt
      obtain rfl : t[k] = c' := (List.getElem?_eq_some_iff.mp hc').2
      -- the walk is deterministic
      have hj : extend p t[k] j' = matchLen p (t.take (k + 1)) := by
        rw [← hnext, hdrift.unique hdrift₁]
      rw [hj, if_neg (by
        rw [hlen]
        exact fun he => hnot (k + 1) hlt (matchLen_eq_length_iff.mp he).isInfix)] at hrest
      exact ih (k + 1) r hlt (by omega) hrest

end Search

section Contains

variable {text needle : Region UInt8} {t p : List UInt8}

/-- `posixc_kmp_contains` is the search over the failure table of the needle. -/
theorem kmpContains_eq (hneedle : needle.Holds p) (hlen : 2 ≤ p.length) {fuel : ℕ}
    (hfuel : p.length ≤ fuel) :
    ∃ P, IsFailureTable p P ∧ ∀ text textLen,
      kmpContains fuel text textLen needle p.length =
        kmpPrefixSearch fuel text textLen ⟨P, p.length, needle⟩ >>= fun rv =>
          .ok (if rv = -1 then none else some rv) := by
  obtain ⟨P, hP, htable⟩ := kmpFailure_spec hneedle hlen hfuel
  refine ⟨P, htable, fun text textLen => ?_⟩
  rw [kmpContains, hP]
  rfl

/-- A needle of one byte makes `kmp_failure` write outside the table. -/
theorem kmpContains_short (fuel : ℕ) (text needle : Region UInt8) (textLen : ℕ)
    {needleLen : ℕ} (h : needleLen < 2) :
    kmpContains fuel text textLen needle needleLen = .error .outOfBounds := by
  rw [kmpContains, kmpFailure_short fuel needle h, Exec.error_bind]

/-- What `posixc_kmp_contains` makes of the position of the leftmost occurrence:
the position is returned as an `int`, in which `-1` stands for no occurrence. -/
def kmpResult (r : Option ℕ) : Option ℤ :=
  r.bind fun a => if toInt a = -1 then none else some (toInt a)

theorem kmpResult_of_lt {r : Option ℕ} (h : ∀ a, r = some a → a < 2 ^ 31) :
    kmpResult r = r.map Nat.cast := by
  cases r with
  | none => rfl
  | some a =>
    have ha := h a rfl
    rw [kmpResult, Option.bind_some, toInt_of_lt (by omega) (by omega), if_neg (by omega)]
    rfl

/-- **The search on an undisturbed text.** `posixc_kmp_contains` returns the
leftmost occurrence of the needle as an `int`, `NULL` when there is none. -/
theorem kmpContains_returns (hneedle : needle.Holds p) (hlen : 2 ≤ p.length)
    (htext : text.Holds t) (hun : Undisturbed p t) :
    ∃ r : Option ℕ, IsFirst p t r ∧
      Exec.Returns (fun fuel => kmpContains fuel text t.length needle p.length)
        (kmpResult r) := by
  have hp : p ≠ [] := List.length_pos_iff.mp (by omega)
  have hfirst : ¬ p <:+: t.take 0 := by simpa using hp
  obtain ⟨r, hr, N, hN⟩ := kmpSearchLoop_of_undisturbed hneedle hp htext hun t.length 0
    (Nat.zero_add _) hfirst
  refine ⟨r, hr, max N p.length, fun fuel hfuel => ?_⟩
  obtain ⟨P, hP, heq⟩ := kmpContains_eq hneedle hlen (show p.length ≤ fuel by omega)
  have hsearch := hN fuel (by omega) P hP
  rw [List.take_zero, matchLen_nil] at hsearch
  refine (heq _ _).trans ?_
  rw [kmpPrefixSearch, hsearch, Exec.ok_bind]
  cases r with
  | none => rfl
  | some a => rw [kmpResult, Option.bind_some, Option.elim_some]

/-- In a text that an `int` can index, the result is the leftmost occurrence. -/
theorem kmpContains_of_undisturbed (hneedle : needle.Holds p) (hlen : 2 ≤ p.length)
    (htext : text.Holds t) (ht : t.length < 2 ^ 31) (hun : Undisturbed p t) :
    ∃ r : Option ℕ, IsFirst p t r ∧
      Exec.Returns (fun fuel => kmpContains fuel text t.length needle p.length)
        (r.map Nat.cast) := by
  obtain ⟨r, hr, hret⟩ := kmpContains_returns hneedle hlen htext hun
  refine ⟨r, hr, ?_⟩
  -- an occurrence lies inside the text
  rwa [kmpResult_of_lt fun a ha => ?_] at hret
  subst ha
  have hfit := hr.1.1
  omega

/-- A `posixc_kmp_contains` that returns has taken no walk without an end. -/
theorem not_offTable_of_kmpContains (hneedle : needle.Holds p) (hlen : 2 ≤ p.length)
    (htext : text.Holds t) {fuel : ℕ} (hfuel : p.length ≤ fuel) {r : Option ℤ}
    (h : kmpContains fuel text t.length needle p.length = .ok r) : ¬ OffTable p t := by
  rintro ⟨i, c, hc, hbefore, hright, hend⟩
  obtain ⟨P, hP, heq⟩ := kmpContains_eq hneedle hlen hfuel
  obtain ⟨rv, hrv, -⟩ := Exec.bind_eq_ok.mp ((heq _ _).symm.trans h)
  have hi := (List.getElem?_eq_some_iff.mp hc).1
  refine not_offTable_of_kmpSearchLoop ⟨P, p.length, needle⟩ hneedle hP rfl htext hc hbefore
    hright hend fuel t.length 0 rv (Nat.zero_le _) (by omega) ?_
  rw [List.take_zero, matchLen_nil]
  exact hrv

/-- A `posixc_kmp_contains` told that the text is longer than it is does not
return `NULL`. -/
theorem kmpContains_ne_none (hneedle : needle.Holds p) (hlen : 2 ≤ p.length)
    (htext : text.len < 2 ^ 31) {textLen : ℕ} (hlong : text.len < textLen) {fuel : ℕ}
    (hfuel : p.length ≤ fuel) : kmpContains fuel text textLen needle p.length ≠ .ok none := by
  intro h
  obtain ⟨P, hP, heq⟩ := kmpContains_eq hneedle hlen hfuel
  obtain ⟨rv, hrv, hnone⟩ := Exec.bind_eq_ok.mp ((heq _ _).symm.trans h)
  have hneg : rv = -1 := by
    by_contra hne
    rw [if_neg hne] at hnone
    cases hnone
  have hnonneg := kmpSearchLoop_nonneg ⟨P, p.length, needle⟩ hneedle hP rfl htext
    (by omega) le_rfl (Nat.zero_le _) (by omega) hrv
  omega

/-- Over no text at all `posixc_kmp_contains` returns `NULL`. -/
theorem kmpContains_zero (hneedle : needle.Holds p) (hlen : 2 ≤ p.length) {fuel : ℕ}
    (hfuel : p.length ≤ fuel) : kmpContains fuel text 0 needle p.length = .ok none := by
  obtain ⟨P, hP, heq⟩ := kmpContains_eq hneedle hlen hfuel
  exact heq text 0

end Contains

end Posixc
