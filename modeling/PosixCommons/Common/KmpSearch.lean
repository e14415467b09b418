import PosixCommons.Common.Kmp

/-!
# The search with a failure table, on every text

What `posixc_kmp_contains` does on an arbitrary text, undisturbed or not: whether
its accesses are in range, whether it ends, and what its result is worth.

The search is a loop in a loop, and the places where it may go wrong are the tests
of the inner one. `Tested` follows it from test to test, by its own reads of the
text, the needle and the table. The embedding of the loops and the relation agree
in both directions:

* what the search does from a test on is what the whole search does
  (`Tested.settles`), so a fault at some test is a fault of the search;
* a search whose iterations run out went on past its bound or made an iteration
  that did not decrease `j`, and otherwise it returns, as long as no iteration
  reads beyond the table (`kmpSearchLoop_tested`).

With the table that `kmp_failure` builds, an iteration from `j` takes the border
of the prefix of length `j + 2`. It reads the table in range exactly when `j` is
not the last index of the needle (`kmpContains_inRange_iff`), and decreases `j`
exactly when that prefix is not two bytes repeated
(`kmpContains_terminates_iff`).
-/

open Framework

namespace Posixc

/-! ### An iteration of the search -/

/-- The test `j > 0 && text[i] != needle[j]` of the inner loop of the search. -/
def continues (text : Region UInt8) (pre : KmpPrefix) (i j : ℕ) : Exec Bool :=
  if j = 0 then .ok false
  else do
    let x ← text.read i
    let y ← pre.str.read j
    return decide (x ≠ y)

/-- `if (needle[j] == text[i]) j++;`, after the inner loop. -/
def advance (text : Region UInt8) (pre : KmpPrefix) (i j : ℕ) : Exec ℕ := do
  let x ← pre.str.read j
  let y ← text.read i
  return if x = y then j + 1 else j

/-- An iteration of the outer loop: the inner one, and what follows it. -/
theorem kmpSearchLoop_eq (fuel : ℕ) (text : Region UInt8) (pre : KmpPrefix) (n i j : ℕ) :
    kmpSearchLoop fuel text pre (n + 1) i j =
      fallback (text.read i) pre.str pre.P (fun j => j + 1) fuel j >>= fun j =>
        advance text pre i j >>= fun j =>
          if j = pre.len then .ok (toInt (i - pre.len + 1))
          else kmpSearchLoop fuel text pre n (i + 1) j := by
  rw [kmpSearchLoop]
  simp only [advance, bind_assoc]
  rfl

/-! ### The bound on the iterations -/

theorem fallback_growing (c : Exec UInt8) (needle : Region UInt8) (P : Region ℕ)
    (slot : ℕ → ℕ) (j : ℕ) : Exec.Growing fun fuel => fallback c needle P slot fuel j := by
  intro m
  induction m generalizing j with
  | zero =>
    intro n _
    cases j with
    | zero => simp only [fallback, Exec.Extends.refl]
    | succ j => exact Exec.Extends.exhausted _
  | succ m ih =>
    intro n hmn
    obtain ⟨n, rfl⟩ := Nat.exists_eq_add_of_le' (show 1 ≤ n by omega)
    cases j with
    | zero => exact Exec.Extends.refl _
    | succ j =>
      simp only [fallback]
      refine (Exec.Extends.refl c).bind fun x => (Exec.Extends.refl _).bind fun y => ?_
      split
      · exact (Exec.Extends.refl _).bind fun j' => ih j' n (by omega)
      · exact Exec.Extends.refl _

theorem kmpFailure_growing (str : Region UInt8) (len : ℕ) (P : Region ℕ) :
    Exec.Growing fun fuel => kmpFailure fuel str len P := by
  have hloop : ∀ n P i j, Exec.Growing fun fuel => kmpFailureLoop fuel str n P i j := by
    intro n
    induction n with
    | zero => exact fun P i j => Exec.growing_const _
    | succ n ih =>
      intro P i j a b hab
      simp only [kmpFailureLoop]
      refine (fallback_growing _ _ _ _ _ a b hab).bind fun j => ?_
      refine (Exec.Extends.refl _).bind fun x => (Exec.Extends.refl _).bind fun y => ?_
      exact (Exec.Extends.refl _).bind fun P => ih P _ _ a b hab
  intro a b hab
  simp only [kmpFailure]
  refine (Exec.Extends.refl _).bind fun P => (Exec.Extends.refl _).bind fun P => ?_
  exact hloop _ P 1 0 a b hab

theorem kmpSearchLoop_growing (text : Region UInt8) (pre : KmpPrefix) (n i j : ℕ) :
    Exec.Growing fun fuel => kmpSearchLoop fuel text pre n i j := by
  induction n generalizing i j with
  | zero => exact Exec.growing_const _
  | succ n ih =>
    intro a b hab
    simp only [kmpSearchLoop_eq]
    refine (fallback_growing _ _ _ _ _ a b hab).bind fun j => ?_
    refine (Exec.Extends.refl _).bind fun j => ?_
    split
    · exact Exec.Extends.refl _
    · exact ih _ _ a b hab

theorem kmpContains_growing (text : Region UInt8) (textLen : ℕ) (needle : Region UInt8)
    (needleLen : ℕ) : Exec.Growing fun fuel => kmpContains fuel text textLen needle needleLen := by
  intro a b hab
  simp only [kmpContains]
  refine (kmpFailure_growing _ _ _ a b hab).bind fun P => ?_
  exact (kmpSearchLoop_growing _ _ _ _ _ a b hab).bind fun rv => Exec.Extends.refl _

/-! ### From test to test -/

/-- The search makes the test of its inner loop at the text position `i` with the
length `j`. -/
inductive Tested (text : Region UInt8) (textLen : ℕ) (pre : KmpPrefix) : ℕ → ℕ → Prop
  | start (h : 0 < textLen) : Tested text textLen pre 0 0
  | fall {i j j' : ℕ} (h : Tested text textLen pre i j) (hc : continues text pre i j = .ok true)
      (hP : pre.P.read (j + 1) = .ok j') : Tested text textLen pre i j'
  | next {i j j' : ℕ} (h : Tested text textLen pre i j)
      (hc : continues text pre i j = .ok false) (ha : advance text pre i j = .ok j')
      (hne : j' ≠ pre.len) (hi : i + 1 < textLen) : Tested text textLen pre (i + 1) j'

section Tests

variable {text : Region UInt8} {textLen : ℕ} {pre : KmpPrefix} {i j : ℕ}

theorem Tested.lt_textLen (h : Tested text textLen pre i j) : i < textLen := by
  induction h with
  | start h => exact h
  | fall _ _ _ ih => exact ih
  | next _ _ _ _ hi => exact hi

/-- An iteration of the inner loop. -/
theorem fallback_of_continues (hc : continues text pre i j = .ok true) (fuel : ℕ) :
    fallback (text.read i) pre.str pre.P (fun j => j + 1) (fuel + 1) j =
      pre.P.read (j + 1) >>= fun j' =>
        fallback (text.read i) pre.str pre.P (fun j => j + 1) fuel j' := by
  cases j with
  | zero => simp [continues] at hc
  | succ j =>
    rw [continues, if_neg (Nat.succ_ne_zero j)] at hc
    obtain ⟨x, hx, hc⟩ := Exec.bind_eq_ok.mp hc
    obtain ⟨y, hy, hc⟩ := Exec.bind_eq_ok.mp hc
    have hne : x ≠ y := by simpa using Except.ok.inj hc
    rw [fallback, hx, Exec.ok_bind, hy, Exec.ok_bind, if_pos hne]

/-- The end of the inner loop. -/
theorem fallback_of_stops (hc : continues text pre i j = .ok false) (fuel : ℕ) :
    fallback (text.read i) pre.str pre.P (fun j => j + 1) (fuel + 1) j = .ok j := by
  cases j with
  | zero => rfl
  | succ j =>
    rw [continues, if_neg (Nat.succ_ne_zero j)] at hc
    obtain ⟨x, hx, hc⟩ := Exec.bind_eq_ok.mp hc
    obtain ⟨y, hy, hc⟩ := Exec.bind_eq_ok.mp hc
    obtain rfl : x = y := by simpa using Except.ok.inj hc
    rw [fallback, hx, Exec.ok_bind, hy, Exec.ok_bind, if_neg (not_not.mpr rfl)]
    rfl

/-- **From a test to the whole.** What the search comes to from one of its tests
on, a value or a fault, is what the whole search comes to. -/
theorem Tested.settles (h : Tested text textLen pre i j) {x : Exec ℤ}
    (hx : x ≠ .error .exhausted)
    (hset : Exec.Settles (fun fuel => kmpSearchLoop fuel text pre (textLen - i) i j) x) :
    Exec.Settles (fun fuel => kmpPrefixSearch fuel text textLen pre) x := by
  induction h with
  | start h => exact hset
  | @fall i j j' h hc hP ih =>
    apply ih
    obtain ⟨n, hn⟩ := Nat.exists_eq_add_of_lt h.lt_textLen
    have hleft : textLen - i = n + 1 := by omega
    rw [hleft] at hset ⊢
    obtain ⟨N, hN⟩ := hset
    refine ⟨N + 1, fun fuel hfuel => ?_⟩
    obtain ⟨fuel, rfl⟩ := Nat.exists_eq_add_of_le' (show 1 ≤ fuel by omega)
    -- one iteration of the inner loop later, with one fewer to go
    have hext : Exec.Extends (kmpSearchLoop fuel text pre (n + 1) i j')
        (kmpSearchLoop (fuel + 1) text pre (n + 1) i j) := by
      simp only [kmpSearchLoop_eq, fallback_of_continues hc, hP, Exec.ok_bind]
      refine (Exec.Extends.refl _).bind fun j => (Exec.Extends.refl _).bind fun j => ?_
      split
      · exact Exec.Extends.refl _
      · exact kmpSearchLoop_growing _ _ _ _ _ fuel (fuel + 1) (Nat.le_succ fuel)
    have hval : kmpSearchLoop fuel text pre (n + 1) i j' = x := hN fuel (by omega)
    exact (hext (hval ▸ hx)).trans hval
  | @next i j j' h hc ha hne hi ih =>
    apply ih
    obtain ⟨n, hn⟩ := Nat.exists_eq_add_of_lt h.lt_textLen
    have hleft : textLen - i = n + 1 := by omega
    rw [show textLen - (i + 1) = n by omega] at hset
    rw [hleft]
    obtain ⟨N, hN⟩ := hset
    refine ⟨N + 1, fun fuel hfuel => ?_⟩
    obtain ⟨fuel, rfl⟩ := Nat.exists_eq_add_of_le' (show 1 ≤ fuel by omega)
    calc kmpSearchLoop (fuel + 1) text pre (n + 1) i j
        = kmpSearchLoop (fuel + 1) text pre n (i + 1) j' := by
          rw [kmpSearchLoop_eq, fallback_of_stops hc, Exec.ok_bind, ha, Exec.ok_bind,
            if_neg hne]
      _ = x := hN (fuel + 1) (by omega)

end Tests

/-! ### The tests over the failure table -/

section Table

variable {text : Region UInt8} {pre : KmpPrefix} {t p : List UInt8} {i j : ℕ}

theorem continues_eq (htext : text.Holds t) (hstr : pre.str.Holds p) (hi : i < t.length)
    (hj : j < p.length) :
    continues text pre i j = .ok (decide (0 < j ∧ t[i] ≠ p[j])) := by
  unfold continues
  split
  · next h0 => simp [h0]
  · next h0 =>
    rw [htext.read hi, Exec.ok_bind, hstr.read hj, Exec.ok_bind]
    simp [Nat.pos_of_ne_zero h0]

theorem advance_eq (htext : text.Holds t) (hstr : pre.str.Holds p) (hi : i < t.length)
    (hj : j < p.length) :
    advance text pre i j = .ok (if p[j] = t[i] then j + 1 else j) := by
  rw [advance, hstr.read hj, Exec.ok_bind, htext.read hi, Exec.ok_bind]
  rfl

theorem advance_le {j' : ℕ} (h : advance text pre i j = .ok j') : j' ≤ j + 1 := by
  obtain ⟨x, -, h⟩ := Exec.bind_eq_ok.mp h
  obtain ⟨y, -, h⟩ := Exec.bind_eq_ok.mp h
  obtain rfl := Except.ok.inj h
  split <;> omega

/-- The length is an index of the needle at every test. -/
theorem Tested.lt_length (hlen : pre.len = p.length) (hpos : 0 < p.length)
    (hP : IsFailureTable p pre.P) (h : Tested text t.length pre i j) : j < p.length := by
  induction h with
  | start => exact hpos
  | @fall i j j' h hc hread ih =>
    -- the entry is a border of a prefix of the needle
    have hin : j + 1 < p.length := hP.1 ▸ Region.read_lt hread
    have hentry : pre.P.read (j + 1) = .ok (border p (j + 2)) := hP.2 _ hin
    have hdown : border p (j + 2) < j + 2 := border_lt (by omega)
    obtain rfl := Except.ok.inj (hread.symm.trans hentry)
    omega
  | next h hc ha hne hi ih =>
    have := advance_le ha
    omega

/-- **The inner loop from a test.** While its iterations read the table in range,
it ends at a test, unless it runs out of iterations: it had fewer than `j`, or
one of them did not decrease `j`. -/
theorem fallback_tested (htext : text.Holds t) (hstr : pre.str.Holds p)
    (hlen : pre.len = p.length) (hpos : 0 < p.length) (hP : IsFailureTable p pre.P)
    (hin : ∀ j, Tested text t.length pre i j → continues text pre i j = .ok true →
      j + 1 < p.length)
    (h : Tested text t.length pre i j) (fuel : ℕ) :
    (∃ j', fallback (text.read i) pre.str pre.P (fun j => j + 1) fuel j = .ok j' ∧
        Tested text t.length pre i j' ∧ continues text pre i j' = .ok false) ∨
      (fallback (text.read i) pre.str pre.P (fun j => j + 1) fuel j = .error .exhausted ∧
        (fuel < j ∨ ∃ j₁ j₂, Tested text t.length pre i j₁ ∧ continues text pre i j₁ = .ok true ∧
          pre.P.read (j₁ + 1) = .ok j₂ ∧ j₁ ≤ j₂)) := by
  induction fuel generalizing j with
  | zero =>
    cases j with
    | zero => exact .inl ⟨0, rfl, h, rfl⟩
    | succ j => exact .inr ⟨rfl, .inl (Nat.succ_pos j)⟩
  | succ fuel ih =>
    have hi := h.lt_textLen
    have hj := h.lt_length hlen hpos hP
    have hc := continues_eq htext hstr hi hj
    by_cases hb : 0 < j ∧ t[i] ≠ p[j]
    · -- the loop goes on from the entry it reads
      rw [decide_eq_true hb] at hc
      have hread : pre.P.read (j + 1) = .ok (border p (j + 2)) := hP.2 _ (hin j h hc)
      rw [fallback_of_continues hc, hread, Exec.ok_bind]
      refine (ih (h.fall hc hread)).imp_right (And.imp_right ?_)
      rintro (hfew | hbad)
      · by_cases hdown : border p (j + 2) < j
        · exact .inl (by omega)
        · exact .inr ⟨j, _, h, hc, hread, by omega⟩
      · exact .inr hbad
    · rw [decide_eq_false hb] at hc
      exact .inl ⟨j, fallback_of_stops hc fuel, h, hc⟩

/-- **The search from a test.** While the iterations of its inner loop read the
table in range, it returns, unless it runs out of iterations: the bound is less
than the length of the needle, or one of them did not decrease `j`. -/
theorem kmpSearchLoop_tested (pre : KmpPrefix) (htext : text.Holds t) (hstr : pre.str.Holds p)
    (hlen : pre.len = p.length) (hpos : 0 < p.length) (hP : IsFailureTable p pre.P)
    (hin : ∀ i j, Tested text t.length pre i j → continues text pre i j = .ok true →
      j + 1 < p.length) (fuel n : ℕ) :
    ∀ i j, i + n = t.length → (0 < n → Tested text t.length pre i j) →
      (∃ r, kmpSearchLoop fuel text pre n i j = .ok r) ∨
        (kmpSearchLoop fuel text pre n i j = .error .exhausted ∧
          (fuel < p.length ∨ ∃ i j₁ j₂, Tested text t.length pre i j₁ ∧
            continues text pre i j₁ = .ok true ∧ pre.P.read (j₁ + 1) = .ok j₂ ∧ j₁ ≤ j₂)) := by
  induction n with
  | zero => exact fun i j _ _ => .inl ⟨-1, rfl⟩
  | succ n ih =>
    intro i j hi htested
    have h := htested (Nat.succ_pos n)
    rw [kmpSearchLoop_eq]
    rcases fallback_tested htext hstr hlen hpos hP (hin i) h fuel with
      ⟨j', hrun, h', hstop⟩ | ⟨hrun, hwhy⟩
    · -- the inner loop ended, and the outer one goes on from there
      have hi' := h'.lt_textLen
      have hj' := h'.lt_length hlen hpos hP
      have hadv := advance_eq htext hstr hi' hj'
      rw [hrun, Exec.ok_bind, hadv, Exec.ok_bind]
      by_cases hfull : (if p[j'] = t[i] then j' + 1 else j') = pre.len
      · rw [if_pos hfull]
        exact .inl ⟨_, rfl⟩
      · rw [if_neg hfull]
        exact ih (i + 1) _ (by omega) fun hn => h'.next hstop hadv hfull (by omega)
    · rw [hrun]
      refine .inr ⟨rfl, hwhy.imp (fun hfew => ?_) fun ⟨j₁, j₂, hbad⟩ => ⟨i, j₁, j₂, hbad⟩⟩
      exact hfew.trans (h.lt_length hlen hpos hP)

end Table

/-! ### The calls of a needle and a text -/

/-- `kmp_failure` builds the table `P` for the needle `p`. -/
def KmpBuilds (p : List UInt8) (P : Region ℕ) : Prop :=
  Exec.Returns (fun fuel => kmpFailure fuel (Region.ofList p) p.length (Region.alloc p.length)) P

/-- The search for `p` in `t`, over the table that `kmp_failure` built, begins an
iteration of its inner loop at the text position `i` with the length `j`. -/
def FallsBack (p t : List UInt8) (i j : ℕ) : Prop :=
  ∃ P, KmpBuilds p P ∧ Tested (Region.ofList t) t.length ⟨P, p.length, Region.ofList p⟩ i j ∧
    continues (Region.ofList t) ⟨P, p.length, Region.ofList p⟩ i j = .ok true

/-- That iteration sets the length to `j'`. -/
def FallsTo (p t : List UInt8) (i j j' : ℕ) : Prop :=
  ∃ P, KmpBuilds p P ∧ Tested (Region.ofList t) t.length ⟨P, p.length, Region.ofList p⟩ i j ∧
    continues (Region.ofList t) ⟨P, p.length, Region.ofList p⟩ i j = .ok true ∧
    P.read (j + 1) = .ok j'

/-- `posixc_kmp_contains` on the text `t` and the needle `p`. -/
def kmpCall (t p : List UInt8) (fuel : ℕ) : Exec (Option ℤ) :=
  kmpContains fuel (Region.ofList t) t.length (Region.ofList p) p.length

/-- Every access of the call, to the needle, to the table of `needle_len` entries
and to the text, is in range. -/
def KmpInRange (p t : List UInt8) : Prop := ∀ fuel, kmpCall t p fuel ≠ .error .outOfBounds

/-- Every iteration of the inner loop decreases the length, and the call returns. -/
def KmpTerminates (p t : List UInt8) : Prop :=
  (∀ i j j', FallsTo p t i j j' → j' < j) ∧ ∃ r, Exec.Returns (kmpCall t p) r

/-- Whenever the call returns, it returns the leftmost occurrence, `NULL` when
there is none. -/
def KmpPartial (p t : List UInt8) : Prop :=
  ∀ fuel r, kmpCall t p fuel = .ok r → ∃ a : Option ℕ, IsFirst p t a ∧ r = a.map Nat.cast

section Call

variable {t p : List UInt8} {P : Region ℕ} {i j : ℕ}

theorem kmpBuilds_of_length (hlen : 2 ≤ p.length) :
    ∃ P, KmpBuilds p P ∧ IsFailureTable p P := by
  obtain ⟨P, hP, htable⟩ := kmpFailure_table (Region.holds_ofList p) hlen
    (P := Region.alloc p.length) le_rfl
  exact ⟨P, ⟨p.length, hP⟩, htable⟩

/-- The table that `kmp_failure` builds is the failure table, and it builds one
only for a needle of at least two bytes. -/
theorem KmpBuilds.spec (h : KmpBuilds p P) : 2 ≤ p.length ∧ IsFailureTable p P := by
  have hlen : 2 ≤ p.length := by
    by_contra hshort
    obtain ⟨N, hN⟩ := h
    have hfault := kmpFailure_short N (Region.ofList p) (Nat.lt_of_not_le hshort)
    exact absurd ((hN N le_rfl).symm.trans hfault) (by simp)
  obtain ⟨P', hP', htable⟩ := kmpBuilds_of_length hlen
  obtain rfl := Except.ok.inj (Exec.Settles.unique h hP')
  exact ⟨hlen, htable⟩

/-- What the search over the table comes to, the call comes to. -/
theorem KmpBuilds.kmpCall_settles (h : KmpBuilds p P) {x : Exec ℤ}
    (hx : Exec.Settles (fun fuel => kmpPrefixSearch fuel (Region.ofList t) t.length
      ⟨P, p.length, Region.ofList p⟩) x) :
    Exec.Settles (kmpCall t p) (x >>= fun rv => .ok (if rv = -1 then none else some rv)) := by
  obtain ⟨N, hN⟩ := h
  obtain ⟨M, hM⟩ := hx
  refine ⟨max N M, fun fuel hfuel => ?_⟩
  have hP : kmpFailure fuel (Region.ofList p) p.length (Region.alloc p.length) = .ok P :=
    hN fuel (by omega)
  rw [kmpCall, kmpContains, hP, Exec.ok_bind, show kmpPrefixSearch fuel _ _ _ = x from
    hM fuel (by omega)]
  rfl

/-- A call with a bound is a table, and a search over it, or has run out. -/
theorem KmpBuilds.kmpCall_eq (h : KmpBuilds p P) (fuel : ℕ) :
    kmpCall t p fuel = .error .exhausted ∨
      kmpCall t p fuel = kmpPrefixSearch fuel (Region.ofList t) t.length
        ⟨P, p.length, Region.ofList p⟩ >>= fun rv => .ok (if rv = -1 then none else some rv) := by
  refine ((kmpFailure_growing _ _ _).eq_or_exhausted h fuel).imp (fun hout => ?_) fun hP => ?_
  · rw [kmpCall, kmpContains, hout, Exec.error_bind]
  · rw [kmpCall, kmpContains, hP, Exec.ok_bind]
    rfl

/-- An iteration that would read past the last entry is a fault of the call. -/
theorem kmpCall_outOfBounds (h : FallsBack p t i j) (hj : p.length ≤ j + 1) :
    Exec.Settles (kmpCall t p) (.error .outOfBounds) := by
  obtain ⟨P, hbuilt, htest, hc⟩ := h
  have hread : P.read (j + 1) = .error .outOfBounds :=
    Region.read_of_len_le (hbuilt.spec.2.1 ▸ hj)
  refine hbuilt.kmpCall_settles (x := .error .outOfBounds)
    (htest.settles (by simp) ⟨1, fun fuel hfuel => ?_⟩)
  obtain ⟨fuel, rfl⟩ := Nat.exists_eq_add_of_le' hfuel
  obtain ⟨n, hn⟩ := Nat.exists_eq_add_of_lt htest.lt_textLen
  dsimp only
  rw [show t.length - i = n + 1 by omega, kmpSearchLoop_eq, fallback_of_continues hc, hread]
  rfl

/-- **The search over a table in range.** When no iteration reads past the last
entry, the search runs out of iterations or returns; and with at least as many as
the needle has bytes it runs out only if some iteration does not decrease the
length. -/
theorem kmpPrefixSearch_tested (hbuilt : KmpBuilds p P)
    (hin : ∀ i j, FallsBack p t i j → j + 1 < p.length) (fuel : ℕ) :
    (∃ r, kmpPrefixSearch fuel (Region.ofList t) t.length ⟨P, p.length, Region.ofList p⟩ =
        .ok r) ∨
      (kmpPrefixSearch fuel (Region.ofList t) t.length ⟨P, p.length, Region.ofList p⟩ =
        .error .exhausted ∧ (fuel < p.length ∨ ∃ i j j', FallsTo p t i j j' ∧ j ≤ j')) := by
  obtain ⟨hlen, htable⟩ := hbuilt.spec
  have hrun := kmpSearchLoop_tested ⟨P, p.length, Region.ofList p⟩ (Region.holds_ofList t)
    (Region.holds_ofList p) rfl (by omega) htable
    (fun i j h hc => hin i j ⟨P, hbuilt, h, hc⟩) fuel t.length 0 0 (Nat.zero_add _) .start
  refine hrun.imp_right (And.imp_right (Or.imp_right ?_))
  rintro ⟨i, j, j', h, hc, hread, hle⟩
  exact ⟨i, j, j', ⟨P, hbuilt, h, hc, hread⟩, hle⟩

/-- A needle of fewer than two bytes is a fault of the call. -/
theorem kmpCall_short (h : p.length < 2) (fuel : ℕ) :
    kmpCall t p fuel = .error .outOfBounds := kmpContains_short fuel _ _ _ h

/-- **Accesses in range.** Every access of the call is in range exactly when the
needle has at least two bytes and no iteration of the inner loop begins at its
last index. -/
theorem kmpContains_inRange_iff (p t : List UInt8) :
    KmpInRange p t ↔ 2 ≤ p.length ∧ ∀ i j, FallsBack p t i j → j + 1 < p.length := by
  constructor
  · intro h
    refine ⟨?_, fun i j hfall => ?_⟩
    · by_contra hshort
      exact h 0 (kmpCall_short (Nat.lt_of_not_le hshort) 0)
    · by_contra hlast
      obtain ⟨N, hN⟩ := kmpCall_outOfBounds hfall (Nat.le_of_not_lt hlast)
      exact h N (hN N le_rfl)
  · rintro ⟨hlen, hin⟩ fuel hfault
    obtain ⟨P, hbuilt, -⟩ := kmpBuilds_of_length hlen
    -- a call over a table in range returns or runs out
    rcases hbuilt.kmpCall_eq (t := t) fuel with hout | hcall
    · rw [hout] at hfault
      cases hfault
    · rcases kmpPrefixSearch_tested hbuilt hin fuel with ⟨r, hr⟩ | ⟨hout, -⟩
      · rw [hcall, hr] at hfault
        cases hfault
      · rw [hcall, hout] at hfault
        cases hfault

/-- The table overruns a needle of one byte, and the needle `ab` over the text
`ac`, which differs from it at the last byte. -/
theorem kmpContains_overruns : ¬ KmpInRange [97] [97] ∧ ¬ KmpInRange [97, 98] [97, 99] :=
  ⟨fun h => h 2 (by decide), fun h => h 2 (by decide)⟩

/-- An iteration in range takes the border of the prefix of length `j + 2`. -/
theorem fallsTo_iff (hin : j + 1 < p.length) {j' : ℕ} :
    FallsTo p t i j j' ↔ FallsBack p t i j ∧ j' = border p (j + 2) := by
  constructor
  · rintro ⟨P, hbuilt, htest, hc, hread⟩
    have hentry : P.read (j + 1) = .ok (border p (j + 2)) := hbuilt.spec.2.2 _ hin
    exact ⟨⟨P, hbuilt, htest, hc⟩, Except.ok.inj (hread.symm.trans hentry)⟩
  · rintro ⟨⟨P, hbuilt, htest, hc⟩, rfl⟩
    exact ⟨P, hbuilt, htest, hc, hbuilt.spec.2.2 _ hin⟩

/-- **Termination.** Every iteration of the inner loop decreases the length, and
the call returns, exactly when the needle has at least two bytes and every
iteration begins at a length `j` that is not its last index and for which two of
its first `j + 2` bytes, at the distance two, differ. -/
theorem kmpContains_terminates_iff (p t : List UInt8) :
    KmpTerminates p t ↔ 2 ≤ p.length ∧ ∀ i j, FallsBack p t i j →
      j + 1 < p.length ∧ ∃ k, k < j ∧ p[k]? ≠ p[k + 2]? := by
  constructor
  · rintro ⟨hdown, r, hr⟩
    refine ⟨?_, fun i j hfall => ?_⟩
    · by_contra hshort
      obtain ⟨N, hN⟩ := hr
      exact absurd ((hN N le_rfl).symm.trans (kmpCall_short (Nat.lt_of_not_le hshort) N)) (by simp)
    · -- an iteration out of range would be a fault of the call, which returns
      have hin : j + 1 < p.length := by
        by_contra hlast
        have hfault := kmpCall_outOfBounds hfall (Nat.le_of_not_lt hlast)
        exact absurd (Exec.Settles.unique hr hfault) (by simp)
      exact ⟨hin, (border_add_two_lt_iff hin).mp (hdown i j _ ((fallsTo_iff hin).mpr ⟨hfall, rfl⟩))⟩
  · rintro ⟨hlen, hall⟩
    obtain ⟨P, hbuilt, -⟩ := kmpBuilds_of_length hlen
    have hdown : ∀ i j j', FallsTo p t i j j' → j' < j := by
      intro i j j' hto
      have hfall : FallsBack p t i j := by
        obtain ⟨P, hbuilt, htest, hc, -⟩ := hto
        exact ⟨P, hbuilt, htest, hc⟩
      obtain ⟨hin, hdiff⟩ := hall i j hfall
      rw [((fallsTo_iff hin).mp hto).2]
      exact (border_add_two_lt_iff hin).mpr hdiff
    refine ⟨hdown, ?_⟩
    rcases kmpPrefixSearch_tested hbuilt (fun i j h => (hall i j h).1) p.length with
      ⟨r, hr⟩ | ⟨-, hfew | ⟨i, j, j', hto, hle⟩⟩
    · -- a search that returned with some bound returns from then on
      have hset := (kmpSearchLoop_growing _ _ _ _ _).settles hr (by simp)
      exact ⟨_, hbuilt.kmpCall_settles hset⟩
    · exact absurd hfew (lt_irrefl _)
    · exact absurd (hdown i j j' hto) (Nat.not_lt.mpr hle)

/-- Over the text `abc` the search for `abab` stays at the length 2. -/
theorem kmpContains_stuck : FallsTo [97, 98, 97, 98] [97, 98, 99] 2 2 2 ∧
    ¬ KmpTerminates [97, 98, 97, 98] [97, 98, 99] := by
  have hto : FallsTo [97, 98, 97, 98] [97, 98, 99] 2 2 2 := by
    obtain ⟨P, hbuilt, htable⟩ := kmpBuilds_of_length (p := [97, 98, 97, 98]) (by decide)
    refine ⟨P, hbuilt, ?_, rfl, (htable.2 3 (by decide)).trans (by decide)⟩
    -- two bytes match
    have hone : Tested (Region.ofList [97, 98, 99]) 3 ⟨P, 4, Region.ofList [97, 98, 97, 98]⟩ 1 1 :=
      .next (.start (by decide)) rfl rfl (show 1 ≠ 4 by decide) (by decide)
    exact hone.next rfl rfl (show 2 ≠ 4 by decide) (by decide)
  exact ⟨hto, fun h => absurd (h.1 2 2 2 hto) (lt_irrefl 2)⟩

/-! ### The result -/

/-- On an undisturbed text the result is right exactly when an `int` can index
the leftmost occurrence. -/
theorem kmpPartial_iff_of_undisturbed (hlen : 2 ≤ p.length) (hun : Undisturbed p t) :
    KmpPartial p t ↔ ∀ a, IsFirst p t (some a) → a < 2 ^ 31 := by
  obtain ⟨r, hr, hret⟩ := kmpContains_returns (Region.holds_ofList p) hlen
    (Region.holds_ofList t) hun
  have hret : Exec.Returns (kmpCall t p) (kmpResult r) := hret
  constructor
  · intro h a ha
    obtain rfl := hr.unique ha
    obtain ⟨N, hN⟩ := hret
    obtain ⟨b, hb, hres⟩ := h N _ (hN N le_rfl)
    obtain rfl := hb.unique ha
    -- the position comes back as the `int` that it is
    rw [kmpResult, Option.bind_some, Option.map_some] at hres
    split at hres
    · cases hres
    · have hmax : toInt a < 2 ^ 31 := toInt_lt _
      rw [Option.some.injEq] at hres
      omega
  · intro h fuel r' hrun
    have hset := (kmpContains_growing _ _ _ _).settles hrun (by simp)
    obtain rfl := Except.ok.inj (Exec.Settles.unique hret hset)
    exact ⟨r, hr, kmpResult_of_lt fun a ha => h a (ha ▸ hr)⟩

/-- **The result, whenever there is one.** A call that returns returns the
leftmost occurrence, `NULL` when there is none, if no walk of the search goes
wrong on the text and an `int` can index the occurrence, or if the first walk to
go wrong has no end. Without a walk that goes wrong that is all it takes: the
result is right only if an `int` can index the occurrence. -/
theorem kmpContains_leftmost (p t : List UInt8) (hlen : 2 ≤ p.length) :
    ((Undisturbed p t ∧ ∀ a, IsFirst p t (some a) → a < 2 ^ 31) ∨ OffTable p t →
      KmpPartial p t) ∧
    (Undisturbed p t → KmpPartial p t → ∀ a, IsFirst p t (some a) → a < 2 ^ 31) := by
  refine ⟨?_, fun hun => (kmpPartial_iff_of_undisturbed hlen hun).mp⟩
  rintro (⟨hun, hindex⟩ | hoff) fuel r hrun
  · exact (kmpPartial_iff_of_undisturbed hlen hun).mpr hindex fuel r hrun
  · -- such a call does not return
    have hset := (kmpContains_growing _ _ _ _).settles hrun (by simp)
    obtain ⟨N, hN⟩ := hset
    exact absurd hoff (not_offTable_of_kmpContains (Region.holds_ofList p) hlen
      (Region.holds_ofList t) (le_max_right N p.length) (hN _ (le_max_left N p.length)))

end Call

/-- The needle and the text of `tests/slice_test.c`. -/
theorem kmpContains_leftmost_test :
    KmpPartial "six".toUTF8.toList "Hello PosixC Slice!".toUTF8.toList :=
  (kmpContains_leftmost _ _ (by decide +kernel)).1 (.inl
    ⟨undisturbed_of_match (by decide +kernel) (by decide +kernel), fun a ha => by
      have hfit := ha.1.1
      have hlen : "Hello PosixC Slice!".toUTF8.toList.length = 19 := by decide +kernel
      omega⟩)

/-- `aabb` occurs in `aaabb`, and the call returns `NULL`. -/
theorem kmpContains_misses : ¬ KmpPartial [97, 97, 98, 98] [97, 97, 97, 98, 98] := by
  intro h
  obtain ⟨a, ha, hnone⟩ := h 5 none rfl
  obtain rfl : a = none := by
    cases a with
    | none => rfl
    | some a => cases hnone
  exact ha 1 ⟨by decide, by decide⟩

end Posixc
