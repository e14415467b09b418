import PosixCommons.Common.BoyerMoore

/-!
# The case-insensitive search

`posixc_boyermoore_contains_case_ignored` of `common/boyermoore.c`. Its two tables
are those of the query with every letter in lower case (`generateAlphaSkip_fold`,
`generateFindSkip_spec`), and the search lowers each byte of the text before it
compares it; but it compares it with the byte of the query as it is written.

* A query without upper-case letters is its own lower case, the tables are safe
  for it, and the search finds the leftmost occurrence (`caseIgnored_of_lower`).
* An upper-case letter of the query agrees with no byte of any text. The
  comparison stops at it or before, the shifts still move forward, and the search
  ends with `NULL` (`caseIgnored_of_upper`).

So a query with an upper-case letter is reported absent from every text, and
`caseIgnoredRight_iff` reads off when that is the right answer.
-/

open Framework

namespace Posixc

/-! ### Letters -/

/-- `isalpha` on a byte, in the C locale: one of the two cases changes it. -/
def isalpha (c : UInt8) : Prop := tolower c ≠ c ∨ toupper c ≠ c

theorem tolower_toupper (c : UInt8) : tolower (toupper c) = tolower c := by
  unfold tolower toupper
  grind

/-- The upper case of a letter is changed by `tolower`. -/
theorem tolower_toupper_ne {c : UInt8} (h : isalpha c) : tolower (toupper c) ≠ toupper c := by
  unfold isalpha tolower toupper at *
  grind

/-- A byte that is not a letter is the only one with its lower case. -/
theorem eq_of_tolower_eq {c d : UInt8} (hc : ¬ isalpha c) (h : tolower d = tolower c) : d = c := by
  unfold isalpha tolower toupper at *
  grind

theorem eq_of_map_tolower_eq {xs ys : List UInt8} (hxs : ∀ c ∈ xs, ¬ isalpha c)
    (h : ys.map tolower = xs.map tolower) : ys = xs := by
  induction xs generalizing ys with
  | nil => simpa using h
  | cons c xs ih =>
    cases ys with
    | nil => simp at h
    | cons d ys =>
      rw [List.map_cons, List.map_cons, List.cons.injEq] at h
      rw [eq_of_tolower_eq (hxs c List.mem_cons_self) h.1,
        ih (fun e he => hxs e (List.mem_cons_of_mem c he)) h.2]

theorem fold_false : fold false = tolower := rfl

theorem map_tolower_map (xs : List UInt8) : (xs.map tolower).map tolower = xs.map tolower := by
  simp [tolower_tolower]

theorem map_tolower_map_toupper (xs : List UInt8) :
    (xs.map toupper).map tolower = xs.map tolower := by
  simp [tolower_toupper]

/-! ### The search -/

/-- An object whose tables move the query forward, whatever they are safe for. -/
structure Boyermoore.Forward (bm : Boyermoore) (q : List UInt8) : Prop where
  query : bm.query.Holds q
  len : bm.queryLen = q.length
  alpha : ∀ c : UInt8, ∃ v, bm.alphaSkipLookup.read c.toNat = .ok v ∧ v ≤ q.length
  find : ∀ j, j < q.length → ∃ v, bm.findSkipLookup.read j = .ok v ∧
    q.length - 1 - j < v ∧ v ≤ q.length - 1 - j + q.length

section Search

variable {text query : Region UInt8} {t q : List UInt8}

/-- **The search for a query that matches nowhere.** When no byte of a text reads
as the byte `u` of the query, every comparison stops at `u` or before, every shift
moves forward, and the search ends with `NULL`. -/
theorem searchLoop_unmatched {bm : Boyermoore} (hfwd : bm.Forward q) (htext : text.Holds t)
    (hsize : t.length + 2 * q.length < 2 ^ 64) {u : ℕ} (hu : u < q.length)
    (hnever : ∀ c, fold bm.caseSensitive c ≠ q[u]) (fuel : ℕ) :
    ∀ a, 0 < fuel → t.length < fuel + a → a + q.length ≤ t.length + 2 * q.length →
      searchLoop bm text t.length fuel (a + q.length - 1) = .ok none := by
  induction fuel with
  | zero => intro a h; omega
  | succ fuel ih =>
    intro a _ hfuel hbound
    rw [searchLoop]
    by_cases hin : a + q.length - 1 < t.length
    · obtain ⟨k, hk, hrun, hmatch, -⟩ := compareBack_spec hfwd.query htext a (by omega) q.length
        le_rfl (by omega)
      rw [if_pos hin, hfwd.len, show a + q.length - 1 = toSize (a + q.length + (2 ^ 64 - 1)) by
        unfold toSize; omega, hrun, Exec.ok_bind]
      -- the comparison did not get past `u`
      have huk : u < k := by
        by_contra hge
        have hat : a + u < t.length := by omega
        have h := hmatch u (by omega) hu
        rw [List.getElem?_map, List.getElem?_eq_getElem hat, List.getElem?_eq_getElem hu] at h
        exact hnever t[a + u] (Option.some.inj h)
      obtain ⟨j, rfl⟩ := Nat.exists_eq_succ_of_ne_zero (show k ≠ 0 by omega)
      have hat : a + j < t.length := by omega
      obtain ⟨v, hv, hvle⟩ := hfwd.alpha t[a + j]
      obtain ⟨w, hw, hforward, hwle⟩ := hfwd.find j (by omega)
      -- the alignment after the shift
      have hnext : toSize (a + j + max v w) = a + (max v w - (q.length - 1 - j)) + q.length - 1 := by
        rw [toSize_of_lt (by omega)]
        omega
      rw [Nat.succ_eq_add_one, ← Nat.add_assoc, toSize_pred (by omega)]
      dsimp only
      rw [if_neg (Nat.succ_ne_zero j), htext.read hat, Exec.ok_bind, hv, Exec.ok_bind,
        Nat.add_sub_cancel, hw, Exec.ok_bind, hnext]
      exact ih _ (by omega) (by omega) (by omega)
    · exact if_neg hin

/-- The tables that `posixc_boyermoore_init` builds move the query forward in
either mode. -/
theorem boyermooreInit_forward (cs : Bool) (hquery : query.Holds q) (hq : q ≠ []) :
    ∃ bm, boyermooreInit query q.length cs = .ok bm ∧ bm.Forward q ∧ bm.caseSensitive = cs := by
  obtain ⟨skip, sl, hinit, ⟨alpha, hα, hαread⟩, ⟨find, hf, hfread⟩⟩ :=
    boyermooreInit_tables cs hquery hq
  have hlen : (q.map (fold cs)).length = q.length := List.length_map _
  refine ⟨_, hinit, ⟨hquery, rfl, fun c => ⟨alpha c, hαread c, ?_⟩,
    fun j hj => ⟨find j, hfread j hj, ?_, ?_⟩⟩, rfl⟩
  · have h := hα.le c
    rwa [hlen] at h
  · have h := hf.forward j (by rwa [hlen])
    rwa [hlen] at h
  · have h := hf.le j (by rwa [hlen])
    rwa [hlen] at h

/-- **A query without upper-case letters** is found at its leftmost occurrence in
the text in lower case. -/
theorem caseIgnored_of_lower (htext : text.Holds t) (hquery : query.Holds q) (hq : q ≠ [])
    (hsize : t.length + 2 * q.length < 2 ^ 64) (hlower : ∀ c ∈ q, tolower c = c) :
    ∃ r, IsFirst (q.map tolower) (t.map tolower) r ∧
      Exec.Returns (fun fuel => boyermooreContainsCaseIgnored fuel text t.length query q.length)
        r := by
  have hmap : q.map tolower = q := by
    rw [List.map_congr_left hlower, List.map_id']
  obtain ⟨bm, hinit, hsafe, hcs⟩ := boyermooreInit_safe false hquery hq hmap
  obtain ⟨r, hr, -⟩ := boyermooreSearchIn_spec hsafe htext hq hsize (Nat.lt_succ_self _)
  rw [hcs, fold_false] at hr
  rw [hmap]
  refine ⟨r, hr, t.length + 1, fun fuel hfuel => ?_⟩
  obtain ⟨r', hr', hrun⟩ := boyermooreSearchIn_spec hsafe htext hq hsize hfuel
  rw [hcs, fold_false] at hr'
  calc boyermooreContainsCaseIgnored fuel text t.length query q.length
      = boyermooreSearchIn fuel bm text t.length := by
        rw [boyermooreContainsCaseIgnored, hinit, Exec.ok_bind]
    _ = .ok r := by rw [hrun, hr.unique hr']

/-- **A query with an upper-case letter** is reported absent from every text. -/
theorem caseIgnored_of_upper (htext : text.Holds t) (hquery : query.Holds q)
    (hsize : t.length + 2 * q.length < 2 ^ 64) {c : UInt8} (hc : c ∈ q) (hupper : tolower c ≠ c) :
    Exec.Returns (fun fuel => boyermooreContainsCaseIgnored fuel text t.length query q.length)
      none := by
  obtain ⟨u, hu, rfl⟩ := List.getElem_of_mem hc
  obtain ⟨bm, hinit, hfwd, hcs⟩ :=
    boyermooreInit_forward false hquery (List.ne_nil_of_mem hc)
  -- a byte that `tolower` gives is one that it keeps
  have hnever : ∀ x, fold bm.caseSensitive x ≠ q[u] := by
    intro x hx
    rw [hcs, fold_false] at hx
    exact hupper (by rw [← hx, tolower_tolower])
  refine ⟨t.length + 1, fun fuel hfuel => ?_⟩
  have hloop := searchLoop_unmatched hfwd htext hsize hu hnever fuel 0 (by omega) (by omega)
    (by omega)
  have hstart : toSize (bm.queryLen + (2 ^ 64 - 1)) = 0 + q.length - 1 := by
    rw [hfwd.len]
    unfold toSize
    omega
  calc boyermooreContainsCaseIgnored fuel text t.length query q.length
      = searchLoop bm text t.length fuel (toSize (bm.queryLen + (2 ^ 64 - 1))) := by
        rw [boyermooreContainsCaseIgnored, hinit, Exec.ok_bind, boyermooreSearchIn]
    _ = .ok none := by rw [hstart, hloop]

end Search

/-! ### Two strings compared in lower case -/

/-- What `posixc_boyermoore_contains_case_ignored` returns, once it returns. -/
def CaseIgnoredReturns (t q : List UInt8) (r : Option ℕ) : Prop :=
  Exec.Returns (fun fuel => boyermooreContainsCaseIgnored fuel (Region.ofList t) t.length
    (Region.ofList q) q.length) r

/-- The search returns the leftmost position at which the query occurs in the
text, both in lower case. -/
def CaseIgnoredRight (t q : List UInt8) : Prop :=
  ∃ r, IsFirst (q.map tolower) (t.map tolower) r ∧ CaseIgnoredReturns t q r

/-- Writing letters of the text or of the query in the other case leaves the
result as it is. -/
def CaseChangeKept (t q : List UInt8) : Prop :=
  ∀ t' q', t'.map tolower = t.map tolower → q'.map tolower = q.map tolower →
    ∃ r, CaseIgnoredReturns t q r ∧ CaseIgnoredReturns t' q' r

section CaseIgnored

variable {t q : List UInt8}

theorem CaseIgnoredReturns.unique {r r' : Option ℕ} (h : CaseIgnoredReturns t q r)
    (h' : CaseIgnoredReturns t q r') : r = r' := by
  obtain ⟨N, hN⟩ := h
  obtain ⟨M, hM⟩ := h'
  exact Except.ok.inj ((hN _ (le_max_left N M)).symm.trans (hM _ (le_max_right N M)))

/-- The search is right exactly for the queries without upper-case letters and
for those that do not occur. -/
theorem caseIgnoredRight_iff_lower (hq : q ≠ []) (hsize : t.length + 2 * q.length < 2 ^ 64) :
    CaseIgnoredRight t q ↔
      (∀ c ∈ q, tolower c = c) ∨ ¬ q.map tolower <:+: t.map tolower := by
  by_cases hlower : ∀ c ∈ q, tolower c = c
  · exact iff_of_true
      (caseIgnored_of_lower (Region.holds_ofList t) (Region.holds_ofList q) hq hsize hlower)
      (.inl hlower)
  · -- the search returns `NULL`
    obtain ⟨c, hc, hupper⟩ : ∃ c ∈ q, tolower c ≠ c := by
      push Not at hlower
      exact hlower
    have hnone : CaseIgnoredReturns t q none :=
      caseIgnored_of_upper (Region.holds_ofList t) (Region.holds_ofList q) hsize hc hupper
    constructor
    · rintro ⟨r, hr, hret⟩
      obtain rfl := hret.unique hnone
      exact .inr fun hin => by simpa using hr.isSome_iff.mpr hin
    · exact fun h => ⟨none, isFirst_none (h.resolve_left hlower), hnone⟩

/-- The letter case matters exactly when the query has a letter and occurs. -/
theorem caseChangeKept_iff (hq : q ≠ []) (hsize : t.length + 2 * q.length < 2 ^ 64) :
    CaseChangeKept t q ↔
      (∀ c ∈ q, ¬ isalpha c) ∨ ¬ q.map tolower <:+: t.map tolower := by
  have hright : ∀ t' q', t'.map tolower = t.map tolower → q'.map tolower = q.map tolower →
      ((∀ c ∈ q', tolower c = c) ∨ ¬ q.map tolower <:+: t.map tolower) →
      ∃ r, IsFirst (q.map tolower) (t.map tolower) r ∧ CaseIgnoredReturns t' q' r := by
    intro t' q' ht' hq' h
    have htl : t'.length = t.length := by simpa using congrArg List.length ht'
    have hql : q'.length = q.length := by simpa using congrArg List.length hq'
    rw [← ht', ← hq'] at h ⊢
    refine (caseIgnoredRight_iff_lower ?_ (by omega)).mpr h
    rw [← List.length_pos_iff] at hq ⊢
    omega
  constructor
  · intro hkept
    by_contra hnot
    obtain ⟨⟨c, hc, halpha⟩, hocc⟩ : (∃ c ∈ q, isalpha c) ∧ q.map tolower <:+: t.map tolower := by
      push Not at hnot
      exact hnot
    -- in lower case the query is found
    obtain ⟨r, hr, hret⟩ := hright t (q.map tolower) rfl (map_tolower_map q)
      (.inl fun d hd => by
        obtain ⟨e, -, rfl⟩ := List.mem_map.mp hd
        exact tolower_tolower e)
    -- in upper case it is not
    have hnone : CaseIgnoredReturns t (q.map toupper) none :=
      caseIgnored_of_upper (Region.holds_ofList t) (Region.holds_ofList _)
        (by rwa [List.length_map]) (List.mem_map_of_mem hc) (tolower_toupper_ne halpha)
    obtain ⟨r₁, hq₁, hlow⟩ := hkept t (q.map tolower) rfl (map_tolower_map q)
    obtain ⟨r₂, hq₂, hup⟩ := hkept t (q.map toupper) rfl (map_tolower_map_toupper q)
    obtain rfl : r = none := by
      rw [hret.unique hlow, hq₁.unique hq₂, hup.unique hnone]
    simpa using hr.isSome_iff.mpr hocc
  · intro h t' q' ht' hq'
    -- every way of writing the query that matters is a right one
    have hlow : ∀ q' : List UInt8, q'.map tolower = q.map tolower →
        ((∀ c ∈ q', tolower c = c) ∨ ¬ q.map tolower <:+: t.map tolower) := by
      intro q' hq'
      refine h.imp_left fun hnot c hc => ?_
      obtain rfl := eq_of_map_tolower_eq hnot hq'
      by_contra hne
      exact hnot c hc (.inl hne)
    obtain ⟨r, hr, hret⟩ := hright t q rfl rfl (hlow q rfl)
    obtain ⟨r', hr', hret'⟩ := hright t' q' ht' hq' (hlow q' hq')
    obtain rfl := hr.unique hr'
    exact ⟨r, hret, hret'⟩

/-- **The case-insensitive search.** It returns the leftmost occurrence of the
query, letters in lower case, exactly when the query has no upper-case letter or
does not occur; and the result survives every change of letter case exactly when
the query has no letter or does not occur. The letters are those of ASCII, and other
bytes stay as they are (`tolower`). -/
theorem caseIgnored_spec (t q : List UInt8) (hq : q ≠ [])
    (hsize : t.length + 2 * q.length < 2 ^ 64) :
    (CaseIgnoredRight t q ↔
      (∀ c ∈ q, tolower c = c) ∨ ¬ q.map tolower <:+: t.map tolower) ∧
    (CaseChangeKept t q ↔
      (∀ c ∈ q, ¬ isalpha c) ∨ ¬ q.map tolower <:+: t.map tolower) :=
  ⟨caseIgnoredRight_iff_lower hq hsize, caseChangeKept_iff hq hsize⟩

end CaseIgnored

/-- The query `b` is found in the text `aB`, and would not be if it were written `B`. -/
theorem caseIgnored_spec_lower :
    CaseIgnoredRight [97, 66] [98] ∧ ¬ CaseChangeKept [97, 66] [98] := by
  obtain ⟨hright, hkept⟩ := caseIgnored_spec [97, 66] [98] (by decide) (by decide)
  refine ⟨hright.mpr (.inl fun c hc => ?_), fun h => ?_⟩
  · rw [List.mem_singleton.mp hc]
    rfl
  rcases hkept.mp h with hletters | habsent
  · exact hletters 98 (by decide) (.inr (by decide))
  · exact habsent ⟨[97], [], by decide⟩

/-- The query `A` is not found in the text `a`, which it equals in lower case. -/
theorem caseIgnored_misses_upper :
    CaseIgnoredReturns [97] [65] none ∧ ¬ CaseIgnoredRight [97] [65] := by
  have hnone : CaseIgnoredReturns [97] [65] none :=
    caseIgnored_of_upper (Region.holds_ofList [97]) (Region.holds_ofList [65]) (by decide)
      (List.mem_singleton.mpr rfl) (by decide)
  refine ⟨hnone, ?_⟩
  rintro ⟨r, hr, hret⟩
  obtain rfl := hret.unique hnone
  exact hr 0 ⟨by decide, by decide⟩

end Posixc
