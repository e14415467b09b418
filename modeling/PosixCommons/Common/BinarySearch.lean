import PosixCommons.Framework.Memory

/-!
# Binary search

`posixc_binary_search` of `common/utils.c`, on an array of strings. A string is the
list of its bytes before the NUL. The search is a recursion on a range of the array
that gets shorter with every call; the arithmetic is that of `int`, where a result out
of range is a fault, and so is a read of an entry that is not there.

A range that the search leaves has no match: beside the middle the order of the entries
is that of the needle and the middle (`strcmp_comm`).
-/

open Framework

namespace Posixc

/-- `strcmp`: the difference of the first bytes that differ, the NUL after the last byte
being one of them. -/
def strcmp : List UInt8 → List UInt8 → ℤ
  | [], [] => 0
  | [], b :: _ => 0 - b.toNat
  | a :: _, [] => a.toNat - 0
  | a :: as, b :: bs => if a = b then strcmp as bs else a.toNat - b.toNat

/-- The result of an operation on values of `int`. -/
def intResult (n : ℤ) : Exec ℤ :=
  if -2 ^ 31 ≤ n ∧ n < 2 ^ 31 then .ok n else .error .aborted

/-- `haystack[i]`. -/
def entryAt (haystack : Region (List UInt8)) (i : ℤ) : Exec (List UInt8) :=
  if i < 0 then .error .outOfBounds else haystack.read i.toNat

/-- `posixc_binary_search` from `start` to before `stop`. -/
def binarySearch (needle : List UInt8) (haystack : Region (List UInt8)) :
    ℕ → ℤ → ℤ → Exec ℤ
  | 0, _, _ => .error .exhausted
  | fuel + 1, start, stop =>
    if start = stop then .ok (-1)
    else do
      let width ← intResult (stop - start)
      let mid ← intResult (start + width.tdiv 2)
      let entry ← entryAt haystack mid
      let rc := strcmp needle entry
      if rc < 0 then binarySearch needle haystack fuel start mid
      else if rc > 0 then do
        let next ← intResult (mid + 1)
        binarySearch needle haystack fuel next stop
      else return mid

/-! ### Comparing strings -/

theorem strcmp_comm (s t : List UInt8) : strcmp t s = -strcmp s t := by
  induction s generalizing t with
  | nil =>
    cases t with
    | nil => rfl
    | cons b bs => simp [strcmp]
  | cons a as ih =>
    cases t with
    | nil => simp [strcmp]
    | cons b bs =>
      rw [strcmp, strcmp]
      by_cases h : a = b
      · rw [if_pos h, if_pos h.symm, ih]
      · rw [if_neg h, if_neg (Ne.symm h), neg_sub]

/-- Two strings compare as equal when they are. -/
theorem strcmp_eq_zero_iff {s t : List UInt8} (hs : 0 ∉ s) (ht : 0 ∉ t) :
    strcmp s t = 0 ↔ s = t := by
  have hbyte : ∀ a b : UInt8, (a.toNat : ℤ) - b.toNat = 0 ↔ a = b := fun a b => by
    rw [sub_eq_zero, Nat.cast_inj, UInt8.toNat_inj]
  induction s generalizing t with
  | nil =>
    cases t with
    | nil => exact iff_of_true rfl rfl
    | cons b bs =>
      -- a byte of a string is not the NUL of the other
      refine iff_of_false (fun h => ht ?_) (by simp)
      rw [(hbyte 0 b).mp h]
      exact List.mem_cons_self
  | cons a as ih =>
    cases t with
    | nil =>
      refine iff_of_false (fun h => hs ?_) (by simp)
      rw [← (hbyte a 0).mp h]
      exact List.mem_cons_self
    | cons b bs =>
      rw [strcmp]
      split_ifs with h
      · have htail : strcmp as bs = 0 ↔ as = bs :=
          ih (fun hmem => hs (List.mem_cons_of_mem _ hmem))
            (fun hmem => ht (List.mem_cons_of_mem _ hmem))
        rw [htail, List.cons.injEq, and_iff_right h]
      · rw [hbyte, List.cons.injEq]
        exact iff_of_false h fun hboth => h hboth.1

/-! ### The search -/

section Search

variable {needle : List UInt8} {s : ℕ → List UInt8} {start stop : ℕ}

/-- The entries are strings, in the order of `strcmp`. -/
structure Sorted (s : ℕ → List UInt8) (start stop : ℕ) : Prop where
  noNul : ∀ i, start ≤ i → i < stop → 0 ∉ s i
  order : ∀ i j, start ≤ i → i ≤ j → j < stop → strcmp (s i) (s j) ≤ 0

/-- What a search for the needle is to return. -/
def Finds (needle : List UInt8) (s : ℕ → List UInt8) (start stop : ℕ) (r : ℤ) : Prop :=
  (r = -1 ∧ ∀ i, start ≤ i → i < stop → s i ≠ needle) ∨
    ∃ k : ℕ, r = k ∧ start ≤ k ∧ k < stop ∧ s k = needle

theorem Sorted.sub (h : Sorted s start stop) {start' stop' : ℕ} (hstart : start ≤ start')
    (hstop : stop' ≤ stop) : Sorted s start' stop' :=
  ⟨fun i h0 h1 => h.noNul i (hstart.trans h0) (h1.trans_le hstop),
    fun i j h0 hij h1 => h.order i j (hstart.trans h0) hij (h1.trans_le hstop)⟩

/-- A needle before an entry is none of the later ones. -/
theorem Sorted.ne_of_lt (h : Sorted s start stop) {mid : ℕ} (hmid : start ≤ mid)
    (hlt : strcmp needle (s mid) < 0) {j : ℕ} (hj : mid ≤ j) (hstop : j < stop) :
    s j ≠ needle := by
  rintro rfl
  rw [strcmp_comm] at hlt
  have hle := h.order mid j hmid hj hstop
  omega

/-- A needle after an entry is none of the earlier ones. -/
theorem Sorted.ne_of_gt (h : Sorted s start stop) {mid : ℕ} (hmid : mid < stop)
    (hgt : 0 < strcmp needle (s mid)) {j : ℕ} (hstart : start ≤ j) (hj : j ≤ mid) :
    s j ≠ needle := by
  rintro rfl
  have hle := h.order j mid hstart hj hmid
  omega

/-- What is found in a part of the range is found in the range, when the needle is
nowhere else in it. -/
theorem Finds.extend {start' stop' : ℕ} {r : ℤ} (h : Finds needle s start' stop' r)
    (hstart : start ≤ start') (hstop : stop' ≤ stop)
    (helse : ∀ i, start ≤ i → i < stop → ¬ (start' ≤ i ∧ i < stop') → s i ≠ needle) :
    Finds needle s start stop r := by
  rcases h with ⟨rfl, hnone⟩ | ⟨k, rfl, h0, h1, hk⟩
  · refine .inl ⟨rfl, fun i hi0 hi1 => ?_⟩
    by_cases hin : start' ≤ i ∧ i < stop'
    · exact hnone i hin.1 hin.2
    · exact helse i hi0 hi1 hin
  · exact .inr ⟨k, rfl, hstart.trans h0, h1.trans_le hstop, hk⟩

/-- One call, on a range that is not empty. The middle is in the range, and no result is
out of the range of `int`. -/
theorem binarySearch_step {haystack : Region (List UInt8)} {mid : ℕ} (hlt : start < stop)
    (hint : stop < 2 ^ 31) (hmid : mid = start + (stop - start) / 2)
    (hread : haystack.read mid = .ok (s mid)) (fuel : ℕ) :
    binarySearch needle haystack (fuel + 1) start stop =
      if strcmp needle (s mid) < 0 then binarySearch needle haystack fuel start mid
      else if strcmp needle (s mid) > 0 then
        binarySearch needle haystack fuel (mid + 1 : ℕ) stop
      else .ok mid := by
  have hwidth : intResult ((stop : ℤ) - start) = .ok ((stop - start : ℕ) : ℤ) := by
    rw [intResult, if_pos (by omega), Nat.cast_sub hlt.le]
  have hhalf : (start : ℤ) + ((stop - start : ℕ) : ℤ).tdiv 2 = mid := by
    rw [hmid, Nat.cast_add, Int.ofNat_tdiv]
    rfl
  have hresult : intResult (mid : ℤ) = .ok (mid : ℤ) := if_pos (by omega)
  have hnext : intResult ((mid : ℤ) + 1) = .ok ((mid + 1 : ℕ) : ℤ) := if_pos (by omega)
  have hentry : entryAt haystack mid = .ok (s mid) := by
    rw [entryAt, if_neg (by omega), Int.toNat_natCast, hread]
  rw [binarySearch, if_neg (by omega), hwidth, Exec.ok_bind, hhalf, hresult, Exec.ok_bind, hentry,
    Exec.ok_bind, hnext]
  rfl

/-- The outcome on a range of at most `n` entries, which are all that is read. -/
theorem binarySearch_outcome (n : ℕ) :
    ∀ start stop : ℕ, stop - start ≤ n → start ≤ stop → stop < 2 ^ 31 → Sorted s start stop →
      0 ∉ needle → ∃ r, Finds needle s start stop r ∧
        ∀ haystack : Region (List UInt8),
          (∀ i, start ≤ i → i < stop → haystack.read i = .ok (s i)) →
          ∀ fuel, n < fuel → binarySearch needle haystack fuel start stop = .ok r := by
  induction n with
  | zero =>
    intro start stop hn hle _ _ _
    obtain rfl : start = stop := by omega
    refine ⟨-1, .inl ⟨rfl, fun i h0 h1 => absurd h1 h0.not_gt⟩, fun haystack _ fuel hfuel => ?_⟩
    obtain ⟨fuel, rfl⟩ := Nat.exists_eq_succ_of_ne_zero hfuel.ne'
    rw [binarySearch, if_pos rfl]
  | succ n ih =>
    intro start stop hn hle hint hsorted hneedle
    rcases hle.eq_or_lt with rfl | hlt
    · -- the same range, with one call more allowed
      obtain ⟨r, hfinds, hrun⟩ := ih start start (by omega) le_rfl hint hsorted hneedle
      exact ⟨r, hfinds, fun haystack hread fuel hfuel => hrun haystack hread fuel (by omega)⟩
    · obtain ⟨mid, hmid⟩ : ∃ mid, mid = start + (stop - start) / 2 := ⟨_, rfl⟩
      have hmid0 : start ≤ mid := by omega
      have hmid1 : mid < stop := by omega
      rcases lt_trichotomy (strcmp needle (s mid)) 0 with hrc | hrc | hrc
      · -- the needle is before the middle
        obtain ⟨r, hfinds, hrun⟩ := ih start mid (by omega) hmid0 (by omega)
          (hsorted.sub le_rfl hmid1.le) hneedle
        refine ⟨r, hfinds.extend le_rfl hmid1.le fun i h0 h1 hout =>
          hsorted.ne_of_lt hmid0 hrc (by omega) h1, fun haystack hread fuel hfuel => ?_⟩
        obtain ⟨fuel, rfl⟩ := Nat.exists_eq_succ_of_ne_zero (Nat.ne_zero_of_lt hfuel)
        rw [binarySearch_step hlt hint hmid (hread mid hmid0 hmid1), if_pos hrc]
        exact hrun haystack (fun i h0 h1 => hread i h0 (h1.trans hmid1)) fuel (by omega)
      · -- the middle is the needle
        refine ⟨mid, .inr ⟨mid, rfl, hmid0, hmid1, ?_⟩, fun haystack hread fuel hfuel => ?_⟩
        · exact ((strcmp_eq_zero_iff hneedle (hsorted.noNul mid hmid0 hmid1)).mp hrc).symm
        · obtain ⟨fuel, rfl⟩ := Nat.exists_eq_succ_of_ne_zero (Nat.ne_zero_of_lt hfuel)
          rw [binarySearch_step hlt hint hmid (hread mid hmid0 hmid1), if_neg hrc.not_lt,
            if_neg hrc.not_gt]
      · -- the needle is after the middle
        obtain ⟨r, hfinds, hrun⟩ := ih (mid + 1) stop (by omega) hmid1 hint
          (hsorted.sub (by omega) le_rfl) hneedle
        refine ⟨r, hfinds.extend (by omega) le_rfl fun i h0 h1 hout =>
          hsorted.ne_of_gt hmid1 hrc h0 (by omega), fun haystack hread fuel hfuel => ?_⟩
        obtain ⟨fuel, rfl⟩ := Nat.exists_eq_succ_of_ne_zero (Nat.ne_zero_of_lt hfuel)
        rw [binarySearch_step hlt hint hmid (hread mid hmid0 hmid1), if_neg hrc.not_gt, if_pos hrc]
        exact hrun haystack (fun i h0 h1 => hread i (by omega) h1) fuel (by omega)

end Search

/-- **Binary search.** On entries in order the search returns, with the index of an entry
that is the needle, or with -1 when there is none. It reads no entry outside the range,
whether there is one or not, and computes no value that is not an `int`. -/
theorem binarySearch_finds (needle : List UInt8) (hneedle : 0 ∉ needle) (s : ℕ → List UInt8)
    (start stop : ℕ) (hle : start ≤ stop) (hint : stop < 2 ^ 31) (hsorted : Sorted s start stop) :
    ∃ r : ℤ,
      (∀ haystack : Region (List UInt8),
        (∀ i, start ≤ i → i < stop → haystack.read i = .ok (s i)) →
          Exec.Returns (fun fuel => binarySearch needle haystack fuel start stop) r) ∧
      ((∃ i, start ≤ i ∧ i < stop ∧ s i = needle) →
        ∃ k : ℕ, r = k ∧ start ≤ k ∧ k < stop ∧ s k = needle) ∧
      (r = -1 ↔ ∀ i, start ≤ i → i < stop → s i ≠ needle) := by
  obtain ⟨r, hfinds, hrun⟩ := binarySearch_outcome (stop - start) start stop le_rfl hle hint
    hsorted hneedle
  refine ⟨r, fun haystack hread => ⟨stop - start + 1, fun fuel hfuel =>
    hrun haystack hread fuel hfuel⟩, fun ⟨i, h0, h1, hi⟩ => ?_, fun hr => ?_, fun hnone => ?_⟩
  · exact hfinds.resolve_left fun hnone => hnone.2 i h0 h1 hi
  · rcases hfinds with ⟨-, hnone⟩ | ⟨k, hk, -⟩
    · exact hnone
    · omega
  · rcases hfinds with ⟨hr, -⟩ | ⟨k, -, h0, h1, hk⟩
    · exact hr
    · exact absurd hk (hnone k h0 h1)

theorem binarySearch_finds_two :
    Exec.Returns
      (fun fuel => binarySearch [98] (Region.ofList [[97], [98]]) fuel (0 : ℕ) (2 : ℕ)) 1 := by
  have horder : ∀ j < 2, ∀ i ≤ j,
      strcmp (if i = 0 then [97] else [98]) (if j = 0 then [97] else [98]) ≤ 0 := by decide
  obtain ⟨r, hrun, hfound, -⟩ := binarySearch_finds [98] (by decide)
    (fun i => if i = 0 then [97] else [98]) 0 2 (by decide) (by decide)
    ⟨fun i _ _ => by split_ifs <;> decide, fun i j _ hij hj => horder j hj i hij⟩
  obtain ⟨k, rfl, -, hlt, hk⟩ := hfound ⟨1, by decide, by decide, rfl⟩
  obtain rfl : k = 1 := by
    have hk0 : k ≠ 0 := by
      rintro rfl
      exact absurd hk (by decide)
    omega
  refine hrun (Region.ofList [[97], [98]]) fun i _ hi => ?_
  have hcell : ∀ i (hi : i < 2), ([[97], [98]] : List (List UInt8))[i] =
      if i = 0 then [97] else [98] := by decide
  rw [(Region.holds_ofList _).read hi, ← hcell i hi]

end Posixc
