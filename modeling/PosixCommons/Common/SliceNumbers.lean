import PosixCommons.Common.Numbers
import PosixCommons.Common.SliceOps

/-!
# Slices of numbers

`posixc_slice_parse_int`, `posixc_slice_parse_float` and `posixc_slice_parse_double` make
a slice of the text of a number, in the 48 bytes of its inline buffer.

* `posixc_itoa` stops at zero before it writes anything and has no minus sign, so the
  text is that of the number when it is positive. The slice points to the buffer of
  the callee's own structure, which is its buffer only where the two are one.
* The functions for fractions compute what they return apart from what they write. They
  count the dot when none is written, and they leave no room for the NUL when they clip
  the fraction to the buffer.
-/

open Framework

namespace Posixc

variable {str : Region UInt8} {x : ℤ}

/-! ### Whole numbers -/

/-- The text is the number's, it is followed by a NUL, and its length is returned. -/
def ItoaRight (x : ℤ) (str : Region UInt8) : Prop :=
  ∃ str' cs, itoa x str 0 = .ok (cs.length, str') ∧ str'.Holds (cs ++ [0]) ∧
    cs = signedText x ∧ signedValue cs = x

theorem signedText_of_pos (hx : 0 < x) : signedText x = decimal x.natAbs := by
  rw [signedText, if_neg (by omega), if_neg (by omega)]

/-- A number has as many characters as digits when it is positive. -/
theorem signedText_length_iff :
    (signedText x).length = (decimal x.natAbs).length ↔ 0 < x := by
  refine ⟨fun h => ?_, fun hx => by rw [signedText_of_pos hx]⟩
  rw [signedText] at h
  split_ifs at h with hneg hzero
  · rw [List.length_cons] at h
    omega
  · rw [hzero] at h
    cases h
  · omega

/-- An `int` has at most ten digits. -/
theorem decimal_length_of_int (hx : -2 ^ 31 ≤ x ∧ x < 2 ^ 31) :
    (decimal x.natAbs).length ≤ 10 := by
  rw [decimal_length_le_iff]
  omega

/-- What `itoa` writes, and when that is the text of the number. -/
theorem itoa_text (str : Region UInt8) (hroom : (decimal x.natAbs).length < str.len) :
    ∃ cs, itoa x str 0 = .ok (cs.length, str.patch 0 (cs ++ [0])) ∧
      (str.patch 0 (cs ++ [0])).Holds (cs ++ [0]) ∧
      ((signedText x).length = cs.length ↔ 0 < x) ∧ (0 < x → cs = signedText x) := by
  obtain ⟨cs, hlen, hcs, hrun⟩ := itoa_spec str 0 x (by omega)
  refine ⟨cs, hrun, Region.holds_patch ?_, ?_, fun hx =>
    (hcs hx.le).trans (signedText_of_pos hx).symm⟩
  · rw [List.length_append, List.length_singleton]
    omega
  · rw [hlen]
    exact signedText_length_iff

theorem itoaRight_iff (hroom : (decimal x.natAbs).length < str.len) :
    ItoaRight x str ↔ 0 < x := by
  obtain ⟨cs, hrun, hholds, hlen, htext⟩ := itoa_text str hroom
  constructor
  · rintro ⟨str', cs', hrun', -, rfl, -⟩
    rw [hrun] at hrun'
    exact hlen.mp (Prod.mk.inj (Except.ok.inj hrun')).1.symm
  · intro hx
    exact ⟨_, cs, hrun, hholds, htext hx, by rw [htext hx, signedValue_signedText]⟩

/-- What the caller gets of `posixc_slice_parse_int`. -/
theorem sliceParseInt_spec (m : Mem) (slice frame : ℕ)
    (hx : (decimal x.natAbs).length < inlineCap) :
    ∃ cs m', sliceParseInt m slice frame x = .ok m' ∧
      (m'.slice slice).size = cs.length ∧ (m'.slice slice).buf = .inline frame ∧
      Region.Holds ⟨inlineCap, (m'.slice slice).inlinebuf⟩ cs ∧
      ((signedText x).length = cs.length ↔ 0 < x) ∧ (0 < x → cs = signedText x) := by
  obtain ⟨cs, hrun, hholds, hlen, htext⟩ :=
    itoa_text ⟨inlineCap, (m.slice frame).inlinebuf⟩ hx
  have hfew : cs.length < 2 ^ 31 := by
    have hle : (cs ++ [0]).length ≤ inlineCap := hholds.1
    rw [List.length_append, inlineCap] at hle
    omega
  refine ⟨cs, _, by rw [sliceParseInt, hrun]; rfl, ?_, ?_, ?_, hlen, htext⟩
  · rw [Mem.returnSlice, Mem.setSlice_self]
    exact sizeOfInt_natCast hfew
  · rw [Mem.returnSlice, Mem.setSlice_self]
  · rw [Mem.returnSlice, Mem.setSlice_self]
    exact hholds.of_append

/-- **Whole numbers as text.** `posixc_itoa` writes and counts the text of exactly the
positive numbers. Of these `posixc_slice_parse_int` returns the text and its size, and
what it returns is a slice of that text only where it is the callee's own structure. -/
theorem itoa_right_iff (x : ℤ) (hx : -2 ^ 31 ≤ x ∧ x < 2 ^ 31) :
    (∀ str : Region UInt8, 12 ≤ str.len → (ItoaRight x str ↔ 0 < x)) ∧
    ∀ (m : Mem) (slice frame : ℕ),
      ((∃ m', sliceParseInt m slice frame x = .ok m' ∧
          (m'.slice slice).size = (signedText x).length ∧
          Region.Holds ⟨inlineCap, (m'.slice slice).inlinebuf⟩ (signedText x)) ↔ 0 < x) ∧
      ((∃ m', sliceParseInt m slice frame x = .ok m' ∧ m'.Stores slice (signedText x)) ↔
        0 < x ∧ frame = slice) := by
  have hfew := decimal_length_of_int hx
  refine ⟨fun str hstr => itoaRight_iff (by omega), fun m slice frame => ?_⟩
  obtain ⟨cs, m', hrun, hsize, hbuf, hholds, hlen, htext⟩ :=
    sliceParseInt_spec m slice frame (x := x) (by rw [inlineCap]; omega)
  constructor
  · constructor
    · rintro ⟨m'', hrun', hsize', -⟩
      obtain rfl := Except.ok.inj (hrun.symm.trans hrun')
      exact hlen.mp (hsize'.symm.trans hsize)
    · intro hpos
      exact ⟨m', hrun, by rw [hsize, htext hpos], htext hpos ▸ hholds⟩
  · constructor
    · rintro ⟨m'', hrun', r, hstorage, -, hsize'⟩
      obtain rfl := Except.ok.inj (hrun.symm.trans hrun')
      refine ⟨hlen.mp (hsize'.symm.trans hsize), ?_⟩
      -- the address is that of the callee's structure
      rcases hstorage with ⟨hown, -⟩ | ⟨b, hheap, -⟩
      · exact Ptr.inline.inj (hbuf.symm.trans hown)
      · cases hbuf.symm.trans hheap
    · rintro ⟨hpos, rfl⟩
      exact ⟨m', hrun, _, .inl ⟨hbuf, rfl⟩, htext hpos ▸ hholds, by rw [hsize, htext hpos]⟩

theorem itoa_right_iff_42 : ItoaRight 42 (Region.alloc 12) :=
  ((itoa_right_iff 42 ⟨by decide, by decide⟩).1 (Region.alloc 12) le_rfl).mpr (by decide)

/-- Nothing is written for zero, and no minus sign for a negative number. -/
theorem itoa_not_right : ¬ ItoaRight 0 (Region.alloc 12) ∧ ¬ ItoaRight (-7) (Region.alloc 12) := by
  constructor
  · rw [itoaRight_iff (by decide)]
    decide
  · rw [itoaRight_iff (by simp [decimal])]
    decide

/-! ### Fractions -/

/-- Nothing is written beyond the first `maxbytes` bytes, which are all there are, and
what is returned is the number of characters before the NUL. -/
def FtoaRight (maxbytes : ℤ) (run : Exec (ℤ × Region UInt8)) : Prop :=
  ∃ size res cs, run = .ok (size, res) ∧ res.Holds (cs ++ [0]) ∧ 0 ∉ cs ∧
    size = cs.length ∧ size ≤ maxbytes

/-- The number of digits that are written of the fraction, after the clipping. -/
def clippedAfterpoint (n : Decimal) (afterpoint maxbytes : ℤ) : ℤ :=
  let i := (decimal n.ipart.natAbs).length
  if toInt (i + afterpoint + 1) > maxbytes then toInt (maxbytes - i - 1) else afterpoint

section Fraction

variable {n : Decimal} {afterpoint : ℤ} {res : Region UInt8}

/-- The digits of the fraction and the NUL fit exactly when nothing is clipped and one
byte more is left. -/
theorem clippedAfterpoint_fits_iff (hip : 0 ≤ n.ipart ∧ n.ipart < 2 ^ 31)
    (hafter : 0 ≤ afterpoint ∧ afterpoint < 2 ^ 31) :
    0 ≤ clippedAfterpoint n afterpoint 48 ∧
      (clippedAfterpoint n afterpoint 48 = 0 ↔ afterpoint = 0) ∧
      ((decimal n.ipart.natAbs).length + clippedAfterpoint n afterpoint 48 + 1 < 48 ↔
        (decimal n.ipart.natAbs).length + afterpoint + 1 < 48) := by
  have hfew := decimal_length_of_int (x := n.ipart) ⟨by omega, hip.2⟩
  have hsum : ((decimal n.ipart.natAbs).length : ℤ) + afterpoint + 1 < 2 ^ 31 →
      toInt ((decimal n.ipart.natAbs).length + afterpoint + 1) =
        (decimal n.ipart.natAbs).length + afterpoint + 1 := fun h => toInt_of_lt (by omega) h
  have hroom : toInt (48 - (decimal n.ipart.natAbs).length - 1) =
      48 - (decimal n.ipart.natAbs).length - 1 := toInt_of_lt (by omega) (by omega)
  rw [clippedAfterpoint]
  split_ifs with hclip
  · rw [hroom]
    omega
  · omega

/-- The call once the integer part is written. -/
theorem ftoa_ipart (hres : res.len = 48) (hip : 0 ≤ n.ipart ∧ n.ipart < 2 ^ 31) {k : ℤ}
    (hk : clippedAfterpoint n afterpoint 48 = k) :
    ftoaWithinGivenBytes n res afterpoint 48 = (do
      let res ←
        if k ≠ 0 then do
          let (_, res) ← itoaPaddingZeros (n.fpart k)
            (res.patch 0 (decimal n.ipart.natAbs ++ [46])) ((decimal n.ipart.natAbs).length + 1) k
          pure res
        else pure (res.patch 0 (decimal n.ipart.natAbs ++ [0]))
      return (toInt ((decimal n.ipart.natAbs).length + k + 1), res)) := by
  have hfew := decimal_length_of_int (x := n.ipart) ⟨by omega, hip.2⟩
  obtain ⟨cs, -, hcs, hitoa⟩ := itoa_spec res 0 n.ipart (by omega)
  obtain rfl := hcs hip.1
  -- the dot is written over the NUL of the integer part
  have hdot : (res.patch 0 (decimal n.ipart.natAbs ++ [0])).write
      (decimal n.ipart.natAbs).length 46 = .ok (res.patch 0 (decimal n.ipart.natAbs ++ [46])) := by
    have hmid : (res.patch 0 (decimal n.ipart.natAbs ++ [0])).write
        (0 + (decimal n.ipart.natAbs).length) 46 =
          .ok (res.patch 0 (decimal n.ipart.natAbs ++ [46])) :=
      Region.patch_write_mid (by simp; omega) 46
    rwa [Nat.zero_add] at hmid
  rw [ftoaWithinGivenBytes, hitoa, Exec.ok_bind]
  dsimp only
  rw [clippedAfterpoint] at hk
  rw [hk, hdot]
  rfl

/-- **The functions for fractions.** The buffer has the digits of both parts with the
dot between them, when there is room for these and the NUL. -/
theorem ftoa_spec (hres : res.len = 48) (hip : 0 ≤ n.ipart ∧ n.ipart < 2 ^ 31) {k : ℤ}
    (hk : clippedAfterpoint n afterpoint 48 = k) (hpos : 0 < k)
    (hfits : (decimal n.ipart.natAbs).length + k + 1 < 48)
    (hfpart : 0 ≤ n.fpart k ∧ n.fpart k < 10 ^ k.toNat) :
    ftoaWithinGivenBytes n res afterpoint 48 =
      .ok ((decimal n.ipart.natAbs).length + k + 1, res.patch 0
        ((decimal n.ipart.natAbs ++ 46 :: padded k.toNat (n.fpart k).natAbs) ++ [0])) := by
  have hdigits := decimal_length_le_iff.mpr (natAbs_lt_pow hfpart.1 hfpart.2)
  have hpad := itoaPaddingZeros_spec (res.patch 0 (decimal n.ipart.natAbs ++ [46]))
    ((decimal n.ipart.natAbs).length + 1) (d := k) hfpart.1 (by rw [Region.patch_len]; omega)
  have hextend := Region.patch_append res 0 (decimal n.ipart.natAbs ++ [46])
    (padded k.toNat (n.fpart k).natAbs ++ [0])
  rw [List.length_append, List.length_singleton, Nat.zero_add] at hextend
  rw [ftoa_ipart hres hip hk, if_pos hpos.ne', hpad, hextend, toInt_of_lt (by omega) (by omega)]
  simp

/-- The integer part alone is one character shorter than what is returned. -/
theorem ftoa_not_right_of_zero (hres : res.len = 48) (hip : 0 ≤ n.ipart ∧ n.ipart < 2 ^ 31)
    (hk : clippedAfterpoint n afterpoint 48 = 0) :
    ¬ FtoaRight 48 (ftoaWithinGivenBytes n res afterpoint 48) := by
  have hfew := decimal_length_of_int (x := n.ipart) ⟨by omega, hip.2⟩
  rintro ⟨size, res', cs, hrun, hholds, hcs, hsize, -⟩
  rw [ftoa_ipart hres hip hk, if_neg (by simp)] at hrun
  obtain ⟨rfl, rfl⟩ := Prod.mk.inj (Except.ok.inj hrun)
  -- both lists are what is before the first NUL
  have hdigits : (0 : UInt8) ∉ decimal n.ipart.natAbs := fun hmem =>
    (isDigit_of_mem_decimal hmem).ne_zero rfl
  have hlen : (decimal n.ipart.natAbs).length = cs.length := by
    have hstrlen := strlen_spec (Region.holds_patch (r := res) (by simp; omega)) hdigits
    exact Except.ok.inj (hstrlen.symm.trans (strlen_spec hholds hcs))
  rw [toInt_of_lt (by omega) (by omega)] at hsize
  omega

/-- Where the digits of the fraction reach the last byte the NUL is written after it. -/
theorem ftoa_not_right_of_full (hres : res.len = 48) (hip : 0 ≤ n.ipart ∧ n.ipart < 2 ^ 31)
    {k : ℤ} (hk : clippedAfterpoint n afterpoint 48 = k) (hpos : 0 < k)
    (hfull : 48 ≤ (decimal n.ipart.natAbs).length + k + 1) :
    ¬ FtoaRight 48 (ftoaWithinGivenBytes n res afterpoint 48) := by
  rintro ⟨size, res', cs, hrun, -⟩
  rw [ftoa_ipart hres hip hk, if_pos hpos.ne'] at hrun
  obtain ⟨⟨i, res₁⟩, hpad, -⟩ := Exec.bind_eq_ok.mp hrun
  have hroom := itoaPaddingZeros_room hpad
  rw [Region.patch_len] at hroom
  omega

/-- **Fractions as text.** What the two functions write stays inside the buffer and
what they return is its length exactly when there are digits after the dot and room for
them and the NUL without clipping. -/
theorem ftoa_right_iff (n : Decimal) (afterpoint : ℤ) (res : Region UInt8)
    (hres : res.len = 48) (hip : 0 ≤ n.ipart ∧ n.ipart < 2 ^ 31)
    (hafter : 0 ≤ afterpoint ∧ afterpoint < 2 ^ 31)
    (hfpart : 0 ≤ n.fpart (clippedAfterpoint n afterpoint 48) ∧
      n.fpart (clippedAfterpoint n afterpoint 48) <
        10 ^ (clippedAfterpoint n afterpoint 48).toNat) :
    (FtoaRight 48 (ftoaWithinGivenBytes n res afterpoint 48) ↔
      0 < afterpoint ∧ (Nat.digits 10 n.ipart.natAbs).length + afterpoint + 1 < 48) ∧
    (FtoaRight 48 (dtoaWithinGivenBytes n res afterpoint 48) ↔
      0 < afterpoint ∧ (Nat.digits 10 n.ipart.natAbs).length + afterpoint + 1 < 48) := by
  rw [dtoaWithinGivenBytes, and_self_iff, ← decimal_length]
  obtain ⟨hnonneg, hzero, hfits⟩ := clippedAfterpoint_fits_iff hip hafter
  rw [← hfits]
  have hafter' : 0 < afterpoint ↔ 0 < clippedAfterpoint n afterpoint 48 := by omega
  rw [hafter']
  constructor
  · intro hright
    refine ⟨lt_of_le_of_ne hnonneg fun h0 => ?_, not_le.mp fun hfull => ?_⟩
    · exact ftoa_not_right_of_zero hres hip h0.symm hright
    · by_cases h0 : clippedAfterpoint n afterpoint 48 = 0
      · exact ftoa_not_right_of_zero hres hip h0 hright
      · exact ftoa_not_right_of_full hres hip rfl (by omega) hfull hright
  · rintro ⟨hpos, hroom⟩
    have hpadded := padded_length_of_lt (natAbs_lt_pow hfpart.1 hfpart.2)
    have hlen : (decimal n.ipart.natAbs ++ 46 :: padded (clippedAfterpoint n afterpoint 48).toNat
        (n.fpart (clippedAfterpoint n afterpoint 48)).natAbs).length =
          (decimal n.ipart.natAbs).length + (clippedAfterpoint n afterpoint 48).toNat + 1 := by
      rw [List.length_append, List.length_cons, hpadded, Nat.add_assoc]
    refine ⟨_, _, _, ftoa_spec hres hip rfl hpos hroom hfpart, Region.holds_patch ?_, ?_, ?_, ?_⟩
    · rw [List.length_append, hlen, List.length_singleton]
      omega
    · -- a digit or the dot
      rw [List.mem_append, List.mem_cons]
      rintro (hmem | hmem | hmem)
      · exact (isDigit_of_mem_decimal hmem).ne_zero rfl
      · cases hmem
      · exact (isDigit_of_mem_padded hmem).ne_zero rfl
    · rw [hlen]
      omega
    · omega

theorem ftoa_right_iff_half :
    FtoaRight 48 (ftoaWithinGivenBytes ⟨1, fun _ => 5⟩ (Region.alloc 48) 1 48) :=
  (ftoa_right_iff ⟨1, fun _ => 5⟩ 1 (Region.alloc 48) rfl (by decide) (by decide)
    (by decide)).1.mpr (by decide)

/-- One is written without a fraction, and with one that fills the buffer. -/
theorem ftoa_not_right :
    ¬ FtoaRight 48 (ftoaWithinGivenBytes ⟨1, fun _ => 0⟩ (Region.alloc 48) 0 48) ∧
      ¬ FtoaRight 48 (ftoaWithinGivenBytes ⟨1, fun _ => 0⟩ (Region.alloc 48) 46 48) := by
  have hip : (0 : ℤ) ≤ (⟨1, fun _ => 0⟩ : Decimal).ipart ∧
      (⟨1, fun _ => 0⟩ : Decimal).ipart < 2 ^ 31 := by decide
  refine ⟨ftoa_not_right_of_zero rfl hip (by decide), ?_⟩
  exact ftoa_not_right_of_full (k := 46) rfl hip (by decide) (by decide) (by decide)

end Fraction

end Posixc
