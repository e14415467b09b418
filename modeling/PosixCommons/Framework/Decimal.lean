import Mathlib.Data.Nat.Digits.Lemmas
import Mathlib.Algebra.Order.Group.Nat
import Mathlib.Tactic.Common

/-!
# Decimal text

Numbers as strings of bytes. `decimal n` has the digits of `n` from the first to the
last, and none for zero; `padded d n` has zeros in front of these up to a width of `d`;
`signedText x` is the usual text of an integer. `decimalValue` and `signedValue` read
such a string, zeros in front or not, and give the number back.
-/

namespace Framework

/-- The character of a digit. -/
def digitChar (d : ℕ) : UInt8 := UInt8.ofNat (d + 48)

/-- The digits of a number, the first one first. -/
def decimal (n : ℕ) : List UInt8 := ((Nat.digits 10 n).map digitChar).reverse

/-- The digits of a number, with zeros in front up to `d` characters. -/
def padded (d n : ℕ) : List UInt8 := List.replicate (d - (decimal n).length) 48 ++ decimal n

/-- An integer as it is usually written. -/
def signedText (x : ℤ) : List UInt8 :=
  if x < 0 then 45 :: decimal x.natAbs else if x = 0 then [48] else decimal x.natAbs

/-- The value of a string of digits. -/
def decimalValue (cs : List UInt8) : ℕ := cs.foldl (fun v c => 10 * v + (c.toNat - 48)) 0

/-- The value of a string of digits, which may have a minus sign. -/
def signedValue : List UInt8 → ℤ
  | [] => 0
  | c :: cs => if c = 45 then -decimalValue cs else decimalValue (c :: cs)

/-- The characters `0` to `9`. -/
def IsDigit (c : UInt8) : Prop := 48 ≤ c ∧ c ≤ 57

instance (c : UInt8) : Decidable (IsDigit c) := inferInstanceAs (Decidable (_ ∧ _))

theorem digitChar_toNat {d : ℕ} (h : d < 10) : (digitChar d).toNat = d + 48 := by
  rw [digitChar, UInt8.toNat_ofNat']
  omega

theorem isDigit_digitChar {d : ℕ} (h : d < 10) : IsDigit (digitChar d) := by
  rw [IsDigit, UInt8.le_iff_toNat_le, UInt8.le_iff_toNat_le, digitChar_toNat h]
  exact ⟨Nat.le_add_left 48 d, Nat.add_le_add_right (Nat.le_of_lt_succ h) 48⟩

theorem IsDigit.ne_zero {c : UInt8} (h : IsDigit c) : c ≠ 0 := by
  rintro rfl
  exact absurd h (by decide)

@[simp] theorem decimal_zero : decimal 0 = [] := rfl

theorem decimal_length (n : ℕ) : (decimal n).length = (Nat.digits 10 n).length := by
  rw [decimal, List.length_reverse, List.length_map]

/-- The digits but the last, then the last. -/
theorem decimal_eq_append {n : ℕ} (h : n ≠ 0) :
    decimal n = decimal (n / 10) ++ [digitChar (n % 10)] := by
  rw [decimal, Nat.digits_def' (by decide) (Nat.pos_of_ne_zero h), List.map_cons,
    List.reverse_cons, decimal]

theorem isDigit_of_mem_decimal {n : ℕ} {c : UInt8} (h : c ∈ decimal n) : IsDigit c := by
  rw [decimal, List.mem_reverse, List.mem_map] at h
  obtain ⟨d, hd, rfl⟩ := h
  exact isDigit_digitChar (Nat.digits_lt_base (by decide) hd)

theorem decimal_length_le_iff {n k : ℕ} : (decimal n).length ≤ k ↔ n < 10 ^ k := by
  rw [decimal_length]
  exact Nat.digits_length_le_iff (by decide) n

theorem decimal_eq_nil_iff {n : ℕ} : decimal n = [] ↔ n = 0 := by
  rw [decimal, List.reverse_eq_nil_iff, List.map_eq_nil_iff]
  exact Nat.digits_eq_nil_iff_eq_zero

theorem decimalValue_append (cs : List UInt8) (c : UInt8) :
    decimalValue (cs ++ [c]) = 10 * decimalValue cs + (c.toNat - 48) := by
  rw [decimalValue, List.foldl_append]
  rfl

/-- Reading the digits of a number gives the number. -/
@[simp] theorem decimalValue_decimal (n : ℕ) : decimalValue (decimal n) = n := by
  induction n using Nat.strong_induction_on with
  | _ n ih =>
    by_cases h : n = 0
    · rw [h]
      rfl
    · have hsmaller : n / 10 < n := Nat.div_lt_self (Nat.pos_of_ne_zero h) (by decide)
      rw [decimal_eq_append h, decimalValue_append, ih _ hsmaller,
        digitChar_toNat (Nat.mod_lt n (by decide))]
      omega

/-- Zeros in front count for nothing. -/
theorem decimalValue_zeros (k : ℕ) (cs : List UInt8) :
    decimalValue (List.replicate k 48 ++ cs) = decimalValue cs := by
  induction k with
  | zero => rfl
  | succ k ih =>
    rw [← ih, List.replicate_succ, List.cons_append]
    rfl

theorem padded_length (d n : ℕ) : (padded d n).length = max d (decimal n).length := by
  rw [padded, List.length_append, List.length_replicate]
  omega

/-- A number below the power of ten has exactly the width. -/
theorem padded_length_of_lt {d n : ℕ} (h : n < 10 ^ d) : (padded d n).length = d := by
  rw [padded_length, max_eq_left (decimal_length_le_iff.mpr h)]

@[simp] theorem decimalValue_padded (d n : ℕ) : decimalValue (padded d n) = n := by
  rw [padded, decimalValue_zeros, decimalValue_decimal]

theorem isDigit_of_mem_padded {d n : ℕ} {c : UInt8} (h : c ∈ padded d n) : IsDigit c := by
  rcases List.mem_append.mp h with h | h
  · rw [List.eq_of_mem_replicate h]
    decide
  · exact isDigit_of_mem_decimal h

/-- Reading the text of an integer gives the integer. -/
theorem signedValue_signedText (x : ℤ) : signedValue (signedText x) = x := by
  rw [signedText]
  split_ifs with hneg hzero
  · rw [signedValue, if_pos rfl, decimalValue_decimal]
    omega
  · rw [hzero]
    rfl
  · -- the first character is a digit, not a minus sign
    obtain ⟨c, cs, hcs⟩ := List.exists_cons_of_ne_nil
      (show decimal x.natAbs ≠ [] from fun h => hzero (Int.natAbs_eq_zero.mp
        (decimal_eq_nil_iff.mp h)))
    have hminus : c ≠ 45 := by
      rintro rfl
      have hdigit : IsDigit 45 := isDigit_of_mem_decimal (hcs ▸ List.mem_cons_self)
      exact absurd hdigit (by decide)
    rw [hcs, signedValue, if_neg hminus, ← hcs, decimalValue_decimal]
    omega

end Framework
