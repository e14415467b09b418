import PosixCommons.Common.Utils
import PosixCommons.Framework.Decimal

/-!
# What the number functions write

The functions of `common/utils.c` that write numbers, as changes of the buffer: each
loop is one `Region.patch` of it. `digitsLoop` writes the digits from the last to the
first, the zeros come after them, and `reverse` turns both around, so the buffer has the
text of `Framework.decimal` or `Framework.padded`.

Numbers below zero have as many characters as they have digits, and these are none of a
decimal text.
-/

open Framework

namespace Posixc

section Writes

variable (str : Region UInt8) (off : ℕ)

/-! ### The loops -/

/-- One iteration swaps the characters at both ends. -/
theorem reverseLoop_swap (pre mid post : List UInt8) (a b : UInt8) (n : ℕ)
    (hroom : off + (pre ++ a :: (mid ++ b :: post)).length ≤ str.len) :
    reverseLoop off (n + 1) pre.length (pre.length + mid.length + 1)
        (str.patch off (pre ++ a :: (mid ++ b :: post))) =
      reverseLoop off n (pre.length + 1) (pre.length + mid.length)
        (str.patch off (pre ++ b :: (mid ++ a :: post))) := by
  -- the second end is behind the first one and what is between them
  have hsecond : ∀ x ys, pre ++ x :: (mid ++ ys) = (pre ++ x :: mid) ++ ys := by simp
  have hj : ∀ x, ((pre.length : ℤ) + mid.length + 1).toNat = (pre ++ x :: mid).length := fun x => by
    rw [List.length_append, List.length_cons]
    omega
  have hread : (str.patch off (pre ++ a :: (mid ++ b :: post))).read
      (off + ((pre.length : ℤ) + mid.length + 1).toNat) = .ok b := by
    rw [hj a, hsecond a]
    exact Region.patch_read_mid (by rwa [← hsecond a])
  have hwrite : (str.patch off (pre ++ b :: (mid ++ b :: post))).write
      (off + ((pre.length : ℤ) + mid.length + 1).toNat) a =
        .ok (str.patch off (pre ++ b :: (mid ++ a :: post))) := by
    rw [hj b, hsecond b, hsecond b]
    exact Region.patch_write_mid (by simpa using hroom) a
  rw [reverseLoop, if_pos (by omega), Int.toNat_natCast, Region.patch_read_mid hroom, Exec.ok_bind,
    hread, Exec.ok_bind, Region.patch_write_mid hroom, Exec.ok_bind, hwrite, Exec.ok_bind,
    Int.add_sub_cancel]

/-- `posixc_reverse` from both ends on, with `mid` still to be turned around. -/
theorem reverseLoop_spec (mid : List UInt8) :
    ∀ (pre post : List UInt8) (n : ℕ), mid.length ≤ n →
      off + (pre ++ mid ++ post).length ≤ str.len →
      reverseLoop off n pre.length (pre.length + mid.length - 1)
          (str.patch off (pre ++ mid ++ post)) =
        .ok (str.patch off (pre ++ mid.reverse ++ post)) := by
  -- an iteration takes one character from each end of what is still to be turned around
  induction mid using List.bidirectionalRec with
  | nil =>
    intro pre post n _ _
    cases n with
    | zero => rfl
    | succ n =>
      rw [reverseLoop, if_neg (by simp)]
      rfl
  | singleton a =>
    intro pre post n _ _
    cases n with
    | zero => rfl
    | succ n =>
      rw [reverseLoop, if_neg (by simp)]
      rfl
  | cons_append a mid b ih =>
    intro pre post n hn hroom
    rw [List.length_cons, List.length_append, List.length_singleton] at hn
    obtain ⟨n, rfl⟩ : ∃ k, n = k + 1 := ⟨n - 1, by omega⟩
    have hends : pre ++ a :: (mid ++ [b]) ++ post = pre ++ a :: (mid ++ b :: post) := by simp
    have hlast : (pre.length : ℤ) + (a :: (mid ++ [b])).length - 1 =
        pre.length + mid.length + 1 := by
      rw [List.length_cons, List.length_append, List.length_singleton]
      omega
    -- the two are in their places now
    have hrest := ih (pre ++ [b]) (a :: post) n (by omega) (by simpa using hroom)
    rw [List.length_append, List.length_singleton] at hrest
    rw [hends] at hroom ⊢
    rw [hlast, reverseLoop_swap str off pre mid post a b n hroom]
    calc reverseLoop off n (pre.length + 1) (pre.length + mid.length)
          (str.patch off (pre ++ b :: (mid ++ a :: post)))
        = reverseLoop off n (pre.length + 1 : ℕ) ((pre.length + 1 : ℕ) + mid.length - 1)
            (str.patch off (pre ++ [b] ++ mid ++ a :: post)) := by
          rw [Nat.cast_add_one, add_right_comm, Int.add_sub_cancel]
          simp
      _ = .ok (str.patch off (pre ++ [b] ++ mid.reverse ++ a :: post)) := hrest
      _ = .ok (str.patch off (pre ++ (a :: (mid ++ [b])).reverse ++ post)) := by simp

theorem reverse_spec (xs : List UInt8) (hroom : off + xs.length ≤ str.len) :
    reverse (str.patch off xs) off xs.length = .ok (str.patch off xs.reverse) := by
  have hloop := reverseLoop_spec str off xs [] [] xs.length le_rfl (by simpa using hroom)
  simpa [reverse] using hloop

theorem digit_natCast (n : ℕ) : digit n = digitChar (n % 10) := by
  have hmod : (n : ℤ).tmod 10 = (n % 10 : ℕ) := (Int.ofNat_tmod n 10).symm
  rw [digit, digitChar, hmod, UInt8.ofInt]
  congr 1
  omega

/-- The digits are written from the last to the first, one character for each. -/
theorem digitsLoop_spec (n : ℕ) :
    ∀ (x : ℤ) (xs : List UInt8), x.natAbs ≤ n →
      off + xs.length + (decimal x.natAbs).length ≤ str.len →
      ∃ cs, cs.length = (decimal x.natAbs).length ∧ (0 ≤ x → cs = decimal x.natAbs) ∧
        digitsLoop off n x xs.length (str.patch off xs) =
          .ok (xs.length + cs.length, str.patch off (xs ++ cs.reverse)) := by
  induction n with
  | zero =>
    intro x xs hx _
    -- a number has no more digits than its absolute value
    obtain rfl : x = 0 := by omega
    exact ⟨[], rfl, fun _ => rfl, by simp [digitsLoop]⟩
  | succ n ih =>
    intro x xs hx hroom
    by_cases h : x = 0
    · subst h
      exact ⟨[], rfl, fun _ => rfl, by simp [digitsLoop]⟩
    · have hdiv : (x.tdiv 10).natAbs = x.natAbs / 10 := Int.natAbs_tdiv x 10
      have hlen : (decimal x.natAbs).length = (decimal (x.natAbs / 10)).length + 1 := by
        rw [decimal_eq_append (by omega), List.length_append, List.length_singleton]
      obtain ⟨cs, hcs, hdigits, hrun⟩ := ih (x.tdiv 10) (xs ++ [digit x])
        (by rw [hdiv]; omega) (by rw [hdiv, List.length_append, List.length_singleton]; omega)
      rw [hdiv] at hcs hdigits
      -- the digits of the quotient, and behind them the one that is written now
      refine ⟨cs ++ [digit x], by simp [hcs, hlen], fun hpos => ?_, ?_⟩
      · obtain ⟨k, rfl⟩ := Int.eq_ofNat_of_zero_le hpos
        have hk : k ≠ 0 := by omega
        rw [hdigits (Int.tdiv_nonneg hpos (by decide)), digit_natCast, Int.natAbs_natCast,
          decimal_eq_append hk]
      · rw [digitsLoop, if_neg h, Region.write_patch (by omega), Exec.ok_bind]
        rw [List.length_append, List.length_singleton] at hrun
        rw [hrun, List.length_append, List.length_singleton, List.reverse_append,
          List.reverse_singleton, List.append_assoc, Nat.add_assoc, Nat.add_comm 1]

/-- The zeros that are missing up to a width of `d`. -/
theorem zerosLoop_spec (d : ℤ) (n : ℕ) :
    ∀ xs : List UInt8, d.toNat ≤ xs.length + n →
      off + max d.toNat xs.length ≤ str.len →
      zerosLoop off d n xs.length (str.patch off xs) =
        .ok (max d.toNat xs.length,
          str.patch off (xs ++ List.replicate (d.toNat - xs.length) 48)) := by
  induction n with
  | zero =>
    intro xs hn _
    -- the width is reached
    rw [Nat.add_zero] at hn
    rw [zerosLoop, Nat.max_eq_right hn, Nat.sub_eq_zero_of_le hn, List.replicate_zero,
      List.append_nil]
  | succ n ih =>
    intro xs hn hroom
    rw [zerosLoop]
    by_cases h : (xs.length : ℤ) < d
    · have hstep := ih (xs ++ [48])
      rw [List.length_append, List.length_singleton] at hstep
      rw [if_pos h, Region.write_patch (by omega), Exec.ok_bind, hstep (by omega) (by omega),
        show d.toNat - xs.length = d.toNat - (xs.length + 1) + 1 by omega, List.replicate_succ,
        List.append_assoc, show max d.toNat (xs.length + 1) = max d.toNat xs.length by omega]
      rfl
    · rw [if_neg h, Nat.max_eq_right (by omega), Nat.sub_eq_zero_of_le (by omega),
        List.replicate_zero, List.append_nil]

/-! ### The functions -/

theorem natAbs_lt_pow {x : ℤ} {d : ℕ} (hx : 0 ≤ x) (hlt : x < 10 ^ d) : x.natAbs < 10 ^ d := by
  zify
  rwa [abs_of_nonneg hx]

/-- **`posixc_itoa`.** It writes as many characters as the number has digits. -/
theorem itoa_spec (x : ℤ) (hroom : off + (decimal x.natAbs).length < str.len) :
    ∃ cs, cs.length = (decimal x.natAbs).length ∧ (0 ≤ x → cs = decimal x.natAbs) ∧
      itoa x str off = .ok (cs.length, str.patch off (cs ++ [0])) := by
  obtain ⟨cs, hlen, hcs, hdigits⟩ := digitsLoop_spec str off x.natAbs x [] le_rfl
    (by simpa using hroom.le)
  rw [Region.patch_nil, List.length_nil, Nat.zero_add, List.nil_append] at hdigits
  refine ⟨cs, hlen, hcs, ?_⟩
  -- the digits were written backwards, and are turned around before the NUL
  have hreverse := reverse_spec str off cs.reverse (by rw [List.length_reverse]; omega)
  rw [List.length_reverse, List.reverse_reverse] at hreverse
  rw [itoa, hdigits, Exec.ok_bind]
  dsimp only
  rw [hreverse, Exec.ok_bind, Region.write_patch (by omega)]
  rfl

/-- **`posixc_itoa_padding_zeros`.** The zeros that are appended are in front after all
is turned around. -/
theorem itoaPaddingZeros_spec {x d : ℤ} (hx : 0 ≤ x)
    (hroom : off + max d.toNat (decimal x.natAbs).length < str.len) :
    itoaPaddingZeros x str off d = .ok ((padded d.toNat x.natAbs).length,
      str.patch off (padded d.toNat x.natAbs ++ [0])) := by
  obtain ⟨cs, -, hcs, hdigits⟩ := digitsLoop_spec str off x.natAbs x [] le_rfl
    (by rw [List.length_nil]; omega)
  obtain rfl := hcs hx
  rw [Region.patch_nil, List.length_nil, Nat.zero_add, List.nil_append] at hdigits
  have hzeros := zerosLoop_spec str off d d.toNat (decimal x.natAbs).reverse (by omega)
    (by rw [List.length_reverse]; omega)
  rw [List.length_reverse, ← padded_length] at hzeros
  -- what both loops wrote, the other way around
  have htext : (decimal x.natAbs).reverse ++
      List.replicate (d.toNat - (decimal x.natAbs).length) 48 =
        (padded d.toNat x.natAbs).reverse := by
    rw [padded, List.reverse_append, List.reverse_replicate]
  have hreverse := reverse_spec str off (padded d.toNat x.natAbs).reverse
    (by rw [List.length_reverse, padded_length]; omega)
  rw [List.length_reverse, List.reverse_reverse] at hreverse
  rw [itoaPaddingZeros, hdigits, Exec.ok_bind]
  dsimp only
  rw [hzeros, Exec.ok_bind]
  dsimp only
  rw [htext, hreverse, Exec.ok_bind, Region.write_patch (by rw [padded_length]; omega)]
  rfl

end Writes

/-- **Numbers with zeros in front.** A number that is not negative is written with as
many digits as it has, or `d` when that is more, and they have its value; nothing but
these and a final NUL is written. -/
theorem itoaPaddingZeros_writes (x d : ℤ) (str : Region UInt8) (off : ℕ) (hx : 0 ≤ x)
    (hd : 0 ≤ d) (hroom : off + max d.toNat (Nat.digits 10 x.natAbs).length + 1 ≤ str.len) :
    ∃ cs : List UInt8,
      itoaPaddingZeros x str off d = .ok (cs.length, str.patch off (cs ++ [0])) ∧
      (cs.length : ℤ) = max d (Nat.digits 10 x.natAbs).length ∧ (∀ c ∈ cs, IsDigit c) ∧
      (decimalValue cs : ℤ) = x ∧ (x < 10 ^ d.toNat → (cs.length : ℤ) = d) := by
  rw [← decimal_length] at hroom ⊢
  refine ⟨padded d.toNat x.natAbs, itoaPaddingZeros_spec str off hx (by omega), ?_,
    fun c hc => isDigit_of_mem_padded hc, ?_, fun hlt => ?_⟩
  · rw [padded_length]
    omega
  · rw [decimalValue_padded]
    omega
  · rw [padded_length_of_lt (natAbs_lt_pow hx hlt)]
    omega

theorem itoaPaddingZeros_writes_42 :
    ∃ cs : List UInt8, itoaPaddingZeros 42 (Region.alloc 6) 0 5 =
        .ok (cs.length, (Region.alloc 6).patch 0 (cs ++ [0])) ∧ cs.length = 5 ∧
      decimalValue cs = 42 := by
  obtain ⟨cs, hrun, hlen, -, hvalue, -⟩ :=
    itoaPaddingZeros_writes 42 5 (Region.alloc 6) 0 (by decide) (by decide) (by simp)
  refine ⟨cs, hrun, ?_, by exact_mod_cast hvalue⟩
  simp at hlen
  omega

/-! ### Too little room -/

section Room

variable {str str' : Region UInt8} {off : ℕ}

theorem digitsLoop_len (n : ℕ) : ∀ {x : ℤ} {i i' : ℕ} {str str' : Region UInt8},
    digitsLoop off n x i str = .ok (i', str') → str'.len = str.len := by
  induction n with
  | zero =>
    intro x i i' str str' h
    obtain ⟨-, rfl⟩ := Prod.mk.inj (Except.ok.inj h)
    rfl
  | succ n ih =>
    intro x i i' str str' h
    rw [digitsLoop] at h
    split_ifs at h
    · obtain ⟨-, rfl⟩ := Prod.mk.inj (Except.ok.inj h)
      rfl
    · obtain ⟨str₁, hwrite, h⟩ := Exec.bind_eq_ok.mp h
      rw [ih h, (Region.len_of_write hwrite).2]

theorem zerosLoop_len {d : ℤ} (n : ℕ) : ∀ {i i' : ℕ} {str str' : Region UInt8},
    d.toNat ≤ i + n → zerosLoop off d n i str = .ok (i', str') →
      str'.len = str.len ∧ d.toNat ≤ i' := by
  induction n with
  | zero =>
    intro i i' str str' hn h
    obtain ⟨rfl, rfl⟩ := Prod.mk.inj (Except.ok.inj h)
    exact ⟨rfl, hn⟩
  | succ n ih =>
    intro i i' str str' hn h
    rw [zerosLoop] at h
    split_ifs at h with hlt
    · obtain ⟨str₁, hwrite, h⟩ := Exec.bind_eq_ok.mp h
      obtain ⟨hlen, hd⟩ := ih (by omega) h
      exact ⟨hlen.trans (Region.len_of_write hwrite).2, hd⟩
    · obtain ⟨rfl, rfl⟩ := Prod.mk.inj (Except.ok.inj h)
      exact ⟨rfl, by omega⟩

theorem reverseLoop_len (n : ℕ) : ∀ {i j : ℤ} {str str' : Region UInt8},
    reverseLoop off n i j str = .ok str' → str'.len = str.len := by
  induction n with
  | zero =>
    intro i j str str' h
    obtain rfl := Except.ok.inj h
    rfl
  | succ n ih =>
    intro i j str str' h
    rw [reverseLoop] at h
    split_ifs at h
    · obtain ⟨temp, -, h⟩ := Exec.bind_eq_ok.mp h
      obtain ⟨c, -, h⟩ := Exec.bind_eq_ok.mp h
      obtain ⟨str₁, hwrite₁, h⟩ := Exec.bind_eq_ok.mp h
      obtain ⟨str₂, hwrite₂, h⟩ := Exec.bind_eq_ok.mp h
      rw [ih h, (Region.len_of_write hwrite₂).2, (Region.len_of_write hwrite₁).2]
    · obtain rfl := Except.ok.inj h
      rfl

/-- With a width of `d` there is room for `d` characters and the NUL, whatever the
number is. -/
theorem itoaPaddingZeros_room {x d : ℤ} {i : ℕ}
    (h : itoaPaddingZeros x str off d = .ok (i, str')) : off + d.toNat < str.len := by
  rw [itoaPaddingZeros] at h
  obtain ⟨⟨i₁, str₁⟩, hdigits, h⟩ := Exec.bind_eq_ok.mp h
  obtain ⟨⟨i₂, str₂⟩, hzeros, h⟩ := Exec.bind_eq_ok.mp h
  obtain ⟨str₃, hreverse, h⟩ := Exec.bind_eq_ok.mp h
  obtain ⟨str₄, hwrite, -⟩ := Exec.bind_eq_ok.mp h
  -- the NUL was written at a place that the buffer has
  have hlt := (Region.len_of_write hwrite).1
  obtain ⟨hlen₂, hd⟩ := zerosLoop_len d.toNat (Nat.le_add_left _ _) hzeros
  rw [reverseLoop_len _ hreverse, hlen₂, digitsLoop_len _ hdigits] at hlt
  exact (Nat.add_le_add_left hd off).trans_lt hlt

end Room

end Posixc
