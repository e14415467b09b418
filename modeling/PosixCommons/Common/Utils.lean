import PosixCommons.Framework.Memory

/-!
# Numbers as text

`common/utils.c`: `reverse`, `itoa`, `itoaPaddingZeros` and
`ftoaWithinGivenBytes`, which write into a caller's buffer from an address `off`
beyond its start. The digits of an `int` are those of the truncating `%` and `/`.

The floating-point functions see their argument through its integer part and
through its fraction scaled by a power of ten, both converted to `int`; a
`Decimal` is these two, and what they are for a given `float` is not modelled.
-/

open Framework

namespace Posixc

/-- The loop of `posixc_reverse`, with at most `n` iterations left. -/
def reverseLoop (off : ℕ) : ℕ → ℤ → ℤ → Region UInt8 → Exec (Region UInt8)
  | 0, _, _, str => .ok str
  | n + 1, i, j, str =>
    if i < j then do
      let temp ← str.read (off + i.toNat)
      let c ← str.read (off + j.toNat)
      let str ← str.write (off + i.toNat) c
      let str ← str.write (off + j.toNat) temp
      reverseLoop off n (i + 1) (j - 1) str
    else .ok str

/-- `posixc_reverse`. -/
def reverse (str : Region UInt8) (off len : ℕ) : Exec (Region UInt8) :=
  -- the ends come closer by two in an iteration, so `len` of them are more than enough
  reverseLoop off len 0 (len - 1) str

/-- The `char` of `(x%10) + '0'`. -/
def digit (x : ℤ) : UInt8 :=
  -- the remainder of a negative number is not positive, and gives a character below '0'
  UInt8.ofInt (x.tmod 10 + 48)

/-- `while (x) { str[i++] = (x%10) + '0'; x = x/10; }`, with at most `n`
iterations left. -/
def digitsLoop (off : ℕ) : ℕ → ℤ → ℕ → Region UInt8 → Exec (ℕ × Region UInt8)
  | 0, _, i, str => .ok (i, str)
  | n + 1, x, i, str =>
    if x = 0 then .ok (i, str)
    else do
      let str ← str.write (off + i) (digit x)
      digitsLoop off n (x.tdiv 10) (i + 1) str

/-- `while (i < d) str[i++] = '0';`, with at most `n` iterations left. -/
def zerosLoop (off : ℕ) (d : ℤ) : ℕ → ℕ → Region UInt8 → Exec (ℕ × Region UInt8)
  | 0, i, str => .ok (i, str)
  | n + 1, i, str =>
    if i < d then do
      let str ← str.write (off + i) 48
      zerosLoop off d n (i + 1) str
    else .ok (i, str)

/-- `posixc_itoa`. -/
def itoa (x : ℤ) (str : Region UInt8) (off : ℕ) : Exec (ℕ × Region UInt8) := do
  -- the last digit comes first, and zero has none
  let (i, str) ← digitsLoop off x.natAbs x 0 str
  let str ← reverse str off i
  let str ← str.write (off + i) 0
  return (i, str)

/-- `posixc_itoa_padding_zeros`. -/
def itoaPaddingZeros (x : ℤ) (str : Region UInt8) (off : ℕ) (d : ℤ) :
    Exec (ℕ × Region UInt8) := do
  let (i, str) ← digitsLoop off x.natAbs x 0 str
  let (i, str) ← zerosLoop off d d.toNat i str
  let str ← reverse str off i
  let str ← str.write (off + i) 0
  return (i, str)

/-- What the conversions read of a `float` or a `double` `n`: `(int)n`, and
`(int)(fpart * pow(10, k))` for each `k`. -/
structure Decimal where
  ipart : ℤ
  fpart : ℤ → ℤ

/-- `posixc_ftoa_within_given_bytes`. -/
def ftoaWithinGivenBytes (n : Decimal) (res : Region UInt8) (afterpoint maxbytes : ℤ) :
    Exec (ℤ × Region UInt8) := do
  let (i, res) ← itoa n.ipart res 0
  -- the point and the digits after it get what the integer part leaves of `maxbytes`
  let afterpoint :=
    if toInt (i + afterpoint + 1) > maxbytes then toInt (maxbytes - i - 1) else afterpoint
  let res ←
    if afterpoint ≠ 0 then do
      let res ← res.write i 46
      let (_, res) ← itoaPaddingZeros (n.fpart afterpoint) res (i + 1) afterpoint
      pure res
    else pure res
  -- one for the point, also where none was written
  return (toInt (i + afterpoint + 1), res)

/-- `posixc_dtoa_within_given_bytes`. -/
def dtoaWithinGivenBytes (n : Decimal) (res : Region UInt8) (afterpoint maxbytes : ℤ) :
    Exec (ℤ × Region UInt8) :=
  ftoaWithinGivenBytes n res afterpoint maxbytes

end Posixc
