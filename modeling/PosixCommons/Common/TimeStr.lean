import PosixCommons.Common.CString
import PosixCommons.Framework.Decimal
import PosixCommons.Framework.Lines

/-!
# Texts of the time

`common/timestr.c`. The two patterns that the log uses are made of the same fields, all of a
fixed width but the year, which a separator follows. So the text of a time says which time it is
and where it ends (`dateTimeText_selfDelimiting`). It has at most 25 characters
(`dateTimeText_length_le`), and the limit of 80 that is passed to `strftime` is never in the way.
-/

open Framework

namespace Posixc

/-- `struct tm`, as `localtime` fills it in for a time from 1900 on. -/
structure Tm where
  sec : ℕ
  min : ℕ
  hour : ℕ
  mday : ℕ
  mon : ℕ
  year : ℕ
  -- a second may be a leap second
  sec_le : sec ≤ 60
  min_lt : min < 60
  hour_lt : hour < 24
  mday_mem : 1 ≤ mday ∧ mday ≤ 31
  mon_lt : mon < 12
  year_lt : year < 2 ^ 31
deriving DecidableEq

/-- What `strftime` writes for a conversion. -/
def conversion (timeinfo : Tm) : Char → Option (List UInt8)
  | 'd' => some (padded 2 timeinfo.mday)
  | 'm' => some (padded 2 (timeinfo.mon + 1))
  | 'Y' => some (decimal (timeinfo.year + 1900))
  | 'H' => some (padded 2 timeinfo.hour)
  | 'M' => some (padded 2 timeinfo.min)
  | 'S' => some (padded 2 timeinfo.sec)
  | _ => none

/-- The text that `strftime` makes of a pattern of these conversions. -/
def expand (timeinfo : Tm) : List Char → Option (List UInt8)
  | [] => some []
  | '%' :: c :: pattern => do
    let field ← conversion timeinfo c
    let rest ← expand timeinfo pattern
    return field ++ rest
  | c :: pattern => do
    let rest ← expand timeinfo pattern
    return UInt8.ofNat c.toNat :: rest

/-- `strftime` at a place of a buffer. A text that does not fit with its end leaves bytes that
nobody may rely on, and the length is zero. -/
def strftime (buffer : Region UInt8) (off max : ℕ) (pattern : String) (timeinfo : Tm) :
    Exec (Region UInt8 × ℕ) :=
  match expand timeinfo pattern.toList with
  | none => .error .aborted
  | some text =>
    if text.length < max then do
      let buffer ← buffer.blit off (text ++ [0])
      return (buffer, text.length)
    else
      return ({ buffer with
        cell := fun i => if off ≤ i ∧ i < off + max then none else buffer.cell i }, 0)

/-- `posixc_default_timestr`. -/
def defaultTimestr (buffer : Region UInt8) (off : ℕ) (timeinfo : Tm) :
    Exec (Region UInt8 × ℕ) := strftime buffer off 80 "%d-%m-%Y %H:%M:%S" timeinfo

/-- `posixc_timestr_logfile`. -/
def timestrLogfile (buffer : Region UInt8) (off : ℕ) (timeinfo : Tm) :
    Exec (Region UInt8 × ℕ) := strftime buffer off 80 "%d-%m-%Y_%H:%M:%S.log" timeinfo

/-! ### The texts -/

/-- The date, a character and the time. -/
def dateTimeText (sep : UInt8) (tm : Tm) : List UInt8 :=
  padded 2 tm.mday ++ 45 :: padded 2 (tm.mon + 1) ++ 45 :: decimal (tm.year + 1900) ++
    sep :: padded 2 tm.hour ++ 58 :: padded 2 tm.min ++ 58 :: padded 2 tm.sec

/-- What `posixc_default_timestr` writes. -/
def timeText (tm : Tm) : List UInt8 := dateTimeText 32 tm

/-- What `posixc_timestr_logfile` writes. -/
def logfileText (tm : Tm) : List UInt8 := dateTimeText 95 tm ++ [46, 108, 111, 103]

section Texts

variable {tm tm' : Tm} {sep : UInt8} {us vs : List UInt8}

theorem padded_append_inj {d n m : ℕ} (hn : n < 10 ^ d) (hm : m < 10 ^ d)
    (h : padded d n ++ us = padded d m ++ vs) : n = m ∧ us = vs := by
  obtain ⟨hpad, hrest⟩ :=
    List.append_inj h ((padded_length_of_lt hn).trans (padded_length_of_lt hm).symm)
  have hvalue := congrArg decimalValue hpad
  rw [decimalValue_padded, decimalValue_padded] at hvalue
  exact ⟨hvalue, hrest⟩

theorem decimal_injective : Function.Injective decimal :=
  Function.LeftInverse.injective decimalValue_decimal

theorem decimal_cons_inj {n m : ℕ} (hsep : ¬ IsDigit sep)
    (h : decimal n ++ sep :: us = decimal m ++ sep :: vs) : n = m ∧ us = vs := by
  have hdigits : ∀ n, sep ∉ decimal n := fun n hmem => hsep (isDigit_of_mem_decimal hmem)
  exact SelfDelimiting.of_sep decimal_injective hdigits n m us vs (by simpa using h)

/-- **The text of a time** says which time it is, and where it ends. -/
theorem dateTimeText_selfDelimiting (hsep : ¬ IsDigit sep) :
    SelfDelimiting (dateTimeText sep) := by
  intro a b us vs h
  have htwo : ∀ {n : ℕ}, n ≤ 60 → n < 10 ^ 2 := fun hn => by omega
  simp only [dateTimeText, List.append_assoc, List.cons_append] at h
  -- field after field, each with the character that follows it
  obtain ⟨hday, h⟩ := padded_append_inj (htwo (a.mday_mem.2.trans (by decide)))
    (htwo (b.mday_mem.2.trans (by decide))) h
  obtain ⟨hmon, h⟩ := padded_append_inj (htwo (a.mon_lt.trans (by decide)))
    (htwo (b.mon_lt.trans (by decide))) (List.cons.inj h).2
  obtain ⟨hyear, h⟩ := decimal_cons_inj hsep (List.cons.inj h).2
  obtain ⟨hhour, h⟩ := padded_append_inj (htwo (a.hour_lt.le.trans (by decide)))
    (htwo (b.hour_lt.le.trans (by decide))) h
  obtain ⟨hmin, h⟩ := padded_append_inj (htwo a.min_lt.le) (htwo b.min_lt.le) (List.cons.inj h).2
  obtain ⟨hsec, h⟩ := padded_append_inj (htwo a.sec_le) (htwo b.sec_le) (List.cons.inj h).2
  refine ⟨?_, h⟩
  cases a
  cases b
  simp only [Tm.mk.injEq]
  exact ⟨hsec, hmin, hhour, hday, Nat.succ.inj hmon, Nat.add_right_cancel hyear⟩

/-- A byte of the text that is not a digit is one of three. -/
theorem isDigit_of_mem_dateTimeText {c : UInt8} (h : c ∈ dateTimeText sep tm) :
    IsDigit c ∨ c = 45 ∨ c = 58 ∨ c = sep := by
  simp only [dateTimeText, List.mem_append, List.mem_cons] at h
  have hpad : ∀ {n}, c ∈ padded 2 n → IsDigit c := isDigit_of_mem_padded
  have hdec : ∀ {n}, c ∈ decimal n → IsDigit c := isDigit_of_mem_decimal
  grind

theorem dateTimeText_length_le : (dateTimeText sep tm).length ≤ 25 := by
  have hyear : (decimal (tm.year + 1900)).length ≤ 10 :=
    decimal_length_le_iff.mpr (by have := tm.year_lt; omega)
  have htwo : ∀ {n : ℕ}, n ≤ 60 → (padded 2 n).length = 2 := fun hn =>
    padded_length_of_lt (by omega)
  have hday := tm.mday_mem.2
  have hmon := tm.mon_lt
  have hhour := tm.hour_lt
  have hmin := tm.min_lt
  have hsec := tm.sec_le
  simp only [dateTimeText, List.length_append, List.length_cons]
  rw [htwo (n := tm.mday) (by omega), htwo (n := tm.mon + 1) (by omega),
    htwo (n := tm.hour) (by omega), htwo (n := tm.min) (by omega), htwo (n := tm.sec) (by omega)]
  omega

theorem timeText_length_lt : (timeText tm).length < 80 :=
  dateTimeText_length_le.trans_lt (by decide)

theorem logfileText_length_le : (logfileText tm).length ≤ 29 := by
  rw [logfileText, List.length_append]
  exact Nat.add_le_add_right dateTimeText_length_le 4

theorem newline_not_mem_timeText : 10 ∉ timeText tm := fun h =>
  absurd (isDigit_of_mem_dateTimeText h) (by decide)

/-- The name of a log file is a name in one directory. -/
theorem logfileText_plain : 0 ∉ logfileText tm ∧ 47 ∉ logfileText tm := by
  constructor
  all_goals
    intro h
    rcases List.mem_append.mp h with h | h
    · exact absurd (isDigit_of_mem_dateTimeText h) (by decide)
    · exact absurd h (by decide)

end Texts

/-! ### What is written -/

theorem defaultTimestr_eq (buffer : Region UInt8) (off : ℕ) (tm : Tm) :
    defaultTimestr buffer off tm = do
      let buffer ← buffer.blit off (timeText tm ++ [0])
      return (buffer, (timeText tm).length) := by
  have hexpand : expand tm "%d-%m-%Y %H:%M:%S".toList = some (timeText tm) := by
    simp [expand, conversion, timeText, dateTimeText]
  rw [defaultTimestr, strftime, hexpand]
  exact if_pos timeText_length_lt

theorem timestrLogfile_eq (buffer : Region UInt8) (off : ℕ) (tm : Tm) :
    timestrLogfile buffer off tm = do
      let buffer ← buffer.blit off (logfileText tm ++ [0])
      return (buffer, (logfileText tm).length) := by
  have hexpand : expand tm "%d-%m-%Y_%H:%M:%S.log".toList = some (logfileText tm) := by
    simp [expand, conversion, logfileText, dateTimeText]
  rw [timestrLogfile, strftime, hexpand]
  exact if_pos (logfileText_length_le.trans_lt (by decide))

end Posixc
