import PosixCommons.AsyncLogCli
import PosixCommons.Common.BinarySearch

/-!
# Messages of any length

`posixc_asynclogcli_log` cuts a message that does not fit in the page, and finds out by
adding its length to the position after the tag, in an `int`. `asynclogcliLogChecked` is
the same function with every result of the arithmetic and every conversion looked at: one
that is out of the range of its type is a fault. A length that leaves the sum in the range
has no such fault and is handled as it was meant to be. Another makes the sum negative, so
that the message is not cut and the copy runs over the buffer (`asynclogcliLog_overruns`).
`posixc_asynclogcli_logstr` has the same limit, and loses the length of a longer string
when it becomes an `int`.
-/

open Framework

namespace Posixc

/-- The conversion of an `int` to a `size_t`. -/
def sizeResult (n : ℤ) : Exec ℕ := if 0 ≤ n then .ok n.toNat else .error .aborted

/-- The test for a message that is too long, and the length of what is copied of it. -/
def discardOverflowing (pos len : ℤ) : Exec ℤ := do
  let stop ← intResult (pos + len)
  if (onePage : ℤ) - 1 < stop then intResult ((onePage : ℤ) - 1 - pos) else return len

/-- `posixc_asynclogcli_log`, its arithmetic checked. -/
def asynclogcliLogChecked (cli : AsyncLogCli) (timestr : List UInt8) (what : Region UInt8)
    (len level : ℤ) : Exec (Option (List UInt8)) :=
  if level < cli.lowestLogLevel then .ok none
  else match levelTag level with
  | none => .ok none
  | some tmp => do
    let buf := Region.alloc onePage
    let buf ← buf.blit 0 (timestr ++ [0])
    let pos ← intResult timestr.length
    let buf ← buf.blit pos.toNat (tmp ++ [0])
    let pos ← intResult (pos + tmp.length)
    let len ← discardOverflowing pos len
    let size ← sizeResult len
    let bytes ← what.readMany 0 size
    let buf ← buf.blit pos.toNat bytes
    let pos ← intResult (pos + len)
    let buf ← buf.write pos.toNat 10
    let sent ← intResult (pos + 1)
    let size ← sizeResult sent
    let dgram ← buf.readMany 0 size
    return some dgram

/-- `posixc_asynclogcli_logstr`, its arithmetic checked. -/
def asynclogcliLogstrChecked (cli : AsyncLogCli) (timestr : List UInt8) (what : Region UInt8)
    (level : ℤ) : Exec (Option (List UInt8)) := do
  let n ← strlen what
  let len ← intResult n
  asynclogcliLogChecked cli timestr what len level

/-- No result of a call is out of range, and it sends one datagram of at most a page that
ends in a newline. -/
def SendsLine (run checked : Exec (Option (List UInt8))) : Prop :=
  ∃ dgram, run = .ok (some dgram) ∧ checked = .ok (some dgram) ∧ dgram.length ≤ onePage ∧
    dgram.getLast? = some 10

theorem intResult_natCast {n : ℕ} (h : n < 2 ^ 31) : intResult n = .ok (n : ℤ) :=
  if_pos (by omega)

theorem intResult_of_ge {n : ℤ} (h : 2 ^ 31 ≤ n) : intResult n = .error .aborted :=
  if_neg (by omega)

theorem sizeResult_natCast (n : ℕ) : sizeResult n = .ok n := if_pos (Int.natCast_nonneg n)

section Level

variable {cli : AsyncLogCli} {timestr tag bytes : List UInt8} {what : Region UInt8}
  {len level : ℤ}

/-- When the sum is an `int`, so is every other result. -/
theorem asynclogcliLogChecked_eq (cli : AsyncLogCli) (what : Region UInt8)
    (htag : levelTag level = some tag) (htime : timestr.length < 80) (hnonneg : 0 ≤ len)
    (hsum : timestr.length + tag.length + len < 2 ^ 31) :
    asynclogcliLogChecked cli timestr what len level =
      asynclogcliLog cli timestr what len level := by
  have hshort := levelTag_length_le htag
  have hpage : onePage = 4096 := rfl
  obtain ⟨n, rfl⟩ := Int.eq_ofNat_of_zero_le hnonneg
  obtain ⟨pos, hpos⟩ : ∃ pos, pos = timestr.length + tag.length := ⟨_, rfl⟩
  have hstop : pos + n < 2 ^ 31 := by omega
  -- the length that is copied
  obtain ⟨cut, hchecked, hcut, hend⟩ : ∃ cut : ℕ,
      discardOverflowing pos n = .ok (cut : ℤ) ∧
      (if (onePage : ℤ) - 1 < ↑(pos + n) then (onePage : ℤ) - 1 - pos else (n : ℤ)) = cut ∧
      pos + cut + 1 < 2 ^ 31 := by
    rw [discardOverflowing, ← Nat.cast_add, intResult_natCast hstop, Exec.ok_bind]
    by_cases hlong : (onePage : ℤ) - 1 < ↑(pos + n)
    · have hroom : (onePage : ℤ) - 1 - pos = (onePage - 1 - pos : ℕ) := by omega
      refine ⟨onePage - 1 - pos, ?_, ?_, by omega⟩
      · rw [if_pos hlong, hroom, intResult_natCast (by omega)]
      · rw [if_pos hlong, hroom]
    · exact ⟨n, if_neg hlong, if_neg hlong, by omega⟩
  rw [asynclogcliLogChecked, asynclogcliLog]
  split_ifs
  · rfl
  rw [htag]
  dsimp only
  refine bind_congr fun buf => ?_
  rw [intResult_natCast (by omega), Exec.ok_bind, Int.toNat_natCast]
  refine bind_congr fun buf => ?_
  rw [← Nat.cast_add, ← hpos, intResult_natCast (by omega), Exec.ok_bind, hchecked, Exec.ok_bind,
    sizeResult_natCast, Exec.ok_bind, ← Nat.cast_add pos n, toInt_natCast hstop, hcut,
    sizeOfInt_natCast (by omega), Int.toNat_natCast]
  refine bind_congr fun data => bind_congr fun buf => ?_
  rw [← Nat.cast_add, intResult_natCast (by omega), Exec.ok_bind, toInt_natCast (by omega),
    Int.toNat_natCast]
  refine bind_congr fun buf => ?_
  rw [← Nat.cast_succ, intResult_natCast hend, Exec.ok_bind, sizeResult_natCast, Exec.ok_bind,
    sizeOfInt_toInt hend]

/-- The time and the tag are in the buffer before the sum is computed. -/
theorem asynclogcli_prefix (htag : levelTag level = some tag) (htime : timestr.length < 80) :
    ∃ buf buf', (Region.alloc onePage).blit 0 (timestr ++ [0]) = .ok buf ∧
      buf.blit timestr.length (tag ++ [0]) = .ok buf' ∧ buf'.len = onePage := by
  have hshort := levelTag_length_le htag
  have hpage : onePage = 4096 := rfl
  have hfits : 0 + (timestr ++ [0]).length ≤ (Region.alloc onePage : Region UInt8).len := by
    rw [Region.alloc_len, List.length_append, List.length_singleton]
    omega
  obtain ⟨buf, hblit, hlen, -⟩ := Region.blit_spec hfits
  rw [Region.alloc_len] at hlen
  have hfits' : timestr.length + (tag ++ [0]).length ≤ buf.len := by
    rw [hlen, List.length_append, List.length_singleton]
    omega
  obtain ⟨buf', hblit', hlen', -⟩ := Region.blit_spec hfits'
  exact ⟨buf, buf', hblit, hblit', hlen'.trans hlen⟩

/-- When the sum is no `int`, the call computes it all the same. -/
theorem asynclogcliLogChecked_aborts (hlevel : cli.lowestLogLevel ≤ level)
    (htag : levelTag level = some tag) (htime : timestr.length < 80)
    (hsum : 2 ^ 31 ≤ timestr.length + tag.length + len) :
    asynclogcliLogChecked cli timestr what len level = .error .aborted := by
  have hshort := levelTag_length_le htag
  obtain ⟨buf, buf', hblit, hblit', -⟩ := asynclogcli_prefix htag htime
  rw [asynclogcliLogChecked, if_neg hlevel.not_gt, htag]
  dsimp only
  rw [hblit, Exec.ok_bind, intResult_natCast (by omega), Exec.ok_bind, Int.toNat_natCast, hblit',
    Exec.ok_bind, ← Nat.cast_add, intResult_natCast (by omega), Exec.ok_bind, discardOverflowing,
    intResult_of_ge (by rw [Nat.cast_add]; exact hsum)]
  rfl

/-- The sum wraps to a negative one. The message is not cut, and the copy runs over the
buffer. -/
theorem asynclogcliLog_overruns (hlevel : cli.lowestLogLevel ≤ level)
    (htag : levelTag level = some tag) (htime : timestr.length < 80) (hwhat : what.Holds bytes)
    (hlen : len ≤ bytes.length) (hint : len < 2 ^ 31)
    (hsum : 2 ^ 31 ≤ timestr.length + tag.length + len) :
    asynclogcliLog cli timestr what len level = .error .outOfBounds := by
  have hshort := levelTag_length_le htag
  have hpage : onePage = 4096 := rfl
  obtain ⟨buf, buf', hblit, hblit', hroom⟩ := asynclogcli_prefix htag htime
  obtain ⟨n, rfl⟩ := Int.eq_ofNat_of_zero_le (show 0 ≤ len by omega)
  have hwrapped : toInt (↑(timestr.length + tag.length) + ↑n) < 0 := by
    rw [toInt, Int.bmod_def]
    split_ifs
    · omega
    · omega
  have hbytes : what.readMany 0 n = .ok (bytes.take n) := by
    rw [Region.readMany_of_holds hwhat 0 n (by omega), List.drop_zero]
  have hover : buf'.blit (timestr.length + tag.length) (bytes.take n) = .error .outOfBounds :=
    if_neg (by rw [hroom, List.length_take]; omega)
  rw [asynclogcliLog, if_neg hlevel.not_gt, htag]
  dsimp only
  rw [hblit, Exec.ok_bind, hblit', Exec.ok_bind, if_neg (by omega), sizeOfInt_natCast (by omega),
    hbytes, Exec.ok_bind, hover]
  rfl

/-- What the two entry points do when the sum is an `int`. -/
theorem asynclogcliLog_sendsLine (hlevel : cli.lowestLogLevel ≤ level)
    (htag : levelTag level = some tag) (htime : timestr.length < 80) (hwhat : what.Holds bytes)
    (hnonneg : 0 ≤ len) (hlen : len ≤ bytes.length)
    (hsum : timestr.length + tag.length + len < 2 ^ 31) :
    SendsLine (asynclogcliLog cli timestr what len level)
      (asynclogcliLogChecked cli timestr what len level) := by
  have hshort := levelTag_length_le htag
  have hpage : onePage = 4096 := rfl
  have hrun := asynclogcliLog_enabled cli hlevel htag htime hwhat hnonneg hlen hsum
  refine ⟨_, hrun, ?_, ?_, List.getLast?_concat⟩
  · rw [asynclogcliLogChecked_eq cli what htag htime hnonneg hsum, hrun]
  · simp only [List.length_append, List.length_singleton, List.length_take]
    omega

/-- A call whose arithmetic leaves its types is none of those. -/
theorem not_sendsLine {run : Exec (Option (List UInt8))} (fault : Fault) :
    ¬ SendsLine run (.error fault) := by
  rintro ⟨dgram, -, hchecked, -⟩
  cases hchecked

end Level

/-- **How long a message may be.** At a level that is enabled, with a time of less than 80
bytes, a message of any `int` of bytes and a string of any length are sent as one line of
at most a page, by arithmetic that stays in its types, exactly when the length and the
position after the tag have a sum that is an `int`. -/
theorem asynclogcli_sendsLine_iff (cli : AsyncLogCli) (timestr tag : List UInt8) (level : ℤ)
    (hlevel : cli.lowestLogLevel ≤ level) (htag : levelTag level = some tag)
    (htime : timestr.length < 80) :
    (∀ (what : Region UInt8) (bytes : List UInt8) (len : ℤ), what.Holds bytes → 0 ≤ len →
      len < 2 ^ 31 → len ≤ bytes.length →
      (SendsLine (asynclogcliLog cli timestr what len level)
          (asynclogcliLogChecked cli timestr what len level) ↔
        timestr.length + tag.length + len < 2 ^ 31)) ∧
    ∀ (what : Region UInt8) (str : List UInt8), what.Holds (str ++ [0]) → 0 ∉ str →
      (SendsLine (asynclogcliLogstr cli timestr what level)
          (asynclogcliLogstrChecked cli timestr what level) ↔
        timestr.length + tag.length + str.length < 2 ^ 31) := by
  refine ⟨fun what bytes len hwhat hnonneg hint hlen => ⟨fun hsends => ?_, fun hsum => ?_⟩,
    fun what str hwhat hnul => ⟨fun hsends => ?_, fun hsum => ?_⟩⟩
  · by_contra hsum
    rw [asynclogcliLogChecked_aborts hlevel htag htime (by omega)] at hsends
    exact not_sendsLine _ hsends
  · exact asynclogcliLog_sendsLine hlevel htag htime hwhat hnonneg hlen hsum
  · by_contra hsum
    rw [asynclogcliLogstrChecked, strlen_spec hwhat hnul, Exec.ok_bind] at hsends
    by_cases hint : str.length < 2 ^ 31
    · rw [intResult_natCast hint, Exec.ok_bind,
        asynclogcliLogChecked_aborts hlevel htag htime (by omega)] at hsends
      exact not_sendsLine _ hsends
    · -- the length itself is lost
      rw [intResult_of_ge (by omega)] at hsends
      exact not_sendsLine _ hsends
  · have hint : str.length < 2 ^ 31 := by omega
    rw [asynclogcliLogstr, asynclogcliLogstrChecked, strlen_spec hwhat hnul, Exec.ok_bind,
      Exec.ok_bind, intResult_natCast hint, Exec.ok_bind, toInt_natCast hint]
    refine asynclogcliLog_sendsLine hlevel htag htime hwhat (Int.natCast_nonneg _) ?_ (by omega)
    rw [List.length_append, List.length_singleton]
    omega

/-- The text of a time. -/
def someTimestr : List UInt8 := ascii "31-12-2024 23:59:59"

theorem someTimestr_length : someTimestr.length = 19 := by decide

/-- The two bytes `hi` and the string of them. -/
theorem asynclogcli_sendsLine_iff_hi :
    SendsLine (asynclogcliLog ⟨logLevelDebug⟩ someTimestr (Region.ofList [104, 105]) 2
          logLevelInfo)
        (asynclogcliLogChecked ⟨logLevelDebug⟩ someTimestr (Region.ofList [104, 105]) 2
          logLevelInfo) ∧
      SendsLine (asynclogcliLogstr ⟨logLevelDebug⟩ someTimestr (Region.ofList [104, 105, 0])
          logLevelInfo)
        (asynclogcliLogstrChecked ⟨logLevelDebug⟩ someTimestr (Region.ofList [104, 105, 0])
          logLevelInfo) := by
  obtain ⟨hlog, hlogstr⟩ := asynclogcli_sendsLine_iff ⟨logLevelDebug⟩ someTimestr
    (ascii " Info: ") logLevelInfo (by decide) rfl (by decide)
  exact ⟨(hlog _ _ 2 (Region.holds_ofList [104, 105]) (by decide) (by decide) (by decide)).mpr
      (by decide),
    (hlogstr _ [104, 105] (Region.holds_ofList _) (by decide)).mpr (by decide)⟩

/-- A message of as many bytes as an `int` can say runs over the buffer. -/
theorem asynclogcli_overruns_max :
    ∃ what : Region UInt8, what.Holds (List.replicate (2 ^ 31 - 1) 97) ∧
      asynclogcliLog ⟨logLevelDebug⟩ someTimestr what (2 ^ 31 - 1) logLevelInfo =
        .error .outOfBounds ∧
      ¬ SendsLine (asynclogcliLog ⟨logLevelDebug⟩ someTimestr what (2 ^ 31 - 1) logLevelInfo)
        (asynclogcliLogChecked ⟨logLevelDebug⟩ someTimestr what (2 ^ 31 - 1) logLevelInfo) := by
  have hlevel : (⟨logLevelDebug⟩ : AsyncLogCli).lowestLogLevel ≤ logLevelInfo := by decide
  have htag : levelTag logLevelInfo = some (ascii " Info: ") := rfl
  have hlen : ((2 : ℤ) ^ 31 - 1) ≤ (List.replicate (2 ^ 31 - 1) (97 : UInt8)).length := by
    rw [List.length_replicate]
    decide
  have htime : someTimestr.length < 80 := by rw [someTimestr_length]; decide
  have hsum : (2 : ℤ) ^ 31 ≤
      someTimestr.length + (ascii " Info: ").length + ((2 : ℤ) ^ 31 - 1) := by
    rw [someTimestr_length]
    decide
  have hover := asynclogcliLog_overruns hlevel htag htime
    (Region.holds_ofList (List.replicate (2 ^ 31 - 1) 97)) hlen (by decide) hsum
  refine ⟨Region.ofList (List.replicate (2 ^ 31 - 1) 97), Region.holds_ofList _, hover, ?_⟩
  rintro ⟨dgram, hrun, -⟩
  rw [hover] at hrun
  cases hrun

end Posixc
