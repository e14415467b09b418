import PosixCommons.AsyncLogRoll
import PosixCommons.Common.Slice

/-!
# End to end logging

`asynclogcli.c`: a record is composed in a buffer of one page and sent as one
datagram, so it ends with a newline and is never longer than what the server reads at
once. `logging` is a client and the server together. What the client sends is in the
server's socket at once; when the server reads it, flushes or rolls is any sequence of
steps.

Three lengths have to agree. The time and the tag are short, so a message has room
after them (`levelTag_length_le`). The message is cut so that the newline is the last
byte of the page at the latest (`asynclogcliLog_spec`). The server takes a page of a
datagram, which is all of it (`InFlight`). Then the records are in the file, the buffer
and the socket, in their order.
-/

open Framework

namespace Posixc

/-- `LOG_LEVEL_DEBUG`. -/
def logLevelDebug : ℤ := 0
/-- `LOG_LEVEL_INFO`. -/
def logLevelInfo : ℤ := 1
/-- `LOG_LEVEL_WARN`. -/
def logLevelWarn : ℤ := 2
/-- `LOG_LEVEL_ERR`. -/
def logLevelErr : ℤ := 3
/-- `LOG_LEVEL_FATAL`. -/
def logLevelFatal : ℤ := 4

/-- The bytes of a string literal. -/
def ascii (s : String) : List UInt8 := s.toList.map fun c => UInt8.ofNat c.toNat

/-- The `switch` of `posixc_asynclogcli_log`. -/
def levelTag (level : ℤ) : Option (List UInt8) :=
  if level = logLevelDebug then some (ascii " Debug: ")
  else if level = logLevelInfo then some (ascii " Info: ")
  else if level = logLevelWarn then some (ascii " Warn: ")
  else if level = logLevelErr then some (ascii " Err: ")
  else if level = logLevelFatal then some (ascii " Fatal: ")
  else none

/-- `posixc_asynclogcli`, without its socket. -/
structure AsyncLogCli where
  lowestLogLevel : ℤ

/-- `posixc_asynclogcli_log`. `timestr` is the text that `strftime` makes of the time,
and the outcome is the datagram, if one is sent. -/
def asynclogcliLog (cli : AsyncLogCli) (timestr : List UInt8) (what : Region UInt8)
    (len level : ℤ) : Exec (Option (List UInt8)) :=
  if level < cli.lowestLogLevel then .ok none
  else match levelTag level with
  | none => .ok none
  | some tmp => do
    let buf := Region.alloc onePage
    let buf ← buf.blit 0 (timestr ++ [0])
    let pos := timestr.length
    -- `strcpy` puts the tag over the NUL of the time
    let buf ← buf.blit pos (tmp ++ [0])
    let pos := pos + tmp.length
    -- the sum wraps as an `int`, and then a message that is too long passes the test
    let len := if (onePage : ℤ) - 1 < toInt (pos + len) then (onePage : ℤ) - 1 - pos else len
    let bytes ← what.readMany 0 (sizeOfInt len)
    let buf ← buf.blit pos bytes
    let pos := toInt (pos + len)
    let buf ← buf.write pos.toNat 10
    let dgram ← buf.readMany 0 (sizeOfInt (toInt (pos + 1)))
    return some dgram

/-- `posixc_asynclogcli_logstr`. -/
def asynclogcliLogstr (cli : AsyncLogCli) (timestr : List UInt8) (what : Region UInt8)
    (level : ℤ) : Exec (Option (List UInt8)) := do
  let n ← strlen what
  asynclogcliLog cli timestr what (toInt n) level

/-- A call of `posixc_asynclogcli_log`, with the time that it finds and the bytes that
its message points to. -/
structure LogCall where
  timestr : List UInt8
  what : List UInt8
  len : ℤ
  level : ℤ

namespace LogCall

/-- The text of the time is shorter than the 80 bytes that `strftime` may write, and
the message has the bytes that the caller says. -/
structure Legal (c : LogCall) : Prop where
  timestr_lt : c.timestr.length < 80
  len_nonneg : 0 ≤ c.len
  len_le : c.len ≤ 2 ^ 31 - 1 - onePage
  what_ge : c.len ≤ c.what.length

/-- The datagram that a call is to send: none below the lowest level of the client or
for a level that is not known, and otherwise the time, the tag, as much of the message
as leaves the page room for a newline, and a newline. -/
def dgram? (cli : AsyncLogCli) (c : LogCall) : Option (List UInt8) :=
  if c.level < cli.lowestLogLevel then none
  else (levelTag c.level).map fun tag => c.timestr ++ tag ++
    c.what.take (min c.len.toNat (onePage - 1 - c.timestr.length - tag.length)) ++ [10]

/-- The record of the call. -/
def record (cli : AsyncLogCli) (c : LogCall) : List UInt8 := (c.dgram? cli).getD []

end LogCall

/-! ### The client -/

section Client

variable {cli : AsyncLogCli} {c : LogCall} {dgram : List UInt8}

theorem levelTag_length_le {level : ℤ} {tag : List UInt8} (h : levelTag level = some tag) :
    tag.length ≤ 8 := by
  unfold levelTag at h
  split_ifs at h <;> obtain rfl := Option.some.inj h <;> decide

/-- A record fits in a page. -/
theorem LogCall.Legal.dgram_length_le (h : c.Legal) (hdgram : c.dgram? cli = some dgram) :
    dgram.length ≤ onePage := by
  unfold LogCall.dgram? at hdgram
  split_ifs at hdgram
  obtain ⟨tag, htag, rfl⟩ := Option.map_eq_some_iff.mp hdgram
  have htime := h.timestr_lt
  have hshort := levelTag_length_le htag
  simp only [List.length_append, List.length_singleton, List.length_take, onePage]
  omega

/-- **What is composed at a level that is enabled**, when the position after the message
is an `int`. -/
theorem asynclogcliLog_enabled (cli : AsyncLogCli) {timestr tag bytes : List UInt8}
    {what : Region UInt8} {len level : ℤ} (hlevel : cli.lowestLogLevel ≤ level)
    (htag : levelTag level = some tag) (htime : timestr.length < 80) (hwhat : what.Holds bytes)
    (hnonneg : 0 ≤ len) (hlen : len ≤ bytes.length)
    (hsum : timestr.length + tag.length + len < 2 ^ 31) :
    asynclogcliLog cli timestr what len level = .ok (some (timestr ++ tag ++
      bytes.take (min len.toNat (onePage - 1 - timestr.length - tag.length)) ++ [10])) := by
  have hshort := levelTag_length_le htag
  have hpage : onePage = 4096 := rfl
  -- how much of the message is copied
  obtain ⟨n, hn⟩ : ∃ n, n = min len.toNat (onePage - 1 - timestr.length - tag.length) := ⟨_, rfl⟩
  have hcut : (if (onePage : ℤ) - 1 < toInt (↑(timestr.length + tag.length) + len) then
      (onePage : ℤ) - 1 - ↑(timestr.length + tag.length) else len) = (n : ℤ) := by
    rw [toInt_of_lt (by omega) (by omega)]
    split_ifs <;> omega
  have hbytes : what.readMany 0 n = .ok (bytes.take n) := by
    rw [Region.readMany_of_holds hwhat 0 n (by omega), List.drop_zero]
  have htake : (bytes.take n).length = n := by
    rw [List.length_take]
    omega
  -- the time, the tag over its end, the message over that, and the newline
  obtain ⟨buf₁, hblit₁, hlen₁, hholds₁⟩ := Region.blit_holds
    (Region.holds_nil (Region.alloc onePage)) (timestr ++ [0])
    (show 0 + (timestr ++ [0]).length ≤ onePage by simp; omega)
  rw [List.length_nil] at hblit₁
  rw [Region.alloc_len] at hlen₁
  rw [List.nil_append] at hholds₁
  obtain ⟨buf₂, hblit₂, hlen₂, hholds₂⟩ := Region.blit_holds hholds₁.of_append (tag ++ [0])
    (by simp [hlen₁]; omega)
  rw [← List.append_assoc] at hholds₂
  obtain ⟨buf₃, hblit₃, hlen₃, hholds₃⟩ := Region.blit_holds hholds₂.of_append (bytes.take n)
    (by rw [List.length_append, htake, hlen₂, hlen₁]; omega)
  rw [List.length_append] at hblit₃
  have hpos : (timestr ++ tag ++ bytes.take n).length = timestr.length + tag.length + n := by
    rw [List.length_append, List.length_append, htake]
  obtain ⟨buf₄, hwrite, -, hholds₄⟩ := hholds₃.write 10 (by rw [hpos, hlen₃, hlen₂, hlen₁]; omega)
  rw [hpos] at hwrite
  -- all of it is sent
  have hsent : buf₄.readMany 0 (timestr.length + tag.length + n + 1) =
      .ok (timestr ++ tag ++ bytes.take n ++ [10]) := by
    rw [Region.readMany_of_holds hholds₄ 0 _ (by rw [List.length_append, hpos]; simp),
      List.drop_zero, List.take_of_length_le (by rw [List.length_append, hpos]; simp)]
  have hend : timestr.length + tag.length + n + 1 < 2 ^ 31 := by omega
  rw [asynclogcliLog, if_neg hlevel.not_gt, htag]
  dsimp only
  rw [hblit₁, Exec.ok_bind, hblit₂, Exec.ok_bind, hcut,
    sizeOfInt_natCast (by omega), hbytes, Exec.ok_bind, hblit₃, Exec.ok_bind, ← Nat.cast_add,
    toInt_natCast (Nat.lt_of_succ_lt hend), Int.toNat_natCast, hwrite, Exec.ok_bind,
    ← Nat.cast_succ, sizeOfInt_toInt hend, hsent, hn]
  rfl

/-- **What the client sends.** It stays inside its buffer and the message. -/
theorem asynclogcliLog_spec (cli : AsyncLogCli) (h : c.Legal) :
    asynclogcliLog cli c.timestr (Region.ofList c.what) c.len c.level = .ok (c.dgram? cli) := by
  unfold LogCall.dgram?
  by_cases hlow : c.level < cli.lowestLogLevel
  · rw [asynclogcliLog, if_pos hlow, if_pos hlow]
  · rw [if_neg hlow]
    cases htag : levelTag c.level with
    | none =>
      rw [asynclogcliLog, if_neg hlow, htag]
      rfl
    | some tag =>
      have hpage : onePage = 4096 := rfl
      have htime := h.timestr_lt
      have hshort := levelTag_length_le htag
      have hlen := h.len_le
      rw [asynclogcliLog_enabled cli (Int.not_lt.mp hlow) htag htime (Region.holds_ofList c.what)
        h.len_nonneg h.what_ge (by omega)]
      rfl

/-- A string is logged with its length. -/
theorem asynclogcliLogstr_spec (cli : AsyncLogCli) {timestr str : List UInt8} (level : ℤ)
    (htime : timestr.length < 80) (hnul : 0 ∉ str) (hlen : str.length ≤ 2 ^ 31 - 1 - onePage) :
    asynclogcliLogstr cli timestr (Region.ofList (str ++ [0])) level =
      .ok (LogCall.dgram? cli ⟨timestr, str ++ [0], str.length, level⟩) := by
  have hshort : str.length < 2 ^ 31 := hlen.trans_lt (by decide)
  have hlegal : LogCall.Legal ⟨timestr, str ++ [0], str.length, level⟩ := by
    refine ⟨htime, Int.natCast_nonneg _, ?_, ?_⟩
    · have hpage : onePage = 4096 := rfl
      dsimp only
      omega
    · dsimp only
      rw [List.length_append]
      omega
  rw [asynclogcliLogstr, strlen_spec (Region.holds_ofList _) hnul, Exec.ok_bind,
    toInt_natCast hshort]
  exact asynclogcliLog_spec cli hlegal

end Client

/-! ### The client and the server -/

/-- A step of the client and the server. -/
inductive LoggingStep where
  /-- The client calls `posixc_asynclogcli_log`. -/
  | log (call : LogCall)
  /-- The server runs a callback. -/
  | server (step : LogStep)

namespace LoggingStep

/-- A legal call, or a callback whose writes do not fail. -/
def Legal : LoggingStep → Prop
  | .log call => call.Legal
  | .server step => step.Succeeds

/-- Enough outcomes for the writes of the step. Datagrams come from the client. -/
def Served : LoggingStep → Prop
  | .log _ => True
  | .server (.arrive _) => False
  | .server step => step.Served

/-- The record of the step, if it is a call that sends one. -/
def record (cli : AsyncLogCli) : LoggingStep → List UInt8
  | .log call => call.record cli
  | .server _ => []

end LoggingStep

/-- The client `cli` and the server. A datagram that is sent is in the server's socket
at once, behind those that wait there. -/
def logging (cli : AsyncLogCli) : System LogWorld LoggingStep where
  init := logSystem.init
  next w
    | .log call =>
      if w.fault.isSome then none
      else match asynclogcliLog cli call.timestr (Region.ofList call.what) call.len call.level with
      -- below the lowest level, or at one that the `switch` does not have
      | .ok none => some w
      | .ok (some dgram) => w.next (.arrive dgram)
      | .error fault => some { w with fault := some fault }
    -- nobody else writes to the server's socket
    | .server (.arrive _) => none
    | .server step => w.next step

/-- The records of `steps` are in the file, the server's buffer and its socket, and each
datagram that waits is one that the server reads whole. -/
structure InFlight (cli : AsyncLogCli) (steps : List LoggingStep) (w : LogWorld) : Prop where
  records : ∃ got, w.Keeps got ∧
    got ++ w.surroundings.queue.flatten = steps.flatMap (LoggingStep.record cli)
  fits : ∀ dgram ∈ w.surroundings.queue, dgram.length ≤ onePage

section InFlight

variable {cli : AsyncLogCli} {steps : List LoggingStep} {w w' : LogWorld}

/-- What the server reads is all of the next datagram. -/
theorem InFlight.read_append (h : InFlight cli steps w) :
    w.read ++ w.surroundings.queue.tail.flatten = w.surroundings.queue.flatten := by
  have hfits := h.fits
  unfold LogWorld.read
  cases hqueue : w.surroundings.queue with
  | nil => rfl
  | cons dgram queue =>
    have hlen : dgram.length ≤ onePage := hfits dgram (hqueue ▸ List.mem_cons_self)
    rw [List.headD_cons, List.take_of_length_le hlen]
    rfl

/-- The server's steps neither lose nor cut a record. -/
theorem InFlight.server (h : InFlight cli steps w) (step : LogStep) (hs : step.Succeeds)
    (hown : ∀ dgram, step ≠ .arrive dgram) :
    w.next step = none ∧ ¬ step.Served ∨
      ∃ w', w.next step = some w' ∧ InFlight cli (steps ++ [.server step]) w' := by
  obtain ⟨got, hkeeps, hgot⟩ := h.records
  rcases hkeeps.next_spec hs with hwait | ⟨w', hnext, hkeeps', hbecomes⟩
  · exact .inl hwait
  refine .inr ⟨w', hnext, ⟨_, hkeeps', ?_⟩, fun dgram hmem => ?_⟩
  · rw [List.flatMap_append, List.flatMap_singleton, LoggingStep.record, List.append_nil, ← hgot,
      hbecomes.queue, List.append_assoc]
    cases step with
    | arrive dgram => exact absurd rfl (hown dgram)
    | dgram now outcomes => exact congrArg (got ++ ·) h.read_append
    | clock outcomes => rfl
    | roll now outcomes => rfl
  · rw [hbecomes.queue] at hmem
    cases step with
    | arrive dgram => exact absurd rfl (hown dgram)
    | dgram now outcomes => exact h.fits dgram (List.mem_of_mem_tail hmem)
    | clock outcomes => exact h.fits dgram hmem
    | roll now outcomes => exact h.fits dgram hmem

/-- A call puts its record behind those in the socket. -/
theorem InFlight.log (h : InFlight cli steps w) {call : LogCall} (hcall : call.Legal) :
    ∃ w', (logging cli).next w (.log call) = some w' ∧
      InFlight cli (steps ++ [.log call]) w' := by
  obtain ⟨got, hkeeps, hgot⟩ := h.records
  -- a legal call does not fail, so the step is the arrival of its datagram
  have hfault : ¬ w.fault.isSome := by simp [hkeeps.noFault]
  have hrun : (logging cli).next w (.log call) = match call.dgram? cli with
      | none => some w
      | some dgram => w.next (.arrive dgram) := by
    change (if _ then _ else _) = _
    rw [if_neg hfault, asynclogcliLog_spec cli hcall]
    cases call.dgram? cli <;> rfl
  have hrecords : (steps ++ [LoggingStep.log call]).flatMap (LoggingStep.record cli) =
      got ++ w.surroundings.queue.flatten ++ (call.dgram? cli).getD [] := by
    rw [List.flatMap_append, List.flatMap_singleton, hgot]
    rfl
  rw [hrun]
  cases hdgram : call.dgram? cli with
  | none =>
    rw [hdgram, Option.getD_none, List.append_nil] at hrecords
    exact ⟨w, rfl, ⟨got, hkeeps, hrecords.symm⟩, h.fits⟩
  | some dgram =>
    obtain ⟨hnone, hserved⟩ | ⟨w', hnext, hkeeps', hbecomes⟩ :=
      hkeeps.next_spec (show (LogStep.arrive dgram).Succeeds from trivial)
    · exact absurd trivial hserved
    refine ⟨w', hnext, ⟨_, hkeeps', ?_⟩, fun dgram' hmem => ?_⟩
    · rw [hrecords, hdgram, hbecomes.queue]
      simp [LogStep.taken, LogStep.queue]
    · rw [hbecomes.queue] at hmem
      rcases List.mem_append.mp hmem with hmem | hmem
      · exact h.fits dgram' hmem
      · rw [List.mem_singleton.mp hmem]
        exact hcall.dgram_length_le hdgram

/-- **One step.** It waits for a write at most, and keeps the records. -/
theorem InFlight.next (h : InFlight cli steps w) {step : LoggingStep} (hlegal : step.Legal) :
    (logging cli).next w step = none ∧ ¬ step.Served ∨
      ∃ w', (logging cli).next w step = some w' ∧ InFlight cli (steps ++ [step]) w' := by
  cases step with
  | log call => exact .inr (h.log hlegal)
  | server step =>
    cases step with
    | arrive dgram => exact .inl ⟨rfl, id⟩
    | dgram now outcomes => exact h.server (.dgram now outcomes) hlegal nofun
    | clock outcomes => exact h.server (.clock outcomes) hlegal nofun
    | roll now outcomes => exact h.server (.roll now outcomes) hlegal nofun

end InFlight

end Posixc
