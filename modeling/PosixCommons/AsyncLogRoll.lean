import PosixCommons.AsyncLogSvr

/-!
# Rolling the log file

`posixc_asynclogsvr_roll` flushes, gives `svr->filename` a new name and counts from
zero again. It opens no file. `logSystem` runs the callbacks of the server, in any
order and with datagrams arriving in between, and keeps beside the server the name
that its file was opened by.

What a step does to the file and the buffer is one accounting (`LogWorld.Keeps.next_spec`): they
hold together what was taken from the datagrams. A step `WritesOut` exactly when the
file grows, and it `Strays` when the name was changed before. As long as no step
strays the file is the right one and does not grow past its bound; the first step
that does writes to a file that has another name. What the server does under its
reactor is such a run (`Server.run_logged`).
-/

open Framework

namespace Posixc

/-- The server with what it writes to. `opened` is the name that its log file was
opened by, in `posixc_asynclogsvr_init`, and `names` are the names `svr->filename`
had. For every step that wrote to the file `writes` has the name of the file and
`svr->filename` at that time. `fault` is set by a callback that did not return. -/
structure LogWorld where
  svr : AsyncLogSvr
  surroundings : Surroundings
  opened : List UInt8
  names : List (List UInt8)
  writes : List (List UInt8 × List UInt8)
  fault : Option Fault

/-- A step of the server. The system gives the time and the outcomes of the writes. -/
inductive LogStep where
  /-- A datagram arrives in the socket. -/
  | arrive (dgram : List UInt8)
  /-- `on_dgram`. -/
  | dgram (now : List UInt8) (outcomes : List WriteOutcome)
  /-- `on_clock`. -/
  | clock (outcomes : List WriteOutcome)
  /-- `posixc_asynclogsvr_roll`, by itself. -/
  | roll (now : List UInt8) (outcomes : List WriteOutcome)

namespace LogWorld

/-- The bytes in the log file. -/
def file (w : LogWorld) : List UInt8 := w.surroundings.kernel.file w.svr.bufferedWritefile.fd

/-- How many bytes the server's buffer holds. -/
def pos (w : LogWorld) : ℕ := w.svr.bufferedWritefile.pos

/-- What `read` gives `on_dgram`. -/
def read (w : LogWorld) : List UInt8 := (w.surroundings.queue.headD []).take onePage

/-- The surroundings with the outcomes of the next writes. -/
def answered (w : LogWorld) (outcomes : List WriteOutcome) : Surroundings :=
  { w.surroundings with kernel := { w.surroundings.kernel with outcomes := outcomes } }

/-- The world after a callback. One whose write has no outcome yet has not returned. The
callbacks write before they change the name. -/
def after (w : LogWorld) : Exec (AsyncLogSvr × Surroundings) → Option LogWorld
  | .ok (svr, surroundings) =>
    let grown := (surroundings.kernel.file svr.bufferedWritefile.fd).length ≠ w.file.length
    some { w with
      svr := svr
      surroundings := surroundings
      names := svr.filename :: w.names
      writes := if grown then w.writes ++ [(w.opened, w.svr.filename)] else w.writes }
  | .error .exhausted => none
  | .error fault => some { w with fault := some fault }

/-- The step. -/
def next (w : LogWorld) (step : LogStep) : Option LogWorld :=
  if w.fault.isSome then none
  else match step with
  | .arrive dgram =>
    some { w with surroundings :=
      { w.surroundings with queue := w.surroundings.queue ++ [dgram] } }
  | .dgram now outcomes => w.after (onDgram now w.svr (w.answered outcomes))
  | .clock outcomes => w.after (onClock w.svr (w.answered outcomes))
  | .roll now outcomes => w.after (asynclogsvrRoll w.svr now (w.answered outcomes))

/-- The world that `posixc_asynclogsvr_init` leaves. -/
def start (s : Server) : LogWorld :=
  ⟨s.svr, s.surroundings, s.svr.filename, [s.svr.filename], [], none⟩

end LogWorld

/-- The server from its initialisation on. -/
def logSystem : System LogWorld LogStep where
  init w := ∃ fds timerIds kernel svr dir maxFileSize flushInterval a s,
    asynclogsvrInit fds timerIds kernel svr dir maxFileSize flushInterval a = .ok s ∧
      w = .start s
  next := LogWorld.next

namespace LogStep

/-- The step calls `posixc_asynclogsvr_roll`. -/
def Rolls (w : LogWorld) : LogStep → Prop
  | .arrive _ => False
  | .dgram _ _ => w.read ≠ [] ∧ w.svr.maxFileSize < w.svr.bytesWritten + w.read.length
  | .clock _ => False
  | .roll _ _ => True

/-- The step writes buffered bytes to the file: by a flush, or since there is no room
for more. -/
def WritesOut (w : LogWorld) : LogStep → Prop
  | .arrive _ => False
  | .dgram now outcomes =>
    bufferedWritableSize < w.pos + w.read.length ∨ (LogStep.dgram now outcomes).Rolls w
  | .clock _ => 0 < w.pos
  | .roll _ _ => 0 < w.pos

/-- The step writes to the file while `svr->filename` is not the name that it was
opened by. -/
def Strays (w : LogWorld) (step : LogStep) : Prop :=
  w.svr.filename ≠ w.opened ∧ step.WritesOut w

/-- No write of the step fails. -/
def Succeeds : LogStep → Prop
  | .arrive _ => True
  | .dgram _ outcomes => .error ∉ outcomes
  | .clock outcomes => .error ∉ outcomes
  | .roll _ outcomes => .error ∉ outcomes

/-- The name of the file that the step rolls to. -/
def newName (w : LogWorld) : LogStep → List UInt8
  | .arrive _ => w.svr.filename
  | .dgram now _ => (updateFilename w.svr now).filename
  | .clock _ => w.svr.filename
  | .roll now _ => (updateFilename w.svr now).filename

/-- A roll gets a name that no file of the server had. -/
def Fresh (w : LogWorld) (step : LogStep) : Prop := step.Rolls w → step.newName w ∉ w.names

/-- What the step takes from the socket. -/
def taken (w : LogWorld) : LogStep → List UInt8
  | .dgram _ _ => w.read
  | .arrive _ | .clock _ | .roll _ _ => []

/-- The datagrams that wait after the step. -/
def queue (w : LogWorld) : LogStep → List (List UInt8)
  | .arrive msg => w.surroundings.queue ++ [msg]
  | .dgram _ _ => w.surroundings.queue.tail
  | .clock _ | .roll _ _ => w.surroundings.queue

end LogStep

/-- No callback failed, no more than `max` and a page went to the file, and whatever
went to it did so while `svr->filename` was its name. -/
structure LogWorld.Rolled (max : ℕ) (w : LogWorld) : Prop where
  noFault : w.fault = none
  bounded : w.file.length ≤ max + onePage
  placed : ∀ p ∈ w.writes, p.1 = p.2

theorem LogStep.taken_length_le (step : LogStep) (w : LogWorld) :
    (step.taken w).length ≤ onePage := by
  cases step with
  | dgram now outcomes => exact List.length_take_le _ _
  | _ => exact Nat.zero_le _

/-! ### The callbacks -/

section Callbacks

variable {svr : AsyncLogSvr} {s : Surroundings} {fd : ℕ} {base got : List UInt8}

theorem asynclogsvrFlush_succeeds (h : Holding svr.bufferedWritefile s.kernel fd base got)
    (hs : s.kernel.Succeeds) :
    asynclogsvrFlush svr s = .error .exhausted ∧ s.kernel.ready < svr.bufferedWritefile.pos ∨
      ∃ bw k, asynclogsvrFlush svr s =
          .ok ({ svr with bufferedWritefile := bw }, { s with kernel := k }) ∧
        bw.pos = 0 ∧ Holding bw k fd base got := by
  rcases flush_succeeds h hs with ⟨hwait, hshort⟩ | ⟨bw, k, hflush, hpos, hholding, -, -⟩
  · exact .inl ⟨by rw [asynclogsvrFlush, hwait]; rfl, hshort⟩
  · exact .inr ⟨bw, k, by rw [asynclogsvrFlush, hflush]; rfl, hpos, hholding⟩

theorem asynclogsvrRoll_succeeds (h : Holding svr.bufferedWritefile s.kernel fd base got)
    (hs : s.kernel.Succeeds) (now : List UInt8) :
    asynclogsvrRoll svr now s = .error .exhausted ∧
        s.kernel.ready < svr.bufferedWritefile.pos ∨
      ∃ bw k, asynclogsvrRoll svr now s = .ok ({ updateFilename svr now with
          bufferedWritefile := bw, bytesWritten := 0 }, { s with kernel := k }) ∧
        bw.pos = 0 ∧ Holding bw k fd base got := by
  rcases asynclogsvrFlush_succeeds h hs with ⟨hwait, hshort⟩ | ⟨bw, k, hflush, hpos, hholding⟩
  · exact .inl ⟨by rw [asynclogsvrRoll, hwait]; rfl, hshort⟩
  · exact .inr ⟨bw, k, by rw [asynclogsvrRoll, hflush]; rfl, hpos, hholding⟩

/-- **A datagram.** It is appended to what the file and the buffer hold. When it takes
`bytes_written` past `max_file_size` the file is flushed and its name is changed. -/
theorem onDgram_succeeds (h : Holding svr.bufferedWritefile s.kernel fd base got)
    (hs : s.kernel.Succeeds) (hbytes : svr.bytesWritten + onePage < 2 ^ 64) (now : List UInt8)
    {data : List UInt8} (hdata : data = (s.queue.headD []).take onePage) :
    onDgram now svr s = .error .exhausted ∧
        s.kernel.ready < svr.bufferedWritefile.pos + data.length ∨
      ∃ svr' s', onDgram now svr s = .ok (svr', s') ∧
        Holding svr'.bufferedWritefile s'.kernel fd base (got ++ data) ∧
        s'.queue = s.queue.tail ∧ svr'.maxFileSize = svr.maxFileSize ∧
        (data ≠ [] ∧ svr.maxFileSize < svr.bytesWritten + data.length →
          svr'.filename = (updateFilename svr now).filename ∧ svr'.bytesWritten = 0 ∧
            svr'.bufferedWritefile.pos = 0) ∧
        (¬ (data ≠ [] ∧ svr.maxFileSize < svr.bytesWritten + data.length) →
          svr'.filename = svr.filename ∧ svr'.bytesWritten = svr.bytesWritten + data.length ∧
            (svr.bufferedWritefile.pos + data.length ≤ bufferedWritableSize →
              s'.kernel = s.kernel)) := by
  obtain ⟨kernel, queue⟩ := s
  dsimp only at h hs hdata ⊢
  cases queue with
  | nil =>
    -- `read` has nothing to give
    obtain rfl : data = [] := hdata
    exact .inr ⟨svr, _, rfl, by simpa using h, rfl, rfl, by simp, by simp⟩
  | cons dgram queue =>
    have htake : dgram.take onePage = data := hdata.symm
    have hshort : data.length ≤ onePage := by
      rw [hdata]
      exact List.length_take_le _ _
    rw [onDgram]
    simp only [htake]
    by_cases hpos : 0 < data.length
    · have hne : data ≠ [] := List.ne_nil_of_length_pos hpos
      rw [if_pos hpos, toSize_of_lt (by omega)]
      rcases bufferedWrite_succeeds h hs data with
        ⟨hwait, hready⟩ | ⟨bw, k, hwrite, hholding, hk, hready, hroom⟩
      · exact .inl ⟨by rw [hwait]; rfl, hready⟩
      · rw [hwrite, Exec.ok_bind]
        dsimp only
        by_cases hlong : svr.maxFileSize < svr.bytesWritten + data.length
        · -- the file is rolled
          rw [if_pos hlong]
          rcases @asynclogsvrRoll_succeeds { svr with
              bufferedWritefile := bw, bytesWritten := svr.bytesWritten + data.length }
              ⟨k, queue⟩ fd base (got ++ data) hholding hk now with
            ⟨hwait, hready'⟩ | ⟨bw', k', hroll, hpos', hholding'⟩
          · refine .inl ⟨hwait, ?_⟩
            dsimp only at hready'
            omega
          · exact .inr ⟨_, _, hroll, hholding', rfl, rfl, fun _ => ⟨rfl, rfl, hpos'⟩,
              fun hnot => absurd ⟨hne, hlong⟩ hnot⟩
        · rw [if_neg hlong]
          exact .inr ⟨_, _, rfl, hholding, rfl, rfl, fun hroll => absurd hroll.2 hlong,
            fun _ => ⟨rfl, rfl, hroom⟩⟩
    · -- an empty datagram
      obtain rfl : data = [] := List.eq_nil_of_length_eq_zero (by omega)
      rw [if_neg hpos]
      exact .inr ⟨_, _, rfl, by simpa using h, rfl, rfl, by simp, by simp⟩

end Callbacks

/-! ### One step -/

/-- What the server has taken, in the file and the buffer, with a count that does not
wrap. -/
structure LogWorld.Keeps (got : List UInt8) (w : LogWorld) : Prop where
  noFault : w.fault = none
  holding : Holding w.svr.bufferedWritefile w.surroundings.kernel w.svr.bufferedWritefile.fd [] got
  counted : w.svr.bytesWritten ≤ w.svr.maxFileSize
  maxFileSize_lt : w.svr.maxFileSize < 2 ^ 32

/-- What a step leaves. -/
structure LogWorld.Becomes (w : LogWorld) (step : LogStep) (w' : LogWorld) : Prop where
  opened : w'.opened = w.opened
  maxFileSize : w'.svr.maxFileSize = w.svr.maxFileSize
  queue : w'.surroundings.queue = step.queue w
  rolled : step.Rolls w → w'.svr.filename = step.newName w
  counted : ¬ step.Rolls w → w'.svr.filename = w.svr.filename ∧
    w'.svr.bytesWritten = w.svr.bytesWritten + (step.taken w).length
  names : w.names ⊆ w'.names
  grown : w'.file.length = w.file.length ↔ ¬ step.WritesOut w
  wrote : step.WritesOut w → w'.writes = w.writes ++ [(w.opened, w.svr.filename)]
  kept : ¬ step.WritesOut w → w'.writes = w.writes

/-- The outcomes are enough for two pages. -/
def LogStep.Served : LogStep → Prop
  | .arrive _ => True
  | .dgram _ outcomes | .clock outcomes | .roll _ outcomes =>
    2 * bufferedWritableSize ≤ outcomes.countP WriteOutcome.takes

namespace LogWorld

section Step

variable {w w' : LogWorld} {got : List UInt8} {step : LogStep}

/-- A callback that returned. -/
theorem Keeps.after {svr : AsyncLogSvr} {s : Surroundings} (h : Keeps got w) (step : LogStep)
    (hholding : Holding svr.bufferedWritefile s.kernel w.svr.bufferedWritefile.fd []
      (got ++ step.taken w))
    (hqueue : s.queue = step.queue w) (hmax : svr.maxFileSize = w.svr.maxFileSize)
    (hrolled : step.Rolls w → svr.filename = step.newName w ∧ svr.bytesWritten = 0)
    (hcounted : ¬ step.Rolls w → svr.filename = w.svr.filename ∧
      svr.bytesWritten = w.svr.bytesWritten + (step.taken w).length ∧
      svr.bytesWritten ≤ w.svr.maxFileSize)
    (hgrown : (s.kernel.file w.svr.bufferedWritefile.fd).length = w.file.length ↔
      ¬ step.WritesOut w) :
    ∃ w', w.after (.ok (svr, s)) = some w' ∧ Keeps (got ++ step.taken w) w' ∧
      Becomes w step w' := by
  have hfd : svr.bufferedWritefile.fd = w.svr.bufferedWritefile.fd := hholding.1
  refine ⟨_, rfl, ⟨h.noFault, ?_, ?_, hmax ▸ h.maxFileSize_lt⟩,
    ⟨rfl, hmax, hqueue, fun hroll => (hrolled hroll).1, fun hroll => ?_,
      List.subset_cons_self _ _, ?_, fun hout => ?_, fun hout => ?_⟩⟩
  · rw [hfd]
    exact hholding
  · by_cases hroll : step.Rolls w
    · rw [(hrolled hroll).2]
      exact Nat.zero_le _
    · rw [hmax]
      exact (hcounted hroll).2.2
  · exact ⟨(hcounted hroll).1, (hcounted hroll).2.1⟩
  · rw [← hgrown, file, hfd]
  · dsimp only
    rw [hfd, if_pos fun heq => hgrown.mp heq hout]
  · dsimp only
    rw [hfd, if_neg (not_not.mpr (hgrown.mpr hout))]

/-- The file and the buffer hold what the server has taken. -/
theorem Keeps.length_add (h : Keeps got w) : w.file.length + w.pos = got.length := by
  have hlen := h.holding.length_add
  rwa [List.length_nil, Nat.zero_add] at hlen

theorem Keeps.dgram (h : Keeps got w) (now : List UInt8) {outcomes : List WriteOutcome}
    (hs : .error ∉ outcomes) :
    w.after (onDgram now w.svr (w.answered outcomes)) = none ∧
        ¬ (LogStep.dgram now outcomes).Served ∨
      ∃ w', w.after (onDgram now w.svr (w.answered outcomes)) = some w' ∧
        Keeps (got ++ w.read) w' ∧ Becomes w (.dgram now outcomes) w' := by
  have hbytes : w.svr.bytesWritten + onePage < 2 ^ 64 := by
    have hle := h.counted
    have hlt := h.maxFileSize_lt
    rw [onePage]
    omega
  have hpos : w.pos ≤ bufferedWritableSize := h.holding.pos_le
  have hcount := h.length_add
  rcases @onDgram_succeeds w.svr (w.answered outcomes) _ _ _ h.holding hs hbytes now w.read rfl with
    ⟨hwait, hshort⟩ | ⟨svr, s, hrun, hholding, hqueue, hmax, hroll, hstay⟩
  · -- a buffer and a datagram are two pages at most
    refine .inl ⟨by rw [hwait]; rfl, Nat.not_le.mpr (hshort.trans_le ?_)⟩
    have hread : w.read.length ≤ onePage := List.length_take_le _ _
    calc w.pos + w.read.length ≤ bufferedWritableSize + onePage := Nat.add_le_add hpos hread
      _ = 2 * bufferedWritableSize := rfl
  · rw [hrun]
    have hlen := hholding.length_add
    rw [List.length_nil, Nat.zero_add, List.length_append] at hlen
    by_cases hrolls : (LogStep.dgram now outcomes).Rolls w
    · obtain ⟨hname, hzero, hempty⟩ := hroll hrolls
      refine .inr (h.after (.dgram now outcomes) hholding hqueue hmax
        (fun _ => ⟨hname, hzero⟩) (fun hnot => absurd hrolls hnot)
        (iff_of_false ?_ (not_not.mpr (.inr hrolls))))
      -- the buffer is empty now, and the datagram was not
      have hne : 0 < w.read.length := List.length_pos_iff.mpr hrolls.1
      omega
    · obtain ⟨hname, hcounted, hroom⟩ := hstay hrolls
      refine .inr (h.after (.dgram now outcomes) hholding hqueue hmax
        (fun hyes => absurd hyes hrolls) (fun _ => ⟨hname, hcounted, ?_⟩) ?_)
      · rw [hcounted]
        by_cases hnil : w.read = []
        · rw [hnil]
          exact h.counted
        · exact Nat.not_lt.mp fun hlong => hrolls ⟨hnil, hlong⟩
      · by_cases hfits : w.pos + w.read.length ≤ bufferedWritableSize
        · refine iff_of_true ?_ (not_or.mpr ⟨Nat.not_lt.mpr hfits, hrolls⟩)
          rw [hroom hfits]
          rfl
        · -- more than a buffer was taken, and a buffer holds no more than it can
          refine iff_of_false ?_ (not_not.mpr (.inl (Nat.not_le.mp hfits)))
          have hpos' := hholding.pos_le
          omega

/-- What a flush writes is no more than two pages. -/
theorem Keeps.pos_le (h : Keeps got w) : w.pos ≤ 2 * bufferedWritableSize :=
  h.holding.pos_le.trans (Nat.le_mul_of_pos_left _ Nat.two_pos)

/-- A flush lets the file grow when the buffer is not empty. -/
theorem Keeps.flush_grown (h : Keeps got w) {bw : BufferedWritable UInt8} {k : Kernel UInt8}
    (hempty : bw.pos = 0) (hholding : Holding bw k w.svr.bufferedWritefile.fd [] got) :
    (k.file w.svr.bufferedWritefile.fd).length = w.file.length ↔ ¬ 0 < w.pos := by
  have hcount := h.length_add
  have hlen := hholding.length_add
  rw [List.length_nil, Nat.zero_add, hempty, Nat.add_zero] at hlen
  omega

theorem Keeps.clock (h : Keeps got w) {outcomes : List WriteOutcome} (hs : .error ∉ outcomes) :
    w.after (onClock w.svr (w.answered outcomes)) = none ∧ ¬ (LogStep.clock outcomes).Served ∨
      ∃ w', w.after (onClock w.svr (w.answered outcomes)) = some w' ∧
        Keeps (got ++ []) w' ∧ Becomes w (.clock outcomes) w' := by
  rw [onClock]
  rcases @asynclogsvrFlush_succeeds w.svr (w.answered outcomes) _ _ _ h.holding hs with
    ⟨hwait, hshort⟩ | ⟨bw, k, hrun, hempty, hholding⟩
  · exact .inl ⟨by rw [hwait]; rfl, Nat.not_le.mpr (hshort.trans_le h.pos_le)⟩
  · rw [hrun]
    refine .inr (h.after (.clock outcomes) ?_ rfl rfl False.elim
      (fun _ => ⟨rfl, rfl, h.counted⟩) (h.flush_grown hempty hholding))
    rw [LogStep.taken, List.append_nil]
    exact hholding

theorem Keeps.roll (h : Keeps got w) (now : List UInt8) {outcomes : List WriteOutcome}
    (hs : .error ∉ outcomes) :
    w.after (asynclogsvrRoll w.svr now (w.answered outcomes)) = none ∧
        ¬ (LogStep.roll now outcomes).Served ∨
      ∃ w', w.after (asynclogsvrRoll w.svr now (w.answered outcomes)) = some w' ∧
        Keeps (got ++ []) w' ∧ Becomes w (.roll now outcomes) w' := by
  rcases @asynclogsvrRoll_succeeds w.svr (w.answered outcomes) _ _ _ h.holding hs now with
    ⟨hwait, hshort⟩ | ⟨bw, k, hrun, hempty, hholding⟩
  · exact .inl ⟨by rw [hwait]; rfl, Nat.not_le.mpr (hshort.trans_le h.pos_le)⟩
  · rw [hrun]
    refine .inr (h.after (.roll now outcomes) ?_ rfl rfl (fun _ => ⟨rfl, rfl⟩)
      (fun hnot => absurd trivial hnot) (h.flush_grown hempty hholding))
    rw [LogStep.taken, List.append_nil]
    exact hholding

/-- **One step.** It returns when its writes do, and then the server has all it took,
the name has changed if it rolled, and the file has grown if it wrote out. -/
theorem Keeps.next_spec (h : Keeps got w) (hs : step.Succeeds) :
    w.next step = none ∧ ¬ step.Served ∨
      ∃ w', w.next step = some w' ∧ Keeps (got ++ step.taken w) w' ∧ Becomes w step w' := by
  have hfault : ¬ w.fault.isSome := by simp [h.noFault]
  cases step with
  | arrive msg =>
    refine .inr ⟨_, if_neg hfault, ?_, rfl, rfl, rfl, False.elim, fun _ => ⟨rfl, rfl⟩,
      List.Subset.refl _, iff_of_true rfl not_false, False.elim, fun _ => rfl⟩
    rw [LogStep.taken, List.append_nil]
    exact ⟨h.noFault, h.holding, h.counted, h.maxFileSize_lt⟩
  | dgram now outcomes =>
    rw [next, if_neg hfault]
    exact h.dgram now hs
  | clock outcomes =>
    rw [next, if_neg hfault]
    exact h.clock hs
  | roll now outcomes =>
    rw [next, if_neg hfault]
    exact h.roll now hs

/-! ### Runs -/

/-- The server that `posixc_asynclogsvr_init` leaves has taken nothing, and its file is
empty and has its name. -/
theorem init_keeps (hinit : logSystem.init w) :
    Keeps [] w ∧ w.svr.filename = w.opened ∧ w.svr.bytesWritten = 0 ∧
      w.surroundings.queue = [] ∧ w.names = [w.opened] ∧ w.writes = [] := by
  obtain ⟨fds, timerIds, kernel, svr, dir, maxFileSize, flushInterval, a, s, hinit, rfl⟩ := hinit
  unfold asynclogsvrInit at hinit
  split_ifs at hinit with hlen hfd
  · split at hinit <;> cases hinit
  split at hinit
  · cases hinit
  · obtain ⟨⟨r, dgram, timer, sig⟩, -, hinit⟩ := Exec.bind_eq_ok.mp hinit
    obtain rfl := Except.ok.inj hinit
    refine ⟨⟨rfl, ⟨rfl, [], [], ?_, Region.holds_nil _, rfl, rfl⟩, Nat.zero_le _, ?_⟩, rfl, rfl, rfl,
      rfl, rfl⟩
    · exact Function.update_self ..
    · -- `max_file_size` is a `uint32_t`
      change (maxFileSize % 2 ^ 32).toNat < 2 ^ 32
      omega

/-- What a run keeps as long as no step strays: while the file has the server's name,
it gets what the server counts. -/
structure InPlace (max : ℕ) (w : LogWorld) : Prop extends Rolled max w where
  keeps : ∃ got, Keeps got w ∧ (w.svr.filename = w.opened → got.length = w.svr.bytesWritten)
  maxFileSize : w.svr.maxFileSize = max
  named : w.opened ∈ w.names

theorem InPlace.next {max : ℕ} (h : InPlace max w) (hs : step.Succeeds) (hfresh : step.Fresh w)
    (hstray : ¬ step.Strays w) (hnext : w.next step = some w') : InPlace max w' := by
  obtain ⟨got, hkeeps, hcount⟩ := h.keeps
  obtain ⟨hnone, -⟩ | ⟨w₁, hw₁, hkeeps', hbecomes⟩ := hkeeps.next_spec hs
  · rw [hnone] at hnext
    cases hnext
  obtain rfl : w₁ = w' := Option.some.inj (hw₁.symm.trans hnext)
  have hlen := hkeeps'.length_add
  have htaken : (step.taken w).length ≤ onePage := step.taken_length_le w
  rw [List.length_append] at hlen
  refine ⟨⟨hkeeps'.noFault, ?_, ?_⟩, ⟨_, hkeeps', fun hname => ?_⟩,
    hbecomes.maxFileSize.trans h.maxFileSize, ?_⟩
  · by_cases hout : step.WritesOut w
    · -- the file had its name, so all of it was counted
      have hname : w.svr.filename = w.opened := by
        by_contra hne
        exact hstray ⟨hne, hout⟩
      have hle : got.length ≤ max := by
        rw [hcount hname, ← h.maxFileSize]
        exact hkeeps.counted
      omega
    · rw [hbecomes.grown.mpr hout]
      exact h.bounded
  · by_cases hout : step.WritesOut w
    · rw [hbecomes.wrote hout]
      intro p hp
      rcases List.mem_append.mp hp with hp | hp
      · exact h.placed p hp
      · rw [List.mem_singleton.mp hp]
        by_contra hne
        exact hstray ⟨Ne.symm hne, hout⟩
    · rw [hbecomes.kept hout]
      exact h.placed
  · -- a step that leaves the name counts what it takes
    have hstay : ¬ step.Rolls w := fun hroll => by
      rw [hbecomes.rolled hroll, hbecomes.opened] at hname
      exact hfresh hroll (hname ▸ h.named)
    obtain ⟨hsame, hcounted⟩ := hbecomes.counted hstay
    rw [hsame, hbecomes.opened] at hname
    rw [List.length_append, hcount hname, hcounted]
  · rw [hbecomes.opened]
    exact hbecomes.names h.named

/-- A step that strays has written under another name. -/
theorem InPlace.not_rolled {max : ℕ} (h : InPlace max w) (hs : step.Succeeds)
    (hstray : step.Strays w) (hnext : w.next step = some w') : ¬ Rolled max w' := by
  obtain ⟨got, hkeeps, -⟩ := h.keeps
  obtain ⟨hnone, -⟩ | ⟨w₁, hw₁, -, hbecomes⟩ := hkeeps.next_spec hs
  · rw [hnone] at hnext
    cases hnext
  obtain rfl : w₁ = w' := Option.some.inj (hw₁.symm.trans hnext)
  intro hrolled
  refine hstray.1 (Eq.symm (hrolled.placed (w.opened, w.svr.filename) ?_))
  rw [hbecomes.wrote hstray.2]
  exact List.mem_append_right _ (List.mem_singleton_self _)

end Step

end LogWorld

/-! ### The server under its reactor -/

/-- The world has the server and its surroundings. -/
def LogWorld.Shows (w : LogWorld) (s : Server) : Prop :=
  w.svr = s.svr ∧ w.surroundings = s.surroundings ∧ w.fault = none

/-- A step of the server is an arrival, a callback, or nothing to the log. -/
theorem LogWorld.Shows.next {w : LogWorld} {s s' : Server} {step : ServerStep} (h : w.Shows s)
    (hnext : s.next step = some s') :
    ∃ logged w', logSystem.run w logged = some w' ∧ w'.Shows s' := by
  obtain ⟨hsvr, hsur, hnone⟩ := h
  have hfault : ¬ w.fault.isSome := by simp [hnone]
  obtain ⟨dgram, -, rfl⟩ | ⟨m, loop, -, -, -, rfl⟩ | ⟨now, outcomes, loop, -, -, hcallback⟩ :=
    Server.next_cases hnext
  · refine ⟨[.arrive dgram], _, System.run_cons_eq_some.mpr ⟨_, if_neg hfault, rfl⟩, hsvr, ?_, hnone⟩
    rw [← hsur]
  · exact ⟨[], w, rfl, hsvr, hsur, hnone⟩
  · obtain rfl | ⟨cb, svr, sur, loop', hrun, -, rfl⟩ := hcallback
    · exact ⟨[], w, rfl, hsvr, hsur, hnone⟩
    · obtain ⟨w', hafter, hshows⟩ : ∃ w', w.after (.ok (svr, sur)) = some w' ∧
          w'.Shows ⟨loop', svr, sur⟩ := ⟨_, rfl, rfl, rfl, hnone⟩
      rw [← hsvr, ← hsur] at hrun
      rcases runCallback_eq_some hrun with hdgram | hclock
      · refine ⟨[.dgram now outcomes], w', System.run_cons_eq_some.mpr ⟨w', ?_, rfl⟩, hshows⟩
        exact (if_neg hfault).trans ((congrArg w.after hdgram).trans hafter)
      · refine ⟨[.clock outcomes], w', System.run_cons_eq_some.mpr ⟨w', ?_, rfl⟩, hshows⟩
        exact (if_neg hfault).trans ((congrArg w.after hclock).trans hafter)

/-- **A run of the server, seen by its log.** It is a run of arrivals and callbacks. -/
theorem Server.run_logged {s s' : Server} {steps : List ServerStep}
    (hrun : serverSystem.run s steps = some s') :
    ∃ logged w', logSystem.run (.start s) logged = some w' ∧ w'.Shows s' := by
  refine System.run_invariant (P := fun _ _ => True)
    (I := fun s₁ => ∃ logged w₁, logSystem.run (.start s) logged = some w₁ ∧ w₁.Shows s₁)
    (fun s₁ step s₂ h _ hnext => ?_) ⟨[], _, rfl, rfl, rfl, rfl⟩ (.of_forall fun _ _ => trivial) hrun
  obtain ⟨logged, w₁, hlogged, hshows⟩ := h
  obtain ⟨more, w₂, hmore, hshows'⟩ := hshows.next hnext
  refine ⟨logged ++ more, w₂, ?_, hshows'⟩
  rw [System.run_append, hlogged]
  exact hmore

/-- **Log rolling.** In a run of the server whose writes succeed and whose rolls find
new names, no callback fails, the log file gets at most `max_file_size` and a page, and
whatever is written goes to the file that `svr->filename` names, exactly when nothing is
written out after a roll. -/
theorem asynclogsvr_rolled {w w' : LogWorld} {steps : List LogStep} (hinit : logSystem.init w)
    (hsucceed : ∀ step ∈ steps, step.Succeeds)
    (hfresh : logSystem.Guarded (fun w step => step.Fresh w) w steps)
    (hrun : logSystem.run w steps = some w') :
    logSystem.Always (LogWorld.Rolled w.svr.maxFileSize) w steps ↔
      logSystem.Guarded (fun w step => ¬ step.Strays w) w steps := by
  obtain ⟨hkeeps, hname, hzero, -, hnames, hwrites⟩ := LogWorld.init_keeps hinit
  have hstart : LogWorld.InPlace w.svr.maxFileSize w := by
    refine ⟨⟨hkeeps.noFault, ?_, by simp [hwrites]⟩, ⟨[], hkeeps, fun _ => hzero.symm⟩, rfl, ?_⟩
    · have hlen := hkeeps.length_add
      rw [List.length_nil] at hlen
      omega
    · rw [hnames]
      exact List.mem_singleton_self _
  exact System.always_iff_guarded_of_run (J := LogWorld.InPlace w.svr.maxFileSize)
    (fun _ _ _ h hA hstray hnext => h.next hA.1 hA.2 hstray hnext) (fun _ h => h.toRolled)
    (fun _ _ _ h hA hstray hnext => h.not_rolled hA.1 (not_not.mp hstray) hnext) hstart
    ((System.Guarded.of_forall hsucceed).and hfresh) hrun

/-- A server that rolls after every byte, with an empty file of the name /1. -/
def rollStart : LogWorld :=
  ⟨⟨⟨fun _ => none, 0, 4⟩, 1, 0, 2, 0, 3000, 0, [47, 49], 1⟩,
    ⟨⟨Function.update (fun _ => []) 4 [], []⟩, []⟩, [47, 49], [[47, 49]], [], none⟩

theorem rollStart_init : logSystem.init rollStart :=
  ⟨socketTable, 0, ⟨fun _ => [], []⟩, ⟨⟨fun _ => none, 0, 0⟩, 0, 0, 0, 0, 0, 0, [], 0⟩, [47], 0,
    3000, grantAll, _, rfl, rfl⟩

/-- A datagram of one byte is handled at the time `now`. -/
def oneByte (now : UInt8) : List LogStep := [.arrive [97], .dgram [now] [.wrote 1]]

theorem asynclogsvr_rolled_once : logSystem.Always (LogWorld.Rolled 0) rollStart (oneByte 50) := by
  refine (asynclogsvr_rolled rollStart_init ?_ ?_ rfl).mpr ?_
  · simp [oneByte, LogStep.Succeeds]
  · exact .cons nofun rfl (.cons (fun _ => by decide) rfl trivial)
  · exact .cons (fun h => h.2) rfl (.cons (fun h => h.1 rfl) rfl trivial)

/-- A second byte is written to /1 when the file should be /2. -/
theorem asynclogsvr_strays :
    logSystem.init rollStart ∧ (∀ step ∈ oneByte 50 ++ oneByte 51, step.Succeeds) ∧
      logSystem.Guarded (fun w step => step.Fresh w) rollStart (oneByte 50 ++ oneByte 51) ∧
      ¬ logSystem.Always (LogWorld.Rolled 0) rollStart (oneByte 50 ++ oneByte 51) := by
  refine ⟨rollStart_init, ?_, ?_, fun h => ?_⟩
  · simp [oneByte, LogStep.Succeeds]
  · exact .cons nofun rfl (.cons (fun _ => by decide) rfl (.cons nofun rfl
      (.cons (fun _ => by decide) rfl trivial)))
  · exact absurd ((h 4 _ rfl).placed ([47, 49], [47, 50]) (by decide)) (by decide)

end Posixc
