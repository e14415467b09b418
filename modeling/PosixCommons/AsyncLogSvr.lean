import PosixCommons.FileIO
import PosixCommons.Reactor.Delivery

/-!
# The async log server

`asynclogsvr.c`: a datagram socket, a periodic timer and a signal in one kqueue
reactor. The server's callbacks run on the reactor's thread and make no call on an
event, so a run of the server is, for its reactor, a run in which no thread makes a
call (`Server.run_loop`). What `Awaiting` says of a socket that is not submitted
again is then what becomes of the datagram socket: it is submitted once, by
`asynclogsvrInit`, and the first datagram that is fetched is the last.
-/

open Framework

namespace Posixc

/-- `one_page`. -/
def onePage : ℕ := 4096

/-- The number of `on_dgram`. -/
def onDgramCb : ℕ := 0
/-- The number of `on_clock`. -/
def onClockCb : ℕ := 1
/-- The number of `on_sigint`. -/
def onSigintCb : ℕ := 2

/-- `SIGINT`. -/
def sigint : ℤ := 2

/-- `posixc_asynclogsvr`. Its reactor is in `Server`. -/
structure AsyncLogSvr where
  bufferedWritefile : BufferedWritable UInt8
  timerEvent : ℕ
  dgramEvent : ℕ
  sigintEvent : ℕ
  maxFileSize : ℕ
  flushInterval : ℤ
  bytesWritten : ℕ
  filename : List UInt8
  dirlen : ℕ

/-- The files of the process, and the datagrams that wait in the server's socket. -/
structure Surroundings where
  kernel : Kernel UInt8
  queue : List (List UInt8)

/-! ### The callbacks -/

/-- `posixc_asynclogsvr_flush`. -/
def asynclogsvrFlush (svr : AsyncLogSvr) (w : Surroundings) :
    Exec (AsyncLogSvr × Surroundings) := do
  let (_, bw, kernel) ← flush svr.bufferedWritefile w.kernel
  return ({ svr with bufferedWritefile := bw }, { w with kernel := kernel })

/-- `update_filename`. `now` is what `posixc_timestr_logfile` writes. -/
def updateFilename (svr : AsyncLogSvr) (now : List UInt8) : AsyncLogSvr :=
  { svr with filename := svr.filename.take svr.dirlen ++ now }

/-- `posixc_asynclogsvr_roll`. -/
def asynclogsvrRoll (svr : AsyncLogSvr) (now : List UInt8) (w : Surroundings) :
    Exec (AsyncLogSvr × Surroundings) := do
  let (svr, w) ← asynclogsvrFlush svr w
  return ({ updateFilename svr now with bytesWritten := 0 }, w)

/-- `on_clock`. -/
def onClock (svr : AsyncLogSvr) (w : Surroundings) : Exec (AsyncLogSvr × Surroundings) :=
  asynclogsvrFlush svr w

/-- `on_dgram`. It reads one datagram, of which it takes a page, or none where none
waits. -/
def onDgram (now : List UInt8) (svr : AsyncLogSvr) (w : Surroundings) :
    Exec (AsyncLogSvr × Surroundings) :=
  match w.queue with
  | [] => return (svr, w)
  | dgram :: queue => do
    -- `recv` drops what does not fit
    let buf := dgram.take onePage
    let w := { w with queue := queue }
    if 0 < buf.length then
      let (_, bw, kernel) ← bufferedWrite svr.bufferedWritefile buf w.kernel
      let svr := { svr with bufferedWritefile := bw,
                            bytesWritten := toSize (svr.bytesWritten + buf.length) }
      let w := { w with kernel := kernel }
      -- a file that is too long is rolled after the write
      if svr.maxFileSize < svr.bytesWritten then asynclogsvrRoll svr now w
      else return (svr, w)
    else return (svr, w)

/-- The callback with the number. `none` for one that does not return: `on_sigint`
ends the process. -/
def runCallback (cb : ℕ) (now : List UInt8) (svr : AsyncLogSvr) (w : Surroundings) :
    Option (AsyncLogSvr × Surroundings) :=
  if cb = onDgramCb then (onDgram now svr w).toOption
  else if cb = onClockCb then (onClock svr w).toOption
  else none

/-! ### The server -/

/-- The server with its reactor. -/
structure Server where
  loop : Loop
  svr : AsyncLogSvr
  surroundings : Surroundings

/-- What `posixc_asynclogsvr_init` gets from the system: the descriptors of the log
file and of the socket, the name of the file, and for each event whether there is
memory for it and what becomes of its registration and of its submit. -/
structure InitAnswers where
  logFd : ℕ
  ipcfd : ℤ
  now : List UInt8
  mem : ℕ → Bool
  created : ℕ → Verdict
  submitted : ℕ → Verdict

/-- The end of `posixc_asynclogsvr_init`: the interval of the timer, and the submits
of the socket, the timer and the signal. -/
def asynclogsvrSubmit (r : Reactor Kq) (dgram timer sig : ℕ) (flushInterval : ℤ)
    (a : InitAnswers) : Reactor Kq :=
  let r := r.setObj timer
    { r.obj timer with ev := timerEventSetInterval (r.obj timer).ev flushInterval true }
  let r := r.setObj dgram (eventSubmit kqueue (r.obj dgram) eventIn (a.submitted 0)).2
  let r := r.setObj timer (eventSubmit kqueue (r.obj timer) eventTimer (a.submitted 1)).2
  r.setObj sig (eventSubmit kqueue (r.obj sig) eventSig (a.submitted 2)).2

/-- The part of `posixc_asynclogsvr_init` from the creation of the events on. The
events are returned in the order of their creation. -/
def asynclogsvrEvents (r : Reactor Kq) (flushInterval : ℤ) (a : InitAnswers) :
    Exec (Reactor Kq × ℕ × ℕ × ℕ) :=
  let (dgramEvent, r) :=
    eventCreate kqueue r a.ipcfd (some onDgramCb) 0 .sockEv (a.mem 0) (a.created 0)
  let (timerId, r) := uniqueTimerEventId r
  let (timerEvent, r) :=
    eventCreate kqueue r timerId (some onClockCb) 0 .timerEv (a.mem 1) (a.created 1)
  let (sigintEvent, r) :=
    eventCreate kqueue r sigint (some onSigintCb) 0 .sigEv (a.mem 2) (a.created 2)
  match dgramEvent, timerEvent, sigintEvent with
  | some dgram, some timer, some sig =>
    .ok (asynclogsvrSubmit r dgram timer sig flushInterval a, dgram, timer, sig)
  | _, _, _ => .error .aborted

/-- `posixc_asynclogsvr_init` on a server `svr` whose memory holds anything. -/
def asynclogsvrInit (fds : FdTable) (timerIds : ℕ) (kernel : Kernel UInt8) (svr : AsyncLogSvr)
    (dir : List UInt8) (maxFileSize flushInterval : ℤ) (a : InitAnswers) : Exec Server :=
  if dir.length < 180 then
    match dir.getLast? with
    -- the code looks at the character before the first of an empty name
    | none => .error .outOfBounds
    | some last => do
      let filename := if last = 47 then dir else dir ++ [47]
      let svr := updateFilename { svr with bytesWritten := 0, dirlen := filename.length,
                                           filename := filename } a.now
      let kernel := { kernel with file := Function.update kernel.file a.logFd [] }
      let loop := loopCreate fds timerIds
      if a.ipcfd = -1 then .error .aborted
      else
        let (r, dgram, timer, sig) ← asynclogsvrEvents loop.reactor flushInterval a
        return {
          loop := { loop with reactor := r }
          svr := { svr with
            bufferedWritefile := bufferedWritableInit svr.bufferedWritefile a.logFd
            maxFileSize := (maxFileSize % 2 ^ 32).toNat
            flushInterval := flushInterval
            dgramEvent := dgram
            timerEvent := timer
            sigintEvent := sig }
          surroundings := ⟨kernel, []⟩ }
  else .error .aborted

/-- A step of the server. -/
inductive ServerStep where
  /-- A datagram arrives in the socket. -/
  | arrive (dgram : List UInt8)
  /-- The reactor's thread makes a step outside `consume_ev`. -/
  | thread (m : Move)
  /-- `consume_ev` on the next entry, with its callback. The system gives the time
  and the outcomes of the writes. -/
  | consume (now : List UInt8) (outcomes : List WriteOutcome)

/-- The step. -/
def Server.next (s : Server) : ServerStep → Option Server
  | .arrive dgram =>
    some { s with surroundings :=
      { s.surroundings with queue := s.surroundings.queue ++ [dgram] } }
  | .thread m =>
    match m with
    -- what the reactor's thread does between two callbacks
    | .test | .fetch _ | .badf | .finish => (s.loop.next m).map fun loop => { s with loop := loop }
    | _ => none
  | .consume now outcomes =>
    match s.loop.pc with
    | .dispatch (ev :: _) => do
      let loop ← s.loop.next .consume
      match (s.loop.reactor.obj ev.udata).ev.cb with
      | none => return { s with loop := loop }
      | some cb =>
        let kernel := { s.surroundings.kernel with outcomes := outcomes }
        let (svr, w) ← runCallback cb now s.svr { s.surroundings with kernel := kernel }
        let loop ← loop.next .ret
        return ⟨loop, svr, w⟩
    | _ => none

/-- The server from its initialisation on, with all submits succeeding. -/
def serverSystem : System Server ServerStep where
  init s := ∃ fds timerIds kernel svr dir maxFileSize flushInterval a,
    asynclogsvrInit fds timerIds kernel svr dir maxFileSize flushInterval a = .ok s ∧
      ∀ i, a.submitted i = none
  next := Server.next

/-- The socket's read filter is enabled, and its bit is set. -/
def DgramArmed (s : Server) : Prop :=
  (s.loop.reactor.obj s.svr.dgramEvent).ev.evmask.has eventIn = true ∧
    (s.loop.reactor.obj s.svr.dgramEvent).reg.enabled .read = true

instance (s : Server) : Decidable (DgramArmed s) := inferInstanceAs (Decidable (_ ∧ _))

/-! ### What the callbacks leave -/

section Callbacks

variable {svr svr' : AsyncLogSvr} {w w' : Surroundings} {now : List UInt8}

theorem asynclogsvrFlush_dgramEvent (h : asynclogsvrFlush svr w = .ok (svr', w')) :
    svr'.dgramEvent = svr.dgramEvent := by
  obtain ⟨⟨ok, bw, kernel⟩, -, h⟩ := Exec.bind_eq_ok.mp h
  obtain ⟨rfl, -⟩ := Prod.mk.inj (Except.ok.inj h)
  rfl

theorem asynclogsvrRoll_dgramEvent (h : asynclogsvrRoll svr now w = .ok (svr', w')) :
    svr'.dgramEvent = svr.dgramEvent := by
  obtain ⟨⟨svr₁, w₁⟩, hflush, h⟩ := Exec.bind_eq_ok.mp h
  obtain ⟨rfl, -⟩ := Prod.mk.inj (Except.ok.inj h)
  have hsame := asynclogsvrFlush_dgramEvent hflush
  exact hsame

theorem onDgram_dgramEvent (h : onDgram now svr w = .ok (svr', w')) :
    svr'.dgramEvent = svr.dgramEvent := by
  unfold onDgram at h
  split at h
  · obtain ⟨rfl, -⟩ := Prod.mk.inj (Except.ok.inj h)
    rfl
  · dsimp only at h
    split_ifs at h
    · obtain ⟨⟨ok, bw, kernel⟩, -, h⟩ := Exec.bind_eq_ok.mp h
      have hsame := asynclogsvrRoll_dgramEvent h
      exact hsame
    · obtain ⟨⟨ok, bw, kernel⟩, -, h⟩ := Exec.bind_eq_ok.mp h
      obtain ⟨rfl, -⟩ := Prod.mk.inj (Except.ok.inj h)
      rfl
    · obtain ⟨rfl, -⟩ := Prod.mk.inj (Except.ok.inj h)
      rfl

/-- A callback that returns is one of two. -/
theorem runCallback_eq_some {cb : ℕ} (h : runCallback cb now svr w = some (svr', w')) :
    onDgram now svr w = .ok (svr', w') ∨ onClock svr w = .ok (svr', w') := by
  have hok : ∀ x : Exec (AsyncLogSvr × Surroundings), x.toOption = some (svr', w') →
      x = .ok (svr', w') := by
    rintro (_ | p) hx
    · cases hx
    · exact congrArg Except.ok (Option.some.inj hx)
  unfold runCallback at h
  split_ifs at h
  · exact .inl (hok _ h)
  · exact .inr (hok _ h)

/-- No callback changes which event the socket's is. -/
theorem runCallback_dgramEvent {cb : ℕ} (h : runCallback cb now svr w = some (svr', w')) :
    svr'.dgramEvent = svr.dgramEvent :=
  (runCallback_eq_some h).elim onDgram_dgramEvent asynclogsvrFlush_dgramEvent

end Callbacks

/-! ### The reactor of the server -/

/-- What a step of the server is for its reactor: steps of the reactor's thread
that make no call, of which only the fetch of a batch is one. -/
def LoopMoves (step : ServerStep) (moves : List Move) : Prop :=
  (∀ m ∈ moves, m.NoCall) ∧ ∀ batch, .fetch batch ∈ moves ↔ step = .thread (.fetch batch)

/-- **What a step of the server is**: an arrival, a move of the reactor's thread, or an
entry that is consumed, without a callback or with one that returns. -/
theorem Server.next_cases {s s' : Server} {step : ServerStep} (h : s.next step = some s') :
    (∃ dgram, step = .arrive dgram ∧ s' = { s with surroundings :=
        { s.surroundings with queue := s.surroundings.queue ++ [dgram] } }) ∨
      (∃ m loop, step = .thread m ∧ m.NoCall ∧ s.loop.next m = some loop ∧
        s' = { s with loop := loop }) ∨
      ∃ now outcomes loop, step = .consume now outcomes ∧ s.loop.next .consume = some loop ∧
        (s' = { s with loop := loop } ∨
          ∃ cb svr w loop', runCallback cb now s.svr { s.surroundings with
              kernel := { s.surroundings.kernel with outcomes := outcomes } } = some (svr, w) ∧
            loop.next .ret = some loop' ∧ s' = ⟨loop', svr, w⟩) := by
  cases step with
  | arrive dgram => exact .inl ⟨dgram, rfl, (Option.some.inj h).symm⟩
  | thread m =>
    have hown : m.NoCall ∧ ∃ loop, s.loop.next m = some loop ∧ { s with loop := loop } = s' := by
      cases m <;> first | cases h | 
        exact ⟨⟨fun o => ⟨nofun, nofun⟩, nofun⟩, Option.map_eq_some_iff.mp h⟩
    obtain ⟨hcall, loop, hnext, hs'⟩ := hown
    exact .inr (.inl ⟨m, loop, rfl, hcall, hnext, hs'.symm⟩)
  | consume now outcomes =>
    cases hpc : s.loop.pc with
    | dispatch rest =>
      cases rest with
      | nil => rw [Server.next, hpc] at h; cases h
      | cons ev rest =>
        rw [Server.next, hpc] at h
        obtain ⟨loop, hconsume, h⟩ := Option.bind_eq_some_iff.mp h
        refine .inr (.inr ⟨now, outcomes, loop, rfl, hconsume, ?_⟩)
        cases hcb : (s.loop.reactor.obj ev.udata).ev.cb with
        | none =>
          rw [hcb] at h
          exact .inl (Option.some.inj h).symm
        | some cb =>
          rw [hcb] at h
          obtain ⟨⟨svr, w⟩, hcallback, h⟩ := Option.bind_eq_some_iff.mp h
          obtain ⟨loop', hret, h⟩ := Option.bind_eq_some_iff.mp h
          exact .inr ⟨cb, svr, w, loop', hcallback, hret, (Option.some.inj h).symm⟩
    | _ => rw [Server.next, hpc] at h; cases h

theorem Server.next_loop {s s' : Server} {step : ServerStep} (h : s.next step = some s') :
    s'.svr.dgramEvent = s.svr.dgramEvent ∧
      ∃ moves, LoopMoves step moves ∧ loopSystem.run s.loop moves = some s'.loop := by
  obtain ⟨dgram, rfl, rfl⟩ | ⟨m, loop, rfl, hcall, hnext, rfl⟩ |
    ⟨now, outcomes, loop, rfl, hconsume, hcallback⟩ := Server.next_cases h
  · -- the reactor does not see a datagram before `kevent` reports it
    exact ⟨rfl, [], ⟨nofun, fun batch => ⟨nofun, nofun⟩⟩, rfl⟩
  · refine ⟨rfl, [m], ⟨?_, fun batch => ?_⟩, ?_⟩
    · intro m' hm'
      rw [List.mem_singleton.mp hm']
      exact hcall
    · rw [List.mem_singleton, ServerStep.thread.injEq]
      exact eq_comm
    · exact System.run_cons_eq_some.mpr ⟨loop, hnext, rfl⟩
  · have hcalls : ∀ m ∈ [Move.consume, .ret], m.NoCall := by
      intro m hm
      rcases List.mem_pair.mp hm with rfl | rfl <;> exact ⟨fun o => ⟨nofun, nofun⟩, nofun⟩
    obtain rfl | ⟨cb, svr, w, loop', hrun, hret, rfl⟩ := hcallback
    · -- the next entry follows at once
      refine ⟨rfl, [.consume], ⟨fun m hm => hcalls m ?_, fun batch => ⟨nofun, nofun⟩⟩, ?_⟩
      · rw [List.mem_singleton.mp hm]
        exact List.mem_cons_self
      · exact System.run_cons_eq_some.mpr ⟨loop, hconsume, rfl⟩
    · -- the callback makes no call and returns
      refine ⟨runCallback_dgramEvent hrun, [.consume, .ret],
        ⟨hcalls, fun batch => ⟨nofun, nofun⟩⟩, ?_⟩
      exact System.run_cons_eq_some.mpr ⟨loop, hconsume,
        System.run_cons_eq_some.mpr ⟨loop', hret, rfl⟩⟩

/-- What the moves of the steps are together. -/
theorem loopMoves_flatten {steps : List ServerStep} {runs : List (List Move)}
    (h : List.Forall₂ LoopMoves steps runs) :
    (∀ m ∈ runs.flatten, m.NoCall) ∧
      ∀ batch, .fetch batch ∈ runs.flatten ↔ .thread (.fetch batch) ∈ steps := by
  induction h with
  | nil => exact ⟨nofun, fun batch => ⟨nofun, nofun⟩⟩
  | @cons step moves steps runs hmoves hruns ih =>
    rw [List.flatten_cons]
    refine ⟨fun m hm => ?_, fun batch => ?_⟩
    · exact (List.mem_append.mp hm).elim (hmoves.1 m) (ih.1 m)
    · rw [List.mem_append, List.mem_cons, hmoves.2 batch, ih.2 batch, eq_comm]

/-- **A run of the server, seen by its reactor.** It is a run in which no thread
makes a call, and which fetches the same batches. -/
theorem Server.run_loop {s s' : Server} {steps : List ServerStep}
    (hrun : serverSystem.run s steps = some s') :
    s'.svr.dgramEvent = s.svr.dgramEvent ∧ ∃ moves, (∀ m ∈ moves, m.NoCall) ∧
      (∀ batch, .fetch batch ∈ moves ↔ .thread (.fetch batch) ∈ steps) ∧
      loopSystem.run s.loop moves = some s'.loop := by
  constructor
  · refine System.run_invariant (P := fun _ _ => True)
      (I := fun s₁ : Server => s₁.svr.dgramEvent = s.svr.dgramEvent)
      (fun s₁ step s₂ hsame _ hnext => ?_) rfl (.of_forall fun _ _ => trivial) hrun
    exact (Server.next_loop hnext).1.trans hsame
  · have hstep : ∀ (s₁ : Server) step s₂, serverSystem.next s₁ step = some s₂ →
        ∃ moves, LoopMoves step moves ∧ loopSystem.run s₁.loop moves = some s₂.loop :=
      fun s₁ step s₂ hnext => (Server.next_loop hnext).2
    obtain ⟨runs, hruns, hrun'⟩ := System.run_project hstep hrun
    obtain ⟨hcalls, hfetch⟩ := loopMoves_flatten hruns
    exact ⟨runs.flatten, hcalls, hfetch, hrun'⟩

/-! ### The datagram socket -/

theorem asynclogsvrSubmit_dgram {r : Reactor Kq} {dgram timer sig : ℕ} (ht : dgram ≠ timer)
    (hs : dgram ≠ sig) (flushInterval : ℤ) (a : InitAnswers) :
    (asynclogsvrSubmit r dgram timer sig flushInterval a).obj dgram =
      (eventSubmit kqueue (r.obj dgram) eventIn (a.submitted 0)).2 := by
  unfold asynclogsvrSubmit
  dsimp only
  rw [Reactor.setObj_obj, if_neg hs, Reactor.setObj_obj, if_neg ht, Reactor.setObj_obj, if_pos rfl,
    Reactor.setObj_obj, if_neg ht]

/-- `init` returns only when it has created the three events, and then it has submitted
them. -/
theorem asynclogsvrEvents_eq_ok {r₀ r : Reactor Kq} {flushInterval : ℤ} {a : InitAnswers}
    {dgram timer sig : ℕ} (h : asynclogsvrEvents r₀ flushInterval a = .ok (r, dgram, timer, sig)) :
    ∃ r₁ r₂ r₃,
      eventCreate kqueue r₀ a.ipcfd (some onDgramCb) 0 .sockEv (a.mem 0) (a.created 0) =
        (some dgram, r₁) ∧
      eventCreate kqueue (uniqueTimerEventId r₁).2 (uniqueTimerEventId r₁).1 (some onClockCb) 0
        .timerEv (a.mem 1) (a.created 1) = (some timer, r₂) ∧
      eventCreate kqueue r₂ sigint (some onSigintCb) 0 .sigEv (a.mem 2) (a.created 2) =
        (some sig, r₃) ∧
      asynclogsvrSubmit r₃ dgram timer sig flushInterval a = r := by
  unfold asynclogsvrEvents at h
  generalize hdgram : eventCreate kqueue r₀ a.ipcfd (some onDgramCb) 0 .sockEv (a.mem 0)
    (a.created 0) = dgramCreated at h
  obtain ⟨dgramEvent, r₁⟩ := dgramCreated
  dsimp only at h
  generalize htimer : eventCreate kqueue (uniqueTimerEventId r₁).2 (uniqueTimerEventId r₁).1
    (some onClockCb) 0 .timerEv (a.mem 1) (a.created 1) = timerCreated at h
  obtain ⟨timerEvent, r₂⟩ := timerCreated
  dsimp only at h
  generalize hsig : eventCreate kqueue r₂ sigint (some onSigintCb) 0 .sigEv (a.mem 2)
    (a.created 2) = sigCreated at h
  obtain ⟨sigEvent, r₃⟩ := sigCreated
  dsimp only at h
  cases dgramEvent with
  | none => cases h
  | some d =>
    cases timerEvent with
    | none => cases h
    | some t =>
      cases sigEvent with
      | none => cases h
      | some g =>
        obtain ⟨hr, rfl, rfl, rfl⟩ : asynclogsvrSubmit r₃ d t g flushInterval a = r ∧ d = dgram ∧
            t = timer ∧ g = sig := by simpa using Except.ok.inj h
        exact ⟨r₁, r₂, r₃, rfl, htimer, hsig, hr⟩

/-- **The events that the server starts with.** Its socket is watched, and waits for
a datagram. -/
theorem asynclogsvrEvents_spec {s : Loop} {flushInterval : ℤ} {a : InitAnswers} {r : Reactor Kq}
    {dgram timer sig : ℕ} (hempty : s.reactor.created = 0)
    (hunreleased : ∀ i ∈ s.reactor.released, i < s.reactor.created)
    (hunlisted : s.reactor.gcEvents = []) (hpending : s.pending = [])
    (hsubmitted : ∀ i, a.submitted i = none)
    (h : asynclogsvrEvents s.reactor flushInterval a = .ok (r, dgram, timer, sig)) :
    Watched { s with reactor := r } dgram ∧ (r.obj dgram).reg.enabled .read = true ∧
      (r.obj dgram).ev.evmask.has eventIn = true := by
  obtain ⟨r₁, r₂, r₃, hdgram, htimer, hsig, hr⟩ := asynclogsvrEvents_eq_ok h
  -- the socket is created first
  have hfresh : Fresh { s with reactor := r₁ } dgram :=
    fresh_of_create hdgram hunreleased hunlisted
      (fun i hi => absurd (hempty ▸ hi.1) (Nat.not_lt_zero i)) (by rw [hpending]; exact nofun)
      (by rw [hpending]; exact List.nodup_nil)
  obtain ⟨hd, -, -, -, hcreated₁, -, hlist₁⟩ := eventCreate_some hdgram
  obtain ⟨ht, -, -, hobj₂, hcreated₂, hreleased₂, hlist₂⟩ := eventCreate_some htimer
  obtain ⟨hg, -, -, hobj₃, hcreated₃, hreleased₃, hlist₃⟩ := eventCreate_some hsig
  -- the later events are others, and leave the socket's as it was created
  have hlt₁ : dgram < r₁.created := by
    rw [hcreated₁, hd]
    exact Nat.lt_succ_self _
  have hlt₂ : dgram < r₂.created := by
    rw [hcreated₂]
    exact Nat.lt_succ_of_lt hlt₁
  have hobj : r.obj dgram = (eventSubmit kqueue (r₁.obj dgram) eventIn none).2 := by
    rw [← hr, asynclogsvrSubmit_dgram (ht ▸ hlt₁.ne) (hg ▸ hlt₂.ne), hsubmitted,
      hobj₃ dgram (hg ▸ hlt₂.ne), hobj₂ dgram (ht ▸ hlt₁.ne)]
    rfl
  -- its submit is the first, and the kernel takes it
  obtain ⟨mask, hmask⟩ := eventSubmit_frame kqueue (r₁.obj dgram) eventIn none
  have hbit : ((r₁.obj dgram).ev.evmask ||| eventIn).has (maskToConsume .read) = true := by
    rw [Mask.has_or, Bool.or_eq_true]
    exact .inr rfl
  have hsubmit : eventSubmit kqueue (r₁.obj dgram) eventIn none = _ :=
    hfresh.submit_obj eventIn none
  have haccepted := kqPlatSubmit_accepted (e := { (r₁.obj dgram).ev with
    evmask := (r₁.obj dgram).ev.evmask ||| eventIn }) hfresh.sock hfresh.socket
    (List.mem_cons_self) hbit
  refine ⟨hfresh.of_obj ⟨?_, ?_⟩ ?_ ?_ ?_ ?_ hfresh.nodup, ?_, ?_⟩
  · show dgram < r.created
    rw [← hr]
    exact (Nat.lt_succ_of_lt hlt₂).trans_eq hcreated₃.symm
  · show dgram ∉ r.released
    rw [← hr]
    change dgram ∉ r₃.released
    rw [hreleased₃, hreleased₂]
    exact hfresh.held.2
  · show (r.obj dgram).ev.type = _
    rw [hobj, hmask]
  · show (r.obj dgram).ev.closing = _
    rw [hobj, hmask]
  · show (r.obj dgram).reg.Socket
    rw [hobj, hsubmit]
    exact kqPlatSubmit_socket (e := { (r₁.obj dgram).ev with
      evmask := (r₁.obj dgram).ev.evmask ||| eventIn }) hfresh.sock hfresh.socket none
  · show r.gcEvents = r₁.gcEvents
    rw [← hr]
    exact hlist₃.trans hlist₂
  · rw [hobj, hsubmit]
    exact haccepted.2
  · rw [hobj, hsubmit]
    exact hbit

/-- **When the server reads the next datagram.** In every state that it reaches, so in
those between two callbacks with no entry in the batch, the read filter of its socket
is enabled and the bit set exactly when no entry for that filter was fetched yet. -/
theorem asynclogsvr_dgramArmed {s s' : Server} {steps : List ServerStep}
    (hinit : serverSystem.init s) (hrun : serverSystem.run s steps = some s') :
    DgramArmed s' ↔ ∀ batch, .thread (.fetch batch) ∈ steps →
      (s'.svr.dgramEvent, Filter.read) ∉ batch.map Kevent.key := by
  obtain ⟨fds, timerIds, kernel, svr, dir, maxFileSize, flushInterval, a, hinit, hsubmitted⟩ :=
    hinit
  -- what the server starts with
  have hstart : Watched s.loop s.svr.dgramEvent ∧
      (s.loop.reactor.obj s.svr.dgramEvent).reg.enabled .read = true ∧
      (s.loop.reactor.obj s.svr.dgramEvent).ev.evmask.has eventIn = true ∧
      s.loop.pending = [] := by
    unfold asynclogsvrInit at hinit
    split_ifs at hinit with hlen hfd
    · split at hinit <;> cases hinit
    split at hinit
    · cases hinit
    · obtain ⟨⟨r, dgram, timer, sig⟩, hevents, hinit⟩ := Exec.bind_eq_ok.mp hinit
      obtain rfl := Except.ok.inj hinit
      obtain ⟨hwatched, hen, hbit⟩ := asynclogsvrEvents_spec (s := loopCreate fds timerIds)
        rfl nofun rfl rfl hsubmitted hevents
      exact ⟨hwatched, hen, hbit, rfl⟩
  obtain ⟨hwatched, hen, hbit, hnone⟩ := hstart
  -- the reactor's run has no call in it, so the socket is not submitted again
  obtain ⟨hsame, moves, hcalls, hfetch, hloop⟩ := Server.run_loop hrun
  have hawaiting := loop_awaiting hwatched List.mem_cons_self hen hbit hnone (.of_forall hcalls) hloop
  have hunfetched : Unfetched s.svr.dgramEvent .read moves ↔
      ∀ batch, .thread (.fetch batch) ∈ steps →
        (s.svr.dgramEvent, Filter.read) ∉ batch.map Kevent.key :=
    forall_congr' fun batch => by rw [hfetch batch]
  rw [hsame, ← hunfetched, DgramArmed, hsame]
  constructor
  · -- once it is fetched the filter is disabled
    rintro ⟨-, hen'⟩
    by_contra hfetched
    rw [hawaiting.after hfetched] at hen'
    cases hen'
  · intro hseen
    obtain ⟨hen', hbit', -⟩ := hawaiting.before hseen
    exact ⟨hbit', hen'⟩

/-- The system refuses nothing. -/
def grantAll : InitAnswers := ⟨4, 3, [49], fun _ => true, fun _ => none, fun _ => none⟩

/-- A server whose socket is the descriptor 3 and whose log is in the directory /. -/
def testServer : Exec Server :=
  asynclogsvrInit socketTable 0 ⟨fun _ => [], []⟩ ⟨⟨fun _ => none, 0, 0⟩, 0, 0, 0, 0, 0, 0, [], 0⟩
    [47] 1024 3000 grantAll

/-- The timer expires once. -/
def oneTick : List ServerStep :=
  [.thread .test, .thread (.fetch [{ udata := 1, filter := .timer }]), .consume [50] [],
    .thread .finish]

theorem asynclogsvr_dgramArmed_tick :
    ∃ s s', testServer = .ok s ∧ serverSystem.run s oneTick = some s' ∧ s'.loop.pending = [] ∧
      DgramArmed s' := by
  have hinit : ∀ s, testServer = .ok s → serverSystem.init s := fun s hs =>
    ⟨socketTable, 0, _, _, _, _, _, grantAll, hs, fun _ => rfl⟩
  have hunfetched : ∀ e batch, ServerStep.thread (.fetch batch) ∈ oneTick →
      (e, Filter.read) ∉ batch.map Kevent.key := by
    intro e batch hmem
    obtain rfl : batch = [{ udata := 1, filter := .timer }] := by simpa [oneTick] using hmem
    simp [Kevent.key]
  exact ⟨_, _, rfl, rfl, rfl, (asynclogsvr_dgramArmed (hinit _ rfl) rfl).mpr (hunfetched _)⟩

/-- One datagram is read. -/
theorem asynclogsvr_dgram_disarms :
    ¬ ∀ s s', testServer = .ok s →
      serverSystem.run s [.arrive [104, 105], .thread .test,
        .thread (.fetch [{ udata := 0, filter := .read }]), .consume [50] [],
        .thread .finish] = some s' →
      s'.loop.pending = [] → DgramArmed s' := by
  intro h
  exact absurd (h _ _ rfl rfl rfl) (by decide)

end Posixc
