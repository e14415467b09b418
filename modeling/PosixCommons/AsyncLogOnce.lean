import PosixCommons.AsyncLogExit

/-!
# One datagram

`posixc_asynclogsvr_init` submits the socket's event once, and `on_dgram` does not submit it
again. A submitted read filter is reported once. So the callback runs once at most, and it reads
one datagram: whatever arrives, all but the first stays in the socket (`asynclogsvr_reads_once`).

`Loop.budget` counts how often the callback of an event can still run: its entries in the batch,
and one more if its read filter is enabled. No step of the reactor's thread adds to it, and an
entry of the event that is consumed takes one away (`Watched.budget_step`).
-/

open Framework

namespace Posixc

/-! ### How often a callback can run -/

/-- How often the callback of the event can run, if no thread makes a call. -/
def Loop.budget (e : ℕ) (s : Loop) : ℕ :=
  s.pending.countP (fun ev => ev.udata = e) +
    if (s.reactor.obj e).reg.enabled .read = true then 1 else 0

/-- No filter of the event is enabled but the one for reading. -/
def OnlyReads (e : ℕ) (r : Reactor Kq) : Prop :=
  ∀ f, f ≠ .read → (r.obj e).reg.enabled f = false

section Budget

variable {s s' : Loop} {e : ℕ} {m : Move}

/-- A batch has one entry of the event at most, and then the filter is disabled. -/
theorem deliverAll_budget (batch : List Kevent) : ∀ r r' : Reactor Kq, (r.obj e).reg.Socket →
    OnlyReads e r → deliverAll batch r = some r' → OnlyReads e r' ∧
      batch.countP (fun ev => ev.udata = e) +
        (if (r'.obj e).reg.enabled .read = true then 1 else 0) ≤
          if (r.obj e).reg.enabled .read = true then 1 else 0 := by
  induction batch with
  | nil =>
    intro r r' _ hreads hrun
    obtain rfl := Option.some.inj hrun
    exact ⟨hreads, by simp⟩
  | cons ev batch ih =>
    intro r r' hsock hreads hrun
    obtain ⟨k, hdel, hrest⟩ := Option.bind_eq_some_iff.mp hrun
    by_cases hudata : ev.udata = e
    · -- an entry of the event is for the filter that was enabled, and disables it
      subst hudata
      have hen := deliver_enabled hdel
      have hread : ev.filter = .read := by
        by_contra hne
        rw [hreads _ hne] at hen
        cases hen
      rw [hread] at hdel hen
      obtain ⟨hsock', hdis⟩ := deliver_socket hsock (by decide) hdel
      have hobj : ((r.setObj ev.udata { r.obj ev.udata with reg := k }).obj ev.udata).reg = k := by
        rw [Reactor.setObj_obj, if_pos rfl]
      have hreads₁ : OnlyReads ev.udata (r.setObj ev.udata { r.obj ev.udata with reg := k }) := by
        intro f hf
        rw [hobj, Kq.enabled, deliver_of_ne hdel hf]
        exact hreads f hf
      obtain ⟨hreads', hcount⟩ := ih _ r' (by rwa [hobj]) hreads₁ hrest
      rw [hobj, hdis, if_neg Bool.false_ne_true] at hcount
      refine ⟨hreads', ?_⟩
      rw [List.countP_cons_of_pos (by simp), hen, if_pos rfl]
      omega
    · -- an entry of another event
      have hobj : (r.setObj ev.udata { r.obj ev.udata with reg := k }).obj e = r.obj e := by
        rw [Reactor.setObj_obj, if_neg (Ne.symm hudata)]
      obtain ⟨hreads', hcount⟩ := ih _ r' (by rwa [hobj])
        (fun f hf => by rw [hobj]; exact hreads f hf) hrest
      rw [hobj] at hcount
      exact ⟨hreads', by rwa [List.countP_cons_of_neg (by simpa using hudata)]⟩

/-- **One step of the reactor's thread.** It adds nothing to the budget, and an entry of the
event that is consumed takes one away. -/
theorem Watched.budget_step (h : Watched s e) (hreads : OnlyReads e s.reactor) (hcall : m.NoCall)
    (hnext : loopSystem.next s m = some s') :
    Watched s' e ∧ OnlyReads e s'.reactor ∧ s'.budget e ≤ s.budget e ∧
      ∀ ev rest, m = .consume → s.pc = .dispatch (ev :: rest) → ev.udata = e →
        s'.budget e + 1 ≤ s.budget e := by
  obtain ⟨hwatched, heff⟩ := h.step hcall.onlySubmits hnext
  refine ⟨hwatched, ?_⟩
  cases heff with
  | none hm hfetch hobj hpending =>
    -- a step that is of no effect on the event
    refine ⟨fun f hf => by rw [hobj]; exact hreads f hf, ?_, fun ev rest hm' => absurd hm' hm⟩
    rw [Loop.budget, Loop.budget, hobj, hpending]
  | submit hm hobj hpending => exact absurd hm hcall.not_submits
  | @fetch batch _ hnone hpending hev hfilters =>
    -- a batch was empty before, so its entries are all that is new
    have hsteps : s.Steps (.fetch batch) s' := Loop.steps_of_next hnext
    obtain ⟨-, -, r, hr, rfl⟩ := hsteps
    obtain ⟨hreads', hcount⟩ := deliverAll_budget batch _ r h.socket hreads hr
    refine ⟨hreads', ?_, fun ev rest hm => by cases hm⟩
    rw [Loop.budget, Loop.budget, hnone, hpending, List.countP_nil, Nat.zero_add]
    exact hcount
  | @consume _ ev hpc hreg hev =>
    -- the entry that is consumed leaves the batch
    have hpending : s.pending = ev :: s'.pending := by rw [Loop.pending, hpc]
    have hcons : (ev :: s'.pending).countP (fun ev => ev.udata = e) =
        s'.pending.countP (fun ev => ev.udata = e) + if ev.udata = e then 1 else 0 := by
      rw [List.countP_cons]
      simp only [decide_eq_true_eq]
    refine ⟨fun f hf => by rw [hreg]; exact hreads f hf, ?_, fun ev' rest _ hpc' hudata => ?_⟩
    all_goals rw [Loop.budget, Loop.budget, hreg, hpending, hcons]
    · omega
    · obtain ⟨rfl, -⟩ := List.cons.inj (Pc.dispatch.inj (hpc.symm.trans hpc'))
      rw [if_pos hudata]
      omega

end Budget

/-! ### The server -/

/-- What the server has read: nothing, while the callback of the socket may run once, or at most
the first datagram, once it has run. -/
structure ReadsOnce (dgrams : List (List UInt8)) (s : Server) : Prop where
  watched : Watched s.loop s.svr.dgramEvent
  reads : OnlyReads s.svr.dgramEvent s.loop.reactor
  others : ∀ i, i ≠ s.svr.dgramEvent → (s.loop.reactor.obj i).ev.cb ≠ some onDgramCb
  serving : Serving s
  queue : s.surroundings.queue = dgrams ∧ s.loop.budget s.svr.dgramEvent ≤ 1 ∨
    dgrams ≠ [] ∧ s.surroundings.queue = dgrams.tail ∧ s.loop.budget s.svr.dgramEvent = 0

section Server

variable {s s' : Server} {dgrams : List (List UInt8)} {step : ServerStep}

/-- The callback of the socket takes the first datagram, another none. -/
theorem runCallback_queue {cb : ℕ} {now : List UInt8} {svr svr' : AsyncLogSvr}
    {w w' : Surroundings} (h : runCallback cb now svr w = some (svr', w')) :
    w'.queue = if cb = onDgramCb then w.queue.tail else w.queue := by
  have hflush : ∀ {svr svr' : AsyncLogSvr} {w w' : Surroundings},
      asynclogsvrFlush svr w = .ok (svr', w') → w'.queue = w.queue := by
    intro svr svr' w w' h
    obtain ⟨⟨ok, bw, kernel⟩, -, h⟩ := Exec.bind_eq_ok.mp h
    obtain ⟨-, rfl⟩ := Prod.mk.inj (Except.ok.inj h)
    rfl
  have hok : ∀ x : Exec (AsyncLogSvr × Surroundings), x.toOption = some (svr', w') →
      x = .ok (svr', w') := by
    rintro (_ | p) hx
    · cases hx
    · exact congrArg Except.ok (Option.some.inj hx)
  unfold runCallback at h
  split_ifs at h ⊢ with hdgram hclock
  · have hrun := hok _ h
    unfold onDgram at hrun
    cases hqueue : w.queue with
    | nil =>
      rw [hqueue] at hrun
      obtain ⟨-, rfl⟩ := Prod.mk.inj (Except.ok.inj hrun)
      exact hqueue
    | cons dgram queue =>
      rw [hqueue] at hrun
      dsimp only at hrun
      split_ifs at hrun
      · -- the file is rolled, and the flush reads nothing
        obtain ⟨⟨ok, bw, kernel⟩, -, hrun⟩ := Exec.bind_eq_ok.mp hrun
        obtain ⟨⟨svr₁, w₁⟩, hroll, hrun⟩ := Exec.bind_eq_ok.mp hrun
        obtain ⟨-, rfl⟩ := Prod.mk.inj (Except.ok.inj hrun)
        exact hflush hroll
      · obtain ⟨⟨ok, bw, kernel⟩, -, hrun⟩ := Exec.bind_eq_ok.mp hrun
        obtain ⟨-, rfl⟩ := Prod.mk.inj (Except.ok.inj hrun)
        rfl
      · obtain ⟨-, rfl⟩ := Prod.mk.inj (Except.ok.inj hrun)
        rfl
  · exact hflush (hok _ h)

/-- What `consume_ev` does with the next entry. -/
theorem Server.next_consume {now : List UInt8} {outcomes : List WriteOutcome}
    (h : s.next (.consume now outcomes) = some s') :
    ∃ ev rest loop, s.loop.pc = .dispatch (ev :: rest) ∧ s.loop.next .consume = some loop ∧
      (s' = { s with loop := loop } ∨ ∃ cb svr w loop',
        (s.loop.reactor.obj ev.udata).ev.cb = some cb ∧
        runCallback cb now s.svr (s.surroundings.answer outcomes) = some (svr, w) ∧
        loop.next .ret = some loop' ∧ s' = ⟨loop', svr, w⟩) := by
  unfold Server.next at h
  dsimp only at h
  split at h
  · next ev rest hpc =>
    obtain ⟨loop, hconsume, h⟩ := Option.bind_eq_some_iff.mp h
    refine ⟨ev, rest, loop, hpc, hconsume, ?_⟩
    cases hcb : (s.loop.reactor.obj ev.udata).ev.cb with
    | none =>
      rw [hcb] at h
      exact .inl (Option.some.inj h).symm
    | some cb =>
      rw [hcb] at h
      obtain ⟨⟨svr, w⟩, hcallback, h⟩ := Option.bind_eq_some_iff.mp h
      obtain ⟨loop', hret, h⟩ := Option.bind_eq_some_iff.mp h
      exact .inr ⟨cb, svr, w, loop', rfl, hcallback, hret, (Option.some.inj h).symm⟩
  · cases h

/-- **One step of the server.** -/
theorem ReadsOnce.next (h : ReadsOnce dgrams s) (hnext : s.next step = some s') :
    ReadsOnce (dgrams ++ arrived [step]) s' := by
  have hserving := h.serving.next hnext
  -- a step of the loop leaves the budget or takes from it
  have hloop : ∀ {m : Move} {loop : Loop}, m.NoCall → s.loop.next m = some loop →
      loop.reactor.gcEvents = [] ∧
      (∀ i, (loop.reactor.obj i).ev.cb = (s.loop.reactor.obj i).ev.cb) ∧
      Watched loop s.svr.dgramEvent ∧ OnlyReads s.svr.dgramEvent loop.reactor ∧
      loop.budget s.svr.dgramEvent ≤ s.loop.budget s.svr.dgramEvent := by
    intro m loop hcall hm
    obtain ⟨-, -, hlist, hcb, -⟩ := Loop.next_frame hcall h.serving.gcEvents hm
    obtain ⟨hwatched, hreads, hle, -⟩ := h.watched.budget_step h.reads hcall hm
    exact ⟨hlist, hcb, hwatched, hreads, hle⟩
  have hown : ∀ m, m = Move.consume ∨ m = .ret → m.NoCall := by
    rintro m (rfl | rfl) <;> exact ⟨fun o => ⟨nofun, nofun⟩, nofun⟩
  -- the callbacks are those of the start
  have hkept : ∀ {loop : Loop}, (∀ i, (loop.reactor.obj i).ev.cb = (s.loop.reactor.obj i).ev.cb) →
      ∀ i, i ≠ s.svr.dgramEvent → (loop.reactor.obj i).ev.cb ≠ some onDgramCb :=
    fun hcb i hi => by rw [hcb]; exact h.others i hi
  -- a budget that is not larger says the same of the queue
  have hqueue : ∀ {n}, n ≤ s.loop.budget s.svr.dgramEvent →
      (s.surroundings.queue = dgrams ∧ n ≤ 1 ∨
        dgrams ≠ [] ∧ s.surroundings.queue = dgrams.tail ∧ n = 0) := by
    intro n hn
    rcases h.queue with ⟨hq, hle⟩ | ⟨hne, hq, hzero⟩
    · exact .inl ⟨hq, hn.trans hle⟩
    · exact .inr ⟨hne, hq, Nat.eq_zero_of_le_zero (hzero ▸ hn)⟩
  cases step with
  | arrive dgram =>
    obtain rfl := Option.some.inj hnext
    refine ⟨h.watched, h.reads, h.others, hserving, ?_⟩
    rcases h.queue with ⟨hq, hle⟩ | ⟨hne, hq, hzero⟩
    · exact .inl ⟨congrArg (· ++ [dgram]) hq, hle⟩
    · -- what was taken is the first datagram still
      refine .inr ⟨List.append_ne_nil_of_left_ne_nil hne _, ?_, hzero⟩
      rw [List.tail_append_of_ne_nil hne]
      exact congrArg (· ++ [dgram]) hq
  | thread m =>
    obtain ⟨dgram, hstep, -⟩ | ⟨m', loop, hstep, hcall, hm, rfl⟩ |
      ⟨now, outcomes, loop, hstep, -⟩ := Server.next_cases hnext
    · cases hstep
    · cases hstep
      obtain ⟨-, hcb, hwatched, hreads, hle⟩ := hloop hcall hm
      rw [show arrived [ServerStep.thread m] = [] from rfl, List.append_nil]
      exact ⟨hwatched, hreads, hkept hcb, hserving, hqueue hle⟩
    · cases hstep
  | consume now outcomes =>
    rw [show arrived [ServerStep.consume now outcomes] = [] from rfl, List.append_nil]
    obtain ⟨ev, rest, loop, hpc, hconsume, rfl | ⟨cb, svr, w, loop', hcb', hrun, hret, rfl⟩⟩ :=
      Server.next_consume hnext
    · -- the event has no callback
      obtain ⟨-, hcb, hwatched, hreads, hle⟩ := hloop (hown _ (.inl rfl)) hconsume
      exact ⟨hwatched, hreads, hkept hcb, hserving, hqueue hle⟩
    · obtain ⟨hlist, hcb, hwatched, hreads, hle⟩ := hloop (hown _ (.inl rfl)) hconsume
      obtain ⟨hwatched', hreads', hle', -⟩ := hwatched.budget_step hreads (hown _ (.inr rfl)) hret
      obtain ⟨-, -, -, hcb₂, -⟩ := Loop.next_frame (hown _ (.inr rfl)) hlist hret
      obtain ⟨bw, n, name, rfl⟩ := runCallback_frame hrun
      refine ⟨hwatched', hreads', hkept fun i => (hcb₂ i).trans (hcb i), hserving, ?_⟩
      have hw := runCallback_queue hrun
      by_cases hdgram : cb = onDgramCb
      · -- the entry was one of the socket's, and there is no other now
        rw [if_pos hdgram] at hw
        have hudata : ev.udata = s.svr.dgramEvent := by
          by_contra hne
          exact h.others _ hne (hdgram ▸ hcb')
        obtain ⟨-, -, -, hless⟩ := h.watched.budget_step h.reads (hown _ (.inl rfl)) hconsume
        have hspent := hless ev rest rfl hpc hudata
        rcases h.queue with ⟨hq, hone⟩ | ⟨-, -, hzero⟩
        · have hq' : w.queue = dgrams.tail := by
            rw [hw]
            exact congrArg List.tail hq
          -- the socket was empty, and the callback read nothing
          by_cases hne : dgrams = []
          · refine .inl ⟨?_, ?_⟩
            · rw [hne] at hq' ⊢
              exact hq'
            · dsimp only
              omega
          · -- the first datagram was read, and the callback does not run again
            refine .inr ⟨hne, hq', ?_⟩
            dsimp only
            omega
        · -- the callback has run already, so its event has no entry in the batch
          omega
      · -- another callback reads nothing
        rw [if_neg hdgram] at hw
        have hq : w.queue = s.surroundings.queue := hw
        rw [show (⟨loop', _, w⟩ : Server).surroundings.queue = _ from hq]
        exact hqueue (hle'.trans hle)

/-! ### The start -/

/-- The socket's event when it was created and submitted, and the callbacks of the others. -/
theorem asynclogsvrEvents_reads {fds : FdTable} {timerIds : ℕ} {flushInterval : ℤ}
    {a : InitAnswers} {r : Reactor Kq} {dgram timer sig : ℕ}
    (hsubmitted : ∀ i, a.submitted i = none)
    (h : asynclogsvrEvents (loopCreate fds timerIds).reactor flushInterval a =
      .ok (r, dgram, timer, sig)) :
    OnlyReads dgram r ∧ ∀ i, i ≠ dgram → (r.obj i).ev.cb ≠ some onDgramCb := by
  obtain ⟨⟨hd, ht, hg⟩, -, -, -, hclock, hsigint, -, -⟩ := asynclogsvrEvents_steady hsubmitted h
  obtain ⟨r₁, r₂, r₃, hdgram, htimer, hsig, hr⟩ := asynclogsvrEvents_eq_ok h
  have hfresh : Fresh { loopCreate fds timerIds with reactor := r₁ } dgram :=
    fresh_of_create hdgram nofun rfl
      (fun i hi => absurd hi.1 (Nat.not_lt_zero i)) nofun List.nodup_nil
  obtain ⟨-, -, -, hobj₁, -, -, -⟩ := eventCreate_some hdgram
  obtain ⟨-, -, -, hobj₂, -, -, -⟩ := eventCreate_some htimer
  obtain ⟨-, -, -, hobj₃, -, -, -⟩ := eventCreate_some hsig
  constructor
  · intro f hf
    -- of the three submits only the first is of the socket's event
    have hobj : (r.obj dgram).reg = (eventSubmit kqueue (r₁.obj dgram) eventIn none).2.reg := by
      rw [← hr, asynclogsvrSubmit_dgram (by omega) (by omega), hsubmitted, hobj₃ dgram (by omega),
        hobj₂ dgram (by omega)]
      rfl
    have hquiet : (r₁.obj dgram).reg.enabled f = false := hfresh.quiet f
    have hsubmit : eventSubmit kqueue (r₁.obj dgram) eventIn none = _ :=
      hfresh.submit_obj eventIn none
    have hmask : (r₁.obj dgram).ev.evmask = 0 := hfresh.mask
    rw [hobj, hsubmit]
    dsimp only
    rcases kqPlatSubmit_sock (e := { (r₁.obj dgram).ev with
      evmask := (r₁.obj dgram).ev.evmask ||| eventIn }) hfresh.sock hfresh.socket none (f := f) with
      hsame | ⟨hsock, hbit, -⟩
    · rw [Kq.enabled, hsame]
      exact hquiet
    · -- the mask has the bit for reading and no other
      have hbit' : ((r₁.obj dgram).ev.evmask ||| eventIn).has (maskToConsume f) = true := hbit
      rw [hmask] at hbit'
      rcases List.mem_pair.mp hsock with rfl | rfl
      · exact absurd rfl hf
      · exact absurd hbit' (by decide)
  · intro i hi hcb
    by_cases hit : i = timer
    · rw [hit, hclock] at hcb
      exact absurd (Option.some.inj hcb) (by decide)
    by_cases hig : i = sig
    · rw [hig, hsigint] at hcb
      exact absurd (Option.some.inj hcb) (by decide)
    -- an event that was not created has no callback
    have hobj : r.obj i = (loopCreate fds timerIds).reactor.obj i := by
      rw [← hr]
      unfold asynclogsvrSubmit
      dsimp only
      rw [Reactor.setObj_obj, if_neg hig, Reactor.setObj_obj, if_neg hit, Reactor.setObj_obj,
        if_neg hi, Reactor.setObj_obj, if_neg hit, hobj₃ i hig, hobj₂ i hit]
      exact hobj₁ i hi
    rw [hobj] at hcb
    cases hcb

theorem init_readsOnce (hinit : serverSystem.init s) : ReadsOnce [] s := by
  have hserving := init_serving hinit
  obtain ⟨fds, timerIds, kernel, svr, dir, maxFileSize, flushInterval, a, hinit, hsubmitted⟩ :=
    hinit
  unfold asynclogsvrInit at hinit
  split_ifs at hinit with hlen hfd
  · split at hinit <;> cases hinit
  split at hinit
  · cases hinit
  · obtain ⟨⟨r, dgram, timer, sig⟩, hevents, hinit⟩ := Exec.bind_eq_ok.mp hinit
    obtain rfl := Except.ok.inj hinit
    obtain ⟨hreads, hothers⟩ := asynclogsvrEvents_reads hsubmitted hevents
    obtain ⟨hwatched, -, -⟩ := asynclogsvrEvents_spec (s := loopCreate fds timerIds) rfl nofun rfl
      rfl hsubmitted hevents
    refine ⟨hwatched, hreads, hothers, hserving, .inl ⟨rfl, ?_⟩⟩
    -- no entry is in a batch
    show 0 + (if _ then 1 else 0) ≤ 1
    split_ifs <;> decide

end Server

/-- **The server reads one datagram.** Whatever arrives and however often, at most the first
datagram is taken from the socket. When no write fails, the file and the buffer are empty or have
the first page of that datagram, and nothing else ever. -/
theorem asynclogsvr_reads_once {s s' : Server} {steps : List ServerStep}
    (hinit : serverSystem.init s) (hrun : serverSystem.run s steps = some s') :
    (s'.surroundings.queue = arrived steps ∨ s'.surroundings.queue = (arrived steps).tail) ∧
    ((∀ step ∈ steps, step.Succeeds) → ∃ buffered,
      s'.svr.bufferedWritefile.buf.readMany 0 s'.svr.bufferedWritefile.pos = .ok buffered ∧
      (s'.surroundings.kernel.file s'.svr.bufferedWritefile.fd ++ buffered = [] ∨
        s'.surroundings.kernel.file s'.svr.bufferedWritefile.fd ++ buffered =
          ((arrived steps).headD []).take onePage)) := by
  have hend : ReadsOnce (arrived steps) s' := by
    refine System.run_history (P := fun _ _ => True)
      (I := fun steps s' => ReadsOnce (arrived steps) s') (fun seen s step s' h _ hnext => ?_)
      (init_readsOnce hinit) (.of_forall fun _ _ => trivial) hrun
    rw [arrived, List.filterMap_append]
    exact h.next hnext
  have hqueue : s'.surroundings.queue = arrived steps ∨
      s'.surroundings.queue = (arrived steps).tail :=
    hend.queue.imp And.left fun h => h.2.1
  refine ⟨hqueue, fun hsucceed => ?_⟩
  obtain ⟨w, got, ⟨hsvr, hsur, -⟩, hkeeps, hgot⟩ := run_logged hinit hsucceed hrun
  obtain ⟨-, out, buffered, hfile, hbuf, hpos, rfl⟩ := hkeeps.holding
  rw [hsvr] at hfile hbuf hpos
  rw [hsur] at hfile
  -- what was got is what is not in the socket any more
  refine ⟨buffered, ?_, ?_⟩
  · rw [hpos, Region.readMany_of_holds hbuf 0 _ (Nat.zero_add _).le, List.drop_zero,
      List.take_length]
  · have hout : s'.surroundings.kernel.file s'.svr.bufferedWritefile.fd = out := by
      rw [hfile]
      rfl
    rw [hout]
    rcases hqueue with hq | hq
    · rw [hq] at hgot
      exact .inl (List.append_left_eq_self.mp hgot)
    · rw [hq] at hgot
      refine .inr (List.append_cancel_right (hgot.trans ?_))
      cases arrived steps with
      | nil => rfl
      | cons dgram rest => rfl

/-- The second of two datagrams stays in the socket. -/
theorem asynclogsvr_reads_once_two : ∃ s s', serverSystem.init s ∧
    serverSystem.run s [.arrive [104], .arrive [105], .thread .test,
      .thread (.fetch [⟨0, .read, false⟩]), .consume [50] []] = some s' ∧
    (s'.surroundings.queue = [[104], [105]] ∨ s'.surroundings.queue = [[105]]) := by
  have hreads : ∀ s s', serverSystem.init s → serverSystem.run s [.arrive [104], .arrive [105],
      .thread .test, .thread (.fetch [⟨0, .read, false⟩]), .consume [50] []] = some s' →
      (s'.surroundings.queue = [[104], [105]] ∨ s'.surroundings.queue = [[105]]) :=
    fun s s' hinit hrun => (asynclogsvr_reads_once hinit hrun).1
  obtain ⟨s, hs⟩ : ∃ s, testServer = .ok s := ⟨_, rfl⟩
  have hinit : serverSystem.init s := ⟨socketTable, 0, _, _, _, _, _, grantAll, hs, fun _ => rfl⟩
  cases hs
  exact ⟨_, _, hinit, rfl, hreads _ _ hinit rfl⟩

end Posixc
