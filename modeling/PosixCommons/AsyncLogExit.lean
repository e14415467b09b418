import PosixCommons.AsyncLogRoll

/-!
# The end of the async log server

`on_sigint` and `posixc_asynclogsvr_destroy`. The signal's callback flushes, releases the three
events and the reactor on the reactor's own thread, and ends the process. `pthread_join` fails
there at once, since the thread would wait for itself.

The submit of a signal or of a periodic timer does not ask for `EV_DISPATCH`. Their filters are
`Steady`: the kernel can report them again and again without another submit, unlike the socket's.
So a server that waits in `kevent` can always be interrupted, and then it loses nothing of what
it has read (`asynclogsvr_interrupted`), and its buffer is always written out at the next tick
(`asynclogsvr_ticks`).
-/

open Framework

namespace Posixc

/-- `posixc_asynclogsvr_destroy`, on the reactor's thread. -/
def asynclogsvrDestroy (svr : AsyncLogSvr) (r : Reactor Kq) : Option (Reactor Kq) := do
  let r ← eventDestroy kqueue true false r svr.timerEvent
  let r ← eventDestroy kqueue true false r svr.dgramEvent
  let r ← eventDestroy kqueue true false r svr.sigintEvent
  -- `posixc_reactor_destroy`
  let r ← reactorGc kqueue true r
  return { r with closing := true }

/-- What is left when the process ends: the files, the datagrams that were not read, and what
became of the reactor. -/
structure Exit where
  surroundings : Surroundings
  reactor : Reactor Kq

/-- `on_sigint`, up to its `exit`. -/
def onSigint (svr : AsyncLogSvr) (w : Surroundings) (r : Reactor Kq) : Exec (Option Exit) := do
  let (svr, w) ← asynclogsvrFlush svr w
  return (asynclogsvrDestroy svr r).map fun r => ⟨w, r⟩

/-- The surroundings with the outcomes of the next writes. -/
def Surroundings.answer (w : Surroundings) (outcomes : List WriteOutcome) : Surroundings :=
  { w with kernel := { w.kernel with outcomes := outcomes } }

/-- `consume_ev` on the next entry, when it is the signal's. -/
def Server.exit (s : Server) (outcomes : List WriteOutcome) : Option Exit :=
  match s.loop.pc with
  | .dispatch (ev :: _) =>
    if (s.loop.reactor.obj ev.udata).ev.cb = some onSigintCb then do
      let loop ← s.loop.next .consume
      -- `exit` is called when the callback is done, so no `ret` follows
      let x ← (onSigint s.svr (s.surroundings.answer outcomes) loop.reactor).toOption
      x
    else none
  | _ => none

/-- No write of the step fails. -/
def ServerStep.Succeeds : ServerStep → Prop
  | .consume _ outcomes => .error ∉ outcomes
  | .arrive _ | .thread _ => True

/-- The datagrams that arrive in the steps. -/
def arrived (steps : List ServerStep) : List (List UInt8) :=
  steps.filterMap fun
    | .arrive dgram => some dgram
    | _ => none

/-! ### Filters that stay enabled -/

/-- The filter is registered, enabled, and stays so when it is reported. -/
def Kq.Steady (k : Kq) (f : Filter) : Prop :=
  ∃ kn, k f = some kn ∧ kn.enabled = true ∧ kn.dispatch = false ∧ kn.oneshot = false

section Steady

variable {k k' : Kq} {f f' : Filter} {r r' : Reactor Kq} {e : ℕ}

theorem Kq.Steady.deliver (h : k.Steady f) (hdel : deliver k f' = some k') : k'.Steady f := by
  obtain ⟨kn, hkn, hen, hdis, hone⟩ := h
  -- the report of the filter itself, and of another
  by_cases hf : f = f'
  · subst hf
    rw [Posixc.deliver, hkn] at hdel
    dsimp only at hdel
    rw [if_pos hen, hone, hdis, if_neg Bool.false_ne_true] at hdel
    obtain rfl := Option.some.inj hdel
    exact ⟨_, Function.update_self _ _ _, rfl, rfl, rfl⟩
  · exact ⟨kn, (deliver_of_ne hdel hf).trans hkn, hen, hdis, hone⟩

theorem Kq.Steady.deliverable (h : k.Steady f) : ∃ k', Posixc.deliver k f = some k' := by
  obtain ⟨kn, hkn, hen, -⟩ := h
  rw [Posixc.deliver, hkn]
  dsimp only
  rw [if_pos hen]
  exact ⟨_, rfl⟩

/-- No batch changes what is steady. -/
theorem deliverAll_steady (batch : List Kevent) : ∀ r r' : Reactor Kq,
    (r.obj e).reg.Steady f → deliverAll batch r = some r' → (r'.obj e).reg.Steady f := by
  induction batch with
  | nil =>
    intro r r' h hrun
    obtain rfl := Option.some.inj hrun
    exact h
  | cons ev batch ih =>
    intro r r' h hrun
    obtain ⟨k, hdel, hrest⟩ := Option.bind_eq_some_iff.mp hrun
    refine ih _ r' ?_ hrest
    rw [Reactor.setObj_obj]
    split_ifs with heq
    · rw [heq] at h
      exact h.deliver hdel
    · exact h

/-- What a timer or a signal has registered when it was created. -/
theorem kqPlatCreate_one {ev : Event} {verdict : Verdict} (c : Change)
    (hc : createChanges ev = some [c]) (hflags : c.flags = evNewlyAdd)
    (hok : (kqPlatCreate ev kqueue.unregistered verdict).1 = true) :
    (kqPlatCreate ev kqueue.unregistered verdict).2 c.filter =
      some ⟨false, false, false, c.data⟩ := by
  rw [kqPlatCreate, hc] at hok ⊢
  dsimp only at hok ⊢
  have happly : applyChange c (kqueue.unregistered c.filter) =
      some (some ⟨false, false, false, c.data⟩) := applyChange_newlyAdd hflags
  rw [keventSet] at hok ⊢
  split_ifs at hok ⊢
  rw [happly] at hok ⊢
  exact Function.update_self _ _ _

/-- The submit of a filter without `EV_DISPATCH` and `EV_ONESHOT`. -/
theorem eventSubmit_steady {o : Obj Kq} {evmask : Mask} {c : Change} {data : ℕ}
    (hclosing : o.ev.closing = false)
    (hc : submitChanges { o.ev with evmask := o.ev.evmask ||| evmask } = [c])
    (hflags : c.flags = { enable := true })
    (hreg : o.reg c.filter = some ⟨false, false, false, data⟩) :
    (eventSubmit kqueue o evmask none).2.reg.Steady c.filter := by
  -- the change modifies the filter, and leaves its flags as they were registered
  have happly : applyChange c (o.reg c.filter) = some (some ⟨true, false, false, c.data⟩) := by
    rw [hreg]
    simp [applyChange, Knote.modify, hflags]
  refine ⟨⟨true, false, false, c.data⟩, ?_, rfl, rfl, rfl⟩
  have hset : keventSet none [c] o.reg =
      (true, Function.update o.reg c.filter (some ⟨true, false, false, c.data⟩)) := by
    rw [keventSet, happly]
    rfl
  have hsubmit : (eventSubmit kqueue o evmask none).2.reg =
      (kqPlatSubmit { o.ev with evmask := o.ev.evmask ||| evmask } o.reg none).2 := by
    rw [eventSubmit, if_neg (by simp [hclosing])]
    rfl
  rw [hsubmit, kqPlatSubmit, hc, if_neg (List.cons_ne_nil _ _), hset]
  exact Function.update_self _ _ _

end Steady

/-! ### The reactor of a server that runs -/

/-- A step of the reactor's thread that makes no call, when nothing waits to be collected. -/
theorem Loop.next_frame {s s' : Loop} {m : Move} (hcall : m.NoCall)
    (hlist : s.reactor.gcEvents = []) (h : s.next m = some s') :
    s'.reactor.created = s.reactor.created ∧ s'.reactor.released = s.reactor.released ∧
      s'.reactor.gcEvents = [] ∧
      (∀ i, (s'.reactor.obj i).ev.cb = (s.reactor.obj i).ev.cb) ∧
      ∀ i f, (s.reactor.obj i).reg.Steady f → (s'.reactor.obj i).reg.Steady f := by
  -- a collection of nothing
  have hgc : ∀ isReactor, reactorGc kqueue isReactor s.reactor = some s.reactor := fun _ => by
    rw [reactorGc, hlist]
    rfl
  have hsteps := Loop.steps_of_next h
  cases m with
  | user o => exact absurd rfl (hcall.1 o).1
  | userGo i => exact absurd rfl (hcall.2 i)
  | callback o => exact absurd rfl (hcall.1 o).2
  | ret =>
    obtain ⟨rest, -, rfl⟩ := hsteps
    exact ⟨rfl, rfl, hlist, fun _ => rfl, fun _ _ h => h⟩
  | test =>
    obtain ⟨-, ⟨-, r, hr, rfl⟩ | ⟨-, rfl⟩⟩ := hsteps
    · obtain rfl := Option.some.inj ((hgc true).symm.trans hr)
      exact ⟨rfl, rfl, hlist, fun _ => rfl, fun _ _ h => h⟩
    · exact ⟨rfl, rfl, hlist, fun _ => rfl, fun _ _ h => h⟩
  | fetch batch =>
    obtain ⟨-, -, r, hr, rfl⟩ := hsteps
    obtain ⟨hcreated, hgcEvents, hreleased, -, hev⟩ := deliverAll_frame batch _ r hr
    exact ⟨hcreated, hreleased, hgcEvents.trans hlist, fun i => by rw [hev],
      fun i f h => deliverAll_steady batch _ r h hr⟩
  | badf =>
    obtain ⟨-, rfl⟩ := hsteps
    exact ⟨rfl, rfl, hlist, fun _ => rfl, fun _ _ h => h⟩
  | consume =>
    obtain ⟨ev, rest, -, rfl⟩ := hsteps
    -- an entry sets a bit of its event, and nothing of what is registered
    have hobj : ∀ i, ((consumeEv s.reactor ev).2.obj i).ev.cb = (s.reactor.obj i).ev.cb ∧
        ((consumeEv s.reactor ev).2.obj i).reg = (s.reactor.obj i).reg := by
      intro i
      rw [consumeEv]
      dsimp only
      rw [Reactor.setObj_obj]
      split_ifs with heq
      · rw [heq]
        exact ⟨rfl, rfl⟩
      · exact ⟨rfl, rfl⟩
    refine ⟨rfl, rfl, hlist, fun i => (hobj i).1, fun i f h => ?_⟩
    dsimp only
    rw [(hobj i).2]
    exact h
  | finish =>
    obtain ⟨-, r, hr | rfl, rfl⟩ := hsteps
    · obtain rfl := Option.some.inj ((hgc true).symm.trans hr)
      exact ⟨rfl, rfl, hlist, fun _ => rfl, fun _ _ h => h⟩
    · exact ⟨rfl, rfl, hlist, fun _ => rfl, fun _ _ h => h⟩
  | destroyGc =>
    obtain ⟨-, r, hr, rfl⟩ := hsteps
    obtain rfl := Option.some.inj ((hgc false).symm.trans hr)
    exact ⟨rfl, rfl, hlist, fun _ => rfl, fun _ _ h => h⟩
  | destroyClose =>
    obtain ⟨-, rfl⟩ := hsteps
    exact ⟨rfl, rfl, hlist, fun _ => rfl, fun _ _ h => h⟩
  | destroyJoin =>
    obtain ⟨b, -, -, rfl⟩ := hsteps
    exact ⟨rfl, rfl, hlist, fun _ => rfl, fun _ _ h => h⟩

/-- What a callback may change of the server. -/
theorem runCallback_frame {cb : ℕ} {now : List UInt8} {svr svr' : AsyncLogSvr}
    {w w' : Surroundings} (h : runCallback cb now svr w = some (svr', w')) :
    ∃ bw n name, svr' = { svr with
      bufferedWritefile := bw, bytesWritten := n, filename := name } := by
  -- a flush changes the writable alone
  have hflush : ∀ {svr svr' : AsyncLogSvr} {w w' : Surroundings},
      asynclogsvrFlush svr w = .ok (svr', w') →
        ∃ bw, svr' = { svr with bufferedWritefile := bw } := by
    intro svr svr' w w' h
    obtain ⟨⟨ok, bw, kernel⟩, -, h⟩ := Exec.bind_eq_ok.mp h
    obtain ⟨rfl, -⟩ := Prod.mk.inj (Except.ok.inj h)
    exact ⟨bw, rfl⟩
  rcases runCallback_eq_some h with h | h
  · unfold onDgram at h
    split at h
    · obtain ⟨rfl, -⟩ := Prod.mk.inj (Except.ok.inj h)
      exact ⟨_, _, _, rfl⟩
    · dsimp only at h
      split_ifs at h
      · obtain ⟨⟨ok, bw, kernel⟩, -, h⟩ := Exec.bind_eq_ok.mp h
        obtain ⟨⟨svr₁, w₁⟩, hrun, h⟩ := Exec.bind_eq_ok.mp h
        obtain ⟨bw', rfl⟩ := hflush hrun
        obtain ⟨rfl, -⟩ := Prod.mk.inj (Except.ok.inj h)
        exact ⟨_, _, _, rfl⟩
      · obtain ⟨⟨ok, bw, kernel⟩, -, h⟩ := Exec.bind_eq_ok.mp h
        obtain ⟨rfl, -⟩ := Prod.mk.inj (Except.ok.inj h)
        exact ⟨_, _, _, rfl⟩
      · obtain ⟨rfl, -⟩ := Prod.mk.inj (Except.ok.inj h)
        exact ⟨_, _, _, rfl⟩
  · obtain ⟨bw, rfl⟩ := hflush h
    exact ⟨_, _, _, rfl⟩

/-- The three events of a server that runs: none is released or waits on the list, and those of
the timer and of the signal can be reported at any time. -/
structure Serving (s : Server) : Prop where
  created : s.loop.reactor.created = 3
  released : s.loop.reactor.released = []
  gcEvents : s.loop.reactor.gcEvents = []
  events : s.svr.dgramEvent = 0 ∧ s.svr.timerEvent = 1 ∧ s.svr.sigintEvent = 2
  onClock : (s.loop.reactor.obj 1).ev.cb = some onClockCb
  onSigint : (s.loop.reactor.obj 2).ev.cb = some onSigintCb
  timer : (s.loop.reactor.obj 1).reg.Steady .timer
  sigint : (s.loop.reactor.obj 2).reg.Steady .signal

/-- The timer and the signal, when `posixc_asynclogsvr_init` has created and submitted them. -/
theorem asynclogsvrEvents_steady {r₀ r : Reactor Kq} {flushInterval : ℤ} {a : InitAnswers}
    {dgram timer sig : ℕ} (hsubmitted : ∀ i, a.submitted i = none)
    (h : asynclogsvrEvents r₀ flushInterval a = .ok (r, dgram, timer, sig)) :
    (dgram = r₀.created ∧ timer = r₀.created + 1 ∧ sig = r₀.created + 2) ∧
      r.created = r₀.created + 3 ∧ r.released = r₀.released ∧ r.gcEvents = r₀.gcEvents ∧
      (r.obj timer).ev.cb = some onClockCb ∧ (r.obj sig).ev.cb = some onSigintCb ∧
      (r.obj timer).reg.Steady .timer ∧ (r.obj sig).reg.Steady .signal := by
  obtain ⟨r₁, r₂, r₃, hdgram, htimer, hsig, rfl⟩ := asynclogsvrEvents_eq_ok h
  obtain ⟨hd, -, -, -, hcreated₁, hreleased₁, hlist₁⟩ := eventCreate_some hdgram
  obtain ⟨ht, htok, htobj, -, hcreated₂, hreleased₂, hlist₂⟩ := eventCreate_some htimer
  obtain ⟨hg, hgok, hgobj, hobj₃, hcreated₃, hreleased₃, hlist₃⟩ := eventCreate_some hsig
  have ht' : timer = r₀.created + 1 := ht.trans hcreated₁
  have hg' : sig = r₀.created + 2 := by
    rw [hg, hcreated₂]
    exact congrArg (· + 1) hcreated₁
  have htg : timer ≠ sig := by omega
  have hdt : dgram ≠ timer := by omega
  have hdg : dgram ≠ sig := by omega
  have htimer₃ : r₃.obj timer = r₂.obj timer := hobj₃ timer (by omega)
  -- what is submitted, and what was registered for it before
  have htreg : (r₂.obj timer).reg .timer = some ⟨false, false, false, 0⟩ := by
    rw [htobj]
    exact kqPlatCreate_one (registerTimer _) rfl rfl htok
  have hgreg : (r₃.obj sig).reg .signal = some ⟨false, false, false, 0⟩ := by
    rw [hgobj]
    exact kqPlatCreate_one (registerSig _) rfl rfl hgok
  have htimer' : (asynclogsvrSubmit r₃ dgram timer sig flushInterval a).obj timer =
      (eventSubmit kqueue { r₂.obj timer with
        ev := timerEventSetInterval (r₂.obj timer).ev flushInterval true } eventTimer none).2 := by
    unfold asynclogsvrSubmit
    dsimp only
    rw [Reactor.setObj_obj, if_neg htg, Reactor.setObj_obj, if_pos rfl, Reactor.setObj_obj,
      if_neg hdt.symm, Reactor.setObj_obj, if_pos rfl, htimer₃, hsubmitted]
  have hsig' : (asynclogsvrSubmit r₃ dgram timer sig flushInterval a).obj sig =
      (eventSubmit kqueue (r₃.obj sig) eventSig none).2 := by
    unfold asynclogsvrSubmit
    dsimp only
    rw [Reactor.setObj_obj, if_pos rfl, Reactor.setObj_obj, if_neg htg.symm, Reactor.setObj_obj,
      if_neg hdg.symm, Reactor.setObj_obj, if_neg htg.symm, hsubmitted]
  refine ⟨⟨hd, ht', hg'⟩, ?_, ?_, ?_, ?_, ?_, ?_, ?_⟩
  · -- the submits leave the events that there are
    change r₃.created = _
    rw [hcreated₃, hcreated₂]
    exact congrArg (· + 2) hcreated₁
  · exact hreleased₃.trans (hreleased₂.trans hreleased₁)
  · exact hlist₃.trans (hlist₂.trans hlist₁)
  · obtain ⟨mask, hmask⟩ := eventSubmit_frame kqueue { r₂.obj timer with
      ev := timerEventSetInterval (r₂.obj timer).ev flushInterval true } eventTimer none
    rw [htimer', hmask, htobj]
    rfl
  · obtain ⟨mask, hmask⟩ := eventSubmit_frame kqueue (r₃.obj sig) eventSig none
    rw [hsig', hmask, hgobj]
    rfl
  · -- the timer's filter is enabled with its interval
    rw [htimer']
    have hchanges : submitChanges { timerEventSetInterval (r₂.obj timer).ev flushInterval true with
        evmask := (r₂.obj timer).ev.evmask ||| eventTimer } =
          [⟨.timer, { enable := true }, (flushInterval % 2 ^ 64).toNat⟩] := by
      rw [htobj]
      simp [submitChanges, submitCandidates, submitTimer, timerEventSetInterval, timerPeriodic,
        eventInit, Mask.has, eventTimer]
    refine eventSubmit_steady (o := { r₂.obj timer with
      ev := timerEventSetInterval (r₂.obj timer).ev flushInterval true }) ?_ hchanges rfl htreg
    rw [htobj]
    rfl
  · -- the signal's filter is enabled
    rw [hsig']
    have hchanges : submitChanges { (r₃.obj sig).ev with
        evmask := (r₃.obj sig).ev.evmask ||| eventSig } = [⟨.signal, { enable := true }, 0⟩] := by
      rw [hgobj]
      simp [submitChanges, submitCandidates, submitSig, eventInit, Mask.has, eventSig]
    refine eventSubmit_steady ?_ hchanges rfl hgreg
    rw [hgobj]
    rfl

/-- `posixc_asynclogsvr_init` leaves a server that runs. -/
theorem init_serving {s : Server} (hinit : serverSystem.init s) : Serving s := by
  obtain ⟨fds, timerIds, kernel, svr, dir, maxFileSize, flushInterval, a, hinit, hsubmitted⟩ :=
    hinit
  unfold asynclogsvrInit at hinit
  split_ifs at hinit with hlen hfd
  · split at hinit <;> cases hinit
  split at hinit
  · cases hinit
  · obtain ⟨⟨r, dgram, timer, sig⟩, hevents, hinit⟩ := Exec.bind_eq_ok.mp hinit
    obtain rfl := Except.ok.inj hinit
    obtain ⟨⟨rfl, rfl, rfl⟩, hcreated, hreleased, hlist, hclock, hsigint, htimer, hsig⟩ :=
      asynclogsvrEvents_steady hsubmitted hevents
    exact ⟨hcreated, hreleased, hlist, ⟨rfl, rfl, rfl⟩, hclock, hsigint, htimer, hsig⟩

section Serving

variable {s s' : Server} {step : ServerStep}

theorem Serving.loop (h : Serving s) {loop : Loop} {m : Move} (hcall : m.NoCall)
    (hnext : s.loop.next m = some loop) : Serving { s with loop := loop } := by
  obtain ⟨hcreated, hreleased, hlist, hcb, hsteady⟩ := Loop.next_frame hcall h.gcEvents hnext
  exact ⟨hcreated.trans h.created, hreleased.trans h.released, hlist, h.events,
    (hcb 1).trans h.onClock, (hcb 2).trans h.onSigint, hsteady 1 _ h.timer, hsteady 2 _ h.sigint⟩

theorem Serving.next (h : Serving s) (hnext : s.next step = some s') : Serving s' := by
  -- the steps of an entry make no call on an event
  have hown : ∀ m, m = Move.consume ∨ m = .ret → m.NoCall := by
    rintro m (rfl | rfl) <;> exact ⟨fun o => ⟨nofun, nofun⟩, nofun⟩
  obtain ⟨dgram, rfl, rfl⟩ | ⟨m, loop, rfl, hcall, hloop, rfl⟩ |
    ⟨now, outcomes, loop, rfl, hconsume, rfl | ⟨cb, svr, w, loop', hrun, hret, rfl⟩⟩ :=
    Server.next_cases hnext
  · exact ⟨h.created, h.released, h.gcEvents, h.events, h.onClock, h.onSigint, h.timer, h.sigint⟩
  · exact h.loop hcall hloop
  · exact h.loop (hown _ (.inl rfl)) hconsume
  · have h₁ := h.loop (hown _ (.inl rfl)) hconsume
    have h₂ := h₁.loop (hown _ (.inr rfl)) hret
    obtain ⟨bw, n, name, rfl⟩ := runCallback_frame hrun
    exact ⟨h₂.created, h₂.released, h₂.gcEvents, h₂.events, h₂.onClock, h₂.onSigint, h₂.timer,
      h₂.sigint⟩

theorem run_serving (hinit : serverSystem.init s) {steps : List ServerStep}
    (hrun : serverSystem.run s steps = some s') : Serving s' :=
  System.run_invariant (P := fun _ _ => True) (fun _ _ _ h _ hnext => h.next hnext)
    (init_serving hinit) (.of_forall fun _ _ => trivial) hrun

/-- The entry of a steady filter can be fetched, and its event is the next to be consumed. -/
theorem Server.fetch_one (hwait : s.loop.pc = .wait) {e : ℕ} {f : Filter}
    (hsteady : (s.loop.reactor.obj e).reg.Steady f) :
    ∃ loop, s.loop.next (.fetch [⟨e, f, false⟩]) = some loop ∧
      s.next (.thread (.fetch [⟨e, f, false⟩])) = some { s with loop := loop } ∧
      loop.pc = .dispatch [⟨e, f, false⟩] := by
  -- the kernel reports it now
  obtain ⟨k, hk⟩ := hsteady.deliverable
  have hdeliver : deliverAll [⟨e, f, false⟩] s.loop.reactor =
      some (s.loop.reactor.setObj e { s.loop.reactor.obj e with reg := k }) := by
    rw [deliverAll, hk]
    rfl
  have hvalid : ValidBatch [⟨e, f, false⟩] := ⟨by simp [maxEvents], List.nodup_singleton _⟩
  have hfetch : s.loop.next (.fetch [⟨e, f, false⟩]) = some { s.loop with
      reactor := s.loop.reactor.setObj e { s.loop.reactor.obj e with reg := k }
      pc := .dispatch [⟨e, f, false⟩] } := by
    rw [Loop.next, hwait]
    dsimp only
    rw [if_pos hvalid, hdeliver]
    rfl
  refine ⟨_, hfetch, ?_, rfl⟩
  rw [Server.next]
  dsimp only
  rw [hfetch]
  rfl

/-- An entry of an event that has a callback. -/
theorem Loop.next_consume {loop : Loop} {ev : Kevent} {rest : List Kevent} {cb : ℕ}
    (hpc : loop.pc = .dispatch (ev :: rest)) (hcb : (loop.reactor.obj ev.udata).ev.cb = some cb) :
    loop.next .consume = some { loop with
      reactor := (consumeEv loop.reactor ev).2
      pc := .callback rest } := by
  rw [Loop.next, hpc]
  simp [consumeEv, eventConsume, hcb]

end Serving

/-! ### What the server has read -/

/-- As much of the datagrams as `on_dgram` reads of them. -/
def pages (dgrams : List (List UInt8)) : List UInt8 := dgrams.flatMap (List.take onePage)

/-- The datagrams that arrived are in the file and the buffer, as far as they were read, and in
the socket. -/
def Logged (dgrams : List (List UInt8)) (s : Server) : Prop :=
  ∃ (w : LogWorld) (got : List UInt8), w.Shows s ∧ w.Keeps got ∧
    got ++ pages s.surroundings.queue = pages dgrams

section Logged

variable {s s' : Server} {dgrams : List (List UInt8)}

/-- What is read is the next datagram. -/
theorem read_pages (w : LogWorld) :
    w.read ++ pages w.surroundings.queue.tail = pages w.surroundings.queue := by
  unfold LogWorld.read pages
  cases w.surroundings.queue with
  | nil => rfl
  | cons dgram queue => rfl

/-- A callback that returns is a step of the log. -/
theorem LogWorld.Shows.callback {w : LogWorld} {cb : ℕ} {now : List UInt8}
    {outcomes : List WriteOutcome} {svr : AsyncLogSvr} {sur : Surroundings} (h : w.Shows s)
    (hrun : runCallback cb now s.svr { s.surroundings with
      kernel := { s.surroundings.kernel with outcomes := outcomes } } = some (svr, sur))
    (loop : Loop) : ∃ step w', (step = .dgram now outcomes ∨ step = .clock outcomes) ∧
      w.next step = some w' ∧ w'.Shows ⟨loop, svr, sur⟩ := by
  obtain ⟨hsvr, hsur, hnone⟩ := h
  have hfault : ¬ w.fault.isSome := by simp [hnone]
  obtain ⟨w', hafter, hshows⟩ : ∃ w', w.after (.ok (svr, sur)) = some w' ∧
      w'.Shows ⟨loop, svr, sur⟩ := ⟨_, rfl, rfl, rfl, hnone⟩
  rw [← hsvr, ← hsur] at hrun
  rcases runCallback_eq_some hrun with hdgram | hclock
  · refine ⟨.dgram now outcomes, w', .inl rfl, ?_, hshows⟩
    exact (if_neg hfault).trans ((congrArg w.after hdgram).trans hafter)
  · refine ⟨.clock outcomes, w', .inr rfl, ?_, hshows⟩
    exact (if_neg hfault).trans ((congrArg w.after hclock).trans hafter)

theorem Logged.next (h : Logged dgrams s) {step : ServerStep} (hs : step.Succeeds)
    (hnext : s.next step = some s') : Logged (dgrams ++ arrived [step]) s' := by
  obtain ⟨w, got, hshows, hkeeps, hgot⟩ := h
  obtain ⟨hsvr, hsur, hnone⟩ := hshows
  obtain ⟨dgram, rfl, rfl⟩ | ⟨m, loop, rfl, -, -, rfl⟩ |
    ⟨now, outcomes, loop, rfl, -, rfl | ⟨cb, svr, sur, loop', hrun, -, rfl⟩⟩ :=
    Server.next_cases hnext
  · -- a datagram arrives at the end of the queue, and nothing is read
    refine ⟨{ w with surroundings := { w.surroundings with
      queue := w.surroundings.queue ++ [dgram] } }, got, ⟨hsvr, by rw [← hsur], hnone⟩, ?_, ?_⟩
    · exact ⟨hkeeps.noFault, hkeeps.holding, hkeeps.counted, hkeeps.maxFileSize_lt⟩
    · dsimp only
      rw [pages, List.flatMap_append, ← pages, ← List.append_assoc, hgot, pages, pages,
        List.flatMap_append]
      rfl
  · -- a step of the thread alone
    refine ⟨w, got, ⟨hsvr, hsur, hnone⟩, hkeeps, ?_⟩
    rw [show arrived [ServerStep.thread m] = [] from rfl, List.append_nil]
    exact hgot
  · -- an entry whose event has no callback
    refine ⟨w, got, ⟨hsvr, hsur, hnone⟩, hkeeps, ?_⟩
    rw [show arrived [ServerStep.consume now outcomes] = [] from rfl, List.append_nil]
    exact hgot
  · -- a callback, which is a step of the log and keeps what was got
    obtain ⟨step, w', hstep, hw', hshows'⟩ :=
      LogWorld.Shows.callback ⟨hsvr, hsur, hnone⟩ hrun loop'
    have hsucceeds : step.Succeeds := by
      rcases hstep with rfl | rfl
      · exact hs
      · exact hs
    -- the flush of the step came to its end, since it returned
    obtain ⟨hnone', -⟩ | ⟨w₁, hw₁, hkeeps', hbecomes⟩ := hkeeps.next_spec hsucceeds
    · rw [hnone'] at hw'
      cases hw'
    obtain rfl : w₁ = w' := Option.some.inj (hw₁.symm.trans hw')
    refine ⟨w₁, _, hshows', hkeeps', ?_⟩
    have hqueue : w₁.surroundings.queue = sur.queue := by rw [hshows'.2.1]
    rw [show arrived [ServerStep.consume now outcomes] = [] from rfl, List.append_nil, ← hgot,
      ← hqueue, hbecomes.queue, ← hsur, List.append_assoc]
    rcases hstep with rfl | rfl
    · exact congrArg (got ++ ·) (read_pages w)
    · rfl

theorem run_logged {steps : List ServerStep} (hinit : serverSystem.init s)
    (hsucceed : ∀ step ∈ steps, step.Succeeds) (hrun : serverSystem.run s steps = some s') :
    Logged (arrived steps) s' := by
  have hstart : Logged (arrived []) s := by
    obtain ⟨fds, timerIds, kernel, svr, dir, maxFileSize, flushInterval, a, hinit, -⟩ := hinit
    obtain ⟨hkeeps, -, -, hqueue, -, -⟩ := LogWorld.init_keeps (w := .start s)
      ⟨fds, timerIds, kernel, svr, dir, maxFileSize, flushInterval, a, s, hinit, rfl⟩
    have hqueue' : s.surroundings.queue = [] := hqueue
    exact ⟨.start s, [], ⟨rfl, rfl, rfl⟩, hkeeps, by rw [hqueue']; rfl⟩
  refine System.run_history (P := fun _ step => step.Succeeds)
    (I := fun steps s' => Logged (arrived steps) s') (fun seen s₁ step s₂ h hs hnext => ?_) hstart
    (.of_forall hsucceed) hrun
  rw [arrived, List.filterMap_append]
  exact h.next hs hnext

/-- A flush with enough outcomes leaves everything that was read in the file. -/
theorem Logged.flush (h : Logged dgrams s) {outcomes : List WriteOutcome}
    (hok : .error ∉ outcomes)
    (hserved : 2 * bufferedWritableSize ≤ outcomes.countP WriteOutcome.takes) :
    ∃ bw k, asynclogsvrFlush s.svr (s.surroundings.answer outcomes) =
        .ok ({ s.svr with bufferedWritefile := bw }, ⟨k, s.surroundings.queue⟩) ∧
      bw.pos = 0 ∧ bw.fd = s.svr.bufferedWritefile.fd ∧
      k.file s.svr.bufferedWritefile.fd ++ pages s.surroundings.queue = pages dgrams := by
  obtain ⟨w, got, ⟨hsvr, hsur, -⟩, hkeeps, hgot⟩ := h
  have hholding := hkeeps.holding
  rw [hsvr, hsur] at hholding
  obtain ⟨-, hshort⟩ | ⟨bw, k, hflush, hpos, hfd, out, buffered, hfile, -, hlen, hall⟩ :=
    asynclogsvrFlush_succeeds (s := s.surroundings.answer outcomes) hholding hok
  · -- the outcomes are enough for a buffer
    have hpos : s.svr.bufferedWritefile.pos ≤ bufferedWritableSize := hholding.pos_le
    have hready : 2 * bufferedWritableSize < s.svr.bufferedWritefile.pos :=
      hserved.trans_lt hshort
    omega
  · refine ⟨bw, k, hflush, hpos, hfd, ?_⟩
    -- the buffer was given up to its last byte
    obtain rfl : buffered = [] := List.eq_nil_of_length_eq_zero (by omega)
    rw [List.append_nil] at hall
    rw [hfile, hall, List.nil_append]
    exact hgot

end Logged

/-! ### Ticks and the interrupt -/

/-- `posixc_asynclogsvr_destroy` releases the three events, in its order. -/
theorem asynclogsvrDestroy_spec {r : Reactor Kq} (svr : AsyncLogSvr) (hlist : r.gcEvents = []) :
    ∃ r', asynclogsvrDestroy svr r = some r' ∧ r'.gcEvents = [] ∧ r'.closing = true ∧
      r'.created = r.created ∧
      r'.released = r.released ++ [svr.timerEvent, svr.dgramEvent, svr.sigintEvent] := by
  -- on the reactor's thread an event is released at once, with or without a stop before
  have hdestroy : ∀ (r : Reactor Kq) e, ∃ r', eventDestroy kqueue true false r e = some r' ∧
      r'.gcEvents = r.gcEvents ∧ r'.created = r.created ∧ r'.released = r.released ++ [e] := by
    intro r e
    by_cases hclosing : (r.obj e).ev.closing
    · exact ⟨eventRelease kqueue r e, by simp [eventDestroy, hclosing], rfl, rfl, rfl⟩
    · exact ⟨eventRelease kqueue (eventStop kqueue r e) e, by simp [eventDestroy, hclosing], rfl,
        rfl, rfl⟩
  obtain ⟨r₁, h₁, hlist₁, hcreated₁, hreleased₁⟩ := hdestroy r svr.timerEvent
  obtain ⟨r₂, h₂, hlist₂, hcreated₂, hreleased₂⟩ := hdestroy r₁ svr.dgramEvent
  obtain ⟨r₃, h₃, hlist₃, hcreated₃, hreleased₃⟩ := hdestroy r₂ svr.sigintEvent
  have hempty : r₃.gcEvents = [] := by rw [hlist₃, hlist₂, hlist₁, hlist]
  have hgc : reactorGc kqueue true r₃ = some r₃ := by
    rw [reactorGc, hempty]
    rfl
  refine ⟨{ r₃ with closing := true }, ?_, hempty, rfl, ?_, ?_⟩
  · simp [asynclogsvrDestroy, h₁, h₂, h₃, hgc]
  · exact hcreated₃.trans (hcreated₂.trans hcreated₁)
  · show r₃.released = _
    rw [hreleased₃, hreleased₂, hreleased₁]
    simp

/-- What is left of a server that is interrupted. -/
theorem Server.exit_eq {s : Server} {loop : Loop} {ev : Kevent} {rest : List Kevent}
    {outcomes : List WriteOutcome} {svr : AsyncLogSvr} {w : Surroundings} {r : Reactor Kq}
    (hpc : s.loop.pc = .dispatch (ev :: rest))
    (hcb : (s.loop.reactor.obj ev.udata).ev.cb = some onSigintCb)
    (hconsume : s.loop.next .consume = some loop)
    (hflush : asynclogsvrFlush s.svr (s.surroundings.answer outcomes) = .ok (svr, w))
    (hdestroy : asynclogsvrDestroy svr loop.reactor = some r) :
    s.exit outcomes = some ⟨w, r⟩ := by
  have hsigint : onSigint s.svr (s.surroundings.answer outcomes) loop.reactor =
      .ok (some ⟨w, r⟩) := by
    rw [onSigint, hflush, Exec.ok_bind]
    dsimp only
    rw [hdestroy]
    rfl
  rw [Server.exit, hpc]
  dsimp only
  rw [if_pos hcb, hconsume, Option.bind_eq_bind, Option.bind_some, hsigint]
  rfl

/-- **The server can be interrupted.** Whenever its thread waits in `kevent`, an interrupt ends
the server. Every datagram that was read is then in the file, in order, the three events of the
server are released once each, and the reactor has no other. -/
theorem asynclogsvr_interrupted {s s' : Server} {steps : List ServerStep}
    {outcomes : List WriteOutcome} (hinit : serverSystem.init s)
    (hsucceed : ∀ step ∈ steps, step.Succeeds) (hrun : serverSystem.run s steps = some s')
    (hwait : s'.loop.pc = .wait) (hok : .error ∉ outcomes)
    (hserved : 2 * bufferedWritableSize ≤ outcomes.countP WriteOutcome.takes) :
    ∃ s'' x, s'.next (.thread (.fetch [⟨s'.svr.sigintEvent, .signal, false⟩])) = some s'' ∧
      s''.exit outcomes = some x ∧
      x.surroundings.kernel.file s'.svr.bufferedWritefile.fd ++ pages x.surroundings.queue =
        pages (arrived steps) ∧
      x.reactor.released = [s'.svr.timerEvent, s'.svr.dgramEvent, s'.svr.sigintEvent] ∧
      x.reactor.released.Nodup ∧ x.reactor.gcEvents = [] ∧ ∀ e, ¬ x.reactor.Holds e := by
  have hserving := run_serving hinit hrun
  obtain ⟨hd, ht, hg⟩ := hserving.events
  obtain ⟨bw, k, hflush, -, -, hfile⟩ := (run_logged hinit hsucceed hrun).flush hok hserved
  have hsteady : (s'.loop.reactor.obj s'.svr.sigintEvent).reg.Steady .signal := by
    rw [hg]
    exact hserving.sigint
  obtain ⟨loop, hloop, hfetch, hpc⟩ := Server.fetch_one hwait hsteady
  have hcall : (Move.fetch [⟨s'.svr.sigintEvent, .signal, false⟩]).NoCall :=
    ⟨fun o => ⟨nofun, nofun⟩, nofun⟩
  have hserving' := hserving.loop hcall hloop
  -- the entry is consumed, and the callback runs on what that leaves
  have hcb : (loop.reactor.obj s'.svr.sigintEvent).ev.cb = some onSigintCb := by
    rw [hg]
    exact hserving'.onSigint
  have hconsume := Loop.next_consume hpc hcb
  obtain ⟨r, hdestroy, hlist, -, hcreated, hreleased⟩ := asynclogsvrDestroy_spec
    { s'.svr with bufferedWritefile := bw }
    (r := (consumeEv loop.reactor ⟨s'.svr.sigintEvent, .signal, false⟩).2) hserving'.gcEvents
  -- none was released before
  have hreleased' : r.released = [1, 0, 2] := by
    rw [hreleased]
    change loop.reactor.released ++ _ = _
    rw [hserving'.released, ht, hd, hg]
    rfl
  refine ⟨_, ⟨⟨k, s'.surroundings.queue⟩, r⟩, hfetch, ?_, hfile, ?_, ?_, hlist, fun e he => ?_⟩
  · exact Server.exit_eq hpc hcb hconsume hflush hdestroy
  · rw [hreleased', ht, hd, hg]
  · rw [hreleased']
    decide
  · -- the reactor made no other event
    have hlt : e < 3 := by
      have hcreated' : r.created = 3 := hcreated.trans hserving'.created
      rw [← hcreated']
      exact he.1
    refine he.2 ?_
    change e ∈ r.released
    rw [hreleased']
    have hmem : e = 1 ∨ e = 0 ∨ e = 2 := by omega
    simpa using hmem

/-- The end of a callback that flushes. -/
theorem Server.next_clock {s : Server} {loop loop' : Loop} {ev : Kevent} {rest : List Kevent}
    {now : List UInt8} {outcomes : List WriteOutcome} {svr : AsyncLogSvr} {w : Surroundings}
    (hpc : s.loop.pc = .dispatch (ev :: rest))
    (hcb : (s.loop.reactor.obj ev.udata).ev.cb = some onClockCb)
    (hconsume : s.loop.next .consume = some loop)
    (hflush : asynclogsvrFlush s.svr (s.surroundings.answer outcomes) = .ok (svr, w))
    (hret : loop.next .ret = some loop') :
    s.next (.consume now outcomes) = some ⟨loop', svr, w⟩ := by
  have hclock : runCallback onClockCb now s.svr (s.surroundings.answer outcomes) =
      some (svr, w) := by
    rw [runCallback, if_neg (by decide), if_pos rfl, onClock, hflush]
    rfl
  rw [Surroundings.answer] at hclock
  rw [Server.next, hpc]
  dsimp only at hclock ⊢
  rw [hconsume, Option.bind_eq_bind, Option.bind_some, hcb]
  dsimp only
  rw [hclock, Option.bind_eq_bind, Option.bind_some]
  dsimp only
  rw [hret]
  rfl

/-- **The server ticks.** Whenever its thread waits in `kevent`, the timer can be reported, and
then everything that was read is in the file, in order, and nothing in the buffer. -/
theorem asynclogsvr_ticks {s s' : Server} {steps : List ServerStep}
    {outcomes : List WriteOutcome} (hinit : serverSystem.init s)
    (hsucceed : ∀ step ∈ steps, step.Succeeds) (hrun : serverSystem.run s steps = some s')
    (hwait : s'.loop.pc = .wait) (hok : .error ∉ outcomes)
    (hserved : 2 * bufferedWritableSize ≤ outcomes.countP WriteOutcome.takes)
    (now : List UInt8) :
    ∃ s'', serverSystem.run s' [.thread (.fetch [⟨s'.svr.timerEvent, .timer, false⟩]),
        .consume now outcomes] = some s'' ∧
      s''.svr.bufferedWritefile.pos = 0 ∧
      s''.surroundings.kernel.file s''.svr.bufferedWritefile.fd ++ pages s''.surroundings.queue =
        pages (arrived steps) := by
  have hserving := run_serving hinit hrun
  obtain ⟨hd, ht, hg⟩ := hserving.events
  obtain ⟨bw, k, hflush, hpos, hfd, hfile⟩ := (run_logged hinit hsucceed hrun).flush hok hserved
  have hsteady : (s'.loop.reactor.obj s'.svr.timerEvent).reg.Steady .timer := by
    rw [ht]
    exact hserving.timer
  obtain ⟨loop, hloop, hfetch, hpc⟩ := Server.fetch_one hwait hsteady
  have hcall : (Move.fetch [⟨s'.svr.timerEvent, .timer, false⟩]).NoCall :=
    ⟨fun o => ⟨nofun, nofun⟩, nofun⟩
  have hserving' := hserving.loop hcall hloop
  have hcb : (loop.reactor.obj s'.svr.timerEvent).ev.cb = some onClockCb := by
    rw [ht]
    exact hserving'.onClock
  have hconsume := Loop.next_consume hpc hcb
  refine ⟨_, System.run_cons_eq_some.mpr ⟨_, hfetch, System.run_cons_eq_some.mpr
    ⟨_, Server.next_clock hpc hcb hconsume hflush rfl, rfl⟩⟩, hpos, ?_⟩
  dsimp only
  rw [hfd]
  exact hfile

/-- The kernel writes what it is given, a byte a call. -/
def byteOutcomes : List WriteOutcome := List.replicate (2 * bufferedWritableSize) (.wrote 1)

theorem byteOutcomes_served :
    2 * bufferedWritableSize ≤ byteOutcomes.countP WriteOutcome.takes := by
  rw [byteOutcomes, List.countP_replicate]
  exact le_rfl

theorem byteOutcomes_ok : .error ∉ byteOutcomes := fun h => by
  cases List.eq_of_mem_replicate h

/-- A server that waits with one datagram in its socket. -/
theorem testServer_waits :
    ∃ s s', serverSystem.init s ∧
      serverSystem.run s [.arrive [104, 105], .thread .test] = some s' ∧
      s'.loop.pc = .wait ∧ s'.svr.timerEvent = 1 ∧ s'.svr.dgramEvent = 0 ∧
      s'.svr.sigintEvent = 2 := by
  obtain ⟨s, hs⟩ : ∃ s, testServer = .ok s := ⟨_, rfl⟩
  have hinit : serverSystem.init s := ⟨socketTable, 0, _, _, _, _, _, grantAll, hs, fun _ => rfl⟩
  cases hs
  exact ⟨_, _, hinit, rfl, rfl, rfl, rfl, rfl⟩

theorem asynclogsvr_interrupted_waits :
    ∃ s s' s'' x, serverSystem.init s ∧
      serverSystem.run s [.arrive [104, 105], .thread .test] = some s' ∧
      s'.next (.thread (.fetch [⟨2, .signal, false⟩])) = some s'' ∧
      s''.exit byteOutcomes = some x ∧ x.reactor.released = [1, 0, 2] := by
  obtain ⟨s, s', hinit, hrun, hwait, ht, hd, hg⟩ := testServer_waits
  obtain ⟨s'', x, hfetch, hexit, -, hreleased, -⟩ := asynclogsvr_interrupted hinit
    (by simp [ServerStep.Succeeds]) hrun hwait byteOutcomes_ok byteOutcomes_served
  rw [hg] at hfetch
  rw [ht, hd, hg] at hreleased
  exact ⟨s, s', s'', x, hinit, hrun, hfetch, hexit, hreleased⟩

theorem asynclogsvr_ticks_waits :
    ∃ s s' s'', serverSystem.init s ∧
      serverSystem.run s [.arrive [104, 105], .thread .test] = some s' ∧
      serverSystem.run s' [.thread (.fetch [⟨1, .timer, false⟩]), .consume [50] byteOutcomes] =
        some s'' ∧ s''.svr.bufferedWritefile.pos = 0 := by
  obtain ⟨s, s', hinit, hrun, hwait, ht, -, -⟩ := testServer_waits
  obtain ⟨s'', hrun', hpos, -⟩ := asynclogsvr_ticks hinit (by simp [ServerStep.Succeeds]) hrun
    hwait byteOutcomes_ok byteOutcomes_served [50]
  rw [ht] at hrun'
  exact ⟨s, s', s'', hinit, hrun, hrun', hpos⟩

end Posixc
