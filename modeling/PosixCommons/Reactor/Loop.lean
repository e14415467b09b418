import PosixCommons.Event.Kqueue
import PosixCommons.Reactor.Basic

/-!
# The kqueue reactor

`mac/reactor_kq.c` and `posixc_reactor_destroy`. The reactor's thread tests
`closing`, waits in `kevent`, consumes the batch that it gets entry by entry, and
every second time collects. A consumed entry runs the callback of its event, which
may make any calls before it returns. Other threads make calls between any two
steps, and one of them may tear the reactor down. A destroy by such a thread is several
steps (`userGo`), of which no lock makes one. On the reactor's thread it is one: what
another thread does to the event meanwhile it can as well do before, unless it destroys it
too.

What the kernel may put in a batch is decided by the knotes alone (`Sound`): an
event that is released, or closing, has none that can be delivered, but for the time
between the line that closes it and the one that takes its knotes.
-/

open Framework

namespace Posixc

/-- An entry of a batch. `error` is `EV_ERROR`. -/
structure Kevent where
  udata : ℕ
  filter : Filter
  error : Bool := false
  deriving DecidableEq

/-- Where the reactor's thread is: at the test of `closing`, in `kevent`, before
the entries `rest` of a batch, in a callback with `rest` to follow, or at its end,
which it reaches with or without the final collection. -/
inductive Pc where
  | top
  | wait
  | dispatch (rest : List Kevent)
  | callback (rest : List Kevent)
  | exited (collected : Bool)
  deriving DecidableEq

/-- How far `posixc_reactor_destroy` is. -/
inductive Teardown where
  | notCalled
  | collected
  | closed
  | joined
  deriving DecidableEq

/-- A reactor with its thread, and the destroys that user threads are in. `i` is the
counter of the loop. -/
structure Loop where
  reactor : Reactor Kq
  destroying : List Destroying
  pc : Pc
  i : ℕ
  teardown : Teardown

namespace Loop

/-- The entries of the batch that are still to be consumed. -/
def pending (s : Loop) : List Kevent :=
  match s.pc with
  | .dispatch rest => rest
  | .callback rest => rest
  | _ => []

/-- The events that user threads have closed and are about to unregister. -/
def stopping (s : Loop) : List ℕ :=
  (s.destroying.filter fun d => d.stage = some .unregister).map Destroying.event

end Loop

/-- `max_events`. -/
def maxEvents : ℕ := 64

/-- `loops_per_gc`. -/
def loopsPerGc : ℕ := 2

/-- What `consume_ev` consumes for an entry. -/
def Kevent.evmask (ev : Kevent) : Mask :=
  maskToConsume ev.filter ||| if ev.error then eventErr else 0

/-- `consume_ev` up to the call of the callback, which it returns. -/
def consumeEv (r : Reactor Kq) (ev : Kevent) : Option ℕ × Reactor Kq :=
  let o := r.obj ev.udata
  let e := eventConsume o.ev ev.evmask
  (e.cb, r.setObj ev.udata { o with ev := e })

/-- `kevent` puts the entries in the batch, one after the other. -/
def deliverAll : List Kevent → Reactor Kq → Option (Reactor Kq)
  | [], r => some r
  | ev :: batch, r => do
    let k ← deliver (r.obj ev.udata).reg ev.filter
    deliverAll batch (r.setObj ev.udata { r.obj ev.udata with reg := k })

/-- A batch fits in the array, and has no filter of an event twice. -/
def ValidBatch (batch : List Kevent) : Prop :=
  batch.length ≤ maxEvents ∧ (batch.map fun ev => (ev.udata, ev.filter)).Nodup

instance (batch : List Kevent) : Decidable (ValidBatch batch) :=
  inferInstanceAs (Decidable (_ ∧ _))

/-- A step of the reactor's thread or of another. -/
inductive Move where
  /-- Another thread makes a call, of which a destroy is only begun. -/
  | user (o : Op)
  /-- Another thread goes on with the `i`-th destroy that was begun. -/
  | userGo (i : ℕ)
  /-- The callback that is running makes a call. -/
  | callback (o : Op)
  /-- The callback returns. -/
  | ret
  /-- The test of `closing`. -/
  | test
  /-- `kevent` returns a batch. An empty one stands for its errors but `EBADF`. -/
  | fetch (batch : List Kevent)
  /-- `kevent` fails with `EBADF`. -/
  | badf
  /-- `consume_ev` on the next entry. -/
  | consume
  /-- The end of the batch. -/
  | finish
  /-- `posixc_reactor_destroy` collects. -/
  | destroyGc
  /-- `posixc_reactor_destroy` sets `closing`. -/
  | destroyClose
  /-- `posixc_reactor_destroy` has joined the thread, and returns. -/
  | destroyJoin

/-- The step. `none` where the move is not the next of its thread. -/
def Loop.next (s : Loop) : Move → Option Loop
  | .user o =>
    if s.teardown = .joined then none
    else (userCall kqueue s.reactor s.destroying o).map fun (r, ds) =>
      { s with reactor := r, destroying := ds }
  | .userGo i =>
    if s.teardown = .joined then none
    else (userGo kqueue s.reactor s.destroying i).map fun (r, ds) =>
      { s with reactor := r, destroying := ds }
  | .callback o =>
    match s.pc with
    | .callback _ => (o.apply kqueue true s.reactor).map fun r => { s with reactor := r }
    | _ => none
  | .ret =>
    match s.pc with
    | .callback rest => some { s with pc := .dispatch rest }
    | _ => none
  | .test =>
    match s.pc with
    | .top =>
      -- the loop ends with a last collection
      if s.reactor.closing then
        (reactorGc kqueue true s.reactor).map fun r =>
          { s with reactor := r, pc := .exited true }
      else some { s with pc := .wait }
    | _ => none
  | .fetch batch =>
    match s.pc with
    | .wait =>
      if ValidBatch batch then
        (deliverAll batch s.reactor).map fun r => { s with reactor := r, pc := .dispatch batch }
      else none
    | _ => none
  | .badf =>
    match s.pc with
    | .wait => some { s with pc := .exited false }
    | _ => none
  | .consume =>
    match s.pc with
    | .dispatch (ev :: rest) =>
      let (cb, r) := consumeEv s.reactor ev
      some { s with reactor := r, pc := if cb.isSome then .callback rest else .dispatch rest }
    | _ => none
  | .finish =>
    match s.pc with
    | .dispatch [] =>
      -- a collection in every second round
      (if s.i % loopsPerGc = 0 then reactorGc kqueue true s.reactor else some s.reactor).map
        fun r => { s with reactor := r, pc := .top, i := (s.i + 1) % 2 ^ 32 }
    | _ => none
  | .destroyGc =>
    if s.teardown = .notCalled then
      (reactorGc kqueue false s.reactor).map fun r =>
        { s with reactor := r, teardown := .collected }
    else none
  | .destroyClose =>
    if s.teardown = .collected then
      some { s with reactor := { s.reactor with closing := true }, teardown := .closed }
    else none
  | .destroyJoin =>
    match s.pc with
    | .exited _ => if s.teardown = .closed then some { s with teardown := .joined } else none
    | _ => none

/-- `posixc_reactor_create`, with the thread at its first test. -/
def loopCreate (fds : FdTable) (timerIds : ℕ) : Loop where
  reactor := reactorCreate kqueue fds timerIds
  destroying := []
  pc := .top
  i := 0
  teardown := .notCalled

/-- The reactor and everything around it. -/
def loopSystem : System Loop Move where
  init s := ∃ fds timerIds, s = loopCreate fds timerIds
  next := Loop.next

/-! ### The steps as a relation -/

/-- What each move needs and does. -/
def Loop.Steps (s : Loop) (m : Move) (s' : Loop) : Prop :=
  match m with
  | .user o => ∃ r ds, s.teardown ≠ .joined ∧
      userCall kqueue s.reactor s.destroying o = some (r, ds) ∧
      s' = { s with reactor := r, destroying := ds }
  | .userGo i => ∃ r ds, s.teardown ≠ .joined ∧
      userGo kqueue s.reactor s.destroying i = some (r, ds) ∧
      s' = { s with reactor := r, destroying := ds }
  | .callback o => ∃ rest r, s.pc = .callback rest ∧ o.apply kqueue true s.reactor = some r ∧
      s' = { s with reactor := r }
  | .ret => ∃ rest, s.pc = .callback rest ∧ s' = { s with pc := .dispatch rest }
  | .test => s.pc = .top ∧
      ((s.reactor.closing = true ∧ ∃ r, reactorGc kqueue true s.reactor = some r ∧
          s' = { s with reactor := r, pc := .exited true }) ∨
        (s.reactor.closing = false ∧ s' = { s with pc := .wait }))
  | .fetch batch => s.pc = .wait ∧ ValidBatch batch ∧ ∃ r, deliverAll batch s.reactor = some r ∧
      s' = { s with reactor := r, pc := .dispatch batch }
  | .badf => s.pc = .wait ∧ s' = { s with pc := .exited false }
  | .consume => ∃ ev rest, s.pc = .dispatch (ev :: rest) ∧
      s' = { s with reactor := (consumeEv s.reactor ev).2,
                    pc := if (s.reactor.obj ev.udata).ev.cb.isSome then .callback rest
                          else .dispatch rest }
  | .finish => s.pc = .dispatch [] ∧
      ∃ r, (reactorGc kqueue true s.reactor = some r ∨ r = s.reactor) ∧
        s' = { s with reactor := r, pc := .top, i := (s.i + 1) % 2 ^ 32 }
  | .destroyGc => s.teardown = .notCalled ∧ ∃ r, reactorGc kqueue false s.reactor = some r ∧
      s' = { s with reactor := r, teardown := .collected }
  | .destroyClose => s.teardown = .collected ∧
      s' = { s with reactor := { s.reactor with closing := true }, teardown := .closed }
  | .destroyJoin => ∃ b, s.pc = .exited b ∧ s.teardown = .closed ∧
      s' = { s with teardown := .joined }

/-- Filling a batch changes registrations only. -/
theorem deliverAll_frame (batch : List Kevent) :
    ∀ r r' : Reactor Kq, deliverAll batch r = some r' →
      r'.created = r.created ∧ r'.gcEvents = r.gcEvents ∧ r'.released = r.released ∧
        r'.closing = r.closing ∧ ∀ i, (r'.obj i).ev = (r.obj i).ev := by
  induction batch with
  | nil =>
    intro r r' hrun
    obtain rfl := Option.some.inj hrun
    exact ⟨rfl, rfl, rfl, rfl, fun _ => rfl⟩
  | cons ev batch ih =>
    intro r r' hrun
    obtain ⟨k, -, hrest⟩ := Option.bind_eq_some_iff.mp hrun
    obtain ⟨hcreated, hlist, hreleased, hclosing, hev⟩ := ih _ r' hrest
    refine ⟨hcreated, hlist, hreleased, hclosing, fun i => ?_⟩
    rw [hev, Reactor.setObj_obj]
    split_ifs with heq
    · rw [heq]
    · rfl

/-- **Inverting a step.** -/
theorem Loop.steps_of_next {s s' : Loop} {m : Move} (h : s.next m = some s') : s.Steps m s' := by
  unfold Loop.next at h
  unfold Loop.Steps
  cases m with
  | user o =>
    dsimp only at h ⊢
    split_ifs at h with hjoined
    obtain ⟨⟨r, ds⟩, hr, rfl⟩ := Option.map_eq_some_iff.mp h
    exact ⟨r, ds, hjoined, hr, rfl⟩
  | userGo i =>
    dsimp only at h ⊢
    split_ifs at h with hjoined
    obtain ⟨⟨r, ds⟩, hr, rfl⟩ := Option.map_eq_some_iff.mp h
    exact ⟨r, ds, hjoined, hr, rfl⟩
  | callback o =>
    cases hpc : s.pc <;> rw [hpc] at h <;> dsimp only at h <;> try cases h
    obtain ⟨r, hr, rfl⟩ := Option.map_eq_some_iff.mp h
    exact ⟨_, r, rfl, hr, rfl⟩
  | ret =>
    cases hpc : s.pc <;> rw [hpc] at h <;> dsimp only at h <;> cases h
    exact ⟨_, rfl, rfl⟩
  | test =>
    cases hpc : s.pc <;> rw [hpc] at h <;> dsimp only at h <;> try cases h
    split_ifs at h with hclosing
    · obtain ⟨r, hr, rfl⟩ := Option.map_eq_some_iff.mp h
      exact ⟨rfl, .inl ⟨hclosing, r, hr, rfl⟩⟩
    · exact ⟨rfl, .inr ⟨Bool.eq_false_iff.mpr hclosing, (Option.some.inj h).symm⟩⟩
  | fetch batch =>
    cases hpc : s.pc <;> rw [hpc] at h <;> dsimp only at h <;> try cases h
    split_ifs at h with hbatch
    obtain ⟨r, hr, rfl⟩ := Option.map_eq_some_iff.mp h
    exact ⟨rfl, hbatch, r, hr, rfl⟩
  | badf =>
    cases hpc : s.pc <;> rw [hpc] at h <;> dsimp only at h <;> cases h
    exact ⟨rfl, rfl⟩
  | consume =>
    cases hpc : s.pc with
    | dispatch rest =>
      rw [hpc] at h
      cases rest with
      | nil => cases h
      | cons ev rest => exact ⟨ev, rest, rfl, (Option.some.inj h).symm⟩
    | _ => rw [hpc] at h; cases h
  | finish =>
    cases hpc : s.pc with
    | dispatch rest =>
      rw [hpc] at h
      cases rest with
      | nil =>
        obtain ⟨r, hr, rfl⟩ := Option.map_eq_some_iff.mp h
        refine ⟨rfl, r, ?_, rfl⟩
        split_ifs at hr with hi
        · exact .inl hr
        · exact .inr (Option.some.inj hr).symm
      | cons ev rest => cases h
    | _ => rw [hpc] at h; cases h
  | destroyGc =>
    dsimp only at h ⊢
    split_ifs at h with ht
    obtain ⟨r, hr, rfl⟩ := Option.map_eq_some_iff.mp h
    exact ⟨ht, r, hr, rfl⟩
  | destroyClose =>
    dsimp only at h ⊢
    split_ifs at h with ht
    exact ⟨ht, (Option.some.inj h).symm⟩
  | destroyJoin =>
    cases hpc : s.pc <;> rw [hpc] at h <;> dsimp only at h <;> try cases h
    split_ifs at h with ht
    exact ⟨_, rfl, ht, (Option.some.inj h).symm⟩

/-- The goes of a user thread through a destroy that it began last. -/
theorem userGo_last {r : Reactor Kq} {ds : List Destroying} {e : ℕ} {stage : StopStage} :
    userGo kqueue r (ds ++ [⟨e, some stage⟩]) ds.length =
      some (stage.run kqueue r e, ds ++ [⟨e, stage.next⟩]) := by
  simp [userGo]

theorem userGo_list {r : Reactor Kq} {ds : List Destroying} {e : ℕ} :
    userGo kqueue r (ds ++ [⟨e, none⟩]) ds.length =
      some ({ r with gcEvents := r.gcEvents ++ [e] }, ds) := by
  simp [userGo, List.eraseIdx_append_of_length_le]

/-- **A destroy that is not interrupted** is `posixc_event_destroy`. -/
theorem Loop.run_destroy {s : Loop} {e : ℕ} {r : Reactor Kq} (hopen : s.teardown ≠ .joined)
    (hold : s.reactor.Holds e) (hrun : eventDestroy kqueue false false s.reactor e = some r) :
    ∃ n, loopSystem.run s (.user (.destroy e) ::
      List.replicate n (.userGo s.destroying.length)) = some { s with reactor := r } := by
  have hgo : ∀ (r r' : Reactor Kq) (ds ds' : List Destroying),
      userGo kqueue r ds s.destroying.length = some (r', ds') →
      loopSystem.next { s with reactor := r, destroying := ds } (.userGo s.destroying.length) =
        some { s with reactor := r', destroying := ds' } := by
    intro r r' ds ds' h
    rw [show loopSystem.next = Loop.next from rfl, Loop.next, if_neg hopen]
    dsimp only
    rw [h]
    rfl
  have hcall : ∀ ds, (if (s.reactor.obj e).ev.closing then s.destroying
      else s.destroying ++ [⟨e, some .close⟩]) = ds →
      loopSystem.next s (.user (.destroy e)) = some { s with destroying := ds } := by
    rintro ds rfl
    rw [show loopSystem.next = Loop.next from rfl, Loop.next, if_neg hopen, userCall, if_pos hold]
    rfl
  rcases eventDestroy_cases hrun with ⟨-, hr, -⟩ | ⟨hclosing, -, rfl⟩ | ⟨-, hr, -⟩ |
    ⟨hclosing, -, -, rfl⟩
  · cases hr
  · exact ⟨0, System.run_cons_eq_some.mpr ⟨s, hcall _ (if_pos hclosing), rfl⟩⟩
  · cases hr
  · -- the three lines, and the list
    refine ⟨4, System.run_cons_eq_some.mpr ⟨_, hcall _ (if_neg (by simp [hclosing])), ?_⟩⟩
    refine System.run_cons_eq_some.mpr ⟨_, hgo _ _ _ _ userGo_last, ?_⟩
    refine System.run_cons_eq_some.mpr ⟨_, hgo _ _ _ _ userGo_last, ?_⟩
    refine System.run_cons_eq_some.mpr ⟨_, hgo _ _ _ _ userGo_last, ?_⟩
    refine System.run_cons_eq_some.mpr ⟨_, hgo _ _ _ _ userGo_list, ?_⟩
    rw [StopStage.run_all]
    rfl

/-! ### What can be delivered -/

/-- A live event that has no knote left when it is closing, unless it is just being
stopped. -/
structure Settled (stopping : Prop) (o : Obj Kq) : Prop extends Live o where
  closed : ¬ stopping → o.ev.closing = true → ∀ f, o.reg f = none

section Settled

variable {stopping : Prop} {o : Obj Kq}

/-- The rest of the event does not matter. -/
theorem Settled.of_ev (h : Settled stopping o) {ev : Event} (htype : ev.type = o.ev.type)
    (hclosing : ev.closing = o.ev.closing) : Settled stopping ⟨ev, o.reg⟩ :=
  ⟨h.toLive.of_ev htype, fun hstop hcl => h.closed hstop (hclosing ▸ hcl)⟩

theorem Settled.of_none (h : ∀ f, o.reg f = none) : Settled stopping o :=
  ⟨.of_none h, fun _ _ => h⟩

theorem Settled.submit (h : Settled stopping o) (evmask : Mask) (verdict : Verdict) :
    Settled stopping (eventSubmit kqueue o evmask verdict).2 := by
  refine ⟨h.toLive.submit evmask verdict, fun hstop => ?_⟩
  -- a closing event is left alone
  unfold eventSubmit
  split_ifs with hclosing
  · exact h.closed hstop
  · exact fun hcl => absurd hcl hclosing

theorem Settled.deliver (h : Settled stopping o) {f : Filter} {k : Kq}
    (hdel : Posixc.deliver o.reg f = some k) : Settled stopping { o with reg := k } := by
  refine ⟨h.toLive.deliver hdel, fun hstop hclosing => ?_⟩
  obtain ⟨kn, hkn, -, -⟩ := deliver_eq_some.mp hdel
  rw [h.closed hstop hclosing f] at hkn
  cases hkn

theorem Settled.descriptorClosed (h : Settled stopping o) :
    Settled stopping { o with reg := kqueue.descriptorClosed o.ev o.reg } :=
  ⟨h.toLive.descriptorClosed, fun hstop hclosing =>
    descriptorClosed_none (h.closed hstop hclosing) o.ev⟩

end Settled

/-- Events that are held have a sound registration, and nothing is delivered for
the others. Those of `stopping` are just being stopped. -/
structure Sound (stopping : List ℕ) (r : Reactor Kq) : Prop where
  listed : ListedClosing r
  live : ∀ e, r.Holds e → Settled (e ∈ stopping) (r.obj e)
  quiet : ∀ e, ¬ r.Holds e → (r.obj e).reg.Quiet

section Sound

variable {stopping stopping' : List ℕ} {r r' : Reactor Kq} {e : ℕ}

theorem Sound.quiet_of_closing (h : Sound stopping r) (hstop : e ∉ stopping)
    (hclosing : (r.obj e).ev.closing = true) : (r.obj e).reg.Quiet := by
  by_cases hold : r.Holds e
  · exact Kq.quiet_of_none ((h.live e hold).closed hstop hclosing)
  · exact h.quiet e hold

theorem Sound.mono (h : Sound stopping r) (hsub : stopping ⊆ stopping') : Sound stopping' r :=
  ⟨h.listed, fun e hold => ⟨(h.live e hold).toLive, fun hstop =>
    (h.live e hold).closed fun hmem => hstop (hsub hmem)⟩, h.quiet⟩

/-- Releasing an event that cannot be delivered. Nothing else is asked of it. -/
theorem Sound.of_release (hlisted : ListedClosing r)
    (hlive : ∀ i, i ≠ e → r.Holds i → Settled (i ∈ stopping) (r.obj i))
    (hquiet : ∀ i, i ≠ e → ¬ r.Holds i → (r.obj i).reg.Quiet) (he : (r.obj e).reg.Quiet) :
    Sound stopping (eventRelease kqueue r e) := by
  refine ⟨hlisted.release e, fun i hi => ?_, fun i hi => ?_⟩
  · -- closing the descriptor may take the knotes of others, which keeps them live
    obtain ⟨hold, hne⟩ := (eventRelease_holds i).mp hi
    rcases eventRelease_obj (P := kqueue) (r := r) (e := e) i with hobj | hobj <;> rw [hobj]
    · exact hlive i hne hold
    · exact (hlive i hne hold).descriptorClosed
  · -- and delivers nothing for those that are released
    have hq : (r.obj i).reg.Quiet := by
      by_cases hne : i = e
      · rw [hne]
        exact he
      · exact hquiet i hne fun hold => hi ((eventRelease_holds i).mpr ⟨hold, hne⟩)
    rcases eventRelease_obj (P := kqueue) (r := r) (e := e) i with hobj | hobj <;> rw [hobj]
    · exact hq
    · exact hq.descriptorClosed (r.obj i).ev

theorem Sound.release (h : Sound stopping r) (he : (r.obj e).reg.Quiet) :
    Sound stopping (eventRelease kqueue r e) :=
  .of_release h.listed (fun i _ => h.live i) (fun i _ => h.quiet i) he

/-- A change to a held event that keeps it live. -/
theorem Sound.setObj (h : Sound stopping r) (hold : r.Holds e) {o : Obj Kq}
    (ho : Settled (e ∈ stopping) o)
    (hclosing : (r.obj e).ev.closing = true → o.ev.closing = true) :
    Sound stopping (r.setObj e o) := by
  refine ⟨h.listed.setObj hclosing, fun i hi => ?_, fun i hi => ?_⟩
  · rw [Reactor.setObj_obj]
    split_ifs with heq
    · exact heq ▸ ho
    · exact h.live i hi
  · have hne : i ≠ e := by
      rintro rfl
      exact hi hold
    rw [Reactor.setObj_obj, if_neg hne]
    exact h.quiet i hi

/-- The line that closes a held event leaves its knotes for the next. -/
theorem Sound.close (h : Sound stopping r) (hold : r.Holds e) :
    Sound (e :: stopping) (StopStage.close.run kqueue r e) := by
  refine (h.mono (List.subset_cons_self e stopping)).setObj hold ?_ fun _ => rfl
  exact ⟨(h.live e hold).toLive.of_ev rfl, fun hstop => absurd List.mem_cons_self hstop⟩

/-- The line after it takes them. -/
theorem Sound.unregister (h : Sound (e :: stopping) r) (hold : r.Holds e) :
    Sound stopping (StopStage.unregister.run kqueue r e) := by
  have hnone : ∀ f, (kqPlatDestroy (r.obj e).ev (r.obj e).reg).2 f = none := fun f =>
    (h.live e hold).platDestroy rfl f
  have hset := h.setObj hold (o := ⟨(r.obj e).ev, _⟩) (.of_none hnone) id
  refine ⟨hset.listed, fun i hi => ⟨(hset.live i hi).toLive, fun hstop hclosing => ?_⟩, hset.quiet⟩
  by_cases hie : i = e
  · intro f
    rw [StopStage.run, Reactor.setObj_obj, if_pos hie]
    exact hnone f
  · exact (hset.live i hi).closed (List.not_mem_cons_of_ne_of_not_mem hie hstop) hclosing

theorem Sound.shutdown (h : Sound stopping r) (e : ℕ) :
    Sound stopping (StopStage.shutdown.run kqueue r e) :=
  ⟨h.listed, h.live, h.quiet⟩

/-- All three lines together. -/
theorem Sound.stop (h : Sound stopping r) (hold : r.Holds e) :
    Sound stopping (eventStop kqueue r e) := by
  rw [← StopStage.run_all]
  exact ((h.close hold).unregister hold).shutdown e

/-- A destroy on the reactor's thread, of an event that no other thread is just
stopping. -/
theorem Sound.destroy {held : Bool} (h : Sound stopping r) (hold : r.Holds e)
    (hfree : e ∉ stopping) (hrun : eventDestroy kqueue true held r e = some r') :
    Sound stopping r' := by
  have hstop := h.stop hold
  -- so it can be released at any time after
  have hquiet : ((eventStop kqueue r e).obj e).reg.Quiet :=
    hstop.quiet_of_closing hfree (by rw [eventStop_ev, if_pos rfl])
  rcases eventDestroy_cases hrun with ⟨hclosing, -, rfl⟩ | ⟨-, hr, -⟩ | ⟨-, -, rfl⟩ |
    ⟨-, hr, -, -⟩
  · exact h.release (h.quiet_of_closing hfree hclosing)
  · cases hr
  · exact hstop.release hquiet
  · cases hr

theorem Sound.create (h : Sound stopping r) (fd : ℤ) (cb : Option ℕ) (arg : ℕ) (type : EventType)
    (mem : Bool) (verdict : Verdict) :
    Sound stopping (eventCreate kqueue r fd cb arg type mem verdict).2 := by
  have hlisted := h.listed.create (P := kqueue) fd cb arg type mem verdict
  cases mem with
  | false => exact h
  | true =>
    obtain ⟨hquiet, hlive⟩ := kqPlatCreate_spec (eventInit fd cb arg type) verdict
    unfold eventCreate at hlisted ⊢
    rw [if_pos rfl] at hlisted ⊢
    dsimp only at hlisted ⊢
    set reg := kqueue.platCreate (eventInit fd cb arg type) kqueue.unregistered verdict with hreg
    set r₁ : Reactor Kq :=
      ({ r with created := r.created + 1, fds := preparefd r.fds fd } : Reactor Kq).setObj
        r.created ⟨eventInit fd cb arg type, reg.2⟩ with hr₁
    -- the events that were there are as they were
    have hobj : ∀ i, i ≠ r.created → r₁.obj i = r.obj i := by
      intro i hi
      rw [hr₁, Reactor.setObj_obj, if_neg hi]
    have hheld : ∀ i, i ≠ r.created → (r₁.Holds i ↔ r.Holds i) := by
      intro i hi
      refine and_congr_left fun _ => ?_
      change i < r.created + 1 ↔ i < r.created
      omega
    have hself : r₁.obj r.created = ⟨eventInit fd cb arg type, reg.2⟩ := by
      rw [hr₁, Reactor.setObj_obj, if_pos rfl]
    have hlive₁ : ∀ i, i ≠ r.created → r₁.Holds i → Settled (i ∈ stopping) (r₁.obj i) :=
      fun i hi hold => by
        rw [hobj i hi]
        exact h.live i ((hheld i hi).mp hold)
    have hquiet₁ : ∀ i, i ≠ r.created → ¬ r₁.Holds i → (r₁.obj i).reg.Quiet := fun i hi hold => by
      rw [hobj i hi]
      exact h.quiet i fun hr => hold ((hheld i hi).mpr hr)
    split_ifs at hlisted ⊢ with hok
    · refine ⟨hlisted, fun i hi => ?_, fun i hi => ?_⟩
      · by_cases heq : i = r.created
        · -- the new event was registered as a whole
          rw [heq, hself]
          exact ⟨(hlive hok).1, fun _ hclosing => nomatch hclosing⟩
        · exact hlive₁ i heq hi
      · by_cases heq : i = r.created
        · rw [heq, hself]
          exact hquiet
        · exact hquiet₁ i heq hi
    · -- the event that could not be registered is released at once
      refine .of_release ?_ hlive₁ hquiet₁ (by rw [hself]; exact hquiet)
      refine h.listed.of_grows ⟨Nat.le_succ _, fun i hi hcl => ?_⟩ fun _ => id
      rw [hobj i hi.ne]
      exact hcl

/-- A call that destroys nothing, or destroys on the reactor's thread. -/
theorem Sound.apply {isReactor : Bool} {o : Op} (h : Sound stopping r)
    (hdestroys : ∀ e, o = .destroy e → isReactor = true ∧ e ∉ stopping)
    (hrun : o.apply kqueue isReactor r = some r') : Sound stopping r' := by
  rcases Op.apply_cases hrun with ⟨ids, fd, cb, arg, type, mem, verdict, rfl⟩ |
    ⟨i, new, hold, rfl, hclosing, htype, hreg⟩ | ⟨i, ho, hold, hdestroy⟩
  · have hcounter : Sound stopping { r with timerIds := ids } := ⟨h.listed, h.live, h.quiet⟩
    exact hcounter.create fd cb arg type mem verdict
  · -- a submit keeps the event live, a new interval does not reach the kernel
    have hlive : Settled (i ∈ stopping) new := by
      rcases hreg with hreg | ⟨evmask, verdict, rfl⟩
      · have hsame := (h.live i hold).of_ev htype hclosing
        rw [← hreg] at hsame
        exact hsame
      · exact (h.live i hold).submit evmask verdict
    exact h.setObj hold hlive (by rw [hclosing]; exact id)
  · obtain ⟨rfl, hfree⟩ := hdestroys i ho
    exact h.destroy hold hfree hdestroy

/-- A collection, while no listed event is just being stopped. -/
theorem Sound.gc {isReactor : Bool} (h : Sound stopping r)
    (hfree : ∀ e ∈ r.gcEvents, e ∉ stopping)
    (hrun : reactorGc kqueue isReactor r = some r') : Sound stopping r' := by
  have hempty : Sound stopping { r with gcEvents := [] } :=
    ⟨fun _ he => absurd he List.not_mem_nil, h.live, h.quiet⟩
  cases isReactor with
  | true =>
    rw [reactorGc_reactor h.listed] at hrun
    obtain rfl := Option.some.inj hrun
    -- every listed event is closing still when its turn comes
    refine (foldl_eventRelease (I := fun r₁ => Sound stopping r₁ ∧
        ∀ i, (r₁.obj i).ev = (r.obj i).ev) r.gcEvents
      (fun r₁ i hi h₁ => ⟨h₁.1.release ?_, fun j => ?_⟩) ⟨hempty, fun _ => rfl⟩).1
    · exact h₁.1.quiet_of_closing (hfree i hi) (by rw [h₁.2]; exact (h.listed i hi).2)
    · rw [eventRelease_ev, h₁.2]
  | false =>
    rw [reactorGc_user h.listed] at hrun
    obtain rfl := Option.some.inj hrun
    exact hempty

/-- What is delivered belongs to an event that is held. -/
theorem Sound.holds_of_deliver (h : Sound stopping r) {f : Filter} {k : Kq}
    (hdel : deliver (r.obj e).reg f = some k) : r.Holds e := by
  by_contra hold
  have hen := deliver_enabled hdel
  rw [h.quiet e hold f] at hen
  cases hen

theorem Sound.deliverAll (batch : List Kevent) :
    ∀ r r' : Reactor Kq, Sound stopping r → Posixc.deliverAll batch r = some r' →
      Sound stopping r' ∧ (∀ i, r'.Holds i ↔ r.Holds i) ∧ ∀ ev ∈ batch, r.Holds ev.udata := by
  induction batch with
  | nil =>
    intro r r' h hrun
    obtain rfl := Option.some.inj hrun
    exact ⟨h, fun _ => Iff.rfl, fun _ hev => absurd hev List.not_mem_nil⟩
  | cons ev batch ih =>
    intro r r' h hrun
    obtain ⟨k, hdel, hrest⟩ := Option.bind_eq_some_iff.mp hrun
    -- the entry's event is held, and filling the batch releases none
    have hold := h.holds_of_deliver hdel
    obtain ⟨hsound, hheld, hbatch⟩ :=
      ih _ r' (h.setObj hold ((h.live _ hold).deliver hdel) id) hrest
    refine ⟨hsound, hheld, fun ev' hev' => ?_⟩
    rcases List.mem_cons.mp hev' with rfl | hev'
    · exact hold
    · exact hbatch ev' hev'

end Sound

end Posixc
