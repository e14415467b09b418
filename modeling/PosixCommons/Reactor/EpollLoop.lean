import PosixCommons.Event.Epoll
import PosixCommons.Reactor.Loop

/-!
# The epoll reactor

`linux/reactor_epoll.c`. The loop is that of the kqueue reactor up to its
constants and its end: the thread collects every 128th time, and not when it ends.
`epoll_wait` fills an array of `max_events` entries that is new in every round,
and the inner loop counts the entries with `j`; but the entry that it consumes is
`events[i]`, with the counter `i` of the rounds.

The state keeps two lists, of the entries that `epoll_wait` returned so far and of
those that `consume_epollev` was called on, both in order. `InOrder` says that the
second is the first, less what is left of the batch. A call for the entry `j` keeps
that exactly when `i` is `j` (`InOrder.consume`, `Tracks.not_inOrder`): a batch has
no descriptor twice, so another entry of it is not the right one, and beyond the
batch the array was never written.
-/

open Framework

namespace Posixc

/-- `struct epoll_event`. -/
structure EpollEvent where
  ptr : ℕ
  events : Mask
  deriving DecidableEq

namespace EpollLoop

/-- `max_events`. -/
def maxEvents : ℕ := 64

/-- `loops_per_gc`. -/
def loopsPerGc : ℕ := 128

/-- Where the reactor's thread is: at the test of `closing`, in `epoll_wait`,
before the iteration `j` over a batch, in the callback that this iteration called,
at its end, or stopped by an access. -/
inductive Pc where
  | top
  | wait
  | dispatch (batch : List EpollEvent) (j : ℕ)
  | callback (batch : List EpollEvent) (j : ℕ)
  | exited
  | faulted (fault : Fault)
  deriving DecidableEq

end EpollLoop

/-- A reactor with its thread, and the destroys that user threads are in. `i` is the
counter of the loop. `returned` and `consumed` record the past: the entries that
`epoll_wait` returned, and those that `consume_epollev` was called on. -/
structure EpollLoop where
  reactor : Reactor Epoll
  destroying : List Destroying
  pc : EpollLoop.Pc
  i : ℕ
  teardown : Teardown
  returned : List EpollEvent
  consumed : List EpollEvent

/-- `consume_epollev` up to the call of the callback, which it returns. -/
def consumeEntry (r : Reactor Epoll) (ev : EpollEvent) : Option ℕ × Reactor Epoll :=
  let o := r.obj ev.ptr
  (o.ev.cb, r.setObj ev.ptr (consumeEpollev o ev.events))

namespace EpollLoop

/-- The array `events` after `epoll_wait` returned the batch. -/
def eventsArray (batch : List EpollEvent) : Region EpollEvent := ⟨maxEvents, fun k => batch[k]?⟩

/-- `epoll_wait` puts the entries in the array, one after the other. -/
def deliverAll : List EpollEvent → Reactor Epoll → Option (Reactor Epoll)
  | [], r => some r
  | ev :: batch, r => do
    let k ← epollDeliver ev.events (r.obj ev.ptr).reg
    deliverAll batch (r.setObj ev.ptr { r.obj ev.ptr with reg := k })

/-- A batch fits in the array, and has no descriptor twice. -/
def ValidBatch (batch : List EpollEvent) : Prop :=
  batch.length ≤ maxEvents ∧ (batch.map EpollEvent.ptr).Nodup

instance (batch : List EpollEvent) : Decidable (ValidBatch batch) :=
  inferInstanceAs (Decidable (_ ∧ _))

/-- A step of the reactor's thread or of another. -/
inductive Move where
  /-- Another thread makes a call, of which a destroy is only begun. -/
  | user (o : Op)
  /-- Another thread goes on with the `i`-th destroy that was begun. -/
  | userGo (i : ℕ)
  /-- The callback that is running makes a call. -/
  | callback (o : Op)
  /-- The callback returns. -/
  | ret
  /-- The test of `closing`. -/
  | test
  /-- `epoll_wait` returns a batch. An empty one stands for its errors but `EBADF`. -/
  | fetch (batch : List EpollEvent)
  /-- `epoll_wait` fails with `EBADF`. -/
  | badf
  /-- An iteration of the inner loop. -/
  | consume
  /-- The end of the batch. -/
  | finish
  /-- `posixc_reactor_destroy` collects. -/
  | destroyGc
  /-- `posixc_reactor_destroy` sets `closing`. -/
  | destroyClose
  /-- `posixc_reactor_destroy` has joined the thread, and returns. -/
  | destroyJoin

/-- The step. `none` where the move is not the next of its thread. -/
def next (s : EpollLoop) : Move → Option EpollLoop
  | .user o =>
    if s.teardown = .joined then none
    else (userCall epoll s.reactor s.destroying o).map fun (r, ds) =>
      { s with reactor := r, destroying := ds }
  | .userGo i =>
    if s.teardown = .joined then none
    else (userGo epoll s.reactor s.destroying i).map fun (r, ds) =>
      { s with reactor := r, destroying := ds }
  | .callback o =>
    match s.pc with
    | .callback _ _ => (o.apply epoll true s.reactor).map fun r => { s with reactor := r }
    | _ => none
  | .ret =>
    match s.pc with
    | .callback batch j => some { s with pc := .dispatch batch (j + 1) }
    | _ => none
  | .test =>
    match s.pc with
    | .top => some { s with pc := if s.reactor.closing then .exited else .wait }
    | _ => none
  | .fetch batch =>
    match s.pc with
    | .wait =>
      if ValidBatch batch then
        (deliverAll batch s.reactor).map fun r =>
          { s with reactor := r, pc := .dispatch batch 0, returned := s.returned ++ batch }
      else none
    | _ => none
  | .badf =>
    match s.pc with
    | .wait => some { s with pc := .exited }
    | _ => none
  | .consume =>
    match s.pc with
    | .dispatch batch j =>
      if j < batch.length then
        -- the entry is that of the outer counter
        match (eventsArray batch).read s.i with
        | .ok ev =>
          let (cb, r) := consumeEntry s.reactor ev
          some { s with reactor := r
                        pc := if cb.isSome then .callback batch j else .dispatch batch (j + 1)
                        consumed := s.consumed ++ [ev] }
        | .error fault => some { s with pc := .faulted fault }
      else none
    | _ => none
  | .finish =>
    match s.pc with
    | .dispatch batch j =>
      if j < batch.length then none
      else
        (if s.i % loopsPerGc = 0 then reactorGc epoll true s.reactor else some s.reactor).map
          fun r => { s with reactor := r, pc := .top, i := (s.i + 1) % 2 ^ 32 }
    | _ => none
  | .destroyGc =>
    if s.teardown = .notCalled then
      (reactorGc epoll false s.reactor).map fun r =>
        { s with reactor := r, teardown := .collected }
    else none
  | .destroyClose =>
    if s.teardown = .collected then
      some { s with reactor := { s.reactor with closing := true }, teardown := .closed }
    else none
  | .destroyJoin =>
    match s.pc with
    | .exited => if s.teardown = .closed then some { s with teardown := .joined } else none
    | _ => none

/-- `posixc_reactor_create`, with the thread at its first test. -/
def create (fds : FdTable) (timerIds : ℕ) : EpollLoop where
  reactor := reactorCreate epoll fds timerIds
  destroying := []
  pc := .top
  i := 0
  teardown := .notCalled
  returned := []
  consumed := []

end EpollLoop

/-- The epoll reactor and everything around it. -/
def epollLoopSystem : System EpollLoop EpollLoop.Move where
  init s := ∃ fds timerIds, s = EpollLoop.create fds timerIds
  next := EpollLoop.next

namespace EpollLoop

/-- The batch that the inner loop is at. -/
def batch (s : EpollLoop) : List EpollEvent :=
  match s.pc with
  | .dispatch batch _ => batch
  | .callback batch _ => batch
  | _ => []

/-- What is left of it. -/
def pending (s : EpollLoop) : List EpollEvent :=
  match s.pc with
  | .dispatch batch j => batch.drop j
  | .callback batch j => batch.drop (j + 1)
  | _ => []

/-- `consume_epollev` was called once on each entry returned so far, in order, and
on nothing else; only what is left of the batch is missing. -/
structure InOrder (s : EpollLoop) : Prop where
  noFault : ∀ fault, s.pc ≠ .faulted fault
  served : s.returned = s.consumed ++ s.pending

/-- If the step is an iteration of the inner loop, its index is the counter of the
outer one. -/
def Move.OnIndex (s : EpollLoop) (m : Move) : Prop :=
  m = .consume → ∀ batch j, s.pc = .dispatch batch j → j < batch.length → s.i = j

/-- What holds as long as every iteration has the right index. -/
structure Tracks (s : EpollLoop) : Prop where
  inOrder : InOrder s
  valid : ValidBatch s.batch

section Steps

variable {s s' : EpollLoop} {m : Move} {batch : List EpollEvent} {j : ℕ}

theorem ValidBatch.holds (h : ValidBatch batch) : (eventsArray batch).Holds batch :=
  ⟨h.1, fun _ _ => rfl⟩

/-- The batch and what is left of it, at an iteration of the inner loop. -/
theorem Tracks.dispatch (h : Tracks s) (hpc : s.pc = .dispatch batch j) :
    ValidBatch batch ∧ s.returned = s.consumed ++ batch.drop j := by
  have hvalid := h.valid
  have hserved := h.inOrder.served
  rw [EpollLoop.batch, hpc] at hvalid
  rw [pending, hpc] at hserved
  exact ⟨hvalid, hserved⟩

/-- **An iteration with the right index** consumes the next entry of the batch. -/
theorem Tracks.consume (h : Tracks s) (hpc : s.pc = .dispatch batch j) (hj : j < batch.length)
    (hi : s.i = j) (hnext : s.next .consume = some s') : Tracks s' := by
  obtain ⟨hvalid, hserved⟩ := h.dispatch hpc
  rw [next, hpc] at hnext
  dsimp only at hnext
  rw [if_pos hj, hi, hvalid.holds.read hj] at hnext
  obtain rfl := Option.some.inj hnext
  -- the entry moves from what is left to what was consumed
  have hmove : s.returned = s.consumed ++ [batch[j]] ++ batch.drop (j + 1) := by
    rw [hserved, List.drop_eq_getElem_cons hj, List.append_assoc]
    rfl
  cases hcb : (consumeEntry s.reactor batch[j]).1 with
  | none => exact ⟨⟨fun _ => nofun, hmove⟩, hvalid⟩
  | some cb => exact ⟨⟨fun _ => nofun, hmove⟩, hvalid⟩

/-- **An iteration with another index** stops at the access, or consumes another
entry than the next. -/
theorem Tracks.not_inOrder (h : Tracks s) (hpc : s.pc = .dispatch batch j)
    (hj : j < batch.length) (hi : s.i ≠ j) : ∃ s', s.next .consume = some s' ∧ ¬ InOrder s' := by
  obtain ⟨hvalid, hserved⟩ := h.dispatch hpc
  rw [next, hpc]
  dsimp only
  rw [if_pos hj]
  cases hread : (eventsArray batch).read s.i with
  | error fault => exact ⟨_, rfl, fun hin => hin.noFault fault rfl⟩
  | ok ev =>
    refine ⟨_, rfl, fun hin => hi ?_⟩
    -- in order, the entry consumed would be the next one
    have hev : batch[j] = ev := by
      have hmove := hin.served
      dsimp only at hmove
      have hrest : s.returned = s.consumed ++ ev :: batch.drop (j + 1) := by
        rw [hmove, List.append_assoc]
        unfold pending
        split_ifs <;> rfl
      rw [hserved, List.drop_eq_getElem_cons hj, List.append_cancel_left_eq] at hrest
      exact (List.cons.inj hrest).1
    -- but no descriptor is in the batch twice
    have hget : batch[s.i]? = some ev := Region.cell_of_read hread
    obtain ⟨hlt, hat⟩ := List.getElem?_eq_some_iff.mp hget
    have hptr : (batch.map EpollEvent.ptr)[s.i]? = (batch.map EpollEvent.ptr)[j]? := by
      rw [List.getElem?_map, List.getElem?_map, hget, List.getElem?_eq_getElem hj, hev]
    exact (List.getElem?_inj (by simpa using hlt) hvalid.2).mp hptr

/-- A step that leaves the place and the two lists. -/
theorem Tracks.of_same (h : Tracks s) (hpc : s'.pc = s.pc) (hreturned : s'.returned = s.returned)
    (hconsumed : s'.consumed = s.consumed) : Tracks s' := by
  refine ⟨⟨?_, ?_⟩, ?_⟩
  · rw [hpc]
    exact h.inOrder.noFault
  · rw [hreturned, hconsumed, pending, hpc, ← pending]
    exact h.inOrder.served
  · rw [EpollLoop.batch, hpc, ← EpollLoop.batch]
    exact h.valid

/-- A step to a place outside the inner loop, with nothing left of the batch. -/
theorem Tracks.of_empty (h : Tracks s) (hempty : s.pending = []) (hpc : s'.pc = .top ∨
    s'.pc = .wait ∨ s'.pc = .exited) (hreturned : s'.returned = s.returned)
    (hconsumed : s'.consumed = s.consumed) : Tracks s' := by
  have hserved := h.inOrder.served
  rw [hempty, ← hreturned, ← hconsumed] at hserved
  rcases hpc with hpc | hpc | hpc
  all_goals
    refine ⟨⟨?_, ?_⟩, ?_⟩
    · rw [hpc]
      exact fun _ => nofun
    · rw [pending, hpc]
      exact hserved
    · rw [EpollLoop.batch, hpc]
      exact ⟨Nat.zero_le _, List.nodup_nil⟩

/-- **One step.** -/
theorem Tracks.step (h : Tracks s) (hon : m.OnIndex s) (hnext : s.next m = some s') :
    Tracks s' := by
  cases m with
  | user o =>
    rw [next] at hnext
    split_ifs at hnext
    obtain ⟨⟨r, ds⟩, -, rfl⟩ := Option.map_eq_some_iff.mp hnext
    exact h.of_same rfl rfl rfl
  | userGo i =>
    rw [next] at hnext
    split_ifs at hnext
    obtain ⟨⟨r, ds⟩, -, rfl⟩ := Option.map_eq_some_iff.mp hnext
    exact h.of_same rfl rfl rfl
  | callback o =>
    rw [next] at hnext
    split at hnext
    · obtain ⟨r, -, rfl⟩ := Option.map_eq_some_iff.mp hnext
      exact h.of_same rfl rfl rfl
    · cases hnext
  | ret =>
    rw [next] at hnext
    split at hnext
    · next batch j hpc =>
      obtain rfl := Option.some.inj hnext
      have hvalid := h.valid
      have hserved := h.inOrder.served
      rw [EpollLoop.batch, hpc] at hvalid
      rw [pending, hpc] at hserved
      exact ⟨⟨fun _ => nofun, hserved⟩, hvalid⟩
    · cases hnext
  | test =>
    rw [next] at hnext
    split at hnext
    · next hpc =>
      obtain rfl := Option.some.inj hnext
      refine h.of_empty (by rw [pending, hpc]) ?_ rfl rfl
      dsimp only
      split_ifs
      · exact .inr (.inr rfl)
      · exact .inr (.inl rfl)
    · cases hnext
  | fetch batch =>
    rw [next] at hnext
    split at hnext
    · next hpc =>
      split_ifs at hnext with hvalid
      obtain ⟨r, -, rfl⟩ := Option.map_eq_some_iff.mp hnext
      -- everything returned before was consumed
      have hserved := h.inOrder.served
      rw [pending, hpc] at hserved
      dsimp only at hserved
      rw [List.append_nil] at hserved
      exact ⟨⟨fun _ => nofun, show s.returned ++ batch = s.consumed ++ batch by rw [hserved]⟩,
        hvalid⟩
    · cases hnext
  | badf =>
    rw [next] at hnext
    split at hnext
    · next hpc =>
      obtain rfl := Option.some.inj hnext
      exact h.of_empty (by rw [pending, hpc]) (.inr (.inr rfl)) rfl rfl
    · cases hnext
  | consume =>
    cases hpc : s.pc with
    | dispatch batch j =>
      by_cases hj : j < batch.length
      · exact h.consume hpc hj (hon rfl batch j hpc hj) hnext
      · rw [next, hpc] at hnext
        dsimp only at hnext
        rw [if_neg hj] at hnext
        cases hnext
    | _ => rw [next, hpc] at hnext; cases hnext
  | finish =>
    rw [next] at hnext
    split at hnext
    · next batch j hpc =>
      split_ifs at hnext with hj
      all_goals
        obtain ⟨r, -, rfl⟩ := Option.map_eq_some_iff.mp hnext
        refine h.of_empty ?_ (.inl rfl) rfl rfl
        rw [pending, hpc]
        exact List.drop_eq_nil_of_le (Nat.le_of_not_lt hj)
    · cases hnext
  | destroyGc =>
    rw [next] at hnext
    split_ifs at hnext
    obtain ⟨r, -, rfl⟩ := Option.map_eq_some_iff.mp hnext
    exact h.of_same rfl rfl rfl
  | destroyClose =>
    rw [next] at hnext
    split_ifs at hnext
    obtain rfl := Option.some.inj hnext
    exact h.of_same rfl rfl rfl
  | destroyJoin =>
    rw [next] at hnext
    split at hnext
    · split_ifs at hnext
      obtain rfl := Option.some.inj hnext
      exact h.of_same rfl rfl rfl
    · cases hnext

theorem Tracks.create (fds : FdTable) (timerIds : ℕ) : Tracks (create fds timerIds) :=
  ⟨⟨fun _ => nofun, rfl⟩, ⟨Nat.zero_le _, List.nodup_nil⟩⟩

end Steps

end EpollLoop

/-- **When the loop serves its batches.** In every state of a run `consume_epollev`
was called once on each entry returned so far, in order, and on nothing else, but
for what is left of the batch, exactly when every iteration of the inner loop has
the counter of the outer loop as its index. -/
theorem epollLoop_inOrder (fds : FdTable) (timerIds : ℕ) (moves : List EpollLoop.Move) :
    epollLoopSystem.Always EpollLoop.InOrder (EpollLoop.create fds timerIds) moves ↔
      epollLoopSystem.Guarded (fun s m => m.OnIndex s) (EpollLoop.create fds timerIds) moves := by
  refine System.always_iff_guarded (J := EpollLoop.Tracks)
    (fun _ _ _ h hon hnext => h.step hon hnext) (fun _ h => h.inOrder) (fun s m h hoff => ?_)
    (.create fds timerIds) moves
  -- an iteration has another index
  obtain ⟨rfl, batch, j, hpc, hj, hi⟩ :
      m = .consume ∧ ∃ batch j, s.pc = .dispatch batch j ∧ j < batch.length ∧ s.i ≠ j := by
    unfold EpollLoop.Move.OnIndex at hoff
    push Not at hoff
    exact hoff
  exact h.not_inOrder hpc hj hi

/-- The first round gets no entry, the second gets one, and reads another cell of
the array. -/
theorem epollLoop_reads_garbage :
    ¬ epollLoopSystem.Always EpollLoop.InOrder (EpollLoop.create socketTable 0)
      [.user (.create 3 none 0 .sockEv true none), .user (.submit 0 0x1 none), .test, .fetch [],
        .finish, .test, .fetch [⟨0, 0x1⟩], .consume] :=
  fun h => (h 8 _ rfl).noFault .uninitialised rfl

end Posixc
