import PosixCommons.Event.Basic
import PosixCommons.Framework.Runs

/-!
# Events on epoll

`linux/event_epoll.c` and `consume_epollev`. The kernel keeps one word of flags for
a registered descriptor, which `EPOLL_CTL_MOD` replaces as a whole. With
`EPOLLONESHOT` in it, reporting any of its flags clears all of them.

On kqueue each direction of a socket has a filter of its own. Here the two share
the word, while the `evmask` of the event still keeps them apart: an entry for one
direction disarms both, and `consume_epollev` clears the bit of the one that was
reported. Nothing arms the other one again before the next submit. So a descriptor
keeps its interest exactly when every entry reports all the directions that are
set, or a submit comes before `consume_epollev` is done with it
(`descriptor_interest`).

The proof carries `Tracked`: from a delivery up to the first submit after it, no
direction is armed, and the directions that are set are those reported but not yet
consumed, and those left out.
-/

open Framework

namespace Posixc

/-! ### The kernel -/

/-- `EPOLLERR`. -/
def epollErr : Mask := 0x0008
/-- `EPOLLONESHOT`. -/
def epollOneshot : Mask := 0x40000000

/-- The flags that a descriptor is registered with, when it is. -/
abbrev Epoll := Option Mask

/-- `epoll_ctl` with `EPOLL_CTL_ADD`. -/
def epollCtlAdd (events : Mask) (verdict : Verdict) : Epoll → Bool × Epoll
  | none => if verdict = some 0 then (false, none) else (true, some events)
  | some old => (false, some old)

/-- `epoll_ctl` with `EPOLL_CTL_MOD`. -/
def epollCtlMod (events : Mask) (verdict : Verdict) : Epoll → Bool × Epoll
  | none => (false, none)
  | some old => if verdict = some 0 then (false, some old) else (true, some events)

/-- `epoll_ctl` with `EPOLL_CTL_DEL`. -/
def epollCtlDel : Epoll → Bool × Epoll
  | none => (false, none)
  | some _ => (true, none)

/-- Reporting flags of a descriptor in an entry. `none` when the kernel cannot:
there is no flag to report, or one that is not armed. -/
def epollDeliver (events : Mask) : Epoll → Option Epoll
  | none => none
  | some armed =>
    if events ≠ 0 ∧ events &&& ~~~(armed &&& ~~~epollOneshot) = 0 then
      some (some (if armed.has epollOneshot then armed &&& epollOneshot else armed))
    else none

/-! ### The platform -/

/-- `posixc_event_plat_create`. -/
def epollPlatCreate (_ : Event) (k : Epoll) (verdict : Verdict) : Bool × Epoll :=
  epollCtlAdd 0 verdict k

/-- `posixc_event_plat_destroy`. -/
def epollPlatDestroy (_ : Event) (k : Epoll) : Bool × Epoll := epollCtlDel k

/-- `posixc_event_plat_submit`. -/
def epollPlatSubmit (e : Event) (k : Epoll) (verdict : Verdict) : Bool × Epoll :=
  epollCtlMod (e.evmask ||| epollOneshot ||| epollErr) verdict k

/-- `event_epoll.c`. A closed descriptor is not registered any more. -/
def epoll : Platform Epoll where
  unregistered := none
  platCreate := epollPlatCreate
  platDestroy := epollPlatDestroy
  platSubmit := epollPlatSubmit
  descriptorClosed _ _ := none

/-- `consume_epollev` up to the call of the callback. -/
def consumeEpollev (o : Obj Epoll) (events : Mask) : Obj Epoll :=
  { o with ev := eventConsume o.ev (events &&& (eventIn ||| eventOut ||| epollErr)) }

/-- The directions of a descriptor. -/
def directions : List Mask := [eventIn, eventOut]

/-- Whether the kernel may report the flag. -/
def Epoll.armed (k : Epoll) (flag : Mask) : Bool := k.any fun events => events.has flag

section Kernel

variable {k k' : Epoll} {armed events : Mask} {d : Mask}

/-- **Inverting a delivery.** -/
theorem epollDeliver_eq_some : epollDeliver events k = some k' ↔
    ∃ armed, k = some armed ∧ events ≠ 0 ∧ events &&& ~~~(armed &&& ~~~epollOneshot) = 0 ∧
      k' = some (if armed.has epollOneshot then armed &&& epollOneshot else armed) := by
  cases k with
  | none => simp [epollDeliver]
  | some armed =>
    rw [epollDeliver]
    constructor
    · intro h
      split_ifs at h with hevents honeshot
      · exact ⟨armed, rfl, hevents.1, hevents.2, by
          rw [if_pos honeshot]; exact (Option.some.inj h).symm⟩
      · exact ⟨armed, rfl, hevents.1, hevents.2, by
          rw [if_neg honeshot]; exact (Option.some.inj h).symm⟩
    · rintro ⟨armed', harmed, hne, hsub, rfl⟩
      obtain rfl : armed = armed' := Option.some.inj harmed
      rw [if_pos ⟨hne, hsub⟩]

/-- `EPOLLONESHOT` alone arms no direction. -/
theorem oneshot_not_direction (hd : d ∈ directions) (armed : Mask) :
    (armed &&& epollOneshot).has d = false := by
  have hdisjoint : epollOneshot &&& d = 0#32 := by
    rcases List.mem_pair.mp hd with rfl | rfl <;> decide
  rw [Mask.has, BitVec.and_assoc, hdisjoint, BitVec.and_zero]
  rfl

/-- What `consume_epollev` leaves of a direction. -/
theorem consumeEpollev_has (hd : d ∈ directions) (o : Obj Epoll) (events : Mask) :
    (consumeEpollev o events).ev.evmask.has d = (o.ev.evmask &&& ~~~events).has d := by
  have hmask : ~~~(events &&& (eventIn ||| eventOut ||| epollErr)) &&& d = ~~~events &&& d := by
    have hsub : ~~~(eventIn ||| eventOut ||| epollErr) &&& d = 0#32 := by
      rcases List.mem_pair.mp hd with rfl | rfl <;> decide
    rw [BitVec.not_and, BitVec.and_or_distrib_right, hsub, BitVec.or_zero]
  rw [Mask.has, Mask.has, consumeEpollev, eventConsume, BitVec.and_assoc, BitVec.and_assoc, hmask]

end Kernel

/-! ### One descriptor -/

/-- Where the entry of a descriptor is. -/
inductive EntryAt where
  | nowhere
  | batch (events : Mask)
  | callback
  deriving DecidableEq

/-- A descriptor's event. `left` and `rearmed` record the past: the bits of the
mask that the last entry did not report, and whether a submit succeeded since. -/
structure Descriptor where
  obj : Obj Epoll
  entry : EntryAt
  left : Mask
  rearmed : Bool

/-- A step that concerns the descriptor. -/
inductive Act where
  /-- A submit by any thread, or by the callback. -/
  | submit (evmask : Mask)
  /-- `epoll_wait` puts an entry for the descriptor in the batch. -/
  | report (events : Mask)
  /-- `consume_epollev` consumes the entry. -/
  | consume
  /-- `consume_epollev` returns, from the callback where there is one. -/
  | ret
  deriving DecidableEq

/-- The step. The masks of submits are over the directions, and the kernel refuses
none of them. -/
def Descriptor.next (s : Descriptor) : Act → Option Descriptor
  | .submit evmask =>
    if evmask &&& ~~~(eventIn ||| eventOut) = 0 then
      let (success, obj) := eventSubmit epoll s.obj evmask none
      some { s with obj := obj, rearmed := s.rearmed || success }
    else none
  | .report events =>
    match s.entry with
    | .nowhere =>
      (epollDeliver events s.obj.reg).map fun k =>
        { obj := { s.obj with reg := k }
          entry := .batch events
          left := s.obj.ev.evmask &&& ~~~events
          rearmed := false }
    | _ => none
  | .consume =>
    match s.entry with
    | .batch events => some { s with obj := consumeEpollev s.obj events, entry := .callback }
    | _ => none
  | .ret =>
    match s.entry with
    | .callback => some { s with entry := .nowhere }
    | _ => none

/-- The event of a descriptor right after its creation. -/
def descriptorCreate (fd : ℤ) (cb : Option ℕ) (arg : ℕ) (type : EventType) : Descriptor where
  obj := ⟨eventInit fd cb arg type,
    (epollPlatCreate (eventInit fd cb arg type) epoll.unregistered none).2⟩
  entry := .nowhere
  left := 0
  rearmed := false

/-- A descriptor that is not closed, among the threads that submit it. -/
def descriptorSystem : System Descriptor Act where
  init s := ∃ fd cb arg type, s = descriptorCreate fd cb arg type
  next := Descriptor.next

/-- When no entry is being handled, every direction that is set is armed. -/
def KeepsInterest (s : Descriptor) : Prop :=
  s.entry = .nowhere → ∀ d ∈ directions, s.obj.ev.evmask.has d = true → s.obj.reg.armed d = true

/-- `consume_epollev` returns from an entry that left out a direction, and there was
no submit since the entry was put in the batch. -/
def Act.DropsInterest (s : Descriptor) (a : Act) : Prop :=
  a = .ret ∧ s.entry = .callback ∧ s.rearmed = false ∧ ∃ d ∈ directions, s.left.has d = true

/-- What is known of the descriptor. After an entry and before the next submit,
nothing is armed. -/
structure Tracked (s : Descriptor) : Prop where
  opened : s.obj.ev.closing = false
  registered : ∃ armed, s.obj.reg = some armed ∧ (armed = 0 ∨ armed.has epollOneshot = true)
  armed : s.entry = .nowhere ∨ s.rearmed = true →
    ∀ d ∈ directions, s.obj.ev.evmask.has d = true → s.obj.reg.armed d = true
  disarmed : s.entry ≠ .nowhere → s.rearmed = false →
    ∀ d ∈ directions, s.obj.reg.armed d = false
  reported : ∀ events, s.entry = .batch events → s.rearmed = false →
    ∀ d ∈ directions, (s.obj.ev.evmask &&& ~~~events).has d = s.left.has d
  consumed : s.entry = .callback → s.rearmed = false →
    ∀ d ∈ directions, s.obj.ev.evmask.has d = s.left.has d

section Tracked

variable {s s' : Descriptor} {a : Act}

theorem Tracked.keepsInterest (h : Tracked s) : KeepsInterest s := fun hentry =>
  h.armed (.inl hentry)

theorem Tracked.init (fd : ℤ) (cb : Option ℕ) (arg : ℕ) (type : EventType) :
    Tracked (descriptorCreate fd cb arg type) := by
  -- nothing is set before the first submit
  refine ⟨rfl, ⟨0, rfl, .inl rfl⟩, fun _ d _ hbit => ?_, fun hentry => absurd rfl hentry,
    nofun, nofun⟩
  rw [descriptorCreate, eventInit, Mask.has_zero] at hbit
  cases hbit

/-- A submit arms all the directions that are set after it. -/
theorem Tracked.submit (h : Tracked s) (evmask : Mask) :
    Tracked { s with
      obj := (eventSubmit epoll s.obj evmask none).2
      rearmed := s.rearmed || (eventSubmit epoll s.obj evmask none).1 } := by
  obtain ⟨old, hold, -⟩ := h.registered
  -- `EPOLL_CTL_MOD` finds the descriptor registered
  have hsubmit : eventSubmit epoll s.obj evmask none =
      (true, ⟨{ s.obj.ev with evmask := s.obj.ev.evmask ||| evmask },
        some (s.obj.ev.evmask ||| evmask ||| epollOneshot ||| epollErr)⟩) := by
    rw [eventSubmit, if_neg (by rw [h.opened]; exact Bool.false_ne_true), hold]
    rfl
  rw [hsubmit, Bool.or_true]
  refine ⟨h.opened, ⟨_, rfl, .inr ?_⟩, fun _ d _ hbit => ?_, fun _ hno => ?_, fun _ _ hno => ?_,
    fun _ hno => ?_⟩
  · have hself : epollOneshot.has epollOneshot = true := by decide
    rw [Mask.has_or, Mask.has_or, hself, Bool.or_true, Bool.true_or]
  · rw [Epoll.armed, Option.any_some, Mask.has_or, Mask.has_or, hbit, Bool.true_or, Bool.true_or]
  · cases hno
  · cases hno
  · cases hno

/-- An entry disarms the descriptor. -/
theorem Tracked.report (h : Tracked s) {events : Mask} {k : Epoll}
    (hdel : epollDeliver events s.obj.reg = some k) :
    Tracked { obj := { s.obj with reg := k }
              entry := .batch events
              left := s.obj.ev.evmask &&& ~~~events
              rearmed := false } := by
  obtain ⟨armed, hreg, hne, hsub, rfl⟩ := epollDeliver_eq_some.mp hdel
  obtain ⟨armed', hreg', hflags⟩ := h.registered
  obtain rfl : armed = armed' := Option.some.inj (hreg.symm.trans hreg')
  -- a descriptor that was never submitted has nothing to report
  have honeshot : armed.has epollOneshot = true := by
    rcases hflags with rfl | honeshot
    · have hall : ~~~((0 : Mask) &&& ~~~epollOneshot) = BitVec.allOnes 32 := by decide
      rw [hall, BitVec.and_allOnes] at hsub
      exact absurd hsub hne
    · exact honeshot
  rw [if_pos honeshot]
  -- the entry is in the batch, so only what holds of a disarmed descriptor is left
  refine ⟨h.opened, ⟨_, rfl, .inr ?_⟩, fun hno => ?_, fun _ _ d hd => ?_, fun events' he _ d _ => ?_,
    nofun⟩
  · rw [Mask.has, BitVec.and_assoc, BitVec.and_self, ← Mask.has]
    exact honeshot
  · rcases hno with hno | hno <;> cases hno
  · exact oneshot_not_direction hd armed
  · obtain rfl := EntryAt.batch.inj he
    rfl

theorem Tracked.consume (h : Tracked s) {events : Mask} (hentry : s.entry = .batch events) :
    Tracked { s with obj := consumeEpollev s.obj events, entry := .callback } := by
  have hbatch : s.entry ≠ .nowhere := by rw [hentry]; nofun
  refine ⟨h.opened, h.registered, fun hrearmed d hd hbit => ?_, fun _ => h.disarmed hbatch, nofun,
    fun _ hno d hd => ?_⟩
  · rcases hrearmed with hno | hrearmed
    · cases hno
    · -- consuming only clears bits, so those that are set were armed
      rw [consumeEpollev_has hd] at hbit
      exact h.armed (.inr hrearmed) d hd (Mask.has_of_and hbit)
  · rw [consumeEpollev_has hd]
    exact h.reported events hentry hno d hd

/-- **One step.** -/
theorem Tracked.step (h : Tracked s) (hkeep : ¬ a.DropsInterest s)
    (hnext : descriptorSystem.next s a = some s') : Tracked s' := by
  change s.next a = some s' at hnext
  rw [Descriptor.next.eq_def] at hnext
  cases a with
  | submit evmask =>
    dsimp only at hnext
    split_ifs at hnext
    obtain rfl := Option.some.inj hnext
    exact h.submit evmask
  | report events =>
    cases hentry : s.entry with
    | nowhere =>
      rw [hentry] at hnext
      obtain ⟨k, hdel, rfl⟩ := Option.map_eq_some_iff.mp hnext
      exact h.report hdel
    | batch _ => rw [hentry] at hnext; cases hnext
    | callback => rw [hentry] at hnext; cases hnext
  | consume =>
    cases hentry : s.entry with
    | batch events =>
      rw [hentry] at hnext
      obtain rfl := Option.some.inj hnext
      exact h.consume hentry
    | nowhere => rw [hentry] at hnext; cases hnext
    | callback => rw [hentry] at hnext; cases hnext
  | ret =>
    cases hentry : s.entry with
    | callback =>
      rw [hentry] at hnext
      obtain rfl := Option.some.inj hnext
      refine ⟨h.opened, h.registered, fun _ d hd hbit => ?_, fun hno => absurd rfl hno, nofun, nofun⟩
      cases hrearmed : s.rearmed with
      | true => exact h.armed (.inr hrearmed) d hd hbit
      | false =>
        -- then the entry left out no direction, so none is set
        rw [h.consumed hentry hrearmed d hd] at hbit
        exact absurd ⟨rfl, hentry, hrearmed, d, hd, hbit⟩ hkeep
    | nowhere => rw [hentry] at hnext; cases hnext
    | batch _ => rw [hentry] at hnext; cases hnext

/-- Returning with a direction left out leaves it set and disarmed. -/
theorem Tracked.not_keepsInterest (h : Tracked s) (hdrop : a.DropsInterest s) :
    ∃ s', descriptorSystem.next s a = some s' ∧ ¬ KeepsInterest s' := by
  obtain ⟨rfl, hentry, hrearmed, d, hd, hleft⟩ := hdrop
  refine ⟨{ s with entry := .nowhere }, ?_, fun hkeeps => ?_⟩
  · change s.next .ret = _
    rw [Descriptor.next, hentry]
  · -- the direction is set, for it was never reported
    have hset : s.obj.ev.evmask.has d = true := by
      rw [h.consumed hentry hrearmed d hd]
      exact hleft
    have hoff := h.disarmed (by rw [hentry]; nofun) hrearmed d hd
    rw [hkeeps rfl d hd hset] at hoff
    cases hoff

end Tracked

/-- **When a descriptor keeps its interest.** In every state of a run where no entry
is being handled every direction that is set is armed, exactly when each entry
reports all the directions that are set or is followed by a submit before
`consume_epollev` returns. -/
theorem descriptor_interest (fd : ℤ) (cb : Option ℕ) (arg : ℕ) (type : EventType)
    (acts : List Act) :
    descriptorSystem.Always KeepsInterest (descriptorCreate fd cb arg type) acts ↔
      descriptorSystem.Guarded (fun s a => ¬ a.DropsInterest s)
        (descriptorCreate fd cb arg type) acts :=
  System.always_iff_guarded (J := Tracked) (fun _ _ _ h hkeep hnext => h.step hkeep hnext)
    (fun _ h => h.keepsInterest) (fun _ _ h hdrop => h.not_keepsInterest (not_not.mp hdrop))
    (.init fd cb arg type) acts

/-- A socket is submitted in both directions, its entry reports one, and the
callback submits nothing. -/
theorem descriptor_interest_lost :
    ¬ descriptorSystem.Always KeepsInterest (descriptorCreate 3 (some 0) 0 .sockEv)
      [.submit 0x5, .report 0x1, .consume, .ret] := by
  intro h
  have hend := h 4 _ rfl rfl eventOut (by decide) (by decide)
  exact absurd hend (by decide)

end Posixc
