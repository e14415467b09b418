import Mathlib.Logic.Function.Basic
import Mathlib.Data.BitVec
import Mathlib.Tactic.Common

/-!
# Events

`event.h` and the part of `event.c` that acts on one event. What a platform adds
to an event, the registration that the kernel keeps for it, has a type `κ` that a
`Platform` comes with, and an `Obj` is an event with its registration.

An event's `fd` names a descriptor when the event is a socket and an identifier
of another kind otherwise. The functions here do not look at the type: `preparefd`,
`shutdown` and `close` act on whatever entry of the descriptor table has that
number.
-/

namespace Posixc

/-! ### Masks -/

/-- The `int` that holds event flags. -/
abbrev Mask := BitVec 32

/-- `POSIXC_EVENT_IN`. -/
def eventIn : Mask := 0x0001
/-- `POSIXC_EVENT_OUT`. -/
def eventOut : Mask := 0x0004
/-- `POSIXC_EVENT_ERR`. -/
def eventErr : Mask := 0x0010
/-- `POSIXC_EVENT_SIG`. -/
def eventSig : Mask := 0x0400
/-- `POSIXC_EVENT_TIMER`. -/
def eventTimer : Mask := 0x0100
/-- `POSIXC_EVENT_USER`. -/
def eventUser : Mask := 0x0008

/-- The test `mask & flag` of an `if`. -/
def Mask.has (mask flag : Mask) : Bool := mask &&& flag != 0#32

@[simp] theorem Mask.has_or (mask mask' flag : Mask) :
    (mask ||| mask').has flag = (mask.has flag || mask'.has flag) := by
  rw [Mask.has, Mask.has, Mask.has, Bool.eq_iff_iff, Bool.or_eq_true, bne_iff_ne, bne_iff_ne,
    bne_iff_ne, BitVec.and_or_distrib_right, Ne, BitVec.or_eq_zero_iff, not_and_or]

@[simp] theorem Mask.has_zero (flag : Mask) : Mask.has 0 flag = false := by
  rw [Mask.has, show (0 : Mask) = 0#32 from rfl, BitVec.zero_and]
  rfl

/-- Clearing flags sets none. -/
theorem Mask.has_of_and {mask other flag : Mask} (h : (mask &&& other).has flag = true) :
    mask.has flag = true := by
  rw [Mask.has, bne_iff_ne] at h ⊢
  -- a flag that `mask` has none of is in no part of it
  intro hzero
  refine h ?_
  rw [BitVec.and_assoc, BitVec.and_comm other, ← BitVec.and_assoc, hzero, BitVec.zero_and]

/-- Clearing flags that include `flag`. -/
theorem Mask.has_clear {clear flag : Mask} (h : ~~~clear &&& flag = 0#32) (mask : Mask) :
    (mask &&& ~~~clear).has flag = false := by
  rw [Mask.has, BitVec.and_assoc, h, BitVec.and_zero]
  rfl

/-- Clearing flags that do not include `flag`. -/
theorem Mask.has_clear_of_disjoint {clear flag : Mask} (h : ~~~clear &&& flag = flag)
    (mask : Mask) : (mask &&& ~~~clear).has flag = mask.has flag := by
  rw [Mask.has, BitVec.and_assoc, h, Mask.has]

/-! ### The descriptor table -/

/-- An open descriptor: whether it is a socket, its flags, and whether both its
directions are shut down. -/
structure FdEntry where
  isSocket : Bool
  cloexec : Bool
  nonblock : Bool
  noSigpipe : Bool
  shut : Bool
  deriving DecidableEq

/-- The descriptors of the process. `none` is a closed one. -/
abbrev FdTable := ℤ → Option FdEntry

/-- `posixc_preparefd`. The calls fail on a closed descriptor and change nothing. -/
def preparefd (fds : FdTable) (fd : ℤ) : FdTable :=
  Function.update fds fd ((fds fd).map fun entry =>
    -- `SO_NOSIGPIPE` is an option of sockets only
    { entry with cloexec := true, nonblock := true,
                 noSigpipe := entry.noSigpipe || entry.isSocket })

/-- `shutdown(fd, SHUT_RDWR)`, which fails on what is not a socket. -/
def shutdownFd (fds : FdTable) (fd : ℤ) : FdTable :=
  Function.update fds fd ((fds fd).map fun entry =>
    { entry with shut := entry.shut || entry.isSocket })

/-- `close`. -/
def closeFd (fds : FdTable) (fd : ℤ) : FdTable := Function.update fds fd none

/-- The table `fds'` comes from `fds` by acting on the number `n`, which opens
nothing. -/
def Touched (n : ℤ) (fds fds' : FdTable) : Prop :=
  (∀ m, m ≠ n → fds' m = fds m) ∧ (fds n = none → fds' n = none)

theorem preparefd_touched (fds : FdTable) (fd : ℤ) : Touched fd fds (preparefd fds fd) :=
  ⟨fun _ hm => Function.update_of_ne hm _ _, fun h => by simp [preparefd, h]⟩

theorem shutdownFd_touched (fds : FdTable) (fd : ℤ) : Touched fd fds (shutdownFd fds fd) :=
  ⟨fun _ hm => Function.update_of_ne hm _ _, fun h => by simp [shutdownFd, h]⟩

theorem closeFd_touched (fds : FdTable) (fd : ℤ) : Touched fd fds (closeFd fds fd) :=
  ⟨fun _ hm => Function.update_of_ne hm _ _, fun _ => Function.update_self _ _ _⟩

theorem Touched.refl (n : ℤ) (fds : FdTable) : Touched n fds fds := ⟨fun _ _ => rfl, id⟩

theorem Touched.trans {n : ℤ} {fds fds' fds'' : FdTable} (h : Touched n fds fds')
    (h' : Touched n fds' fds'') : Touched n fds fds'' :=
  ⟨fun m hm => (h'.1 m hm).trans (h.1 m hm), fun hn => h'.2 (h.2 hn)⟩

/-- What is closed stays closed. -/
theorem Touched.none_of_none {n m : ℤ} {fds fds' : FdTable} (h : Touched n fds fds')
    (hm : fds m = none) : fds' m = none := by
  by_cases heq : m = n
  · subst heq
    exact h.2 hm
  · rw [h.1 m heq]
    exact hm

/-! ### One event -/

/-- `posixc_event_type`, and the other values of the `uint8_t` that holds it. -/
inductive EventType where
  | sockEv
  | timerEv
  | userEv
  | sigEv
  | unknown
  deriving DecidableEq

/-- `posixc_event`. `cb` is `none` for a null pointer, else the number of a
function. The list node is the place in the reactor's list, and the mutex is
free between the steps of a run. -/
structure Event where
  fd : ℤ
  cb : Option ℕ
  arg : ℕ
  evmask : Mask
  closing : Bool
  type : EventType
  data1 : ℕ
  data2 : ℕ
  deriving DecidableEq

/-- What the kernel does to a list of changes: it refuses one of them and does
not look at those after it, or refuses none. -/
abbrev Verdict := Option ℕ

/-- `event_kq.c` or `event_epoll.c`: the three functions on an event and its
registration, and what becomes of the registration when the descriptor with the
number of the event is closed. -/
structure Platform (κ : Type) where
  unregistered : κ
  platCreate : Event → κ → Verdict → Bool × κ
  platDestroy : Event → κ → Bool × κ
  platSubmit : Event → κ → Verdict → Bool × κ
  descriptorClosed : Event → κ → κ

/-- An event and what the kernel has registered for it. -/
structure Obj (κ : Type) where
  ev : Event
  reg : κ

/-- `posixc_event_init`, without its `posixc_preparefd`. -/
def eventInit (fd : ℤ) (cb : Option ℕ) (arg : ℕ) (type : EventType) : Event where
  fd := fd
  cb := cb
  arg := arg
  evmask := 0
  closing := false
  type := type
  data1 := 0
  data2 := 0

variable {κ : Type}

/-- `posixc_event_submit`. -/
def eventSubmit (P : Platform κ) (o : Obj κ) (evmask : Mask) (verdict : Verdict) :
    Bool × Obj κ :=
  if o.ev.closing then (false, o)
  else
    -- the mask grows before the platform is asked, and stays so when it fails
    let ev := { o.ev with evmask := o.ev.evmask ||| evmask }
    let (success, reg) := P.platSubmit ev o.reg verdict
    (success, ⟨ev, reg⟩)

/-- `posixc_event_consume`. The callback and its argument are read from the event
that it leaves. -/
def eventConsume (ev : Event) (evmaskToConsume : Mask) : Event :=
  { ev with evmask := ev.evmask &&& ~~~evmaskToConsume }

/-- `POSIXC_TIMER_PERIODIC`. -/
def timerPeriodic : ℕ := 0
/-- `POSIXC_TIMER_ONESHOT`. -/
def timerOneshot : ℕ := 1

/-- `posixc_timer_event_set_interval`. -/
def timerEventSetInterval (ev : Event) (msInterval : ℤ) (isPeriodic : Bool) : Event :=
  -- a negative interval becomes a large one, as the field is unsigned
  { ev with data1 := if isPeriodic then timerPeriodic else timerOneshot,
            data2 := (msInterval % 2 ^ 64).toNat }

/-- A submit leaves everything but the mask and the registration. -/
theorem eventSubmit_frame (P : Platform κ) (o : Obj κ) (evmask : Mask) (verdict : Verdict) :
    ∃ mask, (eventSubmit P o evmask verdict).2.ev = { o.ev with evmask := mask } := by
  unfold eventSubmit
  split
  · exact ⟨o.ev.evmask, rfl⟩
  · exact ⟨o.ev.evmask ||| evmask, rfl⟩

end Posixc
