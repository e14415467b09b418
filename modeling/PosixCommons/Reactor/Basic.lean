import PosixCommons.Event.Basic
import PosixCommons.Framework.Memory
import PosixCommons.Framework.Runs

/-!
# The reactor and the life of its events

`reactor.c` and the part of `event.c` that creates and destroys events, for any
platform. An event is named by the number of its allocation. The reactor records
which of them were passed to `posixc_event_release`, in order, so that a second
release shows.

The functions that lock the reactor's mutex run as one step each. The mutex is
not recursive, so a function that locks it while its own thread holds it never
returns: `addToGcList` and what calls it are then `none`.
-/

open Framework

namespace Posixc

variable {κ : Type}

/-- `posixc_reactor`, the events allocated for it, the descriptor table of the
process and the counter of `posixc_unique_timer_event_id`. -/
structure Reactor (κ : Type) where
  obj : ℕ → Obj κ
  created : ℕ
  released : List ℕ
  gcEvents : List ℕ
  closing : Bool
  fds : FdTable
  timerIds : ℕ

namespace Reactor

/-- The event was created and is not released. -/
def Holds (r : Reactor κ) (e : ℕ) : Prop := e < r.created ∧ e ∉ r.released

instance (r : Reactor κ) (e : ℕ) : Decidable (r.Holds e) := inferInstanceAs (Decidable (_ ∧ _))

/-- The reactor with an event replaced. -/
def setObj (r : Reactor κ) (e : ℕ) (o : Obj κ) : Reactor κ :=
  { r with obj := Function.update r.obj e o }

end Reactor

theorem Reactor.setObj_obj (r : Reactor κ) (e i : ℕ) (o : Obj κ) :
    (r.setObj e o).obj i = if i = e then o else r.obj i := by
  unfold Reactor.setObj
  dsimp only
  split_ifs with h
  · rw [h, Function.update_self]
  · rw [Function.update_of_ne h]

/-- `posixc_reactor_create`: no event yet. -/
def reactorCreate (P : Platform κ) (fds : FdTable) (timerIds : ℕ) : Reactor κ where
  obj _ := ⟨eventInit 0 none 0 .unknown, P.unregistered⟩
  created := 0
  released := []
  gcEvents := []
  closing := false
  fds := fds
  timerIds := timerIds

/-- A process whose only open descriptor is the socket 3. -/
def socketTable : FdTable := Function.update (fun _ => none) 3
  (some ⟨true, false, false, false, false⟩)

variable (P : Platform κ)

/-- `posixc_unique_timer_event_id`. -/
def uniqueTimerEventId (r : Reactor κ) : ℤ × Reactor κ :=
  (toInt r.timerIds, { r with timerIds := toSize (r.timerIds + 1) })

/-- `posixc_event_release`. Closing a descriptor takes the registrations that
watch it. -/
def eventRelease (r : Reactor κ) (e : ℕ) : Reactor κ :=
  let fd := (r.obj e).ev.fd
  { r with
    fds := closeFd r.fds fd
    obj := fun i =>
      if (r.fds fd).isSome ∧ (r.obj i).ev.fd = fd then
        { r.obj i with reg := P.descriptorClosed (r.obj i).ev (r.obj i).reg }
      else r.obj i
    released := r.released ++ [e] }

/-- `posixc_event_create`. `mem` is whether `malloc` succeeds. -/
def eventCreate (r : Reactor κ) (fd : ℤ) (cb : Option ℕ) (arg : ℕ) (type : EventType)
    (mem : Bool) (verdict : Verdict) : Option ℕ × Reactor κ :=
  if mem then
    let event := r.created
    let ev := eventInit fd cb arg type
    let (ok, reg) := P.platCreate ev P.unregistered verdict
    let r := { r with created := r.created + 1, fds := preparefd r.fds fd }
    let r := r.setObj event ⟨ev, reg⟩
    -- the error path releases the event, and with it the caller's descriptor
    if ok then (some event, r) else (none, eventRelease P r event)
  else (none, r)

/-- `add_to_gc_list`. `held` is whether the calling thread holds the reactor's
mutex. -/
def addToGcList (held : Bool) (r : Reactor κ) (e : ℕ) : Option (Reactor κ) :=
  if held then none else some { r with gcEvents := r.gcEvents ++ [e] }

/-- The first lines of `posixc_event_destroy` on an event that is not closing. -/
def eventStop (r : Reactor κ) (e : ℕ) : Reactor κ :=
  let ev := { (r.obj e).ev with closing := true }
  let r := r.setObj e ⟨ev, (P.platDestroy ev (r.obj e).reg).2⟩
  { r with fds := shutdownFd r.fds ev.fd }

/-- `posixc_event_destroy`. `isReactor` is whether the calling thread is the
reactor's. -/
def eventDestroy (isReactor held : Bool) (r : Reactor κ) (e : ℕ) : Option (Reactor κ) := do
  let r ←
    if (r.obj e).ev.closing then some r
    else
      let r := eventStop P r e
      -- the reactor's thread has nothing to wait for
      if isReactor then some r else addToGcList held r e
  return if isReactor then eventRelease P r e else r

/-- The lines of `posixc_event_destroy` from the test of `closing` to the list, for a
thread that has found it unset. -/
inductive StopStage where
  /-- `e->closing = true`. -/
  | close
  /-- `posixc_event_plat_destroy`. -/
  | unregister
  /-- `shutdown`. -/
  | shutdown
  deriving DecidableEq

/-- What the line does. -/
def StopStage.run (r : Reactor κ) (e : ℕ) : StopStage → Reactor κ
  | .close => r.setObj e { r.obj e with ev := { (r.obj e).ev with closing := true } }
  | .unregister => r.setObj e { r.obj e with reg := (P.platDestroy (r.obj e).ev (r.obj e).reg).2 }
  | .shutdown => { r with fds := shutdownFd r.fds (r.obj e).ev.fd }

/-- The line that follows. After the last comes the list, or the release. -/
def StopStage.next : StopStage → Option StopStage
  | .close => some .unregister
  | .unregister => some .shutdown
  | .shutdown => none

/-- The loop of `posixc_reactor_gc`. -/
def reactorGcLoop (isReactor : Bool) : List ℕ → Reactor κ → Option (Reactor κ)
  | [], r => some r
  | tmp :: rest, r => do
    -- `list_del` comes before the destroy, which may free the node
    let r ← eventDestroy P isReactor true { r with gcEvents := rest } tmp
    reactorGcLoop isReactor rest r

/-- `posixc_reactor_gc`, which holds the mutex throughout. -/
def reactorGc (isReactor : Bool) (r : Reactor κ) : Option (Reactor κ) :=
  reactorGcLoop P isReactor r.gcEvents r

/-! ### Operations of a user -/

/-- A call on the reactor or on one of its events. -/
inductive Op where
  | create (fd : ℤ) (cb : Option ℕ) (arg : ℕ) (type : EventType) (mem : Bool) (verdict : Verdict)
  | createTimer (cb : Option ℕ) (arg : ℕ) (mem : Bool) (verdict : Verdict)
  | setInterval (e : ℕ) (msInterval : ℤ) (isPeriodic : Bool)
  | submit (e : ℕ) (evmask : Mask) (verdict : Verdict)
  | destroy (e : ℕ)

/-- The call made by the reactor's thread or by another. A timer takes its
identifier from `posixc_unique_timer_event_id`. A call on an event that is
released already is not made. -/
def Op.apply (isReactor : Bool) (r : Reactor κ) : Op → Option (Reactor κ)
  | .create fd cb arg type mem verdict => some (eventCreate P r fd cb arg type mem verdict).2
  | .createTimer cb arg mem verdict =>
    let fresh := uniqueTimerEventId r
    some (eventCreate P fresh.2 fresh.1 cb arg .timerEv mem verdict).2
  | .setInterval e msInterval isPeriodic =>
    if r.Holds e then
      some (r.setObj e { r.obj e with
        ev := timerEventSetInterval (r.obj e).ev msInterval isPeriodic })
    else none
  | .submit e evmask verdict =>
    if r.Holds e then some (r.setObj e (eventSubmit P (r.obj e) evmask verdict).2) else none
  | .destroy e => if r.Holds e then eventDestroy P isReactor false r e else none

/-! ### Calls of user threads -/

/-- A `posixc_event_destroy` that a user thread is in. It has found `closing` unset, and
`stage` is its next line, `none` being `add_to_gc_list`. -/
structure Destroying where
  event : ℕ
  stage : Option StopStage
  deriving DecidableEq

/-- A call of a user thread. Of a destroy it is the test of `closing`, after which the
thread may be interrupted before any line. -/
def userCall (r : Reactor κ) (ds : List Destroying) : Op → Option (Reactor κ × List Destroying)
  | .destroy e =>
    if r.Holds e then
      some (r, if (r.obj e).ev.closing then ds else ds ++ [⟨e, some .close⟩])
    else none
  | o => (o.apply P false r).map fun r => (r, ds)

/-- The thread in the `i`-th of these destroys goes on to its next line. -/
def userGo (r : Reactor κ) (ds : List Destroying) (i : ℕ) : Option (Reactor κ × List Destroying) :=
  ds[i]?.map fun d =>
    match d.stage with
    | some stage => (stage.run P r d.event, ds.set i { d with stage := stage.next })
    | none => ({ r with gcEvents := r.gcEvents ++ [d.event] }, ds.eraseIdx i)

/-! ### Releasing and destroying -/

variable {P} {r r' : Reactor κ} {e : ℕ}

/-- A release changes no event, only what is registered for it. -/
theorem eventRelease_ev (i : ℕ) : ((eventRelease P r e).obj i).ev = (r.obj i).ev := by
  unfold eventRelease
  dsimp only
  split_ifs <;> rfl

theorem eventRelease_obj (i : ℕ) : (eventRelease P r e).obj i = r.obj i ∨
    (eventRelease P r e).obj i =
      { r.obj i with reg := P.descriptorClosed (r.obj i).ev (r.obj i).reg } := by
  unfold eventRelease
  dsimp only
  split_ifs
  · exact .inr rfl
  · exact .inl rfl

theorem eventRelease_holds (i : ℕ) : (eventRelease P r e).Holds i ↔ r.Holds i ∧ i ≠ e := by
  unfold Reactor.Holds eventRelease
  dsimp only
  rw [List.mem_append, List.mem_singleton, not_or, and_assoc]

theorem eventStop_ev (i : ℕ) :
    ((eventStop P r e).obj i).ev =
      if i = e then { (r.obj e).ev with closing := true } else (r.obj i).ev := by
  unfold eventStop
  dsimp only
  rw [Reactor.setObj_obj]
  split_ifs <;> rfl

/-- With nothing between its lines, they are the first lines of the destroy. -/
theorem StopStage.run_all (r : Reactor κ) (e : ℕ) :
    shutdown.run P (unregister.run P (close.run P r e) e) e = eventStop P r e := by
  simp [StopStage.run, eventStop, Reactor.setObj]

/-- No line changes an event but its own, of which only `closing` and what is
registered may change. -/
theorem StopStage.run_ev (stage : StopStage) (i : ℕ) : ((stage.run P r e).obj i).ev =
    if i = e ∧ stage = .close then { (r.obj i).ev with closing := true } else (r.obj i).ev := by
  cases stage <;> simp only [StopStage.run, Reactor.setObj_obj] <;> split_ifs with h <;>
    simp_all

/-- No line that stops an event frees or lists one, or opens it. -/
theorem StopStage.run_frame (stage : StopStage) (P : Platform κ) (r : Reactor κ) (e : ℕ) :
    (stage.run P r e).created = r.created ∧ (stage.run P r e).released = r.released ∧
      (stage.run P r e).gcEvents = r.gcEvents ∧ ∀ i, (r.obj i).ev.closing = true →
        ((stage.run P r e).obj i).ev.closing = true := by
  refine ⟨by cases stage <;> rfl, by cases stage <;> rfl, by cases stage <;> rfl, fun i hi => ?_⟩
  rw [StopStage.run_ev]
  split_ifs
  · rfl
  · exact hi

/-- A create that succeeds adds one event, with the registration that the platform
made for it, and leaves the others. -/
theorem eventCreate_some {fd : ℤ} {cb : Option ℕ} {arg : ℕ} {type : EventType} {mem : Bool}
    {verdict : Verdict} (h : eventCreate P r fd cb arg type mem verdict = (some e, r')) :
    e = r.created ∧ (P.platCreate (eventInit fd cb arg type) P.unregistered verdict).1 = true ∧
      r'.obj e = ⟨eventInit fd cb arg type,
        (P.platCreate (eventInit fd cb arg type) P.unregistered verdict).2⟩ ∧
      (∀ i, i ≠ e → r'.obj i = r.obj i) ∧ r'.created = r.created + 1 ∧
      r'.released = r.released ∧ r'.gcEvents = r.gcEvents := by
  unfold eventCreate at h
  dsimp only at h
  split_ifs at h with hmem hok
  · -- the event is the next number, which no other event has
    obtain ⟨he, rfl⟩ := Prod.mk.inj h
    obtain rfl := Option.some.inj he
    refine ⟨rfl, hok, ?_, fun i hi => ?_, rfl, rfl, rfl⟩
    · rw [Reactor.setObj_obj, if_pos rfl]
    · rw [Reactor.setObj_obj, if_neg hi]
  · cases h
  · cases h

/-- **What a destroy can do.** An event that is not closing yet is stopped. Then
the reactor's thread releases it, and another thread has put it on the list, or
does nothing when it was closing before. -/
theorem eventDestroy_cases {isReactor held : Bool}
    (h : eventDestroy P isReactor held r e = some r') :
    ((r.obj e).ev.closing = true ∧ isReactor = true ∧ r' = eventRelease P r e) ∨
      ((r.obj e).ev.closing = true ∧ isReactor = false ∧ r' = r) ∨
      ((r.obj e).ev.closing = false ∧ isReactor = true ∧
        r' = eventRelease P (eventStop P r e) e) ∨
      ((r.obj e).ev.closing = false ∧ isReactor = false ∧ held = false ∧
        r' = { eventStop P r e with gcEvents := r.gcEvents ++ [e] }) := by
  unfold eventDestroy addToGcList at h
  -- with the mutex held, putting the event on the list would not return
  cases hclosing : (r.obj e).ev.closing <;> cases isReactor <;> cases held <;>
    simp [hclosing] at h
  all_goals subst h
  all_goals simp
  rfl

/-- **What a call can do.** It creates an event, changes one that is held, which
keeps its type, its flag and, when it is not submitted, its registration, or
destroys one that is held. -/
theorem Op.apply_cases {isReactor : Bool} {o : Op} (hrun : o.apply P isReactor r = some r') :
    (∃ ids fd cb arg type mem verdict,
        r' = (eventCreate P { r with timerIds := ids } fd cb arg type mem verdict).2) ∨
      (∃ e new, r.Holds e ∧ r' = r.setObj e new ∧ new.ev.closing = (r.obj e).ev.closing ∧
        new.ev.type = (r.obj e).ev.type ∧ (new.reg = (r.obj e).reg ∨
          ∃ evmask verdict, new = (eventSubmit P (r.obj e) evmask verdict).2)) ∨
      ∃ e, o = .destroy e ∧ r.Holds e ∧ eventDestroy P isReactor false r e = some r' := by
  cases o with
  | create fd cb arg type mem verdict =>
    rw [Op.apply] at hrun
    exact .inl ⟨r.timerIds, fd, cb, arg, type, mem, verdict, (Option.some.inj hrun).symm⟩
  | createTimer cb arg mem verdict =>
    -- the counter has moved on before the event is created
    rw [Op.apply] at hrun
    exact .inl ⟨_, _, cb, arg, .timerEv, mem, verdict, (Option.some.inj hrun).symm⟩
  | setInterval e msInterval isPeriodic =>
    rw [Op.apply] at hrun
    split_ifs at hrun with hold
    exact .inr (.inl ⟨e, _, hold, (Option.some.inj hrun).symm, rfl, rfl, .inl rfl⟩)
  | submit e evmask verdict =>
    rw [Op.apply] at hrun
    split_ifs at hrun with hold
    obtain ⟨mask, hmask⟩ := eventSubmit_frame P (r.obj e) evmask verdict
    refine .inr (.inl ⟨e, _, hold, (Option.some.inj hrun).symm, ?_, ?_, .inr ⟨_, _, rfl⟩⟩)
    · rw [hmask]
    · rw [hmask]
  | destroy e =>
    rw [Op.apply] at hrun
    split_ifs at hrun with hold
    exact .inr (.inr ⟨e, rfl, hold, hrun⟩)

/-- A call releases no event but the one that it destroys on the reactor's
thread. -/
theorem Op.apply_holds {isReactor : Bool} {o : Op} {i : ℕ}
    (hrun : o.apply P isReactor r = some r') (hi : r.Holds i)
    (hne : isReactor = true → o ≠ .destroy i) : r'.Holds i := by
  rcases Op.apply_cases hrun with ⟨ids, fd, cb, arg, type, mem, verdict, rfl⟩ |
    ⟨e, new, -, rfl, -⟩ | ⟨e, rfl, -, hdestroy⟩
  · unfold eventCreate
    dsimp only
    split_ifs
    · exact ⟨Nat.lt_succ_of_lt hi.1, hi.2⟩
    · -- the event that is released at once is the new one
      exact (eventRelease_holds i).mpr ⟨⟨Nat.lt_succ_of_lt hi.1, hi.2⟩, hi.1.ne⟩
    · exact hi
  · exact hi
  · have hie : isReactor = true → i ≠ e := by
      rintro hr rfl
      exact hne hr rfl
    rcases eventDestroy_cases hdestroy with
      ⟨-, hr, rfl⟩ | ⟨-, -, rfl⟩ | ⟨-, hr, rfl⟩ | ⟨-, -, -, rfl⟩
    · exact (eventRelease_holds i).mpr ⟨hi, hie hr⟩
    · exact hi
    · exact (eventRelease_holds i).mpr ⟨hi, hie hr⟩
    · exact hi

/-- A call takes nothing off the list or out of the log, puts nothing on the list
unless it destroys, and leaves the flag of the reactor. -/
theorem Op.apply_lists {isReactor : Bool} {o : Op} (hrun : o.apply P isReactor r = some r') :
    r.gcEvents ⊆ r'.gcEvents ∧ r.released ⊆ r'.released ∧ r'.closing = r.closing ∧
      ((∀ i, o ≠ .destroy i) ∨ isReactor = true → r'.gcEvents = r.gcEvents) := by
  rcases Op.apply_cases hrun with ⟨ids, fd, cb, arg, type, mem, verdict, rfl⟩ |
    ⟨e, new, -, rfl, -⟩ | ⟨e, rfl, -, hdestroy⟩
  · unfold eventCreate
    dsimp only
    split_ifs
    · exact ⟨List.Subset.refl _, List.Subset.refl _, rfl, fun _ => rfl⟩
    · exact ⟨List.Subset.refl _, List.subset_append_left _ _, rfl, fun _ => rfl⟩
    · exact ⟨List.Subset.refl _, List.Subset.refl _, rfl, fun _ => rfl⟩
  · exact ⟨List.Subset.refl _, List.Subset.refl _, rfl, fun _ => rfl⟩
  · rcases eventDestroy_cases hdestroy with
      ⟨-, -, rfl⟩ | ⟨-, -, rfl⟩ | ⟨-, -, rfl⟩ | ⟨-, hr, -, rfl⟩
    · exact ⟨List.Subset.refl _, List.subset_append_left _ _, rfl, fun _ => rfl⟩
    · exact ⟨List.Subset.refl _, List.Subset.refl _, rfl, fun _ => rfl⟩
    · exact ⟨List.Subset.refl _, List.subset_append_left _ _, rfl, fun _ => rfl⟩
    · -- the event is put on the list by a destroy on another thread
      refine ⟨List.subset_append_left _ _, List.Subset.refl _, rfl, fun hno => ?_⟩
      rcases hno with hno | hreactor
      · exact absurd rfl (hno e)
      · rw [hr] at hreactor
        cases hreactor

/-- A call of a user thread is a call like any other, but that it only begins a destroy. -/
theorem userCall_cases {ds ds' : List Destroying} {o : Op}
    (h : userCall P r ds o = some (r', ds')) :
    (∃ e, o = .destroy e ∧ r.Holds e ∧ r' = r ∧ ((r.obj e).ev.closing = true ∧ ds' = ds ∨
      (r.obj e).ev.closing = false ∧ ds' = ds ++ [⟨e, some .close⟩])) ∨
      (∀ e, o ≠ .destroy e) ∧ o.apply P false r = some r' ∧ ds' = ds := by
  have hother : (o.apply P false r).map (fun r => (r, ds)) = some (r', ds') →
      o.apply P false r = some r' ∧ ds' = ds := by
    intro happly
    obtain ⟨r₁, hr₁, heq⟩ := Option.map_eq_some_iff.mp happly
    obtain ⟨rfl, rfl⟩ := Prod.mk.inj heq
    exact ⟨hr₁, rfl⟩
  cases o with
  | destroy e =>
    rw [userCall] at h
    split_ifs at h with hold hclosing
    · obtain ⟨rfl, rfl⟩ := Prod.mk.inj (Option.some.inj h)
      exact .inl ⟨e, rfl, hold, rfl, .inl ⟨hclosing, rfl⟩⟩
    · obtain ⟨rfl, rfl⟩ := Prod.mk.inj (Option.some.inj h)
      exact .inl ⟨e, rfl, hold, rfl, .inr ⟨Bool.eq_false_iff.mpr hclosing, rfl⟩⟩
  | _ => exact .inr ⟨nofun, hother h⟩

/-- One of the destroys goes on by a line, and the others stay where they are. -/
theorem userGo_cases {ds ds' : List Destroying} {i : ℕ} (h : userGo P r ds i = some (r', ds')) :
    ∃ us d vs, ds = us ++ d :: vs ∧
      ((∃ stage, d.stage = some stage ∧ r' = stage.run P r d.event ∧
          ds' = us ++ ⟨d.event, stage.next⟩ :: vs) ∨
        d.stage = none ∧ r' = { r with gcEvents := r.gcEvents ++ [d.event] } ∧
          ds' = us ++ vs) := by
  obtain ⟨d, hd, heq⟩ := Option.map_eq_some_iff.mp h
  obtain ⟨hi, rfl⟩ := List.getElem?_eq_some_iff.mp hd
  refine ⟨ds.take i, ds[i], ds.drop (i + 1), ?_, ?_⟩
  · rw [← List.drop_eq_getElem_cons hi, List.take_append_drop]
  · cases hstage : ds[i].stage with
    | some stage =>
      rw [hstage] at heq
      obtain ⟨rfl, rfl⟩ := Prod.mk.inj heq
      exact .inl ⟨stage, rfl, rfl, List.set_eq_take_append_cons_drop.trans (if_pos hi)⟩
    | none =>
      rw [hstage] at heq
      obtain ⟨rfl, rfl⟩ := Prod.mk.inj heq
      exact .inr ⟨rfl, rfl, List.eraseIdx_eq_take_drop_succ _ _⟩

/-- Every closing event waits on the list or was released, those of `busy` apart. -/
def Kept (busy : List ℕ) (r : Reactor κ) : Prop :=
  ∀ e, e < r.created → (r.obj e).ev.closing = true →
    e ∈ r.gcEvents ∨ e ∈ r.released ∨ e ∈ busy

variable {busy : List ℕ}

theorem Kept.of_same (h : Kept busy r) (hcreated : r'.created = r.created)
    (hlist : r'.gcEvents = r.gcEvents) (hreleased : r'.released = r.released)
    (hev : ∀ i, (r'.obj i).ev.closing = (r.obj i).ev.closing) : Kept busy r' := by
  intro i hi hclosing
  rw [hcreated] at hi
  rw [hev] at hclosing
  rw [hlist, hreleased]
  exact h i hi hclosing

theorem Kept.release (h : Kept busy r) (e : ℕ) : Kept busy (eventRelease P r e) := by
  intro i hi hclosing
  rw [eventRelease_ev] at hclosing
  exact (h i hi hclosing).imp_right fun hrel => hrel.imp_left fun hmem =>
    List.mem_append_left _ hmem

/-- A change to an event that does not close it. -/
theorem Kept.setObj (h : Kept busy r) {o : Obj κ}
    (ho : o.ev.closing = true → (r.obj e).ev.closing = true) : Kept busy (r.setObj e o) := by
  intro i hi hclosing
  rw [Reactor.setObj_obj] at hclosing
  split_ifs at hclosing with heq
  · exact h i hi (heq ▸ ho hclosing)
  · exact h i hi hclosing

theorem Kept.create (h : Kept busy r) (fd : ℤ) (cb : Option ℕ) (arg : ℕ) (type : EventType)
    (mem : Bool) (verdict : Verdict) :
    Kept busy (eventCreate P r fd cb arg type mem verdict).2 := by
  have hnew : ∀ reg, Kept busy
      (({ r with created := r.created + 1, fds := preparefd r.fds fd } : Reactor κ).setObj
        r.created ⟨eventInit fd cb arg type, reg⟩) := by
    intro reg i hi hclosing
    rw [Reactor.setObj_obj] at hclosing
    split_ifs at hclosing with heq
    -- the new event is not closing
    · cases hclosing
    · exact h i (lt_of_le_of_ne (Nat.lt_succ_iff.mp hi) heq) hclosing
  unfold eventCreate
  dsimp only
  split_ifs
  · exact hnew _
  · exact (hnew _).release _
  · exact h

/-- After a destroy the event is on the list or released. -/
theorem Kept.destroy {isReactor held : Bool} (h : Kept busy r)
    (hrun : eventDestroy P isReactor held r e = some r') : Kept busy r' := by
  have hself : e ∈ (r.released ++ [e]) := List.mem_append_right _ (List.mem_singleton_self e)
  -- stopping the event closes no other
  have hstop : ∀ i, i < r.created → ((eventStop P r e).obj i).ev.closing = true → i ≠ e →
      i ∈ r.gcEvents ∨ i ∈ r.released ∨ i ∈ busy := by
    intro i hi hclosing hne
    rw [eventStop_ev, if_neg hne] at hclosing
    exact h i hi hclosing
  rcases eventDestroy_cases hrun with ⟨-, -, rfl⟩ | ⟨-, -, rfl⟩ | ⟨-, -, rfl⟩ | ⟨-, -, -, rfl⟩
  · exact h.release e
  · exact h
  · intro i hi hclosing
    rw [eventRelease_ev] at hclosing
    by_cases hne : i = e
    · rw [hne]
      exact .inr (.inl hself)
    · exact (hstop i hi hclosing hne).imp_right fun hrel => hrel.imp_left fun hmem =>
        List.mem_append_left _ hmem
  · intro i hi hclosing
    by_cases hne : i = e
    · rw [hne]
      exact .inl (List.mem_append_right _ (List.mem_singleton_self e))
    · exact (hstop i hi hclosing hne).imp_left fun hlist => List.mem_append_left _ hlist

theorem Kept.apply {isReactor : Bool} {o : Op} (h : Kept busy r)
    (hrun : o.apply P isReactor r = some r') : Kept busy r' := by
  rcases Op.apply_cases hrun with ⟨ids, fd, cb, arg, type, mem, verdict, rfl⟩ |
    ⟨e, new, -, rfl, hclosing, -, -⟩ | ⟨e, -, -, hdestroy⟩
  · have hcounter : Kept busy { r with timerIds := ids } := h
    exact hcounter.create fd cb arg type mem verdict
  · exact h.setObj (by rw [hclosing]; exact id)
  · exact h.destroy hdestroy

/-! ### Collecting -/

/-- Every listed event is one of the reactor's and is closing. -/
def ListedClosing (r : Reactor κ) : Prop :=
  ∀ e ∈ r.gcEvents, e < r.created ∧ (r.obj e).ev.closing = true

/-- **A collection on the reactor's thread.** It releases the listed events in
their order. -/
theorem reactorGcLoop_reactor (list : List ℕ) :
    ∀ r : Reactor κ, r.gcEvents = list → ListedClosing r →
      reactorGcLoop P true list r =
        some (list.foldl (eventRelease P) { r with gcEvents := [] }) := by
  induction list with
  | nil =>
    intro r hr _
    rw [reactorGcLoop, List.foldl_nil, ← hr]
  | cons tmp rest ih =>
    intro r hr h
    have hclosing : (r.obj tmp).ev.closing = true :=
      (h tmp (by rw [hr]; exact List.mem_cons_self)).2
    -- a closing event is released without the mutex
    have hdestroy : eventDestroy P true true { r with gcEvents := rest } tmp =
        some (eventRelease P { r with gcEvents := rest } tmp) := by
      simp [eventDestroy, hclosing]
    -- the others stay listed and closing
    have hrest : ListedClosing (eventRelease P { r with gcEvents := rest } tmp) := by
      intro e he
      rw [eventRelease_ev]
      exact h e (by rw [hr]; exact List.mem_cons_of_mem _ he)
    rw [reactorGcLoop, hdestroy, List.foldl_cons]
    exact ih _ rfl hrest

/-- **A collection inside `posixc_reactor_destroy`.** It takes the events off the
list and no more. -/
theorem reactorGcLoop_user (list : List ℕ) :
    ∀ r : Reactor κ, r.gcEvents = list → ListedClosing r →
      reactorGcLoop P false list r = some { r with gcEvents := [] } := by
  induction list with
  | nil =>
    intro r hr _
    rw [reactorGcLoop, ← hr]
  | cons tmp rest ih =>
    intro r hr h
    have hclosing : (r.obj tmp).ev.closing = true :=
      (h tmp (by rw [hr]; exact List.mem_cons_self)).2
    -- on another thread a destroy of a closing event does nothing
    have hdestroy : eventDestroy P false true { r with gcEvents := rest } tmp =
        some { r with gcEvents := rest } := by
      simp [eventDestroy, hclosing]
    rw [reactorGcLoop, hdestroy]
    exact ih { r with gcEvents := rest } rfl fun e he =>
      h e (by rw [hr]; exact List.mem_cons_of_mem _ he)

theorem reactorGc_reactor (h : ListedClosing r) : reactorGc P true r =
    some (r.gcEvents.foldl (eventRelease P) { r with gcEvents := [] }) :=
  reactorGcLoop_reactor r.gcEvents r rfl h

theorem reactorGc_user (h : ListedClosing r) :
    reactorGc P false r = some { r with gcEvents := [] } :=
  reactorGcLoop_user r.gcEvents r rfl h

/-- With nothing on the list a collection does nothing. -/
theorem reactorGc_nil {isReactor : Bool} (h : r.gcEvents = []) :
    reactorGc P isReactor r = some r := by
  rw [reactorGc, h, reactorGcLoop]

/-- A property that releasing a listed event keeps holds after a collection. -/
theorem foldl_eventRelease {I : Reactor κ → Prop} (list : List ℕ)
    (hstep : ∀ r e, e ∈ list → I r → I (eventRelease P r e)) (hr : I r) :
    I (list.foldl (eventRelease P) r) := by
  induction list generalizing r with
  | nil => exact hr
  | cons e rest ih =>
    exact ih (fun r i hi => hstep r i (List.mem_cons_of_mem _ hi))
      (hstep r e List.mem_cons_self hr)

theorem foldl_eventRelease_fields (list : List ℕ) (r : Reactor κ) :
    (list.foldl (eventRelease P) r).gcEvents = r.gcEvents ∧
      (list.foldl (eventRelease P) r).created = r.created ∧
      (list.foldl (eventRelease P) r).closing = r.closing ∧
      (list.foldl (eventRelease P) r).released = r.released ++ list ∧
      ∀ i, ((list.foldl (eventRelease P) r).obj i).ev = (r.obj i).ev := by
  induction list generalizing r with
  | nil => exact ⟨rfl, rfl, rfl, (List.append_nil _).symm, fun _ => rfl⟩
  | cons e rest ih =>
    obtain ⟨hlist, hcreated, hclosing, hreleased, hev⟩ := ih (eventRelease P r e)
    refine ⟨hlist, hcreated, hclosing, ?_, fun i => (hev i).trans (eventRelease_ev i)⟩
    rw [List.foldl_cons, hreleased]
    exact List.append_assoc _ _ _

/-! ### Closing is for good -/

/-- Events are added, and those that are closing stay so. -/
structure Grows (r r' : Reactor κ) : Prop where
  created : r.created ≤ r'.created
  closing : ∀ e, e < r.created → (r.obj e).ev.closing = true → (r'.obj e).ev.closing = true

theorem Grows.refl (r : Reactor κ) : Grows r r := ⟨le_rfl, fun _ _ => id⟩

theorem Grows.trans {r'' : Reactor κ} (h : Grows r r') (h' : Grows r' r'') : Grows r r'' :=
  ⟨h.created.trans h'.created, fun e he hclosing =>
    h'.closing e (he.trans_le h.created) (h.closing e he hclosing)⟩

theorem setObj_grows {o : Obj κ} (ho : (r.obj e).ev.closing = true → o.ev.closing = true) :
    Grows r (r.setObj e o) := by
  refine ⟨le_rfl, fun i _ hi => ?_⟩
  rw [Reactor.setObj_obj]
  split_ifs with heq
  · exact ho (heq ▸ hi)
  · exact hi

theorem eventRelease_grows (P : Platform κ) (r : Reactor κ) (e : ℕ) :
    Grows r (eventRelease P r e) := by
  refine ⟨le_rfl, fun i _ hclosing => ?_⟩
  rw [eventRelease_ev]
  exact hclosing

theorem eventStop_grows (P : Platform κ) (r : Reactor κ) (e : ℕ) : Grows r (eventStop P r e) := by
  refine ⟨le_rfl, fun i _ hclosing => ?_⟩
  rw [eventStop_ev]
  split_ifs
  · rfl
  · exact hclosing

/-- A new event has a number of its own. -/
theorem eventCreate_grows (r : Reactor κ) (fd : ℤ) (cb : Option ℕ) (arg : ℕ) (type : EventType)
    (mem : Bool) (verdict : Verdict) : Grows r (eventCreate P r fd cb arg type mem verdict).2 := by
  have hnew : ∀ o, Grows r
      (({ r with created := r.created + 1, fds := preparefd r.fds fd } : Reactor κ).setObj
        r.created o) := by
    refine fun o => ⟨Nat.le_succ _, fun i hi hclosing => ?_⟩
    rw [Reactor.setObj_obj, if_neg hi.ne]
    exact hclosing
  unfold eventCreate
  dsimp only
  split_ifs
  · exact hnew _
  · exact (hnew _).trans (eventRelease_grows _ _ _)
  · exact Grows.refl r

theorem eventDestroy_grows {isReactor held : Bool}
    (h : eventDestroy P isReactor held r e = some r') : Grows r r' := by
  have hstop := eventStop_grows P r e
  rcases eventDestroy_cases h with ⟨-, -, rfl⟩ | ⟨-, -, rfl⟩ | ⟨-, -, rfl⟩ | ⟨-, -, -, rfl⟩
  · exact eventRelease_grows P r e
  · exact Grows.refl _
  · exact hstop.trans (eventRelease_grows P _ e)
  · exact ⟨hstop.created, hstop.closing⟩

/-- A call of any kind closes events and opens none. -/
theorem Op.apply_grows {isReactor : Bool} {o : Op} (h : o.apply P isReactor r = some r') :
    Grows r r' := by
  rcases Op.apply_cases h with ⟨ids, fd, cb, arg, type, mem, verdict, rfl⟩ |
    ⟨e, new, -, rfl, hclosing, -, -⟩ | ⟨e, -, -, hdestroy⟩
  · have hcreate := eventCreate_grows (P := P) { r with timerIds := ids } fd cb arg type mem verdict
    exact ⟨hcreate.created, hcreate.closing⟩
  · exact setObj_grows (by rw [hclosing]; exact id)
  · exact eventDestroy_grows hdestroy

/-! ### Listed events are closing -/

theorem ListedClosing.of_grows (h : ListedClosing r) (hgrows : Grows r r')
    (hlist : ∀ e ∈ r'.gcEvents, e ∈ r.gcEvents) : ListedClosing r' := by
  intro e he
  obtain ⟨hlt, hcl⟩ := h e (hlist e he)
  exact ⟨hlt.trans_le hgrows.created, hgrows.closing e hlt hcl⟩

theorem ListedClosing.release (h : ListedClosing r) (e : ℕ) :
    ListedClosing (eventRelease P r e) :=
  h.of_grows (eventRelease_grows P r e) fun _ => id

theorem ListedClosing.stop (h : ListedClosing r) (P : Platform κ) (e : ℕ) :
    ListedClosing (eventStop P r e) :=
  h.of_grows (eventStop_grows P r e) fun _ => id

theorem ListedClosing.setObj (h : ListedClosing r) {o : Obj κ}
    (ho : (r.obj e).ev.closing = true → o.ev.closing = true) : ListedClosing (r.setObj e o) :=
  h.of_grows (setObj_grows ho) fun _ => id

theorem ListedClosing.destroy {isReactor held : Bool} (h : ListedClosing r)
    (he : e < r.created) (hrun : eventDestroy P isReactor held r e = some r') :
    ListedClosing r' := by
  have hstop := h.stop P e
  rcases eventDestroy_cases hrun with ⟨-, -, rfl⟩ | ⟨-, -, rfl⟩ | ⟨-, -, rfl⟩ | ⟨-, -, -, rfl⟩
  · exact h.release e
  · exact h
  · exact hstop.release e
  · -- the event that is put on the list was stopped just before
    intro i hi
    rcases List.mem_append.mp hi with hi | hi
    · exact hstop i hi
    · rw [List.mem_singleton.mp hi]
      exact ⟨he, by dsimp only; rw [eventStop_ev, if_pos rfl]⟩

/-- A create puts nothing on the list. -/
theorem ListedClosing.create (h : ListedClosing r) (fd : ℤ) (cb : Option ℕ) (arg : ℕ)
    (type : EventType) (mem : Bool) (verdict : Verdict) :
    ListedClosing (eventCreate P r fd cb arg type mem verdict).2 := by
  have hlist : (eventCreate P r fd cb arg type mem verdict).2.gcEvents = r.gcEvents := by
    unfold eventCreate
    dsimp only
    split_ifs
    · rfl
    · rfl
    · rfl
  refine h.of_grows (eventCreate_grows r fd cb arg type mem verdict) fun i hi => ?_
  rwa [hlist] at hi

theorem ListedClosing.apply {isReactor : Bool} {o : Op} (h : ListedClosing r)
    (hrun : o.apply P isReactor r = some r') : ListedClosing r' := by
  rcases Op.apply_cases hrun with ⟨ids, fd, cb, arg, type, mem, verdict, rfl⟩ |
    ⟨e, new, -, rfl, hclosing, -, -⟩ | ⟨e, -, hold, hdestroy⟩
  · have hcounter : ListedClosing { r with timerIds := ids } := h
    exact hcounter.create fd cb arg type mem verdict
  · exact h.setObj (by rw [hclosing]; exact id)
  · exact h.destroy hold.1 hdestroy

/-- A collection always returns, with the list empty. -/
theorem ListedClosing.gc {isReactor : Bool} (h : ListedClosing r) :
    ∃ r', reactorGc P isReactor r = some r' ∧ r'.gcEvents = [] := by
  cases isReactor with
  | true =>
    refine ⟨_, reactorGc_reactor h, ?_⟩
    exact (foldl_eventRelease_fields _ _).1
  | false => exact ⟨_, reactorGc_user h, rfl⟩

/-- A collection on the reactor's thread releases what was on the list. -/
theorem Kept.gc (h : Kept busy r) (hlisted : ListedClosing r)
    (hrun : reactorGc P true r = some r') :
    Kept busy r' ∧ r'.gcEvents = [] ∧ r'.closing = r.closing ∧
      r'.released = r.released ++ r.gcEvents := by
  rw [reactorGc_reactor hlisted] at hrun
  obtain rfl := Option.some.inj hrun
  obtain ⟨hlist, hcreated, hclosing, hreleased, hev⟩ :=
    foldl_eventRelease_fields (P := P) r.gcEvents { r with gcEvents := [] }
  refine ⟨fun e he hcl => .inr ?_, hlist, hclosing, hreleased⟩
  rw [hcreated] at he
  rw [hev] at hcl
  rw [hreleased]
  rcases h e he hcl with hlist | hrel | hbusy
  · exact .inl (List.mem_append_right _ hlist)
  · exact .inl (List.mem_append_left _ hrel)
  · exact .inr hbusy

end Posixc
