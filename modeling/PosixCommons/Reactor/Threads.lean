import PosixCommons.Reactor.Lifecycle

/-!
# The threads of a reactor and its mutex

`posixc_event_destroy` and `posixc_reactor_gc` with the threads interleaved: a thread may
be interrupted at any of the places where it looks at an event or changes it, takes the
mutex or gives it back. A destroy that the collector calls runs while its thread has the
mutex, which is not recursive, and `add_to_gc_list` would take it again.

An event is named by the memory that `malloc` returned for it, which may be that of an
event freed before (`Reactor.Free`). Nothing is left of the event that was there, and no
thread gets past a line that would look at memory while it is free. The list is a sequence
of such names. A node that is initialised while it is still linked becomes its own
successor; the collector comes to it as in the code, and is not followed beyond it.

Two things keep the collector from `add_to_gc_list`. A thread has closed the event before it
goes for the mutex (`Place.Ok`), in every run. And memory that the list or a thread still
points to is not freed, and so is not given to an event that is open. That is so where no
two destroys of an event overlap (`ThreadStep.Overlaps`), and fails otherwise: an event
destroyed by a user thread and then by a callback is freed on the list
(`threads_locks_twice`).

The calls as one step each (`lifecycle`) are the runs in which no thread is interrupted
(`lifecycle_threads`).
-/

open Framework

namespace Posixc

variable {κ : Type}

/-! ### Memory -/

/-- `malloc` may return the memory: it was not given yet, or it was freed. -/
def Reactor.Free (r : Reactor κ) (chunk : ℕ) : Prop := chunk = r.created ∨ chunk ∈ r.released

instance (r : Reactor κ) (chunk : ℕ) : Decidable (r.Free chunk) :=
  inferInstanceAs (Decidable (_ ∨ _))

/-- `posixc_event_create` once `malloc` has returned `chunk`. -/
def eventCreateIn (P : Platform κ) (r : Reactor κ) (chunk : ℕ) (fd : ℤ) (cb : Option ℕ)
    (arg : ℕ) (type : EventType) (verdict : Verdict) : Reactor κ :=
  let ev := eventInit fd cb arg type
  let (ok, reg) := P.platCreate ev P.unregistered verdict
  -- the memory is that of an event again
  let r := { r with created := max r.created (chunk + 1),
                    released := r.released.filter (· ≠ chunk),
                    fds := preparefd r.fds fd }
  let r := r.setObj chunk ⟨ev, reg⟩
  if ok then r else eventRelease P r chunk

/-- The call, where `chunk` is what `malloc` returns in it. -/
def Op.applyIn (P : Platform κ) (isReactor : Bool) (chunk : ℕ) (r : Reactor κ) :
    Op → Option (Reactor κ)
  | .create fd cb arg type true verdict =>
    if r.Free chunk then some (eventCreateIn P r chunk fd cb arg type verdict) else none
  | .createTimer cb arg true verdict =>
    let fresh := uniqueTimerEventId r
    if r.Free chunk then some (eventCreateIn P fresh.2 chunk fresh.1 cb arg .timerEv verdict)
    else none
  | o => o.apply P isReactor r

/-! ### The places of the threads -/

/-- The thread of the reactor, and those of its users. -/
inductive Thread where
  | reactor
  | user (n : ℕ)
  deriving DecidableEq

/-- `pthread_self() == reactor->thread`. -/
def Thread.isReactor : Thread → Bool
  | .reactor => true
  | .user _ => false

/-- What a thread is about to do. In `posixc_event_destroy`, `inGc` is whether the
collector has called it. -/
inductive Place where
  /-- Anything but these calls: its own work, or for the reactor its loop or a callback. -/
  | outside
  /-- A line from `e->closing = true` to the `shutdown`. -/
  | stopping (inGc : Bool) (e : ℕ) (stage : StopStage)
  /-- The lock of `add_to_gc_list`. -/
  | locking (inGc : Bool) (e : ℕ)
  /-- The rest of `add_to_gc_list`. -/
  | adding (inGc : Bool) (e : ℕ)
  /-- The release, to which the reactor's thread comes. -/
  | releasing (inGc : Bool) (e : ℕ)
  /-- The lock of `posixc_reactor_gc`. -/
  | gcLocking
  /-- The next event of the loop of `posixc_reactor_gc`, or its unlock. -/
  | collecting
  /-- `if (!e->closing)` in the destroy that the collector calls. -/
  | destroying (e : ℕ)
  deriving DecidableEq

/-- The thread has the mutex there. -/
def Place.inside : Place → Bool
  | .outside => false
  | .stopping inGc _ _ => inGc
  | .locking inGc _ => inGc
  | .adding _ _ => true
  | .releasing inGc _ => inGc
  | .gcLocking => false
  | .collecting => true
  | .destroying _ => true

/-- The thread is about to take the mutex. -/
def Place.locks : Place → Bool
  | .locking _ _ => true
  | .gcLocking => true
  | _ => false

/-- The event that the thread has in hand. -/
def Place.event : Place → Option ℕ
  | .stopping _ e _ => some e
  | .locking _ e => some e
  | .adding _ e => some e
  | .releasing _ e => some e
  | .destroying e => some e
  | _ => none

/-- Where a destroy returns to. -/
def Place.after (inGc : Bool) : Place := if inGc then .collecting else .outside

/-- A reactor, the thread that has its mutex, and the places of all threads. -/
structure Threads (κ : Type) where
  reactor : Reactor κ
  owner : Option Thread
  place : Thread → Place

/-- A thread begins a call, or goes on with it. `chunk` is what `malloc` returns in the
call. -/
inductive ThreadStep where
  | call (t : Thread) (o : Op) (chunk : ℕ)
  | gc (t : Thread)
  | go (t : Thread)

variable (P : Platform κ)

namespace Threads

/-- The thread comes to a place. -/
def goTo (w : Threads κ) (t : Thread) (p : Place) : Threads κ :=
  { w with place := Function.update w.place t p }

/-- Where a destroy goes from `if (!e->closing)`. -/
def tested (w : Threads κ) (t : Thread) (inGc : Bool) (e : ℕ) : Place :=
  if (w.reactor.obj e).ev.closing then
    -- `if (is_reactor)`
    if t.isReactor then .releasing inGc e else .after inGc
  else .stopping inGc e .close

/-- A call of an operation by a thread that is at none. Of a destroy it is the test of
`closing`, the first look at the event. The others do not take the mutex. -/
def call (w : Threads κ) (t : Thread) (chunk : ℕ) : Op → Option (Threads κ)
  | .destroy e => if w.reactor.Holds e then some (w.goTo t (w.tested t false e)) else none
  | o => (o.applyIn P t.isReactor chunk w.reactor).map fun r => { w with reactor := r }

/-- `pthread_mutex_lock`. The thread waits for the one that has the mutex. -/
def lock (w : Threads κ) (t : Thread) (p : Place) : Option (Threads κ) :=
  if w.owner = none then some ({ w with owner := some t }.goTo t p) else none

/-- What the thread does at a place. -/
def goFrom (w : Threads κ) (t : Thread) : Place → Option (Threads κ)
  | .outside => none
  | .stopping inGc e stage =>
    some ({ w with reactor := stage.run P w.reactor e }.goTo t <|
      match stage.next with
      | some stage => .stopping inGc e stage
      -- a user's thread has the event collected, the reactor's releases it
      | none => if t.isReactor then .releasing inGc e else .locking inGc e)
  | .locking inGc e => w.lock t (.adding inGc e)
  | .adding inGc e =>
    some ({ w with reactor := { w.reactor with gcEvents := w.reactor.gcEvents ++ [e] },
                   owner := none }.goTo t (.after inGc))
  | .releasing inGc e =>
    some ({ w with reactor := eventRelease P w.reactor e }.goTo t (.after inGc))
  | .gcLocking => w.lock t .collecting
  | .collecting =>
    match w.reactor.gcEvents with
    | [] => some ({ w with owner := none }.goTo t .outside)
    | tmp :: rest =>
      -- `list_del` writes to the node
      if w.reactor.Holds tmp then
        some ({ w with reactor := { w.reactor with gcEvents := rest } }.goTo t (.destroying tmp))
      else none
  | .destroying e => some (w.goTo t (w.tested t true e))

/-- The thread goes on from where it is, unless the event in its hand was freed. -/
def go (w : Threads κ) (t : Thread) : Option (Threads κ) :=
  if ∀ e ∈ (w.place t).event, w.reactor.Holds e then w.goFrom P t (w.place t) else none

variable {w : Threads κ} {t t' : Thread} {p : Place}

@[simp] theorem goTo_reactor : (w.goTo t p).reactor = w.reactor := rfl

@[simp] theorem goTo_owner : (w.goTo t p).owner = w.owner := rfl

@[simp] theorem goTo_place_self : (w.goTo t p).place t = p := Function.update_self _ _ _

theorem goTo_place_of_ne (h : t' ≠ t) : (w.goTo t p).place t' = w.place t' :=
  Function.update_of_ne h _ _

theorem goTo_self (h : w.place t = p) : w.goTo t p = w := by
  rw [goTo, ← h, Function.update_eq_self]

end Threads

/-- No thread is in a call. -/
def Threads.idle (r : Reactor κ) : Threads κ := ⟨r, none, fun _ => .outside⟩

/-- The threads of a reactor that was just created. -/
def threads (fds : FdTable) (timerIds : ℕ) : System (Threads κ) ThreadStep where
  init w := w = .idle (reactorCreate P fds timerIds)
  next w
    | .call t o chunk => if w.place t = .outside then w.call P t chunk o else none
    | .gc t => if w.place t = .outside then some (w.goTo t .gcLocking) else none
    | .go t => w.go P t

/-- The event is on the list or in the hand of a thread. -/
def Threads.Busy (w : Threads κ) (e : ℕ) : Prop :=
  e ∈ w.reactor.gcEvents ∨ ∃ t, (w.place t).event = some e

/-- The step destroys an event that is on the list or in the hand of another thread: in a
callback, or in a user thread that finds it open. -/
def ThreadStep.Overlaps (w : Threads κ) (s : ThreadStep) : Prop :=
  ∃ t e chunk, s = .call t (.destroy e) chunk ∧ w.Busy e ∧
    (t.isReactor = true ∨ (w.reactor.obj e).ev.closing = false)

/-! ### What the calls do to the memory -/

variable {P} {r r' : Reactor κ} {e chunk : ℕ}

/-- Memory that `malloc` may return is that of no event. -/
theorem Reactor.Free.not_holds (h : r.Free chunk) : ¬ r.Holds chunk := by
  rintro ⟨hlt, hrel⟩
  rcases h with rfl | hfreed
  · exact lt_irrefl _ hlt
  · exact hrel hfreed

/-- In memory that was not given yet the create is that of `lifecycle`. -/
theorem eventCreateIn_created (hlt : ∀ e ∈ r.released, e < r.created) (fd : ℤ) (cb : Option ℕ)
    (arg : ℕ) (type : EventType) (verdict : Verdict) :
    eventCreateIn P r r.created fd cb arg type verdict =
      (eventCreate P r fd cb arg type true verdict).2 := by
  have hfilter : r.released.filter (· ≠ r.created) = r.released := by
    refine List.filter_eq_self.mpr fun e he => ?_
    simpa using (hlt e he).ne
  have hmax : max r.created (r.created + 1) = r.created + 1 := max_eq_right (Nat.le_succ _)
  unfold eventCreateIn eventCreate
  rw [hfilter, hmax, if_pos rfl]
  dsimp only
  split_ifs with hok
  · rfl
  · rfl

theorem Op.applyIn_created {isReactor : Bool} (hlt : ∀ e ∈ r.released, e < r.created) (o : Op) :
    o.applyIn P isReactor r.created r = o.apply P isReactor r := by
  unfold Op.applyIn
  split
  · rw [if_pos (.inl rfl), eventCreateIn_created hlt]
    rfl
  · have hlt' : ∀ e ∈ (uniqueTimerEventId r).2.released, e < (uniqueTimerEventId r).2.created := hlt
    dsimp only
    rw [if_pos (.inl rfl)]
    exact congrArg some (eventCreateIn_created hlt' _ _ _ _ _)
  · rfl

/-- What a step of a thread with the event `e` in its hand leaves to the others: their
events are held, and closing if they were, and are not put on the list. -/
structure Spares (e : Option ℕ) (r r' : Reactor κ) : Prop where
  holds : ∀ i, e ≠ some i → r.Holds i → r'.Holds i
  closing : ∀ i, e ≠ some i → r.Holds i → (r.obj i).ev.closing = true →
    (r'.obj i).ev.closing = true
  listed : ∀ i, e ≠ some i → i ∈ r'.gcEvents → i ∈ r.gcEvents

theorem Spares.refl (e : Option ℕ) (r : Reactor κ) : Spares e r r :=
  ⟨fun _ _ h => h, fun _ _ _ h => h, fun _ _ h => h⟩

theorem eventRelease_spares (P : Platform κ) (r : Reactor κ) (e : ℕ) :
    Spares (some e) r (eventRelease P r e) := by
  refine ⟨fun i hi h => (eventRelease_holds i).mpr ⟨h, fun heq => hi (congrArg some heq.symm)⟩,
    fun i _ _ h => ?_, fun _ _ h => h⟩
  rw [eventRelease_ev]
  exact h

theorem StopStage.run_holds (stage : StopStage) {i : ℕ} :
    (stage.run P r e).Holds i ↔ r.Holds i := by
  obtain ⟨hcreated, hreleased, -, -⟩ := stage.run_frame P r e
  unfold Reactor.Holds
  rw [hcreated, hreleased]

theorem StopStage.run_spares (stage : StopStage) (P : Platform κ) (r : Reactor κ) (e : ℕ)
    (e' : Option ℕ) : Spares e' r (stage.run P r e) := by
  obtain ⟨-, -, hlist, hclosing⟩ := stage.run_frame P r e
  exact ⟨fun i _ h => stage.run_holds.mpr h, fun i _ _ h => hclosing i h,
    fun i _ h => hlist ▸ h⟩

theorem Custody.run (h : Custody r) (stage : StopStage) : Custody (stage.run P r e) := by
  obtain ⟨hcreated, hreleased, hlist, hclosing⟩ := stage.run_frame P r e
  exact h.of_same hcreated hreleased hlist hclosing

/-- **A create in memory that is free.** It leaves the events that are held. -/
theorem Custody.createIn (h : Custody r) (hfree : r.Free chunk) (fd : ℤ) (cb : Option ℕ)
    (arg : ℕ) (type : EventType) (verdict : Verdict) :
    Custody (eventCreateIn P r chunk fd cb arg type verdict) ∧
      Spares none r (eventCreateIn P r chunk fd cb arg type verdict) := by
  -- the memory of no event that is held, and so of none that is listed
  have hne : ∀ i, r.Holds i → i ≠ chunk := by
    rintro i hi rfl
    exact hfree.not_holds hi
  have hheld : ∀ i, r.Holds i → i < max r.created (chunk + 1) ∧
      i ∉ r.released.filter (· ≠ chunk) := fun i hi =>
    ⟨hi.1.trans_le (le_max_left _ _), fun hmem => hi.2 (List.mem_of_mem_filter hmem)⟩
  have hnew : ∀ o fds, Custody (({ r with
        created := max r.created (chunk + 1), released := r.released.filter (· ≠ chunk),
        fds := fds } : Reactor κ).setObj chunk o) := by
    intro o fds
    refine ⟨h.released_nodup.filter _, fun e he => ?_, h.listed_nodup, fun e he => ?_⟩
    · exact (h.released_lt e (List.mem_of_mem_filter he)).trans_le (le_max_left _ _)
    · obtain ⟨hold, hclosing⟩ := h.listed e he
      refine ⟨hheld e hold, ?_⟩
      rw [Reactor.setObj_obj, if_neg (hne e hold)]
      exact hclosing
  have hspares : ∀ o fds, Spares none r (({ r with
        created := max r.created (chunk + 1), released := r.released.filter (· ≠ chunk),
        fds := fds } : Reactor κ).setObj chunk o) := by
    refine fun o fds => ⟨fun i _ hi => hheld i hi, fun i _ hi hclosing => ?_, fun _ _ h => h⟩
    rw [Reactor.setObj_obj, if_neg (hne i hi)]
    exact hclosing
  unfold eventCreateIn
  dsimp only
  split_ifs with hok
  · exact ⟨hnew _ _, hspares _ _⟩
  · -- the event that could not be registered is freed again
    have hlisted : chunk ∉ r.gcEvents := fun hmem => hne _ (h.listed _ hmem).1 rfl
    have hmem : chunk ∉ r.released.filter (· ≠ chunk) := by simp
    have hlt : chunk < max r.created (chunk + 1) :=
      (Nat.lt_succ_self chunk).trans_le (le_max_right _ _)
    refine ⟨(hnew _ _).release ⟨hlt, hmem⟩ hlisted, fun i _ hi => ?_,
      fun i _ hi hclosing => ?_, fun _ _ h => h⟩
    · exact (eventRelease_holds i).mpr ⟨hheld i hi, hne i hi⟩
    · rw [eventRelease_ev]
      exact (hspares _ _).closing i nofun hi hclosing

/-- A call that does not destroy leaves the events that are held. -/
theorem Custody.applyIn {isReactor : Bool} {o : Op} (h : Custody r) (ho : ∀ e, o ≠ .destroy e)
    (hrun : o.applyIn P isReactor chunk r = some r') : Custody r' ∧ Spares none r r' := by
  have happly : ∀ {r₁ : Reactor κ}, o.apply P isReactor r = some r₁ →
      Custody r₁ ∧ Spares none r r₁ := by
    intro r₁ hrun
    refine ⟨h.apply (fun e _ he => absurd he (ho e)) hrun, fun i _ hi => ?_,
      fun i _ hi hclosing => ?_, fun i _ hi => ?_⟩
    · exact Op.apply_holds hrun hi fun _ => ho i
    · exact (Op.apply_grows hrun).closing i hi.1 hclosing
    · rwa [(Op.apply_lists hrun).2.2.2 (.inl ho)] at hi
  unfold Op.applyIn at hrun
  split at hrun
  · split_ifs at hrun with hfree
    obtain rfl := Option.some.inj hrun
    exact h.createIn hfree _ _ _ _ _
  · -- the counter has moved on before the event is created
    dsimp only at hrun
    split_ifs at hrun with hfree
    obtain rfl := Option.some.inj hrun
    have hcounter : Custody (uniqueTimerEventId r).2 := h.of_same rfl rfl rfl fun _ => id
    obtain ⟨hcustody, hspares⟩ := hcounter.createIn hfree (uniqueTimerEventId r).1 _ _ .timerEv _
    exact ⟨hcustody, hspares.holds, hspares.closing, hspares.listed⟩
  · exact happly hrun

/-! ### One step -/

/-- What is known of the event that a thread has in hand. It is held. Before a thread goes
for the mutex the event is closing, and in the collector it was so before. -/
def Place.Ok (r : Reactor κ) : Place → Prop
  | .stopping inGc e stage =>
    r.Holds e ∧ inGc = false ∧ (stage ≠ .close → (r.obj e).ev.closing = true)
  | .locking inGc e => r.Holds e ∧ inGc = false ∧ (r.obj e).ev.closing = true
  | .adding inGc e => r.Holds e ∧ inGc = false ∧ (r.obj e).ev.closing = true
  | .releasing _ e => r.Holds e
  | .destroying e => r.Holds e ∧ (r.obj e).ev.closing = true
  | _ => True

theorem Place.Ok.holds {p : Place} (h : p.Ok r) (he : p.event = some e) : r.Holds e := by
  cases p with
  | stopping inGc i stage => exact Option.some.inj he ▸ h.1
  | locking inGc i => exact Option.some.inj he ▸ h.1
  | adding inGc i => exact Option.some.inj he ▸ h.1
  | releasing inGc i => exact Option.some.inj he ▸ h
  | destroying i => exact Option.some.inj he ▸ h.1
  | _ => cases he

theorem Place.Ok.mono {p : Place} (h : p.Ok r) (hheld : ∀ e, p.event = some e → r'.Holds e ∧
    ((r.obj e).ev.closing = true → (r'.obj e).ev.closing = true)) : p.Ok r' := by
  cases p with
  | stopping inGc e stage =>
    exact ⟨(hheld e rfl).1, h.2.1, fun hs => (hheld e rfl).2 (h.2.2 hs)⟩
  | locking inGc e => exact ⟨(hheld e rfl).1, h.2.1, (hheld e rfl).2 h.2.2⟩
  | adding inGc e => exact ⟨(hheld e rfl).1, h.2.1, (hheld e rfl).2 h.2.2⟩
  | releasing inGc e => exact (hheld e rfl).1
  | destroying e => exact ⟨(hheld e rfl).1, (hheld e rfl).2 h.2⟩
  | _ => trivial

/-- The listed events are held and closing, the places are as they should be, no event is in
two hands or in one and on the list, and the thread that has the mutex is the one that is
inside. -/
structure Locked (w : Threads κ) : Prop where
  custody : Custody w.reactor
  places : ∀ t, (w.place t).Ok w.reactor
  apart : ∀ t t' e, (w.place t).event = some e → (w.place t').event = some e → t = t'
  unlisted : ∀ t e, (w.place t).event = some e → e ∉ w.reactor.gcEvents
  owner : ∀ t, w.owner = some t ↔ (w.place t).inside = true

section Locked

variable {w w' : Threads κ} {t : Thread} {p : Place} {inGc : Bool}

/-- The event at the new place is in no other hand and not on the list. -/
def Threads.Unshared (w : Threads κ) (t : Thread) (list : List ℕ) (p : Place) : Prop :=
  ∀ e, p.event = some e → e ∉ list ∧ ∀ t', t' ≠ t → (w.place t').event ≠ some e

/-- The event that a thread has in hand may stay there. -/
theorem Locked.unshared (h : Locked w) (hp : ∀ e, p.event = some e → (w.place t).event = some e) :
    w.Unshared t w.reactor.gcEvents p := by
  intro e he
  have hown := hp e he
  exact ⟨h.unlisted t e hown, fun t' ht heq => ht (h.apart t' t e heq hown)⟩

/-- **A thread comes to another place.** -/
theorem Locked.goTo (h : Locked w) (t : Thread) {p : Place} {r' : Reactor κ}
    {owner : Option Thread} (hcustody : Custody r')
    (hspares : Spares (w.place t).event w.reactor r') (hok : p.Ok r')
    (hunshared : w.Unshared t r'.gcEvents p) (hself : owner = some t ↔ p.inside = true)
    (hothers : ∀ t', t' ≠ t → (owner = some t' ↔ w.owner = some t')) :
    Locked (({ w with reactor := r', owner := owner } : Threads κ).goTo t p) := by
  -- the thread does nothing to the event in another hand
  have hne : ∀ t', t' ≠ t → ∀ e, (w.place t').event = some e → (w.place t).event ≠ some e :=
    fun t' ht e he heq => ht (h.apart t' t e he heq)
  refine ⟨hcustody, fun t' => ?_, fun t₁ t₂ e h₁ h₂ => ?_, fun t' e he => ?_, fun t' => ?_⟩
  · by_cases ht : t' = t
    · subst ht
      rw [Threads.goTo_place_self]
      exact hok
    · rw [Threads.goTo_place_of_ne ht]
      refine (h.places t').mono fun e he => ?_
      have hold := (h.places t').holds he
      exact ⟨hspares.holds e (hne t' ht e he) hold, hspares.closing e (hne t' ht e he) hold⟩
  · by_cases ht₁ : t₁ = t <;> by_cases ht₂ : t₂ = t
    · rw [ht₁, ht₂]
    · rw [ht₁, Threads.goTo_place_self] at h₁
      rw [Threads.goTo_place_of_ne ht₂] at h₂
      exact absurd h₂ ((hunshared e h₁).2 t₂ ht₂)
    · rw [ht₂, Threads.goTo_place_self] at h₂
      rw [Threads.goTo_place_of_ne ht₁] at h₁
      exact absurd h₁ ((hunshared e h₂).2 t₁ ht₁)
    · rw [Threads.goTo_place_of_ne ht₁] at h₁
      rw [Threads.goTo_place_of_ne ht₂] at h₂
      exact h.apart t₁ t₂ e h₁ h₂
  · by_cases ht : t' = t
    · rw [ht, Threads.goTo_place_self] at he
      exact (hunshared e he).1
    · rw [Threads.goTo_place_of_ne ht] at he
      exact fun hmem => h.unlisted t' e he (hspares.listed e (hne t' ht e he) hmem)
  · by_cases ht : t' = t
    · subst ht
      rw [Threads.goTo_place_self]
      exact hself
    · rw [Threads.goTo_place_of_ne ht]
      exact (hothers t' ht).trans (h.owner t')

/-- The mutex stays where it is. -/
theorem Locked.stay (h : Locked w) (t : Thread) {p : Place} {r' : Reactor κ}
    (hcustody : Custody r') (hspares : Spares (w.place t).event w.reactor r') (hok : p.Ok r')
    (hunshared : w.Unshared t r'.gcEvents p) (hinside : p.inside = (w.place t).inside) :
    Locked (({ w with reactor := r' } : Threads κ).goTo t p) := by
  refine h.goTo t hcustody hspares hok hunshared ?_ fun _ _ => Iff.rfl
  rw [hinside]
  exact h.owner t

/-- A thread takes the mutex, which no thread has. -/
theorem Locked.lock (h : Locked w) (hok : p.Ok w.reactor)
    (hp : ∀ e, p.event = some e → (w.place t).event = some e) (hinside : p.inside = true)
    (hnext : w.lock t p = some w') : Locked w' := by
  unfold Threads.lock at hnext
  split_ifs at hnext with hfree
  obtain rfl := Option.some.inj hnext
  refine h.goTo t h.custody (.refl _ _) hok (h.unshared hp) (iff_of_true rfl hinside)
    fun t' ht => ?_
  rw [hfree]
  exact iff_of_false (fun heq => ht (Option.some.inj heq).symm) (Option.some_ne_none t').symm

/-- A thread gives the mutex back and has no event in hand. -/
theorem Locked.unlock (h : Locked w) {r' : Reactor κ} (hcustody : Custody r')
    (hspares : Spares (w.place t).event w.reactor r') (hbefore : (w.place t).inside = true) :
    Locked (({ w with reactor := r', owner := none } : Threads κ).goTo t .outside) := by
  refine h.goTo t hcustody hspares trivial nofun
    (iff_of_false (Option.some_ne_none t).symm Bool.false_ne_true) fun t' ht => ?_
  rw [(h.owner t).mpr hbefore]
  exact iff_of_false (Option.some_ne_none t').symm fun heq => ht (Option.some.inj heq).symm

/-- A call that does not destroy is one step of the thread. -/
theorem Threads.call_eq {o : Op} (ho : ∀ e, o ≠ .destroy e) : w.call P t chunk o =
    (o.applyIn P t.isReactor chunk w.reactor).map fun r => { w with reactor := r } := by
  cases o with
  | destroy e => exact absurd rfl (ho e)
  | _ => rfl

theorem Threads.call_cases {o : Op} (hnext : w.call P t chunk o = some w') :
    (∃ e, o = .destroy e ∧ w.reactor.Holds e ∧ w' = w.goTo t (w.tested t false e)) ∨
      (∀ e, o ≠ .destroy e) ∧ ∃ r', o.applyIn P t.isReactor chunk w.reactor = some r' ∧
        w' = { w with reactor := r' } := by
  by_cases hdestroy : ∃ e, o = .destroy e
  · obtain ⟨e, rfl⟩ := hdestroy
    rw [Threads.call] at hnext
    split_ifs at hnext with hold
    exact .inl ⟨e, rfl, hold, (Option.some.inj hnext).symm⟩
  · have ho : ∀ e, o ≠ .destroy e := fun e he => hdestroy ⟨e, he⟩
    rw [Threads.call_eq ho] at hnext
    obtain ⟨r', hrun, hw⟩ := Option.map_eq_some_iff.mp hnext
    exact .inr ⟨ho, r', hrun, hw.symm⟩

/-- A destroy takes no event in hand that is in another, or on the list. -/
theorem Locked.call {o : Op} (h : Locked w) (hplace : w.place t = .outside)
    (hguard : ∀ e, o = .destroy e → w.Busy e →
      t.isReactor = false ∧ (w.reactor.obj e).ev.closing = true)
    (hnext : w.call P t chunk o = some w') : Locked w' := by
  rcases Threads.call_cases hnext with ⟨e, rfl, hold, rfl⟩ | ⟨ho, r', hrun, rfl⟩
  · by_cases hbusy : w.Busy e
    · -- a user's thread finds the event closing, and returns
      obtain ⟨ht, hclosing⟩ := hguard e rfl hbusy
      have htested : w.tested t false e = .outside := by
        rw [Threads.tested, if_pos hclosing, ht]
        rfl
      rw [htested, Threads.goTo_self hplace]
      exact h
    · have hfree : ∀ i, i = e → i ∉ w.reactor.gcEvents ∧
          ∀ t', t' ≠ t → (w.place t').event ≠ some i := by
        rintro i rfl
        exact ⟨fun hmem => hbusy (.inl hmem), fun t' _ heq => hbusy (.inr ⟨t', heq⟩)⟩
      refine h.stay t h.custody (.refl _ _) ?_ ?_ ?_
      · unfold Threads.tested
        split_ifs with hclosing hreactor
        · exact hold
        · trivial
        · exact ⟨hold, rfl, fun hne => absurd rfl hne⟩
      · intro i hi
        unfold Threads.tested at hi
        split_ifs at hi with hclosing hreactor
        · exact hfree i (Option.some.inj hi).symm
        · cases hi
        · exact hfree i (Option.some.inj hi).symm
      · rw [hplace]
        unfold Threads.tested
        split_ifs <;> rfl
  · obtain ⟨hcustody, hspares⟩ := h.custody.applyIn ho hrun
    have hevent : (w.place t).event = none := by rw [hplace]; rfl
    have hlocked := h.stay t (p := .outside) hcustody (hevent ▸ hspares) trivial nofun
      (by rw [hplace])
    have hself : ({ w with reactor := r' } : Threads κ).goTo t .outside =
        { w with reactor := r' } := Threads.goTo_self hplace
    rwa [hself] at hlocked

/-- The line that stops the event leaves it in the hand of the thread. After the last
line it is closing. -/
theorem Locked.stopping {stage : StopStage} (h : Locked w)
    (hplace : w.place t = .stopping inGc e stage)
    (hnext : w.goFrom P t (.stopping inGc e stage) = some w') : Locked w' := by
  obtain rfl := Option.some.inj hnext
  have hok := h.places t
  rw [hplace] at hok
  obtain ⟨hold, hout, hclosing⟩ := hok
  have hheld : (stage.run P w.reactor e).Holds e := stage.run_holds.mpr hold
  -- the first line closes the event, and the others leave it closing
  have hclosed : ((stage.run P w.reactor e).obj e).ev.closing = true := by
    by_cases hstage : stage = .close
    · rw [StopStage.run_ev, if_pos ⟨rfl, hstage⟩]
    · exact (stage.run_frame P w.reactor e).2.2.2 e (hclosing hstage)
  have hlist := (stage.run_frame P w.reactor e).2.2.1
  have hstay : ∀ p : Place, p.event = some e → p.Ok (stage.run P w.reactor e) →
      p.inside = inGc →
      Locked (({ w with reactor := stage.run P w.reactor e } : Threads κ).goTo t p) := by
    intro p hp hok hinside
    have hunshared : w.Unshared t w.reactor.gcEvents p := h.unshared fun i hi => by
      rw [hplace, ← hi, hp]
      rfl
    refine h.stay t (h.custody.run stage) (stage.run_spares P _ e _) hok ?_ ?_
    · rw [hlist]
      exact hunshared
    · rw [hplace]
      exact hinside
  cases hnextStage : stage.next with
  | some next => exact hstay (.stopping inGc e next) rfl ⟨hheld, hout, fun _ => hclosed⟩ rfl
  | none =>
    cases t with
    | reactor => exact hstay (.releasing inGc e) rfl hheld rfl
    | user n => exact hstay (.locking inGc e) rfl ⟨hheld, hout, hclosed⟩ rfl

/-- The event goes from the hand of the thread to the list. -/
theorem Locked.adding (h : Locked w) (hplace : w.place t = .adding inGc e)
    (hnext : w.goFrom P t (.adding inGc e) = some w') : Locked w' := by
  obtain rfl := Option.some.inj hnext
  have hok := h.places t
  rw [hplace] at hok
  obtain ⟨hold, rfl, hclosing⟩ := hok
  have hunlisted : e ∉ w.reactor.gcEvents := h.unlisted t e (by rw [hplace]; rfl)
  refine h.unlock (h.custody.enlist hold hclosing hunlisted) ⟨fun _ _ h => h, fun _ _ _ h => h, fun i hi hmem => ?_⟩
    (by rw [hplace]; rfl)
  rcases List.mem_append.mp hmem with hmem | hmem
  · exact hmem
  · -- the event that is listed is not another's
    rw [hplace, List.mem_singleton.mp hmem] at hi
    exact absurd rfl hi

/-- The event that is freed is in no other hand, and not on the list. -/
theorem Locked.releasing (h : Locked w) (hplace : w.place t = .releasing inGc e)
    (hnext : w.goFrom P t (.releasing inGc e) = some w') : Locked w' := by
  obtain rfl := Option.some.inj hnext
  have hok := h.places t
  rw [hplace] at hok
  have hunlisted : e ∉ w.reactor.gcEvents := h.unlisted t e (by rw [hplace]; rfl)
  have hevent : (w.place t).event = some e := by rw [hplace]; rfl
  refine h.stay t (h.custody.release hok hunlisted) ?_ ?_ ?_ ?_
  · rw [hevent]
    exact eventRelease_spares P w.reactor e
  · cases inGc <;> trivial
  · cases inGc <;> exact nofun
  · -- the collector has the mutex before and after
    rw [hplace]
    cases inGc <;> rfl

/-- What comes off the list is held and closing, and in no hand. -/
theorem Locked.collecting (h : Locked w) (hplace : w.place t = .collecting)
    (hnext : w.goFrom P t .collecting = some w') : Locked w' := by
  rw [Threads.goFrom] at hnext
  cases hlist : w.reactor.gcEvents with
  | nil =>
    rw [hlist] at hnext
    obtain rfl := Option.some.inj hnext
    exact h.unlock h.custody (.refl _ _) (by rw [hplace]; rfl)
  | cons tmp rest =>
    rw [hlist] at hnext
    dsimp only at hnext
    split_ifs at hnext
    obtain rfl := Option.some.inj hnext
    obtain ⟨hold, hclosing, hnot, hcustody⟩ := h.custody.unlist hlist
    have hsub : ∀ i, i ∈ tmp :: rest → i ∈ w.reactor.gcEvents := fun i hi => hlist ▸ hi
    refine h.stay t hcustody ⟨fun _ _ h => h, fun _ _ _ h => h,
      fun i _ hi => hsub i (List.mem_cons_of_mem _ hi)⟩ ⟨hold, hclosing⟩ (fun i hi => ?_)
      (by rw [hplace]; rfl)
    obtain rfl : tmp = i := Option.some.inj hi
    exact ⟨hnot, fun t' _ heq => h.unlisted t' tmp heq (hsub tmp List.mem_cons_self)⟩

/-- **The destroy that the collector calls finds the event closing.** -/
theorem Locked.destroying (h : Locked w) (hplace : w.place t = .destroying e)
    (hnext : w.goFrom P t (.destroying e) = some w') : Locked w' := by
  obtain rfl := Option.some.inj hnext
  have hok := h.places t
  rw [hplace] at hok
  rw [Threads.tested, if_pos hok.2]
  split_ifs
  · refine h.stay t h.custody (.refl _ _) hok.1 (h.unshared fun i hi => ?_) (by rw [hplace]; rfl)
    rw [hplace]
    exact hi
  · exact h.stay t h.custody (.refl _ _) trivial nofun (by rw [hplace]; rfl)

/-- **A thread goes on.** -/
theorem Locked.go (h : Locked w) (hnext : w.go P t = some w') : Locked w' := by
  rw [Threads.go] at hnext
  split_ifs at hnext
  cases hplace : w.place t with
  | outside =>
    rw [hplace] at hnext
    cases hnext
  | stopping inGc e stage => exact h.stopping hplace (hplace ▸ hnext)
  | locking inGc e =>
    rw [hplace] at hnext
    have hok := h.places t
    rw [hplace] at hok
    refine h.lock (p := .adding inGc e) hok (fun i hi => ?_) rfl hnext
    rw [hplace]
    exact hi
  | adding inGc e => exact h.adding hplace (hplace ▸ hnext)
  | releasing inGc e => exact h.releasing hplace (hplace ▸ hnext)
  | gcLocking =>
    rw [hplace] at hnext
    exact h.lock (p := .collecting) trivial nofun rfl hnext
  | collecting => exact h.collecting hplace (hplace ▸ hnext)
  | destroying e => exact h.destroying hplace (hplace ▸ hnext)

end Locked

theorem Locked.init (h : Custody r) : Locked (Threads.idle r) :=
  ⟨h, fun _ => trivial, nofun, nofun, fun t =>
    iff_of_false (Option.some_ne_none t).symm Bool.false_ne_true⟩

theorem Locked.next {fds : FdTable} {timerIds : ℕ} {w w' : Threads κ} {s : ThreadStep}
    (h : Locked w) (hguard : ¬ s.Overlaps w)
    (hnext : (threads P fds timerIds).next w s = some w') : Locked w' := by
  cases s with
  | call t o chunk =>
    change (if w.place t = .outside then w.call P t chunk o else none) = some w' at hnext
    split_ifs at hnext with hplace
    refine h.call hplace (fun e ho hbusy => ?_) hnext
    subst ho
    have hboth : ¬ (t.isReactor = true ∨ (w.reactor.obj e).ev.closing = false) :=
      fun hor => hguard ⟨t, e, chunk, rfl, hbusy, hor⟩
    rwa [not_or, Bool.not_eq_true, Bool.not_eq_false] at hboth
  | gc t =>
    change (if w.place t = .outside then some (w.goTo t .gcLocking) else none) = some w' at hnext
    split_ifs at hnext with hplace
    obtain rfl := Option.some.inj hnext
    exact h.stay t h.custody (.refl _ _) trivial nofun (by rw [hplace]; rfl)
  | go t => exact h.go hnext

/-! ### Whole runs -/

/-- The listed events that are not released are closing, the collector has the mutex and
never comes to `add_to_gc_list`, and no thread goes for the mutex while it has it. -/
structure LockSafe (w : Threads κ) : Prop where
  listed : ∀ e ∈ w.reactor.gcEvents, w.reactor.Holds e → (w.reactor.obj e).ev.closing = true
  collector_has : ∀ t e, w.place t = .destroying e → w.owner = some t
  collector_locks : ∀ t e, w.place t ≠ .locking true e
  collector_adds : ∀ t e, w.place t ≠ .adding true e
  relocks : ∀ t, w.owner = some t → (w.place t).locks = false

theorem Locked.safe {w : Threads κ} (h : Locked w) : LockSafe w := by
  refine ⟨fun e he _ => (h.custody.listed e he).2, fun t e hplace => ?_, fun t e hplace => ?_,
    fun t e hplace => ?_, fun t howner => ?_⟩
  · exact (h.owner t).mpr (by rw [hplace]; rfl)
  · have hok := h.places t
    rw [hplace] at hok
    cases hok.2.1
  · have hok := h.places t
    rw [hplace] at hok
    cases hok.2.1
  · have hinside := (h.owner t).mp howner
    have hok := h.places t
    cases hplace : w.place t with
    | locking inGc e =>
      -- the thread is not in the collector, and has the mutex nowhere else
      rw [hplace] at hinside hok
      exact absurd (hok.2.1.symm.trans hinside) Bool.false_ne_true
    | gcLocking =>
      rw [hplace] at hinside
      cases hinside
    | _ => rfl

/-- **The mutex is not taken twice.** In every run of the threads, in any order, in which
no callback destroys an event that is on the list or in another thread's hand, and no user
thread finds such an event open. -/
theorem threads_lockSafe (P : Platform κ) (fds : FdTable) (timerIds : ℕ)
    (steps : List ThreadStep)
    (hguard : (threads P fds timerIds).Guarded (fun w s => ¬ s.Overlaps w)
      (.idle (reactorCreate P fds timerIds)) steps) :
    (threads P fds timerIds).Always LockSafe (.idle (reactorCreate P fds timerIds)) steps :=
  System.always_of_guarded (J := Locked) (fun _ _ _ h hP hnext => h.next hP hnext)
    (fun _ h => h.safe) (Locked.init (Custody.init P fds timerIds)) hguard

/-- A user's thread creates an event and destroys it. -/
def destroyOne : List ThreadStep :=
  .call (.user 0) (.create 3 none 0 .sockEv true none) 0 :: .call (.user 0) (.destroy 0) 0 ::
    List.replicate 5 (.go (.user 0))

/-- Another user's thread destroys the event while the first is about to list it, and
returns. -/
theorem threads_lockSafe_two : (threads kqueue socketTable 0).Always LockSafe
    (.idle (reactorCreate kqueue socketTable 0))
    [.call (.user 0) (.create 3 none 0 .sockEv true none) 0, .call (.user 0) (.destroy 0) 0,
      .go (.user 0), .call (.user 1) (.destroy 0) 0] := by
  refine threads_lockSafe kqueue socketTable 0 _ ?_
  refine .cons ?_ rfl (.cons ?_ rfl (.cons ?_ rfl (.cons ?_ rfl trivial)))
  · rintro ⟨t, e, chunk, hs, -⟩
    cases hs
  · -- nothing is listed, and every thread is outside
    rintro ⟨t, e, chunk, -, hlist | ⟨t', hplace⟩, -⟩
    · cases hlist
    · cases hplace
  · rintro ⟨t, e, chunk, hs, -⟩
    cases hs
  · -- the event is closing by now
    rintro ⟨t, e, chunk, hs, -, ht | hopen⟩
    · obtain ⟨rfl, -, -⟩ := ThreadStep.call.inj hs
      cases ht
    · obtain ⟨-, he, -⟩ := ThreadStep.call.inj hs
      obtain rfl := Op.destroy.inj he
      cases hopen

/-- **The mutex is taken twice.** A callback destroys the event that a user's thread has
had listed. Its memory is given to a timer, which is open, and which the collector of a
user's thread comes to. -/
theorem threads_locks_twice : ¬ (threads kqueue socketTable 0).Always LockSafe
    (.idle (reactorCreate kqueue socketTable 0))
    (destroyOne ++ [.call .reactor (.destroy 0) 0, .go .reactor,
      .call (.user 0) (.createTimer none 0 true none) 0, .gc (.user 0)] ++
      List.replicate 6 (.go (.user 0))) := by
  intro h
  -- the thread has the mutex and is about to take it in `add_to_gc_list`
  have hend : ((threads kqueue socketTable 0).run (.idle (reactorCreate kqueue socketTable 0))
      (destroyOne ++ [.call .reactor (.destroy 0) 0, .go .reactor,
        .call (.user 0) (.createTimer none 0 true none) 0, .gc (.user 0)] ++
        List.replicate 6 (.go (.user 0)))).map (fun w => (w.owner, w.place (.user 0))) =
      some (some (.user 0), .locking true 0) := by
    decide +kernel
  obtain ⟨w, hrun, hw⟩ := Option.map_eq_some_iff.mp hend
  obtain ⟨howner, hplace⟩ := Prod.mk.inj hw
  have hlocks := (h 17 w (by rw [List.take_of_length_le (by decide)]; exact hrun)).relocks _ howner
  rw [hplace] at hlocks
  cases hlocks

/-- A thread that does not wait for the mutex goes on: the event in its hand was not
freed. -/
theorem Locked.goes_on {w : Threads κ} {t : Thread} (h : Locked w)
    (hplace : w.place t ≠ .outside) (hwaits : (w.place t).locks = true → w.owner = none) :
    ∃ w', w.go P t = some w' := by
  have hheld : ∀ e ∈ (w.place t).event, w.reactor.Holds e := fun e he => (h.places t).holds he
  rw [Threads.go, if_pos hheld]
  cases hp : w.place t with
  | outside => exact absurd hp hplace
  | locking inGc e =>
    rw [hp] at hwaits
    rw [Threads.goFrom, Threads.lock, if_pos (hwaits rfl)]
    exact ⟨_, rfl⟩
  | gcLocking =>
    rw [hp] at hwaits
    rw [Threads.goFrom, Threads.lock, if_pos (hwaits rfl)]
    exact ⟨_, rfl⟩
  | collecting =>
    rw [Threads.goFrom]
    cases hlist : w.reactor.gcEvents with
    | nil => exact ⟨_, rfl⟩
    | cons tmp rest =>
      dsimp only
      rw [if_pos (h.custody.unlist hlist).1]
      exact ⟨_, rfl⟩
  | _ => exact ⟨_, rfl⟩

/-- **No thread is stuck in a call.** In such a run one that does not wait for the mutex goes
on, and so those that wait are let in. -/
theorem threads_goes_on {fds : FdTable} {timerIds : ℕ} {steps : List ThreadStep}
    {w : Threads κ} {t : Thread}
    (hguard : (threads P fds timerIds).Guarded (fun w s => ¬ s.Overlaps w)
      (.idle (reactorCreate P fds timerIds)) steps)
    (hrun : (threads P fds timerIds).run (.idle (reactorCreate P fds timerIds)) steps = some w)
    (hplace : w.place t ≠ .outside) (hwaits : (w.place t).locks = true → w.owner = none) :
    ∃ w', w.go P t = some w' :=
  (System.run_invariant (I := Locked) (fun _ _ _ h hP hnext => h.next hP hnext)
    (Locked.init (Custody.init P fds timerIds)) hguard hrun).goes_on hplace hwaits

end Posixc
