import PosixCommons.Event.Kqueue
import PosixCommons.Reactor.Basic

/-!
# Orders of creating, destroying and collecting

The calls that threads make on a reactor, in any order and each as one step:
a user thread or a callback creates, submits or destroys an event, and a garbage
collection runs on the reactor's thread or inside `posixc_reactor_destroy`.

Two things are followed through every run. `Custody` says who releases an event:
the list and the release log are disjoint and without repetition. It breaks when a
callback destroys an event that a user thread has put on the list. `OnlySockets`
says which descriptors the events act on. It breaks when an event that is not a
socket gets a number that is an open descriptor.
-/

open Framework

namespace Posixc

variable {κ : Type}

/-- A call of a thread, the reactor's own or another, or a pass of the collector. -/
inductive Step where
  | op (isReactor : Bool) (o : Op)
  | gc (isReactor : Bool)

/-- The reactor and its callers. -/
def lifecycle (P : Platform κ) (fds : FdTable) (timerIds : ℕ) : System (Reactor κ) Step where
  init r := r = reactorCreate P fds timerIds
  next r
    | .op isReactor o => o.apply P isReactor r
    | .gc isReactor => reactorGc P isReactor r

variable {P : Platform κ}

/-! ### Who releases an event -/

/-- What the release log and the list of the collector know of the events. -/
structure Custody (r : Reactor κ) : Prop where
  released_nodup : r.released.Nodup
  released_lt : ∀ e ∈ r.released, e < r.created
  listed_nodup : r.gcEvents.Nodup
  listed : ∀ e ∈ r.gcEvents, r.Holds e ∧ (r.obj e).ev.closing = true

/-- Custody is about the lists and the flags only. -/
theorem Custody.of_same {r r' : Reactor κ} (h : Custody r) (hcreated : r'.created = r.created)
    (hreleased : r'.released = r.released) (hlist : r'.gcEvents = r.gcEvents)
    (hclosing : ∀ e, (r.obj e).ev.closing = true → (r'.obj e).ev.closing = true) :
    Custody r' := by
  refine ⟨?_, ?_, ?_, ?_⟩
  · rw [hreleased]
    exact h.released_nodup
  · rw [hreleased, hcreated]
    exact h.released_lt
  · rw [hlist]
    exact h.listed_nodup
  · intro e he
    rw [hlist] at he
    obtain ⟨hold, hcl⟩ := h.listed e he
    refine ⟨?_, hclosing e hcl⟩
    unfold Reactor.Holds
    rw [hcreated, hreleased]
    exact hold

/-- Releasing an event that is held and not listed. -/
theorem Custody.release {r : Reactor κ} {e : ℕ} (h : Custody r) (hold : r.Holds e)
    (hlist : e ∉ r.gcEvents) : Custody (eventRelease P r e) := by
  refine ⟨?_, ?_, h.listed_nodup, ?_⟩
  · -- an event that is held is not in the log yet
    exact h.released_nodup.append (List.nodup_singleton e) (by simpa using hold.2)
  · intro i hi
    rcases List.mem_append.mp hi with hi | hi
    · exact h.released_lt i hi
    · rw [List.mem_singleton.mp hi]
      exact hold.1
  · intro i hi
    obtain ⟨⟨hlt, hrel⟩, hclosing⟩ := h.listed i hi
    refine ⟨⟨hlt, ?_⟩, by rw [eventRelease_ev]; exact hclosing⟩
    -- a listed event is not the one that is released
    intro hmem
    rcases List.mem_append.mp hmem with hmem | hmem
    · exact hrel hmem
    · exact hlist (List.mem_singleton.mp hmem ▸ hi)

theorem Custody.stop {r : Reactor κ} (h : Custody r) (e : ℕ) : Custody (eventStop P r e) := by
  refine h.of_same rfl rfl rfl fun i hi => ?_
  rw [eventStop_ev]
  split_ifs with heq
  · rfl
  · exact hi

/-- An event goes on the list. -/
theorem Custody.enlist {r : Reactor κ} {e : ℕ} (h : Custody r) (hold : r.Holds e)
    (hclosing : (r.obj e).ev.closing = true) (hnot : e ∉ r.gcEvents) :
    Custody { r with gcEvents := r.gcEvents ++ [e] } := by
  refine ⟨h.released_nodup, h.released_lt, ?_, fun i hi => ?_⟩
  · exact h.listed_nodup.append (List.nodup_singleton e) (by simpa using hnot)
  · rcases List.mem_append.mp hi with hi | hi
    · exact h.listed i hi
    · rw [List.mem_singleton.mp hi]
      exact ⟨hold, hclosing⟩

/-- The first event comes off the list. -/
theorem Custody.unlist {r : Reactor κ} {e : ℕ} {rest : List ℕ} (h : Custody r)
    (hlist : r.gcEvents = e :: rest) : r.Holds e ∧ (r.obj e).ev.closing = true ∧ e ∉ rest ∧
      Custody { r with gcEvents := rest } := by
  have hlisted : ∀ i ∈ e :: rest, r.Holds i ∧ (r.obj i).ev.closing = true := hlist ▸ h.listed
  have hnodup : (e :: rest).Nodup := hlist ▸ h.listed_nodup
  obtain ⟨hnot, hrest⟩ := List.nodup_cons.mp hnodup
  obtain ⟨hold, hclosing⟩ := hlisted e List.mem_cons_self
  exact ⟨hold, hclosing, hnot, h.released_nodup, h.released_lt, hrest,
    fun i hi => hlisted i (List.mem_cons_of_mem _ hi)⟩

/-- A destroy keeps custody unless it is made on the reactor's thread of an event
on the list. -/
theorem Custody.destroy {r r' : Reactor κ} {e : ℕ} {isReactor held : Bool} (h : Custody r)
    (hold : r.Holds e) (hlist : isReactor = true → e ∉ r.gcEvents)
    (hrun : eventDestroy P isReactor held r e = some r') : Custody r' := by
  rcases eventDestroy_cases hrun with ⟨-, hr, rfl⟩ | ⟨-, -, rfl⟩ | ⟨-, hr, rfl⟩ |
    ⟨hopen, -, -, rfl⟩
  · exact h.release hold (hlist hr)
  · exact h
  · exact (h.stop e).release hold (hlist hr)
  · -- an event that was not closing was not on the list either
    have hnot : e ∉ r.gcEvents := by
      intro he
      rw [(h.listed e he).2] at hopen
      cases hopen
    have hclosing : ((eventStop P r e).obj e).ev.closing = true := by
      rw [eventStop_ev, if_pos rfl]
    exact (h.stop e).enlist hold hclosing hnot

theorem Custody.create {r : Reactor κ} (h : Custody r) (fd : ℤ) (cb : Option ℕ) (arg : ℕ)
    (type : EventType) (mem : Bool) (verdict : Verdict) :
    Custody (eventCreate P r fd cb arg type mem verdict).2 := by
  cases mem with
  | false => exact h
  | true =>
    unfold eventCreate
    rw [if_pos rfl]
    dsimp only
    -- the new event is neither listed nor released
    have hlisted : r.created ∉ r.gcEvents := fun hmem => lt_irrefl _ (h.listed _ hmem).1.1
    have hreleased : r.created ∉ r.released := fun hmem => lt_irrefl _ (h.released_lt _ hmem)
    have hnew : ∀ o fds, Custody
        (({ r with created := r.created + 1, fds := fds } : Reactor κ).setObj r.created o) := by
      intro o fds
      refine ⟨h.released_nodup, fun e he => Nat.lt_succ_of_lt (h.released_lt e he),
        h.listed_nodup, fun e he => ?_⟩
      obtain ⟨⟨hlt, hrel⟩, hclosing⟩ := h.listed e he
      refine ⟨⟨Nat.lt_succ_of_lt hlt, hrel⟩, ?_⟩
      rw [Reactor.setObj_obj, if_neg hlt.ne]
      exact hclosing
    split_ifs with hok
    · exact hnew _ _
    · -- the event that could not be registered is released once
      exact (hnew _ _).release ⟨Nat.lt_succ_self _, hreleased⟩ hlisted

theorem Custody.listedClosing {r : Reactor κ} (h : Custody r) : ListedClosing r := fun e he =>
  ⟨(h.listed e he).1.1, (h.listed e he).2⟩

theorem Custody.releaseAll (list : List ℕ) :
    ∀ r : Reactor κ, Custody r → r.gcEvents = [] → list.Nodup → (∀ e ∈ list, r.Holds e) →
      Custody (list.foldl (eventRelease P) r) := by
  induction list with
  | nil => intro r h _ _ _; exact h
  | cons e rest ih =>
    intro r h hr hnd hold
    rw [List.nodup_cons] at hnd
    have hlisted : e ∉ r.gcEvents := by
      rw [hr]
      exact List.not_mem_nil
    refine ih _ (h.release (hold e List.mem_cons_self) hlisted) hr hnd.2 fun i hi => ?_
    -- the others are still held
    obtain ⟨hlt, hrel⟩ := hold i (List.mem_cons_of_mem _ hi)
    refine ⟨hlt, fun hmem => ?_⟩
    rcases List.mem_append.mp hmem with hmem | hmem
    · exact hrel hmem
    · exact hnd.1 (List.mem_singleton.mp hmem ▸ hi)

theorem Custody.gc {isReactor : Bool} {r r' : Reactor κ} (h : Custody r)
    (hrun : reactorGc P isReactor r = some r') : Custody r' := by
  have hempty : Custody { r with gcEvents := [] } :=
    ⟨h.released_nodup, h.released_lt, List.nodup_nil, fun _ he => absurd he List.not_mem_nil⟩
  cases isReactor with
  | true =>
    rw [reactorGc_reactor h.listedClosing] at hrun
    obtain rfl := Option.some.inj hrun
    exact hempty.releaseAll _ _ rfl h.listed_nodup fun e he => (h.listed e he).1
  | false =>
    rw [reactorGc_user h.listedClosing] at hrun
    obtain rfl := Option.some.inj hrun
    exact hempty

theorem Custody.apply {r r' : Reactor κ} {isReactor : Bool} {o : Op} (h : Custody r)
    (hguard : ∀ e, isReactor = true → o = .destroy e → e ∉ r.gcEvents)
    (hrun : o.apply P isReactor r = some r') : Custody r' := by
  rcases Op.apply_cases hrun with ⟨ids, fd, cb, arg, type, mem, verdict, rfl⟩ |
    ⟨e, new, -, rfl, hclosing, -, -⟩ | ⟨e, ho, hold, hdestroy⟩
  · have hcounter : Custody { r with timerIds := ids } := h.of_same rfl rfl rfl fun _ => id
    exact hcounter.create fd cb arg type mem verdict
  · refine h.of_same rfl rfl rfl fun i hi => ?_
    rw [Reactor.setObj_obj]
    split_ifs with heq
    · rw [hclosing]
      exact heq ▸ hi
    · exact hi
  · exact h.destroy hold (fun hr => hguard e hr ho) hdestroy

theorem Custody.init (P : Platform κ) (fds : FdTable) (timerIds : ℕ) :
    Custody (reactorCreate P fds timerIds) :=
  ⟨List.nodup_nil, fun _ he => absurd he List.not_mem_nil, List.nodup_nil,
    fun _ he => absurd he List.not_mem_nil⟩

/-- Every event was released at most once, and the list holds events that were
not, each once. -/
def ReleasedOnce (r : Reactor κ) : Prop :=
  r.released.Nodup ∧ r.gcEvents.Nodup ∧ ∀ e ∈ r.gcEvents, e ∉ r.released

/-- The step destroys, on the reactor's thread, an event that waits on the
list. -/
def Step.DestroysListed (r : Reactor κ) (s : Step) : Prop :=
  ∃ e ∈ r.gcEvents, s = .op true (.destroy e)

theorem Custody.step {fds : FdTable} {timerIds : ℕ} {r r' : Reactor κ} {s : Step}
    (h : Custody r) (hguard : ¬ s.DestroysListed r)
    (hrun : (lifecycle P fds timerIds).next r s = some r') : Custody r' := by
  cases s with
  | op isReactor o =>
    refine h.apply (fun e hr ho hmem => hguard ⟨e, hmem, ?_⟩) hrun
    rw [hr, ho]
  | gc isReactor => exact h.gc hrun

/-- **When events are released once.** Throughout a run the list and the releases
are in order exactly when no callback destroys an event that a user thread put on
the list before. -/
theorem lifecycle_releasedOnce (P : Platform κ) (fds : FdTable) (timerIds : ℕ)
    (steps : List Step) :
    (lifecycle P fds timerIds).Always ReleasedOnce (reactorCreate P fds timerIds) steps ↔
      (lifecycle P fds timerIds).Guarded (fun r s => ¬ s.DestroysListed r)
        (reactorCreate P fds timerIds) steps := by
  refine System.always_iff_guarded (J := Custody) (fun r s r' h => h.step) ?_ ?_
    (Custody.init P fds timerIds) steps
  · intro r h
    exact ⟨h.released_nodup, h.listed_nodup, fun e he => (h.listed e he).1.2⟩
  · -- conversely, the event is released and stays on the list
    intro r s h hbreak
    obtain ⟨e, he, rfl⟩ := not_not.mp hbreak
    obtain ⟨hold, hclosing⟩ := h.listed e he
    refine ⟨eventRelease P r e, ?_, fun honce => honce.2.2 e he ?_⟩
    · change Op.apply P true r (.destroy e) = _
      rw [Op.apply, if_pos hold, eventDestroy, if_pos hclosing]
      rfl
    · exact List.mem_append_right _ (List.mem_singleton_self e)

/-- A user thread and then a callback destroy the event, and the collector
releases it once more. -/
theorem lifecycle_released_twice :
    ¬ (lifecycle kqueue socketTable 0).Always ReleasedOnce (reactorCreate kqueue socketTable 0)
      [.op false (.create 3 none 0 .sockEv true none), .op false (.destroy 0),
        .op true (.destroy 0), .gc true] := by
  intro h
  have honce := (h 4 _ rfl).1
  revert honce
  decide

/-! ### Which descriptors the events act on -/

/-- A `posixc_event_create` for a socket with the number `n` that got memory for
its event. -/
def Step.CreatesSocket (n : ℤ) (s : Step) : Prop :=
  ∃ isReactor cb arg verdict, s = .op isReactor (.create n cb arg .sockEv true verdict)

/-- The number and the type of the event that the step allocates. -/
def Step.creates (r : Reactor κ) : Step → Option (ℤ × EventType)
  | .op _ (.create fd _ _ type true _) => some (fd, type)
  | .op _ (.createTimer _ _ true _) => some ((uniqueTimerEventId r).1, .timerEv)
  | _ => none

/-- The step acts on a `SOCK_EV` event numbered `n`, which it creates, destroys or
collects. -/
def Step.ActsOnSocket (r : Reactor κ) (n : ℤ) : Step → Prop
  | .op _ (.create fd _ _ type true _) => type = .sockEv ∧ fd = n
  | .op _ (.destroy e) => (r.obj e).ev.type = .sockEv ∧ (r.obj e).ev.fd = n
  | .gc _ => ∃ e ∈ r.gcEvents, (r.obj e).ev.type = .sockEv ∧ (r.obj e).ev.fd = n
  | _ => False

/-- The sockets were created in `seen`, and the numbers of the other events are closed
descriptors. -/
structure OnlySockets (seen : List Step) (r : Reactor κ) : Prop where
  socket : ∀ e, e < r.created → (r.obj e).ev.type = .sockEv →
    ∃ s ∈ seen, s.CreatesSocket (r.obj e).ev.fd
  other : ∀ e, e < r.created → (r.obj e).ev.type ≠ .sockEv → r.fds (r.obj e).ev.fd = none

section OnlySockets

variable {seen : List Step} {r r' : Reactor κ} {e : ℕ} {n : ℤ}

theorem OnlySockets.mono (h : OnlySockets seen r) {seen' : List Step} (hsub : seen ⊆ seen') :
    OnlySockets seen' r :=
  ⟨fun e he ht => let ⟨s, hs, hn⟩ := h.socket e he ht; ⟨s, hsub hs, hn⟩, h.other⟩

/-- Acting on the descriptor of an event changes no entry but that of a socket. -/
theorem OnlySockets.changes (h : OnlySockets seen r) (he : e < r.created) {fds' : FdTable}
    (hfds : Touched (r.obj e).ev.fd r.fds fds') (hn : fds' n ≠ r.fds n) :
    (r.obj e).ev.type = .sockEv ∧ (r.obj e).ev.fd = n := by
  have hfd : (r.obj e).ev.fd = n := by
    by_contra hne
    exact hn (hfds.1 n (Ne.symm hne))
  refine ⟨?_, hfd⟩
  by_contra htype
  -- the entry of another event is closed, and stays so
  have hclosed : r.fds n = none := hfd ▸ h.other e he htype
  exact hn ((hfds.none_of_none hclosed).trans hclosed.symm)

/-- Acting on the descriptor of an event, which keeps its number and its type. -/
theorem OnlySockets.touch (h : OnlySockets seen r) (hfds : Touched n r.fds r'.fds)
    (hcreated : r'.created = r.created) (hfd : ∀ i, (r'.obj i).ev.fd = (r.obj i).ev.fd)
    (htype : ∀ i, (r'.obj i).ev.type = (r.obj i).ev.type) : OnlySockets seen r' := by
  refine ⟨fun i hi ht => ?_, fun i hi ht => ?_⟩
  · rw [hcreated] at hi
    rw [htype] at ht
    rw [hfd]
    exact h.socket i hi ht
  · rw [hcreated] at hi
    rw [htype] at ht
    rw [hfd]
    exact hfds.none_of_none (h.other i hi ht)

theorem OnlySockets.release (h : OnlySockets seen r) (e : ℕ) :
    OnlySockets seen (eventRelease P r e) :=
  h.touch (closeFd_touched _ _) rfl (fun i => by rw [eventRelease_ev])
    (fun i => by rw [eventRelease_ev])

/-- A stopped event has its number and its type. -/
theorem eventStop_same (i : ℕ) : ((eventStop P r e).obj i).ev.fd = (r.obj i).ev.fd ∧
    ((eventStop P r e).obj i).ev.type = (r.obj i).ev.type := by
  rw [eventStop_ev]
  split_ifs with hi
  · rw [hi]
    exact ⟨rfl, rfl⟩
  · exact ⟨rfl, rfl⟩

theorem OnlySockets.stop (h : OnlySockets seen r) (e : ℕ) :
    OnlySockets seen (eventStop P r e) :=
  h.touch (shutdownFd_touched _ _) rfl (fun i => (eventStop_same i).1)
    (fun i => (eventStop_same i).2)

theorem OnlySockets.of_same (h : OnlySockets seen r) (hfds : r'.fds = r.fds)
    (hobj : r'.obj = r.obj) (hcreated : r'.created = r.created) : OnlySockets seen r' := by
  refine ⟨?_, ?_⟩
  · rw [hobj, hcreated]
    exact h.socket
  · rw [hfds, hobj, hcreated]
    exact h.other

/-- A destroy acts on the descriptor of its event. -/
theorem eventDestroy_touched {isReactor held : Bool}
    (hrun : eventDestroy P isReactor held r e = some r') :
    Touched (r.obj e).ev.fd r.fds r'.fds := by
  have hstop : Touched (r.obj e).ev.fd r.fds (eventStop P r e).fds := shutdownFd_touched _ _
  rcases eventDestroy_cases hrun with ⟨-, -, rfl⟩ | ⟨-, -, rfl⟩ | ⟨-, -, rfl⟩ | ⟨-, -, -, rfl⟩
  · exact closeFd_touched _ _
  · exact .refl _ _
  · refine hstop.trans ?_
    rw [← (eventStop_same (P := P) (e := e) e).1]
    exact closeFd_touched _ _
  · exact hstop

theorem OnlySockets.destroy {isReactor held : Bool} (h : OnlySockets seen r)
    (hrun : eventDestroy P isReactor held r e = some r') : OnlySockets seen r' := by
  rcases eventDestroy_cases hrun with ⟨-, -, rfl⟩ | ⟨-, -, rfl⟩ | ⟨-, -, rfl⟩ | ⟨-, -, -, rfl⟩
  · exact h.release e
  · exact h
  · exact (h.stop e).release e
  · exact (h.stop (P := P) e).of_same rfl rfl rfl

/-- A create acts on the number of its event, also when it fails. -/
theorem eventCreate_touched (r : Reactor κ) (fd : ℤ) (cb : Option ℕ) (arg : ℕ) (type : EventType)
    (verdict : Verdict) :
    Touched fd r.fds (eventCreate P r fd cb arg type true verdict).2.fds := by
  have hprepare := preparefd_touched r.fds fd
  unfold eventCreate
  rw [if_pos rfl]
  dsimp only
  split_ifs with hok
  · exact hprepare
  · -- the release closes the number that the event was given
    refine hprepare.trans ?_
    have hclose := closeFd_touched (preparefd r.fds fd) fd
    unfold eventRelease
    dsimp only
    rw [Reactor.setObj_obj, if_pos rfl]
    exact hclose

/-- The new event is a socket, or its number is closed. -/
theorem OnlySockets.create (h : OnlySockets seen r) (fd : ℤ) (cb : Option ℕ) (arg : ℕ)
    (type : EventType) (mem : Bool) (verdict : Verdict)
    (hsock : mem = true → type = .sockEv → ∃ s ∈ seen, s.CreatesSocket fd)
    (hother : mem = true → type ≠ .sockEv → r.fds fd = none) :
    OnlySockets seen (eventCreate P r fd cb arg type mem verdict).2 := by
  cases mem with
  | false => exact h
  | true =>
    have hnew : ∀ reg, OnlySockets seen
        (({ r with created := r.created + 1, fds := preparefd r.fds fd } : Reactor κ).setObj
          r.created ⟨eventInit fd cb arg type, reg⟩) := by
      intro reg
      refine ⟨fun i hi ht => ?_, fun i hi ht => ?_⟩
      · -- an event that was there, or the new one
        rcases Nat.lt_succ_iff_lt_or_eq.mp hi with hi | rfl
        · rw [Reactor.setObj_obj, if_neg hi.ne] at ht ⊢
          exact h.socket i hi ht
        · rw [Reactor.setObj_obj, if_pos rfl] at ht ⊢
          exact hsock rfl ht
      · -- `fcntl` opens nothing
        refine (preparefd_touched r.fds fd).none_of_none ?_
        rcases Nat.lt_succ_iff_lt_or_eq.mp hi with hi | rfl
        · rw [Reactor.setObj_obj, if_neg hi.ne] at ht ⊢
          exact h.other i hi ht
        · rw [Reactor.setObj_obj, if_pos rfl] at ht ⊢
          exact hother rfl ht
    unfold eventCreate
    rw [if_pos rfl]
    dsimp only
    split_ifs with hok
    · exact hnew _
    · exact (hnew _).release _

/-- A collection acts on the descriptors of the listed events. -/
theorem OnlySockets.gc {isReactor : Bool} (h : OnlySockets seen r) (hlisted : ListedClosing r)
    (hrun : reactorGc P isReactor r = some r') : OnlySockets seen r' ∧ ∀ n, r'.fds n ≠ r.fds n →
      ∃ e ∈ r.gcEvents, (r.obj e).ev.type = .sockEv ∧ (r.obj e).ev.fd = n := by
  have hempty : OnlySockets seen { r with gcEvents := [] } := h.of_same rfl rfl rfl
  cases isReactor with
  | true =>
    rw [reactorGc_reactor hlisted] at hrun
    obtain rfl := Option.some.inj hrun
    -- each release leaves the events as they are, and changes the entry of a socket if any
    refine (foldl_eventRelease (I := fun r₁ => (OnlySockets seen r₁ ∧ ∀ n, r₁.fds n ≠ r.fds n →
        ∃ e ∈ r.gcEvents, (r.obj e).ev.type = .sockEv ∧ (r.obj e).ev.fd = n) ∧
        r₁.created = r.created ∧ ∀ i, (r₁.obj i).ev = (r.obj i).ev)
      r.gcEvents (fun r₁ e he h₁ => ?_)
      ⟨⟨hempty, fun n hn => absurd rfl hn⟩, rfl, fun _ => rfl⟩).1
    obtain ⟨⟨honly, hchanged⟩, hcreated, hev⟩ := h₁
    refine ⟨⟨honly.release e, fun n hn => ?_⟩, hcreated,
      fun i => (eventRelease_ev i).trans (hev i)⟩
    by_cases hsame : r₁.fds n = r.fds n
    · rw [← hsame] at hn
      have hlt : e < r₁.created := by
        rw [hcreated]
        exact (hlisted e he).1
      have hact := honly.changes hlt (closeFd_touched _ _) hn
      rw [hev] at hact
      exact ⟨e, he, hact⟩
    · exact hchanged n hsame
  | false =>
    rw [reactorGc_user hlisted] at hrun
    obtain rfl := Option.some.inj hrun
    exact ⟨hempty, fun n hn => absurd rfl hn⟩

/-- A change to an event that leaves its number and its type. -/
theorem OnlySockets.setObj (h : OnlySockets seen r) {o : Obj κ}
    (hfd : o.ev.fd = (r.obj e).ev.fd) (htype : o.ev.type = (r.obj e).ev.type) :
    OnlySockets seen (r.setObj e o) := by
  have hev : ∀ i, ((r.setObj e o).obj i).ev.fd = (r.obj i).ev.fd ∧
      ((r.setObj e o).obj i).ev.type = (r.obj i).ev.type := by
    intro i
    rw [Reactor.setObj_obj]
    split_ifs with hi
    · rw [hi]
      exact ⟨hfd, htype⟩
    · exact ⟨rfl, rfl⟩
  exact h.touch (.refl 0 r.fds) rfl (fun i => (hev i).1) fun i => (hev i).2

/-- What the step changes is the entry of a socket, created before or by the step. -/
theorem OnlySockets.created (h : OnlySockets seen r) (hlisted : ListedClosing r) {s : Step}
    {fds : FdTable} {timerIds : ℕ} (hrun : (lifecycle P fds timerIds).next r s = some r')
    (hacts : s.ActsOnSocket r n) : ∃ s' ∈ seen ++ [s], s'.CreatesSocket n := by
  have hmono : OnlySockets (seen ++ [s]) r := h.mono (List.subset_append_left _ _)
  match s, hacts with
  | .op isReactor (.create fd cb arg type true verdict), ⟨ht, hfd⟩ =>
    subst ht hfd
    exact ⟨_, List.mem_append_right _ (List.mem_singleton_self _), isReactor, cb, arg, verdict,
      rfl⟩
  | .op isReactor (.destroy e), ⟨ht, hfd⟩ =>
    have hop : (Op.destroy e).apply P isReactor r = some r' := hrun
    rw [Op.apply] at hop
    split_ifs at hop with hold
    exact hfd ▸ hmono.socket e hold.1 ht
  | .gc _, ⟨e, he, ht, hfd⟩ => exact hfd ▸ hmono.socket e (hlisted e he).1 ht

/-- An event that the step allocates is a socket, or its number is no open descriptor. -/
def Step.KeepsApart (r : Reactor κ) (s : Step) : Prop :=
  ∀ fd type, s.creates r = some (fd, type) → type ≠ .sockEv → r.fds fd = none

/-- **One step.** It changes the entries of the sockets that it acts on, if any. -/
theorem OnlySockets.step {fds : FdTable} {timerIds : ℕ} {s : Step} (h : OnlySockets seen r)
    (hlisted : ListedClosing r) (hguard : s.KeepsApart r)
    (hrun : (lifecycle P fds timerIds).next r s = some r') :
    OnlySockets (seen ++ [s]) r' ∧ ∀ n, r'.fds n ≠ r.fds n → s.ActsOnSocket r n := by
  have hmono : OnlySockets (seen ++ [s]) r := h.mono (List.subset_append_left _ _)
  have hself : s ∈ seen ++ [s] := List.mem_append_right _ (List.mem_singleton_self s)
  cases s with
  | gc isReactor => exact hmono.gc hlisted hrun
  | op isReactor o =>
    have hop : o.apply P isReactor r = some r' := hrun
    cases o with
    | create fd cb arg type mem verdict =>
      obtain rfl := Option.some.inj hop
      refine ⟨hmono.create fd cb arg type mem verdict ?_ ?_, fun n hn => ?_⟩
      · -- a socket accounts for its own number
        rintro rfl rfl
        exact ⟨_, hself, isReactor, cb, arg, verdict, rfl⟩
      · rintro rfl
        exact hguard fd type rfl
      · cases mem with
        | false => exact absurd rfl hn
        | true =>
          have htouch := eventCreate_touched (P := P) r fd cb arg type verdict
          have hfd : fd = n := by
            by_contra hne
            exact hn (htouch.1 n (Ne.symm hne))
          refine ⟨?_, hfd⟩
          by_contra htype
          have hclosed : r.fds n = none := hfd ▸ hguard fd type rfl htype
          exact hn ((htouch.none_of_none hclosed).trans hclosed.symm)
    | createTimer cb arg mem verdict =>
      rw [Op.apply] at hop
      obtain rfl := Option.some.inj hop
      -- a timer is no socket, so its identifier must be no descriptor
      have hclosed : mem = true → r.fds (uniqueTimerEventId r).1 = none := by
        rintro rfl
        exact hguard _ .timerEv rfl (by decide)
      have hcounter : OnlySockets (seen ++ [.op isReactor (.createTimer cb arg mem verdict)])
          (uniqueTimerEventId r).2 := hmono.of_same rfl rfl rfl
      refine ⟨hcounter.create (uniqueTimerEventId r).1 cb arg .timerEv mem verdict
        (by rintro - ⟨⟩) fun hmem _ => hclosed hmem, fun n hn => ?_⟩
      cases mem with
      | false => exact absurd rfl hn
      | true =>
        have htouch := eventCreate_touched (P := P) (uniqueTimerEventId r).2
          (uniqueTimerEventId r).1 cb arg .timerEv verdict
        by_cases hne : n = (uniqueTimerEventId r).1
        · rw [hne] at hn
          exact absurd ((htouch.2 (hclosed rfl)).trans (hclosed rfl).symm) hn
        · exact absurd (htouch.1 n hne) hn
    | setInterval e msInterval isPeriodic =>
      rw [Op.apply] at hop
      split_ifs at hop with hold
      obtain rfl := Option.some.inj hop
      exact ⟨hmono.setObj rfl rfl, fun n hn => absurd rfl hn⟩
    | submit e evmask verdict =>
      rw [Op.apply] at hop
      split_ifs at hop with hold
      obtain rfl := Option.some.inj hop
      obtain ⟨mask, hmask⟩ := eventSubmit_frame P (r.obj e) evmask verdict
      exact ⟨hmono.setObj (by rw [hmask]) (by rw [hmask]), fun n hn => absurd rfl hn⟩
    | destroy e =>
      rw [Op.apply] at hop
      split_ifs at hop with hold
      exact ⟨hmono.destroy hop, fun n hn => hmono.changes hold.1 (eventDestroy_touched hop) hn⟩

theorem ListedClosing.step {fds : FdTable} {timerIds : ℕ} {s : Step} (h : ListedClosing r)
    (hrun : (lifecycle P fds timerIds).next r s = some r') : ListedClosing r' := by
  cases s with
  | op isReactor o => exact h.apply hrun
  | gc isReactor =>
    obtain ⟨r₁, h₁, hnil⟩ : ∃ r₁, reactorGc P isReactor r = some r₁ ∧ r₁.gcEvents = [] := h.gc
    obtain rfl : r₁ = r' := Option.some.inj (h₁.symm.trans hrun)
    intro e he
    rw [hnil] at he
    cases he

end OnlySockets

/-- **Which descriptors the events act on.** In a run that gives an event that is
not a socket no number of an open descriptor, the entries of the table that change are
those of sockets that were created, and every step changes those of the sockets only that
it acts on: the other events change no entry. -/
theorem lifecycle_onlySockets (P : Platform κ) (fds : FdTable) (timerIds : ℕ)
    (steps : List Step)
    (hguard : (lifecycle P fds timerIds).Guarded (fun r s => s.KeepsApart r)
      (reactorCreate P fds timerIds) steps) :
    (∀ r, (lifecycle P fds timerIds).run (reactorCreate P fds timerIds) steps = some r →
      ∀ n, r.fds n ≠ fds n → ∃ s ∈ steps, s.CreatesSocket n) ∧
    (lifecycle P fds timerIds).Guarded (fun r s => ∀ r',
        (lifecycle P fds timerIds).next r s = some r' →
          ∀ n, r'.fds n ≠ r.fds n → s.ActsOnSocket r n)
      (reactorCreate P fds timerIds) steps := by
  have hinit : OnlySockets [] (reactorCreate P fds timerIds) ∧
      ListedClosing (reactorCreate P fds timerIds) :=
    ⟨⟨fun e he => absurd he (Nat.not_lt_zero e), fun e he => absurd he (Nat.not_lt_zero e)⟩,
      fun e he => absurd he List.not_mem_nil⟩
  constructor
  · -- the collector acts on listed events only, so the list is followed as well
    intro r hrun n hchanged
    refine (System.run_history (I := fun seen r => (OnlySockets seen r ∧ ListedClosing r) ∧
        ∀ n, r.fds n ≠ fds n → ∃ s ∈ seen, s.CreatesSocket n)
      (fun seen r s r' h hP hnext => ?_) ⟨hinit, fun n hn => absurd rfl hn⟩ hguard hrun).2 n
      hchanged
    obtain ⟨⟨honly, hlisted⟩, hsockets⟩ := h
    obtain ⟨honly', hacts⟩ := honly.step hlisted hP hnext
    refine ⟨⟨honly', hlisted.step hnext⟩, fun n hn => ?_⟩
    by_cases hsame : r'.fds n = r.fds n
    · obtain ⟨s', hs', hcreates⟩ := hsockets n (hsame ▸ hn)
      exact ⟨s', List.mem_append_left _ hs', hcreates⟩
    · exact honly.created hlisted hnext (hacts n hsame)
  · refine System.Guarded.of_invariant (I := fun r => (∃ seen, OnlySockets seen r) ∧
      ListedClosing r) (fun r s r' h hP hnext => ?_) (fun r s h hP r' hnext => ?_)
      ⟨⟨[], hinit.1⟩, hinit.2⟩ hguard
    · obtain ⟨⟨seen, honly⟩, hlisted⟩ := h
      exact ⟨⟨_, (honly.step hlisted hP hnext).1⟩, hlisted.step hnext⟩
    · obtain ⟨⟨seen, honly⟩, hlisted⟩ := h
      exact (honly.step hlisted hP hnext).2

/-- A socket and a timer whose identifier is no descriptor. The release of the timer changes
no entry. -/
theorem lifecycle_onlySockets_timer :
    (∃ s ∈ [Step.op false (.create 3 none 0 .sockEv true none),
        .op false (.createTimer none 0 true none), .op false (.destroy 1), .gc true],
      s.CreatesSocket 3) ∧
    (lifecycle kqueue socketTable 0).Guarded (fun r s => ∀ r',
        (lifecycle kqueue socketTable 0).next r s = some r' →
          ∀ n, r'.fds n ≠ r.fds n → s.ActsOnSocket r n)
      (reactorCreate kqueue socketTable 0)
      [.op false (.create 3 none 0 .sockEv true none), .op false (.createTimer none 0 true none),
        .op false (.destroy 1), .gc true] := by
  have hends := lifecycle_onlySockets kqueue socketTable 0
    [.op false (.create 3 none 0 .sockEv true none), .op false (.createTimer none 0 true none),
      .op false (.destroy 1), .gc true] ?_
  · exact ⟨hends.1 _ rfl 3 (by decide +kernel), hends.2⟩
  refine .cons ?_ rfl (.cons ?_ rfl (.cons ?_ rfl (.cons ?_ rfl trivial)))
  · rintro fd type h hsock
    cases h
    exact absurd rfl hsock
  · -- the identifier 0 is no open descriptor of this process
    rintro fd type h -
    rw [Step.creates] at h
    obtain ⟨rfl, rfl⟩ := Prod.mk.inj (Option.some.inj h)
    decide +kernel
  · exact fun fd type h => nomatch h
  · exact fun fd type h => nomatch h

/-- A process whose standard input is open. -/
def inputTable : FdTable := Function.update (fun _ => none) 0
  (some ⟨false, false, false, false, false⟩)

/-- The first timer of a process takes the identifier 0. Creating it changes the flags of
the descriptor 0, and so a timer changes an entry and no socket has the number. -/
theorem lifecycle_timer_changes_input :
    ¬ ((∀ r, (lifecycle kqueue inputTable 0).run (reactorCreate kqueue inputTable 0)
          [.op false (.createTimer none 0 true none), .op false (.destroy 0), .gc true] = some r →
        ∀ n, r.fds n ≠ inputTable n →
          ∃ s ∈ [Step.op false (.createTimer none 0 true none), .op false (.destroy 0),
            .gc true], s.CreatesSocket n) ∨
      (lifecycle kqueue inputTable 0).Guarded (fun r s => ∀ r',
          (lifecycle kqueue inputTable 0).next r s = some r' →
            ∀ n, r'.fds n ≠ r.fds n → s.ActsOnSocket r n)
        (reactorCreate kqueue inputTable 0)
        [.op false (.createTimer none 0 true none), .op false (.destroy 0), .gc true]) := by
  rintro (h | h)
  · obtain ⟨s, hs, isReactor, cb, arg, verdict, rfl⟩ := h _ rfl 0 (by decide +kernel)
    simp at hs
  · exact h.1 _ rfl 0 (by decide +kernel)

end Posixc
