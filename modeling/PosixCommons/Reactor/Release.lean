import PosixCommons.Reactor.Loop

/-!
# Releasing events while the reactor runs

Two promises of the collector, over every run of the kqueue reactor.

An event is not consumed after it was released. Between two batches this is safe,
since nothing can be delivered for an event that is released. Inside a batch only
a callback releases events, and it must leave those alone that the batch still
holds an entry of (`Move.DestroysPending`). It must leave those alone, too, that a
user thread has destroyed or is destroying (`Move.Overlaps`): such an event may be
closing with its knotes still there, and the user thread, or the list, would be left
with an event that is released.

A destroyed event has been released when `posixc_reactor_destroy` returns. The
collection on the reactor's thread releases what it finds. The one inside
`posixc_reactor_destroy` only empties the list, so it must find nothing there
(`Move.DropsListed`).
-/

open Framework

namespace Posixc

/-! ### One destroy at a time -/

/-- The events that user threads have destroyed, or are destroying, and that wait to be
released. -/
def claimed (r : Reactor Kq) (ds : List Destroying) : List ℕ :=
  r.gcEvents ++ ds.map Destroying.event

/-- A callback destroys an event that a user thread has claimed, or a user thread claims
one that another is about to close. -/
def Move.Overlaps (s : Loop) (m : Move) : Prop :=
  ∃ e ∈ claimed s.reactor s.destroying, m = .callback (.destroy e) ∨
    m = .user (.destroy e) ∧ (s.reactor.obj e).ev.closing = false

/-- No event is claimed twice, none that is claimed is released, and those that are past
the line that closes them are closing. -/
structure ClaimedOnce (r : Reactor Kq) (ds : List Destroying) : Prop where
  nodup : (claimed r ds).Nodup
  held : ∀ e ∈ claimed r ds, r.Holds e
  closing : ∀ d ∈ ds, d.stage ≠ some .close → (r.obj d.event).ev.closing = true

section ClaimedOnce

variable {r r' : Reactor Kq} {ds us vs : List Destroying} {d : Destroying} {e : ℕ}

/-- A step of the reactor that leaves the list and releases no claimed event. -/
theorem ClaimedOnce.of_grows (h : ClaimedOnce r ds) (hgrows : Grows r r')
    (hlist : r'.gcEvents = r.gcEvents) (hheld : ∀ e ∈ claimed r ds, r'.Holds e) :
    ClaimedOnce r' ds := by
  refine ⟨?_, fun e he => hheld e ?_, fun d hd hstage => ?_⟩
  · rw [claimed, hlist]
    exact h.nodup
  · rwa [claimed, hlist] at he
  · exact hgrows.closing _ (h.held _ (List.mem_append_right _ (List.mem_map_of_mem hd))).1
      (h.closing d hd hstage)

/-- Another thread claims an event that no thread has claimed. -/
theorem ClaimedOnce.claim (h : ClaimedOnce r ds) (hold : r.Holds e) (he : e ∉ claimed r ds) :
    ClaimedOnce r (ds ++ [⟨e, some .close⟩]) := by
  have hmore : claimed r (ds ++ [⟨e, some .close⟩]) = claimed r ds ++ [e] := by
    simp [claimed]
  refine ⟨?_, fun i hi => ?_, fun d hd hstage => ?_⟩
  · rw [hmore]
    exact h.nodup.append (List.nodup_singleton e) (by simpa using he)
  · rw [hmore] at hi
    rcases List.mem_append.mp hi with hi | hi
    · exact h.held i hi
    · rw [List.mem_singleton.mp hi]
      exact hold
  · rcases List.mem_append.mp hd with hd | hd
    · exact h.closing d hd hstage
    · rw [List.mem_singleton.mp hd] at hstage
      exact absurd rfl hstage

/-- A thread with another event is where it was. -/
theorem mem_of_event_ne {d' : Destroying} {stage : Option StopStage}
    (hd' : d' ∈ us ++ ⟨d.event, stage⟩ :: vs) (hevent : d'.event ≠ d.event) :
    d' ∈ us ++ d :: vs := by
  rcases List.mem_append.mp hd' with hd' | hd'
  · exact List.mem_append_left _ hd'
  · refine List.mem_append_right _ (List.mem_cons_of_mem _ ?_)
    exact (List.mem_cons.mp hd').resolve_left fun heq => hevent (by rw [heq])

/-- A thread goes on to another line, after which its event is closing. -/
theorem ClaimedOnce.line (h : ClaimedOnce r (us ++ d :: vs)) {stage : Option StopStage}
    (hgrows : Grows r r') (hlist : r'.gcEvents = r.gcEvents)
    (hheld : ∀ i, r'.Holds i ↔ r.Holds i) (hclosing : (r'.obj d.event).ev.closing = true) :
    ClaimedOnce r' (us ++ ⟨d.event, stage⟩ :: vs) := by
  have hsame : claimed r' (us ++ ⟨d.event, stage⟩ :: vs) = claimed r (us ++ d :: vs) := by
    simp [claimed, hlist]
  refine ⟨by rw [hsame]; exact h.nodup, fun i hi => (hheld i).mpr (h.held i (hsame ▸ hi)),
    fun d' hd' hstage => ?_⟩
  -- the event is that of the thread, or one that was closing before
  by_cases hevent : d'.event = d.event
  · rw [hevent]
    exact hclosing
  · have hmem := mem_of_event_ne hd' hevent
    exact hgrows.closing _ (h.held _ (List.mem_append_right _ (List.mem_map_of_mem hmem))).1
      (h.closing d' hmem hstage)

/-- A thread puts its event on the list. -/
theorem ClaimedOnce.list (h : ClaimedOnce r (us ++ d :: vs)) :
    ClaimedOnce { r with gcEvents := r.gcEvents ++ [d.event] } (us ++ vs) := by
  have hperm : (claimed { r with gcEvents := r.gcEvents ++ [d.event] } (us ++ vs)).Perm
      (claimed r (us ++ d :: vs)) := by
    simp only [claimed, List.map_append, List.map_cons, List.append_assoc, List.singleton_append]
    exact (List.perm_middle.symm).append_left _
  exact ⟨hperm.nodup_iff.mpr h.nodup, fun i hi => h.held i (hperm.subset hi),
    fun d' hd' => h.closing d' (((List.sublist_cons_self d vs).append_left us).subset hd')⟩

/-- A collection on the reactor's thread leaves the events that are on their way to the
list. -/
theorem ClaimedOnce.collected (h : ClaimedOnce r ds) (hlist : r'.gcEvents = [])
    (hcreated : r'.created = r.created) (hreleased : r'.released ⊆ r.released ++ r.gcEvents)
    (hev : ∀ i, (r'.obj i).ev = (r.obj i).ev) : ClaimedOnce r' ds := by
  obtain ⟨-, hnodup, hapart⟩ := List.nodup_append.mp h.nodup
  refine ⟨by rwa [claimed, hlist, List.nil_append], fun e he => ?_, fun d hd hstage => ?_⟩
  · rw [claimed, hlist, List.nil_append] at he
    obtain ⟨hlt, hrel⟩ := h.held e (List.mem_append_right _ he)
    refine ⟨hcreated ▸ hlt, fun hmem => ?_⟩
    rcases List.mem_append.mp (hreleased hmem) with hmem | hmem
    · exact hrel hmem
    · exact hapart e hmem e he rfl
  · rw [hev]
    exact h.closing d hd hstage

end ClaimedOnce

/-! ### Consuming a released event -/

/-- No entry that is still to be consumed is one of a released event. -/
def NoneFreed (s : Loop) : Prop := ∀ ev ∈ s.pending, ev.udata ∉ s.reactor.released

/-- The step consumes an entry of a released event. -/
def Move.ConsumesFreed (s : Loop) (m : Move) : Prop :=
  ∃ ev rest, s.pc = .dispatch (ev :: rest) ∧ m = .consume ∧ ev.udata ∈ s.reactor.released

/-- A callback destroys an event of which the batch still holds an entry. -/
def Move.DestroysPending (s : Loop) (m : Move) : Prop :=
  ∃ rest ev, s.pc = .callback rest ∧ ev ∈ rest ∧ m = .callback (.destroy ev.udata)

/-- The registrations are sound, the events in the batch are held, and no event is
claimed twice. -/
structure Intact (s : Loop) : Prop where
  sound : Sound s.stopping s.reactor
  once : ClaimedOnce s.reactor s.destroying
  held : ∀ ev ∈ s.pending, s.reactor.Holds ev.udata

section Intact

variable {s s' : Loop} {m : Move}

theorem Intact.noneFreed (h : Intact s) : NoneFreed s := fun ev hev => (h.held ev hev).2

/-- Away from a batch nothing is pending. -/
theorem Intact.of_empty (h : Sound s.stopping s.reactor)
    (honce : ClaimedOnce s.reactor s.destroying) (hpending : s.pending = []) : Intact s :=
  ⟨h, honce, fun _ hev => absurd (hpending ▸ hev) List.not_mem_nil⟩

theorem mem_stopping {e : ℕ} : e ∈ s.stopping ↔
    ∃ d ∈ s.destroying, d.stage = some .unregister ∧ d.event = e := by
  simp [Loop.stopping, and_assoc]

/-- What is just being stopped is claimed. -/
theorem not_mem_stopping {e : ℕ} (he : e ∉ s.destroying.map Destroying.event) :
    e ∉ s.stopping := fun hmem => by
  obtain ⟨d, hd, -, rfl⟩ := mem_stopping.mp hmem
  exact he (List.mem_map_of_mem hd)

/-- Consuming an entry of a held event keeps the registrations sound. -/
theorem Sound.consumeEv {stopping : List ℕ} {r : Reactor Kq} (h : Sound stopping r) {ev : Kevent}
    (hold : r.Holds ev.udata) : Sound stopping (Posixc.consumeEv r ev).2 :=
  h.setObj hold ((h.live _ hold).of_ev rfl rfl) id

/-- A collection on either thread releases listed events at most, and leaves no more to
be said of the others. -/
theorem Intact.gc (h : Intact s) {isReactor : Bool} {r : Reactor Kq}
    (hr : reactorGc kqueue isReactor s.reactor = some r) :
    Sound s.stopping r ∧ ClaimedOnce r s.destroying := by
  have hapart := (List.nodup_append.mp h.once.nodup).2.2
  have hsound : Sound s.stopping r := h.sound.gc
    (fun e he => not_mem_stopping fun hmem => hapart e he e hmem rfl) hr
  refine ⟨hsound, ?_⟩
  cases isReactor with
  | true =>
    rw [reactorGc_reactor h.sound.listed] at hr
    obtain rfl := Option.some.inj hr
    obtain ⟨hlist, hcreated, -, hreleased, hev⟩ := foldl_eventRelease_fields (P := kqueue)
      s.reactor.gcEvents { s.reactor with gcEvents := [] }
    exact h.once.collected hlist hcreated (fun i hi => hreleased ▸ hi) hev
  | false =>
    rw [reactorGc_user h.sound.listed] at hr
    obtain rfl := Option.some.inj hr
    exact h.once.collected rfl rfl (List.subset_append_left _ _) fun _ => rfl

/-- A user thread makes a call. -/
theorem Intact.userCall (h : Intact s) {o : Op} {r : Reactor Kq} {ds : List Destroying}
    (hguard : ¬ Move.Overlaps s (.user o))
    (hr : Posixc.userCall kqueue s.reactor s.destroying o = some (r, ds)) :
    Intact { s with reactor := r, destroying := ds } := by
  rcases userCall_cases hr with ⟨e, rfl, hold, rfl, ⟨-, rfl⟩ | ⟨hopen, rfl⟩⟩ |
    ⟨hdestroys, happly, rfl⟩
  · exact h
  · -- the thread claims the event, which no other has claimed
    have hfree : e ∉ claimed s.reactor s.destroying := fun he => hguard ⟨e, he, .inr ⟨rfl, hopen⟩⟩
    refine ⟨h.sound.mono fun i hi => ?_, h.once.claim hold hfree, h.held⟩
    obtain ⟨d, hd, hstage, hi⟩ := mem_stopping.mp hi
    exact mem_stopping.mpr ⟨d, List.mem_append_left _ hd, hstage, hi⟩
  · -- any other call releases nothing
    have hheld : ∀ i, s.reactor.Holds i → r.Holds i := fun i hi =>
      Op.apply_holds happly hi fun hreactor => nomatch hreactor
    obtain ⟨-, -, -, hlist⟩ := Op.apply_lists happly
    refine ⟨h.sound.apply (fun e he => absurd he (hdestroys e)) happly, ?_, fun ev hev =>
      hheld _ (h.held ev hev)⟩
    exact h.once.of_grows (Op.apply_grows happly) (hlist (.inl hdestroys)) fun e he =>
      hheld e (h.once.held e he)

/-- A user thread goes on with a destroy. -/
theorem Intact.userGo (h : Intact s) {i : ℕ} {r : Reactor Kq} {ds : List Destroying}
    (hr : Posixc.userGo kqueue s.reactor s.destroying i = some (r, ds)) :
    Intact { s with reactor := r, destroying := ds } := by
  obtain ⟨us, d, vs, hds, hgo⟩ := userGo_cases hr
  have honce := h.once
  rw [hds] at honce
  have hmem : d.event ∈ claimed s.reactor (us ++ d :: vs) :=
    List.mem_append_right _ (List.mem_map_of_mem (List.mem_append_right _ List.mem_cons_self))
  have hold : s.reactor.Holds d.event := honce.held _ hmem
  -- the others are as far as they were
  have hothers : ∀ (rest : List Destroying) e, e ∈ s.stopping →
      (∀ d' ∈ us, d' ∈ rest) → (∀ d' ∈ vs, d' ∈ rest) →
      e = d.event ∧ d.stage = some .unregister ∨
        e ∈ ({ s with reactor := r, destroying := rest } : Loop).stopping := by
    intro rest e he hus hvs
    obtain ⟨d', hd', hstage, rfl⟩ := mem_stopping.mp he
    rw [hds] at hd'
    rcases List.mem_append.mp hd' with hd' | hd'
    · exact .inr (mem_stopping.mpr ⟨d', hus d' hd', hstage, rfl⟩)
    · rcases List.mem_cons.mp hd' with rfl | hd'
      · exact .inl ⟨rfl, hstage⟩
      · exact .inr (mem_stopping.mpr ⟨d', hvs d' hd', hstage, rfl⟩)
  rcases hgo with ⟨stage, hstage, rfl, rfl⟩ | ⟨hstage, rfl, rfl⟩
  · have hus : ∀ d' ∈ us, d' ∈ us ++ ⟨d.event, stage.next⟩ :: vs := fun d' =>
      List.mem_append_left _
    have hvs : ∀ d' ∈ vs, d' ∈ us ++ ⟨d.event, stage.next⟩ :: vs := fun d' hd' =>
      List.mem_append_right _ (List.mem_cons_of_mem _ hd')
    have hsub := fun e he => hothers _ e he hus hvs
    cases stage with
    | close =>
      have hself : d.event ∈ ({ s with
          reactor := StopStage.close.run kqueue s.reactor d.event
          destroying := us ++ ⟨d.event, StopStage.close.next⟩ :: vs } : Loop).stopping :=
        mem_stopping.mpr ⟨_, List.mem_append_right _ List.mem_cons_self, rfl, rfl⟩
      refine ⟨(h.sound.close hold).mono fun e he => ?_, ?_, h.held⟩
      · rcases List.mem_cons.mp he with rfl | he
        · exact hself
        · exact (hsub e he).elim (fun heq => heq.1 ▸ hself) id
      · refine honce.line (setObj_grows fun _ => rfl) rfl (fun _ => Iff.rfl) ?_
        rw [StopStage.run_ev, if_pos ⟨rfl, rfl⟩]
    | unregister =>
      have hclosing : (s.reactor.obj d.event).ev.closing = true :=
        honce.closing d (List.mem_append_right _ List.mem_cons_self) (by rw [hstage]; nofun)
      refine ⟨(h.sound.mono fun e he => ?_).unregister hold, ?_, h.held⟩
      · exact (hsub e he).elim (fun heq => heq.1 ▸ List.mem_cons_self)
          fun hmem => List.mem_cons_of_mem _ hmem
      · refine honce.line (setObj_grows id) rfl (fun _ => Iff.rfl) ?_
        rw [StopStage.run_ev, if_neg (by simp)]
        exact hclosing
    | shutdown =>
      have hclosing : (s.reactor.obj d.event).ev.closing = true :=
        honce.closing d (List.mem_append_right _ List.mem_cons_self) (by rw [hstage]; nofun)
      refine ⟨(h.sound.mono fun e he => (hsub e he).resolve_left ?_).shutdown _, ?_, h.held⟩
      · rintro ⟨-, hunregister⟩
        rw [hstage] at hunregister
        cases hunregister
      · exact honce.line ⟨le_rfl, fun _ _ => id⟩ rfl (fun _ => Iff.rfl) hclosing
  · -- the event is closing when it is put on the list
    have hclosing : (s.reactor.obj d.event).ev.closing = true :=
      honce.closing d (List.mem_append_right _ List.mem_cons_self) (by rw [hstage]; nofun)
    have hsound := h.sound.mono fun e he =>
      (hothers (us ++ vs) e he (fun _ => List.mem_append_left _)
        fun _ => List.mem_append_right _).resolve_left fun hunregister => by
          rw [hstage] at hunregister
          cases hunregister.2
    refine ⟨⟨fun e he => ?_, hsound.live, hsound.quiet⟩, honce.list, h.held⟩
    rcases List.mem_append.mp he with he | he
    · exact h.sound.listed e he
    · rw [List.mem_singleton.mp he]
      exact ⟨hold.1, hclosing⟩

/-- **One step.** It keeps the registrations sound and the events in the batch
held, unless a callback destroys one of them or two destroys overlap. -/
theorem Intact.step (h : Intact s) (hguard : ¬ m.Overlaps s ∧ ¬ m.DestroysPending s)
    (hnext : loopSystem.next s m = some s') : Intact s' := by
  have hstep := Loop.steps_of_next hnext
  unfold Loop.Steps at hstep
  cases m with
  | user o =>
    obtain ⟨r, ds, -, hr, rfl⟩ := hstep
    exact h.userCall hguard.1 hr
  | userGo i =>
    obtain ⟨r, ds, -, hr, rfl⟩ := hstep
    exact h.userGo hr
  | callback o =>
    obtain ⟨rest, r, hpc, hr, rfl⟩ := hstep
    have hpending : s.pending = rest := by rw [Loop.pending, hpc]
    -- the guards are about the callback's destroys
    have hfree : ∀ e, o = .destroy e → e ∉ claimed s.reactor s.destroying := fun e ho he =>
      hguard.1 ⟨e, he, .inl (by rw [ho])⟩
    obtain ⟨-, -, -, hlist⟩ := Op.apply_lists hr
    refine ⟨h.sound.apply (fun e ho => ⟨rfl, ?_⟩) hr, ?_, fun ev hev => ?_⟩
    · exact not_mem_stopping fun hmem => hfree e ho (List.mem_append_right _ hmem)
    · refine h.once.of_grows (Op.apply_grows hr) (hlist (.inr rfl)) fun e he => ?_
      exact Op.apply_holds hr (h.once.held e he) fun _ ho => hfree e ho he
    · refine Op.apply_holds hr (h.held ev hev) fun _ ho => hguard.2 ⟨rest, ev, hpc, ?_, by rw [ho]⟩
      rw [← hpending]
      exact hev
  | ret =>
    obtain ⟨rest, hpc, rfl⟩ := hstep
    refine ⟨h.sound, h.once, fun ev hev => h.held ev ?_⟩
    rw [Loop.pending, hpc]
    exact hev
  | test =>
    obtain ⟨-, ⟨-, r, hr, rfl⟩ | ⟨-, rfl⟩⟩ := hstep
    · exact .of_empty (h.gc hr).1 (h.gc hr).2 rfl
    · exact .of_empty h.sound h.once rfl
  | fetch batch =>
    obtain ⟨-, -, r, hr, rfl⟩ := hstep
    obtain ⟨hcreated, hlist, hreleased, -, hev⟩ := deliverAll_frame batch _ _ hr
    -- what is put in the batch is held at that moment
    obtain ⟨hsound, hheld, hbatch⟩ := Sound.deliverAll batch s.reactor r h.sound hr
    refine ⟨hsound, ?_, fun ev hev => (hheld _).mpr (hbatch ev hev)⟩
    exact h.once.of_grows ⟨hcreated.ge, fun e _ hcl => by rw [hev]; exact hcl⟩ hlist
      fun e he => (hheld e).mpr (h.once.held e he)
  | badf =>
    obtain ⟨-, rfl⟩ := hstep
    exact .of_empty h.sound h.once rfl
  | consume =>
    obtain ⟨ev, rest, hpc, rfl⟩ := hstep
    have hpending : s.pending = ev :: rest := by rw [Loop.pending, hpc]
    have hold : ∀ ev' ∈ ev :: rest, s.reactor.Holds ev'.udata := fun ev' hev' =>
      h.held ev' (hpending ▸ hev')
    refine ⟨h.sound.consumeEv (hold ev List.mem_cons_self), ?_, fun ev' hev' => ?_⟩
    · exact h.once.of_grows (setObj_grows id) rfl h.once.held
    · refine hold ev' (List.mem_cons_of_mem _ ?_)
      unfold Loop.pending at hev'
      dsimp only at hev'
      split_ifs at hev' <;> exact hev'
  | finish =>
    obtain ⟨-, r, hr, rfl⟩ := hstep
    rcases hr with hr | rfl
    · exact .of_empty (h.gc hr).1 (h.gc hr).2 rfl
    · exact .of_empty h.sound h.once rfl
  | destroyGc =>
    obtain ⟨-, r, hr, rfl⟩ := hstep
    refine ⟨(h.gc hr).1, (h.gc hr).2, fun ev hev => ?_⟩
    -- this collection releases nothing
    rw [reactorGc_user h.sound.listed] at hr
    obtain rfl := Option.some.inj hr
    exact h.held ev hev
  | destroyClose =>
    obtain ⟨-, rfl⟩ := hstep
    exact ⟨⟨h.sound.listed, h.sound.live, h.sound.quiet⟩, ⟨h.once.nodup, h.once.held,
      h.once.closing⟩, h.held⟩
  | destroyJoin =>
    obtain ⟨b, -, -, rfl⟩ := hstep
    exact ⟨h.sound, h.once, h.held⟩

theorem Sound.init (fds : FdTable) (timerIds : ℕ) : Sound [] (reactorCreate kqueue fds timerIds) :=
  ⟨fun _ he => absurd he List.not_mem_nil, fun e hold => absurd hold.1 (Nat.not_lt_zero e),
    fun _ _ _ => rfl⟩

theorem Intact.init (fds : FdTable) (timerIds : ℕ) : Intact (loopCreate fds timerIds) :=
  .of_empty (.init fds timerIds) ⟨List.nodup_nil, nofun, nofun⟩ rfl

/-- A callback that destroys a pending event leaves an entry of a released one. -/
theorem Intact.not_noneFreed (h : Intact s) (hbreak : m.DestroysPending s) :
    ∃ s', loopSystem.next s m = some s' ∧ ¬ NoneFreed s' := by
  obtain ⟨rest, ev, hpc, hev, rfl⟩ := hbreak
  have hpending : s.pending = rest := by rw [Loop.pending, hpc]
  have hold : s.reactor.Holds ev.udata := h.held ev (by rw [hpending]; exact hev)
  -- the reactor's thread releases the event, closing before or not
  have hdestroy : ∃ r, eventDestroy kqueue true false s.reactor ev.udata = some r ∧
      ev.udata ∈ r.released := by
    unfold eventDestroy
    cases (s.reactor.obj ev.udata).ev.closing with
    | true =>
      exact ⟨_, rfl, List.mem_append_right _ (List.mem_singleton_self _)⟩
    | false =>
      exact ⟨_, rfl, List.mem_append_right _ (List.mem_singleton_self _)⟩
  obtain ⟨r, hr, hreleased⟩ := hdestroy
  refine ⟨{ s with reactor := r }, ?_, fun hnone => hnone ev ?_ hreleased⟩
  · rw [show loopSystem.next = Loop.next from rfl, Loop.next, hpc]
    dsimp only
    rw [Op.apply, if_pos hold, hr]
    rfl
  · change ev ∈ s.pending
    rw [hpending]
    exact hev

end Intact

/-- **When released events stay out of the batch.** In a run where no two destroys overlap,
no entry of a released event is ever left to be consumed exactly when no callback
destroys an event of which the batch still holds an entry, and then no step consumes a
released event. -/
theorem loop_noneFreed (fds : FdTable) (timerIds : ℕ) (moves : List Move)
    (hapart : loopSystem.Guarded (fun s m => ¬ m.Overlaps s) (loopCreate fds timerIds) moves) :
    (loopSystem.Always NoneFreed (loopCreate fds timerIds) moves ↔
      loopSystem.Guarded (fun s m => ¬ m.DestroysPending s) (loopCreate fds timerIds) moves) ∧
    (loopSystem.Guarded (fun s m => ¬ m.DestroysPending s) (loopCreate fds timerIds) moves →
      loopSystem.Guarded (fun s m => ¬ m.ConsumesFreed s) (loopCreate fds timerIds) moves) := by
  have hstep : ∀ s m s', Intact s → ¬ m.Overlaps s ∧ ¬ m.DestroysPending s →
      loopSystem.next s m = some s' → Intact s' := fun s m s' h hguard hnext => h.step hguard hnext
  constructor
  · exact System.always_iff_guarded_and hstep (fun s h => h.noneFreed)
      (fun s m h _ hbreak => h.not_noneFreed (not_not.mp hbreak)) (.init fds timerIds) hapart
  · intro hpending
    -- the entry that a step consumes is one that was pending
    refine System.Guarded.of_invariant hstep ?_ (.init fds timerIds) (hapart.and hpending)
    rintro s m h - ⟨ev, rest, hpc, -, hreleased⟩
    refine h.noneFreed ev ?_ hreleased
    rw [Loop.pending, hpc]
    exact List.mem_cons_self

/-- A user thread stops a periodic timer while the reactor consumes its entry. -/
def stopMeanwhile : List Move :=
  [.user (.createTimer (some 0) 0 true none), .user (.submit 0 0x100 none), .test,
    .fetch [{ udata := 0, filter := .timer }], .user (.destroy 0), .userGo 0, .consume, .ret,
    .userGo 0, .finish]

theorem loop_noneFreed_timer :
    loopSystem.Guarded (fun s m => ¬ m.ConsumesFreed s) (loopCreate socketTable 0)
      stopMeanwhile := by
  have hnone : ∀ (s : Loop) (m : Move), (∀ e, m ≠ .callback (.destroy e)) →
      (∀ e, m ≠ .user (.destroy e)) → ¬ m.Overlaps s := by
    rintro s m hcallback huser ⟨e, -, hm | ⟨hm, -⟩⟩
    · exact hcallback e hm
    · exact huser e hm
  -- no callback destroys anything
  have hquiet : ∀ m ∈ stopMeanwhile, ∀ e, m ≠ .callback (.destroy e) := by
    simp [stopMeanwhile]
  refine (loop_noneFreed socketTable 0 stopMeanwhile ?_).2
    ((System.Guarded.of_forall hquiet).mono fun s m hm => ?_)
  · refine .cons (hnone _ _ nofun nofun) rfl (.cons (hnone _ _ nofun nofun) rfl
      (.cons (hnone _ _ nofun nofun) rfl (.cons (hnone _ _ nofun nofun) rfl (.cons ?_ rfl
      (.cons (hnone _ _ nofun nofun) rfl (.cons (hnone _ _ nofun nofun) rfl
      (.cons (hnone _ _ nofun nofun) rfl (.cons (hnone _ _ nofun nofun) rfl
      (.cons (hnone _ _ nofun nofun) rfl trivial)))))))))
    -- no event is claimed when the destroy begins
    rintro ⟨e, he, -⟩
    cases he
  · rintro ⟨rest, ev, -, -, hdestroy⟩
    exact hm _ hdestroy

/-- A socket has its read and its write entry in one batch, and the callback of the first
destroys the event. -/
def destroyPending : List Move :=
  [.user (.create 3 (some 0) 0 .sockEv true none), .user (.submit 0 0x5 none), .test,
    .fetch [{ udata := 0, filter := .read }, { udata := 0, filter := .write }], .consume,
    .callback (.destroy 0), .ret]

/-- A user thread has closed a periodic timer and is interrupted. The callback of the timer
destroys it, which leaves its knote, and the timer expires again. -/
def destroyStopping : List Move :=
  [.user (.createTimer (some 0) 0 true none), .user (.submit 0 0x100 none), .test,
    .fetch [{ udata := 0, filter := .timer }], .user (.destroy 0), .userGo 0, .consume,
    .callback (.destroy 0), .ret, .finish, .test, .fetch [{ udata := 0, filter := .timer }]]

/-- A run up to an entry of a released event consumes it next. -/
theorem consumesFreed_of_run {s : Loop} {moves : List Move} (ev : Kevent) (rest : List Kevent)
    (released : List ℕ) (hev : ev.udata ∈ released)
    (hrun : (loopSystem.run s moves).map (fun s => (s.pc, s.reactor.released)) =
      some (.dispatch (ev :: rest), released)) :
    ¬ loopSystem.Guarded (fun s m => ¬ m.ConsumesFreed s) s (moves ++ [.consume]) := by
  intro h
  obtain ⟨s', hs', heq⟩ := Option.map_eq_some_iff.mp hrun
  obtain ⟨hpc, hreleased⟩ := Prod.mk.inj heq
  exact (h.rest hs').1 ⟨ev, rest, hpc, rfl, hreleased ▸ hev⟩

/-- Both then consume a released event. -/
theorem loop_consumes_freed :
    ¬ loopSystem.Guarded (fun s m => ¬ m.ConsumesFreed s) (loopCreate socketTable 0)
      (destroyPending ++ [.consume]) ∧
    ¬ loopSystem.Guarded (fun s m => ¬ m.ConsumesFreed s) (loopCreate socketTable 0)
      (destroyStopping ++ [.consume]) := by
  constructor
  · exact consumesFreed_of_run { udata := 0, filter := .write } [] [0]
      (List.mem_singleton_self 0) (by decide +kernel)
  · exact consumesFreed_of_run { udata := 0, filter := .timer } [] [0]
      (List.mem_singleton_self 0) (by decide +kernel)

/-! ### Releasing every destroyed event -/

/-- `posixc_reactor_destroy` collects while an event waits on the list. -/
def Move.DropsListed (s : Loop) (m : Move) : Prop :=
  m = .destroyGc ∧ s.reactor.gcEvents ≠ []

/-- A user thread destroys an event after `posixc_reactor_destroy` was called, or has not
returned from a destroy then. -/
def Move.DestroysLate (s : Loop) (m : Move) : Prop :=
  (∃ e, m = .user (.destroy e) ∧ s.teardown ≠ .notCalled) ∨ m = .destroyGc ∧ s.destroying ≠ []

/-- Every event that a user thread destroyed in `seen` waits on the list, was released or
is still on its way to the list, and the list is empty once the thread has collected for
the last time. -/
structure Accounted (seen : List Move) (s : Loop) : Prop where
  listed : ListedClosing s.reactor
  kept : Kept (s.destroying.map Destroying.event) s.reactor
  begun : ∀ d ∈ s.destroying, d.event < s.reactor.created ∧
    (d.stage ≠ some .close → (s.reactor.obj d.event).ev.closing = true)
  destroyed : ∀ e, .user (.destroy e) ∈ seen → e ∈ s.reactor.gcEvents ∨
    e ∈ s.reactor.released ∨ e ∈ s.destroying.map Destroying.event
  returned : s.teardown ≠ .notCalled → s.destroying = []
  closing : s.reactor.closing = true → s.teardown = .closed ∨ s.teardown = .joined
  exited : s.pc = .exited true → s.reactor.closing = true ∧ s.reactor.gcEvents = []

section Accounted

variable {seen : List Move} {s s' : Loop} {m : Move}

/-- A step that is no destroy of a user thread adds nothing to account for. -/
theorem Accounted.seeMore (h : Accounted seen s) (hm : ∀ e, m ≠ .user (.destroy e)) :
    Accounted (seen ++ [m]) s := by
  refine ⟨h.listed, h.kept, h.begun, fun e he => ?_, h.returned, h.closing, h.exited⟩
  rcases List.mem_append.mp he with he | he
  · exact h.destroyed e he
  · exact absurd (List.mem_singleton.mp he).symm (hm e)

/-- The reactor's thread moves on, not to its end. -/
theorem Accounted.moveTo (h : Accounted seen s) (pc : Pc) (hpc : pc ≠ .exited true) (i : ℕ) :
    Accounted seen { s with pc := pc, i := i } :=
  ⟨h.listed, h.kept, h.begun, h.destroyed, h.returned, h.closing, fun hexit => absurd hexit hpc⟩

/-- A change of the reactor that takes no event off the list but to release it. -/
theorem Accounted.setReactor (h : Accounted seen s) {r : Reactor Kq} (hlisted : ListedClosing r)
    (hkept : Kept (s.destroying.map Destroying.event) r) (hgrows : Grows s.reactor r)
    (htracked : ∀ e, e ∈ s.reactor.gcEvents ∨ e ∈ s.reactor.released →
      e ∈ r.gcEvents ∨ e ∈ r.released) (hclosing : r.closing = s.reactor.closing)
    (hempty : s.pc = .exited true → s.reactor.gcEvents = [] → r.gcEvents = []) :
    Accounted seen { s with reactor := r } := by
  refine ⟨hlisted, hkept, fun d hd => ?_, fun e he => ?_, h.returned, ?_, fun hexit => ?_⟩
  · obtain ⟨hlt, hcl⟩ := h.begun d hd
    exact ⟨hlt.trans_le hgrows.created, fun hstage => hgrows.closing _ hlt (hcl hstage)⟩
  · rcases h.destroyed e he with hmem | hmem | hmem
    · exact (htracked e (.inl hmem)).imp_right .inl
    · exact (htracked e (.inr hmem)).imp_right .inl
    · exact .inr (.inr hmem)
  · dsimp only
    rw [hclosing]
    exact h.closing
  · obtain ⟨hcl, hnil⟩ := h.exited hexit
    exact ⟨hclosing.trans hcl, hempty hexit hnil⟩

/-- A collection on the reactor's thread. -/
theorem Accounted.gc (h : Accounted seen s) {r : Reactor Kq}
    (hr : reactorGc kqueue true s.reactor = some r) :
    Accounted seen { s with reactor := r } ∧ r.gcEvents = [] ∧
      r.closing = s.reactor.closing := by
  obtain ⟨hkept, hnil, hclosing, hreleased⟩ := h.kept.gc h.listed hr
  have hgrows : Grows s.reactor r := by
    rw [reactorGc_reactor h.listed] at hr
    obtain rfl := Option.some.inj hr
    obtain ⟨-, hcreated, -, -, hev⟩ := foldl_eventRelease_fields (P := kqueue)
      s.reactor.gcEvents { s.reactor with gcEvents := [] }
    exact ⟨hcreated.ge, fun i _ hcl => by rw [hev]; exact hcl⟩
  refine ⟨h.setReactor ?_ hkept hgrows (fun e he => .inr ?_) hclosing fun _ _ => hnil, hnil,
    hclosing⟩
  · -- the list is empty afterwards
    intro e he
    rw [hnil] at he
    cases he
  · rw [hreleased]
    exact he.elim (List.mem_append_right _) (List.mem_append_left _)

/-- A call that destroys nothing, or destroys on the reactor's thread. -/
theorem Accounted.apply (h : Accounted seen s) {isReactor : Bool} {o : Op} {r : Reactor Kq}
    (hr : o.apply kqueue isReactor s.reactor = some r)
    (hdestroys : (∀ e, o ≠ .destroy e) ∨ isReactor = true) :
    Accounted seen { s with reactor := r } := by
  obtain ⟨hlist, hreleased, hclosing, hsame⟩ := Op.apply_lists hr
  refine h.setReactor (h.listed.apply hr) (h.kept.apply hr) (Op.apply_grows hr) (fun e he => ?_)
    hclosing ?_
  · exact he.imp (fun hmem => hlist hmem) fun hmem => hreleased hmem
  · intro _ hnil
    rw [hsame hdestroys]
    exact hnil

/-- Before `posixc_reactor_destroy` is called the thread does not end. -/
theorem Accounted.not_exited (h : Accounted seen s) (hearly : s.teardown = .notCalled) :
    s.pc ≠ .exited true := by
  intro hexit
  rcases h.closing (h.exited hexit).1 with ht | ht <;> rw [hearly] at ht <;> cases ht

/-- A user thread begins to destroy an event, before `posixc_reactor_destroy` is called. -/
theorem Accounted.begin (h : Accounted seen s) {e : ℕ} {ds : List Destroying}
    (hold : s.reactor.Holds e) (hearly : s.teardown = .notCalled)
    (hds : (s.reactor.obj e).ev.closing = true ∧ ds = s.destroying ∨
      (s.reactor.obj e).ev.closing = false ∧ ds = s.destroying ++ [⟨e, some .close⟩]) :
    Accounted (seen ++ [.user (.destroy e)]) { s with destroying := ds } := by
  have hself : ∀ i, .user (.destroy i) ∈ seen ++ [Move.user (.destroy e)] →
      i = e ∨ .user (.destroy i) ∈ seen := by
    intro i hi
    rcases List.mem_append.mp hi with hi | hi
    · exact .inr hi
    · injection List.mem_singleton.mp hi with hop
      injection hop with hie
      exact .inl hie
  rcases hds with ⟨hclosing, rfl⟩ | ⟨-, rfl⟩
  · -- the call returns at once, since another has closed the event
    refine ⟨h.listed, h.kept, h.begun, fun i hi => ?_, h.returned, h.closing, h.exited⟩
    rcases hself i hi with rfl | hi
    · exact h.kept i hold.1 hclosing
    · exact h.destroyed i hi
  · have hmore : ∀ i, i ∈ s.destroying.map Destroying.event →
        i ∈ (s.destroying ++ [(⟨e, some .close⟩ : Destroying)]).map Destroying.event := by
      intro i hi
      rw [List.map_append]
      exact List.mem_append_left _ hi
    refine ⟨h.listed, fun i hi hclosing => ?_, fun d hd => ?_, fun i hi => ?_,
      fun hcalled => absurd hearly hcalled, h.closing, h.exited⟩
    · exact (h.kept i hi hclosing).imp_right fun hrest => hrest.imp_right (hmore i)
    · rcases List.mem_append.mp hd with hd | hd
      · exact h.begun d hd
      · rw [List.mem_singleton.mp hd]
        exact ⟨hold.1, fun hstage => absurd rfl hstage⟩
    · rcases hself i hi with rfl | hi
      · refine .inr (.inr ?_)
        rw [List.map_append]
        exact List.mem_append_right _ List.mem_cons_self
      · exact (h.destroyed i hi).imp_right fun hrest => hrest.imp_right (hmore i)

/-- A user thread goes on with a destroy. -/
theorem Accounted.userGo (h : Accounted seen s) {i : ℕ} {r : Reactor Kq} {ds : List Destroying}
    (hr : Posixc.userGo kqueue s.reactor s.destroying i = some (r, ds)) :
    Accounted seen { s with reactor := r, destroying := ds } := by
  obtain ⟨us, d, vs, hds, hgo⟩ := userGo_cases hr
  have hmem : d ∈ s.destroying := hds ▸ List.mem_append_right _ List.mem_cons_self
  obtain ⟨hlt, hcl⟩ := h.begun d hmem
  -- `posixc_reactor_destroy` was not called yet, since this destroy has not returned
  have hearly : s.teardown = .notCalled := by
    by_contra hcalled
    rw [h.returned hcalled] at hmem
    cases hmem
  rcases hgo with ⟨stage, hstage, rfl, rfl⟩ | ⟨hstage, rfl, rfl⟩
  · have hevents : (us ++ ⟨d.event, stage.next⟩ :: vs).map Destroying.event =
        s.destroying.map Destroying.event := by
      rw [hds]
      simp
    obtain ⟨hcreated, hreleased, hlist, hkept⟩ := stage.run_frame kqueue s.reactor d.event
    have hflag : (stage.run kqueue s.reactor d.event).closing = s.reactor.closing := by
      cases stage <;> rfl
    have hgrows : Grows s.reactor (stage.run kqueue s.reactor d.event) :=
      ⟨hcreated.ge, fun i _ => hkept i⟩
    -- after the first line its event is closing, and no other is but those that were
    have hself : ((stage.run kqueue s.reactor d.event).obj d.event).ev.closing = true := by
      rw [StopStage.run_ev]
      split_ifs with hclose
      · rfl
      · refine hcl ?_
        rw [hstage]
        exact fun heq => hclose ⟨rfl, Option.some.inj heq⟩
    have hothers : ∀ i, i ≠ d.event →
        ((stage.run kqueue s.reactor d.event).obj i).ev = (s.reactor.obj i).ev := fun i hi => by
      rw [StopStage.run_ev, if_neg fun heq => hi heq.1]
    refine ⟨?_, ?_, fun d' hd' => ?_, fun i hi => ?_, fun hcalled => absurd hearly hcalled, ?_,
      fun hexit => absurd hexit (h.not_exited hearly)⟩
    · exact h.listed.of_grows hgrows fun e he => hlist ▸ he
    · intro i hi hclosing
      rw [hcreated] at hi
      rw [hlist, hreleased, hevents]
      by_cases hie : i = d.event
      · rw [hie]
        exact .inr (.inr (List.mem_map_of_mem hmem))
      · rw [hothers i hie] at hclosing
        exact h.kept i hi hclosing
    · by_cases hevent : d'.event = d.event
      · rw [hevent]
        exact ⟨hcreated ▸ hlt, fun _ => hself⟩
      · obtain ⟨hlt', hcl'⟩ := h.begun d' (hds ▸ mem_of_event_ne hd' hevent)
        exact ⟨hcreated ▸ hlt', fun hstage' => hgrows.closing _ hlt' (hcl' hstage')⟩
    · rw [hlist, hreleased, hevents]
      exact h.destroyed i hi
    · rw [hflag]
      exact h.closing
  · -- what is no longer on its way to the list is on it
    have hmoved : ∀ i, i ∈ s.destroying.map Destroying.event →
        i ∈ s.reactor.gcEvents ++ [d.event] ∨ i ∈ (us ++ vs).map Destroying.event := by
      intro i hi
      rw [hds] at hi
      simp only [List.map_append, List.map_cons, List.mem_append, List.mem_cons] at hi ⊢
      rcases hi with hi | rfl | hi
      · exact .inr (.inl hi)
      · exact .inl (.inr (.inl rfl))
      · exact .inr (.inr hi)
    have htracked : ∀ i, i ∈ s.reactor.gcEvents ∨ i ∈ s.reactor.released ∨
        i ∈ s.destroying.map Destroying.event → i ∈ s.reactor.gcEvents ++ [d.event] ∨
        i ∈ s.reactor.released ∨ i ∈ (us ++ vs).map Destroying.event := by
      rintro i (hi | hi | hi)
      · exact .inl (List.mem_append_left _ hi)
      · exact .inr (.inl hi)
      · exact (hmoved i hi).imp_right .inr
    have hclosing : (s.reactor.obj d.event).ev.closing = true := hcl (by rw [hstage]; nofun)
    refine ⟨fun e he => ?_, fun e he hclosing => htracked e (h.kept e he hclosing),
      fun d' hd' => h.begun d' ?_, fun e he => htracked e (h.destroyed e he),
      fun hcalled => absurd hearly hcalled, h.closing,
      fun hexit => absurd hexit (h.not_exited hearly)⟩
    · rcases List.mem_append.mp he with he | he
      · exact h.listed e he
      · rw [List.mem_singleton.mp he]
        exact ⟨hlt, hclosing⟩
    · rw [hds]
      exact ((List.sublist_cons_self d vs).append_left us).subset hd'

/-- **One step.** It loses no destroyed event unless `posixc_reactor_destroy` finds
one on the list, or one is destroyed after the call. -/
theorem Accounted.step (h : Accounted seen s) (hdrop : ¬ m.DropsListed s)
    (hlate : ¬ m.DestroysLate s) (hnext : loopSystem.next s m = some s') :
    Accounted (seen ++ [m]) s' := by
  have hstep := Loop.steps_of_next hnext
  unfold Loop.Steps at hstep
  cases m with
  | user o =>
    obtain ⟨r, ds, -, hr, rfl⟩ := hstep
    rcases userCall_cases hr with ⟨e, rfl, hold, rfl, hds⟩ | ⟨hdestroys, happly, rfl⟩
    · refine h.begin hold ?_ hds
      by_contra hcalled
      exact hlate (.inl ⟨e, rfl, hcalled⟩)
    · refine (h.apply happly (.inl hdestroys)).seeMore ?_
      rintro e he
      injection he with hop
      exact hdestroys e hop
  | userGo i =>
    obtain ⟨r, ds, -, hr, rfl⟩ := hstep
    exact (h.userGo hr).seeMore (by rintro e ⟨⟩)
  | callback o =>
    obtain ⟨rest, r, -, hr, rfl⟩ := hstep
    exact (h.apply hr (.inr rfl)).seeMore (by rintro e ⟨⟩)
  | ret =>
    obtain ⟨rest, -, rfl⟩ := hstep
    exact (h.moveTo _ (by intro hpc; cases hpc) s.i).seeMore (by rintro e ⟨⟩)
  | test =>
    obtain ⟨-, ⟨hclosing, r, hr, rfl⟩ | ⟨-, rfl⟩⟩ := hstep
    · -- the last collection
      obtain ⟨hgc, hnil, hcl⟩ := h.gc hr
      refine Accounted.seeMore ⟨hgc.listed, hgc.kept, hgc.begun, hgc.destroyed, hgc.returned,
        hgc.closing, fun _ => ?_⟩ (by rintro e ⟨⟩)
      exact ⟨hcl.trans hclosing, hnil⟩
    · exact (h.moveTo _ (by intro hpc; cases hpc) s.i).seeMore (by rintro e ⟨⟩)
  | fetch batch =>
    obtain ⟨-, -, r, hr, rfl⟩ := hstep
    obtain ⟨hcreated, hlist, hreleased, hclosing, hev⟩ := deliverAll_frame batch _ _ hr
    have hgrows : Grows s.reactor r := ⟨hcreated.ge, fun e _ hcl => by rw [hev]; exact hcl⟩
    have hset := h.setReactor (r := r) (h.listed.of_grows hgrows fun e he => hlist ▸ he)
      (h.kept.of_same hcreated hlist hreleased fun i => by rw [hev]) hgrows
      (fun e he => by rw [hlist, hreleased]; exact he) hclosing
      fun _ hnil => by rw [hlist]; exact hnil
    exact (hset.moveTo _ (by intro hpc; cases hpc) s.i).seeMore (by rintro e ⟨⟩)
  | badf =>
    obtain ⟨-, rfl⟩ := hstep
    exact (h.moveTo _ (by intro hpc; cases hpc) s.i).seeMore (by rintro e ⟨⟩)
  | consume =>
    obtain ⟨ev, rest, -, rfl⟩ := hstep
    have hset := h.setReactor (r := (consumeEv s.reactor ev).2) (h.listed.setObj id)
      (h.kept.setObj id) (setObj_grows id) (fun _ => id) rfl fun _ => id
    refine (hset.moveTo _ ?_ s.i).seeMore (by rintro e ⟨⟩)
    split_ifs <;> rintro ⟨⟩
  | finish =>
    obtain ⟨-, r, hr, rfl⟩ := hstep
    have hset : Accounted seen { s with reactor := r } := by
      rcases hr with hr | rfl
      · exact (h.gc hr).1
      · exact h
    exact (hset.moveTo _ (by intro hpc; cases hpc) _).seeMore (by rintro e ⟨⟩)
  | destroyGc =>
    obtain ⟨ht, r, hr, rfl⟩ := hstep
    -- the guard is that nothing is dropped here, and that no destroy is under way
    have hnil : s.reactor.gcEvents = [] := by
      by_contra hne
      exact hdrop ⟨rfl, hne⟩
    have hreturned : s.destroying = [] := by
      by_contra hne
      exact hlate (.inr ⟨rfl, hne⟩)
    rw [reactorGc_user h.listed] at hr
    obtain rfl := Option.some.inj hr
    -- the list was empty, so the reactor is as it was
    rw [← hnil]
    refine Accounted.seeMore ⟨h.listed, h.kept, h.begun, h.destroyed, fun _ => hreturned,
      fun hclosing => ?_, h.exited⟩ (by rintro e ⟨⟩)
    rcases h.closing hclosing with hc | hc <;> rw [ht] at hc <;> cases hc
  | destroyClose =>
    obtain ⟨ht, rfl⟩ := hstep
    refine Accounted.seeMore ⟨h.listed, h.kept, h.begun, h.destroyed,
      fun _ => h.returned (by rw [ht]; nofun), fun _ => .inl rfl, fun hexit => ?_⟩
      (by rintro e ⟨⟩)
    exact ⟨rfl, (h.exited hexit).2⟩
  | destroyJoin =>
    obtain ⟨b, -, ht, rfl⟩ := hstep
    exact Accounted.seeMore ⟨h.listed, h.kept, h.begun, h.destroyed,
      fun _ => h.returned (by rw [ht]; nofun), fun _ => .inr rfl, h.exited⟩ (by rintro e ⟨⟩)

end Accounted

/-- **What `posixc_reactor_destroy` leaves.** In a run where it finds the list empty
when it collects, and where user threads have returned from all their destroys when it is
called, every destroyed event waits on the list, was released or is on its way to the list,
and all of them have been released when it returns after the final collection. -/
theorem loop_destroyed_released (fds : FdTable) (timerIds : ℕ) (moves : List Move) (s : Loop)
    (hguard : loopSystem.Guarded (fun s m => ¬ m.DropsListed s ∧ ¬ m.DestroysLate s)
      (loopCreate fds timerIds) moves)
    (hrun : loopSystem.run (loopCreate fds timerIds) moves = some s) :
    (∀ e, .user (.destroy e) ∈ moves → e ∈ s.reactor.gcEvents ∨ e ∈ s.reactor.released ∨
        e ∈ s.destroying.map Destroying.event) ∧
      (s.teardown = .joined → s.pc = .exited true →
        ∀ e, .user (.destroy e) ∈ moves → e ∈ s.reactor.released) := by
  have hinit : Accounted [] (loopCreate fds timerIds) :=
    ⟨fun _ he => absurd he List.not_mem_nil, fun e he => absurd he (Nat.not_lt_zero e), nofun,
      fun _ he => absurd he List.not_mem_nil, fun _ => rfl, (fun hclosing => nomatch hclosing),
      (fun hexit => nomatch hexit)⟩
  have hend := System.run_history (I := Accounted)
    (fun seen s m s' h hP hnext => h.step hP.1 hP.2 hnext) hinit hguard hrun
  refine ⟨hend.destroyed, fun hjoined hexit e he => ?_⟩
  have hreturned : s.destroying = [] := hend.returned (by rw [hjoined]; nofun)
  rcases hend.destroyed e he with hmem | hmem | hmem
  · rw [(hend.exited hexit).2] at hmem
    cases hmem
  · exact hmem
  · rw [hreturned] at hmem
    cases hmem

/-- The thread collects a destroyed socket before the reactor is torn down. -/
def collectFirst : List Move :=
  [.user (.create 3 none 0 .sockEv true none), .user (.destroy 0), .userGo 0, .userGo 0,
    .userGo 0, .userGo 0, .test, .fetch [], .finish, .destroyGc, .destroyClose, .test,
    .destroyJoin]

theorem loop_destroyed_released_socket :
    ∃ s, loopSystem.run (loopCreate socketTable 0) collectFirst = some s ∧
      0 ∈ s.reactor.released := by
  refine ⟨_, rfl, (loop_destroyed_released socketTable 0 collectFirst _ ?_ rfl).2 rfl rfl 0
    (by simp [collectFirst])⟩
  have hother : ∀ (s : Loop) (m : Move), m ≠ .destroyGc → (∀ e, m ≠ .user (.destroy e)) →
      ¬ m.DropsListed s ∧ ¬ m.DestroysLate s := by
    rintro s m hgc hdestroy
    refine ⟨fun h => hgc h.1, ?_⟩
    rintro (⟨e, he, -⟩ | ⟨he, -⟩)
    · exact hdestroy e he
    · exact hgc he
  refine .cons (hother _ _ nofun nofun) rfl (.cons ⟨nofun, ?_⟩ rfl
    (.cons (hother _ _ nofun nofun) rfl (.cons (hother _ _ nofun nofun) rfl
    (.cons (hother _ _ nofun nofun) rfl (.cons (hother _ _ nofun nofun) rfl
    (.cons (hother _ _ nofun nofun) rfl (.cons (hother _ _ nofun nofun) rfl
    (.cons (hother _ _ nofun nofun) rfl (.cons ⟨?_, ?_⟩ rfl
    (.cons (hother _ _ nofun nofun) rfl (.cons (hother _ _ nofun nofun) rfl
    (.cons (hother _ _ nofun nofun) rfl trivial))))))))))))
  · rintro (⟨e, -, hcalled⟩ | ⟨he, -⟩)
    · exact hcalled rfl
    · cases he
  · rintro ⟨-, hlisted⟩
    exact hlisted rfl
  · rintro (⟨e, he, -⟩ | ⟨-, hdestroying⟩)
    · cases he
    · exact hdestroying rfl

/-- The collection inside `posixc_reactor_destroy` drops a destroyed socket. -/
theorem loop_destroyed_lost :
    ¬ ∀ s, loopSystem.run (loopCreate socketTable 0)
        [.user (.create 3 none 0 .sockEv true none), .user (.destroy 0), .userGo 0, .userGo 0,
          .userGo 0, .userGo 0, .destroyGc, .destroyClose, .test, .destroyJoin] = some s →
      s.teardown = .joined → s.pc = .exited true → 0 ∈ s.reactor.released := by
  intro h
  exact absurd (h _ rfl rfl rfl) (by decide)

end Posixc
