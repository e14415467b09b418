import PosixCommons.Reactor.Loop

/-!
# Interest in a socket

What a socket event is waiting for is kept twice: the bits of its `evmask`, and
its enabled filters in the kernel. The kernel disables a filter when it puts its
entry in a batch, and the bit goes when the entry is consumed. In between, other
threads may submit.

No interest is lost (`loop_interest`): a bit that is set has its filter enabled or
an entry still to be consumed. But interest can be made up. A submit enables the
filters of all the bits that are set, so one for the other direction enables a
filter again whose entry is in the batch. `loop_delivered_le` counts: a direction
is delivered no more often than it was submitted when no submit does that
(`Move.KeepsArmed`). An entry in the batch and an enabled filter are each worth one
delivery, and only a submit of the direction may raise their sum.
-/

open Framework

namespace Posixc

/-! ### Masks of entries -/

theorem Kevent.evmask_has (ev : Kevent) {f : Filter} (hf : f ∈ filters .sockEv) :
    ev.evmask.has (maskToConsume f) = decide (ev.filter = f) := by
  rw [Kevent.evmask]
  rcases List.mem_pair.mp hf with rfl | rfl <;> cases ev.filter <;> cases ev.error <;> decide

/-- Consuming an entry clears the bit of its own direction. -/
theorem eventConsume_has (e : Event) (ev : Kevent) {f : Filter} (hf : f ∈ filters .sockEv) :
    (eventConsume e ev.evmask).evmask.has (maskToConsume f) =
      (decide (ev.filter ≠ f) && e.evmask.has (maskToConsume f)) := by
  have hclear : ∀ filter (error : Bool), filter = f →
      ~~~(maskToConsume filter ||| if error then eventErr else 0) &&& maskToConsume f = 0#32 := by
    rintro filter error rfl
    rcases List.mem_pair.mp hf with rfl | rfl <;> cases error <;> decide
  have hkeep : ∀ filter (error : Bool), filter ≠ f →
      ~~~(maskToConsume filter ||| if error then eventErr else 0) &&& maskToConsume f =
        maskToConsume f := by
    intro filter error hne
    rcases List.mem_pair.mp hf with rfl | rfl <;> cases filter <;> cases error <;>
      first | decide | exact absurd rfl hne
  -- the error flag bears on no direction
  by_cases heq : ev.filter = f
  · rw [decide_eq_false (not_not.mpr heq), Bool.false_and]
    exact Mask.has_clear (hclear ev.filter ev.error heq) _
  · rw [decide_eq_true heq, Bool.true_and]
    exact Mask.has_clear_of_disjoint (hkeep ev.filter ev.error heq) _

/-! ### Filling a batch -/

/-- The event and the filter of an entry. -/
def Kevent.key (ev : Kevent) : ℕ × Filter := (ev.udata, ev.filter)

/-- **A batch and a socket.** A filter that is in the batch was enabled and is
disabled; another is as it was. -/
theorem deliverAll_socket {e : ℕ} (batch : List Kevent) :
    ∀ r r' : Reactor Kq, (batch.map Kevent.key).Nodup → (r.obj e).reg.Socket →
      deliverAll batch r = some r' → (r'.obj e).reg.Socket ∧ ∀ f ∈ filters .sockEv,
        ((e, f) ∈ batch.map Kevent.key →
          (r.obj e).reg.enabled f = true ∧ (r'.obj e).reg.enabled f = false) ∧
        ((e, f) ∉ batch.map Kevent.key →
          (r'.obj e).reg.enabled f = (r.obj e).reg.enabled f) := by
  induction batch with
  | nil =>
    intro r r' _ hsock hrun
    obtain rfl := Option.some.inj hrun
    exact ⟨hsock, fun f _ => ⟨fun hmem => absurd hmem List.not_mem_nil, fun _ => rfl⟩⟩
  | cons ev batch ih =>
    intro r r' hnd hsock hrun
    obtain ⟨k, hdel, hrest⟩ := Option.bind_eq_some_iff.mp hrun
    rw [List.map_cons, List.nodup_cons] at hnd
    -- the entry changes one filter of one event
    set r₁ := r.setObj ev.udata { r.obj ev.udata with reg := k } with hr₁
    have hsame : ∀ f, (e, f) ≠ ev.key → (r₁.obj e).reg f = (r.obj e).reg f := by
      intro f hne
      rw [hr₁, Reactor.setObj_obj]
      split_ifs with heq
      · rw [heq]
        refine deliver_of_ne hdel fun hf => hne ?_
        rw [heq, hf]
        rfl
      · rfl
    have hself : ∀ f ∈ filters .sockEv, (e, f) = ev.key →
        (r.obj e).reg.enabled f = true ∧ (r₁.obj e).reg.enabled f = false ∧
          (r₁.obj e).reg.Socket := by
      rintro f hf hkey
      obtain ⟨rfl, rfl⟩ := Prod.mk.inj hkey
      obtain ⟨hsocket, hdis⟩ := deliver_socket hsock hf hdel
      rw [hr₁, Reactor.setObj_obj, if_pos rfl]
      exact ⟨deliver_enabled hdel, hdis, hsocket⟩
    have hsock₁ : (r₁.obj e).reg.Socket := by
      intro f hf
      by_cases hkey : (e, f) = ev.key
      · exact (hself f hf hkey).2.2 f hf
      · rw [hsame f hkey]
        exact hsock f hf
    obtain ⟨hsock', hfilters⟩ := ih r₁ r' hnd.2 hsock₁ hrest
    refine ⟨hsock', fun f hf => ?_⟩
    obtain ⟨hin, hout⟩ := hfilters f hf
    by_cases hkey : (e, f) = ev.key
    · -- the entry is this filter's, and the rest of the batch has no other of it
      obtain ⟨hen, hdis, -⟩ := hself f hf hkey
      have hnot : (e, f) ∉ batch.map Kevent.key := hkey ▸ hnd.1
      refine ⟨fun _ => ⟨hen, (hout hnot).trans hdis⟩, fun hmem => ?_⟩
      exact absurd (hkey ▸ List.mem_cons_self) hmem
    · have hen : (r₁.obj e).reg.enabled f = (r.obj e).reg.enabled f := by
        rw [Kq.enabled, Kq.enabled, hsame f hkey]
      rw [List.map_cons, List.mem_cons, or_iff_right hkey, ← hen]
      exact ⟨hin, hout⟩

/-! ### One event among the others -/

/-- The calls that are made are submits, on any events, and no destroy is under way. -/
def Move.OnlySubmits (m : Move) : Prop :=
  (∀ o, m = .user o ∨ m = .callback o → ∃ e evmask verdict, o = .submit e evmask verdict) ∧
    ∀ i, m ≠ .userGo i

/-- The move submits the event `e`. -/
def Move.Submits (e : ℕ) (evmask : Mask) (verdict : Verdict) (m : Move) : Prop :=
  m = .user (.submit e evmask verdict) ∨ m = .callback (.submit e evmask verdict)

/-- The step makes no call, and goes on with none. -/
def Move.NoCall (m : Move) : Prop := (∀ o, m ≠ .user o ∧ m ≠ .callback o) ∧ ∀ i, m ≠ .userGo i

section NoCall

variable {m : Move}

theorem Move.NoCall.onlySubmits (h : m.NoCall) : m.OnlySubmits :=
  ⟨fun o ho => ho.elim (fun hm => absurd hm (h.1 o).1) fun hm => absurd hm (h.1 o).2, h.2⟩

theorem Move.NoCall.not_submits (h : m.NoCall) {e : ℕ} {evmask : Mask} {verdict : Verdict} :
    ¬ m.Submits e evmask verdict :=
  fun hm => hm.elim (h.1 _).1 (h.1 _).2

end NoCall

/-- The socket event `e` is held, open and registered, and nothing waits to be
collected. -/
structure Watched (s : Loop) (e : ℕ) : Prop where
  held : s.reactor.Holds e
  sock : (s.reactor.obj e).ev.type = .sockEv
  opened : (s.reactor.obj e).ev.closing = false
  socket : (s.reactor.obj e).reg.Socket
  unlisted : s.reactor.gcEvents = []
  nodup : (s.pending.map Kevent.key).Nodup

/-- What a step is to the event `e`. -/
inductive Effect (e : ℕ) (s : Loop) : Move → Loop → Prop
  | none {m : Move} {s' : Loop} (hm : m ≠ .consume) (hfetch : ∀ batch, m ≠ .fetch batch)
      (hobj : s'.reactor.obj e = s.reactor.obj e) (hpending : s'.pending = s.pending) :
      Effect e s m s'
  | submit {m : Move} {s' : Loop} {evmask : Mask} {verdict : Verdict}
      (hm : m.Submits e evmask verdict)
      (hobj : s'.reactor.obj e = (eventSubmit kqueue (s.reactor.obj e) evmask verdict).2)
      (hpending : s'.pending = s.pending) : Effect e s m s'
  | fetch {batch : List Kevent} {s' : Loop} (hnone : s.pending = [])
      (hpending : s'.pending = batch)
      (hev : (s'.reactor.obj e).ev = (s.reactor.obj e).ev)
      (hfilters : ∀ f ∈ filters .sockEv,
        ((e, f) ∈ batch.map Kevent.key → (s.reactor.obj e).reg.enabled f = true ∧
          (s'.reactor.obj e).reg.enabled f = false) ∧
        ((e, f) ∉ batch.map Kevent.key →
          (s'.reactor.obj e).reg.enabled f = (s.reactor.obj e).reg.enabled f)) :
      Effect e s (.fetch batch) s'
  | consume {s' : Loop} {ev : Kevent} (hpc : s.pc = .dispatch (ev :: s'.pending))
      (hreg : (s'.reactor.obj e).reg = (s.reactor.obj e).reg)
      (hev : (s'.reactor.obj e).ev =
        if ev.udata = e then eventConsume (s.reactor.obj e).ev ev.evmask
        else (s.reactor.obj e).ev) : Effect e s .consume s'

section Watched

variable {s s' : Loop} {e : ℕ} {m : Move}

/-- What matters of a state is the event, the list and the batch. -/
theorem Watched.of_obj (h : Watched s e) (hheld : s'.reactor.Holds e)
    (htype : (s'.reactor.obj e).ev.type = (s.reactor.obj e).ev.type)
    (hclosing : (s'.reactor.obj e).ev.closing = (s.reactor.obj e).ev.closing)
    (hsocket : (s'.reactor.obj e).reg.Socket) (hlist : s'.reactor.gcEvents = s.reactor.gcEvents)
    (hnodup : (s'.pending.map Kevent.key).Nodup) : Watched s' e :=
  ⟨hheld, htype.trans h.sock, hclosing.trans h.opened, hsocket, hlist.trans h.unlisted, hnodup⟩

/-- A submit of any event, by a thread or by the callback. -/
theorem Watched.submit (h : Watched s e) {isReactor : Bool} {i : ℕ} {evmask : Mask}
    {verdict : Verdict} {r : Reactor Kq}
    (hr : Op.apply kqueue isReactor s.reactor (.submit i evmask verdict) = some r)
    (hm : m.Submits i evmask verdict) :
    Watched { s with reactor := r } e ∧ Effect e s m { s with reactor := r } := by
  rw [Op.apply] at hr
  split_ifs at hr with hold
  obtain rfl := Option.some.inj hr
  have hother : m ≠ .consume ∧ ∀ batch, m ≠ .fetch batch := by
    rcases hm with rfl | rfl <;> exact ⟨by rintro ⟨⟩, by rintro batch ⟨⟩⟩
  by_cases hi : i = e
  · -- the submit is of the watched event
    subst hi
    have hobj : (s.reactor.setObj i (eventSubmit kqueue (s.reactor.obj i) evmask verdict).2).obj i =
        (eventSubmit kqueue (s.reactor.obj i) evmask verdict).2 := by
      rw [Reactor.setObj_obj, if_pos rfl]
    obtain ⟨mask, hmask⟩ := eventSubmit_frame kqueue (s.reactor.obj i) evmask verdict
    refine ⟨h.of_obj h.held ?_ ?_ ?_ rfl h.nodup, .submit hm hobj rfl⟩
    · rw [hobj, hmask]
    · rw [hobj, hmask]
    · rw [hobj, eventSubmit, if_neg (by rw [h.opened]; exact Bool.false_ne_true)]
      exact kqPlatSubmit_socket (e := { (s.reactor.obj i).ev with
        evmask := (s.reactor.obj i).ev.evmask ||| evmask }) h.sock h.socket verdict
  · have hobj : (s.reactor.setObj i (eventSubmit kqueue (s.reactor.obj i) evmask verdict).2).obj e =
        s.reactor.obj e := by
      rw [Reactor.setObj_obj, if_neg (Ne.symm hi)]
    exact ⟨h.of_obj h.held (by rw [hobj]) (by rw [hobj]) (by rw [hobj]; exact h.socket) rfl h.nodup,
      .none hother.1 hother.2 hobj rfl⟩

/-- The reactor's thread moves on and the event is as it was. -/
theorem Watched.moveTo (h : Watched s e) (hreactor : s'.reactor.obj e = s.reactor.obj e)
    (hheld : s'.reactor.Holds e) (hlist : s'.reactor.gcEvents = s.reactor.gcEvents)
    (hpending : s'.pending = s.pending) (hm : m ≠ .consume) (hfetch : ∀ batch, m ≠ .fetch batch) :
    Watched s' e ∧ Effect e s m s' :=
  ⟨h.of_obj hheld (by rw [hreactor]) (by rw [hreactor]) (by rw [hreactor]; exact h.socket) hlist
    (by rw [hpending]; exact h.nodup), .none hm hfetch hreactor hpending⟩

/-- The reactor's thread takes an entry from the batch. Of the entry's event it changes
the mask, and nothing else. -/
theorem Watched.consume (h : Watched s e) {ev : Kevent} {rest : List Kevent}
    (hpc : s.pc = .dispatch (ev :: rest)) (hreactor : s'.reactor = (consumeEv s.reactor ev).2)
    (hpending : s'.pending = rest) : Watched s' e ∧ Effect e s .consume s' := by
  have hobj : s'.reactor.obj e =
      if e = ev.udata then
        { s.reactor.obj ev.udata with ev := eventConsume (s.reactor.obj ev.udata).ev ev.evmask }
      else s.reactor.obj e := by
    rw [hreactor]
    exact Reactor.setObj_obj _ _ _ _
  have hheld : s'.reactor.Holds e := by
    rw [hreactor]
    exact h.held
  have hlist : s'.reactor.gcEvents = s.reactor.gcEvents := by
    rw [hreactor]
    rfl
  -- the entries that follow are of other filters
  have hnodup : (s'.pending.map Kevent.key).Nodup := by
    have hnd := h.nodup
    rw [Loop.pending, hpc, List.map_cons, List.nodup_cons] at hnd
    rw [hpending]
    exact hnd.2
  rw [← hpending] at hpc
  by_cases heq : e = ev.udata
  · subst heq
    rw [if_pos rfl] at hobj
    refine ⟨h.of_obj hheld ?_ ?_ ?_ hlist hnodup, .consume hpc ?_ ?_⟩
    · rw [hobj]
      rfl
    · rw [hobj]
      rfl
    · rw [hobj]
      exact h.socket
    · rw [hobj]
    · rw [hobj, if_pos rfl]
  · rw [if_neg heq] at hobj
    refine ⟨h.of_obj hheld ?_ ?_ ?_ hlist hnodup, .consume hpc ?_ ?_⟩
    · rw [hobj]
    · rw [hobj]
    · rw [hobj]
      exact h.socket
    · rw [hobj]
    · rw [hobj, if_neg (Ne.symm heq)]

/-- **One step.** The event stays watched, and the step is one of the four that
concern it. -/
theorem Watched.step (h : Watched s e) (honly : m.OnlySubmits)
    (hnext : loopSystem.next s m = some s') : Watched s' e ∧ Effect e s m s' := by
  have hstep := Loop.steps_of_next hnext
  -- with nothing on the list no collection changes the reactor
  have hgc : ∀ {isReactor r}, reactorGc kqueue isReactor s.reactor = some r → s.reactor = r :=
    fun hr => Option.some.inj ((reactorGc_nil h.unlisted).symm.trans hr)
  unfold Loop.Steps at hstep
  cases m with
  | user o =>
    obtain ⟨r, ds, -, hr, rfl⟩ := hstep
    obtain ⟨i, evmask, verdict, rfl⟩ := honly.1 o (.inl rfl)
    rcases userCall_cases hr with ⟨e', hdestroy, -⟩ | ⟨-, happly, rfl⟩
    · cases hdestroy
    · exact h.submit happly (.inl rfl)
  | userGo i => exact absurd rfl (honly.2 i)
  | callback o =>
    obtain ⟨rest, r, -, hr, rfl⟩ := hstep
    obtain ⟨i, evmask, verdict, rfl⟩ := honly.1 o (.inr rfl)
    exact h.submit hr (.inr rfl)
  | ret =>
    obtain ⟨rest, hpc, rfl⟩ := hstep
    refine h.moveTo rfl h.held rfl ?_ nofun nofun
    rw [Loop.pending, Loop.pending, hpc]
  | test =>
    obtain ⟨hpc, ⟨-, r, hr, rfl⟩ | ⟨-, rfl⟩⟩ := hstep
    · obtain rfl := hgc hr
      refine h.moveTo rfl h.held rfl ?_ nofun nofun
      rw [Loop.pending, Loop.pending, hpc]
    · refine h.moveTo rfl h.held rfl ?_ nofun nofun
      rw [Loop.pending, Loop.pending, hpc]
  | fetch batch =>
    obtain ⟨hpc, hbatch, r, hr, rfl⟩ := hstep
    obtain ⟨hcreated, hlist, hreleased, -, hev⟩ := deliverAll_frame batch _ _ hr
    obtain ⟨hsocket, hfilters⟩ := deliverAll_socket batch _ _ hbatch.2 h.socket hr
    have hheld : r.Holds e := by
      unfold Reactor.Holds
      rw [hcreated, hreleased]
      exact h.held
    exact ⟨h.of_obj hheld (by rw [hev]) (by rw [hev]) hsocket hlist hbatch.2,
      .fetch (by rw [Loop.pending, hpc]) rfl (hev e) hfilters⟩
  | badf =>
    obtain ⟨hpc, rfl⟩ := hstep
    refine h.moveTo rfl h.held rfl ?_ nofun nofun
    rw [Loop.pending, Loop.pending, hpc]
  | consume =>
    obtain ⟨ev, rest, hpc, rfl⟩ := hstep
    refine h.consume hpc rfl ?_
    unfold Loop.pending
    dsimp only
    split_ifs
    · rfl
    · rfl
  | finish =>
    obtain ⟨hpc, r, hr, rfl⟩ := hstep
    obtain rfl : s.reactor = r := hr.elim hgc Eq.symm
    refine h.moveTo rfl h.held rfl ?_ nofun nofun
    rw [Loop.pending, Loop.pending, hpc]
  | destroyGc =>
    obtain ⟨-, r, hr, rfl⟩ := hstep
    obtain rfl := hgc hr
    exact h.moveTo rfl h.held rfl rfl nofun nofun
  | destroyClose =>
    obtain ⟨-, rfl⟩ := hstep
    exact h.moveTo rfl h.held rfl rfl nofun nofun
  | destroyJoin =>
    obtain ⟨b, -, -, rfl⟩ := hstep
    exact h.moveTo rfl h.held rfl rfl nofun nofun

end Watched

/-! ### No interest is lost -/

/-- A socket that was just created: no bit is set, no filter enabled, and no entry
in the batch. Its descriptor is that of no other socket of the reactor, so that its knotes
are its own. -/
structure Fresh (s : Loop) (e : ℕ) : Prop extends Watched s e where
  sole : ∀ i, s.reactor.Holds i → i ≠ e → (s.reactor.obj i).ev.type = .sockEv →
    (s.reactor.obj i).ev.fd ≠ (s.reactor.obj e).ev.fd
  mask : (s.reactor.obj e).ev.evmask = 0
  quiet : (s.reactor.obj e).reg.Quiet
  noEntry : ∀ ev ∈ s.pending, ev.udata ≠ e

/-- A socket that `posixc_event_create` returns is fresh. -/
theorem fresh_of_create {s : Loop} {fd : ℤ} {cb : Option ℕ} {arg : ℕ} {mem : Bool}
    {verdict : Verdict} {e : ℕ} {r : Reactor Kq}
    (hcreate : eventCreate kqueue s.reactor fd cb arg .sockEv mem verdict = (some e, r))
    (hunreleased : ∀ i ∈ s.reactor.released, i < s.reactor.created)
    (hunlisted : s.reactor.gcEvents = [])
    (hsole : ∀ i, s.reactor.Holds i → (s.reactor.obj i).ev.type = .sockEv →
      (s.reactor.obj i).ev.fd ≠ fd)
    (hpending : ∀ ev ∈ s.pending, ev.udata < s.reactor.created)
    (hnodup : (s.pending.map Kevent.key).Nodup) : Fresh { s with reactor := r } e := by
  -- the event has what the platform made of it, and its number is new
  obtain ⟨rfl, hok, hobj, hothers, hcreated, hreleased, hlist⟩ := eventCreate_some hcreate
  obtain ⟨hquiet, hlive⟩ := kqPlatCreate_spec (eventInit fd cb arg .sockEv) verdict
  refine ⟨⟨⟨?_, fun hrel => ?_⟩, ?_, ?_, ?_, hlist.trans hunlisted, hnodup⟩, ?_, ?_, ?_, ?_⟩
  · change s.reactor.created < r.created
    omega
  · rw [hreleased] at hrel
    exact absurd (hunreleased _ hrel) (Nat.lt_irrefl _)
  · exact congrArg (fun o => o.ev.type) hobj
  · exact congrArg (fun o => o.ev.closing) hobj
  · exact (congrArg Obj.reg hobj).symm ▸ (hlive hok).2 rfl
  · -- the other sockets were there before
    rintro i ⟨hlt, hrel⟩ hne htype
    rw [hcreated] at hlt
    rw [hreleased] at hrel
    dsimp only at htype ⊢
    rw [hothers i hne] at htype ⊢
    rw [hobj]
    exact hsole i ⟨by omega, hrel⟩ htype
  · exact congrArg (fun o => o.ev.evmask) hobj
  · exact (congrArg Obj.reg hobj).symm ▸ hquiet
  · exact fun ev hev => (hpending ev hev).ne

/-- Every direction whose bit is set has its filter enabled, or an entry in the
batch that is still to be consumed. -/
def Interest (s : Loop) (e : ℕ) : Prop :=
  ∀ f ∈ filters .sockEv, (s.reactor.obj e).ev.evmask.has (maskToConsume f) = true →
    (s.reactor.obj e).reg.enabled f = true ∨ ∃ ev ∈ s.pending, ev.key = (e, f)

/-- The kernel refuses no change of a submit of the event. -/
def Move.Accepted (e : ℕ) (m : Move) : Prop :=
  ∀ evmask verdict, m.Submits e evmask verdict → verdict = none

section Interest

variable {s s' : Loop} {e : ℕ} {m : Move}

theorem Watched.submit_obj (h : Watched s e) (evmask : Mask) (verdict : Verdict) :
    eventSubmit kqueue (s.reactor.obj e) evmask verdict =
      ((kqPlatSubmit { (s.reactor.obj e).ev with
          evmask := (s.reactor.obj e).ev.evmask ||| evmask } (s.reactor.obj e).reg verdict).1,
        ⟨{ (s.reactor.obj e).ev with evmask := (s.reactor.obj e).ev.evmask ||| evmask },
          (kqPlatSubmit { (s.reactor.obj e).ev with
            evmask := (s.reactor.obj e).ev.evmask ||| evmask } (s.reactor.obj e).reg
              verdict).2⟩) := by
  rw [eventSubmit, if_neg (by rw [h.opened]; exact Bool.false_ne_true)]
  rfl

/-- **One step.** -/
theorem Interest.step (hw : Watched s e) (h : Interest s e) (hacc : m.Accepted e)
    (heff : Effect e s m s') : Interest s' e := by
  intro f hf hbit
  cases heff with
  | none hm hfetch hobj hpending =>
    rw [hobj] at hbit ⊢
    rw [hpending]
    exact h f hf hbit
  | @submit _ _ evmask verdict hm hobj hpending =>
    -- the submit enables the filters of all the bits that are set after it
    obtain rfl := hacc evmask verdict hm
    rw [hobj, hw.submit_obj] at hbit ⊢
    exact .inl (kqPlatSubmit_accepted (e := { (s.reactor.obj e).ev with
      evmask := (s.reactor.obj e).ev.evmask ||| evmask }) hw.sock hw.socket hf hbit).2
  | @fetch batch _ hnone hpending hev hfilters =>
    rw [hev] at hbit
    -- nothing was pending, so the filter was enabled
    have hen : (s.reactor.obj e).reg.enabled f = true := by
      rcases h f hf hbit with hen | ⟨ev, hmem, -⟩
      · exact hen
      · rw [hnone] at hmem
        cases hmem
    obtain ⟨-, hout⟩ := hfilters f hf
    by_cases hmem : (e, f) ∈ batch.map Kevent.key
    · -- its entry takes over
      rw [hpending]
      obtain ⟨ev, hev, hkey⟩ := List.mem_map.mp hmem
      exact .inr ⟨ev, hev, hkey⟩
    · exact .inl ((hout hmem).trans hen)
  | @consume _ ev hpc hreg hev =>
    have hpending : s.pending = ev :: s'.pending := by rw [Loop.pending, hpc]
    -- consuming the entry of this direction would have cleared its bit
    have hkey : ev.key ≠ (e, f) := by
      intro hkey
      obtain ⟨hudata, hfilter⟩ := Prod.mk.inj hkey
      rw [hev, if_pos hudata, eventConsume_has _ _ hf, decide_eq_false (not_not.mpr hfilter)] at hbit
      cases hbit
    have hbit' : (s.reactor.obj e).ev.evmask.has (maskToConsume f) = true := by
      rw [hev] at hbit
      split_ifs at hbit with hudata
      · rw [eventConsume_has _ _ hf, Bool.and_eq_true] at hbit
        exact hbit.2
      · exact hbit
    -- so what held of the direction before holds still
    rw [hreg]
    refine (h f hf hbit').imp_right fun ⟨ev', hmem, hkey'⟩ => ⟨ev', ?_, hkey'⟩
    rw [hpending] at hmem
    rcases List.mem_cons.mp hmem with rfl | hmem
    · exact absurd hkey' hkey
    · exact hmem

end Interest

/-- **No lost interest.** After any run of submits that the kernel accepts,
deliveries and consumed entries, every bit that is set in the mask of the socket has
its filter enabled or an entry that is still to be consumed. -/
theorem loop_interest {s s' : Loop} {e : ℕ} {moves : List Move} (hfresh : Fresh s e)
    (hguard : loopSystem.Guarded (fun _ m => m.OnlySubmits ∧ m.Accepted e) s moves)
    (hrun : loopSystem.run s moves = some s') : Interest s' e := by
  have hinit : Watched s e ∧ Interest s e := by
    refine ⟨hfresh.toWatched, fun f hf hbit => ?_⟩
    rw [hfresh.mask, Mask.has_zero] at hbit
    cases hbit
  refine (System.run_invariant (I := fun s => Watched s e ∧ Interest s e)
    (fun s m s' h hP hnext => ?_) hinit hguard hrun).2
  obtain ⟨hw, heff⟩ := h.1.step hP.1 hnext
  exact ⟨hw, h.2.step h.1 hP.2 heff⟩

/-- A reactor with one socket, which has a callback. -/
def socketLoop : Loop :=
  { loopCreate socketTable 0 with
    reactor := (eventCreate kqueue (loopCreate socketTable 0).reactor 3 (some 0) 0 .sockEv true
      none).2 }

theorem socketLoop_fresh : Fresh socketLoop 0 := by
  have hcreate : eventCreate kqueue (loopCreate socketTable 0).reactor 3 (some 0) 0 .sockEv true
      none = (some 0, socketLoop.reactor) := rfl
  exact fresh_of_create hcreate nofun rfl (fun i hi => absurd hi.1 (Nat.not_lt_zero i)) nofun
    List.nodup_nil

theorem Move.onlySubmits_submit (e : ℕ) (evmask : Mask) (verdict : Verdict) :
    Move.OnlySubmits (.user (.submit e evmask verdict)) := by
  refine ⟨?_, nofun⟩
  rintro o (ho | ho)
  · obtain rfl := Move.user.inj ho
    exact ⟨e, evmask, verdict, rfl⟩
  · cases ho

/-- A socket is submitted in both directions, and both are put in one batch. -/
def readAndWrite : List Move :=
  [.user (.submit 0 0x5 none), .test,
    .fetch [{ udata := 0, filter := .read }, { udata := 0, filter := .write }], .consume]

theorem loop_interest_socket :
    ∃ s, loopSystem.run socketLoop readAndWrite = some s ∧
      (s.reactor.obj 0).ev.evmask = eventOut ∧ Interest s 0 := by
  have hquiet : ∀ m : Move, m.NoCall → m.OnlySubmits ∧ m.Accepted 0 := fun m hm =>
    ⟨hm.onlySubmits, fun _ _ hsub => absurd hsub hm.not_submits⟩
  suffices hguard : loopSystem.Guarded (fun _ m => m.OnlySubmits ∧ m.Accepted 0) socketLoop
      readAndWrite from ⟨_, rfl, rfl, loop_interest socketLoop_fresh hguard rfl⟩
  refine .cons ⟨Move.onlySubmits_submit 0 0x5 none, ?_⟩ rfl (.cons (hquiet _ ?_) rfl
    (.cons (hquiet _ ?_) rfl (.cons (hquiet _ ?_) rfl trivial)))
  · rintro evmask verdict (hsub | hsub) <;> cases hsub
    rfl
  all_goals exact ⟨fun o => ⟨nofun, nofun⟩, nofun⟩

/-! ### A socket that is not submitted again -/

/-- The direction has not been fetched in `seen`. -/
def Unfetched (e : ℕ) (f : Filter) (seen : List Move) : Prop :=
  ∀ batch, .fetch batch ∈ seen → (e, f) ∉ batch.map Kevent.key

/-- Until it is fetched the direction stays as it was submitted. Then its filter is
disabled. -/
structure Awaiting (e : ℕ) (f : Filter) (seen : List Move) (s : Loop) : Prop where
  watched : Watched s e
  before : Unfetched e f seen → (s.reactor.obj e).reg.enabled f = true ∧
    (s.reactor.obj e).ev.evmask.has (maskToConsume f) = true ∧ (e, f) ∉ s.pending.map Kevent.key
  after : ¬ Unfetched e f seen → (s.reactor.obj e).reg.enabled f = false

section Awaiting

variable {s s' : Loop} {e : ℕ} {m : Move} {f : Filter} {seen : List Move}

theorem unfetched_append (hfetch : ∀ batch, m ≠ .fetch batch) :
    Unfetched e f (seen ++ [m]) ↔ Unfetched e f seen := by
  refine forall_congr' fun batch => ?_
  rw [List.mem_append, List.mem_singleton, or_iff_left (hfetch batch).symm]

theorem unfetched_append_fetch (batch : List Kevent) :
    Unfetched e f (seen ++ [.fetch batch]) ↔
      Unfetched e f seen ∧ (e, f) ∉ batch.map Kevent.key := by
  constructor
  · exact fun h => ⟨fun batch' hmem => h batch' (List.mem_append_left _ hmem),
      h batch (List.mem_append_right _ (List.mem_singleton_self _))⟩
  · rintro ⟨hseen, hbatch⟩ batch' hmem
    rcases List.mem_append.mp hmem with hmem | hmem
    · exact hseen batch' hmem
    · obtain rfl := Move.fetch.inj (List.mem_singleton.mp hmem)
      exact hbatch

/-- **One step.** -/
theorem Awaiting.step (h : Awaiting e f seen s) (hf : f ∈ filters .sockEv) (hcall : m.NoCall)
    (hnext : loopSystem.next s m = some s') : Awaiting e f (seen ++ [m]) s' := by
  obtain ⟨hwatched, heff⟩ := h.watched.step hcall.onlySubmits hnext
  cases heff with
  | none hm hfetch hobj hpending =>
    refine ⟨hwatched, ?_, ?_⟩
    all_goals
      rw [unfetched_append hfetch, hobj]
    · rw [hpending]
      exact h.before
    · exact h.after
  | submit hm hobj hpending => exact absurd hm hcall.not_submits
  | @fetch batch _ hnone hpending hev hfilters =>
    obtain ⟨hin, hout⟩ := hfilters f hf
    refine ⟨hwatched, fun hunfetched => ?_, fun hfetched => ?_⟩
    · -- a batch without the direction leaves it as it was
      obtain ⟨hseen, hbatch⟩ := (unfetched_append_fetch batch).mp hunfetched
      obtain ⟨hen, hbit, -⟩ := h.before hseen
      exact ⟨(hout hbatch).trans hen, by rw [hev]; exact hbit, by rw [hpending]; exact hbatch⟩
    · rw [unfetched_append_fetch, not_and_or, not_not] at hfetched
      -- it is fetched now, or was before and nothing enables it again
      by_cases hbatch : (e, f) ∈ batch.map Kevent.key
      · exact (hin hbatch).2
      · exact (hout hbatch).trans (h.after (hfetched.resolve_right hbatch))
  | @consume _ ev hpc hreg hev =>
    have hpending : s.pending = ev :: s'.pending := by rw [Loop.pending, hpc]
    refine ⟨hwatched, ?_, ?_⟩
    all_goals
      rw [unfetched_append (m := .consume) nofun, hreg]
    · intro hseen
      obtain ⟨hen, hbit, hentry⟩ := h.before hseen
      rw [hpending, List.map_cons, List.mem_cons, not_or] at hentry
      refine ⟨hen, ?_, hentry.2⟩
      -- the entry that is consumed is not of this direction
      rw [hev]
      split_ifs with hudata
      · have hfilter : ev.filter ≠ f := by
          rintro rfl
          exact hentry.1 (Prod.ext hudata.symm rfl)
        rw [eventConsume_has _ _ hf, hbit, decide_eq_true hfilter]
        rfl
      · exact hbit
    · exact h.after

end Awaiting

/-- **One submit, one delivery.** As long as no thread makes a call, the filter of a
direction that was submitted stays enabled, with its bit set, exactly until the
direction is fetched. -/
theorem loop_awaiting {s s' : Loop} {e : ℕ} {f : Filter} {moves : List Move}
    (hwatched : Watched s e) (hf : f ∈ filters .sockEv)
    (hen : (s.reactor.obj e).reg.enabled f = true)
    (hbit : (s.reactor.obj e).ev.evmask.has (maskToConsume f) = true) (hnone : s.pending = [])
    (hcall : loopSystem.Guarded (fun _ m => m.NoCall) s moves)
    (hrun : loopSystem.run s moves = some s') : Awaiting e f moves s' := by
  refine System.run_history (I := Awaiting e f) (fun seen s m s' h hm hnext => h.step hf hm hnext)
    ⟨hwatched, fun _ => ⟨hen, hbit, ?_⟩, fun hfetched => ?_⟩ hcall hrun
  · rw [hnone]
    exact List.not_mem_nil
  · exact absurd (fun _ hmem => absurd hmem List.not_mem_nil) hfetched

/-! ### How often a direction is delivered -/

/-- One for a step that calls the callback of the event with the flag, else
zero. -/
def Move.delivers (e : ℕ) (flag : Mask) (s : Loop) (m : Move) : ℕ :=
  match m, s.pc with
  | .consume, .dispatch (ev :: _) =>
    if ev.udata = e ∧ ev.evmask.has flag = true ∧ (s.reactor.obj e).ev.cb.isSome = true then 1
    else 0
  | _, _ => 0

/-- One for a submit of the event with the flag that succeeds, else zero. -/
def Move.submits (e : ℕ) (flag : Mask) (s : Loop) (m : Move) : ℕ :=
  match m with
  | .user (.submit i evmask verdict) | .callback (.submit i evmask verdict) =>
    if i = e ∧ evmask.has flag = true ∧
        (eventSubmit kqueue (s.reactor.obj e) evmask verdict).1 = true then 1
    else 0
  | _ => 0

/-- A submit of the event leaves no direction to enable but its own: every other
whose bit is set is enabled still, and the kernel refuses no change, or the first
and with it all. -/
def Move.KeepsArmed (e : ℕ) (s : Loop) (m : Move) : Prop :=
  ∀ evmask verdict, m.Submits e evmask verdict →
    (∀ f ∈ filters .sockEv, (s.reactor.obj e).ev.evmask.has (maskToConsume f) = true →
      evmask.has (maskToConsume f) = false → (s.reactor.obj e).reg.enabled f = true) ∧
    ∀ i, verdict = some i → i = 0 ∨ (submitChanges { (s.reactor.obj e).ev with
      evmask := (s.reactor.obj e).ev.evmask ||| evmask }).length ≤ i

/-- The deliveries of the direction that the socket may still make without another
submit. -/
def Loop.owed (e : ℕ) (f : Filter) (s : Loop) : ℕ :=
  (s.pending.map Kevent.key).count (e, f) +
    if (s.reactor.obj e).reg.enabled f = true then 1 else 0

section Owed

variable {s s' : Loop} {e : ℕ} {m : Move} {f : Filter}

theorem delivers_of_ne_consume (hm : m ≠ .consume) (flag : Mask) :
    m.delivers e flag s = 0 := by
  unfold Move.delivers
  split
  · exact absurd rfl hm
  · rfl

theorem submits_of_submits {evmask : Mask} {verdict : Verdict} (hm : m.Submits e evmask verdict)
    (flag : Mask) : m.submits e flag s = if evmask.has flag = true ∧
      (eventSubmit kqueue (s.reactor.obj e) evmask verdict).1 = true then 1 else 0 := by
  rcases hm with rfl | rfl <;> simp [Move.submits]

/-- A submit that keeps the other directions armed enables a filter only when it
succeeds for its direction. -/
theorem Watched.enabled_of_submit (h : Watched s e) (hf : f ∈ filters .sockEv) {evmask : Mask}
    {verdict : Verdict} (hm : m.Submits e evmask verdict) (harmed : m.KeepsArmed e s)
    (hbefore : (s.reactor.obj e).reg.enabled f = false)
    (hafter : (eventSubmit kqueue (s.reactor.obj e) evmask verdict).2.reg.enabled f = true) :
    evmask.has (maskToConsume f) = true ∧
      (eventSubmit kqueue (s.reactor.obj e) evmask verdict).1 = true := by
  obtain ⟨hothers, hverdict⟩ := harmed evmask verdict hm
  rw [h.submit_obj] at hafter ⊢
  dsimp only at hafter ⊢
  set ev := { (s.reactor.obj e).ev with evmask := (s.reactor.obj e).ev.evmask ||| evmask } with hev
  -- the filter was enabled by this submit, so its bit is set
  have hbit : ev.evmask.has (maskToConsume f) = true := by
    rcases kqPlatSubmit_sock (e := ev) h.sock h.socket verdict (f := f) with hsame | ⟨-, hbit, -⟩
    · rw [Kq.enabled, hsame, ← Kq.enabled, hbefore] at hafter
      cases hafter
    · exact hbit
  -- and it was set by this submit: otherwise the filter was enabled before
  have hmask : evmask.has (maskToConsume f) = true := by
    by_contra hno
    have hold : (s.reactor.obj e).ev.evmask.has (maskToConsume f) = true := by
      rw [hev, Mask.has_or, Bool.or_eq_true] at hbit
      exact hbit.resolve_right hno
    rw [hothers f hf hold (Bool.eq_false_iff.mpr hno)] at hbefore
    cases hbefore
  refine ⟨hmask, ?_⟩
  have haccepted := (kqPlatSubmit_accepted (e := ev) h.sock h.socket hf hbit).1
  cases verdict with
  | none => exact haccepted
  | some i =>
    rcases hverdict i rfl with rfl | hlen
    · -- the kernel refused all of it, so nothing was enabled
      rw [kqPlatSubmit_refused, hbefore] at hafter
      cases hafter
    · rw [kqPlatSubmit_beyond hlen]
      exact haccepted

/-- **One step of the ledger.** -/
theorem Watched.owed_step (h : Watched s e) (h' : Watched s' e) (hf : f ∈ filters .sockEv)
    (harmed : m.KeepsArmed e s) (heff : Effect e s m s') :
    s'.owed e f + m.delivers e (maskToConsume f) s ≤
      s.owed e f + m.submits e (maskToConsume f) s := by
  unfold Loop.owed
  cases heff with
  | none hm hfetch hobj hpending =>
    rw [hobj, hpending, delivers_of_ne_consume hm]
    omega
  | @submit _ _ evmask verdict hm hobj hpending =>
    have hne : m ≠ .consume := by
      rcases hm with rfl | rfl <;> exact nofun
    rw [hobj, hpending, delivers_of_ne_consume hne, submits_of_submits hm]
    -- only a filter that was disabled can add to what is owed
    cases hbefore : (s.reactor.obj e).reg.enabled f with
    | true =>
      rw [if_pos rfl]
      split_ifs <;> omega
    | false =>
      by_cases hafter :
          (eventSubmit kqueue (s.reactor.obj e) evmask verdict).2.reg.enabled f = true
      · rw [if_pos (h.enabled_of_submit hf hm harmed hbefore hafter), if_pos hafter]
        omega
      · rw [if_neg hafter]
        omega
  | @fetch batch _ hnone hpending hev hfilters =>
    rw [delivers_of_ne_consume (m := .fetch batch) nofun, hnone, hpending]
    obtain ⟨hin, hout⟩ := hfilters f hf
    by_cases hmem : (e, f) ∈ batch.map Kevent.key
    · -- the enabled filter becomes an entry
      obtain ⟨hen, hdis⟩ := hin hmem
      have hnd := h'.nodup
      rw [hpending] at hnd
      rw [hen, hdis, List.count_eq_one_of_mem hnd hmem]
      simp
    · rw [hout hmem, List.count_eq_zero_of_not_mem hmem]
      simp
  | @consume _ ev hpc hreg hev =>
    have hpending : s.pending = ev :: s'.pending := by rw [Loop.pending, hpc]
    -- the entry that goes pays for the delivery
    have hdelivers : Move.consume.delivers e (maskToConsume f) s ≤
        if ev.key = (e, f) then 1 else 0 := by
      unfold Move.delivers
      rw [hpc]
      dsimp only
      split_ifs with hd hkey hkey
      · exact le_rfl
      · rw [Kevent.evmask_has _ hf, decide_eq_true_iff] at hd
        exact absurd (Prod.ext hd.1 hd.2.1) hkey
      · exact Nat.zero_le _
      · exact le_rfl
    rw [hreg, hpending, List.map_cons, List.count_cons]
    simp only [beq_iff_eq]
    omega

end Owed

/-- **One delivery for one submit.** In a run whose submits keep the other direction
armed, the socket's callback is called with a direction no more often than it was
submitted successfully with it. -/
theorem loop_delivered_le {s s' : Loop} {e : ℕ} {moves : List Move} (hfresh : Fresh s e)
    (hguard : loopSystem.Guarded (fun s m => m.OnlySubmits ∧ m.KeepsArmed e s) s moves)
    (hrun : loopSystem.run s moves = some s') :
    loopSystem.tally (fun s m => m.delivers e eventIn s) s moves ≤
        loopSystem.tally (fun s m => m.submits e eventIn s) s moves ∧
      loopSystem.tally (fun s m => m.delivers e eventOut s) s moves ≤
        loopSystem.tally (fun s m => m.submits e eventOut s) s moves := by
  have hboth : ∀ f ∈ filters .sockEv,
      loopSystem.tally (fun s m => m.delivers e (maskToConsume f) s) s moves ≤
        loopSystem.tally (fun s m => m.submits e (maskToConsume f) s) s moves := by
    intro f hf
    -- the ledger over the whole run
    have hledger := System.tally_le (I := fun s => Watched s e) (Φ := Loop.owed e f)
      (fun s m s' h hP hnext => (h.step hP.1 hnext).1)
      (fun s m s' h hP hnext =>
        h.owed_step (h.step hP.1 hnext).1 hf hP.2 (h.step hP.1 hnext).2)
      hfresh.toWatched hguard hrun
    -- a fresh socket owes nothing
    have hzero : s.owed e f = 0 := by
      rw [Loop.owed, hfresh.quiet f, List.count_eq_zero_of_not_mem]
      · rfl
      · intro hmem
        obtain ⟨ev, hev, hkey⟩ := List.mem_map.mp hmem
        exact hfresh.noEntry ev hev (congrArg Prod.fst hkey)
    calc loopSystem.tally (fun s m => m.delivers e (maskToConsume f) s) s moves
        ≤ s'.owed e f + loopSystem.tally (fun s m => m.delivers e (maskToConsume f) s) s moves :=
          Nat.le_add_left _ _
      _ ≤ s.owed e f + loopSystem.tally (fun s m => m.submits e (maskToConsume f) s) s moves :=
          hledger
      _ = loopSystem.tally (fun s m => m.submits e (maskToConsume f) s) s moves := by
          rw [hzero, Nat.zero_add]
  exact ⟨hboth .read (by decide), hboth .write (by decide)⟩

theorem loop_delivered_le_socket :
    loopSystem.tally (fun s m => m.delivers 0 eventIn s) socketLoop readAndWrite = 1 ∧
      loopSystem.tally (fun s m => m.delivers 0 eventIn s) socketLoop readAndWrite ≤
        loopSystem.tally (fun s m => m.submits 0 eventIn s) socketLoop readAndWrite := by
  have hquiet : ∀ (s : Loop) (m : Move), m.NoCall → m.OnlySubmits ∧ m.KeepsArmed 0 s :=
    fun s m hm => ⟨hm.onlySubmits, fun _ _ hsub => absurd hsub hm.not_submits⟩
  suffices hguard : loopSystem.Guarded (fun s m => m.OnlySubmits ∧ m.KeepsArmed 0 s) socketLoop
      readAndWrite from ⟨rfl, (loop_delivered_le socketLoop_fresh hguard rfl).1⟩
  refine .cons ⟨Move.onlySubmits_submit 0 0x5 none, ?_⟩ rfl (.cons (hquiet _ _ ?_) rfl
    (.cons (hquiet _ _ ?_) rfl (.cons (hquiet _ _ ?_) rfl trivial)))
  · rintro evmask verdict (hsub | hsub) <;> cases hsub
    refine ⟨fun f _ hbit => ?_, nofun⟩
    -- no bit is set before this submit
    rw [socketLoop_fresh.mask, Mask.has_zero] at hbit
    cases hbit
  all_goals exact ⟨fun o => ⟨nofun, nofun⟩, nofun⟩

/-- The socket is submitted for reading, and for writing while its read entry is in
the batch. That enables the read filter again, and reading is delivered twice. -/
theorem loop_delivered_twice :
    ¬ ∀ moves : List Move, loopSystem.Guarded (fun _ m => m.OnlySubmits) socketLoop moves →
      loopSystem.tally (fun s m => m.delivers 0 eventIn s) socketLoop moves ≤
        loopSystem.tally (fun s m => m.submits 0 eventIn s) socketLoop moves := by
  intro h
  have hown : ∀ m : Move, m.NoCall → m.OnlySubmits := fun m hm => hm.onlySubmits
  have hmoves := h [.user (.submit 0 0x1 none), .test, .fetch [{ udata := 0, filter := .read }],
    .user (.submit 0 0x4 none), .consume, .ret, .finish, .test,
    .fetch [{ udata := 0, filter := .read }], .consume] ?_
  · exact absurd hmoves (by decide)
  · refine .cons (Move.onlySubmits_submit _ _ _) rfl (.cons (hown _ ?_) rfl (.cons (hown _ ?_) rfl
      (.cons (Move.onlySubmits_submit _ _ _) rfl (.cons (hown _ ?_) rfl (.cons (hown _ ?_) rfl
      (.cons (hown _ ?_) rfl (.cons (hown _ ?_) rfl (.cons (hown _ ?_) rfl
      (.cons (hown _ ?_) rfl trivial)))))))))
    all_goals exact ⟨fun o => ⟨nofun, nofun⟩, nofun⟩

end Posixc
