import PosixCommons.Reactor.Threads

/-!
# Calls that are not interrupted

The steps of `lifecycle`, in which a call is one step and `malloc` gives no memory twice,
are the runs of the threads in which each call is made by a thread alone, to its end.
-/

open Framework

namespace Posixc

variable {κ : Type} {P : Platform κ} {r r' : Reactor κ} {e : ℕ}

/-- No thread is in a call but one, at `p`. -/
def Threads.alone (r : Reactor κ) (owner : Option Thread) (t : Thread) (p : Place) : Threads κ :=
  ({ Threads.idle r with owner := owner } : Threads κ).goTo t p

theorem Threads.alone_outside (r : Reactor κ) (t : Thread) :
    Threads.alone r none t .outside = Threads.idle r := by
  unfold Threads.alone Threads.idle Threads.goTo
  rw [Function.update_eq_self]

theorem Threads.alone_go {r : Reactor κ} {owner : Option Thread} {t : Thread} {p : Place}
    (hheld : ∀ e, p.event = some e → r.Holds e) :
    (Threads.alone r owner t p).go P t = (Threads.alone r owner t p).goFrom P t p := by
  have hplace : (Threads.alone r owner t p).place t = p := Threads.goTo_place_self
  rw [Threads.go, hplace]
  exact if_pos hheld

/-- The lone thread comes to another place. -/
theorem Threads.alone_goTo (r r' : Reactor κ) (owner owner' : Option Thread) (t : Thread)
    (p q : Place) : ({ Threads.alone r owner t p with reactor := r', owner := owner' } :
      Threads κ).goTo t q = Threads.alone r' owner' t q := by
  unfold Threads.alone Threads.goTo Threads.idle
  dsimp only
  rw [Function.update_idem]

/-- One of the reactor's callers by whether it is the reactor's thread. -/
def Thread.of (isReactor : Bool) : Thread := if isReactor then .reactor else .user 0

@[simp] theorem Thread.of_isReactor (isReactor : Bool) :
    (Thread.of isReactor).isReactor = isReactor := by
  cases isReactor <;> rfl

/-- The steps of a thread whose call is not interrupted. -/
inductive Uninterrupted : Step → List ThreadStep → Prop where
  | op (isReactor : Bool) (o : Op) (chunk n : ℕ) : Uninterrupted (.op isReactor o)
      (.call (Thread.of isReactor) o chunk :: List.replicate n (.go (Thread.of isReactor)))
  | gc (isReactor : Bool) (n : ℕ) : Uninterrupted (.gc isReactor)
      (.gc (Thread.of isReactor) :: List.replicate n (.go (Thread.of isReactor)))

section Uninterrupted

variable {fds : FdTable} {timerIds : ℕ} {owner : Option Thread} {t : Thread}

/-- A thread that goes on alone. -/
theorem run_go {w w' : Threads κ} (hgo : w.go P t = some w') (n : ℕ) :
    (threads P fds timerIds).run w (List.replicate (n + 1) (.go t)) =
      (threads P fds timerIds).run w' (List.replicate n (.go t)) := by
  have hnext : (threads P fds timerIds).next w (.go t) = some w' := hgo
  rw [List.replicate_succ, System.run_cons, hnext]
  rfl

theorem alone_stopping (hold : r.Holds e) (inGc : Bool) (stage : StopStage) :
    (Threads.alone r owner t (.stopping inGc e stage)).go P t =
      some (Threads.alone (stage.run P r e) owner t
        (match stage.next with
          | some stage => .stopping inGc e stage
          | none => if t.isReactor then .releasing inGc e else .locking inGc e)) := by
  rw [Threads.alone_go fun i hi => Option.some.inj hi ▸ hold]
  exact congrArg some (Threads.alone_goTo r _ owner owner t _ _)

theorem alone_releasing (hold : r.Holds e) (inGc : Bool) :
    (Threads.alone r owner t (.releasing inGc e)).go P t =
      some (Threads.alone (eventRelease P r e) owner t (.after inGc)) := by
  rw [Threads.alone_go fun i hi => Option.some.inj hi ▸ hold]
  exact congrArg some (Threads.alone_goTo r _ owner owner t _ _)

theorem alone_destroying (hold : r.Holds e) (hclosing : (r.obj e).ev.closing = true) :
    (Threads.alone r owner t (.destroying e)).go P t = some (Threads.alone r owner t
      (if t.isReactor then .releasing true e else .collecting)) := by
  have htested : (Threads.alone r owner t (.destroying e)).tested t true e =
      if t.isReactor then .releasing true e else .collecting := if_pos hclosing
  rw [Threads.alone_go fun i hi => Option.some.inj hi ▸ hold, Threads.goFrom, htested]
  exact congrArg some (Threads.alone_goTo r _ owner owner t _ _)

/-- The lines that stop an event. -/
theorem run_eventStop (hold : r.Holds e) (inGc : Bool) (m : ℕ) : (threads P fds timerIds).run
    (Threads.alone r owner t (.stopping inGc e .close)) (List.replicate (m + 3) (.go t)) =
      (threads P fds timerIds).run (Threads.alone (eventStop P r e) owner t
        (if t.isReactor then .releasing inGc e else .locking inGc e))
        (List.replicate m (.go t)) := by
  have hclose : (StopStage.close.run P r e).Holds e := StopStage.close.run_holds.mpr hold
  have hunregister : (StopStage.unregister.run P (StopStage.close.run P r e) e).Holds e :=
    StopStage.unregister.run_holds.mpr hclose
  calc (threads P fds timerIds).run
        (Threads.alone r owner t (.stopping inGc e .close)) (List.replicate (m + 3) (.go t))
      = (threads P fds timerIds).run (Threads.alone (StopStage.close.run P r e) owner t
          (.stopping inGc e .unregister)) (List.replicate (m + 2) (.go t)) :=
        run_go (alone_stopping hold inGc .close) _
    _ = (threads P fds timerIds).run
          (Threads.alone (StopStage.unregister.run P (StopStage.close.run P r e) e) owner t
            (.stopping inGc e .shutdown)) (List.replicate (m + 1) (.go t)) :=
        run_go (alone_stopping hclose inGc .unregister) _
    _ = _ := by
        rw [run_go (alone_stopping hunregister inGc .shutdown), StopStage.run_all]
        rfl

/-- The thread takes the mutex, lists the event and gives the mutex back. -/
theorem run_addToGcList (hold : r.Holds e) (m : ℕ) : (threads P fds timerIds).run
    (Threads.alone r none t (.locking false e)) (List.replicate (m + 2) (.go t)) =
      (threads P fds timerIds).run
        (Threads.idle { r with gcEvents := r.gcEvents ++ [e] }) (List.replicate m (.go t)) := by
  have hlock : (Threads.alone r none t (.locking false e)).go P t =
      some (Threads.alone r (some t) t (.adding false e)) := by
    rw [Threads.alone_go fun i hi => Option.some.inj hi ▸ hold]
    exact congrArg some (Threads.alone_goTo r _ none _ t _ _)
  have hadd : (Threads.alone r (some t) t (.adding false e)).go P t =
      some (Threads.idle { r with gcEvents := r.gcEvents ++ [e] }) := by
    rw [Threads.alone_go fun i hi => Option.some.inj hi ▸ hold, ← Threads.alone_outside _ t]
    exact congrArg some (Threads.alone_goTo r _ (some t) _ t _ _)
  rw [run_go hlock, run_go hadd]

theorem alone_gcLocking : (Threads.alone r none t .gcLocking).go P t =
    some (Threads.alone r (some t) t .collecting) := by
  rw [Threads.alone_go (p := .gcLocking) nofun]
  exact congrArg some (Threads.alone_goTo r _ none _ t _ _)

variable (fds) (timerIds)

/-- **A destroy without interruption.** -/
theorem run_eventDestroy (hold : r.Holds e)
    (h : eventDestroy P t.isReactor false r e = some r') :
    ∃ n, (threads P fds timerIds).run (Threads.idle r)
      (.call t (.destroy e) 0 :: List.replicate n (.go t)) = some (Threads.idle r') := by
  -- the call tests `closing`
  have hcall : (threads P fds timerIds).next (Threads.idle r) (.call t (.destroy e) 0) =
      some (Threads.alone r none t ((Threads.idle r).tested t false e)) := by
    change Threads.call P (Threads.idle r) t 0 (.destroy e) = _
    rw [Threads.call]
    exact if_pos hold
  have htested : (Threads.idle r).tested t false e = if (r.obj e).ev.closing then
      if t.isReactor then .releasing false e else .outside else .stopping false e .close := rfl
  rcases eventDestroy_cases h with ⟨hclosing, ht, rfl⟩ | ⟨hclosing, ht, rfl⟩ |
    ⟨hopen, ht, rfl⟩ | ⟨hopen, ht, -, rfl⟩
  · refine ⟨1, ?_⟩
    rw [System.run_cons, hcall, htested, if_pos hclosing, if_pos ht, Option.bind_some,
      run_go (alone_releasing hold false)]
    exact congrArg some (Threads.alone_outside _ t)
  · refine ⟨0, ?_⟩
    rw [System.run_cons, hcall, htested, if_pos hclosing, ht]
    exact congrArg some (Threads.alone_outside _ t)
  · have hheld : (eventStop P r e).Holds e := hold
    refine ⟨1 + 3, ?_⟩
    rw [System.run_cons, hcall, htested, hopen, if_neg Bool.false_ne_true, Option.bind_some,
      run_eventStop hold, if_pos ht, run_go (alone_releasing hheld false)]
    exact congrArg some (Threads.alone_outside _ t)
  · have hheld : (eventStop P r e).Holds e := hold
    refine ⟨0 + 2 + 3, ?_⟩
    rw [System.run_cons, hcall, htested, hopen, if_neg Bool.false_ne_true, Option.bind_some,
      run_eventStop hold, ht, if_neg Bool.false_ne_true, run_addToGcList hheld]
    rfl

/-- **A collection without interruption,** after it has taken the mutex. -/
theorem run_reactorGcLoop (list : List ℕ) :
    ∀ r : Reactor κ, Custody r → r.gcEvents = list →
      reactorGcLoop P t.isReactor list r = some r' →
      ∃ n, (threads P fds timerIds).run (Threads.alone r (some t) t .collecting)
        (List.replicate n (.go t)) = some (Threads.idle r') := by
  induction list with
  | nil =>
    intro r _ hlist hrun
    obtain rfl := Option.some.inj hrun
    have hgo : (Threads.alone r (some t) t .collecting).go P t = some (Threads.idle r) := by
      have hnil : (Threads.alone r (some t) t .collecting).reactor.gcEvents = [] := hlist
      rw [Threads.alone_go (p := .collecting) nofun, Threads.goFrom, hnil,
        ← Threads.alone_outside r t]
      exact congrArg some (Threads.alone_goTo r r (some t) none t _ _)
    exact ⟨1, run_go hgo 0⟩
  | cons tmp rest ih =>
    intro r hcustody hlist hrun
    -- the event comes off the list, and is found closing
    obtain ⟨hold, hclosing, hnot, hrest⟩ := hcustody.unlist hlist
    have hgo : (Threads.alone r (some t) t .collecting).go P t = some
        (Threads.alone { r with gcEvents := rest } (some t) t (.destroying tmp)) := by
      have hcons : (Threads.alone r (some t) t .collecting).reactor.gcEvents = tmp :: rest := hlist
      rw [Threads.alone_go (p := .collecting) nofun, Threads.goFrom, hcons]
      refine (if_pos hold).trans ?_
      exact congrArg some (Threads.alone_goTo r _ (some t) (some t) t _ _)
    have htest : (Threads.alone { r with gcEvents := rest } (some t) t (.destroying tmp)).go P t =
        some (Threads.alone { r with gcEvents := rest } (some t) t
          (if t.isReactor then .releasing true tmp else .collecting)) :=
      alone_destroying hold hclosing
    rw [reactorGcLoop] at hrun
    obtain ⟨r₁, hdestroy, hloop⟩ := Option.bind_eq_some_iff.mp hrun
    rcases eventDestroy_cases hdestroy with ⟨-, ht, rfl⟩ | ⟨-, ht, rfl⟩ | ⟨hopen, -⟩ |
      ⟨-, -, hfalse, -⟩
    · obtain ⟨m, hm⟩ := ih _ (hrest.release hold hnot) rfl hloop
      refine ⟨m + 1 + 1 + 1, ?_⟩
      rw [run_go hgo, run_go htest, if_pos ht,
        run_go (alone_releasing (r := { r with gcEvents := rest }) hold true)]
      exact hm
    · obtain ⟨m, hm⟩ := ih _ hrest rfl hloop
      refine ⟨m + 1 + 1, ?_⟩
      rw [run_go hgo, run_go htest, ht, if_neg Bool.false_ne_true]
      exact hm
    · exact absurd (hclosing.symm.trans hopen) (Bool.false_ne_true ∘ Eq.symm)
    · cases hfalse

end Uninterrupted

/-- **The calls as one step each are runs of the threads,** as long as no callback destroys
a listed event. -/
theorem lifecycle_threads {fds : FdTable} {timerIds : ℕ} {steps : List Step}
    (hcustody : Custody r)
    (hguard : (lifecycle P fds timerIds).Guarded (fun r s => ¬ s.DestroysListed r) r steps)
    (hrun : (lifecycle P fds timerIds).run r steps = some r') :
    ∃ runs, List.Forall₂ Uninterrupted steps runs ∧
      (threads P fds timerIds).run (Threads.idle r) runs.flatten = some (Threads.idle r') := by
  refine System.run_project_guarded (I := Custody) (fun r s r' h hP hnext => h.step hP hnext)
    (fun r s r' h _ hnext => ?_) hcustody hguard hrun
  cases s with
  | op isReactor o =>
    change o.apply P isReactor r = some r' at hnext
    rw [← Thread.of_isReactor isReactor] at hnext
    by_cases hdestroy : ∃ e, o = .destroy e
    · obtain ⟨e, rfl⟩ := hdestroy
      rw [Op.apply] at hnext
      split_ifs at hnext with hold
      obtain ⟨n, hn⟩ := run_eventDestroy fds timerIds hold hnext
      exact ⟨_, .op isReactor (.destroy e) 0 n, hn⟩
    · -- `malloc` returns memory that it has not given yet
      have hcall : (threads P fds timerIds).next (Threads.idle r)
          (.call (Thread.of isReactor) o r.created) = some (Threads.idle r') := by
        change Threads.call P (Threads.idle r) _ _ o = _
        rw [Threads.call_eq fun e he => hdestroy ⟨e, he⟩]
        exact Option.map_eq_some_iff.mpr ⟨r', (Op.applyIn_created h.released_lt _).trans hnext, rfl⟩
      refine ⟨_, .op isReactor o r.created 0, ?_⟩
      rw [System.run_cons, hcall]
      rfl
  | gc isReactor =>
    change reactorGc P isReactor r = some r' at hnext
    rw [← Thread.of_isReactor isReactor] at hnext
    obtain ⟨n, hn⟩ := run_reactorGcLoop fds timerIds r.gcEvents r h rfl hnext
    refine ⟨_, .gc isReactor (n + 1), ?_⟩
    have hcall : (threads P fds timerIds).next (Threads.idle r) (.gc (Thread.of isReactor)) =
        some (Threads.alone r none (Thread.of isReactor) .gcLocking) := rfl
    rw [System.run_cons, hcall, Option.bind_some, run_go alone_gcLocking]
    exact hn

end Posixc
