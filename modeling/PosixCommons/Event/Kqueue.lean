import PosixCommons.Event.Basic

/-!
# Events on kqueue

`mac/event_kq.c`. The kernel keeps a knote for each filter that is registered
for an event, and `kevent` works through a list of changes to the knotes: it
stops at the first that it refuses or that names no knote. The registration of an
event is its own knotes, which is right where no other event has its identifier under
one of its filters (`Fresh.sole` asks it of a socket that is followed).
When a filter is ready is left to the environment, so `EV_CLEAR`, which only
bears on that, is not kept. What delivering a filter does to its knote is
`deliver`: `EV_ONESHOT` removes it, `EV_DISPATCH` disables it.

`Live` is what every function here keeps of an event that is not released: it has
knotes of its own filters only, and the two of a socket come and go together. A destroy
takes all of them (`Live.platDestroy`), and nothing gives a closing event new ones.
-/

namespace Posixc

/-- The filters that events use. -/
inductive Filter where
  | read
  | write
  | timer
  | user
  | signal
  deriving DecidableEq

/-- The flags of a change that bear on its knote. -/
structure Flags where
  add : Bool := false
  delete : Bool := false
  enable : Bool := false
  disable : Bool := false
  dispatch : Bool := false
  oneshot : Bool := false
  deriving DecidableEq

/-- A `struct kevent` passed to the kernel. Its identifier and `udata` are those
of the event. -/
structure Change where
  filter : Filter
  flags : Flags
  data : ℕ := 0
  deriving DecidableEq

/-- A registered filter. -/
structure Knote where
  enabled : Bool
  dispatch : Bool
  oneshot : Bool
  data : ℕ
  deriving DecidableEq

/-- The knotes of one event. -/
abbrev Kq := Filter → Option Knote

/-! ### The kernel -/

/-- A knote after a change that does not delete it. -/
def Knote.modify (kn : Knote) (c : Change) : Knote where
  enabled := (kn.enabled || c.flags.enable) && !c.flags.disable
  dispatch := kn.dispatch || c.flags.dispatch
  oneshot := kn.oneshot || c.flags.oneshot
  data := c.data

/-- One change. `none` is the error for a knote that is not there. -/
def applyChange (c : Change) : Option Knote → Option (Option Knote)
  | none =>
    if c.flags.delete then none
    else if c.flags.add then some (some (Knote.modify ⟨true, false, false, 0⟩ c))
    else none
  | some kn => if c.flags.delete then some none else some (some (kn.modify c))

/-- `kevent_set`. -/
def keventSet : Verdict → List Change → Kq → Bool × Kq
  | _, [], k => (true, k)
  | verdict, c :: cs, k =>
    -- an error stops the list, and what was done before it stays done
    if verdict = some 0 then (false, k)
    else match applyChange c (k c.filter) with
      | none => (false, k)
      | some kn => keventSet (verdict.map Nat.pred) cs (Function.update k c.filter kn)

/-- Putting an entry for the filter in a batch. `none` when it cannot be: the
filter is not registered, or is disabled. -/
def deliver (k : Kq) (f : Filter) : Option Kq :=
  match k f with
  | none => none
  | some kn =>
    if kn.enabled then
      some (Function.update k f
        (if kn.oneshot then none else some { kn with enabled := !kn.dispatch }))
    else none

/-! ### Changes -/

/-- `ev_newly_add`. -/
def evNewlyAdd : Flags := { add := true, disable := true }

/-- `ev_submit`. -/
def evSubmit : Flags := { enable := true, dispatch := true }

/-- `register_write`. -/
def registerWrite (_ : Event) : Change := { filter := .write, flags := evNewlyAdd }
/-- `register_read`. -/
def registerRead (_ : Event) : Change := { filter := .read, flags := evNewlyAdd }
/-- `register_timer`. -/
def registerTimer (e : Event) : Change :=
  { filter := .timer, flags := evNewlyAdd, data := e.data2 }
/-- `register_user`. -/
def registerUser (_ : Event) : Change := { filter := .user, flags := evNewlyAdd }
/-- `register_sig`. -/
def registerSig (_ : Event) : Change := { filter := .signal, flags := evNewlyAdd }

/-- `del_write`. -/
def delWrite (_ : Event) : Change := { filter := .write, flags := { delete := true } }
/-- `del_read`. -/
def delRead (_ : Event) : Change := { filter := .read, flags := { delete := true } }
/-- `del_timer`. -/
def delTimer (e : Event) : Change :=
  { filter := .timer, flags := { delete := true }, data := e.data2 }
/-- `del_sig`. -/
def delSig (_ : Event) : Change := { filter := .signal, flags := { delete := true } }
/-- `del_user`. -/
def delUser (_ : Event) : Change := { filter := .user, flags := { delete := true } }

/-- `submit_read`. -/
def submitRead (_ : Event) : Change := { filter := .read, flags := evSubmit }
/-- `submit_write`. -/
def submitWrite (_ : Event) : Change := { filter := .write, flags := evSubmit }
/-- `submit_sig`. It does not ask for `EV_DISPATCH`. -/
def submitSig (_ : Event) : Change := { filter := .signal, flags := { enable := true } }
/-- `submit_timer`. -/
def submitTimer (e : Event) : Change :=
  { filter := .timer, flags := { enable := true, oneshot := e.data1 == 1 }, data := e.data2 }
/-- `submit_user`. -/
def submitUser (_ : Event) : Change := { filter := .user, flags := evSubmit }

/-! ### The platform -/

/-- The changes of a create. `none` is the `default` of the `switch`. -/
def createChanges (e : Event) : Option (List Change) :=
  match e.type with
  | .sockEv => some [registerRead e, registerWrite e]
  | .sigEv => some [registerSig e]
  | .userEv => some [registerUser e]
  | .timerEv => some [registerTimer e]
  | .unknown => none

/-- `posixc_event_plat_create`. -/
def kqPlatCreate (e : Event) (k : Kq) (verdict : Verdict) : Bool × Kq :=
  match createChanges e with
  | none => (false, k)
  | some cs => keventSet verdict cs k

/-- The changes of a destroy. -/
def destroyChanges (e : Event) : Option (List Change) :=
  match e.type with
  | .sockEv => some [delRead e, delWrite e]
  | .sigEv => some [delSig e]
  | .userEv => some [delUser e]
  | .timerEv => some [delTimer e]
  | .unknown => none

/-- `posixc_event_plat_destroy`. -/
def kqPlatDestroy (e : Event) (k : Kq) : Bool × Kq :=
  match destroyChanges e with
  | none => (false, k)
  | some cs => keventSet none cs k

/-- The changes that a submit may make, each with the flag that it is for. -/
def submitCandidates (e : Event) : List (Mask × Change) :=
  match e.type with
  | .sockEv => [(eventIn, submitRead e), (eventOut, submitWrite e)]
  | .sigEv => [(eventSig, submitSig e)]
  | .userEv => [(eventUser, submitUser e)]
  | .timerEv => [(eventTimer, submitTimer e)]
  | .unknown => []

/-- The changes of a submit: those whose flag is in the mask. -/
def submitChanges (e : Event) : List Change :=
  ((submitCandidates e).filter fun c => e.evmask.has c.1).map Prod.snd

/-- `posixc_event_plat_submit`. -/
def kqPlatSubmit (e : Event) (k : Kq) (verdict : Verdict) : Bool × Kq :=
  if submitChanges e = [] then (false, k) else keventSet verdict (submitChanges e) k

/-- `event_kq.c`. Closing a descriptor removes the knotes that watch it. -/
def kqueue : Platform Kq where
  unregistered := fun _ => none
  platCreate := kqPlatCreate
  platDestroy := kqPlatDestroy
  platSubmit := kqPlatSubmit
  descriptorClosed _ k := Function.update (Function.update k .read none) .write none

/-- What `consume_ev` takes from the mask for an entry of the filter, errors
apart. -/
def maskToConsume : Filter → Mask
  | .read => eventIn
  | .write => eventOut
  | .signal => eventSig
  | .timer => 0
  | .user => eventUser

/-! ### Sequences of changes -/

/-- A filter that no change names keeps its knote. -/
theorem keventSet_other {f : Filter} (cs : List Change) :
    ∀ (verdict : Verdict) (k : Kq), (∀ c ∈ cs, c.filter ≠ f) →
      (keventSet verdict cs k).2 f = k f := by
  induction cs with
  | nil => intro verdict k _; rfl
  | cons c cs ih =>
    intro verdict k hf
    rw [keventSet]
    split_ifs with hv
    · rfl
    cases happ : applyChange c (k c.filter) with
    | none => rfl
    | some kn =>
      -- the change is to another cell, and so are those that follow
      dsimp only
      rw [ih _ _ fun c' hc' => hf c' (List.mem_cons_of_mem _ hc'),
        Function.update_of_ne (hf c List.mem_cons_self).symm]

/-- Changes to different filters act each on the knote that was there. -/
theorem keventSet_cell (cs : List Change) :
    ∀ (verdict : Verdict) (k : Kq), (cs.map Change.filter).Nodup → ∀ f,
      (keventSet verdict cs k).2 f = k f ∨
        ∃ c ∈ cs, c.filter = f ∧ applyChange c (k f) = some ((keventSet verdict cs k).2 f) := by
  induction cs with
  | nil => intro verdict k _ f; exact .inl rfl
  | cons c cs ih =>
    intro verdict k hnd f
    rw [List.map_cons, List.nodup_cons] at hnd
    rw [keventSet]
    split_ifs with hv
    · exact .inl rfl
    cases happ : applyChange c (k c.filter) with
    | none => exact .inl rfl
    | some kn =>
      dsimp only
      by_cases hf : c.filter = f
      · -- the changes that follow are to other filters
        subst hf
        have hother : ∀ c' ∈ cs, c'.filter ≠ c.filter := fun c' hc' h =>
          hnd.1 (h ▸ List.mem_map_of_mem hc')
        rw [keventSet_other cs _ _ hother, Function.update_self]
        exact .inr ⟨c, List.mem_cons_self, rfl, happ⟩
      · -- the change is to another filter, whose cell the rest finds as it was
        rcases ih (verdict.map Nat.pred) (Function.update k c.filter kn) hnd.2 f with h | h
        · rw [h, Function.update_of_ne (Ne.symm hf)]
          exact .inl rfl
        · obtain ⟨c', hc', hfilter, hcell⟩ := h
          rw [Function.update_of_ne (Ne.symm hf)] at hcell
          exact .inr ⟨c', List.mem_cons_of_mem _ hc', hfilter, hcell⟩

/-- Changes that succeed all take place. -/
theorem keventSet_true (cs : List Change) :
    ∀ (verdict : Verdict) (k : Kq), (cs.map Change.filter).Nodup →
      (keventSet verdict cs k).1 = true →
      ∀ c ∈ cs, applyChange c (k c.filter) = some ((keventSet verdict cs k).2 c.filter) := by
  induction cs with
  | nil => intro verdict k _ _ c hc; exact absurd hc List.not_mem_nil
  | cons c cs ih =>
    intro verdict k hnd hok
    rw [List.map_cons, List.nodup_cons] at hnd
    have hother : ∀ c' ∈ cs, c'.filter ≠ c.filter := fun c' hc' h =>
      hnd.1 (h ▸ List.mem_map_of_mem hc')
    -- a success did not stop at this change
    rw [keventSet] at hok ⊢
    split_ifs at hok ⊢ with hv
    cases happ : applyChange c (k c.filter) with
    | none => rw [happ] at hok; cases hok
    | some kn =>
      rw [happ] at hok
      intro c' hc'
      rcases List.mem_cons.mp hc' with rfl | hc'
      · -- this change: the rest leaves its cell
        rw [happ]
        dsimp only
        rw [keventSet_other cs _ _ hother, Function.update_self]
      · -- a later change: it finds its cell as it was before this one
        rw [← Function.update_of_ne (hother c' hc') kn k]
        exact ih _ _ hnd.2 hok c' hc'

/-- Changes that the kernel refuses none of, and that find their knotes,
succeed. -/
theorem keventSet_accepted (cs : List Change) :
    ∀ k : Kq, (cs.map Change.filter).Nodup →
      (∀ c ∈ cs, ∃ kn, applyChange c (k c.filter) = some kn) →
      (keventSet none cs k).1 = true := by
  induction cs with
  | nil => intro k _ _; rfl
  | cons c cs ih =>
    intro k hnd hacc
    rw [List.map_cons, List.nodup_cons] at hnd
    obtain ⟨kn, happ⟩ := hacc c List.mem_cons_self
    rw [keventSet, if_neg (by simp), happ]
    refine ih _ hnd.2 fun c' hc' => ?_
    -- the first change leaves what the others need
    have hother : c'.filter ≠ c.filter := fun h => hnd.1 (h ▸ List.mem_map_of_mem hc')
    rw [Function.update_of_ne hother]
    exact hacc c' (List.mem_cons_of_mem _ hc')

/-- Refusing a change beyond the last is refusing none. -/
theorem keventSet_beyond (cs : List Change) :
    ∀ (i : ℕ) (k : Kq), cs.length ≤ i → keventSet (some i) cs k = keventSet none cs k := by
  induction cs with
  | nil => intro i k _; rfl
  | cons c cs ih =>
    intro i k hi
    -- the refused change is not this one
    have hpos : i ≠ 0 := Nat.ne_zero_of_lt hi
    rw [keventSet, keventSet, if_neg (by rwa [Option.some_inj]), if_neg nofun]
    cases happ : applyChange c (k c.filter) with
    | none => rfl
    | some kn => exact ih (i - 1) _ (Nat.le_pred_of_lt hi)

/-! ### Changes of an event -/

/-- The filters of the events of a type. -/
def filters : EventType → List Filter
  | .sockEv => [.read, .write]
  | .timerEv => [.timer]
  | .userEv => [.user]
  | .sigEv => [.signal]
  | .unknown => []

/-- Whether the filter is registered and enabled. -/
def Kq.enabled (k : Kq) (f : Filter) : Bool := (k f).any Knote.enabled

theorem mem_submitChanges {e : Event} {c : Change} :
    c ∈ submitChanges e ↔ ∃ flag, (flag, c) ∈ submitCandidates e ∧ e.evmask.has flag = true := by
  simp [submitChanges]

/-- The changes of a submit are to different filters. -/
theorem submitChanges_nodup (e : Event) : ((submitChanges e).map Change.filter).Nodup := by
  -- those that are in the mask are some of the candidates
  have hall : (((submitCandidates e).map Prod.snd).map Change.filter).Nodup := by
    unfold submitCandidates
    cases e.type <;> simp [submitRead, submitWrite]
  exact hall.sublist ((List.filter_sublist.map _).map _)

/-- A submit names filters of the event, which it enables. -/
theorem submitChanges_flags {e : Event} {c : Change} (h : c ∈ submitChanges e) :
    c.filter ∈ filters e.type ∧ c.flags.delete = false ∧ c.flags.add = false := by
  obtain ⟨flag, hc, -⟩ := mem_submitChanges.mp h
  unfold submitCandidates at hc
  cases htype : e.type <;> rw [htype] at hc <;>
    simp [submitRead, submitWrite, submitTimer, submitUser, submitSig, evSubmit] at hc
  case sockEv => rcases hc with ⟨-, rfl⟩ | ⟨-, rfl⟩ <;> simp [filters]
  all_goals
    obtain ⟨-, rfl⟩ := hc
    simp [filters]

/-- The changes of a submit on a socket: one for each direction in the mask. -/
theorem mem_submitChanges_sock {e : Event} (hsock : e.type = .sockEv) {c : Change} :
    c ∈ submitChanges e ↔ ∃ f ∈ filters .sockEv,
      c = { filter := f, flags := evSubmit } ∧ e.evmask.has (maskToConsume f) = true := by
  rw [mem_submitChanges, submitCandidates, hsock]
  constructor
  · rintro ⟨flag, hc, hflag⟩
    rcases List.mem_pair.mp hc with h | h
    · obtain ⟨rfl, rfl⟩ := Prod.mk.inj h
      exact ⟨.read, by simp [filters], rfl, hflag⟩
    · obtain ⟨rfl, rfl⟩ := Prod.mk.inj h
      exact ⟨.write, by simp [filters], rfl, hflag⟩
  · rintro ⟨f, hf, rfl, hflag⟩
    rcases List.mem_pair.mp hf with rfl | rfl
    · exact ⟨eventIn, by simp [submitRead], hflag⟩
    · exact ⟨eventOut, by simp [submitWrite], hflag⟩

theorem createChanges_spec {e : Event} {cs : List Change} (h : createChanges e = some cs) :
    cs.map Change.filter = filters e.type ∧ ∀ c ∈ cs, c.flags = evNewlyAdd := by
  unfold createChanges at h
  cases htype : e.type <;> rw [htype] at h <;> cases h
  all_goals exact ⟨rfl, by simp [registerRead, registerWrite, registerTimer, registerUser,
    registerSig]⟩

theorem destroyChanges_spec {e : Event} {cs : List Change} (h : destroyChanges e = some cs) :
    cs.map Change.filter = filters e.type ∧ ∀ c ∈ cs, c.flags = { delete := true } := by
  unfold destroyChanges at h
  cases htype : e.type <;> rw [htype] at h <;> cases h
  all_goals exact ⟨rfl, by simp [delRead, delWrite, delTimer, delUser, delSig]⟩

theorem filters_nodup (t : EventType) : (filters t).Nodup := by
  cases t <;> decide

/-! ### Registered events -/

/-- A knote of a socket: when enabled it is delivered once. -/
def Knote.Once (kn : Knote) : Prop := kn.oneshot = false ∧ (kn.enabled = true → kn.dispatch = true)

/-- Both knotes of a socket are there. -/
def Kq.Socket (k : Kq) : Prop := ∀ f ∈ filters .sockEv, ∃ kn, k f = some kn ∧ kn.Once

/-- No filter can be delivered. -/
def Kq.Quiet (k : Kq) : Prop := ∀ f, k.enabled f = false

/-- What holds of every event that is not released. -/
structure Live (o : Obj Kq) : Prop where
  own : ∀ f, f ∉ filters o.ev.type → o.reg f = none
  sock : o.ev.type = .sockEv → (∀ f, o.reg f = none) ∨ o.reg.Socket

/-- The rest of the event does not matter. -/
theorem Live.of_ev {o : Obj Kq} (h : Live o) {ev : Event} (htype : ev.type = o.ev.type) :
    Live ⟨ev, o.reg⟩ :=
  ⟨by rw [htype]; exact h.own, by rw [htype]; exact h.sock⟩

theorem Live.of_none {o : Obj Kq} (h : ∀ f, o.reg f = none) : Live o :=
  ⟨fun f _ => h f, fun _ => .inl h⟩

theorem Kq.quiet_of_none {k : Kq} (h : ∀ f, k f = none) : k.Quiet := fun f => by
  rw [Kq.enabled, h f]
  rfl

/-- **Inverting a delivery.** -/
theorem deliver_eq_some {k k' : Kq} {f : Filter} :
    deliver k f = some k' ↔ ∃ kn, k f = some kn ∧ kn.enabled = true ∧
      k' = Function.update k f
        (if kn.oneshot then none else some { kn with enabled := !kn.dispatch }) := by
  unfold deliver
  cases hk : k f with
  | none => simp
  | some kn =>
    dsimp only
    constructor
    · intro h
      split_ifs at h with hen honce
      · exact ⟨kn, rfl, hen, by rw [if_pos honce]; exact (Option.some.inj h).symm⟩
      · exact ⟨kn, rfl, hen, by rw [if_neg honce]; exact (Option.some.inj h).symm⟩
    · rintro ⟨kn', hkn', hen, rfl⟩
      obtain rfl : kn = kn' := Option.some.inj hkn'
      rw [if_pos hen]

/-- What is put in a batch was enabled, and after it a socket's filter is not. -/
theorem deliver_enabled {k k' : Kq} {f : Filter} (h : deliver k f = some k') :
    k.enabled f = true := by
  obtain ⟨kn, hk, hen, -⟩ := deliver_eq_some.mp h
  rw [Kq.enabled, hk]
  exact hen

theorem deliver_of_ne {k k' : Kq} {f f' : Filter} (h : deliver k f = some k') (hne : f' ≠ f) :
    k' f' = k f' := by
  obtain ⟨kn, -, -, rfl⟩ := deliver_eq_some.mp h
  exact Function.update_of_ne hne _ _

/-- Delivering a filter of a socket disables it. -/
theorem deliver_socket {k k' : Kq} {f : Filter} (hk : k.Socket) (hf : f ∈ filters .sockEv)
    (h : deliver k f = some k') : k'.Socket ∧ k'.enabled f = false := by
  obtain ⟨kn, hkn, hen, rfl⟩ := deliver_eq_some.mp h
  obtain ⟨kn', hkn', hone, hdisp⟩ := hk f hf
  obtain rfl : kn = kn' := Option.some.inj (hkn.symm.trans hkn')
  -- it is kept, since it is not for one shot, and disabled, since it dispatches
  rw [hone, hdisp hen, if_neg Bool.false_ne_true]
  constructor
  · intro f' hf'
    by_cases heq : f' = f
    · subst heq
      exact ⟨_, Function.update_self _ _ _, rfl, fun h => nomatch h⟩
    · rw [Function.update_of_ne heq]
      exact hk f' hf'
  · rw [Kq.enabled, Function.update_self]
    rfl

/-- **A submit on a socket.** A knote that changes is that of a direction in the
mask, which is enabled and delivered once from then on. -/
theorem kqPlatSubmit_sock {e : Event} (hsock : e.type = .sockEv) {k : Kq} (hk : k.Socket)
    (verdict : Verdict) {f : Filter} :
    (kqPlatSubmit e k verdict).2 f = k f ∨
      f ∈ filters .sockEv ∧ e.evmask.has (maskToConsume f) = true ∧
        ∃ kn, (kqPlatSubmit e k verdict).2 f = some kn ∧ kn.Once ∧ kn.enabled = true := by
  unfold kqPlatSubmit
  split_ifs with hnone
  · exact .inl rfl
  rcases keventSet_cell (submitChanges e) verdict k (submitChanges_nodup e) f with
    h | ⟨c, hc, rfl, happ⟩
  · exact .inl h
  · -- the cell is that of a change, which modified the knote that was there
    obtain ⟨f, hf, rfl, hflag⟩ := (mem_submitChanges_sock hsock).mp hc
    obtain ⟨kn, hkn, hone, -⟩ := hk f hf
    dsimp only at happ ⊢
    rw [hkn] at happ
    refine .inr ⟨hf, hflag, _, (Option.some.inj happ).symm, ⟨?_, fun _ => ?_⟩, ?_⟩
    · simp [Knote.modify, hone, evSubmit]
    · simp [Knote.modify, evSubmit]
    · simp [Knote.modify, evSubmit]

theorem kqPlatSubmit_socket {e : Event} (hsock : e.type = .sockEv) {k : Kq} (hk : k.Socket)
    (verdict : Verdict) : (kqPlatSubmit e k verdict).2.Socket := by
  intro f hf
  rcases kqPlatSubmit_sock hsock hk verdict (f := f) with h | ⟨-, -, kn, hkn, hone, -⟩
  · rw [h]
    exact hk f hf
  · exact ⟨kn, hkn, hone⟩

/-- A submit on a socket that the kernel accepts succeeds, and leaves every
direction in the mask enabled. -/
theorem kqPlatSubmit_accepted {e : Event} (hsock : e.type = .sockEv) {k : Kq} (hk : k.Socket)
    {f : Filter} (hf : f ∈ filters .sockEv) (hflag : e.evmask.has (maskToConsume f) = true) :
    (kqPlatSubmit e k none).1 = true ∧ (kqPlatSubmit e k none).2.enabled f = true := by
  have hmem : ({ filter := f, flags := evSubmit } : Change) ∈ submitChanges e :=
    (mem_submitChanges_sock hsock).mpr ⟨f, hf, rfl, hflag⟩
  rw [kqPlatSubmit, if_neg (List.ne_nil_of_mem hmem)]
  -- every change finds its knote
  have hok := keventSet_accepted (submitChanges e) k (submitChanges_nodup e) fun c hc => by
    obtain ⟨f, hf, rfl, -⟩ := (mem_submitChanges_sock hsock).mp hc
    obtain ⟨kn, hkn, -⟩ := hk f hf
    exact ⟨_, by rw [hkn]; rfl⟩
  refine ⟨hok, ?_⟩
  obtain ⟨kn, hkn, -⟩ := hk f hf
  -- so that of the direction took place, and it enables
  have hcell := keventSet_true _ _ _ (submitChanges_nodup e) hok _ hmem
  dsimp only at hcell
  rw [hkn] at hcell
  rw [Kq.enabled, ← Option.some.inj hcell]
  simp [Knote.modify, evSubmit]

theorem kqPlatSubmit_beyond {e : Event} {i : ℕ} (hi : (submitChanges e).length ≤ i) (k : Kq) :
    kqPlatSubmit e k (some i) = kqPlatSubmit e k none := by
  rw [kqPlatSubmit, kqPlatSubmit, keventSet_beyond _ _ _ hi]

/-- A submit whose first change is refused changes no knote. -/
theorem kqPlatSubmit_refused (e : Event) (k : Kq) : kqPlatSubmit e k (some 0) = (false, k) := by
  unfold kqPlatSubmit
  split_ifs with hnone
  · rfl
  · cases hcs : submitChanges e with
    | nil => exact absurd hcs hnone
    | cons c cs => rw [keventSet, if_pos rfl]

/-! ### What keeps an event live -/

/-- A submit on any event names its own filters only. -/
theorem kqPlatSubmit_other {e : Event} {f : Filter} (hf : f ∉ filters e.type) (k : Kq)
    (verdict : Verdict) : (kqPlatSubmit e k verdict).2 f = k f := by
  unfold kqPlatSubmit
  split_ifs
  · rfl
  · exact keventSet_other _ _ _ fun c hc h => hf (h ▸ (submitChanges_flags hc).1)

/-- A submit registers nothing. -/
theorem kqPlatSubmit_none {e : Event} {f : Filter} {k : Kq} (hk : k f = none)
    (verdict : Verdict) : (kqPlatSubmit e k verdict).2 f = none := by
  unfold kqPlatSubmit
  split_ifs
  · exact hk
  rcases keventSet_cell (submitChanges e) verdict k (submitChanges_nodup e) f with
    h | ⟨c, hc, -, happ⟩
  · rw [h, hk]
  · -- an `EV_ENABLE` of a knote that is not there is refused
    obtain ⟨-, hdel, hadd⟩ := submitChanges_flags hc
    rw [hk, applyChange, hdel, hadd] at happ
    cases happ

theorem Live.submit {o : Obj Kq} (h : Live o) (evmask : Mask) (verdict : Verdict) :
    Live (eventSubmit kqueue o evmask verdict).2 := by
  unfold eventSubmit
  split
  · exact h
  · refine ⟨fun f hf => ?_, fun hsock => ?_⟩
    · exact (kqPlatSubmit_other hf _ _).trans (h.own f hf)
    · rcases h.sock hsock with hnone | hk
      · exact .inl fun f => kqPlatSubmit_none (hnone f) _
      · exact .inr (kqPlatSubmit_socket hsock hk _)

theorem Live.deliver {o : Obj Kq} (h : Live o) {f : Filter} {k : Kq}
    (hdel : Posixc.deliver o.reg f = some k) : Live { o with reg := k } := by
  obtain ⟨kn, hkn, -, -⟩ := deliver_eq_some.mp hdel
  -- only a filter of the event has a knote to deliver
  have hown : f ∈ filters o.ev.type := by
    by_contra hf
    rw [h.own f hf] at hkn
    cases hkn
  refine ⟨fun f' hf' => ?_, fun hsock => ?_⟩
  · have hne : f' ≠ f := by
      rintro rfl
      exact hf' hown
    exact (deliver_of_ne hdel hne).trans (h.own f' hf')
  · rcases h.sock hsock with hnone | hk
    · -- nothing is registered, so nothing was delivered
      rw [hnone f] at hkn
      cases hkn
    · have hf : f ∈ filters .sockEv := by
        rw [← show o.ev.type = .sockEv from hsock]
        exact hown
      exact .inr (deliver_socket hk hf hdel).1

/-- Closing the descriptor takes the knotes of both directions, and no other. -/
theorem descriptorClosed_cell (e : Event) (k : Kq) (f : Filter) :
    kqueue.descriptorClosed e k f = if f ∈ filters .sockEv then none else k f := by
  cases f <;> rfl

theorem Live.descriptorClosed {o : Obj Kq} (h : Live o) :
    Live { o with reg := kqueue.descriptorClosed o.ev o.reg } := by
  refine ⟨fun f hf => ?_, fun hsock => .inl fun f => ?_⟩
  · dsimp only
    rw [descriptorClosed_cell, h.own f hf, ite_self]
  · dsimp only
    rw [descriptorClosed_cell]
    split_ifs with hf
    · rfl
    · exact h.own f (by rw [show o.ev.type = .sockEv from hsock]; exact hf)

theorem descriptorClosed_none {k : Kq} (h : ∀ f, k f = none) (e : Event) (f : Filter) :
    kqueue.descriptorClosed e k f = none := by
  rw [descriptorClosed_cell, h f, ite_self]

theorem Kq.Quiet.descriptorClosed {k : Kq} (h : k.Quiet) (e : Event) :
    Kq.Quiet (kqueue.descriptorClosed e k) := by
  intro f
  rw [Kq.enabled, descriptorClosed_cell]
  split_ifs
  · rfl
  · exact h f

/-- The knotes of an event come and go together. -/
theorem Live.paired {o : Obj Kq} (h : Live o) :
    (∀ f ∈ filters o.ev.type, o.reg f = none) ∨
      ∀ f ∈ filters o.ev.type, ∃ kn, o.reg f = some kn := by
  -- an event of one filter has its knote or has none
  have hsingle : ∀ g, filters o.ev.type = [g] → (∀ f ∈ filters o.ev.type, o.reg f = none) ∨
      ∀ f ∈ filters o.ev.type, ∃ kn, o.reg f = some kn := by
    intro g hg
    simp only [hg, List.mem_singleton, forall_eq]
    cases hk : o.reg g with
    | none => exact .inl rfl
    | some kn => exact .inr ⟨kn, rfl⟩
  cases htype : o.ev.type with
  | sockEv =>
    rcases h.sock htype with hnone | hk
    · exact .inl fun f _ => hnone f
    · exact .inr fun f hf => (hk f hf).imp fun kn hkn => hkn.1
  | timerEv => rw [← htype]; exact hsingle .timer (by rw [htype]; rfl)
  | userEv => rw [← htype]; exact hsingle .user (by rw [htype]; rfl)
  | sigEv => rw [← htype]; exact hsingle .signal (by rw [htype]; rfl)
  | unknown => exact .inl fun f hf => nomatch hf

/-- **Destroying an event leaves no knote.** -/
theorem Live.platDestroy {o : Obj Kq} (h : Live o) {ev : Event} (hev : ev.type = o.ev.type)
    (f : Filter) : (kqPlatDestroy ev o.reg).2 f = none := by
  unfold kqPlatDestroy
  cases hcs : destroyChanges ev with
  | none =>
    -- an unknown type has no filter
    have hnil : filters o.ev.type = [] := by
      rw [← hev]
      unfold destroyChanges at hcs
      cases htype : ev.type <;> rw [htype] at hcs <;> first | rfl | cases hcs
    exact h.own f (by rw [hnil]; exact List.not_mem_nil)
  | some cs =>
    dsimp only
    obtain ⟨hfilters, hdelete⟩ := destroyChanges_spec hcs
    rw [hev] at hfilters
    have hnd : (cs.map Change.filter).Nodup := hfilters ▸ filters_nodup _
    have hdel : ∀ c ∈ cs, ∀ kn, applyChange c (some kn) = some none := by
      intro c hc kn
      rw [applyChange, hdelete c hc]
      rfl
    rcases keventSet_cell cs none o.reg hnd f with heq | ⟨c, hc, rfl, happ⟩
    · -- the cell is as it was: it was empty, or not of this event
      by_cases hf : f ∈ filters o.ev.type
      · rcases h.paired with hnone | hsome
        · rw [heq, hnone f hf]
        · -- every deletion finds its knote
          rw [← hfilters, List.mem_map] at hf
          obtain ⟨c, hc, rfl⟩ := hf
          have hacc : ∀ c ∈ cs, ∃ kn, applyChange c (o.reg c.filter) = some kn := by
            intro c hc
            obtain ⟨kn, hkn⟩ := hsome c.filter (hfilters ▸ List.mem_map_of_mem hc)
            exact ⟨none, by rw [hkn]; exact hdel c hc kn⟩
          obtain ⟨kn, hkn⟩ := hsome c.filter (hfilters ▸ List.mem_map_of_mem hc)
          have hcell := keventSet_true cs none o.reg hnd (keventSet_accepted cs o.reg hnd hacc) c hc
          rw [hkn, hdel c hc kn] at hcell
          exact (Option.some.inj hcell).symm
      · rw [heq, h.own f hf]
    · -- the cell was changed by a deletion
      cases hk : o.reg c.filter with
      | none =>
        rw [hk, applyChange, hdelete c hc] at happ
        cases happ
      | some kn =>
        rw [hk, hdel c hc kn] at happ
        exact (Option.some.inj happ).symm

/-- What a registering change makes of no knote. -/
theorem applyChange_newlyAdd {c : Change} (h : c.flags = evNewlyAdd) :
    applyChange c none = some (some ⟨false, false, false, c.data⟩) := by
  rw [applyChange, h]
  simp [Knote.modify, h, evNewlyAdd]

/-- **Creating an event.** Nothing can be delivered before a submit. When it
succeeds the event is live, and a socket has both its knotes. -/
theorem kqPlatCreate_spec (e : Event) (verdict : Verdict) :
    (kqPlatCreate e kqueue.unregistered verdict).2.Quiet ∧
      ((kqPlatCreate e kqueue.unregistered verdict).1 = true →
        Live ⟨e, (kqPlatCreate e kqueue.unregistered verdict).2⟩ ∧
        (e.type = .sockEv → (kqPlatCreate e kqueue.unregistered verdict).2.Socket)) := by
  unfold kqPlatCreate
  cases hcs : createChanges e with
  | none => exact ⟨Kq.quiet_of_none fun f => rfl, fun hok => nomatch hok⟩
  | some cs =>
    dsimp only
    obtain ⟨hfilters, hflags⟩ := createChanges_spec hcs
    have hnd : (cs.map Change.filter).Nodup := hfilters ▸ filters_nodup _
    have hadd : ∀ c ∈ cs, applyChange c none = some (some ⟨false, false, false, c.data⟩) :=
      fun c hc => applyChange_newlyAdd (hflags c hc)
    have hcell := keventSet_cell cs verdict kqueue.unregistered hnd
    constructor
    · -- a knote that was added is added disabled
      intro f
      rcases hcell f with h | ⟨c, hc, -, h⟩
      · rw [Kq.enabled, h]
        rfl
      · rw [show kqueue.unregistered f = none from rfl, hadd c hc] at h
        rw [Kq.enabled, ← Option.some.inj h]
        rfl
    · intro hok
      -- on success both changes of a socket took place
      have hsock : e.type = .sockEv → (keventSet verdict cs kqueue.unregistered).2.Socket := by
        intro htype f hf
        rw [← htype, ← hfilters, List.mem_map] at hf
        obtain ⟨c, hc, rfl⟩ := hf
        have h := keventSet_true cs verdict kqueue.unregistered hnd hok c hc
        rw [show kqueue.unregistered c.filter = none from rfl, hadd c hc] at h
        exact ⟨_, (Option.some.inj h).symm, rfl, fun h => nomatch h⟩
      refine ⟨⟨fun f hf => ?_, fun htype => .inr (hsock htype)⟩, hsock⟩
      rcases hcell f with h | ⟨c, hc, rfl, -⟩
      · exact h
      · rw [← hfilters] at hf
        exact absurd (List.mem_map_of_mem hc) hf

end Posixc
