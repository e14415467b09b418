import PosixCommons.Event.Kqueue

/-!
# Submits that fail

`posixc_event_submit` merges its argument into `evmask` and then asks the platform,
which may refuse: no bit of the mask is one that the type of the event has a filter
for, a filter is not registered, or the kernel does not take the change. The bits
stay. A later submit enables a filter for every bit of the mask, so it enables those
of the submit that failed.

A submit that fails is therefore without effect on later ones exactly when it had
nothing to add to the mask, or the event is closing, which is looked at before the
mask is touched (`submit_atomic_iff`). On kqueue the platform fails precisely when
the submit is not `Accepted`.
-/

namespace Posixc

/-- The flag that a submit enables the filter for. -/
def submitFlag : Filter → Mask
  | .read => eventIn
  | .write => eventOut
  | .signal => eventSig
  | .user => eventUser
  | .timer => eventTimer

/-- The event as `posixc_event_plat_submit` finds it: the argument is merged already. -/
def merged (o : Obj Kq) (evmask : Mask) : Event := { o.ev with evmask := o.ev.evmask ||| evmask }

/-- The filters that a submit with the mask enables. -/
def armedBy (o : Obj Kq) (evmask : Mask) : List Filter :=
  (submitChanges (merged o evmask)).map Change.filter

/-- The platform takes the submit: it comes to some change, every change finds its
knote, and the kernel refuses none. -/
def Accepted (o : Obj Kq) (evmask : Mask) (verdict : Verdict) : Prop :=
  submitChanges (merged o evmask) ≠ [] ∧
    (∀ i, verdict = some i → (submitChanges (merged o evmask)).length ≤ i) ∧
    ∀ c ∈ submitChanges (merged o evmask), (o.reg c.filter).isSome

/-- A submit that returns false leaves the mask, so that a later submit that returns
true enables the filters of its own bits and of those that were set before, and no
others. -/
def SubmitAtomic (o : Obj Kq) (evmask : Mask) (verdict : Verdict) : Prop :=
  ∀ o', eventSubmit kqueue o evmask verdict = (false, o') →
    o'.ev.evmask = o.ev.evmask ∧
      ∀ later verdict' o'', eventSubmit kqueue o' later verdict' = (true, o'') →
        ∀ f ∈ filters o.ev.type, f ∈ armedBy o' later ↔
          (later.has (submitFlag f) ∨ o.ev.evmask.has (submitFlag f))

/-! ### When the platform takes a submit -/

/-- Changes that delete and add nothing succeed exactly when each finds its knote and
none is refused. -/
theorem keventSet_eq_true_iff (cs : List Change) :
    ∀ (verdict : Verdict) (k : Kq), (cs.map Change.filter).Nodup →
      (∀ c ∈ cs, c.flags.delete = false ∧ c.flags.add = false) →
      ((keventSet verdict cs k).1 = true ↔
        (∀ i, verdict = some i → cs.length ≤ i) ∧ ∀ c ∈ cs, (k c.filter).isSome) := by
  induction cs with
  | nil => intro verdict k _ _; simp [keventSet]
  | cons c cs ih =>
    intro verdict k hnd hflags
    rw [List.map_cons, List.nodup_cons] at hnd
    obtain ⟨hdel, hadd⟩ := hflags c List.mem_cons_self
    rw [keventSet]
    by_cases hv : verdict = some 0
    · -- the kernel refuses this change
      rw [if_pos hv]
      refine iff_of_false Bool.false_ne_true fun h => ?_
      exact absurd (h.1 0 hv) (Nat.not_succ_le_zero _)
    · rw [if_neg hv]
      cases hk : k c.filter with
      | none =>
        have happ : applyChange c none = none := by
          rw [applyChange, hdel, hadd]
          rfl
        rw [happ]
        refine iff_of_false Bool.false_ne_true fun h => ?_
        have hc := h.2 c List.mem_cons_self
        rw [hk] at hc
        cases hc
      | some kn =>
        have happ : applyChange c (some kn) = some (some (kn.modify c)) := by
          rw [applyChange, hdel]
          rfl
        rw [happ]
        dsimp only
        rw [ih _ _ hnd.2 fun c' hc' => hflags c' (List.mem_cons_of_mem _ hc')]
        -- the verdict is about one change fewer, and the other knotes are as they were
        refine and_congr ?_ ?_
        · cases verdict with
          | none => simp
          | some n =>
            have hn : n ≠ 0 := fun h => hv (by rw [h])
            simp only [Option.map_some, Option.some.injEq, forall_eq', List.length_cons,
              Nat.pred_eq_sub_one]
            omega
        · rw [List.forall_mem_cons, hk]
          simp only [Option.isSome_some, true_and]
          refine forall₂_congr fun c' hc' => ?_
          have hne : c'.filter ≠ c.filter := fun h => hnd.1 (h ▸ List.mem_map_of_mem hc')
          rw [Function.update_of_ne hne]

/-- The platform's answer. -/
theorem kqPlatSubmit_iff_accepted (o : Obj Kq) (evmask : Mask) (verdict : Verdict) :
    (kqPlatSubmit (merged o evmask) o.reg verdict).1 = true ↔ Accepted o evmask verdict := by
  rw [kqPlatSubmit, Accepted]
  by_cases hnone : submitChanges (merged o evmask) = []
  · rw [if_pos hnone]
    exact iff_of_false Bool.false_ne_true fun h => h.1 hnone
  · rw [if_neg hnone, keventSet_eq_true_iff _ _ _ (submitChanges_nodup _) fun c hc =>
      (submitChanges_flags hc).2, and_iff_right hnone]

/-- A submit fails when the event is closing, and then it does nothing, or when the
platform does not take it, and then the mask is merged all the same. -/
theorem eventSubmit_false_iff {o o' : Obj Kq} {evmask : Mask} {verdict : Verdict} :
    eventSubmit kqueue o evmask verdict = (false, o') ↔
      (o.ev.closing = true ∧ o' = o) ∨
        (o.ev.closing = false ∧ ¬ Accepted o evmask verdict ∧
          o' = ⟨merged o evmask, (kqPlatSubmit (merged o evmask) o.reg verdict).2⟩) := by
  rw [← kqPlatSubmit_iff_accepted, Bool.not_eq_true]
  unfold eventSubmit
  cases hclosing : o.ev.closing with
  | true =>
    rw [if_pos rfl, Prod.mk.injEq]
    simp only [true_and, Bool.true_eq_false, false_and, or_false]
    exact eq_comm
  | false =>
    rw [if_neg Bool.false_ne_true]
    change ((kqPlatSubmit (merged o evmask) o.reg verdict).1, Obj.mk (merged o evmask)
      (kqPlatSubmit (merged o evmask) o.reg verdict).2) = (false, o') ↔ _
    rw [Prod.mk.injEq]
    simp only [Bool.false_eq_true, false_and, false_or, true_and]
    exact and_congr_right fun _ => eq_comm

/-! ### What a submit enables -/

/-- Each filter of an event is the candidate of its flag. -/
theorem submitCandidates_filters (e : Event) :
    (submitCandidates e).map (fun c => (c.1, c.2.filter)) =
      (filters e.type).map fun f => (submitFlag f, f) := by
  unfold submitCandidates
  cases e.type <;> rfl

/-- The filters that a submit enables are those of the bits of the merged mask. -/
theorem mem_armedBy (o : Obj Kq) (evmask : Mask) {f : Filter} (hf : f ∈ filters o.ev.type) :
    f ∈ armedBy o evmask ↔
      (evmask.has (submitFlag f) ∨ o.ev.evmask.has (submitFlag f)) := by
  have hmask : (merged o evmask).evmask.has (submitFlag f) = true ↔
      (evmask.has (submitFlag f) ∨ o.ev.evmask.has (submitFlag f)) := by
    rw [merged, Mask.has_or, Bool.or_eq_true]
    exact or_comm
  rw [← hmask, armedBy, List.mem_map]
  have hcandidates := submitCandidates_filters (merged o evmask)
  constructor
  · rintro ⟨c, hc, rfl⟩
    obtain ⟨flag, hflag, hset⟩ := mem_submitChanges.mp hc
    have hpair := List.mem_map_of_mem (f := fun c => (c.1, c.2.filter)) hflag
    rw [hcandidates, List.mem_map] at hpair
    obtain ⟨f, -, heq⟩ := hpair
    obtain ⟨hflagf, hf'⟩ := Prod.mk.inj heq
    dsimp only at hflagf hf'
    rw [← hf', hflagf]
    exact hset
  · intro hset
    have hpair : (submitFlag f, f) ∈ (filters o.ev.type).map fun f => (submitFlag f, f) :=
      List.mem_map_of_mem hf
    rw [show o.ev.type = (merged o evmask).type from rfl, ← hcandidates, List.mem_map] at hpair
    obtain ⟨⟨flag, c⟩, hc, heq⟩ := hpair
    obtain ⟨hflag, hcf⟩ := Prod.mk.inj heq
    dsimp only at hflag hcf
    exact ⟨c, mem_submitChanges.mpr ⟨flag, hc, by rw [hflag]; exact hset⟩, hcf⟩

/-- **When a failed submit leaves no trace.** The event is closing, or the argument
has no bit that the mask did not have; otherwise a submit leaves no trace of a
failure only by being accepted. -/
theorem submit_atomic_iff (o : Obj Kq) (evmask : Mask) (verdict : Verdict) :
    SubmitAtomic o evmask verdict ↔
      o.ev.closing = true ∨ o.ev.evmask ||| evmask = o.ev.evmask ∨
        Accepted o evmask verdict := by
  constructor
  · intro hatomic
    cases hclosing : o.ev.closing with
    | true => exact .inl rfl
    | false =>
      refine .inr ?_
      by_cases haccepted : Accepted o evmask verdict
      · exact .inr haccepted
      · exact .inl (hatomic _ (eventSubmit_false_iff.mpr (.inr ⟨hclosing, haccepted, rfl⟩))).1
  · intro hcond o' hfail
    rcases eventSubmit_false_iff.mp hfail with ⟨hclosing, rfl⟩ | ⟨hopen, hrefused, rfl⟩
    · -- nor does a later submit succeed on a closing event
      refine ⟨rfl, fun later verdict' o'' hlater => ?_⟩
      have hno : eventSubmit kqueue o' later verdict' = (false, o') :=
        eventSubmit_false_iff.mpr (.inl ⟨hclosing, rfl⟩)
      rw [hno] at hlater
      cases hlater
    · have hsame : o.ev.evmask ||| evmask = o.ev.evmask := by
        rcases hcond with hclosing | hsame | haccepted
        · rw [hopen] at hclosing
          cases hclosing
        · exact hsame
        · exact absurd haccepted hrefused
      refine ⟨hsame, fun later verdict' o'' _ f hf => ?_⟩
      rw [mem_armedBy (o := ⟨merged o evmask, _⟩) later hf]
      dsimp only [merged]
      rw [hsame]

/-- The kernel refuses a submit of a socket for reading; a submit for writing then
enables the filter for reading. -/
theorem submit_not_atomic :
    ¬ SubmitAtomic ⟨eventInit 3 none 0 .sockEv,
        (kqPlatCreate (eventInit 3 none 0 .sockEv) kqueue.unregistered none).2⟩
      eventIn (some 0) := by
  intro h
  obtain ⟨-, hlater⟩ := h _ rfl
  have harmed := (hlater eventOut none _ rfl .read (by decide)).mp (by decide)
  exact absurd harmed (by decide)

end Posixc
