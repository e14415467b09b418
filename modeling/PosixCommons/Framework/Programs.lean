import Mathlib.Logic.Function.Basic
import Mathlib.Logic.Relation
import PosixCommons.Framework.Runs

/-!
# Programs of threads

A program makes calls on a shared state, each atomic, and goes on with their answers. Between
two calls of one thread the others make theirs, and the surroundings do what is up to them.

What a program does in such a company is said by a `Contract`: what it relies on that the others
do, what it guarantees of each of its own calls, what holds of the shared state as long as it is
at work, and what holds when it is done. `Prog.Meets` is that the program keeps the contract from
a state, and `meets_call` and `meets_done` are the rules for it, with assertions that the others
leave alone (`Stable`).

In a `Service` threads are given jobs, each with its program. A `Discipline` is one contract for
every thread and job such that every thread may rely on what the others guarantee, and then all
threads keep to it in all runs (`Discipline.keeps`). A thread that has a contract of its own, in
a run in which the others do only what it relies on, keeps to that one (`run_meets`).
-/

namespace Framework

variable {C A G E T J α β σ : Type}

/-- A program: it is done with a result, or makes a call and goes on with the answer. -/
inductive Prog (C A α : Type)
  | done (a : α)
  | call (c : C) (next : A → Prog C A α)

/-- One program after the other. -/
def Prog.bind : Prog C A α → (α → Prog C A β) → Prog C A β
  | .done a, f => f a
  | .call c next, f => .call c fun x => (next x).bind f

instance : Monad (Prog C A) where
  pure := .done
  bind := .bind

/-- What may be left of a program, when some of its calls were made. -/
inductive Prog.Left (p : Prog C A α) : Prog C A α → Prop
  | all : p.Left p
  | next {c : C} {next : A → Prog C A α} (x : A) : p.Left (.call c next) → p.Left (next x)

theorem left_done {a : α} {q : Prog C A α} (h : (Prog.done a : Prog C A α).Left q) :
    q = .done a := by
  induction h with
  | all => rfl
  | next x _ ih => cases ih

theorem left_call {c : C} {next : A → Prog C A α} {q : Prog C A α}
    (h : (Prog.call c next).Left q) : q = .call c next ∨ ∃ x, (next x).Left q := by
  induction h with
  | all => exact .inl rfl
  | next x _ ih =>
    rcases ih with heq | ⟨y, hy⟩
    · cases heq
      exact .inr ⟨x, .all⟩
    · exact .inr ⟨y, .next x hy⟩

/-! ### Contracts -/

/-- What a thread relies on, what it guarantees, and what holds while it is at work and when it
is done. -/
structure Contract (α σ : Type) where
  rely : σ → σ → Prop
  guar : σ → σ → Prop
  during : σ → Prop
  post : α → σ → Prop

/-- An assertion that the steps of others leave alone. -/
def Stable (rely : σ → σ → Prop) (P : σ → Prop) : Prop := ∀ s s', rely s s' → P s → P s'

theorem Stable.many {rely : σ → σ → Prop} {P : σ → Prop} (h : Stable rely P) {s s' : σ}
    (hs : Relation.ReflTransGen rely s s') (hP : P s) : P s' := by
  induction hs with
  | refl => exact hP
  | tail _ hstep ih => exact h _ _ hstep ih

theorem Stable.and {rely : σ → σ → Prop} {P Q : σ → Prop} (hP : Stable rely P)
    (hQ : Stable rely Q) : Stable rely fun s => P s ∧ Q s :=
  fun s s' hs h => ⟨hP s s' hs h.1, hQ s s' hs h.2⟩

/-- The program keeps the contract from the state. `allowed` is which answers there are. -/
def Prog.Meets (perform : C → G → σ → A × σ) (allowed : C → G → Prop) (k : Contract α σ) :
    Prog C A α → σ → Prop
  | .done a, s => ∀ s', Relation.ReflTransGen k.rely s s' → k.post a s'
  | .call c next, s => ∀ s', Relation.ReflTransGen k.rely s s' → k.during s' ∧
      ∀ g, allowed c g → k.guar s' (perform c g s').2 ∧
        (next (perform c g s').1).Meets perform allowed k (perform c g s').2

section Meets

variable {perform : C → G → σ → A × σ} {allowed : C → G → Prop} {k : Contract α σ}
  {p : Prog C A α} {next : A → Prog C A α} {c : C} {g : G} {a : α} {s s' : σ} {P : σ → Prop}

/-- A program that is done. -/
theorem meets_done (hstable : Stable k.rely (k.post a)) (h : k.post a s) :
    (Prog.done a : Prog C A α).Meets perform allowed k s := fun _ hs => hstable.many hs h

/-- **The rule of a call**, at a place of the program with a stable assertion. -/
theorem meets_call (hstable : Stable k.rely P) (h : P s) (hduring : ∀ s, P s → k.during s)
    (hcall : ∀ s g, P s → allowed c g → k.guar s (perform c g s).2 ∧
      (next (perform c g s).1).Meets perform allowed k (perform c g s).2) :
    (Prog.call c next).Meets perform allowed k s := fun s' hs =>
  have hP : P s' := hstable.many hs h
  ⟨hduring s' hP, fun g hg => hcall s' g hP hg⟩

/-- What the others do leaves a contract that is kept. -/
theorem Prog.Meets.rely (h : p.Meets perform allowed k s) (hs : k.rely s s') :
    p.Meets perform allowed k s' := by
  -- a step of others before theirs is one more of theirs
  cases p with
  | done a => exact fun s'' hs' => h s'' (.head hs hs')
  | call c next => exact fun s'' hs' => h s'' (.head hs hs')

theorem Prog.Meets.during (h : (Prog.call c next).Meets perform allowed k s) : k.during s :=
  (h s .refl).1

theorem Prog.Meets.post (h : (Prog.done a : Prog C A α).Meets perform allowed k s) :
    k.post a s := h s .refl

theorem Prog.Meets.call (h : (Prog.call c next).Meets perform allowed k s) (hg : allowed c g) :
    k.guar s (perform c g s).2 ∧
      (next (perform c g s).1).Meets perform allowed k (perform c g s).2 :=
  (h s .refl).2 g hg

end Meets

/-! ### Threads -/

/-- The threads, each with its job and what is left of its program, and the shared state. -/
structure Pool (T J C A α σ : Type) where
  thread : T → Option (J × Prog C A α)
  shared : σ

/-- The steps: a thread is given a job, makes its next call, or leaves its job when it is done,
and the surroundings take theirs. -/
inductive PoolLabel (T J G E : Type)
  | start (t : T) (job : J)
  | step (t : T) (g : G)
  | leave (t : T)
  | env (e : E)

/-- What jobs there are, how the calls of a thread are done, what its leaving a job does, what
the surroundings do, and how it all starts. -/
structure Service (T J C A G E α σ : Type) where
  code : J → Prog C A α
  perform : T → C → G → σ → A × σ
  finish : T → α → σ → σ
  disturb : E → σ → σ
  init : σ → Prop

/-- The threads of a service at work. -/
def Service.system [DecidableEq T] (v : Service T J C A G E α σ) :
    System (Pool T J C A α σ) (PoolLabel T J G E) where
  init s := (∀ t, s.thread t = none) ∧ v.init s.shared
  next s
    | .start t job => match s.thread t with
      | none => some { s with thread := Function.update s.thread t (some (job, v.code job)) }
      | some _ => none
    | .step t g => match s.thread t with
      | some (job, .call c next) => some {
          thread := Function.update s.thread t
            (some (job, next (v.perform t c g s.shared).1))
          shared := (v.perform t c g s.shared).2 }
      | _ => none
    | .leave t => match s.thread t with
      | some (_, .done a) => some {
          thread := Function.update s.thread t none
          shared := v.finish t a s.shared }
      | _ => none
    | .env e => some { s with shared := v.disturb e s.shared }

section Service

variable [DecidableEq T] {v : Service T J C A G E α σ} {s s' : Pool T J C A α σ}
  {l : PoolLabel T J G E} {ls : List (PoolLabel T J G E)} {t : T} {job : J} {p : Prog C A α}

/-- What each step does, with what it needs. -/
theorem Service.next_cases (h : v.system.next s l = some s') :
    (∃ t job, l = .start t job ∧ s.thread t = none ∧
      s' = { s with thread := Function.update s.thread t (some (job, v.code job)) }) ∨
    (∃ t g job c next, l = .step t g ∧ s.thread t = some (job, .call c next) ∧
      s' = { thread := Function.update s.thread t
               (some (job, next (v.perform t c g s.shared).1))
             shared := (v.perform t c g s.shared).2 }) ∨
    (∃ t job a, l = .leave t ∧ s.thread t = some (job, .done a) ∧
      s' = { thread := Function.update s.thread t none, shared := v.finish t a s.shared }) ∨
    ∃ e, l = .env e ∧ s' = { s with shared := v.disturb e s.shared } := by
  cases l with
  | start t job =>
    simp only [Service.system] at h
    split at h
    · exact .inl ⟨t, job, rfl, ‹_›, (Option.some.inj h).symm⟩
    · cases h
  | step t g =>
    simp only [Service.system] at h
    split at h
    · exact .inr (.inl ⟨t, g, _, _, _, rfl, ‹_›, (Option.some.inj h).symm⟩)
    · cases h
  | leave t =>
    simp only [Service.system] at h
    split at h
    · exact .inr (.inr (.inl ⟨t, _, _, rfl, ‹_›, (Option.some.inj h).symm⟩))
    · cases h
  | env e => exact .inr (.inr (.inr ⟨e, rfl, (Option.some.inj h).symm⟩))

/-- A thread that has no job can be given one. -/
theorem Service.starts (ht : s.thread t = none) (job : J) :
    ∃ s', v.system.next s (.start t job) = some s' ∧ s'.thread t = some (job, v.code job) ∧
      (∀ u, u ≠ t → s'.thread u = s.thread u) ∧ s'.shared = s.shared := by
  refine ⟨{ s with thread := Function.update s.thread t (some (job, v.code job)) }, ?_,
    Function.update_self _ _ _, fun u hu => Function.update_of_ne hu _ _, rfl⟩
  simp only [Service.system, ht]

/-- A thread can make its next call. -/
theorem Service.steps {c : C} {next : A → Prog C A α} {g : G} {x : A} {r : σ}
    (ht : s.thread t = some (job, .call c next)) (hx : v.perform t c g s.shared = (x, r)) :
    ∃ s', v.system.next s (.step t g) = some s' ∧ s'.thread t = some (job, next x) ∧
      (∀ u, u ≠ t → s'.thread u = s.thread u) ∧ s'.shared = r := by
  refine ⟨⟨Function.update s.thread t (some (job, next x)), r⟩, ?_, Function.update_self _ _ _,
    fun u hu => Function.update_of_ne hu _ _, rfl⟩
  simp only [Service.system, ht, hx]

/-- What a thread is at is left of the program of its job. -/
theorem Service.left (hinit : v.system.init s) (hrun : v.system.run s ls = some s')
    (ht : s'.thread t = some (job, p)) : (v.code job).Left p := by
  -- for all threads at once, as a step may be of any
  have hall : ∀ t job p, s'.thread t = some (job, p) → (v.code job).Left p := by
    refine System.run_invariant (P := fun _ _ => True)
      (I := fun s => ∀ t job p, s.thread t = some (job, p) → (v.code job).Left p)
      (fun s l s' h _ hnext u job p hu => ?_) (fun t job p hp => ?_)
      (.of_forall fun _ _ => trivial) hrun
    · obtain ⟨t, job', rfl, ht, rfl⟩ | ⟨t, g, job', c, next, rfl, ht, rfl⟩ |
        ⟨t, job', a, rfl, ht, rfl⟩ | ⟨e, rfl, rfl⟩ := Service.next_cases hnext
      all_goals dsimp only at hu
      · rw [Function.update_apply] at hu
        split_ifs at hu
        · cases hu
          exact .all
        · exact h u job p hu
      · rw [Function.update_apply] at hu
        split_ifs at hu
        · cases hu
          exact .next _ (h t _ _ ht)
        · exact h u job p hu
      · rw [Function.update_apply] at hu
        split_ifs at hu
        exact h u job p hu
      · exact h u job p hu
    · rw [hinit.1 t] at hp
      cases hp
  exact hall t job p ht

/-- What a thread sees of the others: the steps they guarantee, and the surroundings. -/
def Service.others (v : Service T J C A G E α σ) (guar : T → σ → σ → Prop) (t : T) :
    σ → σ → Prop := fun s s' => (∃ u, u ≠ t ∧ guar u s s') ∨ ∃ e, s' = v.disturb e s

/-- Contracts for all threads and jobs that fit together: every thread relies on what the others
guarantee, in their calls and when they leave, and `idle` holds of a thread that has no job. -/
structure Discipline (v : Service T J C A G E α σ) (allowed : C → G → Prop) where
  guar : T → σ → σ → Prop
  idle : T → σ → Prop
  during : T → J → σ → Prop
  post : T → J → α → σ → Prop
  init : ∀ t s, v.init s → idle t s
  stable : ∀ t, Stable (v.others guar t) (idle t)
  meets : ∀ t job s, idle t s →
    (v.code job).Meets (v.perform t) allowed ⟨v.others guar t, guar t, during t job, post t job⟩ s
  finishes : ∀ t job a s, post t job a s → guar t s (v.finish t a s)
  leaves : ∀ t job a s, post t job a s → idle t (v.finish t a s)

namespace Discipline

variable {allowed : C → G → Prop} (d : Discipline v allowed)

/-- The contract of a thread at a job. -/
def contract (t : T) (job : J) : Contract α σ :=
  ⟨v.others d.guar t, d.guar t, d.during t job, d.post t job⟩

/-- A thread keeps the contract of its job, or has none. -/
def At (t : T) (s : σ) : Option (J × Prog C A α) → Prop
  | none => d.idle t s
  | some (job, p) => p.Meets (v.perform t) allowed (d.contract t job) s

/-- All threads do. -/
def Kept (s : Pool T J C A α σ) : Prop := ∀ t, d.At t s.shared (s.thread t)

/-- The answer to a call is one that is allowed. -/
def Allowed (allowed : C → G → Prop) (s : Pool T J C A α σ) : PoolLabel T J G E → Prop
  | .step t g => ∀ job c next, s.thread t = some (job, .call c next) → allowed c g
  | _ => True

omit [DecidableEq T] in
theorem allowed_of_forall (h : ∀ c g, allowed c g) (s : Pool T J C A α σ)
    (l : PoolLabel T J G E) : Allowed allowed s l := by
  cases l with
  | step t g => exact fun _ c _ _ => h c g
  | start | leave | env => trivial

/-- Answers that are all allowed. -/
theorem guarded_allowed (h : ∀ c g, allowed c g) :
    v.system.Guarded (Allowed allowed) s ls :=
  System.Guarded.of_invariant (P := fun _ _ => True) (I := fun _ => True)
    (fun _ _ _ _ _ _ => trivial) (fun s l _ _ => allowed_of_forall h s l) trivial
    (.of_forall fun _ _ => trivial)

variable {d}

omit [DecidableEq T] in
theorem At.rely {r r' : σ} {o : Option (J × Prog C A α)} (h : d.At t r o)
    (hr : v.others d.guar t r r') : d.At t r' o := by
  cases o with
  | none => exact d.stable t _ _ hr h
  | some o => exact Prog.Meets.rely h hr

omit [DecidableEq T] in
theorem Kept.at_work (h : d.Kept s) (ht : s.thread t = some (job, p)) :
    p.Meets (v.perform t) allowed (d.contract t job) s.shared := by
  have hat := h t
  rwa [ht] at hat

/-- **The step lemma.** -/
theorem Kept.next (h : d.Kept s) (hallowed : Allowed allowed s l)
    (hnext : v.system.next s l = some s') : d.Kept s' := by
  intro u
  obtain ⟨t, job, rfl, ht, rfl⟩ | ⟨t, g, job, c, next, rfl, ht, rfl⟩ | ⟨t, job, a, rfl, ht, rfl⟩ |
    ⟨e, rfl, rfl⟩ := Service.next_cases hnext
  · -- `u` was idle, which is what its program needs
    change d.At u s.shared (Function.update s.thread t _ u)
    by_cases hut : u = t
    · subst hut
      have hidle := h u
      rw [ht] at hidle
      rw [Function.update_self]
      exact d.meets u job s.shared hidle
    · rw [Function.update_of_ne hut]
      exact h u
  · -- `t` makes a call, and its guarantee is what the others rely on
    obtain ⟨hguar, hmeets⟩ := (h.at_work ht).call (hallowed job c next ht)
    change d.At u (v.perform t c g s.shared).2 (Function.update s.thread t _ u)
    by_cases hut : u = t
    · subst hut
      rw [Function.update_self]
      exact hmeets
    · rw [Function.update_of_ne hut]
      exact (h u).rely (.inl ⟨t, Ne.symm hut, hguar⟩)
  · -- `t` is done, which leaves it idle
    have hpost := (h.at_work ht).post
    change d.At u (v.finish t a s.shared) (Function.update s.thread t _ u)
    by_cases hut : u = t
    · subst hut
      rw [Function.update_self]
      exact d.leaves u job a _ hpost
    · rw [Function.update_of_ne hut]
      exact (h u).rely (.inl ⟨t, Ne.symm hut, d.finishes t job a _ hpost⟩)
  · exact (h u).rely (.inr ⟨e, rfl⟩)

/-- **All threads keep their contracts**, in every run. -/
theorem keeps (hinit : v.system.init s) (hallowed : v.system.Guarded (Allowed allowed) s ls)
    (hrun : v.system.run s ls = some s') : d.Kept s' := by
  have hstart : d.Kept s := by
    intro t
    rw [hinit.1 t]
    -- no thread has a job
    exact d.init t _ hinit.2
  exact System.run_invariant (fun s l s' h hl hnext => h.next hl hnext) hstart hallowed hrun

/-- What a step does to the shared state. -/
theorem Kept.effect (h : d.Kept s) (hallowed : Allowed allowed s l)
    (hnext : v.system.next s l = some s') :
    (∃ t, ((∃ g, l = .step t g) ∨ l = .leave t) ∧ d.guar t s.shared s'.shared) ∨
      (∃ e, l = .env e ∧ s'.shared = v.disturb e s.shared) ∨ s'.shared = s.shared := by
  obtain ⟨t, job, rfl, ht, rfl⟩ | ⟨t, g, job, c, next, rfl, ht, rfl⟩ | ⟨t, job, a, rfl, ht, rfl⟩ |
    ⟨e, rfl, rfl⟩ := Service.next_cases hnext
  · exact .inr (.inr rfl)
  · exact .inl ⟨t, .inl ⟨g, rfl⟩, ((h.at_work ht).call (hallowed job c next ht)).1⟩
  · exact .inl ⟨t, .inr rfl, d.finishes t job a _ (h.at_work ht).post⟩
  · exact .inr (.inl ⟨e, rfl, rfl⟩)

/-- What the others do in a step, in the eyes of a thread. -/
theorem Kept.others (h : d.Kept s) (hallowed : Allowed allowed s l)
    (hnext : v.system.next s l = some s') (hl : ∀ g, l ≠ .step t g) (hleave : l ≠ .leave t) :
    v.others d.guar t s.shared s'.shared ∨ s'.shared = s.shared := by
  obtain ⟨u, hu, hguar⟩ | ⟨e, -, hshared⟩ | hshared := h.effect hallowed hnext
  · refine .inl (.inl ⟨u, ?_, hguar⟩)
    rintro rfl
    exact hu.elim (fun ⟨g, hg⟩ => hl g hg) hleave
  · exact .inl (.inr ⟨e, hshared⟩)
  · exact .inr hshared

end Discipline

/-! ### A contract of its own -/

/-- The step is one that a thread with a contract of its own can go along with: its own answers
are allowed, it does not leave, and the others do what it relies on. -/
def GoesAlong (allowed : C → G → Prop) (rely : σ → σ → Prop) (t : T) (s : Pool T J C A α σ)
    (l : PoolLabel T J G E) (s' : Pool T J C A α σ) : Prop :=
  (∀ g job c next, l = .step t g → s.thread t = some (job, .call c next) → allowed c g) ∧
    l ≠ .leave t ∧ ((∀ g, l ≠ .step t g) → rely s.shared s'.shared ∨ s'.shared = s.shared)

/-- A step of a thread with a contract of its own, or of another. -/
theorem next_meets {allowed : C → G → Prop} {k : Contract α σ}
    (ht : s.thread t = some (job, p)) (h : p.Meets (v.perform t) allowed k s.shared)
    (hnext : v.system.next s l = some s') (hl : GoesAlong allowed k.rely t s l s') :
    ∃ p', s'.thread t = some (job, p') ∧ p'.Meets (v.perform t) allowed k s'.shared := by
  obtain ⟨hallowed, hleave, hrely⟩ := hl
  -- the step is not one of the thread, so what it relies on was done
  have hother : s'.thread t = s.thread t → (∀ g, l ≠ .step t g) →
      ∃ p', s'.thread t = some (job, p') ∧ p'.Meets (v.perform t) allowed k s'.shared := by
    intro hthread hstep
    refine ⟨p, hthread.trans ht, ?_⟩
    rcases hrely hstep with hs | hs
    · exact h.rely hs
    · rwa [hs]
  obtain ⟨u, job', rfl, hu, rfl⟩ | ⟨u, g, job', c, next, rfl, hu, rfl⟩ |
    ⟨u, job', a, rfl, hu, rfl⟩ | ⟨e, rfl, rfl⟩ := Service.next_cases hnext
  · -- a job is given to a thread that has none
    refine hother (Function.update_of_ne ?_ _ _) (fun g => nofun)
    rintro rfl
    rw [ht] at hu
    cases hu
  · by_cases htu : t = u
    · subst htu
      obtain ⟨rfl, rfl⟩ := Prod.mk.inj (Option.some.inj (ht.symm.trans hu))
      exact ⟨_, Function.update_self _ _ _, (h.call (hallowed g job c next rfl ht)).2⟩
    · refine hother (Function.update_of_ne htu _ _) fun g' hl => ?_
      exact htu (PoolLabel.step.inj hl).1.symm
  · refine hother (Function.update_of_ne ?_ _ _) (fun g => nofun)
    rintro rfl
    exact hleave rfl
  · exact hother rfl fun g => nofun

/-- **A thread keeps a contract of its own** in a run that goes along with it. `I` is what the
run keeps besides. -/
theorem run_meets {allowed : C → G → Prop} {k : Contract α σ}
    {P : Pool T J C A α σ → PoolLabel T J G E → Prop} {I : Pool T J C A α σ → Prop}
    (hstep : ∀ s l s', I s → P s l → v.system.next s l = some s' →
      I s' ∧ GoesAlong allowed k.rely t s l s')
    (hI : I s) (ht : s.thread t = some (job, p)) (h : p.Meets (v.perform t) allowed k s.shared)
    (hP : v.system.Guarded P s ls) (hrun : v.system.run s ls = some s') :
    ∃ p', s'.thread t = some (job, p') ∧ p'.Meets (v.perform t) allowed k s'.shared := by
  -- what the run keeps besides is needed to see that a step goes along
  have hkeep : ∀ s l s', (I s ∧ ∃ p, s.thread t = some (job, p) ∧
      p.Meets (v.perform t) allowed k s.shared) → P s l → v.system.next s l = some s' →
      I s' ∧ ∃ p, s'.thread t = some (job, p) ∧
        p.Meets (v.perform t) allowed k s'.shared := by
    rintro s l s' ⟨hI, p, ht, h⟩ hP hnext
    obtain ⟨hI', hl⟩ := hstep s l s' hI hP hnext
    exact ⟨hI', next_meets ht h hnext hl⟩
  exact (System.run_invariant hkeep ⟨hI, p, ht, h⟩ hP hrun).2

end Service

end Framework
