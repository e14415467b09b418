import PosixCommons.Framework.Runs

/-!
# Critical sections

Parties that do their work on a shared state under mutexes. A job is a list of actions, each
atomic for itself, and the mutex that is held while they are done. Between any two steps of one
party the others take theirs, so jobs under different mutexes mix.

What lies under one mutex is a `View` of the shared state: jobs under others leave it as it is.
`Protocol.serial` says that such a view is one on which the jobs were done whole, one after the
other in the order in which the run takes the mutex (`taken`), up to the rest of the job that is
being done.
`Protocol.completes` says that no job is stuck: from every state of a run it can be done without
a new one being asked for.
-/

namespace Framework

namespace Critical

variable {P J M A σ τ : Type}

/-- How jobs are done: the mutex that each holds, its actions, and what an action does. -/
structure Protocol (J M A σ : Type) where
  mutex : J → M
  actions : J → List A
  perform : σ → A → σ

/-- Where a party is: it has no job, waits for the mutex of its job, or holds it with some
actions left. -/
inductive Phase (J A : Type)
  | outside
  | waiting (job : J)
  | inside (job : J) (rest : List A)

/-- The parties, the mutexes with who holds them, and the shared state. -/
structure State (P J M A σ : Type) where
  phase : P → Phase J A
  owner : M → Option P
  shared : σ

/-- The steps of a party. -/
inductive Label (P J : Type)
  | enter (p : P) (job : J)
  | lock (p : P)
  | act (p : P)
  | unlock (p : P)

/-- The step gives a party a job. -/
def Label.Enters : Label P J → Prop
  | .enter _ _ => True
  | _ => False

variable {c : Protocol J M A σ} {s s' : State P J M A σ} {p : P} {m : M} {job : J} {rest : List A}

/-- The actions that are left of the job under a mutex. -/
def State.pending (s : State P J M A σ) (m : M) : List A :=
  match s.owner m with
  | none => []
  | some p => match s.phase p with
    | .inside _ rest => rest
    | _ => []

theorem pending_of_free (h : s.owner m = none) : s.pending m = [] := by
  rw [State.pending, h]

theorem pending_of_inside (h : s.owner m = some p) (hp : s.phase p = .inside job rest) :
    s.pending m = rest := by
  rw [State.pending, h]
  dsimp only
  rw [hp]

/-- Only who holds the mutex counts for what is left to do under it. -/
theorem pending_congr (howner : s'.owner m = s.owner m)
    (hphase : ∀ q, s.owner m = some q → s'.phase q = s.phase q) :
    s'.pending m = s.pending m := by
  rw [State.pending, State.pending, howner]
  cases hm : s.owner m with
  | none => rfl
  | some q =>
    dsimp only
    rw [hphase q hm]

/-- Who is inside holds the mutex of its job, and does the last of its actions. -/
structure Exclusive (c : Protocol J M A σ) (s : State P J M A σ) : Prop where
  holds : ∀ p job rest, s.phase p = .inside job rest → s.owner (c.mutex job) = some p
  held : ∀ m p, s.owner m = some p → ∃ job rest, s.phase p = .inside job rest ∧ c.mutex job = m
  suffix : ∀ p job rest, s.phase p = .inside job rest → rest <:+ c.actions job

/-- The part of the shared state that is under one mutex, and what the actions do there. -/
structure View (c : Protocol J M A σ) (m : M) (τ : Type) where
  view : σ → τ
  perform : τ → A → τ
  own : ∀ job, c.mutex job = m → ∀ a ∈ c.actions job, ∀ s,
    view (c.perform s a) = perform (view s) a
  other : ∀ job, c.mutex job ≠ m → ∀ a ∈ c.actions job, ∀ s, view (c.perform s a) = view s

/-- The view after the rest of the job under its mutex is done. -/
def settled {m : M} (v : View c m τ) (s : State P J M A σ) : τ :=
  (s.pending m).foldl v.perform (v.view s.shared)

/-- The view after jobs are done whole, one after the other. -/
def whole {m : M} (v : View c m τ) (t : τ) (done : List (P × J)) : τ :=
  done.foldl (fun t x => (c.actions x.2).foldl v.perform t) t

/-- A step of a party that is not inside under the mutex, and does not take it. -/
theorem settled_of_other (hs : Exclusive c s) (v : View c m τ)
    (hp : ∀ job rest, s.phase p = .inside job rest → c.mutex job ≠ m)
    (hphase : ∀ q, q ≠ p → s'.phase q = s.phase q) (howner : s'.owner m = s.owner m)
    (hshared : v.view s'.shared = v.view s.shared) : settled v s' = settled v s := by
  have hpending : s'.pending m = s.pending m := by
    -- the holder of the mutex is inside under it, so it is not `p`
    refine pending_congr howner fun q hq => hphase q ?_
    rintro rfl
    obtain ⟨job, rest, hin, hjob⟩ := hs.held m q hq
    exact hp job rest hin hjob
  rw [settled, settled, hpending, hshared]

variable [DecidableEq M]

/-- The job that a party waits to do under a mutex. -/
def State.waiting (c : Protocol J M A σ) (s : State P J M A σ) (m : M) (p : P) : List J :=
  match s.phase p with
  | .waiting job => if c.mutex job = m then [job] else []
  | _ => []

theorem waiting_of_waiting (hp : s.phase p = .waiting job) :
    s.waiting c m p = if c.mutex job = m then [job] else [] := by
  rw [State.waiting, hp]

theorem waiting_of_outside (hp : s.phase p = .outside) : s.waiting c m p = [] := by
  rw [State.waiting, hp]

theorem waiting_of_inside (hp : s.phase p = .inside job rest) : s.waiting c m p = [] := by
  rw [State.waiting, hp]

theorem waiting_congr (hp : s'.phase p = s.phase p) : s'.waiting c m p = s.waiting c m p := by
  rw [State.waiting, State.waiting, hp]

variable [DecidableEq P]

/-- The parties at work. -/
def Protocol.system (c : Protocol J M A σ) : System (State P J M A σ) (Label P J) where
  init s := (∀ p, s.phase p = .outside) ∧ ∀ m, s.owner m = none
  next s
    | .enter p job => match s.phase p with
      | .outside => some { s with phase := Function.update s.phase p (.waiting job) }
      | _ => none
    -- a mutex that is held is waited for
    | .lock p => match s.phase p with
      | .waiting job => match s.owner (c.mutex job) with
        | none => some { s with
            phase := Function.update s.phase p (.inside job (c.actions job))
            owner := Function.update s.owner (c.mutex job) (some p) }
        | some _ => none
      | _ => none
    | .act p => match s.phase p with
      | .inside job (a :: rest) => some { s with
          phase := Function.update s.phase p (.inside job rest)
          shared := c.perform s.shared a }
      | _ => none
    | .unlock p => match s.phase p with
      | .inside job [] => some { s with
          phase := Function.update s.phase p .outside
          owner := Function.update s.owner (c.mutex job) none }
      | _ => none

/-- The job for which the step takes a mutex, with its party. -/
def taken (c : Protocol J M A σ) (m : M) (s : State P J M A σ) : Label P J → List (P × J)
  | .lock p => (s.waiting c m p).map fun job => (p, job)
  | _ => []

/-- The jobs under a mutex that a party was given, in order. -/
def entered (c : Protocol J M A σ) (m : M) (p : P) (ls : List (Label P J)) : List J :=
  ls.filterMap fun
    | .enter q job => if q = p ∧ c.mutex job = m then some job else none
    | _ => none

/-- The jobs of one party, of those that were done. -/
def jobsOf (p : P) (done : List (P × J)) : List J :=
  done.filterMap fun x => if x.1 = p then some x.2 else none

/-! ### Every step -/

/-- What each step does, with what it needs. -/
theorem next_cases {l : Label P J} (h : c.system.next s l = some s') :
    (∃ p job, l = .enter p job ∧ s.phase p = .outside ∧
      s' = { s with phase := Function.update s.phase p (.waiting job) }) ∨
    (∃ p job, l = .lock p ∧ s.phase p = .waiting job ∧ s.owner (c.mutex job) = none ∧
      s' = { s with
        phase := Function.update s.phase p (.inside job (c.actions job))
        owner := Function.update s.owner (c.mutex job) (some p) }) ∨
    (∃ p job a rest, l = .act p ∧ s.phase p = .inside job (a :: rest) ∧
      s' = { s with
        phase := Function.update s.phase p (.inside job rest)
        shared := c.perform s.shared a }) ∨
    ∃ p job, l = .unlock p ∧ s.phase p = .inside job [] ∧
      s' = { s with
        phase := Function.update s.phase p .outside
        owner := Function.update s.owner (c.mutex job) none } := by
  cases l with
  | enter p job =>
    simp only [Protocol.system] at h
    split at h
    · exact .inl ⟨p, job, rfl, ‹_›, (Option.some.inj h).symm⟩
    · cases h
  | lock p =>
    simp only [Protocol.system] at h
    split at h
    · split at h
      · exact .inr (.inl ⟨p, _, rfl, ‹_›, ‹_›, (Option.some.inj h).symm⟩)
      · cases h
    · cases h
  | act p =>
    simp only [Protocol.system] at h
    split at h
    · exact .inr (.inr (.inl ⟨p, _, _, _, rfl, ‹_›, (Option.some.inj h).symm⟩))
    · cases h
  | unlock p =>
    simp only [Protocol.system] at h
    split at h
    · exact .inr (.inr (.inr ⟨p, _, rfl, ‹_›, (Option.some.inj h).symm⟩))
    · cases h

theorem exclusive_of_init (h : c.system.init s) : Exclusive c s := by
  refine ⟨fun p job rest hp => ?_, fun m p hm => ?_, fun p job rest hp => ?_⟩
  · rw [h.1 p] at hp
    cases hp
  · rw [h.2 m] at hm
    cases hm
  · rw [h.1 p] at hp
    cases hp

/-- **Mutual exclusion**, step by step. -/
theorem Exclusive.next (h : Exclusive c s) {l : Label P J} (hnext : c.system.next s l = some s') :
    Exclusive c s' := by
  obtain ⟨holds, held, suffix⟩ := h
  rcases next_cases hnext with ⟨p, job, rfl, hp, rfl⟩ | ⟨p, job, rfl, hp, hfree, rfl⟩ |
    ⟨p, job, a, rest, rfl, hp, rfl⟩ | ⟨p, job, rfl, hp, rfl⟩
  · -- `enter`
    refine ⟨fun q => ?_, fun m q hm => ?_, fun q => ?_⟩
    · grind
    · grind
    · grind
  · -- `lock`: the mutex is free, so nobody else is inside under it
    refine ⟨fun q => ?_, fun m q hm => ?_, fun q => ?_⟩
    · grind
    · grind
    · grind [List.suffix_refl]
  · -- `act`
    refine ⟨fun q => ?_, fun m q hm => ?_, fun q => ?_⟩
    · grind
    · grind
    · grind [List.suffix_cons]
  · -- `unlock`: the others hold other mutexes
    refine ⟨fun q => ?_, fun m q hm => ?_, fun q => ?_⟩
    · grind
    · grind
    · grind

theorem entered_append (seen : List (Label P J)) (l : Label P J) :
    entered c m p (seen ++ [l]) = entered c m p seen ++ entered c m p [l] :=
  List.filterMap_append

theorem entered_enter (q : P) : entered c m p [.enter q job] =
    if q = p ∧ c.mutex job = m then [job] else [] := by
  rw [entered, List.filterMap_cons, List.filterMap_nil]
  dsimp only
  split_ifs <;> rfl

theorem jobsOf_append (done : List (P × J)) (x : P × J) :
    jobsOf p (done ++ [x]) = jobsOf p done ++ if x.1 = p then [x.2] else [] := by
  rw [jobsOf, jobsOf, List.filterMap_append]
  split_ifs with h <;> simp [h]

/-- What a run of steps has made of what is under one mutex: the jobs `done` one after the
other, which are for each party those that it was given, in order, but for the one that it
waits to do. -/
structure Serial {m : M} (v : View c m τ) (t : τ) (seen : List (Label P J))
    (s : State P J M A σ) (done : List (P × J)) : Prop where
  mutex : ∀ x ∈ done, c.mutex x.2 = m
  settled : settled v s = whole v t done
  order : ∀ p, entered c m p seen = jobsOf p done ++ s.waiting c m p

section Step

variable {v : View c m τ} {t : τ} {seen : List (Label P J)} {done : List (P × J)}

/-- A step that gives nobody a job, after which the same parties wait. -/
theorem Serial.quiet (h : Serial v t seen s done) {l : Label P J}
    (hl : ∀ p, entered c m p [l] = []) (hwaiting : ∀ p, s'.waiting c m p = s.waiting c m p)
    (hsettled : Critical.settled v s' = Critical.settled v s) :
    Serial v t (seen ++ [l]) s' done := by
  refine ⟨h.mutex, hsettled.trans h.settled, fun p => ?_⟩
  rw [entered_append, hl, List.append_nil, h.order, hwaiting]

theorem Serial.enter (hs : Exclusive c s) (h : Serial v t seen s done)
    (hp : s.phase p = .outside) :
    Serial v t (seen ++ [.enter p job])
      { s with phase := Function.update s.phase p (.waiting job) } done := by
  refine ⟨h.mutex, ?_, fun q => ?_⟩
  · -- a party that is outside holds no mutex
    rw [← h.settled]
    exact settled_of_other (p := p) hs v (by grind) (fun q hq => Function.update_of_ne hq _ _) rfl
      rfl
  · -- the job that it is given is the one that it waits to do
    rw [entered_append, entered_enter, h.order]
    by_cases hq : q = p
    · subst hq
      rw [waiting_of_outside hp, List.append_nil, waiting_of_waiting (Function.update_self _ _ _)]
      simp
    · rw [if_neg fun hpq => hq hpq.1.symm, List.append_nil]
      exact congrArg _ (waiting_congr (Function.update_of_ne hq _ _)).symm

/-- Taking the mutex is where a job counts as done. -/
theorem Serial.lock (hs : Exclusive c s) (h : Serial v t seen s done)
    (hp : s.phase p = .waiting job) (hfree : s.owner (c.mutex job) = none) :
    Serial v t (seen ++ [.lock p]) { s with
      phase := Function.update s.phase p (.inside job (c.actions job))
      owner := Function.update s.owner (c.mutex job) (some p) } (done ++ taken c m s (.lock p)) := by
  rw [taken, waiting_of_waiting hp]
  by_cases hm : c.mutex job = m
  · subst hm
    rw [if_pos rfl, List.map_singleton]
    refine ⟨fun x hx => ?_, ?_, fun q => ?_⟩
    · -- the job is done, or was before
      rcases List.mem_append.mp hx with hx | hx
      · exact h.mutex x hx
      · rw [List.mem_singleton.mp hx]
    · -- all that the job does is still left
      rw [whole, List.foldl_concat, ← whole, ← h.settled, Critical.settled, Critical.settled,
        pending_of_inside (Function.update_self _ _ _) (Function.update_self _ _ _),
        pending_of_free hfree]
      rfl
    · -- the job is not waited for any more, and is the last that was done
      rw [entered_append, h.order, jobsOf_append]
      by_cases hq : q = p
      · subst hq
        rw [waiting_of_waiting hp, waiting_of_inside (Function.update_self _ _ _)]
        simp [entered]
      · rw [if_neg (Ne.symm hq), List.append_nil]
        exact (List.append_nil _).trans
          (congrArg _ (waiting_congr (Function.update_of_ne hq _ _)).symm)
  · -- another mutex
    rw [if_neg hm, List.map_nil, List.append_nil]
    refine h.quiet (fun _ => rfl) (fun q => ?_) ?_
    · by_cases hq : q = p
      · subst hq
        rw [waiting_of_waiting hp, waiting_of_inside (Function.update_self _ _ _), if_neg hm]
      · exact waiting_congr (Function.update_of_ne hq _ _)
    · exact settled_of_other (p := p) hs v (by grind)
        (fun q hq => Function.update_of_ne hq _ _) (Function.update_of_ne (Ne.symm hm) _ _) rfl

theorem Serial.act (hs : Exclusive c s) (h : Serial v t seen s done)
    (hp : s.phase p = .inside job (a :: rest)) :
    Serial v t (seen ++ [.act p]) { s with
      phase := Function.update s.phase p (.inside job rest)
      shared := c.perform s.shared a } done := by
  have hmem : a ∈ c.actions job := (hs.suffix p job _ hp).subset List.mem_cons_self
  refine h.quiet (fun _ => rfl) (fun q => ?_) ?_
  · by_cases hq : q = p
    · subst hq
      rw [waiting_of_inside hp, waiting_of_inside (Function.update_self _ _ _)]
    · exact waiting_congr (Function.update_of_ne hq _ _)
  · -- the action goes from what is left into the view
    by_cases hm : c.mutex job = m
    · subst hm
      have hpending : State.pending { s with
          phase := Function.update s.phase p (.inside job rest)
          shared := c.perform s.shared a } (c.mutex job) = rest :=
        pending_of_inside (hs.holds p job _ hp) (Function.update_self _ _ _)
      rw [Critical.settled, Critical.settled, pending_of_inside (hs.holds p job _ hp) hp,
        hpending, List.foldl_cons, v.own job rfl a hmem]
    · exact settled_of_other (p := p) hs v (by grind) (fun q hq => Function.update_of_ne hq _ _)
        rfl (v.other job hm a hmem s.shared)

theorem Serial.unlock (hs : Exclusive c s) (h : Serial v t seen s done)
    (hp : s.phase p = .inside job []) :
    Serial v t (seen ++ [.unlock p]) { s with
      phase := Function.update s.phase p .outside
      owner := Function.update s.owner (c.mutex job) none } done := by
  refine h.quiet (fun _ => rfl) (fun q => ?_) ?_
  · by_cases hq : q = p
    · subst hq
      rw [waiting_of_inside hp, waiting_of_outside (Function.update_self _ _ _)]
    · exact waiting_congr (Function.update_of_ne hq _ _)
  · -- nothing was left to do
    by_cases hm : c.mutex job = m
    · subst hm
      rw [Critical.settled, Critical.settled, pending_of_inside (hs.holds p job _ hp) hp,
        pending_of_free (Function.update_self _ _ _)]
    · exact settled_of_other (p := p) hs v (by grind) (fun q hq => Function.update_of_ne hq _ _)
        (Function.update_of_ne (Ne.symm hm) _ _) rfl

/-- A step adds the job of who takes the mutex, and no other. -/
theorem Serial.next (hs : Exclusive c s) (h : Serial v t seen s done) {l : Label P J}
    (hnext : c.system.next s l = some s') :
    Serial v t (seen ++ [l]) s' (done ++ taken c m s l) := by
  rcases next_cases hnext with ⟨p, job, rfl, hp, rfl⟩ | ⟨p, job, rfl, hp, hfree, rfl⟩ |
    ⟨p, job, a, rest, rfl, hp, rfl⟩ | ⟨p, job, rfl, hp, rfl⟩
  · change Serial v t _ _ (done ++ [])
    rw [List.append_nil]
    exact h.enter hs hp
  · exact h.lock hs hp hfree
  · change Serial v t _ _ (done ++ [])
    rw [List.append_nil]
    exact h.act hs hp
  · change Serial v t _ _ (done ++ [])
    rw [List.append_nil]
    exact h.unlock hs hp

end Step

/-! ### Every run -/

/-- Mutual exclusion, over every run. -/
theorem Protocol.exclusive (hinit : c.system.init s) {ls : List (Label P J)}
    (hrun : c.system.run s ls = some s') : Exclusive c s' :=
  System.run_invariant (P := fun _ _ => True) (fun _ _ _ h _ hnext => h.next hnext)
    (exclusive_of_init hinit) (.of_forall fun _ _ => trivial) hrun

/-- **Jobs are done whole.** What lies under a mutex is, when the job that is being done there
comes to its end, what the jobs make of it one after the other in the order in which the run
takes the mutex, and those of each party are in the order in which it was given them. -/
theorem Protocol.serial (v : View c m τ) (hinit : c.system.init s) {ls : List (Label P J)}
    (hrun : c.system.run s ls = some s') :
    Serial v (v.view s.shared) ls s' (c.system.trace (taken c m) s ls) := by
  have hstart : Serial v (v.view s.shared) [] s [] := by
    refine ⟨fun _ hx => absurd hx List.not_mem_nil, ?_, fun p => ?_⟩
    · rw [settled, pending_of_free (hinit.2 m)]
      rfl
    · rw [waiting_of_outside (hinit.1 p)]
      rfl
  -- the invariant needs what the run has seen, since the order is that of the calls
  refine (System.run_history (P := fun _ _ => True)
    (I := fun seen s' => c.system.run s seen = some s' ∧ Exclusive c s' ∧
      Serial v (v.view s.shared) seen s' (c.system.trace (taken c m) s seen))
    (fun seen s₁ l s₂ ⟨hseen, hs, h⟩ _ hnext => ⟨?_, hs.next hnext, ?_⟩)
    ⟨rfl, exclusive_of_init hinit, hstart⟩ (.of_forall fun _ _ => trivial) hrun).2.2
  · rw [System.run_append, hseen, Option.bind_some, System.run_cons, hnext]
    rfl
  · rw [System.trace_append _ hseen, System.trace_cons hnext]
    exact (List.append_nil (taken c m s₁ l)).symm ▸ h.next hs hnext

/-- Who is inside can do the rest of its job and leave. -/
theorem leaves (rest : List A) : ∀ s : State P J M A σ, s.phase p = .inside job rest →
    ∃ more s', c.system.run s more = some s' ∧ s'.phase = Function.update s.phase p .outside ∧
      s'.owner = Function.update s.owner (c.mutex job) none ∧
      s'.shared = rest.foldl c.perform s.shared ∧ ∀ l ∈ more, ¬ l.Enters := by
  -- in every state, as each action changes it
  induction rest with
  | nil =>
    intro s hp
    refine ⟨[.unlock p], { s with
      phase := Function.update s.phase p .outside
      owner := Function.update s.owner (c.mutex job) none },
      System.run_cons_eq_some.mpr ⟨_, ?_, rfl⟩, rfl, rfl, rfl, fun l hl => ?_⟩
    · simp only [Protocol.system, hp]
    · rw [List.mem_singleton.mp hl]
      exact not_false
  | cons a rest ih =>
    intro s hp
    obtain ⟨more, s', hrun, hphase, howner, hshared, hlabels⟩ := ih { s with
      phase := Function.update s.phase p (.inside job rest)
      shared := c.perform s.shared a } (Function.update_self _ _ _)
    refine ⟨.act p :: more, s', System.run_cons_eq_some.mpr ⟨_, ?_, hrun⟩, ?_, howner,
      hshared, fun l hl => ?_⟩
    · simp only [Protocol.system, hp]
    · rw [hphase, Function.update_idem]
    · rcases List.mem_cons.mp hl with rfl | hl
      · exact not_false
      · exact hlabels l hl

/-- Who waits for a mutex that is free can take it, do its job and leave. -/
theorem takes (hp : s.phase p = .waiting job) (hfree : s.owner (c.mutex job) = none) :
    ∃ more s', c.system.run s more = some s' ∧ s'.phase p = .outside ∧
      ∀ l ∈ more, ¬ l.Enters := by
  obtain ⟨more, s', hrun, hphase, -, -, hlabels⟩ := leaves (c := c) (c.actions job) { s with
    phase := Function.update s.phase p (.inside job (c.actions job))
    owner := Function.update s.owner (c.mutex job) (some p) } (Function.update_self _ _ _)
  refine ⟨.lock p :: more, s', System.run_cons_eq_some.mpr ⟨_, ?_, hrun⟩, ?_, fun l hl => ?_⟩
  · simp only [Protocol.system, hp, hfree]
  · rw [hphase, Function.update_self]
  · rcases List.mem_cons.mp hl with rfl | hl
    · exact not_false
    · exact hlabels l hl

/-- **No job is stuck.** A party that has one can be done with it before anybody is given
another. -/
theorem Protocol.completes (hinit : c.system.init s) {ls : List (Label P J)}
    (hrun : c.system.run s ls = some s') (p : P) :
    ∃ more s'', c.system.run s' more = some s'' ∧ s''.phase p = .outside ∧
      ∀ l ∈ more, ¬ l.Enters := by
  have hs := Protocol.exclusive hinit hrun
  cases hp : s'.phase p with
  | outside => exact ⟨[], s', rfl, hp, fun _ hl => absurd hl List.not_mem_nil⟩
  | inside job rest =>
    obtain ⟨more, s'', hmore, hphase, -, -, hlabels⟩ := leaves rest s' hp
    exact ⟨more, s'', hmore, by rw [hphase, Function.update_self], hlabels⟩
  | waiting job =>
    cases howner : s'.owner (c.mutex job) with
    | none => exact takes hp howner
    | some q =>
      -- whoever has the mutex leaves first
      obtain ⟨job', rest, hq, hjob⟩ := hs.held _ q howner
      obtain ⟨more, s₁, hmore, hphase, howner₁, -, hlabels⟩ := leaves rest s' hq
      have hp₁ : s₁.phase p = .waiting job := by
        rw [hphase, Function.update_of_ne (by grind), hp]
      have hfree : s₁.owner (c.mutex job) = none := by
        rw [howner₁, hjob, Function.update_self]
      obtain ⟨more', s'', hmore', hout, hlabels'⟩ := takes hp₁ hfree
      refine ⟨more ++ more', s'', ?_, hout, fun l hl => ?_⟩
      · rw [System.run_append, hmore]
        exact hmore'
      · exact (List.mem_append.mp hl).elim (hlabels l) (hlabels' l)

end Critical

end Framework
