import Mathlib.Data.List.Basic
import Mathlib.Order.Nat
import Mathlib.Tactic.ByContra

/-!
# Labelled systems and their runs

A `System` is a set of initial states and a partial step function indexed by
labels: the label says which party moves and what the environment answers, so
`next` is deterministic and every interleaving is a list of labels. A run is
that list, `System.run` the state it ends in.

Everything a development proves about runs goes through seven rules:

* `System.run_invariant` — a property that holds at the start and that every
  step keeps holds at the end. The step hypothesis may use `P`, a condition that
  `Guarded` imposes on the steps of the run, each at its own pre-state.
* `System.run_progress` — a run whose steps are all enabled comes to its end.
* `System.always_of_guarded`, `System.always_iff_guarded` — what the invariant implies
  holds throughout, and the condition is exact when breaking it always leads to a
  state that breaks the property.
* `System.run_history` — the same for a property of the labels seen so far
  together with the state.
* `System.run_project` — a system each of whose steps is some steps of another has
  runs that are runs of the other.
* `System.run_simulates` — a computation that matches every step of the system, up
  to a relation, matches its runs.
* `System.tally_le` — the ledger rule. A potential on states that every step
  raises by no more than it earns bounds the total spent by the total earned.
-/

namespace Framework

/-- A labelled system: the states a run may start in, and the step each label
takes. `next s l = none` when `l` is not enabled in `s`. -/
structure System (State Label : Type*) where
  init : State → Prop
  next : State → Label → Option State

namespace System

variable {State Label : Type*} (sys : System State Label)

/-- The state after the labels `ls`, `none` when one of them is not enabled. -/
def run (s : State) : List Label → Option State
  | [] => some s
  | l :: ls => (sys.next s l).bind fun s' => run s' ls

/-- Every step of the run satisfies `P` at the state it is taken from. -/
def Guarded (P : State → Label → Prop) (s : State) : List Label → Prop
  | [] => True
  | l :: ls => P s l ∧ ∀ s', sys.next s l = some s' → Guarded P s' ls

/-- Every state the run goes through, the first included, satisfies `I`. -/
def Always (I : State → Prop) (s : State) (ls : List Label) : Prop :=
  ∀ n s', sys.run s (ls.take n) = some s' → I s'

/-- The sum of `w` over the steps of the run. With an indicator for `w` this
counts the steps of one kind. -/
def tally (w : State → Label → ℕ) (s : State) : List Label → ℕ
  | [] => 0
  | l :: ls => w s l + (sys.next s l).elim 0 fun s' => tally w s' ls

/-- What `w` gives for the steps of the run, one after the other. -/
def trace {α : Type*} (w : State → Label → List α) (s : State) : List Label → List α
  | [] => []
  | l :: ls => w s l ++ (sys.next s l).elim [] fun s' => trace w s' ls

variable {sys}

theorem run_cons (s : State) (l : Label) (ls : List Label) :
    sys.run s (l :: ls) = (sys.next s l).bind fun s' => sys.run s' ls := rfl

/-- Inverting the first step of a run. -/
theorem run_cons_eq_some {s s'' : State} {l : Label} {ls : List Label} :
    sys.run s (l :: ls) = some s'' ↔
      ∃ s', sys.next s l = some s' ∧ sys.run s' ls = some s'' := by
  rw [run_cons, Option.bind_eq_some_iff]

theorem run_append (s : State) (ls ls' : List Label) :
    sys.run s (ls ++ ls') = (sys.run s ls).bind fun s' => sys.run s' ls' := by
  induction ls generalizing s with
  | nil => rfl
  | cons l ls ih =>
    -- both sides take the step `l` first
    rw [List.cons_append, run_cons, run_cons]
    cases h : sys.next s l with
    | none => rfl
    | some s' => exact ih s'

theorem trace_cons {α : Type*} {w : State → Label → List α} {s s' : State} {l : Label}
    (hnext : sys.next s l = some s') (ls : List Label) :
    sys.trace w s (l :: ls) = w s l ++ sys.trace w s' ls := by
  rw [trace, hnext]
  rfl

/-- The rest of a run starts where the run is. -/
theorem trace_append {α : Type*} (w : State → Label → List α) {s s' : State} {ls : List Label}
    (hrun : sys.run s ls = some s') (ls' : List Label) :
    sys.trace w s (ls ++ ls') = sys.trace w s ls ++ sys.trace w s' ls' := by
  induction ls generalizing s with
  | nil =>
    obtain rfl : s = s' := Option.some.inj hrun
    rfl
  | cons l ls ih =>
    obtain ⟨s₁, h₁, h₂⟩ := run_cons_eq_some.mp hrun
    rw [List.cons_append, trace_cons h₁, trace_cons h₁, ih h₂, List.append_assoc]

/-- What the guard implies in the states of an invariant guards the run too. -/
theorem Guarded.of_invariant {P Q : State → Label → Prop} {I : State → Prop}
    (hstep : ∀ s l s', I s → P s l → sys.next s l = some s' → I s')
    (hPQ : ∀ s l, I s → P s l → Q s l) {s : State} {ls : List Label} (hI : I s)
    (h : sys.Guarded P s ls) : sys.Guarded Q s ls := by
  induction ls generalizing s with
  | nil => trivial
  | cons l ls ih =>
    exact ⟨hPQ s l hI h.1, fun s' hs' => ih (hstep s l s' hI h.1 hs') (h.2 s' hs')⟩

theorem Guarded.mono {P Q : State → Label → Prop} (hPQ : ∀ s l, P s l → Q s l) {s : State}
    {ls : List Label} (h : sys.Guarded P s ls) : sys.Guarded Q s ls :=
  Guarded.of_invariant (I := fun _ => True) (fun _ _ _ _ _ _ => trivial)
    (fun s l _ hP => hPQ s l hP) trivial h

/-- The rest of a guarded run is guarded. -/
theorem Guarded.rest {P : State → Label → Prop} {s s' : State} {ls ls' : List Label}
    (h : sys.Guarded P s (ls ++ ls')) (hrun : sys.run s ls = some s') :
    sys.Guarded P s' ls' := by
  induction ls generalizing s with
  | nil =>
    obtain rfl : s = s' := Option.some.inj hrun
    exact h
  | cons l ls ih =>
    obtain ⟨s₁, h₁, h₂⟩ := run_cons_eq_some.mp hrun
    exact ih (h.2 s₁ h₁) h₂

/-- Guarding a run step by step. -/
theorem Guarded.cons {P : State → Label → Prop} {s s' : State} {l : Label} {ls : List Label}
    (hP : P s l) (hnext : sys.next s l = some s') (h : sys.Guarded P s' ls) :
    sys.Guarded P s (l :: ls) := by
  refine ⟨hP, fun s₁ hs₁ => ?_⟩
  obtain rfl : s' = s₁ := Option.some.inj (hnext.symm.trans hs₁)
  exact h

/-- **The invariant rule.** What every guarded step keeps, every guarded run
keeps. -/
theorem run_invariant {P : State → Label → Prop} {I : State → Prop}
    (hstep : ∀ s l s', I s → P s l → sys.next s l = some s' → I s')
    {s s' : State} {ls : List Label} (hI : I s) (hP : sys.Guarded P s ls)
    (hrun : sys.run s ls = some s') : I s' := by
  induction ls generalizing s with
  | nil =>
    obtain rfl : s = s' := Option.some.inj hrun
    exact hI
  | cons l ls ih =>
    obtain ⟨s₁, h₁, h₂⟩ := run_cons_eq_some.mp hrun
    exact ih (hstep s l s₁ hI hP.1 h₁) (hP.2 s₁ h₁) h₂

theorem always_cons {I : State → Prop} {s : State} {l : Label} {ls : List Label} :
    sys.Always I s (l :: ls) ↔ I s ∧ ∀ s', sys.next s l = some s' → sys.Always I s' ls := by
  constructor
  · intro h
    -- a prefix of the rest is a prefix of the run, one step longer
    refine ⟨h 0 s rfl, fun s₁ h₁ n s' hrun => h (n + 1) s' ?_⟩
    rw [List.take_succ_cons, run_cons, h₁]
    exact hrun
  · rintro ⟨hs, h⟩ n s' hrun
    cases n with
    | zero =>
      obtain rfl : s = s' := Option.some.inj hrun
      exact hs
    | succ n =>
      rw [List.take_succ_cons] at hrun
      obtain ⟨s₁, h₁, h₂⟩ := run_cons_eq_some.mp hrun
      exact h s₁ h₁ n s' h₂

/-- What every guarded step keeps, and implies `I`, gives `I` throughout a guarded
run. -/
theorem always_of_guarded {P : State → Label → Prop} {J I : State → Prop}
    (hstep : ∀ s l s', J s → P s l → sys.next s l = some s' → J s')
    (hJ : ∀ s, J s → I s) {s : State} {ls : List Label} (hs : J s) (hP : sys.Guarded P s ls) :
    sys.Always I s ls := by
  induction ls generalizing s with
  | nil =>
    intro n s' hrun
    rw [List.take_nil] at hrun
    obtain rfl : s = s' := Option.some.inj hrun
    exact hJ s hs
  | cons l ls ih =>
    exact always_cons.mpr ⟨hJ s hs, fun s' h' => ih (hstep s l s' hs hP.1 h') (hP.2 s' h')⟩

/-- **The exact condition.** If the guarded steps keep an invariant that implies
`I`, and a step that breaks the guard is one into a state without `I`, then a run
has `I` throughout exactly when it is guarded. -/
theorem always_iff_guarded {P : State → Label → Prop} {J I : State → Prop}
    (hstep : ∀ s l s', J s → P s l → sys.next s l = some s' → J s')
    (hJ : ∀ s, J s → I s)
    (hbreak : ∀ s l, J s → ¬ P s l → ∃ s', sys.next s l = some s' ∧ ¬ I s')
    {s : State} (hs : J s) (ls : List Label) : sys.Always I s ls ↔ sys.Guarded P s ls := by
  refine ⟨fun h => ?_, always_of_guarded hstep hJ hs⟩
  induction ls generalizing s with
  | nil => trivial
  | cons l ls ih =>
    have hrest := (always_cons.mp h).2
    -- a step that broke the guard would have led out of `I`
    have hP : P s l := by
      by_contra hP
      obtain ⟨s', h', hI⟩ := hbreak s l hs hP
      exact hI (hrest s' h' 0 s' rfl)
    exact ⟨hP, fun s' h' => ih (hstep s l s' hs hP h') (hrest s' h')⟩

theorem Guarded.and {P Q : State → Label → Prop} {s : State} {ls : List Label}
    (hP : sys.Guarded P s ls) (hQ : sys.Guarded Q s ls) :
    sys.Guarded (fun s l => P s l ∧ Q s l) s ls := by
  induction ls generalizing s with
  | nil => trivial
  | cons l ls ih => exact ⟨⟨hP.1, hQ.1⟩, fun s' h' => ih (hP.2 s' h') (hQ.2 s' h')⟩

/-- The same under a further condition `A` on the steps. -/
theorem always_iff_guarded_and {A P : State → Label → Prop} {J I : State → Prop}
    (hstep : ∀ s l s', J s → A s l ∧ P s l → sys.next s l = some s' → J s')
    (hJ : ∀ s, J s → I s)
    (hbreak : ∀ s l, J s → A s l → ¬ P s l → ∃ s', sys.next s l = some s' ∧ ¬ I s')
    {s : State} {ls : List Label} (hs : J s) (hA : sys.Guarded A s ls) :
    sys.Always I s ls ↔ sys.Guarded P s ls := by
  refine ⟨fun h => ?_, fun hP => always_of_guarded hstep hJ hs (hA.and hP)⟩
  induction ls generalizing s with
  | nil => trivial
  | cons l ls ih =>
    have hrest := (always_cons.mp h).2
    have hP : P s l := by
      by_contra hP
      obtain ⟨s', h', hI⟩ := hbreak s l hs hA.1 hP
      exact hI (hrest s' h' 0 s' rfl)
    exact ⟨hP, fun s' h' => ih (hstep s l s' hs ⟨hA.1, hP⟩ h') (hA.2 s' h') (hrest s' h')⟩

/-- On a run that comes to its end a step that breaks the guard need not be enabled. -/
theorem always_iff_guarded_of_run {A P : State → Label → Prop} {J I : State → Prop}
    (hstep : ∀ s l s', J s → A s l → P s l → sys.next s l = some s' → J s')
    (hJ : ∀ s, J s → I s)
    (hbreak : ∀ s l s', J s → A s l → ¬ P s l → sys.next s l = some s' → ¬ I s')
    {s s' : State} {ls : List Label} (hs : J s) (hA : sys.Guarded A s ls)
    (hrun : sys.run s ls = some s') : sys.Always I s ls ↔ sys.Guarded P s ls := by
  refine ⟨fun h => ?_, fun hP => always_of_guarded (P := fun s l => A s l ∧ P s l)
    (fun s l s' hJs hAP => hstep s l s' hJs hAP.1 hAP.2) hJ hs (hA.and hP)⟩
  induction ls generalizing s with
  | nil => trivial
  | cons l ls ih =>
    obtain ⟨s₁, h₁, h₂⟩ := run_cons_eq_some.mp hrun
    have hrest := (always_cons.mp h).2 s₁ h₁
    have hP : P s l := by
      by_contra hP
      exact hbreak s l s₁ hs hA.1 hP h₁ (hrest 0 s₁ rfl)
    exact .cons hP h₁ (ih (hstep s l s₁ hs hA.1 hP h₁) (hA.2 s₁ h₁) h₂ hrest)

/-- The history rule, with the labels already seen as a parameter. -/
theorem run_history_from {P : State → Label → Prop} {I : List Label → State → Prop}
    (hstep : ∀ seen s l s', I seen s → P s l → sys.next s l = some s' → I (seen ++ [l]) s')
    {seen ls : List Label} {s s' : State} (hI : I seen s) (hP : sys.Guarded P s ls)
    (hrun : sys.run s ls = some s') : I (seen ++ ls) s' := by
  induction ls generalizing s seen with
  | nil =>
    obtain rfl : s = s' := Option.some.inj hrun
    rw [List.append_nil]
    exact hI
  | cons l ls ih =>
    obtain ⟨s₁, h₁, h₂⟩ := run_cons_eq_some.mp hrun
    -- the rest of the run starts with `l` seen
    have h := ih (hstep seen s l s₁ hI hP.1 h₁) (hP.2 s₁ h₁) h₂
    rwa [List.append_assoc] at h

/-- **The history rule.** A property of the labels seen so far and the state,
kept by every guarded step, holds of a whole run and its end. -/
theorem run_history {P : State → Label → Prop} {I : List Label → State → Prop}
    (hstep : ∀ seen s l s', I seen s → P s l → sys.next s l = some s' → I (seen ++ [l]) s')
    {ls : List Label} {s s' : State} (hI : I [] s) (hP : sys.Guarded P s ls)
    (hrun : sys.run s ls = some s') : I ls s' :=
  run_history_from hstep hI hP hrun

/-- Guarding a run by a property of the labels. -/
theorem Guarded.of_forall {P : Label → Prop} {s : State} {ls : List Label}
    (h : ∀ l ∈ ls, P l) : sys.Guarded (fun _ l => P l) s ls := by
  induction ls generalizing s with
  | nil => trivial
  | cons l ls ih =>
    exact ⟨h l List.mem_cons_self, fun _ _ => ih fun l' hl' => h l' (List.mem_cons_of_mem _ hl')⟩

/-- **The projection rule.** If every guarded step from a state of an invariant, seen in
another system, is a run there, a guarded run is the runs of its steps, one after the
other. -/
theorem run_project_guarded {State' Label' : Type*} {sys' : System State' Label'}
    {proj : State → State'} {R : Label → List Label' → Prop} {P : State → Label → Prop}
    {I : State → Prop} (hinv : ∀ s l s', I s → P s l → sys.next s l = some s' → I s')
    (hstep : ∀ s l s', I s → P s l → sys.next s l = some s' →
      ∃ ls, R l ls ∧ sys'.run (proj s) ls = some (proj s'))
    {s s' : State} {ls : List Label} (hI : I s) (hP : sys.Guarded P s ls)
    (hrun : sys.run s ls = some s') :
    ∃ runs, List.Forall₂ R ls runs ∧ sys'.run (proj s) runs.flatten = some (proj s') := by
  induction ls generalizing s with
  | nil =>
    obtain rfl : s = s' := Option.some.inj hrun
    exact ⟨[], .nil, rfl⟩
  | cons l ls ih =>
    obtain ⟨s₁, h₁, h₂⟩ := run_cons_eq_some.mp hrun
    obtain ⟨first, hfirst, hrun₁⟩ := hstep s l s₁ hI hP.1 h₁
    -- the run of the first step, then those of the others
    obtain ⟨runs, hruns, hrun₂⟩ := ih (hinv s l s₁ hI hP.1 h₁) (hP.2 s₁ h₁) h₂
    refine ⟨first :: runs, .cons hfirst hruns, ?_⟩
    rw [List.flatten_cons, run_append, hrun₁]
    exact hrun₂

/-- The same of every run, when every step is a run there. -/
theorem run_project {State' Label' : Type*} {sys' : System State' Label'} {proj : State → State'}
    {R : Label → List Label' → Prop}
    (hstep : ∀ s l s', sys.next s l = some s' →
      ∃ ls, R l ls ∧ sys'.run (proj s) ls = some (proj s'))
    {s s' : State} {ls : List Label} (hrun : sys.run s ls = some s') :
    ∃ runs, List.Forall₂ R ls runs ∧ sys'.run (proj s) runs.flatten = some (proj s') :=
  run_project_guarded (P := fun _ _ => True) (I := fun _ => True) (fun _ _ _ _ _ _ => trivial)
    (fun s l s' _ _ => hstep s l s') trivial (.of_forall fun _ _ => trivial) hrun

/-- **The simulation rule.** If from related states a computation matches each step
of the system, the computation over a sequence of labels matches the run. -/
theorem run_simulates {M : Type → Type*} [Monad M] [LawfulMonad M] {σ : Type}
    {step : σ → Label → M σ} {R : State → σ → Prop}
    (hstep : ∀ s l s' c, R s c → sys.next s l = some s' → ∃ c', step c l = pure c' ∧ R s' c')
    {s s' : State} {c : σ} {ls : List Label} (hR : R s c) (hrun : sys.run s ls = some s') :
    ∃ c', ls.foldlM step c = pure c' ∧ R s' c' := by
  induction ls generalizing s c with
  | nil =>
    obtain rfl : s = s' := Option.some.inj hrun
    exact ⟨c, rfl, hR⟩
  | cons l ls ih =>
    obtain ⟨s₁, h₁, h₂⟩ := run_cons_eq_some.mp hrun
    obtain ⟨c₁, hc₁, hR₁⟩ := hstep s l s₁ c hR h₁
    obtain ⟨c', hc', hR'⟩ := ih hR₁ h₂
    refine ⟨c', ?_, hR'⟩
    rw [List.foldlM_cons, hc₁, pure_bind, hc']

/-- **The ledger rule.** If a step that spends `out` leaves a potential no
larger than the one before it plus what the step earns, a run spends no more
than it started with and earned. -/
theorem tally_le {P : State → Label → Prop} {I : State → Prop} {Φ : State → ℕ}
    {out inc : State → Label → ℕ}
    (hinv : ∀ s l s', I s → P s l → sys.next s l = some s' → I s')
    (hstep : ∀ s l s', I s → P s l → sys.next s l = some s' →
      Φ s' + out s l ≤ Φ s + inc s l)
    {s s' : State} {ls : List Label} (hI : I s) (hP : sys.Guarded P s ls)
    (hrun : sys.run s ls = some s') :
    Φ s' + sys.tally out s ls ≤ Φ s + sys.tally inc s ls := by
  induction ls generalizing s with
  | nil =>
    obtain rfl : s = s' := Option.some.inj hrun
    exact le_rfl
  | cons l ls ih =>
    obtain ⟨s₁, h₁, h₂⟩ := run_cons_eq_some.mp hrun
    have hrest := ih (hinv s l s₁ hI hP.1 h₁) (hP.2 s₁ h₁) h₂
    have hhead := hstep s l s₁ hI hP.1 h₁
    -- both tallies are that of the first step and that of the rest
    have hout : sys.tally out s (l :: ls) = out s l + sys.tally out s₁ ls := by
      simp [tally, h₁]
    have hinc : sys.tally inc s (l :: ls) = inc s l + sys.tally inc s₁ ls := by
      simp [tally, h₁]
    calc Φ s' + sys.tally out s (l :: ls)
        = out s l + (Φ s' + sys.tally out s₁ ls) := by rw [hout]; omega
      _ ≤ out s l + (Φ s₁ + sys.tally inc s₁ ls) := Nat.add_le_add_left hrest _
      _ = Φ s₁ + out s l + sys.tally inc s₁ ls := by omega
      _ ≤ Φ s + inc s l + sys.tally inc s₁ ls := Nat.add_le_add_right hhead _
      _ = Φ s + sys.tally inc s (l :: ls) := by rw [hinc, Nat.add_assoc]

end System
end Framework
