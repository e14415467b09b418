import PosixCommons.AsyncLogCli
import PosixCommons.Framework.Critical

/-!
# The synchronous logger

`log.c`. A line is written by up to three calls of `fprintf`, each atomic for itself, under the
mutex of the logger. Threads that share loggers run interleaved, call by call. The contents of a
stream are what `fprintf` was given, also while it is in the buffer of the stream, and the text
of a call is what `vfprintf` makes of its format.

The lines of a stream are whole, in the order in which the threads take the mutex, if one logger
writes to it (`log_lines_whole`). The mutex is of the logger and not of the stream: two loggers
on one, both made by `posixc_log_init_with_stderr` say, can write a line inside another
(`log_shared_stream_mixes`). `posixc_log_init` leaves the mutex as it is; it is taken to be
initialised by whoever has the logger.
-/

open Framework

namespace Posixc

variable {P κ φ : Type}

/-- `posixc_logger`, without its mutex, which goes by the name of the logger. -/
structure Logger (φ : Type) where
  lowest : ℤ
  file : Option φ

/-- `posixc_log_init`. -/
def posixcLogInit (lowest : ℤ) (file : Option φ) : Logger φ := ⟨lowest, file⟩

/-- The `switch` of `log`. -/
def logPrefix (level : ℤ) : Option (List UInt8) :=
  if level = logLevelDebug then some (ascii "DEBUG: ")
  else if level = logLevelInfo then some (ascii "INFO: ")
  else if level = logLevelWarn then some (ascii "WARN: ")
  else if level = logLevelErr then some (ascii "ERR: ")
  else if level = logLevelFatal then some (ascii "FATAL: ")
  else none

/-- What `log` has written by each of its calls of `fprintf` and `vfprintf`. -/
def logWrites (level : ℤ) (text : List UInt8) : List (List UInt8) :=
  (logPrefix level).toList ++ [text, [10]]

/-- `posixc_log`: what it writes to which stream while it has the mutex, and nothing when it
returns before it takes it. -/
def posixcLog (logger : Logger φ) (level : ℤ) (text : List UInt8) :
    Option (List (φ × List UInt8)) :=
  match logger.file with
  | none => none
  | some file =>
    if level < logger.lowest then none
    else some ((logWrites level text).map fun w => (file, w))

theorem posixcLog_eq_some {logger : Logger φ} {level : ℤ} {text : List UInt8}
    {ws : List (φ × List UInt8)} (h : posixcLog logger level text = some ws) :
    ∃ file, logger.file = some file ∧ logger.lowest ≤ level ∧
      ws = (logWrites level text).map fun w => (file, w) := by
  unfold posixcLog at h
  split at h
  · cases h
  · split_ifs at h with hlevel
    exact ⟨_, ‹_›, not_lt.mp hlevel, (Option.some.inj h).symm⟩

/-- A call of `posixc_log`. -/
structure LoggerCall (κ : Type) where
  logger : κ
  level : ℤ
  text : List UInt8

/-- The line of a call. -/
def LoggerCall.line (c : LoggerCall κ) : List UInt8 := (logWrites c.level c.text).flatten

/-- The call does not return before the mutex. -/
def LoggerCall.writes (loggers : κ → Logger φ) (c : LoggerCall κ) : Bool :=
  (posixcLog (loggers c.logger) c.level c.text).isSome

/-- The streams, and where the threads are. -/
abbrev LoggerState (P κ φ : Type) :=
  Critical.State P (LoggerCall κ) κ (φ × List UInt8) (φ → List UInt8)

/-- What is left of the line that is being written under the mutex of a logger. -/
def restOfLine (s : LoggerState P κ φ) (k : κ) : List UInt8 := ((s.pending k).map Prod.snd).flatten

/-- The steps of a thread. -/
inductive LoggerLabel (P κ : Type)
  | call (p : P) (c : LoggerCall κ)
  | lock (p : P)
  | fprintf (p : P)
  | unlock (p : P)

/-- The step is a call. -/
def LoggerLabel.Calls : LoggerLabel P κ → Prop
  | .call _ _ => True
  | _ => False

variable [DecidableEq φ]

/-- Calls as jobs under the mutexes of their loggers. -/
def logProtocol (loggers : κ → Logger φ) :
    Critical.Protocol (LoggerCall κ) κ (φ × List UInt8) (φ → List UInt8) where
  mutex c := c.logger
  actions c := (posixcLog (loggers c.logger) c.level c.text).getD []
  perform files w := Function.update files w.1 (files w.1 ++ w.2)

/-! ### One stream -/

section Stream

variable {loggers : κ → Logger φ} {k : κ} {f : φ}

/-- The writes of a call that does not return before the mutex. -/
theorem actions_of_writes {c : LoggerCall κ} (hc : c.writes loggers)
    (hfile : (loggers c.logger).file = some f) :
    (logProtocol loggers).actions c = (logWrites c.level c.text).map fun w => (f, w) := by
  obtain ⟨ws, hws⟩ := Option.isSome_iff_exists.mp hc
  obtain ⟨file, hfile', -, rfl⟩ := posixcLog_eq_some hws
  obtain rfl : file = f := Option.some.inj (hfile'.symm.trans hfile)
  rw [logProtocol]
  dsimp only
  rw [hws]
  rfl

/-- Every write of a call is to the stream of its logger. -/
theorem actions_file {c : LoggerCall κ} {w : φ × List UInt8}
    (hw : w ∈ (logProtocol loggers).actions c) : (loggers c.logger).file = some w.1 := by
  cases hlog : posixcLog (loggers c.logger) c.level c.text with
  | none => simp [logProtocol, hlog] at hw
  | some ws =>
    obtain ⟨file, hfile, -, rfl⟩ := posixcLog_eq_some hlog
    obtain ⟨t, -, rfl⟩ : ∃ t ∈ logWrites c.level c.text, (file, t) = w := by
      simpa [logProtocol, hlog] using hw
    exact hfile

/-- The stream of a logger that is the only one to write to it. -/
def streamView (loggers : κ → Logger φ) (k : κ) (f : φ)
    (honly : ∀ k', (loggers k').file = some f → k' = k) :
    Critical.View (logProtocol loggers) k (List UInt8) where
  view files := files f
  perform t w := if w.1 = f then t ++ w.2 else t
  own _ _ w _ files := by
    rw [logProtocol]
    dsimp only
    by_cases hw : w.1 = f
    · rw [if_pos hw, ← hw, Function.update_self]
    · rw [if_neg hw, Function.update_of_ne (Ne.symm hw)]
  other c hc w hw files := by
    -- no other logger has the stream
    have hfile : (loggers c.logger).file = some w.1 := actions_file hw
    refine Function.update_of_ne (fun heq => hc (honly c.logger ?_)) _ _
    rw [hfile, heq]

/-- Writes to one stream, one after the other. -/
theorem foldl_perform (honly : ∀ k', (loggers k').file = some f → k' = k)
    {ws : List (φ × List UInt8)} (hws : ∀ w ∈ ws, w.1 = f) (t : List UInt8) :
    ws.foldl (streamView loggers k f honly).perform t = t ++ (ws.map Prod.snd).flatten := by
  induction ws generalizing t with
  | nil => simp
  | cons w ws ih =>
    rw [List.foldl_cons, ih fun w hw => hws w (List.mem_cons_of_mem _ hw), List.map_cons,
      List.flatten_cons, ← List.append_assoc]
    exact congrArg (· ++ _) (if_pos (hws w List.mem_cons_self))

/-- Calls that are done whole, one after the other, write their lines. -/
theorem whole_lines (honly : ∀ k', (loggers k').file = some f → k' = k)
    (hfile : (loggers k).file = some f) {done : List (P × LoggerCall κ)}
    (hdone : ∀ x ∈ done, x.2.logger = k ∧ x.2.writes loggers) (t : List UInt8) :
    Critical.whole (streamView loggers k f honly) t done =
      t ++ (done.map fun x => x.2.line).flatten := by
  induction done generalizing t with
  | nil => simp [Critical.whole]
  | cons x done ih =>
    obtain ⟨hlogger, hwrites⟩ := hdone x List.mem_cons_self
    have hactions := actions_of_writes hwrites (hlogger ▸ hfile)
    have hline : (((logWrites x.2.level x.2.text).map fun w => (f, w)).map Prod.snd).flatten =
        x.2.line := by
      rw [List.map_map]
      exact congrArg List.flatten (List.map_id _)
    have hfirst : ((logProtocol loggers).actions x.2).foldl
        (streamView loggers k f honly).perform t = t ++ x.2.line := by
      rw [hactions, foldl_perform honly (by simp), hline]
    rw [Critical.whole, List.foldl_cons, hfirst, ← Critical.whole,
      ih fun x hx => hdone x (List.mem_cons_of_mem _ hx), List.map_cons, List.flatten_cons,
      List.append_assoc]

end Stream

/-! ### Threads -/

variable [DecidableEq P] [DecidableEq κ]

/-- Threads that log. -/
def loggerSystem (loggers : κ → Logger φ) : System (LoggerState P κ φ) (LoggerLabel P κ) where
  init := (logProtocol loggers).system.init
  next s
    -- a call that returns before the mutex is a step that changes nothing
    | .call p c =>
      if c.writes loggers then (logProtocol loggers).system.next s (.enter p c)
      else match s.phase p with
        | .outside => some s
        | _ => none
    | .lock p => (logProtocol loggers).system.next s (.lock p)
    | .fprintf p => (logProtocol loggers).system.next s (.act p)
    | .unlock p => (logProtocol loggers).system.next s (.unlock p)

/-- The calls of one thread on one logger that come to the mutex, in order. -/
def callsOf (loggers : κ → Logger φ) (k : κ) (p : P) (ls : List (LoggerLabel P κ)) :
    List (LoggerCall κ) :=
  ls.filterMap fun
    | .call q c => if q = p ∧ c.logger = k ∧ c.writes loggers then some c else none
    | _ => none

/-- The call for which the step takes the mutex of a logger, with its thread. -/
def LoggerLabel.takes (loggers : κ → Logger φ) (k : κ) (s : LoggerState P κ φ) :
    LoggerLabel P κ → List (P × LoggerCall κ)
  | .lock p => (s.waiting (logProtocol loggers) k p).map fun c => (p, c)
  | _ => []

/-- What a step is for the mutexes. -/
def LoggerLabel.steps (loggers : κ → Logger φ) :
    LoggerLabel P κ → List (Critical.Label P (LoggerCall κ))
  | .call p c => if c.writes loggers then [.enter p c] else []
  | .lock p => [.lock p]
  | .fprintf p => [.act p]
  | .unlock p => [.unlock p]

section Threads

variable {loggers : κ → Logger φ} {k : κ} {f : φ} {s s' : LoggerState P κ φ}
  {ls : List (LoggerLabel P κ)}

/-- Logging is taking mutexes. -/
theorem logger_run (hrun : (loggerSystem loggers).run s ls = some s') :
    (logProtocol loggers).system.run s (ls.flatMap (LoggerLabel.steps loggers)) = some s' := by
  -- a call that returns before the mutex is no step there, any other is one
  have hstep : ∀ (s : LoggerState P κ φ) (l : LoggerLabel P κ) (s' : LoggerState P κ φ),
      (loggerSystem loggers).next s l = some s' →
      ∃ steps, l.steps loggers = steps ∧
        (logProtocol loggers).system.run (id s) steps = some (id s') := by
    intro s l s' hnext
    refine ⟨_, rfl, ?_⟩
    cases l with
    | call p c =>
      simp only [loggerSystem] at hnext
      rw [LoggerLabel.steps]
      split_ifs at hnext ⊢
      · exact System.run_cons_eq_some.mpr ⟨s', hnext, rfl⟩
      · split at hnext
        · exact hnext
        · cases hnext
    | lock p => exact System.run_cons_eq_some.mpr ⟨s', hnext, rfl⟩
    | fprintf p => exact System.run_cons_eq_some.mpr ⟨s', hnext, rfl⟩
    | unlock p => exact System.run_cons_eq_some.mpr ⟨s', hnext, rfl⟩
  obtain ⟨runs, hruns, hrun'⟩ := System.run_project
    (R := fun l steps => LoggerLabel.steps loggers l = steps) hstep hrun
  have hsteps : ls.map (LoggerLabel.steps loggers) = runs := by
    rw [← List.forall₂_map_left_iff, List.forall₂_eq_eq_eq] at hruns
    exact hruns
  rw [List.flatMap, hsteps]
  exact hrun'

/-- The steps under the mutexes are steps of the threads. -/
theorem run_of_steps {more : List (Critical.Label P (LoggerCall κ))}
    (hmore : ∀ l ∈ more, ¬ l.Enters) (s : LoggerState P κ φ) :
    ∃ ls, (loggerSystem loggers).run s ls = (logProtocol loggers).system.run s more ∧
      ∀ l ∈ ls, ¬ l.Calls := by
  -- only a call is a step that gives a job
  have hlabel : ∀ l : Critical.Label P (LoggerCall κ), ¬ l.Enters →
      ∃ l' : LoggerLabel P κ, ¬ l'.Calls ∧ ∀ s, (loggerSystem loggers).next s l' =
        (logProtocol loggers).system.next s l := by
    intro l hl
    cases l with
    | enter p c => exact absurd trivial hl
    | lock p => exact ⟨.lock p, not_false, fun _ => rfl⟩
    | act p => exact ⟨.fprintf p, not_false, fun _ => rfl⟩
    | unlock p => exact ⟨.unlock p, not_false, fun _ => rfl⟩
  induction more generalizing s with
  | nil => exact ⟨[], rfl, fun _ hl => absurd hl List.not_mem_nil⟩
  | cons l more ih =>
    obtain ⟨l', hl', hnext⟩ := hlabel l (hmore l List.mem_cons_self)
    have hrest := fun l hl => hmore l (List.mem_cons_of_mem _ hl)
    cases hs : (logProtocol loggers).system.next s l with
    | none =>
      refine ⟨[l'], ?_, fun l hl => List.mem_singleton.mp hl ▸ hl'⟩
      rw [System.run_cons, System.run_cons, hnext, hs]
      rfl
    | some s₁ =>
      obtain ⟨ls, hls, hcalls⟩ := ih hrest s₁
      refine ⟨l' :: ls, ?_, fun l hl => ?_⟩
      · rw [System.run_cons, System.run_cons, hnext, hs]
        exact hls
      · rcases List.mem_cons.mp hl with rfl | hl
        · exact hl'
        · exact hcalls l hl

theorem entered_steps (p : P) : Critical.entered (logProtocol loggers) k p
    (ls.flatMap (LoggerLabel.steps loggers)) = callsOf loggers k p ls := by
  -- one step after the other
  have hone : ∀ l : LoggerLabel P κ, Critical.entered (logProtocol loggers) k p
      (l.steps loggers) = callsOf loggers k p [l] := by
    intro l
    cases l with
    | call q c =>
      have hmutex : (logProtocol loggers).mutex c = c.logger := rfl
      by_cases hc : c.writes loggers
      · rw [LoggerLabel.steps, if_pos hc, Critical.entered_enter, hmutex]
        by_cases hq : q = p ∧ c.logger = k
        · simp [callsOf, hq, hc]
        · rw [if_neg hq]
          simp [callsOf, hc, hq]
      · rw [LoggerLabel.steps, if_neg hc]
        simp [callsOf, hc, Critical.entered]
    | lock q => rfl
    | fprintf q => rfl
    | unlock q => rfl
  induction ls with
  | nil => rfl
  | cons l ls ih =>
    rw [List.flatMap_cons, Critical.entered, List.filterMap_append, ← Critical.entered,
      ← Critical.entered, ih, hone, callsOf, callsOf, ← List.filterMap_append]
    rfl

/-- The mutex is taken for the same calls, in the same order. -/
theorem trace_steps (hrun : (loggerSystem loggers).run s ls = some s') :
    (logProtocol loggers).system.trace (Critical.taken (logProtocol loggers) k) s
        (ls.flatMap (LoggerLabel.steps loggers)) =
      (loggerSystem loggers).trace (LoggerLabel.takes loggers k) s ls := by
  induction ls generalizing s with
  | nil => rfl
  | cons l ls ih =>
    obtain ⟨s₁, hnext, hrest⟩ := System.run_cons_eq_some.mp hrun
    rw [List.flatMap_cons, System.trace_cons hnext, ← ih hrest]
    cases l with
    | call p c =>
      simp only [loggerSystem] at hnext
      rw [LoggerLabel.steps]
      split_ifs at hnext ⊢
      · exact System.trace_cons hnext _
      · -- the call returned before the mutex
        split at hnext
        · obtain rfl := Option.some.inj hnext
          rfl
        · cases hnext
    | lock p =>
      have hlock : (logProtocol loggers).system.next s (.lock p) = some s₁ := hnext
      exact System.trace_cons hlock _
    | fprintf p =>
      have hact : (logProtocol loggers).system.next s (.act p) = some s₁ := hnext
      exact System.trace_cons hact _
    | unlock p =>
      have hunlock : (logProtocol loggers).system.next s (.unlock p) = some s₁ := hnext
      exact System.trace_cons hunlock _

/-- **Lines are whole.** A stream that one logger writes to has the lines of the calls, none
inside another, up to the rest of the one that is being written; they stand in the order in
which the run takes the mutex, and those of one thread in the order of its calls. -/
theorem log_lines_whole (hfile : (loggers k).file = some f)
    (honly : ∀ k', (loggers k').file = some f → k' = k) (hinit : (loggerSystem loggers).init s)
    (hrun : (loggerSystem loggers).run s ls = some s') :
    let done := (loggerSystem loggers).trace (LoggerLabel.takes loggers k) s ls
    s'.shared f ++ restOfLine s' k = s.shared f ++ (done.map fun x => x.2.line).flatten ∧
      ∀ p, callsOf loggers k p ls =
        Critical.jobsOf p done ++ s'.waiting (logProtocol loggers) k p := by
  intro done
  have hrun' := logger_run hrun
  obtain ⟨hmutex, hsettled, horder⟩ :=
    Critical.Protocol.serial (streamView loggers k f honly) hinit hrun'
  rw [trace_steps hrun] at hmutex hsettled horder
  have horder' : ∀ p, callsOf loggers k p ls =
      Critical.jobsOf p done ++ s'.waiting (logProtocol loggers) k p := fun p => by
    rw [← horder p, entered_steps]
  refine ⟨?_, horder'⟩
  -- every line that was written is one of a call that was made
  have hdone : ∀ x ∈ done, x.2.logger = k ∧ x.2.writes loggers := by
    intro x hx
    refine ⟨hmutex x hx, ?_⟩
    have hjob : x.2 ∈ Critical.jobsOf x.1 done :=
      List.mem_filterMap.mpr ⟨x, hx, if_pos rfl⟩
    have hcall : x.2 ∈ callsOf loggers k x.1 ls := by
      rw [horder']
      exact List.mem_append_left _ hjob
    obtain ⟨l, -, hl⟩ := List.mem_filterMap.mp hcall
    cases l with
    | call q c =>
      dsimp only at hl
      split_ifs at hl with hq
      obtain rfl := Option.some.inj hl
      exact hq.2.2
    | lock q => cases hl
    | fprintf q => cases hl
    | unlock q => cases hl
  -- what is left to write goes to the stream as well
  have hpending : ∀ w ∈ s'.pending k, w.1 = f := by
    have hs := Critical.Protocol.exclusive hinit hrun'
    intro w hw
    cases howner : s'.owner k with
    | none => rw [Critical.pending_of_free howner] at hw; cases hw
    | some p =>
      obtain ⟨c, rest, hin, hc⟩ := hs.held k p howner
      rw [Critical.pending_of_inside howner hin] at hw
      have hw' := actions_file ((hs.suffix p c rest hin).subset hw)
      have hck : c.logger = k := hc
      rw [hck, hfile] at hw'
      exact (Option.some.inj hw').symm
  rw [Critical.settled, whole_lines honly hfile hdone, foldl_perform honly hpending] at hsettled
  exact hsettled

/-- **A call comes to its end**, whatever the others are at. -/
theorem log_completes (hinit : (loggerSystem loggers).init s)
    (hrun : (loggerSystem loggers).run s ls = some s') (p : P) :
    ∃ more s'', (loggerSystem loggers).run s' more = some s'' ∧ s''.phase p = .outside ∧
      ∀ l ∈ more, ¬ l.Calls := by
  obtain ⟨steps, s'', hsteps, hout, henters⟩ :=
    Critical.Protocol.completes hinit (logger_run hrun) p
  obtain ⟨more, hmore, hcalls⟩ := run_of_steps henters s'
  exact ⟨more, s'', hmore.trans hsteps, hout, hcalls⟩

/-- Where two threads are with calls on loggers of one stream, when the first has made its first
write and both have their mutex. -/
theorem log_both_inside {p q : P} {c c' : LoggerCall κ} (hpq : p ≠ q)
    (hlogger : c.logger ≠ c'.logger) (hc : c.writes loggers) (hc' : c'.writes loggers)
    (hfile : (loggers c.logger).file = some f) (hfile' : (loggers c'.logger).file = some f)
    {w : List UInt8} {ws : List (List UInt8)} (hws : logWrites c.level c.text = w :: ws)
    (hinit : (loggerSystem loggers).init s) :
    ∃ ls s', (loggerSystem loggers).run s ls = some s' ∧
      s'.phase p = .inside c (ws.map fun w => (f, w)) ∧
      s'.phase q = .inside c' ((logWrites c'.level c'.text).map fun w => (f, w)) ∧
      s'.shared f = s.shared f ++ w := by
  have hactions := actions_of_writes hc hfile
  rw [hws, List.map_cons] at hactions
  have hactions' := actions_of_writes hc' hfile'
  obtain ⟨houtside, hfree⟩ := hinit
  have hmutex : ∀ c : LoggerCall κ, (logProtocol loggers).mutex c = c.logger := fun _ => rfl
  -- both call, and each takes the mutex of its own logger
  refine ⟨[.call p c, .call q c', .lock p, .fprintf p, .lock q], {
    phase := Function.update (Function.update (Function.update (Function.update
      (Function.update s.phase p (.waiting c)) q (.waiting c')) p
      (.inside c ((logProtocol loggers).actions c))) p (.inside c (ws.map fun w => (f, w)))) q
      (.inside c' ((logProtocol loggers).actions c'))
    owner := Function.update (Function.update s.owner c.logger (some p)) c'.logger (some q)
    shared := Function.update s.shared f (s.shared f ++ w) }, ?_, ?_, ?_, ?_⟩
  · simp [System.run, loggerSystem, Critical.Protocol.system, hc, hc', houtside, hfree, hpq,
      hpq.symm, hactions, hlogger.symm, hmutex]
    rfl
  · simp [hpq]
  · simp [hactions']
  · simp

/-- **A mutex is of a logger.** When two loggers have one stream, the whole line of a call on one
can stand after the first write of a call on the other. -/
theorem log_shared_stream_mixes {p q : P} {c c' : LoggerCall κ} (hpq : p ≠ q)
    (hlogger : c.logger ≠ c'.logger) (hc : c.writes loggers) (hc' : c'.writes loggers)
    (hfile : (loggers c.logger).file = some f) (hfile' : (loggers c'.logger).file = some f)
    {w : List UInt8} {ws : List (List UInt8)} (hws : logWrites c.level c.text = w :: ws)
    (hinit : (loggerSystem loggers).init s) :
    ∃ ls s', (loggerSystem loggers).run s ls = some s' ∧ s'.phase p = .outside ∧
      s'.phase q = .outside ∧
      s'.shared f = s.shared f ++ w ++ c'.line ++ ws.flatten := by
  obtain ⟨ls₁, s₁, hrun₁, hp₁, hq₁, hshared₁⟩ :=
    log_both_inside hpq hlogger hc hc' hfile hfile' hws hinit
  -- the other call comes to its end, and only then this one
  obtain ⟨more₂, s₂, hrun₂, hphase₂, -, hshared₂, henters₂⟩ :=
    Critical.leaves (c := logProtocol loggers) _ s₁ hq₁
  have hp₂ : s₂.phase p = .inside c (ws.map fun w => (f, w)) := by
    rw [hphase₂, Function.update_of_ne hpq, hp₁]
  obtain ⟨more₃, s₃, hrun₃, hphase₃, -, hshared₃, henters₃⟩ :=
    Critical.leaves (c := logProtocol loggers) _ s₂ hp₂
  obtain ⟨ls₂, hls₂, -⟩ := run_of_steps henters₂ s₁
  obtain ⟨ls₃, hls₃, -⟩ := run_of_steps henters₃ s₂
  have hwrites : ∀ (ts : List (List UInt8)) (files : φ → List UInt8),
      (ts.map fun t => (f, t)).foldl (logProtocol loggers).perform files f =
        files f ++ ts.flatten := by
    intro ts
    induction ts with
    | nil => simp
    | cons t ts ih =>
      intro files
      rw [List.map_cons, List.foldl_cons, ih, List.flatten_cons, ← List.append_assoc]
      exact congrArg (· ++ _) (Function.update_self _ _ _)
  refine ⟨ls₁ ++ (ls₂ ++ ls₃), s₃, ?_, ?_, ?_, ?_⟩
  · rw [System.run_append, hrun₁, Option.bind_some, System.run_append, hls₂, hrun₂,
      Option.bind_some, hls₃, hrun₃]
  · rw [hphase₃, Function.update_self]
  · rw [hphase₃, Function.update_of_ne hpq.symm, hphase₂, Function.update_self]
  · rw [hshared₃, hwrites, hshared₂, hwrites, hshared₁, LoggerCall.line]

end Threads

/-- Threads that have not logged yet. -/
def loggerStart (P κ φ : Type) : LoggerState P κ φ :=
  ⟨fun _ => .outside, fun _ => none, fun _ => []⟩

theorem loggerStart_init (loggers : κ → Logger φ) :
    (loggerSystem loggers).init (loggerStart P κ φ) := ⟨fun _ => rfl, fun _ => rfl⟩

/-- Two threads that use one logger. The one that called first takes the mutex last. -/
theorem log_lines_whole_warn :
    ∃ s' : LoggerState (Fin 2) Unit Unit,
      (loggerSystem fun _ => posixcLogInit logLevelInfo (some ())).run
        (loggerStart (Fin 2) Unit Unit) [.call 0 ⟨(), logLevelWarn, ascii "a"⟩,
          .call 1 ⟨(), logLevelErr, ascii "c"⟩, .lock 1, .fprintf 1, .fprintf 1, .fprintf 1,
          .unlock 1, .call 1 ⟨(), logLevelDebug, ascii "b"⟩, .lock 0, .fprintf 0] = some s' ∧
      s'.shared () ++ restOfLine s' () = ascii "ERR: c\nWARN: a\n" := by
  obtain ⟨s', hrun⟩ : ∃ s', (loggerSystem fun _ => posixcLogInit logLevelInfo (some ())).run
      (loggerStart (Fin 2) Unit Unit) [.call 0 ⟨(), logLevelWarn, ascii "a"⟩,
        .call 1 ⟨(), logLevelErr, ascii "c"⟩, .lock 1, .fprintf 1, .fprintf 1, .fprintf 1,
        .unlock 1, .call 1 ⟨(), logLevelDebug, ascii "b"⟩, .lock 0, .fprintf 0] = some s' :=
    ⟨_, rfl⟩
  obtain ⟨h, -⟩ := log_lines_whole (k := ()) (f := ()) (by rfl) (by simp)
    (loggerStart_init _) hrun
  exact ⟨s', hrun, h⟩

/-- A call is waited for by another. -/
theorem log_completes_waiting :
    ∃ s' more s'', (loggerSystem fun _ : Unit => posixcLogInit logLevelInfo (some ())).run
        (loggerStart (Fin 2) Unit Unit) [.call 0 ⟨(), logLevelWarn, ascii "a"⟩, .lock 0,
          .call 1 ⟨(), logLevelErr, ascii "c"⟩] = some s' ∧
      (loggerSystem fun _ : Unit => posixcLogInit logLevelInfo (some ())).run s' more =
        some s'' ∧ s''.phase 1 = .outside := by
  obtain ⟨s', hrun⟩ : ∃ s', (loggerSystem fun _ : Unit => posixcLogInit logLevelInfo (some ())).run
      (loggerStart (Fin 2) Unit Unit) [.call 0 ⟨(), logLevelWarn, ascii "a"⟩, .lock 0,
        .call 1 ⟨(), logLevelErr, ascii "c"⟩] = some s' := ⟨_, rfl⟩
  obtain ⟨more, s'', hmore, hout, -⟩ := log_completes (loggerStart_init _) hrun 1
  exact ⟨s', more, s'', hrun, hmore, hout⟩

/-- Two loggers of the standard error. -/
theorem log_shared_stream_mixes_warn :
    ∃ ls s', (loggerSystem fun _ : Fin 2 => posixcLogInit logLevelDebug (some ())).run
        (loggerStart (Fin 2) (Fin 2) Unit) ls = some s' ∧
      s'.shared () = ascii "WARN: ERR: b\na\n" := by
  have hc : LoggerCall.writes (fun _ : Fin 2 => posixcLogInit logLevelDebug (some ()))
      ⟨0, logLevelWarn, ascii "a"⟩ := rfl
  have hc' : LoggerCall.writes (fun _ : Fin 2 => posixcLogInit logLevelDebug (some ()))
      ⟨1, logLevelErr, ascii "b"⟩ := rfl
  obtain ⟨ls, s', hrun, -, -, h⟩ := log_shared_stream_mixes (p := (0 : Fin 2)) (q := 1)
    (by decide) (by decide) hc hc' rfl rfl rfl (loggerStart_init _)
  exact ⟨ls, s', hrun, h⟩

end Posixc
