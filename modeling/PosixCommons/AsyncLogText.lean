import PosixCommons.AsyncLogCli
import PosixCommons.Common.TimeStr

/-!
# The text of the log

Many clients log to one server, and what they send is text: a line for each record, with the
time, the level and the message. `clients` is the clients and the server together. A client
drops what is below its own level and sends the rest as any other client would, so a run of many
clients is one of a single client that logs everything (`ClientsStep.project`), and the records
of that run are in the file, the buffer and the socket in their order.

A line says which record it is of, as long as no message has a newline of its own
(`LogEntry.line_injective`). The file ends where the last write ended, in the middle of a line
perhaps. Still it can be read in one way only, and what is read are the first records that were
sent (`log_reads_back`).
-/

open Framework

namespace Posixc

/-- A record of the log. -/
structure LogEntry where
  tm : Tm
  level : ℤ
  message : List UInt8
deriving DecidableEq

namespace LogEntry

/-- The line of a record, without its newline. -/
def line (e : LogEntry) : List UInt8 := timeText e.tm ++ ((levelTag e.level).getD [] ++ e.message)

/-- The level is one of the five, and the message is one line. -/
def Readable (e : LogEntry) : Prop := (levelTag e.level).isSome ∧ 10 ∉ e.message

end LogEntry

/-- The text of a log. -/
def logText (es : List LogEntry) : List UInt8 := lines 10 (es.map LogEntry.line)

/-! ### Reading a line -/

section Lines

variable {e e' : LogEntry} {es es' : List LogEntry} {p p' : List UInt8}

/-- The level that the second character of a tag tells. -/
def tagLevel (text : List UInt8) : ℤ :=
  if text[1]? = some 68 then logLevelDebug
  else if text[1]? = some 73 then logLevelInfo
  else if text[1]? = some 87 then logLevelWarn
  else if text[1]? = some 69 then logLevelErr
  else logLevelFatal

theorem tagLevel_append {l : ℤ} {t : List UInt8} (ht : levelTag l = some t) (us : List UInt8) :
    tagLevel (t ++ us) = l := by
  unfold levelTag at ht
  -- the second characters of the five tags are different
  split_ifs at ht with hl hl hl hl hl
  all_goals
    obtain rfl := Option.some.inj ht
    rw [hl]
    rfl

theorem levelTag_append_inj {l l' : ℤ} {t t' us vs : List UInt8} (ht : levelTag l = some t)
    (ht' : levelTag l' = some t') (h : t ++ us = t' ++ vs) : l = l' ∧ us = vs := by
  have hlevel : l = l' := by rw [← tagLevel_append ht us, h, tagLevel_append ht' vs]
  obtain rfl := hlevel
  obtain rfl : t = t' := Option.some.inj (ht.symm.trans ht')
  exact ⟨rfl, List.append_cancel_left h⟩

/-- **A line says which record it is of.** -/
theorem LogEntry.line_injective (he : e.Readable) (he' : e'.Readable) (h : e.line = e'.line) :
    e = e' := by
  obtain ⟨t, ht⟩ := Option.isSome_iff_exists.mp he.1
  obtain ⟨t', ht'⟩ := Option.isSome_iff_exists.mp he'.1
  rw [line, line, ht, ht', Option.getD_some, Option.getD_some] at h
  -- the time ends where its text does, and the tag where its own does
  obtain ⟨htm, h⟩ := dateTimeText_selfDelimiting (by decide) e.tm e'.tm _ _ h
  obtain ⟨hlevel, hmessage⟩ := levelTag_append_inj ht ht' h
  cases e
  cases e'
  exact (LogEntry.mk.injEq ..).mpr ⟨htm, hlevel, hmessage⟩

theorem newline_not_mem_levelTag {l : ℤ} : 10 ∉ (levelTag l).getD [] := by
  unfold levelTag
  split_ifs <;> decide

theorem LogEntry.Readable.newline_not_mem (he : e.Readable) : 10 ∉ e.line := by
  intro h
  rcases List.mem_append.mp h with h | h
  · exact newline_not_mem_timeText h
  · exact (List.mem_append.mp h).elim newline_not_mem_levelTag he.2

/-- The text of a log, with the part of a line at its end, is read in one way. -/
theorem logText_append_inj (hes : ∀ e ∈ es, e.Readable) (hes' : ∀ e ∈ es', e.Readable)
    (hp : 10 ∉ p) (hp' : 10 ∉ p') (h : logText es ++ p = logText es' ++ p') :
    es = es' ∧ p = p' := by
  -- no line of a record has a newline
  have hlines : ∀ {es : List LogEntry}, (∀ e ∈ es, e.Readable) →
      ∀ l ∈ es.map LogEntry.line, 10 ∉ l := by
    intro es hes l hl
    obtain ⟨e, he, rfl⟩ := List.mem_map.mp hl
    exact (hes e he).newline_not_mem
  obtain ⟨hmap, hrest⟩ := lines_append_inj (hlines hes) (hlines hes') hp hp' h
  refine ⟨?_, hrest⟩
  -- equal lines are of equal records
  clear h hlines
  induction es generalizing es' with
  | nil => exact (List.map_eq_nil_iff.mp hmap.symm).symm
  | cons e es ih =>
    cases es' with
    | nil => cases hmap
    | cons e' es' =>
      obtain ⟨hline, hmap⟩ := List.cons.inj hmap
      rw [LogEntry.line_injective (hes e List.mem_cons_self) (hes' e' List.mem_cons_self) hline,
        ih (fun e he => hes e (List.mem_cons_of_mem _ he))
          (fun e he => hes' e (List.mem_cons_of_mem _ he)) hmap]

end Lines

/-! ### Many clients -/

/-- A call of `posixc_asynclogcli_log`, with the time of the call. -/
structure EntryCall where
  tm : Tm
  what : List UInt8
  len : ℤ
  level : ℤ

namespace EntryCall

/-- The call with the text that `posixc_default_timestr` makes of its time. -/
def toLogCall (c : EntryCall) : LogCall := ⟨timeText c.tm, c.what, c.len, c.level⟩

/-- The message has the bytes that the caller says, none of them a newline. -/
structure Legal (c : EntryCall) : Prop where
  len_nonneg : 0 ≤ c.len
  len_le : c.len ≤ 2 ^ 31 - 1 - onePage
  what_ge : c.len ≤ c.what.length
  oneLine : 10 ∉ c.what.take c.len.toNat

theorem Legal.toLogCall {c : EntryCall} (h : c.Legal) : c.toLogCall.Legal :=
  ⟨timeText_length_lt, h.len_nonneg, h.len_le, h.what_ge⟩

/-- The record of a call, cut to what there is room for in a page. -/
def entry (c : EntryCall) (tag : List UInt8) : LogEntry :=
  ⟨c.tm, c.level,
    c.what.take (min c.len.toNat (onePage - 1 - (timeText c.tm).length - tag.length))⟩

/-- The record that a client makes of a call, unless the level is too low or not known. -/
def entry? (cli : AsyncLogCli) (c : EntryCall) : Option LogEntry :=
  if c.level < cli.lowestLogLevel then none else (levelTag c.level).map c.entry

end EntryCall

/-- A step of the clients and the server. -/
inductive ClientsStep (ι : Type) where
  /-- A client calls `posixc_asynclogcli_log`. -/
  | log (client : ι) (call : EntryCall)
  /-- The server runs a callback. -/
  | server (step : LogStep)

variable {ι : Type} {clis : ι → AsyncLogCli}

namespace ClientsStep

/-- A legal call, or a callback whose writes do not fail. -/
def Legal : ClientsStep ι → Prop
  | .log _ call => call.Legal
  | .server step => step.Succeeds

/-- The record that is sent in the step. -/
def entry? (clis : ι → AsyncLogCli) : ClientsStep ι → Option LogEntry
  | .log i call => call.entry? (clis i)
  | .server _ => none

end ClientsStep

/-- The clients, each with its own lowest level, and the server. -/
def clients (clis : ι → AsyncLogCli) : System LogWorld (ClientsStep ι) where
  init := logSystem.init
  next w
    | .log i call => (logging (clis i)).next w (.log call.toLogCall)
    | .server step => (logging ⟨logLevelDebug⟩).next w (.server step)

/-- What one client that logs everything does in the step. -/
def ClientsStep.project (clis : ι → AsyncLogCli) : ClientsStep ι → List LoggingStep
  | .log i call => if call.level < (clis i).lowestLogLevel then [] else [.log call.toLogCall]
  | .server step => [.server step]

section Clients

variable {w w' : LogWorld} {step : ClientsStep ι} {steps : List (ClientsStep ι)}

/-- Above their lowest levels all clients are alike. -/
theorem asynclogcliLog_of_le {cli : AsyncLogCli} {timestr : List UInt8} {what : Region UInt8}
    {len level : ℤ} (h : cli.lowestLogLevel ≤ level) :
    asynclogcliLog cli timestr what len level =
      asynclogcliLog ⟨logLevelDebug⟩ timestr what len level := by
  rw [asynclogcliLog, if_neg h.not_gt]
  by_cases hdebug : level < logLevelDebug
  · -- there is no level below the first
    have htag : levelTag level = none := by
      unfold levelTag logLevelDebug logLevelInfo logLevelWarn logLevelErr logLevelFatal at *
      rw [if_neg (by omega), if_neg (by omega), if_neg (by omega), if_neg (by omega),
        if_neg (by omega)]
    rw [asynclogcliLog, if_pos hdebug, htag]
  · rw [asynclogcliLog, if_neg hdebug]

theorem clients_next_project (h : (clients clis).next w step = some w') :
    (logging ⟨logLevelDebug⟩).run w (step.project clis) = some w' := by
  cases step with
  | server step => exact System.run_cons_eq_some.mpr ⟨w', h, rfl⟩
  | log i call =>
    -- a call below the level of the client sends nothing, and the single client does not make it
    by_cases hlow : call.level < (clis i).lowestLogLevel
    · rw [ClientsStep.project, if_pos hlow]
      change (if _ then _ else _) = _ at h
      rw [asynclogcliLog, show call.toLogCall.level = call.level from rfl, if_pos hlow] at h
      split_ifs at h
      exact h
    · -- any other call is one of the single client, whose level is the lowest
      rw [ClientsStep.project, if_neg hlow]
      refine System.run_cons_eq_some.mpr ⟨w', ?_, rfl⟩
      change (if _ then _ else _) = _ at h ⊢
      have hle : (clis i).lowestLogLevel ≤ call.toLogCall.level := Int.not_lt.mp hlow
      rwa [asynclogcliLog_of_le hle] at h

/-- What a legal step sends is the line of its record. -/
theorem ClientsStep.Legal.records (h : step.Legal) :
    (step.project clis).flatMap (LoggingStep.record ⟨logLevelDebug⟩) =
      logText (step.entry? clis).toList := by
  cases step with
  | server step => rfl
  | log i call =>
    rw [ClientsStep.project, ClientsStep.entry?, EntryCall.entry?]
    split_ifs with hlow
    · rfl
    · rw [List.flatMap_singleton, LoggingStep.record, LogCall.record, LogCall.dgram?]
      cases htag : levelTag call.level with
      | none =>
        have hnone : levelTag call.toLogCall.level = none := htag
        split_ifs <;> simp [hnone, logText]
      | some tag =>
        -- a level that has a tag is not below the first
        have hsome : levelTag call.toLogCall.level = some tag := htag
        have hdebug : ¬ call.toLogCall.level < logLevelDebug := by
          intro hneg
          unfold levelTag logLevelDebug logLevelInfo logLevelWarn logLevelErr logLevelFatal at *
          rw [if_neg (by omega), if_neg (by omega), if_neg (by omega), if_neg (by omega),
            if_neg (by omega)] at hsome
          cases hsome
        rw [if_neg hdebug, hsome]
        simp [logText, lines, LogEntry.line, EntryCall.entry, EntryCall.toLogCall, htag]

/-- A record that is sent can be read. -/
theorem ClientsStep.Legal.readable (h : step.Legal) {e : LogEntry}
    (he : step.entry? clis = some e) : e.Readable := by
  cases step with
  | server step => cases he
  | log i call =>
    rw [ClientsStep.entry?, EntryCall.entry?] at he
    split_ifs at he
    obtain ⟨tag, htag, rfl⟩ := Option.map_eq_some_iff.mp he
    refine ⟨Option.isSome_iff_exists.mpr ⟨tag, htag⟩, fun hmem => h.oneLine ?_⟩
    exact List.take_subset_take_left _ (min_le_left _ _) hmem

/-- A record that is among those sent can be read. -/
theorem readable_of_mem (hlegal : ∀ step ∈ steps, step.Legal) :
    ∀ e ∈ steps.filterMap (ClientsStep.entry? clis), e.Readable := by
  intro e he
  obtain ⟨step, hstep, hentry⟩ := List.mem_filterMap.mp he
  exact (hlegal step hstep).readable hentry

theorem logText_append (es es' : List LogEntry) :
    logText (es ++ es') = logText es ++ logText es' := by
  rw [logText, logText, logText, List.map_append, lines, lines, lines, List.flatMap_append]

/-- The records of the single client are the lines of those that were sent. -/
theorem records_project (hlegal : ∀ step ∈ steps, step.Legal) :
    (steps.flatMap (ClientsStep.project clis)).flatMap (LoggingStep.record ⟨logLevelDebug⟩) =
      logText (steps.filterMap (ClientsStep.entry? clis)) := by
  induction steps with
  | nil => rfl
  | cons step steps ih =>
    have hrest := ih fun step hstep => hlegal step (List.mem_cons_of_mem _ hstep)
    rw [List.flatMap_cons, List.flatMap_append, hrest,
      (hlegal step List.mem_cons_self).records, ← logText_append, List.filterMap_cons]
    cases step.entry? clis <;> rfl

/-- A run of the clients keeps all of their records. -/
theorem clients_inFlight (hinit : (clients clis).init w) (hlegal : ∀ step ∈ steps, step.Legal)
    (hrun : (clients clis).run w steps = some w') :
    InFlight ⟨logLevelDebug⟩ (steps.flatMap (ClientsStep.project clis)) w' := by
  obtain ⟨hkeeps, -, -, hqueue, -, -⟩ := LogWorld.init_keeps hinit
  have hstart : InFlight ⟨logLevelDebug⟩ [] w :=
    ⟨⟨[], hkeeps, by rw [hqueue]; rfl⟩, fun dgram hmem => by rw [hqueue] at hmem; cases hmem⟩
  -- what one client keeps in a step
  have hkeep : ∀ seen w step w', InFlight ⟨logLevelDebug⟩ seen w → LoggingStep.Legal step →
      (logging ⟨logLevelDebug⟩).next w step = some w' →
      InFlight ⟨logLevelDebug⟩ (seen ++ [step]) w' := by
    intro seen w step w' h hstep hnext
    obtain ⟨hnone, -⟩ | ⟨w₁, hw₁, h₁⟩ := h.next hstep
    · rw [hnone] at hnext
      cases hnext
    · obtain rfl := Option.some.inj (hw₁.symm.trans hnext)
      exact h₁
  refine System.run_history (P := fun _ step => step.Legal)
    (I := fun seen w => InFlight ⟨logLevelDebug⟩ (seen.flatMap (ClientsStep.project clis)) w)
    (fun seen w step w' h hstep hnext => ?_) hstart (.of_forall hlegal) hrun
  rw [List.flatMap_append, List.flatMap_singleton]
  -- a legal step is one of legal calls of the single client
  have hproject : ∀ s ∈ step.project clis, s.Legal := by
    intro s hs
    cases step with
    | server step =>
      obtain rfl := List.mem_singleton.mp hs
      exact hstep
    | log i call =>
      rw [ClientsStep.project] at hs
      split_ifs at hs
      · cases hs
      · obtain rfl := List.mem_singleton.mp hs
        exact hstep.toLogCall
  exact System.run_history_from hkeep h (.of_forall hproject) (clients_next_project hnext)

end Clients

/-- **The log is read back.** After any run of any number of clients and the server, what is in
the file, the buffer and the socket is the text of the records that were sent, in the order of
sending. The file can be read in one way only: its whole lines are the first of these records,
with their times, levels and messages. -/
theorem log_reads_back {w w' : LogWorld} {steps : List (ClientsStep ι)}
    (hinit : (clients clis).init w) (hlegal : ∀ step ∈ steps, step.Legal)
    (hrun : (clients clis).run w steps = some w') :
    ∃ buffered k p, w'.svr.bufferedWritefile.buf.readMany 0 w'.pos = .ok buffered ∧
      w'.file ++ buffered ++ w'.surroundings.queue.flatten =
        logText (steps.filterMap (ClientsStep.entry? clis)) ∧
      w'.file = logText ((steps.filterMap (ClientsStep.entry? clis)).take k) ++ p ∧ 10 ∉ p ∧
      ∀ es p', (∀ e ∈ es, e.Readable) → 10 ∉ p' → w'.file = logText es ++ p' →
        es = (steps.filterMap (ClientsStep.entry? clis)).take k ∧ p' = p := by
  have hend := clients_inFlight hinit hlegal hrun
  have hreadable : ∀ e ∈ steps.filterMap (ClientsStep.entry? clis), e.Readable :=
    readable_of_mem hlegal
  obtain ⟨got, hkeeps, hgot⟩ := hend.records
  obtain ⟨-, out, buffered, hfile, hbuf, hpos, rfl⟩ := hkeeps.holding
  rw [records_project hlegal] at hgot
  have hout : w'.file = out := by
    rw [LogWorld.file, hfile]
    rfl
  rw [← hout] at hgot
  have hlines : ∀ l ∈ (steps.filterMap (ClientsStep.entry? clis)).map LogEntry.line,
      10 ∉ l := by
    intro l hl
    obtain ⟨e, he, rfl⟩ := List.mem_map.mp hl
    exact (hreadable e he).newline_not_mem
  -- the writes cut the text at some place, not always after a line
  have hprefix : w'.file <+: logText (steps.filterMap (ClientsStep.entry? clis)) :=
    ⟨buffered ++ w'.surroundings.queue.flatten, by rw [← List.append_assoc]; exact hgot⟩
  obtain ⟨k, p, hcut, hp⟩ := prefix_lines hlines hprefix
  rw [← List.map_take] at hcut
  refine ⟨buffered, k, p, ?_, hgot, hcut, hp, fun es p' hes hp' htext => ?_⟩
  · rw [LogWorld.pos, hpos, Region.readMany_of_holds hbuf 0 _ (Nat.zero_add _).le, List.drop_zero,
      List.take_length]
  · exact logText_append_inj hes (fun e he => hreadable e (List.mem_of_mem_take he)) hp' hp
      (htext.symm.trans hcut)

/-- The first of January. -/
def newYear : Tm := ⟨0, 0, 0, 1, 0, 124, by decide, by decide, by decide, by decide, by decide,
  by decide⟩

/-- One client logs two bytes, the message of another is below its level, and the server rolls. -/
def twoClients : List (ClientsStep Bool) :=
  [.log true ⟨newYear, [97, 98], 2, logLevelInfo⟩, .log false ⟨newYear, [99], 1, logLevelInfo⟩,
    .server (.dgram [50] [.wrote 29])]

theorem log_reads_back_two :
    ∃ w' k p, (clients fun i => ⟨if i then logLevelDebug else logLevelErr⟩).run rollStart
        twoClients = some w' ∧
      w'.file = logText ([⟨newYear, logLevelInfo, [97, 98]⟩].take k) ++ p ∧ 10 ∉ p := by
  obtain ⟨w', hrun⟩ : ∃ w', (clients fun i => ⟨if i then logLevelDebug else logLevelErr⟩).run
      rollStart twoClients = some w' := ⟨_, rfl⟩
  have hlegal : ∀ step ∈ twoClients, step.Legal := by
    intro step hstep
    simp only [twoClients, List.mem_cons, List.not_mem_nil, or_false] at hstep
    rcases hstep with rfl | rfl | rfl
    · exact ⟨by decide, by decide, by decide, by decide⟩
    · exact ⟨by decide, by decide, by decide, by decide⟩
    · exact fun herror => by cases List.mem_singleton.mp herror
  obtain ⟨-, k, p, -, -, hfile, hp, -⟩ := log_reads_back rollStart_init hlegal hrun
  exact ⟨w', k, p, hrun, hfile, hp⟩

end Posixc
