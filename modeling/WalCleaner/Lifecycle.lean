import WalCleaner.WalLayout
import WalCleaner.Scheduler

/-!
# WalCleaner.Lifecycle

**The cleaner over its lifetime**: the interleavings of `WalCleaner.Scheduler`, with the
`CleanupStorage` pass of `WalCleaner.Abandoned` run each time the loop takes a tick, and the log
the cleaner writes along the way.

A pass reads `ListInstances()`, `time.Now()` and the host while it runs, and nothing else in the
cleaner changes under it: the fields of `walCleaner` are only read after `NewCleaner`. The event
that ends a pass therefore carries what the pass read, and a run of the cleaner is a scheduler
interleaving together with the readings of each of its passes. A pass's lines are appended to
the log when it ends; `Stop` logs its debug line with `ticker.Stop()`.

* `execCleaner_sched`: forgetting readings and log, the cleaner's runs are exactly the
  scheduler's, so every result of `Scheduler` holds of the cleaner; `execCleaner_log`: the log is
  the events' lines, in order.
* `wouldDelete_run`: over a whole run, the log reports "would delete" exactly for the directories
  each pass found abandoned, pass after pass, and never logs "cleanup failed".
* `unclean_root_log`, `windows_root_log`, `root_listed`: how the spelling of `walDirectory` and
  the host's operating system decide what is ever inspected, since `getAllStorage` compares
  `path.Dir` with the string as configured.
-/

namespace WalCleaner

open Path

/-- What a pass reads while it runs: the host, `ListInstances()` and `time.Now()`. -/
structure Reading where
  host : Host
  instances : List (String × ManagedInstance)
  now : Time

/-- One step of the cleaner: a step of the scheduler, where the end of a pass carries what the
pass read. -/
inductive Event where
  | tick
  | selectDone
  | selectTick
  | passEnd (r : Reading)
  | stopTicker
  | closeDone
  | stopReturn

namespace Event

/-- The scheduler step an event is. -/
def action : Event → Action
  | tick => .tick
  | selectDone => .selectDone
  | selectTick => .selectTick
  | passEnd _ => .passEnd
  | stopTicker => .stopTicker
  | closeDone => .closeDone
  | stopReturn => .stopReturn

/-- What the pass an event ends read, if it ends one. -/
def reading : Event → Option Reading
  | passEnd r => some r
  | _ => none

/-- The lines an event logs. A pass logs the lines of `CleanupStorage`, then "cleanup failed"
when it returns an error (`run`); `Stop` logs "stopping cleaner..." before `ticker.Stop()`. -/
def lines (c : Cleaner) : Event → List LogLine
  | passEnd r =>
    let res := cleanupStorage c r.host r.instances r.now
    res.2 ++ match res.1 with
      | some err => [.cleanupFailed err]
      | none => []
  | stopTicker => [.stopping]
  | _ => []

end Event

/-- The cleaner's state: where its parties are, and what it has logged. -/
structure CleanerState where
  sched : Sched
  log : List LogLine

/-- The state `NewCleaner` leaves: nothing logged yet. -/
def CleanerState.init : CleanerState := ⟨newCleaner, []⟩

/-- The effect of an event, or `none` when its scheduler step is not enabled. -/
def stepCleaner (c : Cleaner) (st : CleanerState) (e : Event) : Option CleanerState :=
  (step st.sched e.action).map fun s => ⟨s, st.log ++ e.lines c⟩

/-- Run a sequence of events; `none` if one of them is not enabled when it comes. -/
def execCleaner (c : Cleaner) (st : CleanerState) : List Event → Option CleanerState
  | [] => some st
  | e :: es => (stepCleaner c st e).bind fun st' => execCleaner c st' es

/-! ### The cleaner refines the scheduler -/

/-- **The cleaner has exactly the scheduler's runs.** Forgetting readings and log, a run of the
cleaner is the run of the scheduler on its events' steps: every result of `Scheduler` holds of
the cleaner, and the cleaner can take every interleaving the scheduler can, whatever its passes
read. -/
theorem execCleaner_sched (c : Cleaner) (st : CleanerState) (es : List Event) :
    (execCleaner c st es).map CleanerState.sched = exec st.sched (es.map Event.action) := by
  induction es generalizing st with
  | nil => rfl
  | cons e es ih =>
    simp only [execCleaner, stepCleaner, List.map_cons, exec]
    cases step st.sched e.action with
    | none => rfl
    | some s => exact ih ⟨s, _⟩

/-- The log of a run: the events' lines, in order. -/
theorem execCleaner_log {c : Cleaner} {st st' : CleanerState} {es : List Event}
    (h : execCleaner c st es = some st') : st'.log = st.log ++ es.flatMap (Event.lines c) := by
  induction es generalizing st with
  | nil =>
    cases h
    simp
  | cons e es ih =>
    obtain ⟨st₁, h₁, hrest⟩ := Option.bind_eq_some.mp h
    obtain ⟨s₁, -, rfl⟩ := Option.map_eq_some'.mp h₁
    simp [ih hrest]

theorem length_filterMap_reading (es : List Event) :
    (es.filterMap Event.reading).length = (es.map Event.action).count .passEnd := by
  induction es with
  | nil => rfl
  | cons e es ih => cases e <;> simp [Event.reading, Event.action, ih, List.count_cons]

/-- **What the log can still receive after `Stop`.** In every run from `NewCleaner`, once `Stop`
has returned, the lines of at most two more passes reach the log: the pass running when `Stop`
returned, if any, and one more for a tick left in `ticker.C`. -/
theorem passes_logged_after_stop (c : Cleaner) (pre post : List Event) (st : CleanerState)
    (h : execCleaner c CleanerState.init (pre ++ .stopReturn :: post) = some st) :
    (post.filterMap Event.reading).length ≤ 2 := by
  have hs := execCleaner_sched c CleanerState.init (pre ++ .stopReturn :: post)
  rw [h] at hs
  simp only [Option.map_some', List.map_append, List.map_cons, Event.action,
    CleanerState.init] at hs
  obtain ⟨s₁, hs₁, hpost⟩ := split_at_stop hs.symm
  rw [length_filterMap_reading]
  exact count_passEnd_after_stop hs₁ hpost

/-- A pass over an empty WAL root: it logs nothing. -/
def emptyReading : Reading := ⟨⟨.dir (.ok []), id, fun _ => .ok []⟩, [], ⟨0⟩⟩

theorem passes_logged_after_stop_two :
    execCleaner ⟨"wal".toList, 0, .unix⟩ CleanerState.init
        ([.tick, .selectTick, .tick, .stopTicker, .closeDone] ++ .stopReturn ::
          [.passEnd emptyReading, .selectTick, .passEnd emptyReading, .selectDone]) =
      some ⟨⟨false, .exited, .returned⟩, [.stopping]⟩ ∧
    ([Event.passEnd emptyReading, .selectTick, .passEnd emptyReading, .selectDone].filterMap
      Event.reading).length ≤ 2 :=
  ⟨rfl, passes_logged_after_stop ⟨"wal".toList, 0, .unix⟩ [.tick, .selectTick, .tick, .stopTicker, .closeDone]
    [.passEnd emptyReading, .selectTick, .passEnd emptyReading, .selectDone]
    ⟨⟨false, .exited, .returned⟩, [.stopping]⟩ rfl⟩

/-! ### What the log reports -/

section Report

variable (c : Cleaner)

/-- The directories a pass with readings `r` finds abandoned, in listing order. -/
def abandonedAt (r : Reading) : List Path :=
  (getAllStorage c.os c.walDirectory r.host.fs).1.filter fun d =>
    (r.instances.all fun x => x.2.storageDirectory ≠ d) &&
      match lastWrittenTime r.host.subDirectory r.host.readWal d with
      | .ok mtime => decide (r.now.sub mtime > c.minAge)
      | .error _ => false

theorem lines_wouldDelete (e : Event) :
    (e.lines c).filterMap LogLine.wouldDeleteName = (e.reading.map (abandonedAt c)).getD [] := by
  cases e with
  | passEnd r =>
    obtain ⟨hnone, hdel⟩ := cleanupStorage_eq c r.host r.instances r.now
    simp only [Event.lines, Event.reading, hnone, List.append_nil, hdel, Option.map_some',
      Option.getD_some, abandonedAt]
    exact List.filter_congr fun d _ => abandonedBy_getManagedStorage _ _ _ _ d
  | _ => rfl

/-- A pass never logs "cleanup failed": that line is `run`'s, for an error `CleanupStorage` never
returns. -/
theorem cleanupFailed_not_mem_cleanupStorage (host : Host)
    (instances : List (String × ManagedInstance)) (now : Time) (err : Error) :
    LogLine.cleanupFailed err ∉ (cleanupStorage c host instances now).2 := by
  simp only [cleanupStorage, List.mem_append, List.mem_map, not_or]
  refine ⟨fun hl => ?_, by simp⟩
  rcases mem_abandonedStorage_log hl with ⟨p, e, he⟩ | ⟨d, hd⟩
  · cases he
  · exact (classifyLine_ne _ _ _ d).2 err hd.symm

theorem cleanupFailed_not_mem_lines (e : Event) (err : Error) :
    LogLine.cleanupFailed err ∉ e.lines c := by
  cases e with
  | passEnd r =>
    simp only [Event.lines, (cleanupStorage_eq c r.host r.instances r.now).1, List.append_nil]
    exact cleanupFailed_not_mem_cleanupStorage c r.host r.instances r.now err
  | _ => simp [Event.lines]

theorem flatMap_lines_wouldDelete (es : List Event) :
    (es.flatMap (Event.lines c)).filterMap LogLine.wouldDeleteName =
      (es.filterMap Event.reading).flatMap (abandonedAt c) := by
  induction es with
  | nil => rfl
  | cons e es ih =>
    rw [List.flatMap_cons, List.filterMap_append, lines_wouldDelete, ih]
    cases e <;> rfl

/-- **What a run reports.** In every run of the cleaner from `NewCleaner` — every interleaving of
ticks, passes and `Stop`, each pass with its own instance snapshot, clock reading and host — the
log's "would delete" lines name, pass after pass in the order the passes end, exactly the
directories of that pass's listing that are no instance's storage directory in its snapshot and
whose newest segment, as `lastWrittenTime` reads it, is older than `minAge` at its clock reading;
and the run never logs "cleanup failed". -/
theorem wouldDelete_run (es : List Event) (st : CleanerState)
    (h : execCleaner c CleanerState.init es = some st) :
    st.log.filterMap LogLine.wouldDeleteName = (es.filterMap Event.reading).flatMap (abandonedAt c) ∧
      ∀ err, LogLine.cleanupFailed err ∉ st.log := by
  rw [execCleaner_log h, CleanerState.init, List.nil_append]
  refine ⟨flatMap_lines_wouldDelete c es, fun err hmem => ?_⟩
  obtain ⟨e, -, he⟩ := List.mem_flatMap.mp hmem
  exact cleanupFailed_not_mem_lines c e err he

end Report

/-- A pass over `sampleWalTree`, whose WALs are `sampleWal`, at time 100 with no instance. -/
def sampleReading : Reading :=
  ⟨⟨sampleWalTree.root, (join · "wal".toList), sampleWal⟩, [], ⟨100⟩⟩

/-- The run: one tick, its pass, then `Stop`, after which the loop exits. -/
def sampleRun : List Event :=
  [.tick, .selectTick, .passEnd sampleReading, .stopTicker, .closeDone, .stopReturn, .selectDone]

theorem wouldDelete_run_sample :
    execCleaner ⟨"wal".toList, 5, .unix⟩ CleanerState.init sampleRun =
        some ⟨⟨false, .exited, .returned⟩,
          [.traverseFailed "wal/u".toList (.pathError "open" "wal/u".toList),
            .abandoned "wal/a".toList ⟨7⟩ 93, .wouldDelete "wal/a".toList, .stopping]⟩ ∧
      ([LogLine.traverseFailed "wal/u".toList (.pathError "open" "wal/u".toList),
            .abandoned "wal/a".toList ⟨7⟩ 93, .wouldDelete "wal/a".toList, .stopping].filterMap
          LogLine.wouldDeleteName =
          (sampleRun.filterMap Event.reading).flatMap (abandonedAt ⟨"wal".toList, 5, .unix⟩) ∧
        ∀ err, LogLine.cleanupFailed err ∉
          [LogLine.traverseFailed "wal/u".toList (.pathError "open" "wal/u".toList),
            .abandoned "wal/a".toList ⟨7⟩ 93, .wouldDelete "wal/a".toList, .stopping]) :=
  ⟨rfl, wouldDelete_run ⟨"wal".toList, 5, .unix⟩ sampleRun ⟨⟨false, .exited, .returned⟩,
    [.traverseFailed "wal/u".toList (.pathError "open" "wal/u".toList),
      .abandoned "wal/a".toList ⟨7⟩ 93, .wouldDelete "wal/a".toList, .stopping]⟩ rfl⟩

/-! ### How the WAL root is spelled -/

/-- The lines of a pass whose scan lists nothing are the scan's traversal warnings. -/
theorem lines_of_empty_listing {c : Cleaner} {r : Reading}
    (h : (getAllStorage c.os c.walDirectory r.host.fs).1 = []) :
    (Event.passEnd r).lines c = (getAllStorage c.os c.walDirectory r.host.fs).2 := by
  simp [Event.lines, cleanupStorage, abandonedStorage, h]

/-- A cleaner whose scan lists nothing in any tree logs, in every run, only traversal warnings
and `Stop`'s line. -/
theorem log_of_empty_listings {c : Cleaner}
    (hempty : ∀ fs, (getAllStorage c.os c.walDirectory fs).1 = []) {es : List Event}
    {st : CleanerState} (h : execCleaner c CleanerState.init es = some st) :
    ∀ l ∈ st.log, (∃ p e, l = .traverseFailed p e) ∨ l = .stopping := by
  rw [execCleaner_log h, CleanerState.init, List.nil_append]
  intro l hl
  obtain ⟨e, -, he⟩ := List.mem_flatMap.mp hl
  cases e with
  | passEnd r =>
    rw [lines_of_empty_listing (hempty _)] at he
    exact .inl (traverseFailed_of_mem_warnings he)
  | stopTicker => exact .inr (List.mem_singleton.mp he)
  | _ => simp [Event.lines] at he

/-- **A WAL root spelled unclean makes the cleaner inspect nothing.** When `walDirectory` is not
spelled as `path.Clean` spells it (a trailing slash, a `./` prefix, a doubled slash), on any host,
in every run from `NewCleaner` the log holds only traversal warnings and `Stop`'s line: no
directory is ever reported as active, abandoned, uninspectable or "would delete". -/
theorem unclean_root_log (c : Cleaner) (hc : clean c.walDirectory ≠ c.walDirectory)
    (es : List Event) (st : CleanerState) (h : execCleaner c CleanerState.init es = some st) :
    ∀ l ∈ st.log, (∃ p e, l = .traverseFailed p e) ∨ l = .stopping :=
  log_of_empty_listings (fun fs => getAllStorage_unclean c.os c.walDirectory fs hc) h

/-- One tick and its pass over `sampleReading`, then the first step of `Stop`. -/
def uncleanRun : List Event := [.tick, .selectTick, .passEnd sampleReading, .stopTicker]

theorem unclean_root_log_sample :
    (clean "wal/".toList ≠ "wal/".toList ∧
        execCleaner ⟨"wal/".toList, 5, .unix⟩ CleanerState.init uncleanRun =
          some ⟨⟨false, .select, .tickerStopped⟩,
            [.traverseFailed "wal/u".toList (.pathError "open" "wal/u".toList), .stopping]⟩) ∧
      ∀ l ∈ [LogLine.traverseFailed "wal/u".toList (.pathError "open" "wal/u".toList), .stopping],
        (∃ p e, l = .traverseFailed p e) ∨ l = .stopping :=
  ⟨⟨by decide, rfl⟩, unclean_root_log ⟨"wal/".toList, 5, .unix⟩ (by decide) uncleanRun
    ⟨⟨false, .select, .tickerStopped⟩,
      [.traverseFailed "wal/u".toList (.pathError "open" "wal/u".toList), .stopping]⟩ rfl⟩

/-- On Windows, a root other than `.` and `/` lists nothing: it is not its own `Dir`, and the
`Dir` of every path below it is `.`. -/
theorem getAllStorage_windows_nil {root : Path} (hdot : root ≠ ['.']) (hslash : root ≠ ['/'])
    (fs : Node) : (getAllStorage .windows root fs).1 = [] := by
  refine List.eq_nil_iff_forall_not_mem.mpr fun p hp => ?_
  have hroot := (eq_root_of_mem_getAllStorage_windows hdot hp).2.1
  have hclean : clean root = root := by rw [← hroot, clean_dir]
  exact ((dir_eq_self_iff hclean).mp hroot).elim hslash hdot

/-- **On Windows the cleaner inspects nothing.** On a Windows host, for every `walDirectory`
other than `.` and `/` — `C:\wal`, `wal`, `C:/wal` alike — in every run from `NewCleaner` the log
holds only traversal warnings and `Stop`'s line: `filepath.Walk` names each directory with `\`,
`path.Dir` of such a name is `.`, and no storage directory is ever inspected or reported. -/
theorem windows_root_log (c : Cleaner) (hos : c.os = .windows) (hdot : c.walDirectory ≠ ['.'])
    (hslash : c.walDirectory ≠ ['/']) (es : List Event) (st : CleanerState)
    (h : execCleaner c CleanerState.init es = some st) :
    ∀ l ∈ st.log, (∃ p e, l = .traverseFailed p e) ∨ l = .stopping :=
  log_of_empty_listings (fun fs => hos ▸ getAllStorage_windows_nil hdot hslash fs) h

/-- A Windows host with the WAL root `C:\wal` of `sampleWalTree`, whose storage directory `a`
keeps in `a\wal` the segments of `runWalFiles`. -/
def windowsReading : Reading :=
  ⟨⟨sampleWalTree.root, (Windows.join · "wal".toList), fun _ => .ok runWalFiles⟩, [], ⟨100⟩⟩

/-- One tick and its pass over `windowsReading`, then the first step of `Stop`. -/
def windowsRun : List Event := [.tick, .selectTick, .passEnd windowsReading, .stopTicker]

theorem windows_root_log_sample :
    (execCleaner ⟨"C:\\wal".toList, 5, .windows⟩ CleanerState.init windowsRun =
        some ⟨⟨false, .select, .tickerStopped⟩,
          [.traverseFailed "C:\\wal\\u".toList (.pathError "open" "C:\\wal\\u".toList),
            .stopping]⟩ ∧
      (⟨"C:\\wal".toList, 5, .windows⟩ : Cleaner).os = .windows ∧
      "C:\\wal".toList ≠ ['.'] ∧ "C:\\wal".toList ≠ ['/']) ∧
    ∀ l ∈ [LogLine.traverseFailed "C:\\wal\\u".toList (.pathError "open" "C:\\wal\\u".toList),
      .stopping], (∃ p e, l = .traverseFailed p e) ∨ l = .stopping :=
  ⟨⟨rfl, rfl, by decide, by decide⟩, windows_root_log ⟨"C:\\wal".toList, 5, .windows⟩ rfl
    (by decide) (by decide) windowsRun ⟨⟨false, .select, .tickerStopped⟩,
      [.traverseFailed "C:\\wal\\u".toList (.pathError "open" "C:\\wal\\u".toList),
        .stopping]⟩ rfl⟩

/-- The root is listed when it is its own `Dir` and can be read, on any host. -/
theorem root_mem_getAllStorage (os : Os) {root : Path} {es : List (Name × Node)}
    (h : dir root = root) : root ∈ (getAllStorage os root (.dir (.ok es))).1 := by
  rw [getAllStorage_dir_eq, if_pos h]
  exact List.mem_append_left _ (List.mem_singleton_self _)

/-- **A WAL root of `.` or `/` is a candidate itself.** Those are the clean paths that are their
own `path.Dir`, so for such a `walDirectory` that Lstat reports as a readable directory,
`getAllStorage` lists the WAL root itself, on Unix and Windows alike, and a pass reports the root
as "would delete" exactly when it would report a storage directory of that name: no instance has
it as its storage directory and the WAL under it looks older than `minAge`. -/
theorem root_listed (c : Cleaner) (host : Host) (instances : List (String × ManagedInstance))
    (now : Time) (es : List (Name × Node)) (hroot : c.walDirectory = ['.'] ∨ c.walDirectory = ['/'])
    (hfs : host.fs = .dir (.ok es)) :
    c.walDirectory ∈ (getAllStorage c.os c.walDirectory host.fs).1 ∧
      (LogLine.wouldDelete c.walDirectory ∈ (cleanupStorage c host instances now).2 ↔
        ((instances.all fun x => x.2.storageDirectory ≠ c.walDirectory) &&
          match lastWrittenTime host.subDirectory host.readWal c.walDirectory with
          | .ok mtime => decide (now.sub mtime > c.minAge)
          | .error _ => false) = true) := by
  have hdir : dir c.walDirectory = c.walDirectory := by
    rcases hroot with h | h <;> rw [h] <;> decide
  have hmem : c.walDirectory ∈ (getAllStorage c.os c.walDirectory host.fs).1 :=
    hfs ▸ root_mem_getAllStorage c.os hdir
  rw [wouldDelete_mem_cleanupStorage, abandonedBy_getManagedStorage]
  exact ⟨hmem, and_iff_right hmem⟩

/-- A WAL root `.` holding nothing but its own WAL, `wal`, with the segments of `runWalFiles`. -/
def dotHost : Host := ⟨.dir (.ok []), (join · "wal".toList), fun _ => .ok runWalFiles⟩

theorem root_listed_dot :
    ((".".toList = ['.'] ∨ ".".toList = ['/']) ∧ dotHost.fs = .dir (.ok [])) ∧
      (".".toList ∈ (getAllStorage .unix ".".toList dotHost.fs).1 ∧
        (LogLine.wouldDelete ".".toList ∈
            (cleanupStorage ⟨".".toList, 5, .unix⟩ dotHost [] ⟨100⟩).2 ↔
          ((([] : List (String × ManagedInstance)).all fun x => x.2.storageDirectory ≠ ".".toList) &&
            match lastWrittenTime dotHost.subDirectory dotHost.readWal ".".toList with
            | .ok mtime => decide ((⟨100⟩ : Time).sub mtime > 5)
            | .error _ => false) = true)) :=
  ⟨⟨.inl rfl, rfl⟩, root_listed ⟨".".toList, 5, .unix⟩ dotHost [] ⟨100⟩ [] (.inl rfl) rfl⟩

end WalCleaner
