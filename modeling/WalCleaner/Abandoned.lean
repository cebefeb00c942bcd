import WalCleaner.GetAllStorage
import WalCleaner.Segments

/-!
# WalCleaner.Abandoned

**One reconciliation pass**: `getManagedStorage`, `abandonedStorage` and `CleanupStorage`.

A pass snapshots the instances (`ListInstances()`, a Go map, so any iteration order), lists the
storage directories with `getAllStorage`, and walks that listing once. A directory that is some
instance's storage directory is logged as active and never inspected; any other is handed to
`lastWrittenTime`, skipped with a warning when that fails, and reported when its age
`now.Sub(mtime)` exceeds `minAge`. `abandonedStorage` takes the outcome of `lastWrittenTime` as a
function of the directory, so its theorems hold for every mix of inspection outcomes;
`cleanupStorage` plugs in the model of `Segments`.

`abandonedStorage_eq` says what a pass returns and what it inspects, for every snapshot, listing,
clock reading and inspection outcome.
-/

namespace WalCleaner

open Path

/-- A `instance.ManagedInstance`: the cleaner reads only `StorageDirectory()`. -/
structure ManagedInstance where
  storageDirectory : Path

/-- The fields of `walCleaner` that a pass reads, and the operating system the agent is built for,
which decides how `filepath.Walk` names what it visits. -/
structure Cleaner where
  walDirectory : Path
  minAge : Duration
  os : Os

/-- `t.Sub(u)`: the difference, saturated to the range of `Duration`. -/
def Time.sub (t u : Time) : Duration :=
  (max minInt64 (min (int64Bound - 1) (t.ns - u.ns)) : Int)

/-- Within the range of `Duration`, `Sub` is the exact difference. -/
theorem Time.sub_eq {t u : Time} (hlo : minInt64 ≤ t.ns - u.ns) (hhi : t.ns - u.ns < int64Bound) :
    t.sub u = t.ns - u.ns := by
  have hmin : min (int64Bound - 1) (t.ns - u.ns) = t.ns - u.ns := min_eq_right (by omega)
  rw [Time.sub, hmin, max_eq_right hlo]

/-- **Saturation never changes the age test.** For every `minAge` of `Duration`'s range but its
largest, `now.Sub(mtime) > minAge` holds exactly when the true difference of the two instants
exceeds `minAge`, however far apart they are. -/
theorem Time.sub_gt_iff (t u : Time) {minAge : Duration} (hlo : minInt64 ≤ minAge)
    (hhi : minAge + 1 < int64Bound) : t.sub u > minAge ↔ t.ns - u.ns > minAge := by
  simp only [Time.sub, max_def, min_def]
  unfold Duration minInt64 int64Bound at *
  split_ifs <;> omega

theorem Time.sub_gt_iff_far :
    (minInt64 ≤ (3600000000000 : Duration) ∧ (3600000000000 : Duration) + 1 < int64Bound) ∧
      ((⟨10000000000000000000⟩ : Time).sub ⟨-10000000000000000000⟩ > 3600000000000 ↔
        (⟨10000000000000000000⟩ : Time).ns - (⟨-10000000000000000000⟩ : Time).ns > 3600000000000) :=
  ⟨⟨by decide, by decide⟩, Time.sub_gt_iff ⟨10000000000000000000⟩ ⟨-10000000000000000000⟩
    (by decide) (by decide)⟩

/-- `getManagedStorage`: the `map[string]bool` holding `true` at each instance's storage
directory, built in the map's iteration order (absent keys read `false`). -/
def getManagedStorage (instances : List (String × ManagedInstance)) : Path → Bool :=
  instances.foldl (fun out x => fun d => if d = x.2.storageDirectory then true else out d)
    fun _ => false

/-- What `abandonedStorage` produces: its result, the directories it handed to `lastWrittenTime`
(in call order), and the lines it logged. -/
structure Pass where
  out : List Path
  inspected : List Path
  log : List LogLine

/-- One iteration of `abandonedStorage`'s loop. -/
def classify (minAge : Duration) (managed : Path → Bool)
    (lastWrittenTime : Path → Except Error Time) (now : Time) (acc : Pass) (dir : Path) : Pass :=
  if !managed dir then
    match lastWrittenTime dir with
    | .error err =>
      { acc with inspected := acc.inspected ++ [dir], log := acc.log ++ [.mtimeUnknown dir err] }
    | .ok mtime =>
      let diff := now.sub mtime
      { out := if diff > minAge then acc.out ++ [dir] else acc.out
        inspected := acc.inspected ++ [dir]
        log := acc.log ++ [.abandoned dir mtime diff] }
  else { acc with log := acc.log ++ [.active dir] }

/-- `abandonedStorage(instances, now)` over the tree `fs` at `c.walDirectory`, with
`lastWrittenTime` giving the outcome of inspecting each directory. -/
def abandonedStorage (c : Cleaner) (fs : Node) (lastWrittenTime : Path → Except Error Time)
    (instances : List (String × ManagedInstance)) (now : Time) : Pass :=
  let managed := getManagedStorage instances
  let all := getAllStorage c.os c.walDirectory fs
  all.1.foldl (classify c.minAge managed lastWrittenTime now) ⟨[], [], all.2⟩

/-- What a pass reads from the host besides the instances and the clock: the tree at the WAL
root, where a storage directory keeps its WAL (`wal.SubDirectory`, whose code is not part of the
source), and what ReadDir finds in a WAL directory. -/
structure Host where
  fs : Node
  subDirectory : Path → Path
  readWal : Path → Except Error (List DirEntry)

/-- `CleanupStorage()` given the snapshot `ListInstances()` and `time.Now()`: it logs "would
delete" for each abandoned directory and returns `nil`; nothing is removed. -/
def cleanupStorage (c : Cleaner) (host : Host) (instances : List (String × ManagedInstance))
    (now : Time) : Option Error × List LogLine :=
  let abandoned := abandonedStorage c host.fs (lastWrittenTime host.subDirectory host.readWal)
    instances now
  (none, abandoned.log ++ abandoned.out.map .wouldDelete)

/-! ### The managed set -/

theorem foldl_managed (instances : List (String × ManagedInstance)) (out : Path → Bool)
    (d : Path) :
    instances.foldl (fun out x => fun d => if d = x.2.storageDirectory then true else out d) out d
      = (out d || instances.any fun x => x.2.storageDirectory = d) := by
  induction instances generalizing out with
  | nil => simp
  | cons x xs ih =>
    rw [List.foldl_cons, ih]
    by_cases h : d = x.2.storageDirectory <;> simp [h, eq_comm]

/-- A directory is managed exactly when it is some instance's storage directory, whatever the
map's iteration order. -/
theorem getManagedStorage_iff (instances : List (String × ManagedInstance)) (d : Path) :
    getManagedStorage instances d = instances.any fun x => x.2.storageDirectory = d := by
  rw [getManagedStorage, foldl_managed, Bool.false_or]

theorem not_getManagedStorage (instances : List (String × ManagedInstance)) (d : Path) :
    (!getManagedStorage instances d) = instances.all fun x => x.2.storageDirectory ≠ d := by
  rw [getManagedStorage_iff, Bool.eq_iff_iff]
  simp [List.any_eq_true, List.all_eq_true]

/-! ### The loop -/

section Loop

variable (minAge : Duration) (managed : Path → Bool) (lwt : Path → Except Error Time) (now : Time)

/-- Whether the loop reports a directory: unmanaged, inspected, and older than `minAge`. -/
def abandonedBy (d : Path) : Bool :=
  !managed d && match lwt d with
    | .ok mtime => decide (now.sub mtime > minAge)
    | .error _ => false

/-- The line the loop logs for a directory. -/
def classifyLine (d : Path) : LogLine :=
  if !managed d then
    match lwt d with
    | .error err => .mtimeUnknown d err
    | .ok mtime => .abandoned d mtime (now.sub mtime)
  else .active d

theorem classify_eq (acc : Pass) (d : Path) :
    classify minAge managed lwt now acc d =
      ⟨acc.out ++ (if abandonedBy minAge managed lwt now d then [d] else []),
        acc.inspected ++ (if !managed d then [d] else []),
        acc.log ++ [classifyLine managed lwt now d]⟩ := by
  unfold classify abandonedBy classifyLine
  cases managed d
  · cases lwt d with
    | error err => simp
    | ok mtime => by_cases h : now.sub mtime > minAge <;> simp [h]
  · simp

theorem foldl_classify (all : List Path) (acc : Pass) :
    all.foldl (classify minAge managed lwt now) acc =
      ⟨acc.out ++ all.filter (abandonedBy minAge managed lwt now),
        acc.inspected ++ all.filter (fun d => !managed d),
        acc.log ++ all.map (classifyLine managed lwt now)⟩ := by
  induction all generalizing acc with
  | nil => simp
  | cons d ds ih =>
    rw [List.foldl_cons, ih, classify_eq]
    simp only [List.filter_cons, List.map_cons, List.append_assoc]
    congr 1 <;> split <;> simp

end Loop

/-- `abandonedBy` over the managed set of a snapshot, read without the map. -/
theorem abandonedBy_getManagedStorage (minAge : Duration) (lwt : Path → Except Error Time)
    (now : Time) (instances : List (String × ManagedInstance)) (d : Path) :
    abandonedBy minAge (getManagedStorage instances) lwt now d =
      ((instances.all fun x => x.2.storageDirectory ≠ d) &&
        match lwt d with
        | .ok mtime => decide (now.sub mtime > minAge)
        | .error _ => false) := by
  rw [abandonedBy, not_getManagedStorage]

/-! ### What a pass returns -/

/-- **What a pass returns and inspects.** For every instance snapshot, in any iteration order,
every clock reading, tree and outcome of each inspection: `abandonedStorage` returns exactly the
directories of `getAllStorage`'s listing, in listing order and as often as listed, that are no
instance's storage directory and whose `lastWrittenTime` succeeds with an `mtime` for which
`now.Sub(mtime) > minAge`; and it calls `lastWrittenTime` on exactly the directories of the
listing that are no instance's storage directory. -/
theorem abandonedStorage_eq (c : Cleaner) (fs : Node) (lwt : Path → Except Error Time)
    (instances : List (String × ManagedInstance)) (now : Time) :
    (abandonedStorage c fs lwt instances now).out =
      (getAllStorage c.os c.walDirectory fs).1.filter (fun d =>
        (instances.all fun x => x.2.storageDirectory ≠ d) &&
          match lwt d with
          | .ok mtime => decide (now.sub mtime > c.minAge)
          | .error _ => false) ∧
    (abandonedStorage c fs lwt instances now).inspected =
      (getAllStorage c.os c.walDirectory fs).1.filter fun d =>
        instances.all fun x => x.2.storageDirectory ≠ d := by
  simp only [abandonedStorage, foldl_classify, List.nil_append]
  exact ⟨List.filter_congr fun d _ => abandonedBy_getManagedStorage _ _ _ _ d,
    List.filter_congr fun d _ => not_getManagedStorage _ d⟩

/-- The log of a pass: `getAllStorage`'s warnings, then one line for each listed directory. -/
theorem abandonedStorage_log (c : Cleaner) (fs : Node) (lwt : Path → Except Error Time)
    (instances : List (String × ManagedInstance)) (now : Time) :
    (abandonedStorage c fs lwt instances now).log =
      (getAllStorage c.os c.walDirectory fs).2 ++
        (getAllStorage c.os c.walDirectory fs).1.map
          (classifyLine (getManagedStorage instances) lwt now) := by
  simp only [abandonedStorage, foldl_classify]

/-- Each line of a pass's loop is a traversal warning of the scan or the line of a directory. -/
theorem mem_abandonedStorage_log {c : Cleaner} {fs : Node} {lwt : Path → Except Error Time}
    {instances : List (String × ManagedInstance)} {now : Time} {l : LogLine}
    (h : l ∈ (abandonedStorage c fs lwt instances now).log) :
    (∃ p e, l = .traverseFailed p e) ∨ ∃ d, l = classifyLine (getManagedStorage instances) lwt now d := by
  rw [abandonedStorage_log, List.mem_append, getAllStorage_eq, List.mem_filterMap,
    List.mem_map] at h
  rcases h with ⟨v, -, hv⟩ | ⟨d, -, rfl⟩
  · obtain ⟨e, -, rfl⟩ := Option.map_eq_some'.mp hv
    exact .inl ⟨_, _, rfl⟩
  · exact .inr ⟨d, rfl⟩

/-- The directory a "would delete" line names. -/
def LogLine.wouldDeleteName : LogLine → Option Path
  | .wouldDelete d => some d
  | _ => none

/-- A directory's line in the loop is an "unable to find segment mtime", "abandoned" or "active"
line: never "would delete" nor "cleanup failed". -/
theorem classifyLine_ne (managed : Path → Bool) (lwt : Path → Except Error Time) (now : Time)
    (d : Path) : (classifyLine managed lwt now d).wouldDeleteName = none ∧
      ∀ err, classifyLine managed lwt now d ≠ .cleanupFailed err := by
  unfold classifyLine
  split
  · split <;> simp [LogLine.wouldDeleteName]
  · simp [LogLine.wouldDeleteName]

/-- **`CleanupStorage` only reports.** It never returns an error, and the directories it logs as
"would delete" are exactly those of the listing, in order, that are no instance's storage
directory and whose WAL's newest segment, as `lastWrittenTime` reads it, is older than `minAge`
at the pass's clock reading. Nothing is removed. -/
theorem cleanupStorage_eq (c : Cleaner) (host : Host) (instances : List (String × ManagedInstance))
    (now : Time) :
    (cleanupStorage c host instances now).1 = none ∧
      (cleanupStorage c host instances now).2.filterMap LogLine.wouldDeleteName =
        (getAllStorage c.os c.walDirectory host.fs).1.filter
          (abandonedBy c.minAge (getManagedStorage instances)
            (lastWrittenTime host.subDirectory host.readWal) now) := by
  have hline : ∀ l ∈ (abandonedStorage c host.fs (lastWrittenTime host.subDirectory host.readWal)
      instances now).log, l.wouldDeleteName = none := by
    intro l hl
    rcases mem_abandonedStorage_log hl with ⟨p, e, rfl⟩ | ⟨d, rfl⟩
    · rfl
    · exact (classifyLine_ne _ _ _ d).1
  refine ⟨rfl, ?_⟩
  simp only [cleanupStorage, List.filterMap_append, List.filterMap_eq_nil_iff.mpr hline,
    List.nil_append, List.filterMap_map]
  simp only [abandonedStorage, foldl_classify, List.nil_append]
  exact List.filterMap_some _

/-- **A WAL without segments is kept.** In a pass, a directory whose WAL can be read but holds
no segment entry is never reported as "would delete", whatever its age; when it is listed and is
no instance's storage directory, the pass logs "unable to find segment mtime of WAL" for it, with
the error "unable to determine most recent segment for" its WAL directory. -/
theorem cleanupStorage_no_segments (c : Cleaner) (host : Host)
    (instances : List (String × ManagedInstance)) (now : Time) (d : Path) (files : List DirEntry)
    (hread : host.readWal (host.subDirectory d) = .ok files)
    (hnone : ∀ f ∈ files, atoi f.name.val = none) :
    LogLine.wouldDelete d ∉ (cleanupStorage c host instances now).2 ∧
      (d ∈ (getAllStorage c.os c.walDirectory host.fs).1 →
        (instances.all fun x => x.2.storageDirectory ≠ d) →
        LogLine.mtimeUnknown d (.new ("unable to determine most recent segment for " ++
          String.mk (host.subDirectory d))) ∈ (cleanupStorage c host instances now).2) := by
  have hlwt := lastWrittenTime_no_segments hread hnone
  constructor
  · intro hmem
    have hd : d ∈ (cleanupStorage c host instances now).2.filterMap LogLine.wouldDeleteName :=
      List.mem_filterMap.mpr ⟨_, hmem, rfl⟩
    rw [(cleanupStorage_eq c host instances now).2, List.mem_filter, abandonedBy, hlwt] at hd
    simp at hd
  · intro hd hun
    have hline : classifyLine (getManagedStorage instances)
        (lastWrittenTime host.subDirectory host.readWal) now d =
          .mtimeUnknown d (.new ("unable to determine most recent segment for " ++
            String.mk (host.subDirectory d))) := by
      rw [classifyLine, not_getManagedStorage, hun, if_pos rfl, hlwt]
    refine List.mem_append_left _ ?_
    rw [abandonedStorage_log, ← hline]
    exact List.mem_append_right _ (List.mem_map_of_mem _ hd)

/-- A host whose WALs hold only a lock file, over the WAL root `wal` of `sampleWalTree`. -/
def lockOnlyHost : Host :=
  ⟨sampleWalTree.root, (join · "wal".toList),
    fun _ => .ok [⟨⟨"lock".toList, by decide⟩, some ⟨9⟩⟩]⟩

theorem cleanupStorage_no_segments_lock :
    (lockOnlyHost.readWal (lockOnlyHost.subDirectory "wal/a".toList) =
        .ok [⟨⟨"lock".toList, by decide⟩, some ⟨9⟩⟩] ∧
      ∀ f ∈ [(⟨⟨"lock".toList, by decide⟩, some ⟨9⟩⟩ : DirEntry)], atoi f.name.val = none) ∧
    (LogLine.wouldDelete "wal/a".toList ∉
        (cleanupStorage ⟨"wal".toList, 0, .unix⟩ lockOnlyHost [] ⟨100⟩).2 ∧
      ("wal/a".toList ∈ (getAllStorage .unix "wal".toList lockOnlyHost.fs).1 →
        ([] : List (String × ManagedInstance)).all (fun x => x.2.storageDirectory ≠ "wal/a".toList) →
        LogLine.mtimeUnknown "wal/a".toList (.new ("unable to determine most recent segment for " ++
          String.mk (lockOnlyHost.subDirectory "wal/a".toList))) ∈
          (cleanupStorage ⟨"wal".toList, 0, .unix⟩ lockOnlyHost [] ⟨100⟩).2)) :=
  ⟨⟨rfl, by decide⟩,
    cleanupStorage_no_segments ⟨"wal".toList, 0, .unix⟩ lockOnlyHost [] ⟨100⟩ "wal/a".toList _ rfl
      (by decide)⟩

end WalCleaner
