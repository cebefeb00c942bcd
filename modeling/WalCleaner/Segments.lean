import WalCleaner.Fs
import WalCleaner.Strconv
import Mathlib.Data.List.Sort

/-!
# WalCleaner.Segments

**`lastWrittenTime`**: the modification time of the newest segment of a storage directory's WAL.

The WAL directory's content is what `ioutil.ReadDir` returns for it: a list of named entries, or
the error that kept it from being read (`open`, `readdirent`, or the `lstat` of an entry).
promwal's `listSegments` keeps the entries whose names `Atoi` accepts, sorts them by index and
insists that the indices are consecutive; `Segments` reports the first and last index.
`lastWrittenTime` then Stats the file `SegmentName(walDir, last)`, spelled afresh with `%08d`
rather than taken from the listing; that `Stat` follows links and reads the file anew, so it can
fail for an entry the listing holds. Paths are spelled as on Unix: on Windows `SegmentName` joins
with `\`, which changes the spelling of a failed `Stat`'s path but not which entry is found.

`lastWrittenTime_newest_segment` is what a success means: the directory holds a segment, and the
time is that of the entry with the greatest index, which is the one `SegmentName` names, because
`%08d` spellings parse back (`atoi_sprintf08d`) and joins of distinct names differ.
-/

namespace WalCleaner

open Path

/-- An entry of a directory as `ioutil.ReadDir` returns it, with what `os.Stat` of its path
reports when `lastWrittenTime` calls it: the modification time (of the target, for a symbolic
link), or `none` when that `Stat` fails — a dangling link, or an entry removed after the listing
was read. -/
structure DirEntry where
  name : Name
  modTime : Option Time

/-- promwal's `segmentRef`: a segment file's name and the index read off it. -/
structure SegmentRef where
  name : Path
  index : Int
  deriving DecidableEq, Repr

/-- Go's `int` addition, which wraps modulo `2^64`. -/
def wrapInt64 (x : Int) : Int := (x - minInt64) % 18446744073709551616 + minInt64

/-- The check at the end of `listSegments`: each index is one more than the one before. -/
def sequential : List SegmentRef → Bool
  | a :: b :: rest => wrapInt64 (a.index + 1) == b.index && sequential (b :: rest)
  | _ => true

/-- The order `sort.Slice` puts refs in: by index. -/
def indexLe (a b : SegmentRef) : Prop := a.index ≤ b.index

instance : DecidableRel indexLe := fun a b => Int.decLe a.index b.index

instance : IsTotal SegmentRef indexLe := ⟨fun a b => Int.le_total a.index b.index⟩

instance : IsTrans SegmentRef indexLe := ⟨fun _ _ _ => Int.le_trans⟩

/-- The refs of the entries whose names `Atoi` accepts, in listing order. -/
def segmentRefs (files : List DirEntry) : List SegmentRef :=
  files.filterMap fun f => (atoi f.name.val).map fun k => ⟨f.name.val, k⟩

/-- promwal's `listSegments(dir)`, where `content` is what `ioutil.ReadDir(dir)` returned: its
error, or the refs sorted by index, or an error when the indices are not consecutive.
`sort.Slice` is not stable; `listSegments_of_sorted` shows that every ordering by index gives
this same result. -/
def listSegments (content : Except Error (List DirEntry)) : Except Error (List SegmentRef) :=
  match content with
  | .error err => .error err
  | .ok files =>
    let refs := (segmentRefs files).insertionSort indexLe
    if sequential refs then .ok refs else .error (.new "segments are not sequential")

/-- `(*WAL).Segments`: the first and last index of the existing segments, `-1, -1` when there
are none. -/
def segments (content : Except Error (List DirEntry)) : Except Error (Int × Int) :=
  match listSegments content with
  | .error err => .error err
  | .ok refs =>
    match refs.head?, refs.getLast? with
    | some first, some last => .ok (first.index, last.index)
    | _, _ => .ok (-1, -1)

/-- promwal's `SegmentName(dir, i)`: `filepath.Join(dir, fmt.Sprintf("%08d", i))`. -/
def segmentName (dir : Path) (i : Int) : Path := join dir (sprintf08d i)

/-- `os.Stat` of a path in the directory `dir` whose content is `content`: the time `Stat`
reports for the entry whose name `dir` joins to the path. It fails with a path error when no
entry has that name, or when `Stat` of that entry fails. -/
def stat (dir : Path) (content : Except Error (List DirEntry)) (p : Path) : Except Error Time :=
  match (content.toOption.bind fun files => files.find? fun f => join dir f.name.val = p).bind
      (·.modTime) with
  | some t => .ok t
  | none => .error (.pathError "stat" p)

/-- `lastWrittenTime(storage)`. The WAL lives in `subDirectory storage` (`wal.SubDirectory`, whose
code is not part of the source), and `readWal` gives what `ReadDir` finds in a directory.
`promwal.Open` only records the directory and cannot fail, and the error of the deferred `Close`
is ignored. -/
def lastWrittenTime (subDirectory : Path → Path) (readWal : Path → Except Error (List DirEntry))
    (storage : Path) : Except Error Time :=
  let walDir := subDirectory storage
  match segments (readWal walDir) with
  | .error err => .error err
  | .ok (_, last) =>
    if last = -1 then
      .error (.new ("unable to determine most recent segment for " ++ String.mk walDir))
    else stat walDir (readWal walDir) (segmentName walDir last)

/-! ### Any order by index -/

/-- Strictly increasing indices. -/
def indexLt (a b : SegmentRef) : Prop := a.index < b.index

instance : IsAntisymm SegmentRef indexLt := ⟨fun _ _ h h' => absurd (Int.lt_trans h h') (Int.lt_irrefl _)⟩

instance : IsTrans SegmentRef indexLt := ⟨fun _ _ _ => Int.lt_trans⟩

/-- The successor of an index, wrapped to 64 bits, is never that index. -/
theorem lt_of_wrapInt64 {i j : Int} (hle : i ≤ j) (h : wrapInt64 (i + 1) = j) : i < j := by
  unfold wrapInt64 minInt64 at h
  omega

theorem chain_of_sequential :
    ∀ {l : List SegmentRef}, l.Chain' indexLe → sequential l = true → l.Chain' indexLt
  | [], _, _ => List.chain'_nil
  | [_], _, _ => List.chain'_singleton _
  | a :: b :: rest, hc, hs => by
    simp only [sequential, Bool.and_eq_true, beq_iff_eq] at hs
    rw [List.chain'_cons] at hc ⊢
    exact ⟨lt_of_wrapInt64 hc.1 hs.1, chain_of_sequential hc.2 hs.2⟩

/-- Refs sorted by index that pass the check have strictly increasing indices. -/
theorem strict_of_sequential {l : List SegmentRef} (hs : l.Sorted indexLe)
    (hseq : sequential l = true) : l.Sorted indexLt :=
  List.chain'_iff_pairwise.mp (chain_of_sequential (List.chain'_iff_pairwise.mpr hs) hseq)

/-- Two orderings by index of the same refs, one of them strict, are the same list. -/
theorem eq_of_sorted_of_strict {l l' : List SegmentRef} (hp : l.Perm l') (hs : l.Sorted indexLt)
    (hs' : l'.Sorted indexLe) : l = l' := by
  have hnodup : (l'.map (·.index)).Nodup :=
    (hp.map _).nodup_iff.mp (List.pairwise_map.mpr (hs.imp fun h => Int.ne_of_lt h))
  exact List.eq_of_perm_of_sorted hp hs
    ((hs'.and (List.pairwise_map.mp hnodup)).imp fun h => lt_of_le_of_ne h.1 h.2)

/-- **`sort.Slice` may order refs of one index either way.** For every ordering `refs` of the
refs by index, `listSegments` returns `refs` when they pass the check and fails otherwise: the
stable sort of the model stands for whichever order Go's sort produces. -/
theorem listSegments_of_sorted (files : List DirEntry) {refs : List SegmentRef}
    (hperm : refs.Perm (segmentRefs files)) (hsorted : refs.Sorted indexLe) :
    listSegments (.ok files) =
      if sequential refs then .ok refs else .error (.new "segments are not sequential") := by
  have hins := List.sorted_insertionSort indexLe (segmentRefs files)
  have hp := hperm.trans (List.perm_insertionSort indexLe _).symm
  simp only [listSegments]
  by_cases h : sequential refs = true ∨ sequential ((segmentRefs files).insertionSort indexLe) = true
  · rcases h with h | h
    · rw [eq_of_sorted_of_strict hp (strict_of_sequential hsorted h) hins]
    · rw [eq_of_sorted_of_strict hp.symm (strict_of_sequential hins h) hsorted]
  · rw [not_or] at h
    rw [if_neg h.1, if_neg h.2]

/-! ### What a success means -/

/-- A `%08d` spelling is a name a directory can hold. -/
theorem validName_sprintf08d (i : Int) : ValidName (sprintf08d i) := by
  have hne : sprintf08d i ≠ [] := by
    unfold sprintf08d
    split
    · exact List.cons_ne_nil _ _
    · exact padZeros_ne_nil _ _
  have hbad : ∀ c, c ∈ sprintf08d i → isDigit c = false → c ≠ '-' → False := fun c hc hd hm =>
    (mem_sprintf08d hc).elim (fun h => by simp [hd] at h) hm
  refine ⟨hne, fun h => hbad '/' h rfl (by decide), fun h => ?_, fun h => ?_⟩
  · exact hbad '.' (h ▸ List.mem_singleton_self _) rfl (by decide)
  · exact hbad '.' (h ▸ List.mem_cons_self _ _) rfl (by decide)

/-- The last of a list sorted by index has the greatest index. -/
theorem index_le_of_getLast? {l : List SegmentRef} {r : SegmentRef} (hs : l.Sorted indexLe)
    (hr : l.getLast? = some r) : ∀ x ∈ l, x.index ≤ r.index := by
  obtain ⟨ys, rfl⟩ := List.getLast?_eq_some_iff.mp hr
  intro x hx
  rcases List.mem_append.mp hx with hx | hx
  · exact (List.pairwise_append.mp hs).2.2 x hx r (List.mem_singleton_self r)
  · rw [List.mem_singleton.mp hx]

theorem segments_ok {content : Except Error (List DirEntry)} {first last : Int}
    (h : segments content = .ok (first, last)) (hl : last ≠ -1) :
    ∃ files r, content = .ok files ∧
      ((segmentRefs files).insertionSort indexLe).getLast? = some r ∧ r.index = last := by
  cases content with
  | error err => cases h
  | ok files =>
    simp only [segments, listSegments] at h
    split at h
    · cases h
    · rename_i refs hrefs
      split at hrefs
      · cases hrefs
        split at h
        · rename_i r _ hr
          cases h
          exact ⟨files, r, rfl, hr, rfl⟩
        · cases h
          exact absurd rfl hl
      · cases hrefs

theorem stat_ok {dir p : Path} {content : Except Error (List DirEntry)} {t : Time}
    (h : stat dir content p = .ok t) :
    ∃ files, content = .ok files ∧ ∃ f ∈ files, join dir f.name.val = p ∧ f.modTime = some t := by
  unfold stat at h
  split at h
  · rename_i t' hf
    cases h
    obtain ⟨f, hf, htime⟩ := Option.bind_eq_some.mp hf
    obtain ⟨files, hfiles, hfind⟩ := Option.bind_eq_some.mp hf
    have hp := List.find?_some hfind
    cases content with
    | error err => cases hfiles
    | ok files =>
      cases hfiles
      exact ⟨files, rfl, f, List.mem_of_find?_eq_some hfind, by simpa using hp, htime⟩
  · cases h

/-- **The newest segment's time.** If `lastWrittenTime` returns a time, the WAL directory holds a
segment entry (a name `Atoi` accepts), the time is the modification time of an entry whose index
`last` is the greatest present, that entry is the one `SegmentName(walDir, last)` names, and the
`%08d` spelling of `last` parses back to `last`. -/
theorem lastWrittenTime_newest_segment (subDirectory : Path → Path)
    (readWal : Path → Except Error (List DirEntry)) (storage : Path) (t : Time)
    (h : lastWrittenTime subDirectory readWal storage = .ok t) :
    ∃ files, readWal (subDirectory storage) = .ok files ∧ ∃ last : Int,
      (∃ f ∈ files, atoi f.name.val = some last ∧ f.modTime = some t ∧
        join (subDirectory storage) f.name.val = segmentName (subDirectory storage) last ∧
        f.name.val = sprintf08d last) ∧
      (∀ f ∈ files, ∀ k, atoi f.name.val = some k → k ≤ last) ∧
      atoi (sprintf08d last) = some last := by
  simp only [lastWrittenTime] at h
  split at h
  · cases h
  · rename_i first last hseg
    split at h
    · cases h
    · rename_i hl
      obtain ⟨files, r, hfiles, hr, rfl⟩ := segments_ok hseg hl
      rw [hfiles] at h
      obtain ⟨_, hsome, f, hf, hjoin, htime⟩ := stat_ok h
      cases hsome
      have hmem : ∀ g ∈ files, ∀ k, atoi g.name.val = some k →
          (⟨g.name.val, k⟩ : SegmentRef) ∈ (segmentRefs files).insertionSort indexLe :=
        fun g hg k hk => (List.perm_insertionSort indexLe _).mem_iff.mpr
          (List.mem_filterMap.mpr ⟨g, hg, by simp [hk]⟩)
      have hrmem : r ∈ segmentRefs files :=
        (List.perm_insertionSort indexLe _).mem_iff.mp (List.mem_of_getLast?_eq_some hr)
      obtain ⟨g, -, hg⟩ := List.mem_filterMap.mp hrmem
      obtain ⟨k, hk, rfl⟩ := Option.map_eq_some'.mp hg
      have hround := atoi_sprintf08d (atoi_range hk).1 (atoi_range hk).2
      have hname : f.name.val = sprintf08d k :=
        join_injective _ f.name.valid (validName_sprintf08d k) hjoin
      refine ⟨files, hfiles, k, ⟨f, hf, hname ▸ hround, htime, hjoin, hname⟩, fun g hg k' hk' =>
        index_le_of_getLast? (List.sorted_insertionSort indexLe _) hr _ (hmem g hg k' hk'),
        hround⟩

/-! ### A WAL without segments -/

theorem segments_of_no_refs {files : List DirEntry}
    (h : ∀ f ∈ files, atoi f.name.val = none) : segments (.ok files) = .ok (-1, -1) := by
  have hrefs : segmentRefs files = [] := List.filterMap_eq_nil_iff.mpr fun f hf => by simp [h f hf]
  simp [segments, listSegments, hrefs, sequential]

/-- A WAL directory that can be read but holds no name `Atoi` accepts makes `lastWrittenTime`
fail with "unable to determine most recent segment for" that directory. -/
theorem lastWrittenTime_no_segments {subDirectory : Path → Path}
    {readWal : Path → Except Error (List DirEntry)} {storage : Path} {files : List DirEntry}
    (hread : readWal (subDirectory storage) = .ok files)
    (hnone : ∀ f ∈ files, atoi f.name.val = none) :
    lastWrittenTime subDirectory readWal storage = .error (.new
      ("unable to determine most recent segment for " ++ String.mk (subDirectory storage))) := by
  simp [lastWrittenTime, hread, segments_of_no_refs hnone]

/-- A WAL holding segments 0 and 1 and a lock file, in every storage directory. -/
def sampleWal (_ : Path) : Except Error (List DirEntry) :=
  .ok [⟨⟨"00000000".toList, by decide⟩, some ⟨5⟩⟩, ⟨⟨"00000001".toList, by decide⟩, some ⟨7⟩⟩,
    ⟨⟨"lock".toList, by decide⟩, some ⟨9⟩⟩]

theorem lastWrittenTime_newest_segment_sample :
    lastWrittenTime (join · "wal".toList) sampleWal "data/a".toList = .ok ⟨7⟩ ∧
    ∃ files, sampleWal (join "data/a".toList "wal".toList) = .ok files ∧ ∃ last : Int,
      (∃ f ∈ files, atoi f.name.val = some last ∧ f.modTime = some ⟨7⟩ ∧
        join (join "data/a".toList "wal".toList) f.name.val =
          segmentName (join "data/a".toList "wal".toList) last ∧
        f.name.val = sprintf08d last) ∧
      (∀ f ∈ files, ∀ k, atoi f.name.val = some k → k ≤ last) ∧
      atoi (sprintf08d last) = some last :=
  ⟨rfl, lastWrittenTime_newest_segment (join · "wal".toList) sampleWal "data/a".toList ⟨7⟩ rfl⟩

end WalCleaner
