import WalCleaner.Fs

/-!
# WalCleaner.GetAllStorage

**`getAllStorage`**: the storage directories one level below `walDirectory`.

Its walk function logs every traversal error and keeps a visited directory when `path.Dir` of
the visited path equals the root string as configured. It never stops the walk, so
`getAllStorage` is a filter over the calls `visitsAt` lists (`getAllStorage_eq`). Which calls pass
the filter depends on the spelling of the root and on the `filepath.Join` that names the children:

* on every host the root itself is kept when it is its own `Dir` (`/` or `.`), and nothing is
  kept below a root that `path.Clean` would spell otherwise (`getAllStorage_unclean`);
* on Unix, below a root spelled clean, exactly `Join(root, n)` for each entry `n` that Lstat
  reports as a readable directory (`getAllStorage_dir`), never a deeper path
  (`visitsNames_deep`);
* on Windows, `Join` writes `\`, so `path.Dir` of every path below the root is `.`: nothing below
  the root is kept, unless the root is `.`, when every readable directory at every depth is
  (`getAllStorage_windows`).
-/

namespace WalCleaner

open Path Filepath

/-- The walk function of `getAllStorage`, over the collected paths and the log. -/
def getAllStorageFn (root : Path) : WalkFunc (List Path × List LogLine) :=
  fun acc p info err =>
    match err with
    | some e => ((acc.1, acc.2 ++ [.traverseFailed p e]), none)
    | none =>
      if (info.map (·.isDir)).getD false ∧ dir p = root then ((acc.1 ++ [p], acc.2), none)
      else (acc, none)

/-- `getAllStorage` on a host of operating system `os`: walk `walDirectory`, keeping each
directory whose `Dir` is `walDirectory`. The walk's own result is discarded. Returns the kept
paths and the lines logged. -/
def getAllStorage (os : Os) (walDirectory : Path) (fs : Node) : List Path × List LogLine :=
  (walk os (getAllStorageFn walDirectory) ([], []) walDirectory fs).1

/-- Whether `getAllStorageFn` keeps the path of a call. -/
def keeps (root : Path) (v : Visit) : Bool :=
  v.err.isNone && (v.info.map (·.isDir)).getD false && dir v.path == root

/-- The warning `getAllStorageFn` logs for a call, if any. -/
def traverseWarning (v : Visit) : Option LogLine := v.err.map (.traverseFailed v.path)

theorem getAllStorageFn_never_stops (root : Path) (acc : List Path × List LogLine) (p : Path)
    (i : Option FileInfo) (e : Option Error) : (getAllStorageFn root acc p i e).2 = none := by
  unfold getAllStorageFn
  split
  · rfl
  · split <;> rfl

theorem runVisits_getAllStorageFn (root : Path) (vs : List Visit) (out : List Path)
    (log : List LogLine) :
    runVisits (getAllStorageFn root) (out, log) vs =
      (out ++ (vs.filter (keeps root)).map (·.path), log ++ vs.filterMap traverseWarning) := by
  induction vs generalizing out log with
  | nil => simp
  | cons v vs ih =>
    obtain ⟨p, i, e⟩ := v
    cases e with
    | some e => simp [getAllStorageFn, ih, keeps, traverseWarning]
    | none =>
      by_cases h : (i.map (·.isDir)).getD false = true ∧ dir p = root
      · simp [getAllStorageFn, h, ih, keeps, traverseWarning]
      · simp only [getAllStorageFn, h, if_false, runVisits_cons, ih]
        simp_all [keeps, traverseWarning]

/-- `getAllStorage` keeps the kept calls' paths and logs a warning for each call with an error:
no error ends the scan. -/
theorem getAllStorage_eq (os : Os) (root : Path) (fs : Node) :
    getAllStorage os root fs =
      (((visitsAt os root fs).filter (keeps root)).map (·.path),
        (visitsAt os root fs).filterMap traverseWarning) := by
  rw [getAllStorage, walk_eq_visits os (getAllStorageFn_never_stops root),
    runVisits_getAllStorageFn]
  simp

/-- Every line the scan logs is a traversal warning. -/
theorem traverseFailed_of_mem_warnings {os : Os} {root : Path} {fs : Node} {l : LogLine}
    (hl : l ∈ (getAllStorage os root fs).2) : ∃ p e, l = .traverseFailed p e := by
  rw [getAllStorage_eq, List.mem_filterMap] at hl
  obtain ⟨v, -, hv⟩ := hl
  obtain ⟨e, -, rfl⟩ := Option.map_eq_some'.mp hv
  exact ⟨_, _, rfl⟩

theorem keeps_visit (root q : Path) (m : Node) :
    keeps root (visit q m) = (m.readableDir && dir q == root) := by
  cases m with
  | dir l => cases l <;> simp [keeps, visit, Node.readableDir]
  | _ => simp [keeps, visit, Node.readableDir]

/-- The paths the scan keeps: the nodes below the root, at any depth, that are readable
directories named by a path whose `Dir` is the root. -/
theorem mem_getAllStorage_iff {os : Os} {root p : Path} {fs : Node} :
    p ∈ (getAllStorage os root fs).1 ↔
      ∃ m, Below os root fs p m ∧ m.readableDir = true ∧ dir p = root := by
  rw [getAllStorage_eq, List.mem_map]
  constructor
  · rintro ⟨v, hv, rfl⟩
    obtain ⟨hv, hk⟩ := List.mem_filter.mp hv
    obtain ⟨q, m, hb, rfl⟩ := (mem_visitsAt_iff _).mp hv
    rw [keeps_visit, Bool.and_eq_true, beq_iff_eq] at hk
    exact ⟨m, by rwa [visit_path], by rwa [visit_path]⟩
  · rintro ⟨m, hb, hm, hd⟩
    refine ⟨visit p m, List.mem_filter.mpr ⟨(mem_visitsAt_iff _).mpr ⟨p, m, hb, rfl⟩, ?_⟩, ?_⟩
    · simp [keeps_visit, hm, hd]
    · exact visit_path p m

/-- What the scan keeps of a readable root: the root itself when it is its own `Dir`, then what
it keeps below it. -/
theorem getAllStorage_dir_eq (os : Os) (root : Path) (es : List (Name × Node)) :
    (getAllStorage os root (.dir (.ok es))).1 =
      (if dir root = root then [root] else []) ++
        ((visitsNames os root es).filter (keeps root)).map (·.path) := by
  rw [getAllStorage_eq, visitsAt, List.filter_cons]
  by_cases h : dir root = root <;> simp [keeps, h]

/-- Any other root (missing, a file, a link, an unreadable directory) yields nothing. -/
theorem getAllStorage_not_readableDir (os : Os) (root : Path) {fs : Node}
    (h : fs.readableDir = false) : (getAllStorage os root fs).1 = [] := by
  cases fs with
  | dir l =>
    cases l with
    | error op => simp [getAllStorage_eq, visitsAt, keeps]
    | ok es => simp [Node.readableDir] at h
  | _ => simp [getAllStorage_eq, visitsAt, keeps]

/-! ### Below a Unix root -/

mutual
/-- A call made below `q` is for `q` itself, or for a path whose `Dir` is at least as deep. -/
theorem visitsAt_deep (q : Path) : ∀ (node : Node), ∀ v ∈ visitsAt .unix q node,
    v.path = q ∨ (cleanStack q).length ≤ (cleanStack (dir v.path)).length
  | .missing, v, h | .file, v, h | .symlink _, v, h | .dir (.error _), v, h => by
    simp only [visitsAt, List.mem_singleton] at h
    exact Or.inl (h ▸ rfl)
  | .dir (.ok es), v, h => by
    rw [visitsAt, List.mem_cons] at h
    rcases h with rfl | h
    · exact Or.inl rfl
    · exact Or.inr (visitsNames_deep q es v h)
/-- Every call made for the entries of `q`'s listing is for a path whose `Dir` is at least as
deep as `q`. -/
theorem visitsNames_deep (q : Path) : ∀ (es : List (Name × Node)), ∀ v ∈ visitsNames .unix q es,
    (cleanStack q).length ≤ (cleanStack (dir v.path)).length
  | [], v, h => nomatch h
  | (n, node) :: rest, v, h => by
    rw [visitsNames, List.mem_append, Os.join_unix] at h
    rcases h with h | h
    · rcases visitsAt_deep (join q n.val) node v h with hv | hv
      · rw [hv, dir_join q n.valid, cleanStack_clean]
      · rw [cleanStack_join q n.valid, List.length_cons] at hv
        omega
    · exact visitsNames_deep q rest v h
end

/-- Below an entry of the root, only the entry itself can be kept: it is when it is a readable
directory and the root is spelled clean. -/
theorem filter_keeps_visitsAt_join (root : Path) (n : Name) (node : Node) :
    (visitsAt .unix (join root n.val) node).filter (keeps root) =
      if node.readableDir ∧ clean root = root then [⟨join root n.val, some ⟨true⟩, none⟩]
      else [] := by
  cases node with
  | dir l =>
    cases l with
    | error op => simp [visitsAt, keeps, Node.readableDir]
    | ok es =>
      have hdeep : (visitsNames .unix (join root n.val) es).filter (keeps root) = [] :=
        List.filter_eq_nil_iff.mpr fun v hv hk => by
          have hd := visitsNames_deep _ es v hv
          simp only [keeps, Bool.and_eq_true, beq_iff_eq] at hk
          rw [hk.2, cleanStack_join root n.valid, List.length_cons] at hd
          omega
      rw [visitsAt, List.filter_cons, hdeep]
      simp [keeps, dir_join root n.valid, Node.readableDir]
  | _ => simp [visitsAt, keeps, Node.readableDir]

theorem keeps_visitsNames (root : Path) (es : List (Name × Node)) :
    ((visitsNames .unix root es).filter (keeps root)).map (·.path) =
      if clean root = root then (es.filter (·.2.readableDir)).map (fun e => join root e.1.val)
      else [] := by
  induction es with
  | nil => simp [visitsNames]
  | cons e rest ih =>
    obtain ⟨n, node⟩ := e
    rw [visitsNames, List.filter_append, List.map_append, ih, Os.join_unix,
      filter_keeps_visitsAt_join]
    by_cases hc : clean root = root <;> cases hr : node.readableDir <;> simp [hc, hr]

/-- **What `getAllStorage` returns on Unix** for a root that Lstat reports as a readable
directory: the root itself when it is its own `Dir`, then — only when the root is spelled clean —
the join of the root with each entry that is a readable directory, in listing order. -/
theorem getAllStorage_dir (root : Path) (es : List (Name × Node)) :
    (getAllStorage .unix root (.dir (.ok es))).1 =
      (if dir root = root then [root] else []) ++
        if clean root = root then (es.filter (·.2.readableDir)).map (fun e => join root e.1.val)
        else [] := by
  rw [getAllStorage_dir_eq, keeps_visitsNames]

example : (getAllStorage .unix "/".toList (.dir (.ok []))).1 = ["/".toList] := by decide

/-! ### Below a Windows root -/

/-- Walking below a Windows root reaches the root itself, or a path whose `Dir` is `.`. -/
theorem Filepath.Below.windows {p q : Path} {node m : Node} (h : Below .windows p node q m) :
    (q = p ∧ m = node) ∨ dir q = ['.'] := by
  induction h with
  | refl => exact .inl ⟨rfl, rfl⟩
  | child _ _ ih =>
    rcases ih with ⟨rfl, -⟩ | h
    · exact .inr (dir_windows_join _ _)
    · exact .inr h

/-- On Windows, below a root other than `.` nothing is kept: only the root itself can be, when it
is its own `Dir`. -/
theorem eq_root_of_mem_getAllStorage_windows {root p : Path} {fs : Node} (hdot : root ≠ ['.'])
    (hp : p ∈ (getAllStorage .windows root fs).1) :
    p = root ∧ dir root = root ∧ fs.readableDir = true := by
  obtain ⟨m, hb, hm, hd⟩ := mem_getAllStorage_iff.mp hp
  rcases hb.windows with ⟨rfl, rfl⟩ | h
  · exact ⟨rfl, hd, hm⟩
  · exact absurd (hd.symm.trans h) hdot

/-- **What `getAllStorage` returns on Windows.** For the root `.` it keeps every directory that
can be listed, at every depth, the root included. For any other root it keeps at most the root
itself: that happens when the root is its own `Dir` (`/`) and can be listed. -/
theorem getAllStorage_windows (root : Path) (fs : Node) (p : Path) :
    p ∈ (getAllStorage .windows root fs).1 ↔
      if root = ['.'] then ∃ es, Below .windows root fs p (.dir (.ok es))
      else p = root ∧ dir root = root ∧ fs.readableDir = true := by
  rw [mem_getAllStorage_iff]
  split
  · rename_i hroot
    constructor
    · rintro ⟨m, hb, hm, -⟩
      obtain ⟨es, rfl⟩ := Node.readableDir_iff.mp hm
      exact ⟨es, hb⟩
    · rintro ⟨es, hb⟩
      refine ⟨_, hb, rfl, ?_⟩
      rcases hb.windows with ⟨rfl, -⟩ | h
      · subst hroot
        rfl
      · rw [h, hroot]
  · rename_i hroot
    refine ⟨fun hp => eq_root_of_mem_getAllStorage_windows hroot (mem_getAllStorage_iff.mpr hp),
      ?_⟩
    rintro ⟨rfl, hd, hr⟩
    exact ⟨fs, .refl p fs, hr, hd⟩

example : getAllStorage .windows "C:\\wal".toList
    (.dir (.ok [(⟨"a".toList, by decide⟩, .dir (.ok []))])) = ([], []) := by
  decide

/-! ### A root spelled unclean -/

/-- A root not spelled as `path.Clean` spells it (`wal/`, `./wal`, `a//b`) yields nothing on any
host: it is not its own `Dir`, a Unix child's `Dir` is the cleaned root, and a Windows child's
`Dir` is `.`, which is clean. -/
theorem getAllStorage_unclean (os : Os) (root : Path) (fs : Node) (h : clean root ≠ root) :
    (getAllStorage os root fs).1 = [] := by
  have hdir : dir root ≠ root := fun hd => h (by rw [← hd, clean_dir])
  cases os with
  | unix =>
    cases hr : fs.readableDir
    · exact getAllStorage_not_readableDir .unix root hr
    · obtain ⟨es, rfl⟩ := Node.readableDir_iff.mp hr
      simp [getAllStorage_dir, hdir, h]
  | windows =>
    have hdot : root ≠ ['.'] := fun hd => h (by rw [hd]; decide)
    exact List.eq_nil_iff_forall_not_mem.mpr fun p hp =>
      hdir (eq_root_of_mem_getAllStorage_windows hdot hp).2.1

/-! ### The warnings: the whole tree is walked -/

example : getAllStorage .unix "wal".toList
    (.dir (.ok [(⟨"a".toList, by decide⟩,
      .dir (.ok [(⟨"wal".toList, by decide⟩, .dir (.error "readdirent"))]))])) =
      (["wal/a".toList],
        [.traverseFailed "wal/a/wal".toList (.pathError "readdirent" "wal/a/wal".toList)]) := by
  decide

/-! ### One level below a clean Unix root -/

/-- A WAL root `wal` holding a storage directory `a`, a file `f`, and a directory `u` that
cannot be opened. -/
def sampleWalTree : FsTree :=
  ⟨.dir (.ok [(⟨"a".toList, by decide⟩, .dir (.ok [])), (⟨"f".toList, by decide⟩, .file),
    (⟨"u".toList, by decide⟩, .dir (.error "open"))]), by decide⟩

end WalCleaner
