import WalCleaner.WindowsPath
import Mathlib.Data.List.Nodup

/-!
# WalCleaner.Fs

**What the cleaner reads from the host**: errors, clock readings, the log it writes, and the
directory tree below the WAL root, walked by `filepath.Walk`.

The tree is what `os.Lstat` finds, so links are not followed and it is finite. A directory holds
its listing as `readDirNames` returns it: sorted by name, each name once (`Node.Sorted`, carried
by `FsTree`), or the operation whose failure kept it from being listed. `filepath.Walk` is modelled
with all of its error paths (`SkipDir`, a walk function that stops the walk), naming what it
visits with the `filepath.Join` of the host's operating system; `walk_eq_visits` then shows that a
walk function that never stops sees exactly the calls listed by `visits`, in order.
-/

namespace WalCleaner

open Path

/-- A Go `error` value reaching the cleaner. -/
inductive Error where
  /-- An `*os.PathError`: the failed operation and the path (the errno is not modelled). -/
  | pathError (op : String) (path : Path)
  /-- An error built by `errors.New` or `fmt.Errorf`, with its text. -/
  | new (text : String)
  deriving DecidableEq, Repr

/-- `time.Time`, read as its wall-clock instant in nanoseconds. -/
structure Time where
  ns : Int
  deriving DecidableEq, Repr

/-- `time.Duration`: a signed count of nanoseconds (`int64`). -/
abbrev Duration := Int

/-- One `Log` call of the cleaner, by call site, with the values it logs. -/
inductive LogLine where
  /-- `Warn`: "unable to traverse WAL storage path" (`getAllStorage`). -/
  | traverseFailed (path : Path) (err : Error)
  /-- `Warn`: "unable to find segment mtime of WAL" (`abandonedStorage`). -/
  | mtimeUnknown (name : Path) (err : Error)
  /-- `Debug`: "abandoned WAL", with its mtime and age (`abandonedStorage`). -/
  | abandoned (name : Path) (mtime : Time) (diff : Duration)
  /-- `Debug`: "active WAL" (`abandonedStorage`). -/
  | active (name : Path)
  /-- `Info`: "would delete WAL" (`CleanupStorage`). -/
  | wouldDelete (name : Path)
  /-- `Error`: "cleanup failed" (`run`, when `CleanupStorage` returns an error). -/
  | cleanupFailed (err : Error)
  /-- `Debug`: "stopping cleaner..." (`Stop`). -/
  | stopping
  deriving DecidableEq, Repr

/-- The order of `sort.Strings`: byte-wise lexicographic, a proper prefix first. -/
def before : Path → Path → Bool
  | [], _ :: _ => true
  | c :: cs, d :: ds => Nat.blt c.toNat d.toNat || (c == d && before cs ds)
  | _, [] => false

/-- A directory entry name: a path element that `readDirNames` can return. -/
structure Name where
  val : Path
  valid : ValidName val
  deriving DecidableEq

/-- What `os.Lstat` finds at a path, with everything below it. -/
inductive Node where
  /-- Lstat fails: the entry vanished, or permission is denied. -/
  | missing
  /-- A regular file, socket, device or any other non-directory that is not a link. -/
  | file
  /-- A symbolic link; `target` is what it resolves to. Lstat reports a non-directory. -/
  | symlink (target : Node)
  /-- A directory with its listing, or the operation whose `PathError` `readDirNames` returns when
  it cannot list it: `open` when `os.Open` fails, `readdirent` when `Readdirnames` fails after the
  open. -/
  | dir (listing : Except String (List (Name × Node)))

namespace Node

/-- Whether Lstat reports a directory (`FileInfo.IsDir`). -/
def isDir : Node → Bool
  | dir _ => true
  | _ => false

/-- Whether Lstat reports a directory whose listing can be read. -/
def readableDir : Node → Bool
  | dir (.ok _) => true
  | _ => false

theorem readableDir_iff {m : Node} : m.readableDir = true ↔ ∃ es, m = dir (.ok es) := by
  constructor
  · intro h
    match m, h with
    | dir (.ok es), _ => exact ⟨es, rfl⟩
  · rintro ⟨es, rfl⟩
    rfl

mutual
/-- Every listing in the tree is in `readDirNames` order: strictly sorted by name. -/
def Sorted : Node → Prop
  | dir (.ok es) => (es.map (·.1.val)).Pairwise (fun a b => before a b = true) ∧ SortedAll es
  | symlink t => Sorted t
  | _ => True
/-- `Sorted` for each node of a listing. -/
def SortedAll : List (Name × Node) → Prop
  | [] => True
  | (_, n) :: rest => Sorted n ∧ SortedAll rest
end

mutual
/-- `Sorted` is decidable, so that concrete trees can be checked. -/
def decSorted : (n : Node) → Decidable (Sorted n)
  | dir (.ok es) =>
    have : Decidable (SortedAll es) := decSortedAll es
    inferInstanceAs (Decidable (_ ∧ _))
  | dir (.error _) => isTrue trivial
  | symlink t => decSorted t
  | missing => isTrue trivial
  | file => isTrue trivial
/-- `SortedAll` is decidable. -/
def decSortedAll : (es : List (Name × Node)) → Decidable (SortedAll es)
  | [] => isTrue trivial
  | (_, n) :: rest =>
    have : Decidable (Sorted n) := decSorted n
    have : Decidable (SortedAll rest) := decSortedAll rest
    inferInstanceAs (Decidable (_ ∧ _))
end

instance (n : Node) : Decidable (Sorted n) := decSorted n

end Node

/-- The tree found at the WAL root, as the host can present it. -/
structure FsTree where
  root : Node
  sorted : root.Sorted

/-- The `os.FileInfo` a walk function reads: only `IsDir()` is consulted. -/
structure FileInfo where
  isDir : Bool
  deriving DecidableEq, Repr

/-- What a walk function returns besides its new state: `filepath.SkipDir` or another error. -/
inductive WalkErr where
  | skipDir
  | err (e : Error)
  deriving DecidableEq, Repr

/-- `filepath.WalkFunc`, with the state its closure captures passed explicitly. -/
abbrev WalkFunc (σ : Type) := σ → Path → Option FileInfo → Option Error → σ × Option WalkErr

namespace Filepath

variable {σ : Type} (os : Os)

mutual
/-- Go's unexported `walk`, entered for a path whose Lstat succeeded. A directory is reported
before its listing is read; an unreadable listing is reported with its error and ends the
directory. (Walk never enters a `.missing` node; it is answered as Lstat's failure.) -/
def walkNode (fn : WalkFunc σ) (st : σ) (p : Path) : Node → σ × Option WalkErr
  | .dir (.ok es) =>
    match fn st p (some ⟨true⟩) none with
    | (st', none) => walkNames fn st' p es
    | r => r
  | .dir (.error op) => fn st p (some ⟨true⟩) (some (.pathError op p))
  | .file | .symlink _ => fn st p (some ⟨false⟩) none
  | .missing => fn st p none (some (.pathError "lstat" p))
/-- The loop of `walk` over a directory's sorted names. An entry whose Lstat fails is reported
with its error, and only a non-`SkipDir` error stops the loop; a `SkipDir` from a directory
skips that directory, and from a file skips the rest of the listing. -/
def walkNames (fn : WalkFunc σ) (st : σ) (p : Path) : List (Name × Node) → σ × Option WalkErr
  | [] => (st, none)
  | (n, node) :: rest =>
    match node with
    | .missing =>
      match fn st (os.join p n.val) none (some (.pathError "lstat" (os.join p n.val))) with
      | (st', some (.err e)) => (st', some (.err e))
      | (st', _) => walkNames fn st' p rest
    | .file | .symlink _ | .dir _ =>
      match walkNode fn st (os.join p n.val) node with
      | (st', none) => walkNames fn st' p rest
      | (st', some .skipDir) =>
        if node.isDir then walkNames fn st' p rest
        else (st', some .skipDir)
      | (st', some (.err e)) => (st', some (.err e))
end

/-- `filepath.Walk(root, fn)`: Lstat the root, walk it, and turn a final `SkipDir` into `nil`. -/
def walk (fn : WalkFunc σ) (st : σ) (root : Path) (node : Node) : σ × Option Error :=
  let r := match node with
    | .missing => fn st root none (some (.pathError "lstat" root))
    | .file | .symlink _ | .dir _ => walkNode os fn st root node
  (r.1, match r.2 with
    | some (.err e) => some e
    | _ => none)

/-! ### The calls a walk makes -/

/-- One call of the walk function: the path, its `FileInfo` and the error passed with it. -/
structure Visit where
  path : Path
  info : Option FileInfo
  err : Option Error
  deriving DecidableEq, Repr

mutual
/-- The calls made for a path and everything below it, when no call stops the walk. -/
def visitsAt (p : Path) : Node → List Visit
  | .missing => [⟨p, none, some (.pathError "lstat" p)⟩]
  | .dir (.ok es) => ⟨p, some ⟨true⟩, none⟩ :: visitsNames p es
  | .dir (.error op) => [⟨p, some ⟨true⟩, some (.pathError op p)⟩]
  | .file | .symlink _ => [⟨p, some ⟨false⟩, none⟩]
/-- The calls made for the entries of a listing, in listing order. -/
def visitsNames (p : Path) : List (Name × Node) → List Visit
  | [] => []
  | (n, node) :: rest => visitsAt (os.join p n.val) node ++ visitsNames p rest
end

/-- The call made for `node` at `p` itself, before any call for what lies below it. -/
def visit (p : Path) : Node → Visit
  | .missing => ⟨p, none, some (.pathError "lstat" p)⟩
  | .dir (.ok _) => ⟨p, some ⟨true⟩, none⟩
  | .dir (.error op) => ⟨p, some ⟨true⟩, some (.pathError op p)⟩
  | .file | .symlink _ => ⟨p, some ⟨false⟩, none⟩

@[simp] theorem visit_path (p : Path) (node : Node) : (visit p node).path = p := by
  cases node with
  | dir l => cases l <;> rfl
  | _ => rfl

/-- `Below p node q m`: walking `node` at `p` reaches `m` at `q`, through readable directories
and at any depth (`node` itself included). -/
inductive Below : Path → Node → Path → Node → Prop
  | refl (p : Path) (node : Node) : Below p node p node
  | child {p q : Path} {es : List (Name × Node)} {n : Name} {node m : Node} :
      (n, node) ∈ es → Below (os.join p n.val) node q m → Below p (.dir (.ok es)) q m

theorem visitsAt_subset_visitsNames {p : Path} {n : Name} {node : Node} :
    ∀ {es : List (Name × Node)}, (n, node) ∈ es →
      visitsAt os (os.join p n.val) node ⊆ visitsNames os p es
  | _ :: rest, h => by
    rw [visitsNames]
    rcases List.mem_cons.mp h with rfl | h
    · exact List.subset_append_left _ _
    · exact (visitsAt_subset_visitsNames h).trans (List.subset_append_right _ _)

theorem visit_mem_visitsAt {p q : Path} {node m : Node} (h : Below os p node q m) :
    visit q m ∈ visitsAt os p node := by
  induction h with
  | refl p node =>
    cases node with
    | dir l => cases l <;> simp [visitsAt, visit]
    | _ => simp [visitsAt, visit]
  | child hmem _ ih => exact List.mem_cons_of_mem _ (visitsAt_subset_visitsNames os hmem ih)

mutual
theorem below_of_mem_visitsAt (p : Path) : ∀ (node : Node), ∀ v ∈ visitsAt os p node,
    ∃ q m, Below os p node q m ∧ v = visit q m
  | .missing, v, h | .file, v, h | .symlink _, v, h | .dir (.error _), v, h => by
    simp only [visitsAt, List.mem_singleton] at h
    exact ⟨p, _, .refl p _, h⟩
  | .dir (.ok es), v, h => by
    rw [visitsAt, List.mem_cons] at h
    rcases h with rfl | h
    · exact ⟨p, _, .refl p _, rfl⟩
    · obtain ⟨n, node, q, m, hmem, hb, rfl⟩ := below_of_mem_visitsNames p es v h
      exact ⟨q, m, .child hmem hb, rfl⟩
theorem below_of_mem_visitsNames (p : Path) :
    ∀ (es : List (Name × Node)), ∀ v ∈ visitsNames os p es,
      ∃ n node q m, (n, node) ∈ es ∧ Below os (os.join p n.val) node q m ∧ v = visit q m
  | [], v, h => nomatch h
  | (n, node) :: rest, v, h => by
    rw [visitsNames, List.mem_append] at h
    rcases h with h | h
    · obtain ⟨q, m, hb, rfl⟩ := below_of_mem_visitsAt (os.join p n.val) node v h
      exact ⟨n, node, q, m, List.mem_cons_self _ _, hb, rfl⟩
    · obtain ⟨n', node', q, m, hmem, hb, rfl⟩ := below_of_mem_visitsNames p rest v h
      exact ⟨n', node', q, m, List.mem_cons_of_mem _ hmem, hb, rfl⟩
end

/-- A walk that is never stopped makes one call for each node below the root, at every depth,
and no other call. -/
theorem mem_visitsAt_iff {p : Path} {node : Node} {v : Visit} :
    v ∈ visitsAt os p node ↔ ∃ q m, Below os p node q m ∧ v = visit q m :=
  ⟨below_of_mem_visitsAt os p node v, fun ⟨_, _, hb, hv⟩ => hv ▸ visit_mem_visitsAt os hb⟩

/-- Feed a list of calls to a walk function. -/
def runVisits (fn : WalkFunc σ) (st : σ) (vs : List Visit) : σ :=
  vs.foldl (fun st v => (fn st v.path v.info v.err).1) st

@[simp] theorem runVisits_nil (fn : WalkFunc σ) (st : σ) : runVisits fn st [] = st := rfl

@[simp] theorem runVisits_cons (fn : WalkFunc σ) (st : σ) (v : Visit) (vs : List Visit) :
    runVisits fn st (v :: vs) = runVisits fn (fn st v.path v.info v.err).1 vs := rfl

@[simp] theorem runVisits_append (fn : WalkFunc σ) (st : σ) (vs ws : List Visit) :
    runVisits fn st (vs ++ ws) = runVisits fn (runVisits fn st vs) ws :=
  List.foldl_append _ _ _ _

section NeverStops

variable {fn : WalkFunc σ} (hfn : ∀ st p i e, (fn st p i e).2 = none)
include hfn

theorem fn_eq_of_never_stops (st : σ) (p : Path) (i : Option FileInfo) (e : Option Error) :
    fn st p i e = ((fn st p i e).1, none) :=
  Prod.ext rfl (hfn st p i e)

mutual
theorem walkNode_eq_visits (st : σ) (p : Path) :
    ∀ node : Node, walkNode os fn st p node = (runVisits fn st (visitsAt os p node), none)
  | .missing | .file | .symlink _ | .dir (.error _) => by
    rw [walkNode, fn_eq_of_never_stops hfn]
    rfl
  | .dir (.ok es) => by
    rw [walkNode, fn_eq_of_never_stops hfn]
    exact walkNames_eq_visits _ p es
theorem walkNames_eq_visits (st : σ) (p : Path) :
    ∀ es : List (Name × Node),
      walkNames os fn st p es = (runVisits fn st (visitsNames os p es), none)
  | [] => rfl
  | (n, .missing) :: rest => by
    rw [walkNames, fn_eq_of_never_stops hfn]
    exact walkNames_eq_visits _ p rest
  | (n, .file) :: rest | (n, .symlink _) :: rest | (n, .dir _) :: rest => by
    rw [walkNames, walkNode_eq_visits]
    simp only [visitsNames, runVisits_append]
    exact walkNames_eq_visits _ p rest
end

/-- A walk function that never stops the walk sees exactly the calls `visitsAt` lists. -/
theorem walk_eq_visits (st : σ) (root : Path) (node : Node) :
    walk os fn st root node = (runVisits fn st (visitsAt os root node), none) := by
  cases node with
  | missing =>
    simp only [walk, hfn]
    rfl
  | file | symlink _ | dir _ => simp only [walk, walkNode_eq_visits os hfn]

end NeverStops

end Filepath

end WalCleaner
