import WalCleaner.GoPath

/-!
# WalCleaner.WindowsPath

**`path/filepath` on Windows**, and the operating system as a parameter of the model.

`part_003` has no build constraint, and the agent is built for Windows too. There `filepath`
takes both `\` and `/` as separators, writes `\`, and keeps a volume name (`C:`, `\\host\share`)
in front of a path; `path.Dir`, which `getAllStorage` compares with the root, stays the
slash-only function of `GoPath`. This module provides:

* `volumeNameLen`, `clean`, `join` — Go's `volumeNameLen`, `Clean` and `Join` for Windows;
* `Os` and `Os.join` — the `filepath.Join` that `Walk` uses to name what it visits;
* `slash_free_join` — a Windows `Join` never writes `/`, so `path.Dir` of any path `Walk`
  names below a Windows root is `.` (`dir_windows_join`).
-/

namespace WalCleaner

open Path

namespace Windows

/-- `os.IsPathSeparator` on Windows: `\` or `/`. -/
def isSlash (c : Char) : Bool := c == '\\' || c == '/'

/-- `filepath.FromSlash`: each `/` written as `\`. -/
def fromSlash (p : Path) : Path := p.map fun c => if c = '/' then '\\' else c

/-- `filepath.ToSlash`: each `\` written as `/`. -/
def toSlash (p : Path) : Path := p.map fun c => if c = '\\' then '/' else c

/-- An ASCII letter, as a drive letter must be. -/
def isLetter (c : Char) : Bool := ('a' ≤ c && c ≤ 'z') || ('A' ≤ c && c ≤ 'Z')

/-- The UNC branch of `volumeNameLen`: `\\host\share` ends at the separator after the share name,
or at the end. The host name starts at index 2, which is neither a separator nor `.`; the share
name starts right after the first separator at or past index 3, with at least one byte after
that separator, and must not start with a separator or `.`. -/
def uncLen (p : Path) : Nat :=
  match p with
  | a :: b :: c :: rest =>
    if isSlash a && isSlash b && !isSlash c && c != '.' && 5 ≤ p.length then
      let host := rest.takeWhile (!isSlash ·)
      match rest.drop host.length with
      | _ :: d :: share =>
        if isSlash d || d == '.' then 0
        else 3 + host.length + 1 + ((d :: share).takeWhile (!isSlash ·)).length
      | _ => 0
    else 0
  | _ => 0

/-- `volumeNameLen`: the length of a leading drive letter `C:` or UNC prefix `\\host\share`. -/
def volumeNameLen (p : Path) : Nat :=
  match p with
  | c :: d :: _ => if d = ':' ∧ isLetter c then 2 else uncLen p
  | _ => 0

/-- `filepath.Clean` on Windows. After the volume name it runs the scan of `path.Clean` with both
`\` and `/` as separators and writes `\`: that is `path.Clean` of the rest spelled with `/`, then
`FromSlash` over the volume and the result. A path that is only a volume name is returned
`FromSlash`ed when it is a UNC prefix and with `.` appended otherwise (`C:` gives `C:.`). -/
def clean (p : Path) : Path :=
  let volLen := volumeNameLen p
  if p.drop volLen = [] then
    if 1 < volLen ∧ p[1]? ≠ some ':' then fromSlash p else p ++ ['.']
  else fromSlash (p.take volLen ++ Path.clean (toSlash (p.drop volLen)))

/-- `filepath.Join(p, n)` on Windows. Empty leading elements are skipped; a two-byte first element
ending in `:` is a drive-relative volume and is joined to `n` without a separator; otherwise the
elements are joined by `\` and cleaned, unless that makes a UNC path out of a first element that
is not one (a first element `\` followed by `\host\share`), when the cleaned parts are put
side by side. -/
def join (p n : Path) : Path :=
  if p = [] then (if n = [] then [] else clean n)
  else if p.length = 2 ∧ p[1]? = some ':' then clean (p ++ n)
  else
    let q := clean (p ++ '\\' :: n)
    if volumeNameLen q ≤ 2 then q
    else
      let head := clean p
      if 2 < volumeNameLen head then q
      else if head.getLast? = some '\\' then head ++ clean n else head ++ '\\' :: clean n

example : join "C:\\wal".toList "a".toList = "C:\\wal\\a".toList := by decide
example : join "C:".toList "a".toList = "C:a".toList := by decide
example : clean "/".toList = "\\".toList := by decide
example : clean "\\\\host\\share/a/../b".toList = "\\\\host\\share\\b".toList := by decide

/-! ### A Windows path never holds `/` -/

theorem slash_free_fromSlash (p : Path) : '/' ∉ fromSlash p := by
  simp only [fromSlash, List.mem_map, not_exists, not_and]
  intro c _
  split <;> simp_all

/-- A UNC prefix is longer than a drive letter, and its second byte is a separator. -/
theorem uncLen_ne_zero {p : Path} (h : uncLen p ≠ 0) :
    ∃ a b rest, p = a :: b :: rest ∧ isSlash b = true ∧ 2 < uncLen p := by
  unfold uncLen at h ⊢
  split at h
  · rename_i a b c rest
    split at h
    · rename_i hcond
      simp only [Bool.and_eq_true] at hcond
      refine ⟨a, b, c :: rest, rfl, hcond.1.1.1.2, ?_⟩
      rw [if_pos (by simpa only [Bool.and_eq_true] using hcond)]
      dsimp only at h ⊢
      split at h
      · split at h
        · exact absurd rfl h
        · rename_i hd
          rw [if_neg hd]
          omega
      · exact absurd rfl h
    · exact absurd rfl h
  · exact absurd rfl h

/-- A volume name is empty, a drive letter, or a UNC prefix, whose second byte is a separator. -/
theorem volumeNameLen_cases (p : Path) :
    volumeNameLen p = 0 ∨
      (∃ c rest, p = c :: ':' :: rest ∧ isLetter c = true ∧ volumeNameLen p = 2) ∨
      ∃ a b rest, p = a :: b :: rest ∧ isSlash b = true ∧ 2 < volumeNameLen p := by
  unfold volumeNameLen
  split
  · rename_i c d rest
    split
    · rename_i hdrive
      obtain ⟨rfl, hc⟩ := hdrive
      exact .inr (.inl ⟨c, rest, rfl, hc, rfl⟩)
    · by_cases hu : uncLen (c :: d :: rest) = 0
      · exact .inl hu
      · exact .inr (.inr (uncLen_ne_zero hu))
  · exact .inl rfl

/-- `Clean` never writes `/`: every branch ends in `FromSlash`, except the one that appends `.`
to an empty path or a drive letter. -/
theorem slash_free_clean (p : Path) : '/' ∉ clean p := by
  unfold clean
  dsimp only
  split_ifs with hrest hvol
  · exact slash_free_fromSlash p
  · rw [List.mem_append, not_or]
    refine ⟨fun hmem => ?_, by simp⟩
    rcases volumeNameLen_cases p with h0 | ⟨c, rest, rfl, hc, h2⟩ | ⟨a, b, rest, rfl, hb, hlt⟩
    · rw [h0, List.drop_zero] at hrest
      simp [hrest] at hmem
    · rw [h2] at hrest
      simp only [List.drop_succ_cons, List.drop_zero] at hrest
      subst hrest
      have hc' : '/' ≠ c := fun h => by subst h; simp [isLetter] at hc
      simp [hc'] at hmem
    · refine hvol ⟨by omega, fun h => ?_⟩
      simp only [List.getElem?_cons_succ, List.getElem?_cons_zero, Option.some.injEq] at h
      simp [h, isSlash] at hb
  · exact slash_free_fromSlash _

/-- `Join` never writes `/`: each branch is empty, a `Clean`, or two `Clean`s put side by side,
with or without a `\` between them. -/
theorem slash_free_join (p n : Path) : '/' ∉ join p n := by
  unfold join
  dsimp only
  split_ifs <;> simp [slash_free_clean]

end Windows

/-! ### The host's operating system -/

/-- The operating system the agent is built for: it decides what `path/filepath` does. -/
inductive Os where
  | unix
  | windows
  deriving DecidableEq, Repr

/-- `filepath.Join` on the host's operating system. -/
def Os.join : Os → Path → Path → Path
  | .unix => Path.join
  | .windows => Windows.join

@[simp] theorem Os.join_unix (p n : Path) : Os.unix.join p n = Path.join p n := rfl

@[simp] theorem Os.join_windows (p n : Path) : Os.windows.join p n = Windows.join p n := rfl

theorem dir_of_slash_free {q : Path} (h : '/' ∉ q) : dir q = ['.'] := by
  rw [dir, split_slash_free h]
  rfl

/-- Below a Windows root, `path.Dir` of every path `Walk` names is `.`: `Join` writes `\`, and
`path.Dir` splits on `/` only. -/
theorem dir_windows_join (p n : Path) : dir (Os.windows.join p n) = ['.'] :=
  dir_of_slash_free (Windows.slash_free_join p n)

end WalCleaner
