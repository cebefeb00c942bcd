import Mathlib.Data.List.Basic

/-!
# WalCleaner.GoPath

**Lexical paths** as Go's `path` and `path/filepath` packages compute them on a Unix host.

The cleaner never edits a path itself. It hands `walDirectory` to `filepath.Walk`, which names
each child with `filepath.Join`, and keeps a visited directory when `path.Dir` of its name equals
the root string as configured. Whether that test can succeed is decided by the lexical functions
of this module alone.

`clean` follows `path.Clean`'s single scan over the slash-separated elements, written as a stack
machine (`cleanStep`) whose stack holds the kept elements top first; `render` writes a stack back
out. The pair `(rooted p, cleanStack p)` is what a path means lexically, and every result below is
read off it:

* `clean_clean` — cleaning is idempotent;
* `join_eq_render` — joining a name pushes it on the stack;
* `dir_join` — `dir (join p n) = clean p`;
* `dir_eq_self_iff` — a clean path is its own `dir` exactly when it is `/` or `.`.
-/

namespace WalCleaner

/-- A path string. Go strings are bytes; a path is modelled by its characters. -/
abbrev Path := List Char

namespace Path

/-- The parent-directory element `..`. -/
def dotDot : Path := ['.', '.']

/-- A name a directory listing can hold: non-empty, free of `/`, and neither `.` nor `..`. -/
def ValidName (n : Path) : Prop := n ≠ [] ∧ '/' ∉ n ∧ n ≠ ['.'] ∧ n ≠ dotDot

instance (n : Path) : Decidable (ValidName n) := inferInstanceAs (Decidable (_ ∧ _ ∧ _ ∧ _))

/-- Whether `p` starts at the root (`path[0] == '/'` in `path.Clean`). -/
def rooted (p : Path) : Bool := p.head? == some '/'

/-- One element of `path.Clean`'s scan; the stack holds the kept elements, top first. Empty and
`.` elements vanish. `..` removes the top element when the scan can backtrack over it (any element
of a rooted path, a real name of a relative one); otherwise it is dropped in a rooted path and
kept in a relative one. -/
def cleanStep (rooted : Bool) (st : List Path) (e : Path) : List Path :=
  if e = [] ∨ e = ['.'] then st
  else if e = dotDot then
    match st with
    | top :: rest => if rooted ∨ top ≠ dotDot then rest else dotDot :: st
    | [] => if rooted then [] else [dotDot]
  else e :: st

/-- The stack `path.Clean` ends its scan of `p` with. -/
def cleanStack (p : Path) : List Path := (p.splitOn '/').foldl (cleanStep (rooted p)) []

/-- The elements of a stack written out bottom first, separated by `/`. -/
def renderRel : List Path → Path
  | [] => []
  | [e] => e
  | e :: rest => renderRel rest ++ '/' :: e

/-- A stack written out as `path.Clean` returns it: after the leading `/` of a rooted path, and
as `.` when a relative path keeps nothing. -/
def render (rooted : Bool) (st : List Path) : Path :=
  if rooted then '/' :: renderRel st else if st = [] then ['.'] else renderRel st

/-- `path.Clean`, which is also `filepath.Clean` on Unix. -/
def clean (p : Path) : Path := if p = [] then ['.'] else render (rooted p) (cleanStack p)

/-- `path.Split`: everything up to and including the last `/`, and the rest. -/
def split (p : Path) : Path × Path :=
  ((p.reverse.dropWhile (· != '/')).reverse, (p.reverse.takeWhile (· != '/')).reverse)

/-- `path.Dir`: the directory part of `Split`, cleaned. -/
def dir (p : Path) : Path := clean (split p).1

/-- `filepath.Join(p, n)`: empty leading elements are skipped, the rest joined by `/` and
cleaned. -/
def join (p n : Path) : Path :=
  if p = [] then (if n = [] then [] else clean n) else clean (p ++ '/' :: n)

example : clean "./wal//a/../b/".toList = "wal/b".toList := by decide
example : dir "/wal/a".toList = "/wal".toList := by decide

/-! ### Splitting on `/` -/

theorem splitOn_append_slash (xs ys : Path) :
    (xs ++ '/' :: ys).splitOn '/' = xs.splitOn '/' ++ ys.splitOn '/' := by
  simp only [List.splitOn]
  induction xs with
  | nil => simp [List.splitOnP_cons]
  | cons x xs ih =>
    rw [List.cons_append, List.splitOnP_cons, List.splitOnP_cons, ih]
    split
    · rfl
    · obtain ⟨h, t, hxs⟩ := List.exists_cons_of_ne_nil (List.splitOnP_ne_nil (· == '/') xs)
      rw [hxs]
      rfl

theorem splitOn_of_slash_free {n : Path} (h : '/' ∉ n) : n.splitOn '/' = [n] :=
  List.splitOnP_eq_single _ _ fun _ hc hc' => h (beq_iff_eq.mp hc' ▸ hc)

theorem slash_free_of_mem_splitOn {p e : Path} (h : e ∈ p.splitOn '/') : '/' ∉ e := by
  simp only [List.splitOn] at h
  induction p generalizing e with
  | nil => simp_all
  | cons c p ih =>
    rw [List.splitOnP_cons] at h
    split at h
    · rcases List.mem_cons.mp h with rfl | h
      · simp
      · exact ih h
    · rename_i hc
      obtain ⟨hd, tl, hp⟩ := List.exists_cons_of_ne_nil (List.splitOnP_ne_nil (· == '/') p)
      rw [hp, List.modifyHead_cons, List.mem_cons] at h
      rcases h with rfl | h
      · have hc' : '/' ≠ c := fun h' => hc (by simp [← h'])
        simp [hc', ih (hp ▸ List.mem_cons_self hd tl)]
      · exact ih (hp ▸ List.mem_cons_of_mem hd h)

/-! ### The stacks `cleanStep` builds -/

/-- Valid names, plus — in a relative path only — a run of `..` at the bottom. -/
def Normal (rooted : Bool) : List Path → Prop
  | [] => True
  | e :: rest =>
      (ValidName e ∨ (e = dotDot ∧ rooted = false ∧ ∀ x ∈ rest, x = dotDot)) ∧ Normal rooted rest

@[simp] theorem normal_nil (r : Bool) : Normal r [] := trivial

theorem cleanStep_name {r : Bool} {st : List Path} {e : Path} (he : ValidName e) :
    cleanStep r st e = e :: st := by
  simp [cleanStep, he.1, he.2.2.1, he.2.2.2]

@[simp] theorem cleanStep_empty (r : Bool) (st : List Path) : cleanStep r st [] = st := by
  simp [cleanStep]

theorem cleanStep_normal {r : Bool} {st : List Path} {e : Path} (hst : Normal r st)
    (he : '/' ∉ e) : Normal r (cleanStep r st e) := by
  by_cases h0 : e = [] ∨ e = ['.']
  · simpa [cleanStep, h0] using hst
  by_cases hdd : e = dotDot
  · subst hdd
    cases st with
    | nil => cases r <;> simp [cleanStep, Normal]
    | cons top rest =>
      by_cases hb : r = true ∨ top ≠ dotDot
      · simpa [cleanStep, hb] using hst.2
      · simp only [not_or, not_not, Bool.not_eq_true] at hb
        obtain ⟨rfl, rfl⟩ := hb
        have hrest : ∀ x ∈ rest, x = dotDot := by
          rcases hst.1 with hv | ⟨-, -, h⟩
          · exact absurd rfl hv.2.2.2
          · exact h
        simp only [cleanStep, h0, if_false, if_true]
        exact ⟨Or.inr ⟨rfl, rfl, by simpa using hrest⟩, hst⟩
  · have hv : ValidName e := ⟨fun h => h0 (Or.inl h), he, fun h => h0 (Or.inr h), hdd⟩
    rw [cleanStep_name hv]
    exact ⟨Or.inl hv, hst⟩

theorem foldl_cleanStep_normal {r : Bool} {es st : List Path} (hes : ∀ e ∈ es, '/' ∉ e)
    (hst : Normal r st) : Normal r (es.foldl (cleanStep r) st) := by
  induction es generalizing st with
  | nil => exact hst
  | cons e es ih =>
    exact ih (fun x hx => hes x (List.mem_cons_of_mem e hx))
      (cleanStep_normal hst (hes e (List.mem_cons_self e es)))

theorem cleanStack_normal (p : Path) : Normal (rooted p) (cleanStack p) :=
  foldl_cleanStep_normal (fun _ he => slash_free_of_mem_splitOn he) trivial

/-- Scanning a normal stack's own elements, bottom first, rebuilds it. -/
theorem foldl_cleanStep_reverse {r : Bool} {st : List Path} (h : Normal r st) :
    st.reverse.foldl (cleanStep r) [] = st := by
  induction st with
  | nil => rfl
  | cons e rest ih =>
    rw [List.reverse_cons, List.foldl_append, ih h.2, List.foldl_cons, List.foldl_nil]
    rcases h.1 with hv | ⟨rfl, rfl, hdd⟩
    · exact cleanStep_name hv
    · cases rest with
      | nil => rfl
      | cons top rest' =>
        rw [hdd top (List.mem_cons_self top rest')]
        simp [cleanStep, dotDot]

theorem Normal.elem {r : Bool} {st : List Path} (h : Normal r st) :
    ∀ e ∈ st, e ≠ [] ∧ '/' ∉ e := by
  induction st with
  | nil => simp
  | cons e rest ih =>
    have he : e ≠ [] ∧ '/' ∉ e := by
      rcases h.1 with hv | ⟨rfl, -, -⟩
      · exact ⟨hv.1, hv.2.1⟩
      · decide
    simpa [he] using ih h.2

/-! ### Writing a stack out and reading it back -/

@[simp] theorem renderRel_cons_cons (e s : Path) (ss : List Path) :
    renderRel (e :: s :: ss) = renderRel (s :: ss) ++ '/' :: e := rfl

theorem rooted_append {p : Path} (q : Path) (hp : p ≠ []) : rooted (p ++ q) = rooted p := by
  obtain ⟨c, cs, rfl⟩ := List.exists_cons_of_ne_nil hp
  rfl

theorem rooted_of_slash_free {n : Path} (h : '/' ∉ n) : rooted n = false := by
  cases n with
  | nil => rfl
  | cons c cs =>
    simp only [List.mem_cons, not_or] at h
    simpa [rooted] using Ne.symm h.1

theorem renderRel_ne_nil {st : List Path} (h : ∀ e ∈ st, e ≠ [] ∧ '/' ∉ e) (hne : st ≠ []) :
    renderRel st ≠ [] := by
  match st, hne with
  | [e], _ => exact (h e (List.mem_singleton_self e)).1
  | e :: s :: ss, _ => simp

theorem rooted_renderRel {st : List Path} (h : ∀ e ∈ st, e ≠ [] ∧ '/' ∉ e) :
    rooted (renderRel st) = false := by
  match st with
  | [] => rfl
  | [e] => exact rooted_of_slash_free (h e (List.mem_singleton_self e)).2
  | e :: s :: ss =>
    have hs : ∀ x ∈ s :: ss, x ≠ [] ∧ '/' ∉ x := fun x hx => h x (List.mem_cons_of_mem e hx)
    rw [renderRel_cons_cons, rooted_append _ (renderRel_ne_nil hs (List.cons_ne_nil s ss))]
    exact rooted_renderRel hs

theorem splitOn_renderRel {st : List Path} (h : ∀ e ∈ st, '/' ∉ e) (hne : st ≠ []) :
    (renderRel st).splitOn '/' = st.reverse := by
  match st, hne with
  | [e], _ => exact splitOn_of_slash_free (h e (List.mem_singleton_self e))
  | e :: s :: ss, _ =>
    rw [renderRel_cons_cons, splitOn_append_slash,
      splitOn_renderRel (fun x hx => h x (List.mem_cons_of_mem e hx)) (List.cons_ne_nil s ss),
      splitOn_of_slash_free (h e (List.mem_cons_self e _))]
    simp

theorem render_ne_nil {r : Bool} {st : List Path} (h : Normal r st) : render r st ≠ [] := by
  unfold render
  split
  · simp
  · split
    · simp
    · exact renderRel_ne_nil h.elem ‹_›

theorem rooted_render {r : Bool} {st : List Path} (h : Normal r st) : rooted (render r st) = r := by
  unfold render
  split
  · simp_all [rooted]
  · split
    · simp_all [rooted]
    · simpa [‹¬r = true›] using rooted_renderRel h.elem

/-- Reading a written-out normal stack back gives the stack. -/
theorem cleanStack_render {r : Bool} {st : List Path} (h : Normal r st) :
    cleanStack (render r st) = st := by
  have hslash : ∀ e ∈ st, '/' ∉ e := fun e he => (h.elem e he).2
  unfold cleanStack
  rw [rooted_render h]
  by_cases hst : st = []
  · subst hst
    cases r <;> rfl
  cases r
  · simp only [render, hst, if_false, Bool.false_eq_true]
    rw [splitOn_renderRel hslash hst, foldl_cleanStep_reverse h]
  · rw [render, if_pos rfl, ← List.nil_append ('/' :: _), splitOn_append_slash,
      splitOn_renderRel hslash hst, List.splitOn_nil, List.singleton_append, List.foldl_cons,
      cleanStep_empty, foldl_cleanStep_reverse h]

/-! ### `Clean` -/

theorem clean_eq_render (p : Path) : clean p = render (rooted p) (cleanStack p) := by
  unfold clean
  split
  · subst_vars
    rfl
  · rfl

theorem clean_render {r : Bool} {st : List Path} (h : Normal r st) :
    clean (render r st) = render r st := by
  rw [clean_eq_render, rooted_render h, cleanStack_render h]

@[simp] theorem clean_clean (p : Path) : clean (clean p) = clean p := by
  rw [clean_eq_render p]
  exact clean_render (cleanStack_normal p)

@[simp] theorem cleanStack_clean (p : Path) : cleanStack (clean p) = cleanStack p := by
  rw [clean_eq_render, cleanStack_render (cleanStack_normal p)]

theorem cleanStack_append_slash {p : Path} (ys : Path) (hp : p ≠ []) :
    cleanStack (p ++ '/' :: ys) = (ys.splitOn '/').foldl (cleanStep (rooted p)) (cleanStack p) := by
  rw [cleanStack, cleanStack, rooted_append _ hp, splitOn_append_slash, List.foldl_append]

theorem clean_append_slash {p : Path} (hp : p ≠ []) : clean (p ++ ['/']) = clean p := by
  rw [clean, if_neg (by simp), clean, if_neg hp, rooted_append _ hp, cleanStack_append_slash [] hp]
  rfl

/-! ### `Join` -/

/-- Joining a name pushes it on the stack of the directory it is joined to. -/
theorem join_eq_render (p : Path) {n : Path} (hn : ValidName n) :
    join p n = render (rooted p) (n :: cleanStack p) := by
  have hsplit := splitOn_of_slash_free hn.2.1
  by_cases hp : p = []
  · subst hp
    simp only [join, if_pos rfl, if_neg hn.1, clean, rooted_of_slash_free hn.2.1, cleanStack,
      hsplit]
    rw [List.foldl_cons, List.foldl_nil, cleanStep_name hn]
    rfl
  · rw [join, if_neg hp, clean, if_neg (by simp), rooted_append _ hp, cleanStack_append_slash _ hp,
      hsplit, List.foldl_cons, List.foldl_nil, cleanStep_name hn]

theorem normal_join (p : Path) {n : Path} (hn : ValidName n) :
    Normal (rooted p) (n :: cleanStack p) :=
  ⟨Or.inl hn, cleanStack_normal p⟩

theorem cleanStack_join (p : Path) {n : Path} (hn : ValidName n) :
    cleanStack (join p n) = n :: cleanStack p := by
  rw [join_eq_render p hn, cleanStack_render (normal_join p hn)]

/-- Distinct names join to distinct paths. -/
theorem join_injective (p : Path) {n m : Path} (hn : ValidName n) (hm : ValidName m)
    (h : join p n = join p m) : n = m := by
  have := congrArg cleanStack h
  rw [cleanStack_join p hn, cleanStack_join p hm] at this
  exact List.head_eq_of_cons_eq this

@[simp] theorem clean_join (p : Path) {n : Path} (hn : ValidName n) :
    clean (join p n) = join p n := by
  rw [join_eq_render p hn, clean_render (normal_join p hn)]

/-! ### `Split` and `Dir` -/

theorem split_append_slash (pre : Path) {e : Path} (he : '/' ∉ e) :
    split (pre ++ '/' :: e) = (pre ++ ['/'], e) := by
  have hall : ∀ c ∈ e.reverse, (c != '/') = true := fun c hc => by
    have : c ≠ '/' := fun h => he (h ▸ List.mem_reverse.mp hc)
    simpa using this
  simp [split, List.takeWhile_append_of_pos hall, List.dropWhile_append_of_pos hall]

theorem split_slash_free {e : Path} (he : '/' ∉ e) : split e = ([], e) := by
  have hall : ∀ c ∈ e.reverse, (c != '/') = true := fun c hc => by
    have : c ≠ '/' := fun h => he (h ▸ List.mem_reverse.mp hc)
    simpa using this
  simp [split, List.takeWhile_eq_self_iff.mpr hall, List.dropWhile_eq_nil_iff.mpr hall]

/-- The `Dir` of a written-out stack is the stack without its top. -/
theorem dir_render_cons {r : Bool} {e : Path} {st : List Path} (h : Normal r (e :: st)) :
    dir (render r (e :: st)) = render r st := by
  have he := h.elem e (List.mem_cons_self e st)
  cases st with
  | nil =>
    cases r
    · rw [render, if_neg Bool.false_ne_true, if_neg (List.cons_ne_nil e []), renderRel, dir,
        split_slash_free he.2]
      rfl
    · rw [render, if_pos rfl, renderRel, ← List.nil_append ('/' :: e), dir,
        split_append_slash _ he.2]
      rfl
  | cons s ss =>
    have hcons : render r (e :: s :: ss) = render r (s :: ss) ++ '/' :: e := by
      cases r <;> simp [render]
    rw [hcons, dir, split_append_slash _ he.2, clean_append_slash (render_ne_nil h.2),
      clean_render h.2]

theorem dir_join (p : Path) {n : Path} (hn : ValidName n) : dir (join p n) = clean p := by
  rw [join_eq_render p hn, dir_render_cons (normal_join p hn), clean_eq_render]

@[simp] theorem clean_dir (p : Path) : clean (dir p) = dir p := clean_clean _

/-- A clean path is its own `Dir` exactly when it is the root `/` or the current directory `.`. -/
theorem dir_eq_self_iff {p : Path} (hp : clean p = p) : dir p = p ↔ p = ['/'] ∨ p = ['.'] := by
  have hn := cleanStack_normal p
  rw [clean_eq_render] at hp
  generalize cleanStack p = st at hp hn
  generalize rooted p = r at hp hn
  subst hp
  cases st with
  | nil => cases r <;> decide
  | cons e st =>
    have hstack : ∀ q, render r (e :: st) = q → e :: st = cleanStack q := fun q hq => by
      rw [← hq, cleanStack_render hn]
    rw [dir_render_cons hn]
    refine iff_of_false (fun h => ?_) (fun h => ?_)
    · have := hstack _ h.symm
      rw [cleanStack_render hn.2] at this
      exact List.cons_ne_self e st this
    · rcases h with h | h <;>
        exact List.cons_ne_nil e st ((hstack _ h).trans (by decide))

end Path

end WalCleaner
