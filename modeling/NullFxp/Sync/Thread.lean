import NullFxp.Lib.Runs
import NullFxp.Sync.Plan

/-!
# The queue of the transfer thread

`addTask` puts a task into the queue and then wakes the thread. The thread waits for a wake-up
without a look at the queue, and a wake-up that finds nobody waiting is not remembered. Every
operation of the queue and of the condition is one step, and the steps interleave in any way.
-/

open Runs

namespace NullFxp.Sync.Thread

inductive Worker where
  /-- not started yet, or about to lock `wcMutex` -/
  | atLock
  /-- about to wait, with `wcMutex` locked -/
  | atWait
  | waiting
  /-- about to test `taskQueue.empty()` -/
  | atTest
  /-- The queue was not empty, and `dequeue` comes next. -/
  | atDequeue
  | transferring (task : SyncTaskPackage)
  /-- The queue was empty. -/
  | atUnlock
  /-- back from `run` -/
  | left
  deriving DecidableEq

structure State where
  taskQueue : List SyncTaskPackage
  worker : Worker
  /-- the calls of `addTask` that are between `enqueue` and `wakeOne` -/
  adding : Nat
  /-- `ssh2_sess` is set -/
  connected : Bool
  deriving DecidableEq

def start : State := ⟨[], .atLock, 0, false⟩

inductive Action where
  | enqueue (task : SyncTaskPackage) | wakeOne
  | lock | wait | testEmpty | dequeue | unlock
  /-- `transfer_impl`, with any result but `TASK_ERROR_CONN_FAILD` -/
  | transfer
  | connFaild
  deriving DecidableEq

def step (s : State) : Action → Option State
  | .enqueue task => some { s with taskQueue := s.taskQueue ++ [task], adding := s.adding + 1 }
  | .wakeOne =>
    if 0 < s.adding then
      some { s with
        adding := s.adding - 1
        worker := if s.worker = .waiting then .atTest else s.worker }
    else none
  | .lock => if s.worker = .atLock then some { s with worker := .atWait } else none
  | .wait => if s.worker = .atWait then some { s with worker := .waiting } else none
  | .testEmpty =>
    if s.worker = .atTest then
      some { s with worker := if s.taskQueue = [] then .atUnlock else .atDequeue }
    else none
  | .dequeue =>
    if s.worker = .atDequeue then
      s.taskQueue.head?.map fun task =>
        { s with taskQueue := s.taskQueue.tail, worker := .transferring task }
    else none
  | .transfer =>
    match s.worker with
    | .transferring _ => some { s with worker := .atTest, connected := true }
    | _ => none
  | .connFaild =>
    match s.worker with
    -- the session is kept once it is there
    | .transferring _ => if s.connected then none else some { s with worker := .left }
    | _ => none
  | .unlock => if s.worker = .atUnlock then some { s with worker := .atLock } else none

/-- A task is in the queue, and nobody is going to take it out. -/
def Stranded (s : State) : Prop :=
  s.taskQueue ≠ [] ∧ s.adding = 0 ∧ (s.worker = .waiting ∨ s.worker = .left)

instance (s : State) : Decidable (Stranded s) := inferInstanceAs (Decidable (_ ∧ _ ∧ _))

/-- The thread is going to test the queue before it waits again. -/
def Draining : Worker → Prop
  | .atTest | .atDequeue | .transferring _ => True
  | _ => False

instance : DecidablePred Draining
  | .atTest | .atDequeue | .transferring _ => isTrue trivial
  | .atLock | .atWait | .waiting | .atUnlock | .left => isFalse id

/-- The last `wakeOne` finds a thread that waits or drains the queue, and a connection fails only
with the last task. -/
def WakesInTime (s : State) (a : Action) : Prop :=
  (a = .wakeOne → s.adding = 1 → s.taskQueue ≠ [] → s.worker = .waiting ∨ Draining s.worker) ∧
  (a = .connFaild → s.adding = 0 → s.taskQueue = [])

/-- With no `addTask` under way, a thread that does not drain the queue has an empty one. -/
def NothingLeft (s : State) : Prop := s.adding = 0 → ¬ Draining s.worker → s.taskQueue = []

theorem NothingLeft.not_stranded {s : State} (h : NothingLeft s) : ¬ Stranded s := by
  rintro ⟨hq, ha, hw⟩
  apply hq
  apply h ha
  rcases hw with hw | hw
  · simp [hw, Draining]
  · simp [hw, Draining]

theorem NothingLeft.moved {s s' : State} (h : NothingLeft s) (hq : s'.taskQueue = s.taskQueue)
    (ha : s'.adding = s.adding) (hw : ¬ Draining s.worker) : NothingLeft s' := by
  intro hzero _
  rw [hq]
  exact h (ha ▸ hzero) hw

theorem step_nothingLeft (s : State) (a : Action) (s' : State) (hs : NothingLeft s)
    (hc : WakesInTime s a) (h : step s a = some s') : NothingLeft s' := by
  cases a with
  | enqueue task =>
    obtain rfl := Option.some.inj h
    intro hzero
    simp at hzero
  | wakeOne =>
    simp only [step, Option.ite_none_right_eq_some, Option.some.injEq] at h
    obtain ⟨hadding, rfl⟩ := h
    intro hzero hw
    by_contra hq
    have hone : s.adding = 1 := by
      simp only at hzero
      omega
    rcases hc.1 rfl hone hq with hwait | hdrain
    · simp [hwait, Draining] at hw
    · by_cases hwait : s.worker = .waiting
      · simp [hwait, Draining] at hdrain
      · rw [if_neg hwait] at hw
        exact hw hdrain
  | lock =>
    simp only [step, Option.ite_none_right_eq_some, Option.some.injEq] at h
    obtain ⟨hw, rfl⟩ := h
    exact hs.moved rfl rfl (by simp [hw, Draining])
  | wait =>
    simp only [step, Option.ite_none_right_eq_some, Option.some.injEq] at h
    obtain ⟨hw, rfl⟩ := h
    exact hs.moved rfl rfl (by simp [hw, Draining])
  | testEmpty =>
    simp only [step, Option.ite_none_right_eq_some, Option.some.injEq] at h
    obtain ⟨-, rfl⟩ := h
    intro _ hw
    by_contra hq
    simp [if_neg hq, Draining] at hw
  | dequeue =>
    simp only [step, Option.ite_none_right_eq_some, Option.map_eq_some_iff] at h
    obtain ⟨-, task, -, rfl⟩ := h
    exact fun _ hw => absurd trivial hw
  | transfer =>
    rw [step] at h
    split at h
    · obtain rfl := Option.some.inj h
      exact fun _ hw => absurd trivial hw
    · cases h
  | connFaild =>
    rw [step] at h
    split at h
    · simp only [Option.ite_none_left_eq_some, Option.some.injEq] at h
      obtain ⟨-, rfl⟩ := h
      exact fun hzero _ => hc.2 rfl hzero
    · cases h
  | unlock =>
    simp only [step, Option.ite_none_right_eq_some, Option.some.injEq] at h
    obtain ⟨hw, rfl⟩ := h
    exact hs.moved rfl rfl (by simp [hw, Draining])

theorem lost_wake_strands {s : State} (hadding : s.adding = 0) (hq : s.taskQueue ≠ [])
    (hdrain : ¬ Draining s.worker) : ∃ bs t, run step s bs = some t ∧ Stranded t := by
  obtain ⟨queue, worker, adding, connected⟩ := s
  obtain rfl : adding = 0 := hadding
  have hstranded : Stranded ⟨queue, .waiting, 0, connected⟩ := ⟨hq, rfl, .inl rfl⟩
  cases worker with
  | atLock => exact ⟨[.lock, .wait], _, rfl, hstranded⟩
  | atWait => exact ⟨[.wait], _, rfl, hstranded⟩
  | waiting => exact ⟨[], _, rfl, hstranded⟩
  | atUnlock => exact ⟨[.unlock, .lock, .wait], _, rfl, hstranded⟩
  | left => exact ⟨[], _, rfl, hq, rfl, .inr rfl⟩
  | atTest => exact absurd trivial hdrain
  | atDequeue => exact absurd trivial hdrain
  | transferring task => exact absurd trivial hdrain

theorem late_step_strands {s s' : State} {a : Action} (h : step s a = some s')
    (hlate : ¬ WakesInTime s a) : ∃ bs t, run step s' bs = some t ∧ Stranded t := by
  unfold WakesInTime at hlate
  rw [not_and_or] at hlate
  rcases hlate with hlate | hlate
  · simp only [Classical.not_imp, not_or] at hlate
    obtain ⟨rfl, hone, hq, hwait, hdrain⟩ := hlate
    simp only [step, Option.ite_none_right_eq_some, Option.some.injEq] at h
    obtain ⟨-, rfl⟩ := h
    refine lost_wake_strands ?_ hq ?_
    · simp [hone]
    · simpa [hwait] using hdrain
  · simp only [Classical.not_imp] at hlate
    obtain ⟨rfl, hzero, hq⟩ := hlate
    rw [step] at h
    split at h
    · simp only [Option.ite_none_left_eq_some, Option.some.injEq] at h
      obtain ⟨-, rfl⟩ := h
      exact lost_wake_strands hzero hq id
    · cases h

/-- **No task is stranded in the runs that wake in time**, and after every step that does not, a
task can be stranded. -/
theorem no_task_stranded (as : List Action) (s : State) (hr : run step start as = some s) :
    (Meets step WakesInTime start as → ¬ Stranded s) ∧
    (∀ a s', step s a = some s' → ¬ WakesInTime s a →
      ∃ bs t, run step start (as ++ a :: bs) = some t ∧ Stranded t) := by
  constructor
  · intro hm
    have hstart : NothingLeft start := fun _ _ => rfl
    exact (run_invariant_of_meets NothingLeft step_nothingLeft hstart hm hr).not_stranded
  · intro a s' ha hlate
    obtain ⟨bs, t, ht, hst⟩ := late_step_strands ha hlate
    exact ⟨bs, t, run_append.mpr ⟨s, hr, run_cons.mpr ⟨s', ha, ht⟩⟩, hst⟩

def someTask : SyncTaskPackage := ⟨['a'], 0, .upload⟩

/-- The thread waits, and a second task comes while the first one is transferred. -/
def twoTasks : List Action :=
  [.lock, .wait, .enqueue someTask, .wakeOne, .testEmpty, .dequeue, .enqueue someTask, .wakeOne,
    .transfer, .testEmpty]

theorem no_task_stranded_second :
    ∃ s, run step start twoTasks = some s ∧ s.taskQueue = [someTask] ∧ ¬ Stranded s := by
  refine ⟨⟨[someTask], .atDequeue, 0, true⟩, rfl, rfl, ?_⟩
  refine (no_task_stranded twoTasks ⟨[someTask], .atDequeue, 0, true⟩ rfl).1 ?_
  simp [twoTasks, Meets, step, WakesInTime, start, someTask, Draining]

theorem task_stranded : ∃ s, run step start [.enqueue someTask, .wakeOne, .lock, .wait] = some s ∧
    Stranded s :=
  -- A task that is added before the thread comes to its first `wait` is not carried out.
  ⟨⟨[someTask], .waiting, 0, false⟩, rfl, by decide⟩

end NullFxp.Sync.Thread
