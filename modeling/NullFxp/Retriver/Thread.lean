import NullFxp.Lib.Runs
import NullFxp.Retriver.Loop

/-!
# Starting the retriever thread

The UI thread pushes a command, and starts the thread if it does not run. The thread leaves its
loop when it sees an empty queue, and counts as running until it has returned. Every queue
operation and every test is one step, and the steps of the two threads interleave in any way.
-/

open Runs NullFxp.RemoteDirModel

namespace NullFxp.Retriver.Thread

inductive Worker where
  | notRunning
  /-- about to test `command_queue.size() > 0` -/
  | atTest
  /-- The queue was not empty, and the front comes next. -/
  | atFront
  | taken (c : CommandElem)
  | executed
  /-- out of the loop, and not yet back from `run` -/
  | left
  deriving DecidableEq

/-- Where `add_node` or `slot_execute_command` is, if the UI thread is in one of them. -/
inductive UI where
  | idle
  | pushed
  /-- `isRunning()` was false, and `start` comes next. -/
  | atStart
  deriving DecidableEq

structure State where
  queue : List CommandElem
  worker : Worker
  ui : UI
  deriving DecidableEq

def start : State := ⟨[], .notRunning, .idle⟩

inductive Action where
  | push (c : CommandElem) | testRunning | startThread
  | testSize | takeFront | execute | erase | finish
  deriving DecidableEq

def step (s : State) : Action → Option State
  | .push c => if s.ui = .idle then some { s with queue := s.queue ++ [c], ui := .pushed } else none
  | .testRunning =>
    if s.ui = .pushed then
      some { s with ui := if s.worker = .notRunning then .atStart else .idle }
    else none
  | .startThread =>
    if s.ui = .atStart then
      -- `QThread::start` does nothing for a thread that runs
      some { s with ui := .idle, worker := if s.worker = .notRunning then .atTest else s.worker }
    else none
  | .testSize =>
    if s.worker = .atTest then
      some { s with worker := if s.queue = [] then .left else .atFront }
    else none
  | .takeFront =>
    if s.worker = .atFront then s.queue.head?.map fun c => { s with worker := .taken c } else none
  | .execute =>
    match s.worker with
    -- the worker's own `add_node` sees a thread that runs
    | .taken c => some { s with worker := .executed, queue := s.queue ++ followUp c }
    | _ => none
  | .erase =>
    if s.worker = .executed then some { s with worker := .atTest, queue := s.queue.tail } else none
  | .finish => if s.worker = .left then some { s with worker := .notRunning } else none

theorem round_iterate (proto : Protocol) {srv : Replies} (hret : srv.Returns) {l : Loop} {s : State}
    {c : CommandElem} {queue : List CommandElem} (hq : l.commandQueue = c :: queue) (hmap : l.dirNodeProcessQueue = [])
    (hlive : l.nodes c.parentItem ≠ none) (hc : ChildrenLive l.nodes)
    (hs : s.queue = l.commandQueue) (hw : s.worker = .atFront) :
    ∃ l' s', iterate proto srv l = some l' ∧
      Runs.run step s [.takeFront, .execute, .erase] = some s' ∧
      s'.queue = l'.commandQueue ∧ s'.worker = .atTest ∧ s'.ui = s.ui := by
  obtain ⟨l', hl', hround⟩ := iterate_spec proto hret hq hmap hlive hc
  refine ⟨l', { s with queue := queue ++ followUp c, worker := .atTest }, hl', ?_, ?_, rfl, rfl⟩
  · simp [Runs.run, step, hs, hw, hq]
  · rw [hround.queue]

def Stranded (s : State) : Prop := s.queue ≠ [] ∧ s.worker = .notRunning ∧ s.ui = .idle

instance (s : State) : Decidable (Stranded s) := inferInstanceAs (Decidable (_ ∧ _ ∧ _))

/-- The UI thread does not see a running thread that has left its loop without the command. -/
def TestsInTime (s : State) (a : Action) : Prop :=
  a = .testRunning → ¬(s.worker = .left ∧ s.queue ≠ [])

/-- Without a call of the UI thread under way, a worker that is done has left nothing behind. -/
structure NothingLeft (s : State) : Prop where
  done : s.ui = .idle → s.worker = .left ∨ s.worker = .notRunning → s.queue = []
  starting : s.ui = .atStart → s.worker = .notRunning

theorem nothingLeft_start : NothingLeft start := ⟨fun _ _ => rfl, nofun⟩

theorem NothingLeft.not_stranded {s : State} (h : NothingLeft s) : ¬ Stranded s := by
  rintro ⟨hq, hw, hu⟩
  exact hq (h.done hu (Or.inr hw))

theorem NothingLeft.not_starting {s : State} (h : NothingLeft s) {w : Worker} (hw : s.worker = w)
    (hne : w ≠ .notRunning) : s.ui ≠ .atStart :=
  fun hu => hne (hw.symm.trans (h.starting hu))

theorem NothingLeft.inLoop {s s' : State} (h : NothingLeft s) {w : Worker} (hw : s.worker = w)
    (hne : w ≠ .notRunning) (hui : s'.ui = s.ui) (hw' : s'.worker ≠ .left)
    (hw'' : s'.worker ≠ .notRunning) : NothingLeft s' := by
  refine ⟨fun _ hdone => ?_, fun hu => ?_⟩
  · rcases hdone with hdone | hdone
    · exact absurd hdone hw'
    · exact absurd hdone hw''
  · exact absurd (hui.symm.trans hu) (h.not_starting hw hne)

theorem step_nothingLeft (s : State) (a : Action) (s' : State) (hs : NothingLeft s)
    (hc : TestsInTime s a) (h : step s a = some s') : NothingLeft s' := by
  cases a with
  | push c =>
    simp only [step, Option.ite_none_right_eq_some, Option.some.injEq] at h
    obtain ⟨-, rfl⟩ := h
    exact ⟨nofun, nofun⟩
  | testRunning =>
    simp only [step, Option.ite_none_right_eq_some, Option.some.injEq] at h
    obtain ⟨-, rfl⟩ := h
    by_cases hw : s.worker = .notRunning
    · rw [if_pos hw]
      exact ⟨nofun, fun _ => hw⟩
    · rw [if_neg hw]
      refine ⟨fun _ hdone => ?_, nofun⟩
      by_contra hq
      exact hc rfl ⟨hdone.resolve_right hw, hq⟩
  | startThread =>
    simp only [step, Option.ite_none_right_eq_some, Option.some.injEq] at h
    obtain ⟨hu, rfl⟩ := h
    rw [if_pos (hs.starting hu)]
    exact ⟨by simp, nofun⟩
  | testSize =>
    simp only [step, Option.ite_none_right_eq_some, Option.some.injEq] at h
    obtain ⟨hw, rfl⟩ := h
    by_cases hq : s.queue = []
    · rw [if_pos hq]
      exact ⟨fun _ _ => hq, fun hu => absurd hu (hs.not_starting hw nofun)⟩
    · rw [if_neg hq]
      exact hs.inLoop hw nofun rfl nofun nofun
  | takeFront =>
    simp only [step, Option.ite_none_right_eq_some, Option.map_eq_some_iff] at h
    obtain ⟨hw, c, -, rfl⟩ := h
    exact hs.inLoop hw nofun rfl nofun nofun
  | execute =>
    rw [step] at h
    split at h
    · rename_i c hw
      obtain rfl := Option.some.inj h
      exact hs.inLoop hw nofun rfl nofun nofun
    · simp at h
  | erase =>
    simp only [step, Option.ite_none_right_eq_some, Option.some.injEq] at h
    obtain ⟨hw, rfl⟩ := h
    exact hs.inLoop hw nofun rfl nofun nofun
  | finish =>
    simp only [step, Option.ite_none_right_eq_some, Option.some.injEq] at h
    obtain ⟨hw, rfl⟩ := h
    exact ⟨fun hu _ => hs.done hu (Or.inl hw), fun _ => rfl⟩

theorem late_test_strands {s : State} (hui : s.ui = .pushed) (hlate : ¬ TestsInTime s .testRunning) :
    ∃ t, Runs.run step s [.testRunning, .finish] = some t ∧ Stranded t := by
  obtain ⟨queue, worker, ui⟩ := s
  simp only [TestsInTime, true_implies, not_not] at hlate
  obtain ⟨rfl, hq⟩ := hlate
  obtain rfl := hui
  exact ⟨⟨queue, .notRunning, .idle⟩, rfl, hq, rfl, rfl⟩

/-- **No command is stranded in the runs that test in time**, and whenever a test comes too late,
a command can be stranded. -/
theorem no_command_stranded (as : List Action) (s : State) (hr : Runs.run step start as = some s) :
    (Meets step TestsInTime start as → ¬ Stranded s) ∧
    (s.ui = .pushed → ¬ TestsInTime s .testRunning →
      ∃ t, Runs.run step start (as ++ [.testRunning, .finish]) = some t ∧ Stranded t) := by
  constructor
  · intro hm
    exact (run_invariant_of_meets NothingLeft step_nothingLeft nothingLeft_start hm hr).not_stranded
  · intro hui hlate
    obtain ⟨t, ht, hst⟩ := late_test_strands hui hlate
    exact ⟨t, run_append.mpr ⟨s, hr, ht⟩, hst⟩

def readdir : CommandElem := ⟨0, 0, ssh2FxpReaddir, []⟩

def twoCommands : List Action :=
  [.push readdir, .testRunning, .startThread, .testSize, .takeFront, .push readdir, .testRunning,
    .execute, .erase, .testSize]

theorem no_command_stranded_second :
    ∃ s, Runs.run step start twoCommands = some s ∧ s.queue = [readdir] ∧ ¬ Stranded s := by
  refine ⟨⟨[readdir], .atFront, .idle⟩, rfl, rfl, ?_⟩
  refine (no_command_stranded twoCommands ⟨[readdir], .atFront, .idle⟩ rfl).1 ?_
  simp [twoCommands, Meets, step, TestsInTime, start, readdir, followUp, ssh2FxpReaddir, ssh2FxpMkdir,
    ssh2FxpRmdir, ssh2FxpRemove, ssh2FxpRename]

theorem command_stranded :
    ∃ s, Runs.run step start [.push readdir, .testRunning, .startThread, .testSize, .takeFront, .execute,
        .erase, .testSize, .push readdir, .testRunning, .finish] = some s ∧ Stranded s :=
  -- The thread has seen an empty queue, the UI thread pushes a command and sees a thread that still
  -- runs, and the thread returns.
  ⟨⟨[readdir], .notRunning, .idle⟩, rfl, by decide⟩

end NullFxp.Retriver.Thread
