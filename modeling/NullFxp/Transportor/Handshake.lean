import NullFxp.Lib.Runs

/-!
# The question about an existing file

The worker asks, and sleeps in `wait_user_response` until the UI thread has called
`user_response_result`. The mutex is a flag that any thread's unlock clears, and a wake-up
that finds nobody waiting is lost.
-/

open Runs

namespace NullFxp.Transportor.Handshake

inductive Worker where
  /-- between two questions -/
  | goOn
  /-- The question is emitted, and `lock` comes next. -/
  | atLock
  /-- The mutex was taken, and `wait` comes next. -/
  | atWait
  | waiting
  /-- woken, and `wait` takes the mutex again -/
  | woken
  deriving DecidableEq

inductive UI where
  | idle
  | received
  | answerSet
  | woke
  deriving DecidableEq

structure State where
  worker : Worker
  ui : UI
  /-- `wait_user_response_mutex` -/
  locked : Bool
  /-- questions that have not reached the UI thread yet -/
  posted : Nat
  /-- questions that the worker has asked, and answers that were given -/
  asked : Nat
  answered : Nat
  deriving DecidableEq

def start : State := ⟨.goOn, .idle, false, 0, 0, 0⟩

inductive Action where
  | emit | lock | wait | relock
  | receive | setAnswer | wakeAll | unlock
  deriving DecidableEq

/-- The thread that takes the action is there, and is not blocked. -/
def Enabled (s : State) : Action → Prop
  | .emit => s.worker = .goOn
  | .lock => s.worker = .atLock ∧ s.locked = false
  | .wait => s.worker = .atWait
  | .relock => s.worker = .woken ∧ s.locked = false
  | .receive => s.ui = .idle ∧ 0 < s.posted
  | .setAnswer => s.ui = .received
  | .wakeAll => s.ui = .answerSet
  | .unlock => s.ui = .woke

instance (s : State) : DecidablePred (Enabled s)
  | .emit => inferInstanceAs (Decidable (_ = _))
  | .lock => inferInstanceAs (Decidable (_ ∧ _))
  | .wait => inferInstanceAs (Decidable (_ = _))
  | .relock => inferInstanceAs (Decidable (_ ∧ _))
  | .receive => inferInstanceAs (Decidable (_ ∧ _))
  | .setAnswer => inferInstanceAs (Decidable (_ = _))
  | .wakeAll => inferInstanceAs (Decidable (_ = _))
  | .unlock => inferInstanceAs (Decidable (_ = _))

def next (s : State) : Action → State
  | .emit => { s with worker := .atLock, posted := s.posted + 1, asked := s.asked + 1 }
  | .lock => { s with worker := .atWait, locked := true }
  | .wait => { s with worker := .waiting, locked := false }
  | .relock => { s with worker := .goOn, locked := true }
  | .receive => { s with ui := .received, posted := s.posted - 1 }
  | .setAnswer => { s with ui := .answerSet, answered := s.answered + 1 }
  | .wakeAll => { s with ui := .woke, worker := if s.worker = .waiting then .woken else s.worker }
  | .unlock => { s with ui := .idle, locked := false }

def step (s : State) (a : Action) : Option State := if Enabled s a then some (next s a) else none

theorem step_iff {s s' : State} {a : Action} :
    step s a = some s' ↔ Enabled s a ∧ next s a = s' := by
  rw [step]
  by_cases h : Enabled s a <;> simp [h]

/-! ## The deadlock -/

/-- The UI thread has answered the question that the worker asked last. -/
def Answered (s : State) : Prop := s.worker ≠ .goOn ∧ s.answered = s.asked

/-- Whatever the two threads do, the worker does not get past its question. -/
def BlockedForever (s : State) : Prop := ∀ s', Reaches step s s' → s'.worker ≠ .goOn

/-- The worker has its answer and never learns of it. -/
def Deadlocked (s : State) : Prop := Answered s ∧ BlockedForever s

/-- What the two threads know of each other: at most one question is open, and the worker goes on
only after its answer. -/
structure Inv (s : State) : Prop where
  count : s.asked = s.answered + s.posted + if s.ui = .received then 1 else 0
  once : s.asked ≤ s.answered + 1
  answerSet : s.ui = .answerSet → s.answered = s.asked ∧ s.worker ≠ .goOn ∧ s.worker ≠ .woken
  goOn : s.worker = .goOn → s.answered = s.asked
  woken : s.worker = .woken → s.answered = s.asked ∧ s.locked = false
  waiting : s.worker = .waiting → s.locked = false

theorem inv_start : Inv start := by
  refine ⟨rfl, by decide, ?_, fun _ => rfl, ?_, ?_⟩ <;> simp [start]

theorem step_inv (s : State) (a : Action) (s' : State) (hs : Inv s) (h : step s a = some s') :
    Inv s' := by
  obtain ⟨he, rfl⟩ := step_iff.mp h
  obtain ⟨hcount, honce, hset, hgo, hwoken, hwaiting⟩ := hs
  cases a with
  | emit => constructor <;> grind [Enabled, next]
  | lock => constructor <;> grind [Enabled, next]
  | wait => constructor <;> grind [Enabled, next]
  | relock => constructor <;> grind [Enabled, next]
  | receive => constructor <;> grind [Enabled, next]
  | setAnswer => constructor <;> grind [Enabled, next]
  | wakeAll => constructor <;> grind [Enabled, next]
  | unlock => constructor <;> grind [Enabled, next]

/-- The answer is given and its wake-up is gone, or will be gone before the worker waits: the mutex
that the worker stands at is unlocked only after the wake-up. -/
def Doomed (s : State) : Prop :=
  s.answered = s.asked ∧
    ((s.ui = .answerSet ∧ s.worker = .atLock ∧ s.locked = true) ∨
      ((s.ui = .woke ∨ s.ui = .idle) ∧
        (s.worker = .atLock ∨ s.worker = .atWait ∨ s.worker = .waiting)))

theorem doomed_step {s s' : State} {a : Action} (hs : Inv s) (hd : Doomed s)
    (h : step s a = some s') : Doomed s' := by
  obtain ⟨he, rfl⟩ := step_iff.mp h
  obtain ⟨hcount, -, -, -, -, -⟩ := hs
  obtain ⟨hall, hpos⟩ := hd
  cases a with
  | emit => grind [Enabled, Doomed, next]
  | lock => grind [Enabled, Doomed, next]
  | wait => grind [Enabled, Doomed, next]
  | relock => grind [Enabled, Doomed, next]
  -- No question is open, so none can be received and none answered.
  | receive => grind [Enabled, Doomed, next]
  | setAnswer => grind [Enabled, Doomed, next]
  | wakeAll => grind [Enabled, Doomed, next]
  | unlock => grind [Enabled, Doomed, next]

theorem doomed_worker {s : State} (h : Doomed s) : s.worker ≠ .goOn := by
  rcases h.2 with ⟨-, hw, -⟩ | ⟨-, hw | hw | hw⟩ <;> simp [hw]

theorem deadlocked_of_doomed {s : State} (hs : Inv s) (hd : Doomed s) : Deadlocked s := by
  refine ⟨⟨doomed_worker hd, hd.1⟩, ?_⟩
  rintro s' ⟨as, hr⟩
  have hinv : Inv s' ∧ Doomed s' := by
    refine run_invariant (fun s => Inv s ∧ Doomed s) ?_ ⟨hs, hd⟩ hr
    rintro t a t' ⟨ht, hdt⟩ hstep
    exact ⟨step_inv t a t' ht hstep, doomed_step ht hdt hstep⟩
  exact doomed_worker hinv.2

theorem goOn_of_not_doomed {s : State} (hs : Inv s) (ha : Answered s) (hd : ¬ Doomed s) :
    ∃ s', Reaches step s s' ∧ s'.worker = .goOn := by
  obtain ⟨worker, ui, locked, posted, asked, answered⟩ := s
  obtain ⟨hcount, -, hset, -, hwoken, hwaiting⟩ := hs
  obtain ⟨hgo, hall⟩ := ha
  have hall : answered = asked := hall
  subst hall
  cases ui with
  | received => simp at hcount; omega
  | answerSet =>
    cases worker with
    | goOn => exact absurd rfl hgo
    | woken => exact absurd rfl (hset rfl).2.2
    | atLock =>
      obtain rfl : locked = false := by simpa [Doomed] using hd
      exact ⟨_, ⟨[.lock, .wait, .wakeAll, .relock], rfl⟩, rfl⟩
    | atWait => exact ⟨_, ⟨[.wait, .wakeAll, .relock], rfl⟩, rfl⟩
    | waiting =>
      obtain rfl : locked = false := hwaiting rfl
      exact ⟨_, ⟨[.wakeAll, .relock], rfl⟩, rfl⟩
  | woke =>
    cases worker with
    | goOn => exact absurd rfl hgo
    | woken =>
      obtain rfl : locked = false := (hwoken rfl).2
      exact ⟨_, ⟨[.relock], rfl⟩, rfl⟩
    | _ => simp [Doomed] at hd
  | idle =>
    cases worker with
    | goOn => exact absurd rfl hgo
    | woken =>
      obtain rfl : locked = false := (hwoken rfl).2
      exact ⟨_, ⟨[.relock], rfl⟩, rfl⟩
    | _ => simp [Doomed] at hd

theorem deadlocked_iff {s : State} (hs : Inv s) : Deadlocked s ↔ Doomed s := by
  refine ⟨fun ⟨ha, hb⟩ => Classical.byContradiction fun hd => ?_, deadlocked_of_doomed hs⟩
  obtain ⟨s', hr, hgo⟩ := goOn_of_not_doomed hs ha hd
  exact hb s' hr hgo

/-! ## When it comes to a deadlock -/

/-- The answer comes when the worker is not held up at a locked mutex, and the wake-up when it
waits. -/
def Heard (s : State) : Action → Prop
  | .setAnswer => ¬(s.worker = .atLock ∧ s.locked = true)
  | .wakeAll => s.worker = .waiting
  | _ => True

theorem step_heard {s s' : State} {a : Action} (hs : Inv s) (hd : ¬ Doomed s)
    (h : step s a = some s') : ¬ Doomed s' ↔ Heard s a := by
  have hs' := step_inv s a s' hs h
  obtain ⟨he, rfl⟩ := step_iff.mp h
  obtain ⟨hcount, honce, hset, hgo, hwoken, -⟩ := hs
  cases a with
  | emit => grind [Enabled, Doomed, Heard, next]
  | lock => grind [Enabled, Doomed, Heard, next]
  | wait => grind [Enabled, Doomed, Heard, next]
  | relock => grind [Enabled, Doomed, Heard, next]
  | receive => grind [Enabled, Doomed, Heard, next]
  | setAnswer => grind [Enabled, Doomed, Heard, next]
  | wakeAll =>
    obtain ⟨hall, hw1, hw2⟩ := hset he
    cases hw : s.worker <;> grind [Doomed, Heard, next]
  | unlock => grind [Enabled, Doomed, Heard, next]

/-- **The handshake.** A run stays clear of deadlocks just if every answer is heard. -/
theorem handshake_free_iff (as : List Action) (s : State) (hr : run step start as = some s) :
    (∀ bs t, bs <+: as → run step start bs = some t → ¬ Deadlocked t) ↔
      Meets step Heard start as := by
  have hstart : ¬ Deadlocked start := fun h => h.1.1 rfl
  refine (meets_iff step_inv ?_ inv_start hstart hr).symm
  intro s a s' hs hg hstep
  rw [deadlocked_iff hs] at hg
  rw [deadlocked_iff (step_inv s a s' hs hstep)]
  exact step_heard hs hg hstep

theorem handshake_free_one_question :
    run step start [.emit, .lock, .wait, .receive, .setAnswer, .wakeAll, .relock, .unlock] =
        some ⟨.goOn, .idle, false, 0, 1, 1⟩ ∧
      ∀ bs t, bs <+: [.emit, .lock, .wait, .receive, .setAnswer, .wakeAll, .relock, .unlock] →
        run step start bs = some t → ¬ Deadlocked t := by
  have hr : run step start
      [.emit, .lock, .wait, .receive, .setAnswer, .wakeAll, .relock, .unlock] =
        some ⟨.goOn, .idle, false, 0, 1, 1⟩ := by decide
  refine ⟨hr, (handshake_free_iff _ _ hr).mpr ?_⟩
  simp [Meets, Heard, step, Enabled, next, start]

theorem second_question_deadlocks : ∃ s, run step start [.emit, .lock, .wait, .receive, .setAnswer,
    .wakeAll, .unlock, .relock, .emit, .receive, .setAnswer, .wakeAll, .unlock, .lock, .wait] =
      some s ∧ s.worker = .waiting ∧ Deadlocked s := by
  -- The first answer finds the worker waiting, but the worker takes the mutex back after the UI
  -- thread has unlocked it, and keeps it. The second question then stops at the mutex until its
  -- answer is over.
  have hr : run step start [.emit, .lock, .wait, .receive, .setAnswer, .wakeAll, .unlock, .relock,
      .emit, .receive, .setAnswer, .wakeAll, .unlock, .lock, .wait] =
      some ⟨.waiting, .idle, false, 0, 2, 2⟩ := by decide
  refine ⟨_, hr, rfl, deadlocked_of_doomed (run_invariant Inv step_inv inv_start hr) ?_⟩
  exact ⟨rfl, Or.inr ⟨Or.inr rfl, Or.inr (Or.inr rfl)⟩⟩

end NullFxp.Transportor.Handshake
