import NullFxp.Lib.Runs
import NullFxp.Lib.Text
import NullFxp.QString

/-!
# The plink supervisor

Every forward has a plink process, a process that checks the remote port, and a timer. Slots run
one after another, in the order of the events.
-/

open Text

namespace NullFxp.Forward.Daemon

/-! ## Processes -/

inductive ProcessState where
  | notRunning | starting | running
  deriving DecidableEq

/-- A `QProcess`. `pid` is 0 when it does not run, and `starts` counts the starts. -/
structure Proc where
  state : ProcessState := .notRunning
  pid : Nat := 0
  args : List QString := []
  starts : Nat := 0
  deriving DecidableEq

/-- A process that runs is not started again. The system gives the number. -/
def Proc.start (p : Proc) (args : List QString) (pid : Nat) : Proc :=
  if p.state = .notRunning then
    { state := .starting, pid := pid + 1, args := args, starts := p.starts + 1 }
  else p

def Proc.ended (p : Proc) : Proc := { p with state := .notRunning, pid := 0 }

/-! ## Entries -/

/-- A `ForwardList`. -/
structure Entry where
  host : QString
  userName : QString
  passwd : QString
  remoteListenPort : QString
  forwardLocalPort : QString
  psExist : Nat := 0
  /-- `alive_check_timer` -/
  active : Bool := false
  interval : Nat := 0
  plinkProc : Proc := {}
  plinkId : Nat := 0
  psProc : Proc := {}
  psId : Nat := 0
  userCanceled : Bool := false
  deriving DecidableEq

/-- The text of the entry in the combo box. -/
def Entry.digest (e : Entry) : QString :=
  e.host ++ e.userName ++ e.passwd ++ e.remoteListenPort ++ e.forwardLocalPort

def plinkArgs (e : Entry) : List QString :=
  ["-ssh".toList, "-N".toList, "-v".toList, "-l".toList, e.userName, "-pw".toList, e.passwd,
    "-R".toList, e.remoteListenPort ++ ":0.0.0.0:".toList ++ e.forwardLocalPort, e.host]

def psArgs (e : Entry) : List QString :=
  ["-v".toList, "-l".toList, e.userName, "-pw".toList, e.passwd, e.host,
    "netstat -ant|grep \"127.0.0.1:\"".toList ++ e.remoteListenPort]

def slotStartForward (pid : Nat) (e : Entry) : Entry :=
  { e with
    plinkId := 0
    plinkProc := e.plinkProc.start (plinkArgs e) pid
    interval := 20000
    active := true }

inductive Which where
  | plink | ps
  deriving DecidableEq

/-- A line of the output that ends in the word `LISTEN`. -/
def listens (output : QString) : Bool :=
  (output.splitOn '\n').any fun line => (fields line).getLast? = some "LISTEN".toList

def slotProcStarted (e : Entry) : Which → Entry
  | .plink => { e with plinkId := e.plinkProc.pid }
  | .ps => { e with plinkId := e.plinkProc.pid, psExist := 1 }

/-- `kill()` leaves the state of the process to the event that follows. -/
def slotProcFinished (e : Entry) : Which → Entry
  | .ps =>
    if e.psExist = 1 then { e with active := false, plinkId := 0 }
    else { e with plinkId := e.plinkProc.pid }
  | .plink =>
    if !e.userCanceled then { e with plinkId := 0, interval := 2000, active := true }
    else { e with plinkId := 0 }

def slotReadyReadStandardOutput (e : Entry) (output : List UInt8) : Which → Entry
  | .plink => e
  | .ps => if listens (fromLatin1 output) then { e with psExist := 2 } else e

def slotTimeOut (pid : Nat) (e : Entry) : Entry :=
  if e.plinkId = 0 && !e.userCanceled then slotStartForward pid e
  else { e with psProc := e.psProc.start (psArgs e) pid }

/-- What happens to one entry. A failed start is an error that no slot handles. -/
inductive Happening where
  | started (which : Which)
  | finished (which : Which)
  | failedToStart (which : Which)
  | output (which : Which) (bytes : List UInt8)
  | timeout (pid : Nat)

def Entry.proc (e : Entry) : Which → Proc
  | .plink => e.plinkProc
  | .ps => e.psProc

def Entry.setProc (e : Entry) (p : Proc) : Which → Entry
  | .plink => { e with plinkProc := p }
  | .ps => { e with psProc := p }

/-- `none` when it cannot happen. -/
def Entry.happen (e : Entry) : Happening → Option Entry
  | .started which =>
    if (e.proc which).state = .starting then
      some (slotProcStarted (e.setProc { e.proc which with state := .running } which) which)
    else none
  | .finished which =>
    if (e.proc which).state = .running then
      some (slotProcFinished (e.setProc (e.proc which).ended which) which)
    else none
  | .failedToStart which =>
    if (e.proc which).state = .starting then some (e.setProc (e.proc which).ended which) else none
  | .output which bytes =>
    if (e.proc which).state = .running then some (slotReadyReadStandardOutput e bytes which) else none
  | .timeout pid => if e.active then some (slotTimeOut pid e) else none

/-! ## The daemon -/

structure State where
  forwardList : List Entry := []
  /-- the texts of the combo box, and the current one -/
  items : List QString := []
  current : Option Nat := none

/-- `comboBox->currentText()` -/
def State.currentText (s : State) : QString := ((s.current.bind fun i => s.items[i]?)).getD []

/-- The first item that is added becomes the current one. -/
def slotNewForward (fl : Entry) (pid : Nat) (s : State) : State :=
  { forwardList := s.forwardList ++ [slotStartForward pid fl]
    items := s.items ++ [fl.digest]
    current := if s.items = [] then some 0 else s.current }

def stopped (e : Entry) : Entry :=
  { e with userCanceled := true, active := false, plinkId := 0, psId := 0 }

/-- `comboBox->removeItem(currentIndex())`: the item before it becomes the current one. -/
def removeCurrent (s : State) : State :=
  match s.current with
  | none => s
  | some i => { s with items := s.items.eraseIdx i, current := if i = 0 then none else some (i - 1) }

/-- `get_forward_list_by_serv_info`; `none` is a failed assert. -/
def getForwardListByServInfo (s : State) : Option Nat :=
  s.forwardList.findIdx? fun e => e.digest = s.currentText

def slotStopPortForward (s : State) : Option State :=
  (getForwardListByServInfo s).map fun i =>
    removeCurrent { s with forwardList := s.forwardList.modify i stopped }

inductive Event where
  | newForward (host userName passwd remoteListenPort forwardLocalPort : QString) (pid : Nat)
  | select (i : Nat)
  | stop
  | entry (i : Nat) (h : Happening)

def step (s : State) : Event → Option State
  | .newForward host userName passwd remoteListenPort forwardLocalPort pid =>
    some (slotNewForward { host, userName, passwd, remoteListenPort, forwardLocalPort } pid s)
  | .select i => if i < s.items.length then some { s with current := some i } else none
  | .stop => slotStopPortForward s
  | .entry i h =>
    (s.forwardList[i]?).bind fun e =>
      (e.happen h).map fun e' => { s with forwardList := s.forwardList.set i e' }

/-! ## What an event can do -/

theorem step_cases {s s' : State} {ev : Event} (h : step s ev = some s') :
    (∃ fl pid, fl.userCanceled = false ∧ (∀ i h, ev ≠ .entry i h) ∧
        s'.forwardList = s.forwardList ++ [slotStartForward pid fl]) ∨
      (∃ i, ev = .select i ∧ s'.forwardList = s.forwardList) ∨
      (∃ i, ev = .stop ∧ s'.forwardList = s.forwardList.modify i stopped) ∨
      (∃ i hap e e', ev = .entry i hap ∧ s.forwardList[i]? = some e ∧ e.happen hap = some e' ∧
        s'.forwardList = s.forwardList.set i e') := by
  cases ev with
  | newForward host userName passwd remoteListenPort forwardLocalPort pid =>
    obtain rfl := Option.some.inj h
    exact .inl ⟨{ host, userName, passwd, remoteListenPort, forwardLocalPort }, pid, rfl, by simp, rfl⟩
  | select i =>
    obtain ⟨-, rfl⟩ := Option.ite_some_none_eq_some.mp h
    exact .inr (.inl ⟨i, rfl, rfl⟩)
  | stop =>
    obtain ⟨i, -, rfl⟩ := Option.map_eq_some_iff.mp h
    refine .inr (.inr (.inl ⟨i, rfl, ?_⟩))
    unfold removeCurrent
    split <;> rfl
  | entry i hap =>
    obtain ⟨e, he, h⟩ := Option.bind_eq_some_iff.mp h
    obtain ⟨e', he', rfl⟩ := Option.map_eq_some_iff.mp h
    exact .inr (.inr (.inr ⟨i, hap, e, e', rfl, he, he', rfl⟩))

/-! ## Forwards that live -/

/-- Something will start the forward again, or it runs, or the user has stopped it. -/
def Live (e : Entry) : Prop :=
  e.userCanceled = true ∨ e.active = true ∨ e.plinkProc.state ≠ .notRunning

/-- A check without a result does not end while plink is not running, and plink does not fail to
start while the timer is stopped. -/
def Keeps (e : Entry) : Happening → Prop
  | .finished .ps =>
    e.psExist = 1 → e.userCanceled = true ∨ e.plinkProc.state ≠ .notRunning
  | .failedToStart .plink => e.userCanceled = true ∨ e.active = true
  | _ => True

instance (e : Entry) : Decidable (Live e) := inferInstanceAs (Decidable (_ ∨ _))

instance (e : Entry) : ∀ h, Decidable (Keeps e h)
  | .finished .ps => inferInstanceAs (Decidable (_ → _))
  | .failedToStart .plink => inferInstanceAs (Decidable (_ ∨ _))
  | .started _ | .finished .plink | .failedToStart .ps | .output _ _ | .timeout _ =>
    .isTrue trivial

theorem live_slotStartForward (pid : Nat) (e : Entry) : Live (slotStartForward pid e) :=
  .inr (.inl rfl)

theorem happen_live_iff {e e' : Entry} {h : Happening} (hlive : Live e)
    (hstep : e.happen h = some e') : Live e' ↔ Keeps e h := by
  cases h with
  | started which =>
    obtain ⟨-, rfl⟩ := Option.ite_some_none_eq_some.mp hstep
    refine iff_of_true ?_ trivial
    cases which with
    | plink => exact .inr (.inr (by simp [slotProcStarted, Entry.setProc]))
    | ps => exact hlive
  | finished which =>
    obtain ⟨-, rfl⟩ := Option.ite_some_none_eq_some.mp hstep
    cases which with
    | plink =>
      refine iff_of_true ?_ trivial
      simp only [slotProcFinished]
      split
      · exact .inr (.inl rfl)
      · next h => exact .inl (by simpa using h)
    | ps =>
      simp only [slotProcFinished, Entry.setProc, Keeps]
      by_cases hexist : e.psExist = 1
      · simp [hexist, Live]
      · simpa [hexist, Live] using hlive
  | failedToStart which =>
    obtain ⟨-, rfl⟩ := Option.ite_some_none_eq_some.mp hstep
    cases which with
    | plink => simp [Live, Keeps, Entry.setProc, Proc.ended]
    | ps => exact iff_of_true hlive trivial
  | output which bytes =>
    obtain ⟨-, rfl⟩ := Option.ite_some_none_eq_some.mp hstep
    refine iff_of_true ?_ trivial
    cases which with
    | plink => exact hlive
    | ps =>
      simp only [slotReadyReadStandardOutput]
      split <;> exact hlive
  | timeout pid =>
    obtain ⟨hactive, rfl⟩ := Option.ite_some_none_eq_some.mp hstep
    refine iff_of_true ?_ trivial
    unfold slotTimeOut
    split
    · exact live_slotStartForward pid e
    · exact .inr (.inl hactive)

/-- No forward is given up. -/
def Supervised (s : State) : Prop := ∀ e ∈ s.forwardList, Live e

def KeepsAll (s : State) : Event → Prop
  | .entry i h => ∀ e, s.forwardList[i]? = some e → Keeps e h
  | _ => True

instance (s : State) : Decidable (Supervised s) := inferInstanceAs (Decidable (∀ e ∈ _, _))

instance (s : State) : ∀ ev, Decidable (KeepsAll s ev)
  | .entry i h =>
    match he : s.forwardList[i]? with
    | none => .isTrue (by simp [KeepsAll, he])
    | some e => decidable_of_iff (Keeps e h) (by simp [KeepsAll, he])
  | .newForward .. | .select _ | .stop => .isTrue trivial

theorem mem_modify {es : List Entry} {i : Nat} {f : Entry → Entry} {e : Entry}
    (h : e ∈ es.modify i f) : ∃ d ∈ es, e = d ∨ e = f d := by
  obtain ⟨j, hj⟩ := List.mem_iff_getElem?.mp h
  rw [List.getElem?_modify] at hj
  obtain ⟨d, hd, rfl⟩ := Option.map_eq_some_iff.mp hj
  refine ⟨d, List.mem_of_getElem? hd, ?_⟩
  split
  · exact .inr rfl
  · exact .inl rfl

theorem supervised_step_iff {s s' : State} {ev : Event} (hs : Supervised s)
    (h : step s ev = some s') : Supervised s' ↔ KeepsAll s ev := by
  unfold Supervised
  obtain ⟨fl, pid, -, hev, hlist⟩ | ⟨i, rfl, hlist⟩ | ⟨i, rfl, hlist⟩ |
    ⟨i, hap, e, e', rfl, he, he', hlist⟩ := step_cases h
  · refine iff_of_true ?_ ?_
    · rw [hlist]
      intro e he
      rcases List.mem_append.mp he with he | he
      · exact hs e he
      · rw [List.mem_singleton.mp he]
        exact live_slotStartForward pid fl
    · cases ev with
      | entry i hap => exact absurd rfl (hev i hap)
      | _ => trivial
  · rw [hlist]
    exact iff_of_true hs trivial
  · refine iff_of_true ?_ trivial
    rw [hlist]
    intro e he
    obtain ⟨d, hd, rfl | rfl⟩ := mem_modify he
    · exact hs _ hd
    · exact .inl rfl
  · rw [hlist]
    have hi : i < s.forwardList.length := (List.getElem?_eq_some_iff.mp he).1
    have hkeeps := happen_live_iff (hs e (List.mem_of_getElem? he)) he'
    constructor
    · intro hall d hd
      rw [he] at hd
      obtain rfl := Option.some.inj hd
      exact hkeeps.mp (hall e' (List.mem_set hi e'))
    · intro hk d hd
      rcases List.mem_or_eq_of_mem_set hd with hd | rfl
      · exact hs d hd
      · exact hkeeps.mpr (hk e he)

/-- **No forward is given up** in just those runs in which a check that found no port ends only
while plink is starting or running, and plink does not fail to start while the timer is stopped. -/
theorem supervised_iff (es : List Event) (s : State) (h : Runs.run step {} es = some s) :
    (∀ es' s', es' <+: es → Runs.run step {} es' = some s' → Supervised s') ↔
      Runs.Meets step KeepsAll {} es := by
  have hinv : ∀ s ev s', True → step s ev = some s' → True := fun _ _ _ _ _ => trivial
  have hgood : ∀ s ev s', True → Supervised s → step s ev = some s' →
      (Supervised s' ↔ KeepsAll s ev) := fun _ _ _ _ hs h => supervised_step_iff hs h
  have hstart : Supervised {} := by
    intro e he
    cases he
  exact (Runs.meets_iff hinv hgood trivial hstart h).symm

/-- A forward whose plink process runs, and whose port is being checked. -/
def checking : List Event :=
  [.newForward "h".toList "u".toList "p".toList "8000".toList "22".toList 1,
    .entry 0 (.started .plink), .entry 0 (.timeout 2), .entry 0 (.started .ps)]

/-- The check finds no port, and plink is killed and started again. -/
def restarted : List Event :=
  checking ++ [.entry 0 (.finished .ps), .entry 0 (.finished .plink), .entry 0 (.timeout 3)]

theorem supervised_restarted :
    ∃ s, Runs.run step {} restarted = some s ∧ (s.forwardList.map fun e => e.plinkProc.starts) = [2] ∧
      Supervised s := by
  refine ⟨_, rfl, rfl, ?_⟩
  exact (supervised_iff restarted _ rfl).mpr (by decide) _ _ List.prefix_rfl rfl

theorem given_up :
    ∃ s e, Runs.run step {} (checking ++ [.entry 0 (.finished .plink), .entry 0 (.finished .ps)]) =
        some s ∧ s.forwardList = [e] ∧ e.userCanceled = false ∧ e.active = false ∧
          e.plinkProc.state = .notRunning ∧ e.psProc.state = .notRunning ∧ ¬ Supervised s := by
  -- plink ends during the check, and then the check ends: nothing starts plink again.
  exact ⟨_, _, rfl, rfl, rfl, rfl, rfl, rfl, by decide⟩

/-! ## Forwards that are stopped -/

/-- Stopped by the user, after `n` starts of plink and `m` checks. -/
structure Halted (n m : Nat) (e : Entry) : Prop where
  userCanceled : e.userCanceled = true
  inactive : e.active = false
  plinkStarts : e.plinkProc.starts = n
  psStarts : e.psProc.starts = m

theorem Halted.setProc {n m : Nat} {e : Entry} (h : Halted n m e) {p : Proc} {which : Which}
    (hp : p.starts = (e.proc which).starts) : Halted n m (e.setProc p which) := by
  cases which with
  | plink => exact ⟨h.userCanceled, h.inactive, hp.trans h.plinkStarts, h.psStarts⟩
  | ps => exact ⟨h.userCanceled, h.inactive, h.plinkStarts, hp.trans h.psStarts⟩

theorem Halted.slotProcStarted {n m : Nat} {e : Entry} (h : Halted n m e) (which : Which) :
    Halted n m (slotProcStarted e which) := by
  cases which <;> exact ⟨h.userCanceled, h.inactive, h.plinkStarts, h.psStarts⟩

theorem Halted.slotProcFinished {n m : Nat} {e : Entry} (h : Halted n m e) (which : Which) :
    Halted n m (slotProcFinished e which) := by
  cases which with
  | plink =>
    simp only [Daemon.slotProcFinished]
    rw [if_neg (by simp [h.userCanceled])]
    exact ⟨h.userCanceled, h.inactive, h.plinkStarts, h.psStarts⟩
  | ps =>
    simp only [Daemon.slotProcFinished]
    split
    · exact ⟨h.userCanceled, rfl, h.plinkStarts, h.psStarts⟩
    · exact ⟨h.userCanceled, h.inactive, h.plinkStarts, h.psStarts⟩

theorem Halted.slotReadyReadStandardOutput {n m : Nat} {e : Entry} (h : Halted n m e)
    (bytes : List UInt8) (which : Which) : Halted n m (slotReadyReadStandardOutput e bytes which) := by
  cases which with
  | plink => exact h
  | ps =>
    simp only [Daemon.slotReadyReadStandardOutput]
    split
    · exact ⟨h.userCanceled, h.inactive, h.plinkStarts, h.psStarts⟩
    · exact h

theorem Halted.happen {n m : Nat} {e e' : Entry} {hap : Happening} (h : Halted n m e)
    (hstep : e.happen hap = some e') : Halted n m e' := by
  cases hap with
  | started which =>
    obtain ⟨-, rfl⟩ := Option.ite_some_none_eq_some.mp hstep
    apply Halted.slotProcStarted
    exact h.setProc rfl
  | finished which =>
    obtain ⟨-, rfl⟩ := Option.ite_some_none_eq_some.mp hstep
    apply Halted.slotProcFinished
    exact h.setProc rfl
  | failedToStart which =>
    obtain ⟨-, rfl⟩ := Option.ite_some_none_eq_some.mp hstep
    exact h.setProc rfl
  | output which bytes =>
    obtain ⟨-, rfl⟩ := Option.ite_some_none_eq_some.mp hstep
    exact h.slotReadyReadStandardOutput bytes which
  | timeout pid =>
    obtain ⟨hactive, -⟩ := Option.ite_some_none_eq_some.mp hstep
    rw [h.inactive] at hactive
    cases hactive

theorem happen_userCanceled {e e' : Entry} {hap : Happening} (hstep : e.happen hap = some e') :
    e'.userCanceled = e.userCanceled := by
  cases hap with
  | started which | finished which | failedToStart which =>
    obtain ⟨-, rfl⟩ := Option.ite_some_none_eq_some.mp hstep
    cases which <;> grind [slotProcStarted, slotProcFinished, Entry.setProc]
  | output which bytes =>
    obtain ⟨-, rfl⟩ := Option.ite_some_none_eq_some.mp hstep
    cases which <;> grind [slotReadyReadStandardOutput]
  | timeout pid =>
    obtain ⟨-, rfl⟩ := Option.ite_some_none_eq_some.mp hstep
    grind [slotTimeOut, slotStartForward]

/-- Whatever the user has stopped has no timer that runs. -/
def TimersStopped (s : State) : Prop :=
  ∀ e ∈ s.forwardList, e.userCanceled = true → e.active = false

theorem TimersStopped.step {s s' : State} {ev : Event} (hs : TimersStopped s)
    (h : step s ev = some s') : TimersStopped s' := by
  unfold TimersStopped
  obtain ⟨fl, pid, hfl, -, hlist⟩ | ⟨i, -, hlist⟩ | ⟨i, -, hlist⟩ | ⟨i, hap, e, e', -, he, he', hlist⟩ :=
    step_cases h
  · rw [hlist]
    intro d hd hcanceled
    rcases List.mem_append.mp hd with hd | hd
    · exact hs d hd hcanceled
    · rw [List.mem_singleton.mp hd] at hcanceled
      exact absurd (hfl.symm.trans hcanceled) (by simp)
  · rw [hlist]
    exact hs
  · rw [hlist]
    intro d hd hcanceled
    obtain ⟨d, hd, rfl | rfl⟩ := mem_modify hd
    · exact hs _ hd hcanceled
    · rfl
  · rw [hlist]
    intro d hd hcanceled
    rcases List.mem_or_eq_of_mem_set hd with hd | rfl
    · exact hs d hd hcanceled
    · rw [happen_userCanceled he'] at hcanceled
      have hbefore : Halted e.plinkProc.starts e.psProc.starts e :=
        ⟨hcanceled, hs e (List.mem_of_getElem? he) hcanceled, rfl, rfl⟩
      exact (hbefore.happen he').inactive

theorem halted_step {s s' : State} {ev : Event} {i n m : Nat}
    (hs : ∃ e, s.forwardList[i]? = some e ∧ Halted n m e) (h : step s ev = some s') :
    ∃ e, s'.forwardList[i]? = some e ∧ Halted n m e := by
  obtain ⟨e, he, hhalted⟩ := hs
  obtain ⟨fl, pid, -, -, hlist⟩ | ⟨j, -, hlist⟩ | ⟨j, -, hlist⟩ | ⟨j, hap, d, d', -, hd, hd', hlist⟩ :=
    step_cases h
  · refine ⟨e, ?_, hhalted⟩
    rw [hlist, List.getElem?_append_left (List.getElem?_eq_some_iff.mp he).1]
    exact he
  · exact ⟨e, hlist ▸ he, hhalted⟩
  · rw [hlist, List.getElem?_modify, he]
    by_cases hij : j = i
    · exact ⟨stopped e, by simp [hij], rfl, rfl, hhalted.plinkStarts, hhalted.psStarts⟩
    · exact ⟨e, by simp [hij], hhalted⟩
  · rw [hlist]
    by_cases hij : j = i
    · subst hij
      rw [he] at hd
      obtain rfl := Option.some.inj hd
      refine ⟨d', ?_, hhalted.happen hd'⟩
      exact List.getElem?_set_self (List.getElem?_eq_some_iff.mp he).1
    · exact ⟨e, by rw [List.getElem?_set_ne hij, he], hhalted⟩

/-- **A stopped forward stays stopped**: its timer does not run, and neither of its processes is
started again. -/
theorem stopped_stays (es es' : List Event) (s s' : State) (i : Nat) (e : Entry)
    (h : Runs.run step {} es = some s) (he : s.forwardList[i]? = some e)
    (hcanceled : e.userCanceled = true) (h' : Runs.run step s es' = some s') :
    ∃ e', s'.forwardList[i]? = some e' ∧ e'.userCanceled = true ∧ e'.active = false ∧
      e'.plinkProc.starts = e.plinkProc.starts ∧ e'.psProc.starts = e.psProc.starts := by
  have hstart : TimersStopped {} := by
    intro e he
    cases he
  have htimers : TimersStopped s :=
    Runs.run_invariant TimersStopped (fun _ _ _ hs h => hs.step h) hstart h
  have hhalted : Halted e.plinkProc.starts e.psProc.starts e :=
    ⟨hcanceled, htimers e (List.mem_of_getElem? he) hcanceled, rfl, rfl⟩
  obtain ⟨e', he', hlater⟩ := Runs.run_invariant
    (fun s => ∃ e', s.forwardList[i]? = some e' ∧ Halted e.plinkProc.starts e.psProc.starts e')
    (fun _ _ _ hs h => halted_step hs h) ⟨e, he, hhalted⟩ h'
  exact ⟨e', he', hlater.userCanceled, hlater.inactive, hlater.plinkStarts, hlater.psStarts⟩

theorem stopped_stays_checking :
    ∃ s e s' e', Runs.run step {} (checking ++ [.stop]) = some s ∧ s.forwardList[0]? = some e ∧
      e.userCanceled = true ∧ e.plinkProc.state = .running ∧
      Runs.run step s [.entry 0 (.finished .ps), .entry 0 (.finished .plink)] = some s' ∧
      s'.forwardList[0]? = some e' ∧ e'.active = false ∧ e'.plinkProc.starts = 1 := by
  refine ⟨_, _, _, _, rfl, rfl, rfl, rfl, rfl, rfl, ?_⟩
  obtain ⟨e', he', -, hactive, hstarts, -⟩ := stopped_stays (checking ++ [.stop])
    [.entry 0 (.finished .ps), .entry 0 (.finished .plink)] _ _ 0 _ rfl rfl rfl rfl
  obtain rfl := Option.some.inj he'
  exact ⟨hactive, hstarts⟩

end NullFxp.Forward.Daemon
