import NullFxp.Forward.Worker
import NullFxp.Lib.Assoc
import NullFxp.QString
import Mathlib.Logic.Function.Basic

/-!
# The forward manager

The manager has an entry for every forward session, and a thread works for each. The slots of the
manager run one after another; a finished thread has its slot called once for each connection of
the signal. A look-up that finds no entry ends the program.
-/

open Function

namespace NullFxp.Forward.Manager

def errorRequestDenied : Int := -32

/-- A `ForwardState`. Connector, connection and worker of one start have the same number. -/
structure ForwardState where
  connector : Option Nat := none
  conn : Option Nat := none
  worker : Option Nat := none
  /-- whether it is not `NULL` -/
  lsner : Bool := false
  wantReconn : Bool := false
  deriving DecidableEq

/-- Its connection, a listener and a worker take the place of the connector. -/
def ForwardState.connected (c : Nat) (st : ForwardState) : ForwardState :=
  { st with connector := none, conn := some c, lsner := true, worker := some c }

/-- A `ForwardPortWorker`: whether its thread runs, how often `finished()` is connected, and the
calls of the slot that are queued. -/
structure Worker where
  running : Bool := false
  connections : Nat := 0
  pending : Nat := 0
  deriving DecidableEq

/-- `finished()` is connected once more; `start()` does nothing while the thread runs. -/
def Worker.connectAndStart (w : Worker) : Worker :=
  { w with running := true, connections := w.connections + 1 }

def Worker.ended (w : Worker) : Worker :=
  { w with running := false, pending := w.pending + w.connections }

def Worker.called (w : Worker) : Worker := { w with pending := w.pending - 1 }

/-- A poll that was queued before the thread ended can still find an error. -/
def Worker.active (w : Worker) : Bool := w.running || 0 < w.pending

structure State where
  mfwdstate : List (QString × ForwardState) := []
  /-- the connectors made so far, and those that run -/
  made : Nat := 0
  connecting : List Nat := []
  worker : Nat → Worker := fun _ => {}
  /-- the connections that were disconnected and deleted, in order -/
  deleted : List Nat := []
  crashed : Bool := false

/-- The result of `libssh2_channel_forward_listen_ex` on a port; when it is `NULL`, with the error
and what `netstat -ant` prints. -/
inductive Listen where
  | listening
  | refused (srcPort eno : Int) (netstat : QString)

/-- `none` when a line has too few fields. -/
def listenExist (srcPort : Int) : List QString → Option Bool
  | [] => some false
  | line :: lines =>
    (fields line)[0]?.bind fun proto =>
      if proto = "tcp".toList then
        (fields line)[3]?.bind fun addr =>
          if (':' :: (toString srcPort).toList) <:+ addr then
            (fields line)[5]?.bind fun state =>
              if state = "LISTEN".toList then some true else listenExist srcPort lines
          else listenExist srcPort lines
      else listenExist srcPort lines

/-- `full_restart` -/
def fullRestart (srcPort eno : Int) (netstat : QString) : Option Bool :=
  if eno = errorRequestDenied then listenExist srcPort (netstat.splitOn '\n') else some false

/-- `libssh2_channel_forward_cancel` -/
def forwardCancel (lsner : Bool) (rn : Int) : Int := if lsner then rn else errorBadUse

def State.contains (s : State) (name : QString) : Bool := s.mfwdstate.any fun p => p.1 = name

def State.modify (s : State) (name : QString) (f : ForwardState → ForwardState) : State :=
  { s with mfwdstate := Assoc.modify s.mfwdstate name f }

/-- The connection is disconnected and deleted, and the entry is removed. -/
def State.drop (s : State) (name : QString) (c : Nat) : State :=
  { s with mfwdstate := Assoc.remove s.mfwdstate name, deleted := s.deleted ++ [c] }

def State.crash (s : State) : State := { s with crashed := true }

def State.ofConnector (s : State) (c : Nat) : Option (QString × ForwardState) :=
  s.mfwdstate.find? fun p => p.2.connector = some c

/-- The loop goes on after a match. -/
def State.ofWorker (s : State) (w : Nat) : Option (QString × ForwardState) :=
  s.mfwdstate.reverse.find? fun p => p.2.worker = some w

/-! ## Slots -/

/-- The thread ends later than `worker->quit()`. -/
def slotForwardConnectStop (fsessName : QString) (s : State) : State :=
  s.modify fsessName fun st => { st with lsner := false }

def slotForwardConnectStart (sessName fsessName : QString) (s : State) : State :=
  if fsessName = [] || sessName = [] then s
  else if s.contains fsessName then slotForwardConnectStop fsessName s
  else
    { s with
      mfwdstate := s.mfwdstate ++ [(fsessName, { connector := some s.made })]
      made := s.made + 1
      connecting := s.connecting ++ [s.made] }

/-- The error number of the connector is not looked at. -/
def slotConnectRemoteHostFinished (c : Nat) (listen : Listen) (s : State) : State :=
  match s.ofConnector c with
  | none => s.crash
  | some (fsessName, _) =>
    match listen with
    | .listening =>
      { s.modify fsessName (ForwardState.connected c) with
        connecting := s.connecting.erase c
        worker := update s.worker c { running := true, connections := 1 } }
    | .refused srcPort eno netstat =>
      match fullRestart srcPort eno netstat with
      | none => s.crash
      | some _ => { s.drop fsessName c with connecting := s.connecting.erase c }

/-- `texts` are the names in the window when the button is clicked for a new start, if it is. -/
def slotForwardWorkerFinished (w : Nat) (texts : Option (QString × QString)) (s : State) : State :=
  match s.ofWorker w with
  | none => s.crash
  | some (fsessName, st) =>
    match st.conn with
    | none => s.crash
    | some c =>
      match texts with
      | some (sessName, newName) =>
        if st.wantReconn then slotForwardConnectStart sessName newName (s.drop fsessName c)
        else s.drop fsessName c
      | none => s.drop fsessName c

def slotListenChannelError (w : Nat) (rn : Int) (listen : Listen) (s : State) : State :=
  match s.ofWorker w with
  | none => s.crash
  | some (fsessName, st) =>
    if forwardCancel st.lsner rn ≠ 0 then s.modify fsessName fun st => { st with wantReconn := true }
    else
      match listen with
      | .listening =>
        { s.modify fsessName fun st => { st with lsner := true } with
          worker := update s.worker w (s.worker w).connectAndStart }
      | .refused srcPort eno netstat =>
        match fullRestart srcPort eno netstat, st.conn with
        | some true, _ => s.modify fsessName fun st => { st with wantReconn := true }
        | some false, some c => s.drop fsessName c
        | _, _ => s.crash

/-! ## Events -/

inductive Event where
  | click (sessName fsessName : QString)
  | connectFinished (c : Nat) (listen : Listen)
  | listenError (w : Nat) (rn : Int) (listen : Listen)
  | ends (w : Nat)
  | finished (w : Nat) (texts : Option (QString × QString))

def Event.enabled (s : State) : Event → Bool
  | .click _ _ => true
  | .connectFinished c _ => c ∈ s.connecting
  | .listenError w _ _ => (s.worker w).active
  | .ends w => (s.worker w).running
  | .finished w _ => 0 < (s.worker w).pending

def Event.occur (s : State) : Event → State
  | .click sessName fsessName => slotForwardConnectStart sessName fsessName s
  | .connectFinished c listen => slotConnectRemoteHostFinished c listen s
  | .listenError w rn listen => slotListenChannelError w rn listen s
  | .ends w => { s with worker := update s.worker w (s.worker w).ended }
  | .finished w texts =>
    slotForwardWorkerFinished w texts { s with worker := update s.worker w (s.worker w).called }

def step (s : State) (ev : Event) : Option State :=
  if !s.crashed && ev.enabled s then some (ev.occur s) else none

end NullFxp.Forward.Manager
