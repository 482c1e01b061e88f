import NullFxp.Lib.Runs

/-!
# The worker of a forwarded port

Each forward is a socket with its channel. Sockets and channels have numbers that are not used
again. What is read and written is kept in a trace.
-/

namespace NullFxp.Forward

abbrev Bytes := List UInt8

def errorEagain : Int := -37
def errorBadUse : Int := -39
def errorOutOfBoundary : Int := -41
def errorChannelUnknown : Int := -23

structure Fwd where
  sock : Nat
  chan : Nat
  deriving DecidableEq

inductive Traffic where
  | fromSock (sock : Nat) (bytes : Bytes)
  | toChan (chan : Nat) (bytes : Bytes)
  | fromChan (chan : Nat) (bytes : Bytes)
  | toSock (sock : Nat) (bytes : Bytes)

structure Worker where
  mfwds : List Fwd := []
  /-- every forward that there was -/
  all : List Fwd := []
  trace : List Traffic := []
  /-- something was written behind the end of `inv_chans` -/
  overrun : Bool := false

def Worker.log (w : Worker) (ts : List Traffic) : Worker := { w with trace := w.trace ++ ts }

/-! ## From the socket to the channel -/

def taken (chunk : Bytes) (wlen : Int) : Bytes := chunk.take wlen.toNat

/-- The loop after the first `LIBSSH2_ERROR_EAGAIN`, from call `k` on; `n` is `max_retry + 1`. -/
def retry (chunk : Bytes) (writes : Nat → Int) : Nat → Nat → Bytes
  | 0, k => taken chunk (writes k)
  | n + 1, k =>
    if writes k = errorEagain then retry chunk writes n (k + 1) else taken chunk (writes k)

/-- What the channel takes of `chunk`. Call `k` of `libssh2_channel_write` returns `writes k`. -/
def writeChannel (chunk : Bytes) (writes : Nat → Int) : Bytes :=
  if writes 0 < 0 then
    if writes 0 = errorBadUse then []
    else if writes 0 = errorEagain then retry chunk writes 101 1
    else []
  else taken chunk (writes 0)

/-- `none` is a failed assert. -/
def slotForwardDestSocketReadyRead (sock : Nat) (chunk : Bytes) (writes : Nat → Int) (w : Worker) :
    Option Worker :=
  (w.mfwds.find? fun f => f.sock = sock).map fun f =>
    w.log [.fromSock sock chunk, .toChan f.chan (writeChannel chunk writes)]

/-! ## From the channels to the sockets -/

/-- What `libssh2_channel_read` returns: bytes, or none with the error number of the session and
whether the channel is at its end. -/
inductive ChanRead where
  | data (b : UInt8) (more : Bytes)
  | nothing (eno : Int) (eof : Bool)

structure Poll where
  /-- the channel that was accepted, with its socket -/
  accept : Option Fwd
  /-- the error number, when there is none -/
  eno : Int
  /-- the manager set a new listener when it was told of the error -/
  relistened : Bool
  reads : Nat → ChanRead

/-- The bytes that went to each socket, and the channels in `inv_chans`. -/
def pollLoop (reads : Nat → ChanRead) : List Fwd → List (Fwd × Bytes) × List Nat
  | [] => ([], [])
  | f :: fs =>
    match reads f.chan with
    | .data b more =>
      let (relayed, inv) := pollLoop reads fs
      ((f, b :: more) :: relayed, inv)
    | .nothing eno eof =>
      let closed := if eof then [f.chan] else []
      if eno = errorEagain then
        let (relayed, inv) := pollLoop reads fs
        (relayed, closed ++ inv)
      else if eno = errorOutOfBoundary then ([], closed)
      else pollLoop reads fs

def removeForwardByChannel (w : Worker) (chan : Nat) : Worker :=
  { w with mfwds := w.mfwds.eraseP fun f => f.chan = chan }

def setListener (w : Worker) : Worker := { w with mfwds := [] }

def accepted (p : Poll) (w : Worker) : Worker :=
  match p.accept with
  | some f => { w with mfwds := w.mfwds ++ [f], all := w.all ++ [f] }
  | none => if p.eno = errorChannelUnknown && p.relistened then setListener w else w

def relayTrace (relayed : List (Fwd × Bytes)) : List Traffic :=
  relayed.flatMap fun r => [.fromChan r.1.chan r.2, .toSock r.1.sock r.2]

def slotPollTimeout (p : Poll) (w : Worker) : Worker :=
  let w := accepted p w
  let (relayed, inv) := pollLoop p.reads w.mfwds
  let w := w.log (relayTrace relayed)
  -- `LIBSSH2_CHANNEL *inv_chans[100]`
  if 100 < inv.length then { w with overrun := true } else inv.foldl removeForwardByChannel w

/-! ## Events -/

inductive Event where
  | readyRead (sock : Nat) (chunk : Bytes) (writes : Nat → Int)
  | poll (p : Poll)
  | disconnected (sock : Nat)
  | setListener

def slotForwardDestDisconnected (sock : Nat) (w : Worker) : Worker :=
  { w with mfwds := w.mfwds.eraseP fun f => f.sock = sock }

/-- A new socket and a new channel are no old ones. -/
def fresh (w : Worker) (f : Fwd) : Bool := w.all.all fun g => g.sock ≠ f.sock ∧ g.chan ≠ f.chan

def step (w : Worker) (e : Event) : Option Worker :=
  if w.overrun then none
  else
    match e with
    | .readyRead sock chunk writes => slotForwardDestSocketReadyRead sock chunk writes w
    | .poll p => if p.accept.all (fresh w) then some (slotPollTimeout p w) else none
    | .disconnected sock => some (slotForwardDestDisconnected sock w)
    | .setListener => some (setListener w)

end NullFxp.Forward
