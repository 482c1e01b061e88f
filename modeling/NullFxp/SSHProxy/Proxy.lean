import NullFxp.Lib.Assoc
import NullFxp.Lib.Runs
import NullFxp.QString
import NullFxp.Forward.Worker

/-!
# The HTTP proxy over one SSH connection

Each browser connection gets a channel with its first request. Sockets and channels are
addresses. The SSH session does not block, so a call can come back without having done what it is
for. `QHttpRequestHeader` and `QUrl` are parameters.
-/

namespace NullFxp.SSHProxy

open Forward (Bytes taken)

abbrev Sock := Nat
abbrev Chan := Nat

structure Url where
  scheme : QString
  host : QString
  /-- `QUrl::port()`, if it is not -1 -/
  port : Option Nat

structure Http where
  method : Bytes → QString
  path : Bytes → QString
  url : QString → Url

def defaultPort (scheme : QString) : Nat :=
  if scheme = "http".toList then 80 else if scheme = "https".toList then 443 else 8000

/-- Where the channel for a request leads. The `Host` header is looked at, but not used. -/
def Http.dest (http : Http) (ba : Bytes) : QString × Nat :=
  let pu := http.url (http.path ba)
  (pu.host, pu.port.getD (defaultPort pu.scheme))

def Http.isRequest (http : Http) (ba : Bytes) : Bool :=
  http.method ba = "GET".toList || http.method ba = "POST".toList ||
    http.method ba = "CONNECT".toList

/-- An open channel: where it leads, and what it has taken. -/
structure Pipe where
  dest : QString × Nat
  received : Bytes
  deriving DecidableEq

structure Proxy where
  mconns : List (Sock × Option Chan)
  timer : Bool
  /-- the sockets, and what was written to each -/
  socks : List (Sock × Bytes)
  chans : List (Chan × Pipe)
  /-- the channels that nobody could free when their socket went -/
  lost : List Chan
  /-- `direct_message` of the session, while `direct_state` is not idle -/
  direct : Option (QString × Nat)

def Proxy.start : Proxy := ⟨[], false, [], [], [], none⟩

/-- What a call of `libssh2_channel_direct_tcpip` comes to. -/
inductive Opening where
  | opened (chan : Chan)
  /-- `LIBSSH2_ERROR_EAGAIN` -/
  | again
  | failed
  deriving DecidableEq

def Opening.chan? : Opening → Option Chan
  | opened chan => some chan
  | _ => none

/-- The channel that one of the two calls returns: the second is only made without a channel. -/
def openedBy (first second : Opening) : Option Chan := first.chan?.or second.chan?

/-- A failed `Q_ASSERT`, or a pointer to what is not there. -/
inductive Stop where
  | assertion | dangling
  deriving DecidableEq

inductive Event where
  | newConnection (sock : Sock)
  /-- what is read from the socket, and what the two calls that open a channel and the call that
  writes to it return -/
  | readyRead (sock : Sock) (ba : Bytes) (first second : Opening) (wlen : Int)
  /-- Also when a socket is deleted that is connected. `frees`: `libssh2_channel_free` does not return
  `LIBSSH2_ERROR_EAGAIN`, as it does until the peer's `CLOSE` is in. -/
  | disconnected (sock : Sock) (frees : Bool)
  /-- what the channels have to read, by their sockets -/
  | timeout (reads : Sock → Bytes)

/-- `mconns[sock] = chan` -/
def insert {β : Type} (es : List (Nat × β)) (key : Nat) (b : β) : List (Nat × β) :=
  (key, b) :: Assoc.remove es key

def slotNewconnection (sock : Sock) (s : Proxy) : Proxy :=
  { s with mconns := insert s.mconns sock none, socks := (sock, []) :: s.socks }

def channelWrite (chan : Chan) (ba : Bytes) (wlen : Int) (s : Proxy) : Except Stop Proxy :=
  if (Assoc.value s.chans chan).isSome then
    .ok { s with chans := Assoc.modify s.chans chan fun pipe =>
      { pipe with received := pipe.received ++ taken ba wlen } }
  else .error .dangling

/-- `channel_direct_tcpip`: the message of a call that would have blocked is sent by the next one,
whatever that is called with. -/
def directTcpip (dest : QString × Nat) (o : Opening) (s : Proxy) : Proxy :=
  match o with
  | .opened chan =>
    { s with direct := none, chans := (chan, ⟨s.direct.getD dest, []⟩) :: s.chans }
  | .again => { s with direct := some (s.direct.getD dest) }
  | .failed => { s with direct := none }

def openChannel (dest : QString × Nat) (first second : Opening) (s : Proxy) : Proxy :=
  let s := directTcpip dest first s
  if first.chan?.isSome then s else directTcpip dest second s

/-- `slot_forward_dest_socket_ready_read`. A socket whose channel does not open is deleted
later. -/
def slotReadyRead (http : Http) (sock : Sock) (ba : Bytes) (first second : Opening) (wlen : Int)
    (s : Proxy) : Except Stop Proxy :=
  if http.isRequest ba then
    let s := openChannel (http.dest ba) first second s
    match openedBy first second with
    | none => .ok s
    | some chan =>
      match Assoc.value s.mconns sock with
      | some none =>
        channelWrite chan ba wlen
          { s with mconns := insert s.mconns sock (some chan), timer := true }
      | _ => .error .assertion
  else
    match Assoc.value s.mconns sock with
    | some (some chan) => channelWrite chan ba wlen s
    | _ => .error .assertion

/-- `slot_forward_dest_disconnected` -/
def slotDisconnected (sock : Sock) (frees : Bool) (s : Proxy) : Except Stop Proxy :=
  let s := { s with socks := Assoc.remove s.socks sock }
  match Assoc.value s.mconns sock with
  | some (some chan) =>
    let s := { s with mconns := Assoc.remove s.mconns sock }
    if (Assoc.value s.chans chan).isSome then
      .ok (if frees then { s with chans := Assoc.remove s.chans chan }
        else { s with lost := chan :: s.lost })
    else .error .dangling
  | some none => .ok { s with mconns := Assoc.remove s.mconns sock }
  | none => .ok s

/-- `slot_check_chan_timeout`: one read of at most 999 bytes from each channel. -/
def slotTimeout (reads : Sock → Bytes) : List (Sock × Option Chan) → Proxy → Except Stop Proxy
  | [], s => .ok s
  | (_, none) :: conns, s => slotTimeout reads conns s
  | (sock, some chan) :: conns, s =>
    let rbuf := (reads sock).take 999
    if (Assoc.value s.chans chan).isSome = false then .error .dangling
    else if rbuf = [] then slotTimeout reads conns s
    else if (Assoc.value s.socks sock).isSome then
      slotTimeout reads conns { s with socks := Assoc.modify s.socks sock (· ++ rbuf) }
    else .error .dangling

def Proxy.event (http : Http) (s : Proxy) : Event → Except Stop Proxy
  | .newConnection sock => .ok (slotNewconnection sock s)
  | .readyRead sock ba first second wlen => slotReadyRead http sock ba first second wlen s
  | .disconnected sock frees => slotDisconnected sock frees s
  | .timeout reads => slotTimeout reads s.mconns s

def step (http : Http) (s : Proxy) (e : Event) : Option Proxy := (s.event http e).toOption

/-- Sockets and channels that are there are not given out again, and only a connected socket
signals. -/
def Allowed (s : Proxy) : Event → Prop
  | .newConnection sock => (Assoc.value s.socks sock).isSome = false
  | .readyRead sock _ first second _ => (Assoc.value s.socks sock).isSome = true ∧
      ∀ chan ∈ openedBy first second, (Assoc.value s.chans chan).isSome = false
  | .disconnected sock _ => (Assoc.value s.socks sock).isSome = true
  | .timeout _ => s.timer = true

instance (s : Proxy) : ∀ e, Decidable (Allowed s e)
  | .newConnection _ => inferInstanceAs (Decidable (_ = _))
  | .readyRead _ _ _ _ _ => inferInstanceAs (Decidable (_ ∧ _))
  | .disconnected _ _ => inferInstanceAs (Decidable (_ = _))
  | .timeout _ => inferInstanceAs (Decidable (_ = _))

/-! ## One owner for each channel -/

structure Proxy.Inv (s : Proxy) : Prop where
  conns : (s.mconns.map Prod.fst).Nodup
  same : ∀ sock, (Assoc.value s.mconns sock).isSome = (Assoc.value s.socks sock).isSome
  open_iff : ∀ chan, (Assoc.value s.chans chan).isSome = true ↔
    (∃ sock, Assoc.value s.mconns sock = some (some chan)) ∨ chan ∈ s.lost
  owner : ∀ sock sock' chan, Assoc.value s.mconns sock = some (some chan) →
    Assoc.value s.mconns sock' = some (some chan) → sock = sock'
  kept : ∀ sock chan, Assoc.value s.mconns sock = some (some chan) → chan ∉ s.lost

theorem Proxy.inv_start : Proxy.start.Inv := by
  constructor <;> simp [Proxy.start, Assoc.value]

section Insert

variable {β : Type} (es : List (Nat × β)) (key : Nat) (b : β)

theorem value_insert (k : Nat) :
    Assoc.value (insert es key b) k = if k = key then some b else Assoc.value es k := by
  rw [insert, Assoc.value_cons, Assoc.value_remove]
  by_cases h : k = key
  · simp [h]
  · simp [h, Ne.symm h]

theorem nodup_insert (h : (es.map Prod.fst).Nodup) : ((insert es key b).map Prod.fst).Nodup := by
  rw [insert, List.map_cons, Assoc.keys_remove, List.nodup_cons]
  exact ⟨by simp, h.filter _⟩

end Insert

section Keeps

variable {s : Proxy} {sock : Sock} {chan : Chan}

theorem Proxy.Inv.isOpen (h : s.Inv) (hchan : Assoc.value s.mconns sock = some (some chan)) :
    (Assoc.value s.chans chan).isSome = true := (h.open_iff chan).mpr (.inl ⟨sock, hchan⟩)

theorem Proxy.Inv.newConnection (h : s.Inv) (hnew : (Assoc.value s.socks sock).isSome = false) :
    (slotNewconnection sock s).Inv := by
  have hnone : Assoc.value s.mconns sock = none := by
    rw [← Option.not_isSome_iff_eq_none, h.same, hnew]
    decide
  obtain ⟨hconns, hsame, hopen, howner, hkept⟩ := h
  constructor
  case conns => exact nodup_insert _ _ _ hconns
  case same =>
    intro k
    simp only [slotNewconnection, value_insert, Assoc.value_cons]
    by_cases hk : k = sock
    · simp [hk]
    · simp [hk, Ne.symm hk, hsame]
  case open_iff =>
    intro c
    simp only [slotNewconnection, value_insert, hopen]
    refine or_congr_left (exists_congr fun k => ?_)
    by_cases hk : k = sock
    · simp [hk, hnone]
    · simp [hk]
  case owner =>
    intro k k' c hk hk'
    simp only [slotNewconnection, value_insert] at hk hk'
    split at hk
    · cases hk
    · split at hk'
      · cases hk'
      · exact howner k k' c hk hk'
  case kept =>
    intro k c hk
    simp only [slotNewconnection, value_insert] at hk
    split at hk
    · cases hk
    · exact hkept k c hk

theorem Proxy.Inv.congr {s' : Proxy} (h : s.Inv) (hconns : s'.mconns = s.mconns)
    (hsocks : ∀ k, (Assoc.value s'.socks k).isSome = (Assoc.value s.socks k).isSome)
    (hchans : ∀ c, (Assoc.value s'.chans c).isSome = (Assoc.value s.chans c).isSome)
    (hlost : s'.lost = s.lost) : s'.Inv := by
  obtain ⟨h₁, h₂, h₃, h₄, h₅⟩ := h
  constructor
  · rwa [hconns]
  · intro k
    rw [hconns, hsocks, h₂]
  · intro c
    rw [hconns, hchans, h₃, hlost]
  · rwa [hconns]
  · rwa [hconns, hlost]

theorem Proxy.Inv.linked (h : s.Inv) (hwaiting : Assoc.value s.mconns sock = some none)
    (hnew : (Assoc.value s.chans chan).isSome = false) (pipe : Pipe) (timer : Bool)
    (direct : Option (QString × Nat)) :
    Proxy.Inv ⟨insert s.mconns sock (some chan), timer, s.socks, (chan, pipe) :: s.chans, s.lost,
      direct⟩ := by
  have hfree : ∀ k, Assoc.value s.mconns k ≠ some (some chan) := by
    intro k hk
    rw [h.isOpen hk] at hnew
    cases hnew
  obtain ⟨hconns, hsame, hopen, howner, hkept⟩ := h
  constructor
  case conns => exact nodup_insert _ _ _ hconns
  case same =>
    intro k
    simp only [value_insert]
    split
    · next hk => rw [hk, ← hsame, hwaiting]; rfl
    · exact hsame k
  case open_iff =>
    intro c
    simp only [value_insert, Assoc.value_cons]
    split
    · next hc =>
      subst hc
      simp only [Option.isSome_some, true_iff]
      exact .inl ⟨sock, by simp⟩
    · next hc =>
      rw [hopen]
      refine or_congr_left (exists_congr fun k => ?_)
      by_cases hk : k = sock
      · simp [hk, hwaiting, hc]
      · simp [hk]
  case owner =>
    intro k k' c hk hk'
    simp only [value_insert] at hk hk'
    split at hk
    · next hks =>
      obtain rfl := Option.some.inj (Option.some.inj hk)
      split at hk'
      · next hks' => rw [hks, hks']
      · exact absurd hk' (hfree k')
    · split at hk'
      · obtain rfl := Option.some.inj (Option.some.inj hk')
        exact absurd hk (hfree k)
      · exact howner k k' c hk hk'
  case kept =>
    intro k c hk hlost
    simp only [value_insert] at hk
    split at hk
    · obtain rfl := Option.some.inj (Option.some.inj hk)
      rw [(hopen _).mpr (.inr hlost)] at hnew
      cases hnew
    · exact hkept k c hk hlost

theorem Proxy.Inv.removed (h : s.Inv) {chans : List (Chan × Pipe)} {lost : List Chan}
    (hchans : ∀ c, (Assoc.value chans c).isSome = true ↔
      (Assoc.value s.chans c).isSome = true ∧
        (Assoc.value s.mconns sock = some (some c) → c ∈ lost))
    (hlost : ∀ c, c ∈ lost ↔
      c ∈ s.lost ∨ Assoc.value s.mconns sock = some (some c) ∧ (Assoc.value chans c).isSome = true) :
    Proxy.Inv { s with
      mconns := Assoc.remove s.mconns sock, socks := Assoc.remove s.socks sock, chans := chans,
      lost := lost } := by
  obtain ⟨hconns, hsame, hopen, howner, hkept⟩ := h
  constructor
  case conns =>
    simp only [Assoc.keys_remove]
    exact hconns.filter _
  case same =>
    intro k
    simp only [Assoc.value_remove]
    split
    · rfl
    · exact hsame k
  case open_iff =>
    intro c
    simp only [Assoc.value_remove]
    constructor
    · intro hc
      obtain ⟨hc, hlinked⟩ := (hchans c).mp hc
      rcases (hopen c).mp hc with ⟨k, hk⟩ | hc
      · by_cases hks : k = sock
        · exact .inr (hlinked (hks ▸ hk))
        · exact .inl ⟨k, by rwa [if_neg hks]⟩
      · exact .inr ((hlost c).mpr (.inl hc))
    · rintro (⟨k, hk⟩ | hc)
      · split at hk
        · cases hk
        · next hne =>
          exact (hchans c).mpr ⟨(hopen c).mpr (.inl ⟨k, hk⟩), fun hs => absurd (howner k sock c hk hs) hne⟩
      · rcases (hlost c).mp hc with hold | ⟨-, hc⟩
        · exact (hchans c).mpr ⟨(hopen c).mpr (.inr hold), fun _ => hc⟩
        · exact hc
  case owner =>
    intro k k' c hk hk'
    simp only [Assoc.value_remove] at hk hk'
    split at hk
    · cases hk
    · split at hk'
      · cases hk'
      · exact howner k k' c hk hk'
  case kept =>
    intro k c hk hc
    simp only [Assoc.value_remove] at hk
    split at hk
    · cases hk
    · next hne =>
      rcases (hlost c).mp hc with hold | ⟨hs, -⟩
      · exact hkept k c hk hold
      · exact hne (howner k sock c hk hs)

end Keeps

end NullFxp.SSHProxy
