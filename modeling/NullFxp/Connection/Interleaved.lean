import NullFxp.Connection.Handles

/-!
# Connecting while the user cancels and the timer pings
-/

open Calls

namespace NullFxp.SSHConnection

open Connection

/-! ## The others -/

structure State where
  held : Held := {}
  userCanceled : Bool := false
  connected : Bool := false
  /-- `sess` as each ping has found it -/
  pings : List Handle := []

inductive Event where
  | setUserCanceled
  /-- with what `libssh2_keepalive_send` returns -/
  | alivePing (ret : Int)
  deriving DecidableEq

/-- `LIBSSH2_ERROR_SOCKET_SEND` -/
def socketSend : Int := -7

/-- The flag is read as it is. -/
def State.Answers (s : State) : (o : Call) → Ans o → Bool
  | .userCanceled _, canceled => canceled == s.userCanceled
  | _, _ => true

def State.call (s : State) (o : Call) (a : Ans o) : Option State :=
  if s.Answers o a then
    some { s with
      held := s.held.call o a
      connected := s.connected || o = .setConnected }
  else none

/-- `alivePing` takes a session that has been freed for one that is live: `sess` is not `NULL`. -/
def State.event (s : State) (e : Event) : Option State :=
  if s.held.deleted then none
  else
    match e with
    | .setUserCanceled => some { s with userCanceled := true }
    | .alivePing ret =>
      some { s with
        pings := s.pings ++ [s.held.sess]
        connected := s.connected && !(s.held.sess = .live && ret = socketSend) }

def world : World Ans State Event where
  call := State.call
  event := State.event

/-- From the start of `p`. -/
def Reaches (p : Program Status) (as : List (Step Ans Event)) (s : State) (q : Program Status) : Prop :=
  Runs.run (step world) ({}, p) as = some (s, q)

theorem owns_call {ok : Held → Option Call → Prop} : Owns world ⟨ok, Held.call⟩ State.held where
  call s o a s' h := by
    simp only [world, State.call, Option.ite_none_right_eq_some, Option.some.injEq] at h
    rw [← h.2]
  event s e s' h := by
    simp only [world, State.event] at h
    split at h
    · simp at h
    · cases e with
      | setUserCanceled =>
        cases h
        rfl
      | alivePing ret =>
        cases h
        rfl

theorem owns : Owns world own State.held := owns_call

/-! ## What is left -/

/-- The socket or the session is still there. -/
def Held.Leaks (t : Held) : Prop := t.sock = .live ∨ t.sess = .live

theorem leaks_iff_of_left {t : Held} {status : Status} (hok : status ≠ .ok) (h : t.Left status) :
    t.Leaks ↔ ¬ (status = .resolveError ∨ ∃ test, t.canceledAt = some test ∧ test.cleans = true) := by
  unfold Held.Leaks
  cases status with
  | ok => exact absurd rfl hok
  | cancel =>
    unfold Held.Left at h
    cases htest : t.canceledAt with
    | none => simp [htest] at h
    | some test =>
      cases test <;> simp_all [Test.cleans, Test.frees]
  | other | execError => exact h.elim
  | refuse | resolveError | sessError | protocolVersionNotMatchError | authError | sftpError =>
    simp_all [Held.Left]

theorem kept_of_left {t : Held} {status : Status} (h : t.Left status) : t.Kept := by
  intro hsess
  cases status with
  | cancel =>
    unfold Held.Left at h
    cases htest : t.canceledAt with
    | none => simp [htest] at h
    | some test =>
      refine ⟨test, rfl, ?_⟩
      cases test <;> simp_all [Test.frees]
  | other | execError => exact h.elim
  | ok | refuse | resolveError | sessError | protocolVersionNotMatchError | authError | sftpError =>
    simp_all [Held.Left]

/-- How `connectToRemoteHost` ends. -/
def Settled (status : Status) (t : Held) : Prop :=
  t.Left status ∧ (status ≠ .ok → t.deleted = true)

theorem wp_connectToRemoteHost (codecForName : List UInt8 → Option QString) (conn : Info) :
    wp own (connectToRemoteHost codecForName conn) Settled {} := by
  unfold connectToRemoteHost
  rw [wp_bind]
  refine wp_mono (wp_connect codecForName conn) ?_
  intro status t h
  unfold Ends at h
  rw [wp_ite]
  split
  · rename_i hok
    rw [if_pos hok] at h
    apply wp_call_bind (kept_of_left h.1) (by exact ⟨h.1.1, h.1.2.1⟩)
    intro _
    rw [hok]
    exact ⟨h.1, fun hne => absurd rfl hne⟩
  · rename_i hok
    rw [if_neg hok] at h
    apply wp_call_bind (kept_of_left h) (by trivial)
    intro _
    refine ⟨?_, fun _ => rfl⟩
    cases status <;> exact h

/-- **What a failed connect leaves open**, whenever the user cancels. The window deletes the
connection, and with it neither the socket nor the session. -/
theorem connectToRemoteHost_leaks_iff (codecForName : List UInt8 → Option QString) (conn : Info)
    {as : List (Step Ans Event)} {s : State} {status : Status}
    (hr : Reaches (connectToRemoteHost codecForName conn) as s (.ret status)) :
    s.held.Left status ∧ (status ≠ .ok → s.held.deleted = true ∧ (s.held.Leaks ↔
      ¬ (status = .resolveError ∨ ∃ test, s.held.canceledAt = some test ∧ test.cleans = true))) := by
  obtain ⟨hleft, hdeleted⟩ := wp_run owns (wp_connectToRemoteHost codecForName conn) hr
  exact ⟨hleft, fun hok => ⟨hdeleted hok, leaks_iff_of_left hok hleft⟩⟩

theorem connectToRemoteHost_leaks_iff_socket :
    ∃ as s, Reaches (connectToRemoteHost (fun _ => none) {}) as s (.ret .cancel) ∧ s.held.Leaks := by
  have hr : ∃ s, Reaches (connectToRemoteHost (fun _ => none) {})
      [.answer (.hostAddressIsNull []) false, .answer (.userCanceled .initSocketResolved) false,
        .answer .socket (3 : Int), .answer .select (1 : Int), .answer .soError ((0 : Int), []),
        .answer (.userCanceled .initSocketConnected) false, .event .setUserCanceled,
        .answer (.userCanceled .connectSocket) true, .answer .deleteConnection ()]
      s (.ret .cancel) ∧ s.held.canceledAt = some .connectSocket := ⟨_, rfl, rfl⟩
  obtain ⟨s, hr, hat⟩ := hr
  refine ⟨_, s, hr, ?_⟩
  rw [((connectToRemoteHost_leaks_iff _ _ hr).2 (by decide)).2, hat]
  rintro (h | ⟨test, htest, hcleans⟩)
  · cases h
  · cases htest
    cases hcleans

/-! ## Live handles -/

theorem call_eq_some {s s' : State} {o : Call} {a : Ans o} (h : world.call s o a = some s') :
    s.Answers o a = true ∧ s'.held = s.held.call o a ∧ s'.userCanceled = s.userCanceled ∧
      s'.pings = s.pings := by
  simp only [world, State.call, Option.ite_none_right_eq_some, Option.some.injEq] at h
  obtain ⟨hanswers, rfl⟩ := h
  exact ⟨hanswers, rfl, rfl, rfl⟩

theorem sess_call_of_freed {t : Held} {o : Call} (a : Ans o) (hready : t.Ready o)
    (h : t.sess = .freed) : (t.call o a).sess = .freed := by
  cases o <;> simp_all [Held.call, Held.Ready]

/-- The pings have found a freed session only where it is one, and the flag is set where a test
has found it so. -/
def State.Pinged (s : State) : Prop :=
  (Handle.freed ∈ s.pings → s.held.sess = .freed) ∧
    (s.held.canceledAt.isSome → s.userCanceled = true)

theorem pinged_call {s s' : State} {o : Call} {a : Ans o} (hs : s.Pinged) (hready : s.held.Ready o)
    (h : world.call s o a = some s') : s'.Pinged := by
  obtain ⟨hanswers, hheld, hflag, hpings⟩ := call_eq_some h
  unfold State.Pinged
  rw [hheld, hflag, hpings]
  constructor
  · intro hmem
    exact sess_call_of_freed a hready (hs.1 hmem)
  · have hcancel := hs.2
    cases o <;> simp_all [Held.call, State.Answers]
    split
    · intro _
      assumption
    · simpa using hcancel

theorem pinged_event {s s' : State} {e : Event} (hs : s.Pinged) (h : world.event s e = some s') :
    s'.Pinged := by
  simp only [world, State.event] at h
  split at h
  · simp at h
  · cases e with
    | setUserCanceled =>
      cases h
      exact ⟨hs.1, fun _ => rfl⟩
    | alivePing ret =>
      cases h
      refine ⟨?_, hs.2⟩
      intro hmem
      rw [List.mem_append, List.mem_singleton] at hmem
      exact hmem.elim hs.1 Eq.symm

theorem pinged_start : State.Pinged {} :=
  ⟨fun hmem => absurd hmem List.not_mem_nil, fun hsome => absurd hsome (by decide)⟩

theorem settled_ok (status : Status) (t : Held) (h : Settled status t) : own.ok t none :=
  own_ok_none.mpr (kept_of_left h.1)

/-- A connect up to the first answer of the server. -/
def untilHostbased : List (Step Ans Event) :=
  [.answer (.hostAddressIsNull []) false, .answer (.userCanceled .initSocketResolved) false,
    .answer .socket (3 : Int), .answer .select (1 : Int), .answer .soError ((0 : Int), []),
    .answer (.userCanceled .initSocketConnected) false,
    .answer (.userCanceled .connectSocket) false, .answer .sessionInit true,
    .answer .sessionStartup (-37 : Int), .answer .sessionStartup (0 : Int),
    .answer (.userCanceled .connectSession) false, .answer (.userauthList []) (),
    .answer (.userauth (.hostbasedFromfile [] [] [] [] [])) (-1 : Int)]

/-- The user has canceled, and no test has been passed since. -/
def State.Stopped (s : State) : Prop := s.userCanceled = true ∧ s.held.tested = false

theorem stopped_call {s s' : State} {o : Call} {a : Ans o} (hs : s.userCanceled = true)
    (h : world.call s o a = some s') : s'.Stopped := by
  obtain ⟨hanswers, hheld, hflag, -⟩ := call_eq_some h
  refine ⟨hflag.trans hs, ?_⟩
  rw [hheld]
  cases o <;> simp_all [Held.call, State.Answers]

theorem event_userCanceled {s s' : State} {e : Event} (h : world.event s e = some s') :
    s'.held = s.held ∧ (s.userCanceled = true → s'.userCanceled = true) := by
  simp only [world, State.event] at h
  split at h
  · simp at h
  · cases e with
    | setUserCanceled =>
      cases h
      exact ⟨rfl, fun _ => rfl⟩
    | alivePing ret =>
      cases h
      exact ⟨rfl, id⟩

theorem stopped_run {as : List (Step Ans Event)} {c d : State × Program Status}
    (hr : Runs.run (step world) c as = some d) (hc : c.1.userCanceled = true)
    (h : c.1.Stopped ∨ ∃ o a, .answer o a ∈ as) : d.1.Stopped := by
  induction as generalizing c with
  | nil =>
    simp only [Runs.run, Option.some.injEq] at hr
    subst hr
    simpa using h
  | cons e as ih =>
    obtain ⟨⟨s, p⟩, hs, hr⟩ := Runs.run_cons.mp hr
    cases e with
    | event e =>
      simp only [step, Option.map_eq_some_iff, Prod.mk.injEq] at hs
      obtain ⟨s', hs', rfl, rfl⟩ := hs
      obtain ⟨hheld, hflag⟩ := event_userCanceled hs'
      refine ih hr (hflag hc) ?_
      obtain h | ⟨o, a, hmem⟩ := h
      · exact .inl ⟨hflag hc, hheld ▸ h.2⟩
      · simp only [List.mem_cons, reduceCtorEq, false_or] at hmem
        exact .inr ⟨o, a, hmem⟩
    | answer o a =>
      simp only [step, Option.bind_eq_some_iff, Option.map_eq_some_iff, Prod.mk.injEq] at hs
      obtain ⟨q, -, s', hs', rfl, -⟩ := hs
      have hstop := stopped_call hc hs'
      exact ih hr hstop.1 (.inl hstop)

/-- **A cancel is not lost**: `connect` returns 0 only if it makes no call after the user has
canceled. -/
theorem connect_ok_of_cancel (codecForName : List UInt8 → Option QString) (conn : Info)
    {as bs : List (Step Ans Event)} {s : State}
    (hr : Reaches (connect codecForName conn) (as ++ .event .setUserCanceled :: bs) s (.ret .ok)) :
    ∀ o a, .answer o a ∉ bs := by
  intro o a hmem
  have hend := wp_run owns (wp_connect codecForName conn) hr
  have htested : s.held.tested = true := hend.2
  obtain ⟨c, -, hr⟩ := Runs.run_append.mp hr
  obtain ⟨⟨t, p⟩, ht, hr⟩ := Runs.run_cons.mp hr
  simp only [step, Option.map_eq_some_iff, Prod.mk.injEq] at ht
  obtain ⟨t', ht', rfl, -⟩ := ht
  have hflag : t'.userCanceled = true := by
    simp only [world, State.event] at ht'
    split at ht'
    · simp at ht'
    · cases ht'
      rfl
  have hstop := stopped_run hr hflag (.inr ⟨o, a, hmem⟩)
  rw [hstop.2] at htested
  exact absurd htested (by decide)

/-- `getServerEnvVars` where the server opens no channel. -/
def noChannel (cmd : String) : List (Step Ans Event) :=
  [.answer .channelOpen false, .answer .channelShell (),
    .answer (.channelWrite (Text.toAscii cmd.toList)) (), .answer (.channelWrite [10]) (),
    .answer .channelSendEof (), .answer .channelRead ((-39 : Int), []), .answer .channelClose (),
    .answer .channelFree ()]

theorem connect_ok_of_cancel_late :
    ∃ as s, Reaches (connect (fun _ => none) {})
        (as ++ .event .setUserCanceled :: [.event (.alivePing 0)]) s (.ret .ok) ∧
      .answer (.userCanceled .connectEnvs) false ∉
        ([.event (.alivePing 0)] : List (Step Ans Event)) := by
  have hr : ∃ s, Reaches (connect (fun _ => none) {}) ((untilHostbased ++
      [.answer (.userCanceled .sshAuthPassword) false,
        .answer (.userauth (.password [] [])) (0 : Int),
        .answer (.userCanceled .sshAuthTried) false, .answer .authenticated (1 : Int),
        .answer (.userCanceled .sshAuthDone) false, .answer .setConnected (),
        .answer .sessionMethods (), .answer .sftpInit true, .answer .realpath ((1 : Int), [47]),
        .answer (.setHomePath ['/']) (), .answer .sftpShutdown (),
        .answer (.userCanceled .sshHomePath) false, .answer (.userCanceled .connectHome) false] ++
      noChannel "env" ++ [.answer (.setCodec none) ()] ++ noChannel "uname -a" ++
      [.answer (.userCanceled .connectEnvs) false]) ++
      .event .setUserCanceled :: [.event (.alivePing 0)]) s (.ret .ok) := by
    with_unfolding_all exact ⟨_, rfl⟩
  obtain ⟨s, hr⟩ := hr
  exact ⟨_, s, hr, connect_ok_of_cancel _ _ hr _ _⟩

end NullFxp.SSHConnection
