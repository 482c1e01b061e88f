import NullFxp.Connection.SSHConnection

/-!
# What a connect holds

The socket and the session over every run of `connect`, with the user and the timer in between.
-/

open Calls

namespace NullFxp.SSHConnection

open Connection

/-! ## The state -/

inductive Handle where
  | unset
  | null
  | live
  | freed
  deriving DecidableEq

/-- What a pointer is after the call that makes it. -/
def Handle.ofNonNull (nonNull : Bool) : Handle := if nonNull then .live else .null

/-- What only the thread of the connector writes. -/
structure Held where
  sock : Handle := .unset
  sess : Handle := .unset
  sftp : Handle := .unset
  channel : Handle := .unset
  authenticated : Bool := false
  homePath : Option QString := none
  codec : Option QString := none
  mErrorString : Option QString := none
  /-- the requests to the server and what they returned, in order -/
  requests : List (AuthCall × Int) := []
  /-- the test that found `user_canceled` set -/
  canceledAt : Option Test := none
  /-- The last call was a test that found it not set. -/
  tested : Bool := false
  deleted : Bool := false

def Held.call (t : Held) : (o : Call) → Ans o → Held
  | .userCanceled test, canceled =>
    { t with
      canceledAt := if canceled then some test else t.canceledAt
      tested := !canceled }
  | .socket, _ => { t with sock := .live, tested := false }
  | .piClose, _ => { t with sock := .freed, tested := false }
  | .sessionInit, sess => { t with sess := .ofNonNull sess, tested := false }
  | .sessionFree, _ => { t with sess := .freed, tested := false }
  | .userauth request, ret => { t with requests := t.requests ++ [(request, ret)], tested := false }
  | .authenticated, ret => { t with authenticated := decide (ret ≠ 0), tested := false }
  | .sftpInit, sftp => { t with sftp := .ofNonNull sftp, tested := false }
  | .sftpShutdown, _ => { t with sftp := .freed, tested := false }
  | .channelOpen, channel => { t with channel := .ofNonNull channel, tested := false }
  | .channelFree, _ => { t with channel := .freed, tested := false }
  | .setHomePath path, _ => { t with homePath := some path, tested := false }
  | .setCodec codec, _ => { t with codec := codec, tested := false }
  | .setErrorString msg, _ => { t with mErrorString := some msg, tested := false }
  | .deleteConnection, _ => { t with deleted := true, tested := false }
  | _, _ => { t with tested := false }

/-- What a call does with handles that it may not do with others. -/
def Held.Ready (t : Held) : Call → Prop
  | .socket => t.sock = .unset
  | .sessionInit => t.sess = .unset
  | .select | .soError | .piClose => t.sock = .live
  | .sessionStartup | .lastError | .userauthList _ | .userauth _ | .authenticated
  | .sessionDisconnect | .sessionFree | .sessionMethods | .sftpInit | .channelOpen
  | .setConnection => t.sock = .live ∧ t.sess = .live
  | .realpath | .sftpShutdown => t.sock = .live ∧ t.sess = .live ∧ t.sftp = .live
  -- these calls check the channel for `NULL`
  | .channelShell | .channelWrite _ | .channelSendEof | .channelRead | .channelClose
  | .channelFree =>
    t.sock = .live ∧ t.sess = .live ∧ (t.channel = .live ∨ t.channel = .null)
  | _ => True

/-- The tests after which `connect` has closed what it had opened. -/
def Test.cleans : Test → Bool
  | .initSocketResolved | .initSocketConnected => true
  | .sshAuthPublickey | .sshAuthPassword | .sshAuthTried | .sshAuthDone | .sshHomePath => true
  | .connectSocket | .connectSession | .connectHome | .connectEnvs => false

/-- The tests after which the session has been freed. -/
def Test.frees : Test → Bool
  | .sshAuthPublickey | .sshAuthPassword | .sshAuthTried | .sshAuthDone | .sshHomePath => true
  | _ => false

/-- What `connect` leaves, for each status. -/
def Held.Left (t : Held) : Status → Prop
  | .ok => t.sock = .live ∧ t.sess = .live ∧ t.authenticated = true ∧ t.homePath.isSome ∧
      t.canceledAt = none
  | .refuse => t.sock = .live ∧ t.sess = .unset ∧ t.mErrorString.isSome ∧ t.canceledAt = none
  | .resolveError =>
    t.sock = .unset ∧ t.sess = .unset ∧ t.mErrorString.isSome ∧ t.canceledAt = none
  | .sessError | .protocolVersionNotMatchError =>
    t.sock = .freed ∧ t.sess = .live ∧ t.mErrorString.isSome ∧ t.canceledAt = none
  | .authError => t.sock = .live ∧ t.sess = .live ∧ t.authenticated = false ∧
      t.mErrorString.isSome ∧ t.canceledAt = none
  | .sftpError => t.sock = .live ∧ t.sess = .live ∧ t.authenticated = true ∧
      t.mErrorString.isSome ∧ t.canceledAt = none
  | .cancel =>
    match t.canceledAt with
    | some .initSocketResolved => t.sock = .unset ∧ t.sess = .unset
    | some .initSocketConnected => t.sock = .freed ∧ t.sess = .unset
    | some .connectSocket => t.sock = .live ∧ t.sess = .unset
    | some test => if test.frees then t.sock = .freed ∧ t.sess = .freed
        else t.sock = .live ∧ t.sess = .live
    | none => False
  | .other | .execError => False

/-- What holds between two calls of `connect`. -/
def Held.Kept (t : Held) : Prop :=
  t.sess = .freed → ∃ test, t.canceledAt = some test ∧ test.frees = true

/-- The state as `connect` needs it. -/
def own : Own Ans Held where
  ok t o := t.Kept ∧ ∀ o', o = some o' → t.Ready o'
  call := Held.call

theorem own_ok_none {t : Held} : own.ok t none ↔ t.Kept := by simp [own]

theorem kept_of_sess {t : Held} (h : t.sess ≠ .freed) : t.Kept := fun hs => absurd hs h

theorem wp_call {o : Call} {Q : Ans o → Held → Prop} {t : Held} (hkept : t.Kept)
    (hready : t.Ready o) (h : ∀ a, Q a (t.call o a)) : wp own (call o) Q t := by
  refine ⟨⟨hkept, ?_⟩, h⟩
  intro o' ho
  rw [← Option.some.inj ho]
  exact hready

theorem wp_call_bind {α : Type} {o : Call} {f : Ans o → Program α} {Q : α → Held → Prop} {t : Held}
    (hkept : t.Kept) (hready : t.Ready o) (h : ∀ a, wp own (f a) Q (t.call o a)) :
    wp own (call o >>= f) Q t := wp_bind.mpr (wp_call hkept hready h)

theorem wp_callWhile {o : Call} {more : Ans o → Bool} {Q : List (Ans o) × Ans o → Held → Prop}
    {t : Held} (hkept : t.Kept) (hready : t.Ready o) (hmore : ∀ a, t.call o a = t)
    (h : ∀ got a, Q (got, a) t) : wp own (callWhile o more) Q t :=
  wp_askWhile ⟨hkept, fun _ ho => Option.some.inj ho ▸ hready⟩ hmore fun got a _ => h got a

/-! ## One function after the other -/

/-- Nobody has canceled, as far as `connect` has seen. -/
def Held.Has (t : Held) (sock sess : Handle) : Prop :=
  t.sock = sock ∧ t.sess = sess ∧ t.canceledAt = none

theorem Held.Has.kept {t : Held} {sock sess : Handle} (h : t.Has sock sess) (hs : sess ≠ .freed) :
    t.Kept := by
  apply kept_of_sess
  rw [h.2.1]
  exact hs

/-- A function that returns 0 leaves `P`. -/
def Ends (P : Held → Prop) (ret : Status) (t : Held) : Prop := if ret = .ok then P t else t.Left ret

theorem ends_of_left {P : Held → Prop} {ret : Status} {t : Held} (hret : ret ≠ .ok)
    (h : t.Left ret) : Ends P ret t := by
  unfold Ends
  rw [if_neg hret]
  exact h

theorem wp_unless {p rest : Program Status} {P R : Held → Prop} {t : Held}
    (hp : wp own p (Ends P) t) (hrest : ∀ t, P t → wp own rest (Ends R) t) :
    wp own (p >>= fun ret => if ret ≠ .ok then pure ret else rest) (Ends R) t := by
  rw [wp_bind]
  refine wp_mono hp ?_
  intro ret t h
  unfold Ends at h
  split at h
  · rename_i hret
    simp only [hret, ne_eq, not_true_eq_false, if_false]
    exact hrest t h
  · rename_i hret
    rw [if_pos hret, wp_pure]
    exact ends_of_left hret h

theorem wp_next {α : Type} {o : Call} {f : Ans o → Program α} {Q : α → Held → Prop} {t : Held}
    (P : Held → Prop) (hkept : t.Kept) (hready : t.Ready o) (hP : ∀ a, P (t.call o a))
    (h : ∀ a t, P t → wp own (f a) Q t) : wp own (call o >>= f) Q t :=
  wp_call_bind hkept hready fun a => h a _ (hP a)

theorem wp_test {test : Test} {p q : Program Status} {Q : Status → Held → Prop} {t : Held}
    (hkept : t.Kept) (hp : wp own p Q { t with canceledAt := some test, tested := false })
    (hq : wp own q Q { t with tested := true }) :
    wp own (call (.userCanceled test) >>= fun canceled : Bool => if canceled = true then p else q)
      Q t := by
  apply wp_call_bind hkept (by trivial)
  intro canceled
  cases canceled with
  | false => exact hq
  | true => exact hp

theorem wp_resolve (conn : Info) {t : Held} (h : t.Has .unset .unset) :
    wp own (resolve conn) (Ends fun t => t.Has .unset .unset) t := by
  have hkept := h.kept (by decide)
  unfold resolve
  apply wp_call_bind hkept (by trivial)
  intro isNull
  rw [wp_ite]
  split
  · apply wp_call_bind hkept (by trivial)
    intro error
    cases error with
    | none => exact h
    | some error =>
      apply wp_call_bind hkept (by trivial)
      intro _
      exact ⟨h.1, h.2.1, rfl, h.2.2⟩
  · exact h

theorem wp_initSocket (conn : Info) {t : Held} (h : t.Has .unset .unset) :
    wp own (initSocket conn) (Ends fun t => t.Has .live .unset) t := by
  unfold initSocket
  apply wp_unless (wp_resolve conn h)
  intro t h
  have hkept := h.kept (by decide)
  apply wp_test hkept
  · exact ⟨h.1, h.2.1⟩
  apply wp_next (fun t => t.Has .live .unset) hkept (by exact h.1)
    (by exact fun _ => ⟨rfl, h.2.1, h.2.2⟩)
  intro sock t h
  have hkept := h.kept (by decide)
  rw [wp_bind, wp_assert]
  split
  swap
  · exact own_ok_none.mpr hkept
  apply wp_next (fun t => t.Has .live .unset) hkept (by exact h.1) (by exact fun _ => h)
  intro ret t h
  have hkept := h.kept (by decide)
  rw [wp_bind, wp_assert]
  split
  swap
  · exact own_ok_none.mpr hkept
  rw [wp_ite]
  split
  · apply wp_call_bind hkept (by trivial)
    intro error
    apply wp_call_bind hkept (by trivial)
    intro _
    exact ⟨h.1, h.2.1, rfl, h.2.2⟩
  apply wp_next (fun t => t.Has .live .unset) hkept (by exact h.1) (by exact fun _ => h)
  intro error t h
  have hkept := h.kept (by decide)
  rw [wp_ite]
  split
  · apply wp_call_bind hkept (by trivial)
    intro _
    exact ⟨h.1, h.2.1, rfl, h.2.2⟩
  apply wp_test hkept
  · apply wp_call_bind (kept_of_sess (by simp [h.2.1])) (by exact h.1)
    intro _
    exact ⟨rfl, h.2.1⟩
  · exact h

theorem wp_initSSHSession {t : Held} (h : t.Has .live .unset) :
    wp own initSSHSession (Ends fun t => t.Has .live .live) t := by
  have hkept := h.kept (by decide)
  unfold initSSHSession
  apply wp_call_bind hkept (by exact h.2.1)
  intro sess
  rw [wp_bind, wp_assert]
  cases sess with
  | false => exact own_ok_none.mpr (kept_of_sess (by simp [Held.call, Handle.ofNonNull]))
  | true =>
    rw [if_pos rfl, wp_bind]
    have h : (t.call .sessionInit true).Has .live .live := ⟨h.1, rfl, h.2.2⟩
    have hkept := h.kept (by decide)
    apply wp_callWhile hkept (by exact ⟨h.1, h.2.1⟩) (by exact fun _ => rfl)
    intro got ret
    rw [wp_ite]
    split
    · apply wp_call_bind hkept (by exact ⟨h.1, h.2.1⟩)
      intro emsg
      apply wp_next (fun t => t.Has .live .live ∧ t.mErrorString.isSome) hkept (by trivial)
        (by exact fun _ => ⟨h, rfl⟩)
      intro _ t h
      apply wp_call_bind (h.1.kept (by decide)) (by exact h.1.1)
      intro _
      rw [wp_pure]
      split
      · exact ⟨rfl, h.1.2.1, h.2, h.1.2.2⟩
      · exact ⟨rfl, h.1.2.1, h.2, h.1.2.2⟩
    · exact h

theorem wp_cleanUp {P : Held → Prop} {test : Test} (hfrees : test.frees = true) {t : Held}
    (hsock : t.sock = .live) (hsess : t.sess = .live) (hcancel : t.canceledAt = some test) :
    wp own cleanUp (Ends P) t := by
  have hkept : t.Kept := kept_of_sess (by simp [hsess])
  unfold cleanUp
  apply wp_next (fun t => t.sock = .live ∧ t.sess = .live ∧ t.canceledAt = some test) hkept
    (by exact ⟨hsock, hsess⟩) (by exact fun _ => ⟨hsock, hsess, hcancel⟩)
  rintro _ t ⟨hsock, hsess, hcancel⟩
  apply wp_next (fun t => t.sock = .live ∧ t.sess = .freed ∧ t.canceledAt = some test)
    (kept_of_sess (by simp [hsess])) (by exact ⟨hsock, hsess⟩)
    (by exact fun _ => ⟨hsock, rfl, hcancel⟩)
  rintro _ t ⟨hsock, hsess, hcancel⟩
  apply wp_call_bind (fun _ => ⟨test, hcancel, hfrees⟩) (by exact hsock)
  intro _
  apply ends_of_left (by decide)
  simp only [Held.call, Held.Left, hcancel]
  cases test <;> simp_all [Test.frees]

/-- The server has let the user in. -/
def Held.In (t : Held) : Prop := t.Has .live .live ∧ t.authenticated = true

theorem wp_authDone {t : Held} (h : t.Has .live .live) :
    wp own authDone (Ends Held.In) t := by
  unfold authDone
  apply wp_call_bind (h.kept (by decide)) (by exact ⟨h.1, h.2.1⟩)
  intro ret
  rw [wp_ite]
  split
  · rename_i hret
    apply wp_call_bind (kept_of_sess (by simp [Held.call, h.2.1])) (by trivial)
    intro _
    exact ⟨h.1, h.2.1, by simp [Held.call, hret], rfl, h.2.2⟩
  · rename_i hret
    apply wp_test (kept_of_sess (by simp [Held.call, h.2.1]))
    · exact wp_cleanUp rfl h.1 h.2.1 rfl
    · exact ⟨h, by simp [Held.call, hret]⟩

theorem wp_authPassword (conn : Info) {t : Held} (h : t.Has .live .live) :
    wp own (authPassword conn) (Ends Held.In) t := by
  unfold authPassword
  apply wp_test (h.kept (by decide))
  · exact wp_cleanUp rfl h.1 h.2.1 rfl
  apply wp_next (fun t => t.Has .live .live) (h.kept (by decide)) (by exact ⟨h.1, h.2.1⟩)
    (by exact fun _ => h)
  intro ret t h
  have htried {t : Held} (h : t.Has .live .live) :
      wp own (call (.userCanceled .sshAuthTried) >>= fun canceled : Bool =>
        if canceled = true then cleanUp else authDone) (Ends Held.In) t := by
    apply wp_test (h.kept (by decide))
    · exact wp_cleanUp rfl h.1 h.2.1 rfl
    · exact wp_authDone h
  rw [wp_ite]
  split
  · apply wp_next (fun t => t.Has .live .live) (h.kept (by decide)) (by exact ⟨h.1, h.2.1⟩)
      (by exact fun _ => h)
    intro _ t h
    exact htried h
  · exact htried h

theorem wp_sshAuth (conn : Info) {t : Held} (h : t.Has .live .live) :
    wp own (sshAuth conn) (Ends Held.In) t := by
  unfold sshAuth
  apply wp_next (fun t => t.Has .live .live) (h.kept (by decide)) (by exact ⟨h.1, h.2.1⟩)
    (by exact fun _ => h)
  intro _ t h
  apply wp_next (fun t => t.Has .live .live) (h.kept (by decide)) (by exact ⟨h.1, h.2.1⟩)
    (by exact fun _ => h)
  intro ret t h
  rw [wp_ite]
  split
  · exact wp_authDone h
  rw [wp_ite]
  split
  · exact wp_authPassword conn h
  apply wp_test (h.kept (by decide))
  · exact wp_cleanUp rfl h.1 h.2.1 rfl
  apply wp_next (fun t => t.Has .live .live) (h.kept (by decide)) (by trivial) (by exact fun _ => h)
  intro isPrivKey t h
  apply wp_next (fun t => t.Has .live .live) (h.kept (by decide)) (by exact ⟨h.1, h.2.1⟩)
    (by exact fun _ => h)
  intro ret t h
  rw [wp_ite]
  split
  · exact wp_authPassword conn h
  · exact wp_authDone h

theorem wp_sshHomePath {t : Held} (h : t.In) :
    wp own sshHomePath (Ends fun t => t.In ∧ t.homePath.isSome) t := by
  unfold sshHomePath
  apply wp_call_bind (h.1.kept (by decide)) (by exact ⟨h.1.1, h.1.2.1⟩)
  intro sftp
  cases sftp with
  | false =>
    rw [Bool.not_false, if_pos rfl]
    apply wp_next Held.In (kept_of_sess (by simp [Held.call, h.1.2.1]))
      (by exact ⟨h.1.1, h.1.2.1⟩) (by exact fun _ => h)
    intro emsg t h
    apply wp_call_bind (h.1.kept (by decide)) (by trivial)
    intro _
    exact ⟨h.1.1, h.1.2.1, h.2, rfl, h.1.2.2⟩
  | true =>
    rw [Bool.not_true, if_neg (by simp)]
    apply wp_next (fun t => t.In ∧ t.sftp = .live) (kept_of_sess (by simp [Held.call, h.1.2.1]))
      (by exact ⟨h.1.1, h.1.2.1, rfl⟩) (by exact fun _ => ⟨h, rfl⟩)
    intro homePath t h
    have hkept := h.1.1.kept (by decide)
    rw [wp_bind, wp_assert]
    split
    swap
    · exact own_ok_none.mpr hkept
    rw [wp_bind, wp_assert]
    split
    swap
    · exact own_ok_none.mpr hkept
    apply wp_next (fun t => (t.In ∧ t.homePath.isSome) ∧ t.sftp = .live) hkept (by trivial)
      (by exact fun _ => ⟨⟨h.1, rfl⟩, h.2⟩)
    intro _ t h
    apply wp_next (fun t => t.In ∧ t.homePath.isSome) (h.1.1.1.kept (by decide))
      (by exact ⟨h.1.1.1.1, h.1.1.1.2.1, h.2⟩) (by exact fun _ => h.1)
    intro _ t h
    apply wp_test (h.1.1.kept (by decide))
    · exact wp_cleanUp rfl h.1.1.1 h.1.1.2.1 rfl
    · exact h

/-- The channel is one or `NULL`. -/
def Held.OnChannel (t : Held) : Prop :=
  (t.In ∧ t.homePath.isSome) ∧ (t.channel = .live ∨ t.channel = .null) ∧ t.tested = false

theorem Held.OnChannel.ready {t : Held} (h : t.OnChannel) :
    t.sock = .live ∧ t.sess = .live ∧ (t.channel = .live ∨ t.channel = .null) :=
  ⟨h.1.1.1.1, h.1.1.1.2.1, h.2.1⟩

theorem wp_onChannel {α : Type} {o : Call} {f : Ans o → Program α} {Q : α → Held → Prop}
    {t : Held} (h : t.OnChannel) (hready : t.Ready o)
    (hcall : ∀ a, t.call o a = { t with tested := false })
    (hf : ∀ t : Held, t.OnChannel → ∀ a, wp own (f a) Q t) : wp own (call o >>= f) Q t := by
  apply wp_next Held.OnChannel (h.1.1.1.kept (by decide)) hready
  · intro a
    rw [hcall a]
    exact ⟨h.1, h.2.1, rfl⟩
  · intro a t h
    exact hf t h a

theorem wp_getServerEnvVars (cmd : String) {t : Held} (h : t.In ∧ t.homePath.isSome) :
    wp own (getServerEnvVars cmd) (fun _ t => t.In ∧ t.homePath.isSome) t := by
  unfold getServerEnvVars
  apply wp_call_bind (h.1.1.kept (by decide)) (by exact ⟨h.1.1.1, h.1.1.2.1⟩)
  intro channel
  have h : (t.call .channelOpen channel).OnChannel := by
    refine ⟨h, ?_, rfl⟩
    cases channel with
    | false => exact .inr rfl
    | true => exact .inl rfl
  generalize t.call .channelOpen channel = t at h
  apply wp_onChannel h (by exact h.ready) (by exact fun _ => rfl)
  intro t h _
  apply wp_onChannel h (by exact h.ready) (by exact fun _ => rfl)
  intro t h _
  apply wp_onChannel h (by exact h.ready) (by exact fun _ => rfl)
  intro t h _
  apply wp_onChannel h (by exact h.ready) (by exact fun _ => rfl)
  intro t h _
  rw [wp_bind]
  apply wp_callWhile (h.1.1.1.kept (by decide)) (by exact h.ready)
  · intro _
    change { t with tested := false } = t
    rw [← h.2.2]
  intro got last
  apply wp_onChannel h (by exact h.ready) (by exact fun _ => rfl)
  intro t h _
  apply wp_call_bind (h.1.1.1.kept (by decide)) (by exact h.ready)
  intro _
  exact h.1

/-! ## The run -/

theorem wp_connect (codecForName : List UInt8 → Option QString) (conn : Info) :
    wp own (connect codecForName conn) (Ends fun t => t.Left .ok ∧ t.tested = true) {} := by
  unfold connect
  apply wp_unless (wp_initSocket conn ⟨rfl, rfl, rfl⟩)
  intro t h
  apply wp_test (h.kept (by decide))
  · exact ⟨h.1, h.2.1⟩
  apply wp_unless (wp_initSSHSession h)
  intro t h
  apply wp_test (h.kept (by decide))
  · exact ⟨h.1, h.2.1⟩
  apply wp_unless (wp_sshAuth conn h)
  rintro t ⟨h, hauth⟩
  apply wp_next (fun t => t.In) (h.kept (by decide)) (by trivial) (by exact fun _ => ⟨h, hauth⟩)
  rintro _ t h
  apply wp_next (fun t => t.In) (h.1.kept (by decide)) (by exact ⟨h.1.1, h.1.2.1⟩)
    (by exact fun _ => h)
  intro _ t h
  apply wp_unless (wp_sshHomePath h)
  intro t h
  apply wp_test (h.1.1.kept (by decide))
  · exact ⟨h.1.1.1, h.1.1.2.1⟩
  rw [wp_bind]
  refine wp_mono (wp_getServerEnvVars "env" (t := { t with tested := true }) h) ?_
  intro envs t h
  apply wp_next (fun t => t.In ∧ t.homePath.isSome) (h.1.1.kept (by decide)) (by trivial)
    (by exact fun _ => h)
  intro _ t h
  rw [wp_bind]
  refine wp_mono (wp_getServerEnvVars "uname -a" h) ?_
  intro _ t h
  apply wp_test (h.1.1.kept (by decide))
  · exact ⟨h.1.1.1, h.1.1.2.1⟩
  · exact ⟨⟨h.1.1.1, h.1.1.2.1, h.1.2, h.2, h.1.1.2.2⟩, rfl⟩

end NullFxp.SSHConnection
