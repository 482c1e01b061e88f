import NullFxp.LibFtp.Operations

/-!
# Credentials on an encrypted connection

`login` asks for TLS first. When the server agrees it starts the handshake, waits for its end, and
goes on with `USER` and `PASS` whatever the end was.
-/

open Text

namespace NullFxp.LibFtp

def userCmd (user : QString) : Bytes := toAscii (cmdLine "USER" (orFtp user))

def passCmd (password : QString) : Bytes := toAscii (cmdLine "PASS" (orFtp password))

/-! ## The writes of a login -/

section

variable {σ : Type} (io : Ctrl σ)

/-- The `USER` and `PASS` that `login` writes, with the socket as it is at the call of `write`.
They are written whether or not the login then gets to its end. -/
def credentialWrites (user password : QString) (ftp : Ftp σ) : List (σ × Bytes) :=
  match auth io ftp with
  | none => []
  | some ftp =>
    if io.bytesAvailable ftp.sock = 0 then
      (ftp.sock, userCmd user) ::
        match io.send (userCmd user) ftp.sock with
        | (false, _) => []
        | (true, sock) =>
          match io.readAll sock with
          | none => []
          | some (ball, sock) => if userReply ball = some true then [(sock, passCmd password)] else []
    else []

/-- `AUTH TLS` is written and answered with 234. `sock'` is the socket after the answer. -/
def Agreed (sock sock' : σ) : Prop :=
  io.bytesAvailable sock = 0 ∧ ∃ sock₁ ball,
    io.send (toAscii "AUTH TLS\r\n".toList) sock = (true, sock₁) ∧
    io.readAll sock₁ = some (ball, sock') ∧ authReply ball = some true

variable {io}

theorem auth_agreed {ftp : Ftp σ} {sock' : σ} (h : Agreed io ftp.sock sock') :
    auth io ftp = some { ftp with sock := io.startClientEncryption sock' } := by
  obtain ⟨hidle, sock₁, ball, hsend, hread, hreply⟩ := h
  unfold auth command exchange
  rw [if_pos hidle, hsend]
  simp only [if_true, hread, hreply, Option.map_some, Option.bind_eq_bind, Option.bind_some]

end

/-! ## A socket with a TLS layer -/

/-- The socket below, whether the layer encrypts, and what was written with and without it. -/
structure Tls (σ : Type) where
  sock : σ
  encrypted : Bool := false
  written : List (Bool × Bytes) := []

/-- `handshake` does `startClientEncryption` and says whether `waitForEncrypted` was successful.
An encrypted socket stays so. -/
def tls {σ : Type} (io : Ctrl σ) (handshake : σ → Bool × σ) : Ctrl (Tls σ) where
  bytesAvailable s := io.bytesAvailable s.sock
  send cmd s :=
    let (ok, sock) := io.send cmd s.sock
    (ok, { s with sock := sock, written := s.written ++ [(s.encrypted, cmd)] })
  readAll s := (io.readAll s.sock).map fun (ball, sock) => (ball, { s with sock := sock })
  readyRead s :=
    let (ball, sock) := io.readyRead s.sock
    (ball, { s with sock := sock })
  startClientEncryption s :=
    let (ok, sock) := handshake s.sock
    { s with sock := sock, encrypted := s.encrypted || ok }

section

variable {σ : Type} {io : Ctrl σ} {handshake : σ → Bool × σ}

@[simp]
theorem tls_bytesAvailable (s : Tls σ) :
    (tls io handshake).bytesAvailable s = io.bytesAvailable s.sock := rfl

@[simp]
theorem tls_send (cmd : Bytes) (s : Tls σ) : (tls io handshake).send cmd s =
    ((io.send cmd s.sock).1, { s with
      sock := (io.send cmd s.sock).2, written := s.written ++ [(s.encrypted, cmd)] }) := rfl

@[simp]
theorem tls_readAll (s : Tls σ) : (tls io handshake).readAll s =
    (io.readAll s.sock).map fun r => (r.1, { s with sock := r.2 }) := rfl

@[simp]
theorem tls_startClientEncryption (s : Tls σ) : (tls io handshake).startClientEncryption s =
    { s with sock := (handshake s.sock).2, encrypted := s.encrypted || (handshake s.sock).1 } := rfl

theorem agreed_tls (handshake : σ → Bool × σ) {s : Tls σ} {sock' : σ} (h : Agreed io s.sock sock') :
    Agreed (tls io handshake) s { s with
      sock := sock', written := s.written ++ [(s.encrypted, toAscii "AUTH TLS\r\n".toList)] } := by
  obtain ⟨hidle, sock₁, ball, hsend, hread, hreply⟩ := h
  refine ⟨hidle, { s with
    sock := sock₁, written := s.written ++ [(s.encrypted, toAscii "AUTH TLS\r\n".toList)] }, ball,
    ?_, ?_, hreply⟩
  · rw [tls_send, hsend]
  · rw [tls_readAll, hread]
    rfl

theorem credentialWrites_encrypted (user password : QString) {ftp ftp' : Ftp (Tls σ)}
    (hauth : auth (tls io handshake) ftp = some ftp') :
    ∀ w ∈ credentialWrites (tls io handshake) user password ftp,
      w.1.encrypted = ftp'.sock.encrypted := by
  intro w hw
  simp only [credentialWrites, hauth] at hw
  split at hw
  · rcases List.mem_cons.mp hw with rfl | hw
    · rfl
    · split at hw
      · exact absurd hw List.not_mem_nil
      · next sock hsend =>
        have hsock : sock.encrypted = ftp'.sock.encrypted := by
          rw [tls_send, Prod.mk.injEq] at hsend
          rw [← hsend.2]
        split at hw
        · exact absurd hw List.not_mem_nil
        · next ball sock' hread =>
          rw [tls_readAll, Option.map_eq_some_iff] at hread
          obtain ⟨r, -, hr⟩ := hread
          obtain rfl := (Prod.mk.inj hr).2
          split at hw
          · rw [List.mem_singleton.mp hw]
            exact hsock
          · exact absurd hw List.not_mem_nil
  · exact absurd hw List.not_mem_nil

/-! ## The log of a login -/

/-- The layer is as it was, and its log has grown by `ws`. -/
structure Wrote (s s' : Tls σ) (ws : List Bytes) : Prop where
  encrypted : s'.encrypted = s.encrypted
  written : s'.written = s.written ++ ws.map fun w => (s.encrypted, w)

theorem Wrote.trans {s₁ s₂ s₃ : Tls σ} {ws ws' : List Bytes} (h : Wrote s₁ s₂ ws)
    (h' : Wrote s₂ s₃ ws') : Wrote s₁ s₃ (ws ++ ws') := by
  refine ⟨h'.encrypted.trans h.encrypted, ?_⟩
  rw [h'.written, h.written, h.encrypted, List.map_append, List.append_assoc]

theorem exchange_tls {α : Type} {cmd : Bytes} {failed : α}
    {reply : Bytes → Ftp (Tls σ) → Option (α × Ftp (Tls σ))} {ftp ftp' : Ftp (Tls σ)} {a : α}
    (h : exchange (tls io handshake) cmd failed reply ftp = some (a, ftp')) :
    ∃ ftp₁, Wrote ftp.sock ftp₁.sock [cmd] ∧
      (ftp₁ = ftp' ∧ (io.send cmd ftp.sock.sock).1 = false ∨
        ∃ ball, (io.send cmd ftp.sock.sock).1 = true ∧
          (tls io handshake).readAll ((tls io handshake).send cmd ftp.sock).2 =
            some (ball, ftp₁.sock) ∧ reply ball ftp₁ = some (a, ftp')) := by
  unfold exchange at h
  rw [tls_send] at h
  simp only at h
  split at h
  · next hsent =>
    rw [tls_readAll, Option.bind_map, Option.bind_eq_some_iff] at h
    obtain ⟨r, hr, h⟩ := h
    refine ⟨{ ftp with sock := { ftp.sock with
      sock := r.2, written := ftp.sock.written ++ [(ftp.sock.encrypted, cmd)] } }, ⟨rfl, rfl⟩,
      .inr ⟨r.1, hsent, ?_, h⟩⟩
    rw [tls_send, tls_readAll, hr]
    rfl
  · next hsent =>
    obtain ⟨-, rfl⟩ := Prod.mk.inj (Option.some.inj h)
    refine ⟨{ ftp with sock := { ftp.sock with
      sock := (io.send cmd ftp.sock.sock).2, written := ftp.sock.written ++ [(ftp.sock.encrypted, cmd)] } },
      ⟨rfl, rfl⟩, .inl ⟨rfl, ?_⟩⟩
    simpa using hsent

theorem exchange_wrote {α : Type} {cmd : Bytes} {failed : α}
    {reply : Bytes → Ftp (Tls σ) → Option (α × Ftp (Tls σ))} {ftp : Ftp (Tls σ)} {r : α × Ftp (Tls σ)}
    (hreply : ∀ ball ftp r, reply ball ftp = some r → r.2 = ftp)
    (h : exchange (tls io handshake) cmd failed reply ftp = some r) :
    Wrote ftp.sock r.2.sock [cmd] := by
  obtain ⟨ftp₁, hwrote, ⟨rfl, -⟩ | ⟨ball, -, -, hrest⟩⟩ := exchange_tls h
  · exact hwrote
  · rw [hreply ball ftp₁ _ hrest]
    exact hwrote

theorem snd_of_map {α β γ : Type} {x : Option β} {f : β → α} {c : γ} {r : α × γ}
    (h : x.map (fun b => (f b, c)) = some r) : r.2 = c := by
  obtain ⟨b, -, rfl⟩ := Option.map_eq_some_iff.mp h
  rfl

theorem command_eq_some {α : Type} {cmd : Bytes} {failed : α}
    {reply : Bytes → Ftp σ → Option (α × Ftp σ)} {ftp : Ftp σ} {r : α × Ftp σ}
    (h : command io cmd failed reply ftp = some r) :
    io.bytesAvailable ftp.sock = 0 ∧ exchange io cmd failed reply ftp = some r := by
  unfold command at h
  split at h
  · next hidle => exact ⟨hidle, h⟩
  · cases h

theorem credentials_tls {user password : QString} {ftp ftp₁ ftp' : Ftp (Tls σ)} {goOn : Bool}
    (hauth : auth (tls io handshake) ftp = some ftp₁)
    (h : credentials (tls io handshake) user password ftp₁ = some (goOn, ftp')) :
    Wrote ftp₁.sock ftp'.sock
      ((credentialWrites (tls io handshake) user password ftp).map Prod.snd) := by
  unfold credentials at h
  obtain ⟨hidle, h⟩ := command_eq_some h
  obtain ⟨ftp₂, hwrote, h⟩ := exchange_tls h
  simp only [credentialWrites, hauth, if_pos hidle]
  rcases h with ⟨rfl, hsent⟩ | ⟨ball, hsent, hread, h⟩
  · rw [tls_send, show io.send (userCmd user) ftp₁.sock.sock = (false, _) from Prod.ext hsent rfl]
    exact hwrote
  · have hsend : (tls io handshake).send (userCmd user) ftp₁.sock = (true, _) := Prod.ext hsent rfl
    rw [hsend]
    simp only
    rw [show (tls io handshake).readAll ((tls io handshake).send (userCmd user) ftp₁.sock).2 = _
      from hread]
    simp only [Option.bind_eq_bind, Option.bind_eq_some_iff] at h ⊢
    obtain ⟨needPassword, huser, h⟩ := h
    rw [huser]
    cases needPassword with
    | true =>
      rw [if_pos rfl] at h
      refine hwrote.trans (exchange_wrote (fun ball ftp r hr => ?_) h)
      rw [← Option.some.inj hr]
    | false =>
      obtain ⟨-, rfl⟩ := Prod.mk.inj (Option.some.inj h)
      exact hwrote

theorem auth_tls {ftp ftp' : Ftp (Tls σ)} (h : auth (tls io handshake) ftp = some ftp') :
    ftp'.sock.written = ftp.sock.written ++ [(ftp.sock.encrypted, toAscii "AUTH TLS\r\n".toList)] := by
  unfold auth at h
  rw [Option.bind_eq_bind, Option.bind_eq_some_iff] at h
  obtain ⟨⟨agreed, ftp₁⟩, hcmd, h⟩ := h
  have hwrote := exchange_wrote (fun _ _ _ => snd_of_map) (command_eq_some hcmd).2
  rw [← Option.some.inj h]
  cases agreed with
  | true => exact hwrote.written
  | false => exact hwrote.written

theorem getSupportedCmds_tls {ftp ftp' : Ftp (Tls σ)} {r : Int}
    (h : getSupportedCmds (tls io handshake) ftp = some (r, ftp')) :
    Wrote ftp.sock ftp'.sock [toAscii "HELP\r\n".toList] := by
  unfold getSupportedCmds at h
  rw [Option.bind_eq_bind, Option.bind_eq_some_iff] at h
  obtain ⟨⟨cmds, ftp₁⟩, hcmd, h⟩ := h
  have hwrote := exchange_wrote (fun _ _ _ => snd_of_map) (command_eq_some hcmd).2
  simp only at h
  split at h
  · rw [← (Prod.mk.inj (Option.some.inj h)).2]
    exact hwrote
  · cases h

variable (io handshake)

theorem wrote_send (cmd : Bytes) (s : Tls σ) :
    Wrote s ((tls io handshake).send cmd s).2 [cmd] := ⟨rfl, rfl⟩

theorem wrote_readyRead (s : Tls σ) : Wrote s ((tls io handshake).readyRead s).2 [] :=
  ⟨rfl, (List.append_nil s.written).symm⟩

theorem protect_tls (ftp : Ftp (Tls σ)) :
    ∃ ws, Wrote ftp.sock (protect (tls io handshake) ftp).sock ws ∧
      ∀ w ∈ ws, w = toAscii "PBSZ 0\r\n".toList ∨ w = toAscii "PROT P\r\n".toList := by
  unfold protect
  obtain ⟨written, sock, hsend, hwrote⟩ : ∃ written sock,
      (tls io handshake).send (toAscii "PBSZ 0\r\n".toList) ftp.sock = (written, sock) ∧
        Wrote ftp.sock sock [toAscii "PBSZ 0\r\n".toList] :=
    ⟨_, _, rfl, wrote_send io handshake _ _⟩
  rw [hsend]
  simp only
  generalize hpbsz : (if written = true then _ else _ : Ftp (Tls σ)) = ftp₁
  replace hwrote : Wrote ftp.sock ftp₁.sock [toAscii "PBSZ 0\r\n".toList] := by
    have hread := hwrote.trans (wrote_readyRead io handshake sock)
    rw [← hpbsz]
    split
    · split
      · next heq =>
        rw [heq] at hread
        exact hread
      · next heq =>
        rw [heq] at hread
        exact hread
    · exact hwrote
  split
  · have hprot := wrote_send io handshake (toAscii "PROT P\r\n".toList) ftp₁.sock
    refine ⟨[toAscii "PBSZ 0\r\n".toList] ++ [toAscii "PROT P\r\n".toList], hwrote.trans ?_, by simp⟩
    simp only
    split
    · exact hprot.trans (wrote_readyRead io handshake _)
    · exact hprot
  · exact ⟨_, hwrote, by simp⟩

variable {io handshake}

/-- **The log of a login that gets to its end** has `AUTH`, the `USER` and `PASS` of
`credentialWrites`, and nothing else that tells who logs in. -/
theorem login_written {user password : QString} {ftp ftp' : Ftp (Tls σ)} {r : Int}
    (h : login (tls io handshake) user password ftp = some (r, ftp')) :
    ∃ rest, ftp'.sock.written = ftp.sock.written ++
        (ftp.sock.encrypted, toAscii "AUTH TLS\r\n".toList) ::
        ((credentialWrites (tls io handshake) user password ftp).map fun w => (w.1.encrypted, w.2)) ++
        rest ∧
      ∀ w ∈ rest, w.2 = toAscii "HELP\r\n".toList ∨ w.2 = toAscii "PBSZ 0\r\n".toList ∨
        w.2 = toAscii "PROT P\r\n".toList := by
  unfold login at h
  simp only [Option.bind_eq_bind, Option.bind_eq_some_iff] at h
  obtain ⟨ftp₁, hauth, ⟨goOn, ftp₂⟩, hcred, h⟩ := h
  have hstart : ftp₂.sock.written = ftp.sock.written ++
      (ftp.sock.encrypted, toAscii "AUTH TLS\r\n".toList) ::
      (credentialWrites (tls io handshake) user password ftp).map fun w => (w.1.encrypted, w.2) := by
    rw [(credentials_tls hauth hcred).written, auth_tls hauth, List.append_assoc,
      List.singleton_append, List.map_map]
    congr 2
    apply List.map_congr_left
    intro w hw
    rw [credentialWrites_encrypted user password hauth w hw]
    rfl
  cases goOn with
  | false =>
    rw [← (Prod.mk.inj (Option.some.inj h)).2]
    exact ⟨[], by rw [hstart, List.append_nil], by simp⟩
  | true =>
    simp only [if_true, Option.bind_eq_some_iff] at h
    obtain ⟨⟨n, ftp₃⟩, hhelp, h⟩ := h
    obtain ⟨ws, hprotect, hws⟩ := protect_tls io handshake ftp₃
    have hend := (getSupportedCmds_tls hhelp).trans hprotect
    rw [(Prod.mk.inj (Option.some.inj h)).2] at hend
    refine ⟨_, by rw [hend.written, hstart], ?_⟩
    intro w hw
    obtain ⟨cmd, hcmd, rfl⟩ := List.mem_map.mp hw
    rcases List.mem_append.mp hcmd with hcmd | hcmd
    · exact .inl (List.mem_singleton.mp hcmd)
    · exact .inr (hws cmd hcmd)

/-- **Credentials are encrypted once TLS was agreed**, just when the handshake is successful, or
leaves bytes to read, with which the assertion ends the login. -/
theorem credentials_encrypted_iff (io : Ctrl σ) (handshake : σ → Bool × σ) (user password : QString)
    (ftp : Ftp (Tls σ)) (hplain : ftp.sock.encrypted = false) (sock' : σ)
    (hagreed : Agreed io ftp.sock.sock sock') :
    (∀ w ∈ credentialWrites (tls io handshake) user password ftp, w.1.encrypted = true) ↔
      (handshake sock').1 = true ∨ io.bytesAvailable (handshake sock').2 ≠ 0 := by
  have hauth := auth_agreed (agreed_tls handshake hagreed)
  have hsame := credentialWrites_encrypted user password hauth
  simp only [tls_startClientEncryption, hplain, Bool.false_or] at hsame
  by_cases hidle : io.bytesAvailable (handshake sock').2 = 0
  · have huser : ∃ w, w ∈ credentialWrites (tls io handshake) user password ftp := by
      simp only [credentialWrites, hauth]
      split
      · exact ⟨_, List.mem_cons_self⟩
      · next h => exact absurd hidle h
    obtain ⟨w, hw⟩ := huser
    constructor
    · intro h
      rw [← hsame w hw]
      exact .inl (h w hw)
    · rintro (h | h) v hv
      · rw [hsame v hv, h]
      · exact absurd hidle h
  · have hnone : credentialWrites (tls io handshake) user password ftp = [] := by
      simp only [credentialWrites, hauth]
      split
      · next h => exact absurd h hidle
      · rfl
    simp [hnone, hidle]

end

/-- A server that agrees to TLS and wants a password. -/
def tlsServer : Ftp (Tls Script) where
  sock := ⟨⟨[], ["234 ok\n", "331 password\n", "230 welcome\n", "214 help\n"].map fun s =>
    toAscii s.toList⟩, false, []⟩
  codec := ⟨fromLatin1, toAscii⟩

theorem agreed_tlsServer : Agreed scripted tlsServer.sock.sock
    ⟨[toAscii "AUTH TLS\r\n".toList], tlsServer.sock.sock.answers.tail⟩ :=
  ⟨rfl, _, _, rfl, rfl, by decide⟩

theorem credentials_encrypted_established :
    (credentialWrites (tls scripted fun s => (true, s)) ['a'] ['b'] tlsServer).length = 2 ∧
    ∀ w ∈ credentialWrites (tls scripted fun s => (true, s)) ['a'] ['b'] tlsServer,
      w.1.encrypted = true :=
  ⟨by decide, (credentials_encrypted_iff scripted (fun s => (true, s)) ['a'] ['b'] tlsServer rfl _
    agreed_tlsServer).mpr (.inl rfl)⟩

theorem credentials_in_clear :
    Agreed scripted tlsServer.sock.sock
      ⟨[toAscii "AUTH TLS\r\n".toList], tlsServer.sock.sock.answers.tail⟩ ∧
    (credentialWrites (tls scripted fun s => (false, s)) ['a'] ['b'] tlsServer).map
      (fun w => (w.1.encrypted, w.2)) =
        [(false, toAscii "USER a\r\n".toList), (false, toAscii "PASS b\r\n".toList)] ∧
    ¬ ∀ w ∈ credentialWrites (tls scripted fun s => (false, s)) ['a'] ['b'] tlsServer,
      w.1.encrypted = true := by
  -- `waitForEncrypted` runs into its timeout, and the password is written in clear.
  refine ⟨agreed_tlsServer, by decide, fun h => ?_⟩
  have hclear := (credentials_encrypted_iff scripted (fun s => (false, s)) ['a'] ['b'] tlsServer rfl _
    agreed_tlsServer).mp h
  simp [scripted] at hclear

end NullFxp.LibFtp
