import NullFxp.LibFtp.Codes

/-!
# Logging in against any server

The server answers each command of a login with a reply, in any packets, or not at all.
-/

open Text

namespace NullFxp.LibFtp

/-! ## Servers -/

/-- A reply, the waits that time out before it, and its packets. -/
structure Answer where
  reply : Reply
  waits : Nat
  packets : List Arrival
  waits_le : waits ≤ 4
  no_timeout : .timeout ∉ packets
  delivers : delivered packets = reply.bytes

def Answer.arrivals (a : Answer) : List Arrival := List.replicate a.waits .timeout ++ a.packets

/-- The answers to the commands of a login. Without one nothing comes until the reader gives up. -/
structure Server where
  auth : Option Answer
  user : Option Answer
  pass : Option Answer
  help : Option Answer
  pbsz : Option Answer
  prot : Option Answer

/-- The answer to a command, by its first letters. -/
def Server.answer (srv : Server) : Bytes → Option Answer
  | 65 :: _ => srv.auth
  | 85 :: _ => srv.user
  | 72 :: _ => srv.help
  | 80 :: 65 :: _ => srv.pass
  | 80 :: 66 :: _ => srv.pbsz
  | 80 :: 82 :: _ => srv.prot
  | _ => none

def Server.arrivals (srv : Server) (cmd : Bytes) : List Arrival :=
  (srv.answer cmd).elim [] Answer.arrivals

def Server.ctrl (srv : Server) : Ctrl Sock where
  bytesAvailable s := s.unread.length
  send cmd s := (true, { s with arrivals := s.arrivals ++ srv.arrivals cmd })
  readAll := readAll
  readyRead s :=
    match s.arrivals with
    | .data b more :: as => (some (s.unread ++ b :: more), ⟨[], as⟩)
    | .timeout :: as => (none, ⟨s.unread, as⟩)
    | [] => (none, s)

/-! ## One exchange -/

theorem readAll_answer (a : Answer) (h : a.reply.Readable) :
    readAll ⟨[], a.arrivals⟩ = some (a.reply.bytes, ⟨[], []⟩) := by
  have hfeed : feed [] (delivered a.packets) = some (.ended (a.reply.bytes.map latin1) []) := by
    rw [a.delivers]
    simpa using a.reply.feed_readable h []
  obtain ⟨⟨unread, arrivals⟩, rest, hs, harr, hsuf, hu⟩ :=
    readAllByEndSymbol_ended (n := 0 + a.waits) a.no_timeout [] hfeed
  obtain ⟨rfl, hrest⟩ := List.append_eq_nil_iff.mp hu
  -- a packet that is left would have bytes
  have hnil : rest = [] := by
    cases rest with
    | nil => rfl
    | cons p ps =>
      cases p with
      | data b more => simp [delivered, Arrival.bytes] at hrest
      | timeout => exact absurd (hsuf.subset (List.mem_cons_self ..)) a.no_timeout
  rw [hnil] at harr
  obtain rfl : arrivals = [] := harr
  rw [List.append_nil, toAscii_map_latin1] at hs
  rw [readAll, Answer.arrivals, readAllByEndSymbol_timeouts (by have := a.waits_le; omega), hs]

theorem readAll_nothing : readAll ⟨[], []⟩ = some ([], ⟨[], []⟩) := rfl

def ballOf (a : Option Answer) : Bytes := a.elim [] fun a => a.reply.bytes

def Whole (a : Option Answer) : Prop := ∀ x ∈ a, x.reply.Readable

section

variable {srv : Server} {α : Type} {cmd : Bytes} {failed : α}
  {reply : Bytes → Ftp Sock → Option (α × Ftp Sock)} {ftp : Ftp Sock}

/-- **An exchange with nothing left to read** leaves nothing to read. -/
theorem exchange_ctrl (hq : ftp.sock = ⟨[], []⟩) (h : Whole (srv.answer cmd)) :
    exchange srv.ctrl cmd failed reply ftp = reply (ballOf (srv.answer cmd)) ftp := by
  have hread : readAll ⟨[], srv.arrivals cmd⟩ =
      some (ballOf (srv.answer cmd), ⟨[], []⟩) := by
    unfold Server.arrivals
    cases ha : srv.answer cmd with
    | none => exact readAll_nothing
    | some a => exact readAll_answer a (h a ha)
  have hftp : { ftp with sock := ⟨[], []⟩ } = ftp := by rw [← hq]
  simp only [exchange, Server.ctrl, hq, List.nil_append, if_true, hread, Option.bind_some, hftp]

theorem command_ctrl (hq : ftp.sock = ⟨[], []⟩) (h : Whole (srv.answer cmd)) :
    command srv.ctrl cmd failed reply ftp = reply (ballOf (srv.answer cmd)) ftp := by
  rw [command, if_pos (by rw [hq]; rfl), exchange_ctrl hq h]

end

/-! ## The commands of a login -/

theorem answer_auth (srv : Server) : srv.answer (toAscii "AUTH TLS\r\n".toList) = srv.auth := rfl

theorem answer_user (srv : Server) (user : QString) :
    srv.answer (toAscii (cmdLine "USER" user)) = srv.user := rfl

theorem answer_pass (srv : Server) (password : QString) :
    srv.answer (toAscii (cmdLine "PASS" password)) = srv.pass := rfl

theorem answer_help (srv : Server) : srv.answer (toAscii "HELP\r\n".toList) = srv.help := rfl

/-! ## The tests of a login -/

variable {a : Answer}

theorem closingWord_ballOf (h : a.reply.Readable) :
    closingWord (ballOf (some a)) = some (codeChars a.reply.code) := by
  change closingWord a.reply.bytes = _
  rw [← a.reply.received_of_readable h, a.reply.closingWord_received]

theorem codeChars_eq_iff {R : Reply} {code : Nat} (hcode : code ≤ 599) :
    codeChars R.code = codeChars code ↔ R.code = code :=
  ⟨codeChars_injective R.code_range.2 hcode, fun h => h ▸ rfl⟩

theorem authReply_ballOf (h : a.reply.Readable) :
    authReply (ballOf (some a)) = some (decide (a.reply.code = 234)) := by
  rw [authReply, closingWord_ballOf h, Option.map_some,
    show "234".toList = codeChars 234 by decide]
  simp only [codeChars_eq_iff (show 234 ≤ 599 by omega)]

theorem userReply_ballOf (h : a.reply.Readable) :
    userReply (ballOf (some a)) = some (decide (a.reply.code ≠ 230)) := by
  rw [userReply, closingWord_ballOf h, Option.map_some,
    show "230".toList = codeChars 230 by decide]
  simp only [ne_eq, codeChars_eq_iff (show 230 ≤ 599 by omega)]

theorem beforeCrlf_append {w : QString} (h : '\r' ∉ w) (t : QString) :
    beforeCrlf (w ++ t) = w ++ beforeCrlf t := by
  induction w with
  | nil => rfl
  | cons c w ih =>
    simp only [List.mem_cons, not_or] at h
    rw [List.cons_append, beforeCrlf, if_neg, ih h.2, List.cons_append]
    intro hp
    exact h.1 (List.cons_prefix_cons.mp hp).1

theorem Reply.bytes_eq_code_append (R : Reply) : ∃ rest, R.bytes = codeBytes R.code ++ rest := by
  rcases R.head_cases with ⟨-, -, hopen⟩ | ⟨first, -, -, -, hopen⟩
  · exact ⟨32 :: R.text ++ eol, by simp [bytes, hopen, lastLine]⟩
  · exact ⟨45 :: first ++ eol ++ R.middle.flatMap (· ++ eol) ++ R.lastLine ++ eol, by
      simp [bytes, hopen]⟩

theorem passReply_ballOf (h : a.reply.Readable) :
    passReply (ballOf (some a)) = decide (a.reply.code = 230) := by
  obtain ⟨rest, hrest⟩ := a.reply.bytes_eq_code_append
  have hcr : '\r' ∉ codeChars a.reply.code := not_mem_cr (isLine_codeBytes a.reply.code_range.2)
  have htext : beforeCrlf (fromLatin1 a.reply.bytes) =
      codeChars a.reply.code ++ beforeCrlf (rest.map latin1) := by
    rw [fromLatin1_of_not_mem h.1, hrest, List.map_append]
    exact beforeCrlf_append hcr _
  have hcode : codeChars 230 <+: codeChars a.reply.code ++ beforeCrlf (rest.map latin1) ↔
      a.reply.code = 230 := by
    constructor
    · intro hpre
      have := List.prefix_of_prefix_length_le hpre (List.prefix_append _ _) (by rfl)
      exact ((codeChars_eq_iff (by omega)).mp (this.eq_of_length rfl).symm)
    · intro hcode
      rw [hcode]
      exact List.prefix_append _ _
  change decide (a.reply.bytes = [] ∨ "230".toList <+: beforeCrlf (fromLatin1 a.reply.bytes)) = _
  rw [htext, show "230".toList = codeChars 230 by decide]
  simp only [a.reply.bytes_ne_nil, false_or, hcode]

theorem helpReply_ballOf (h : a.reply.Readable) :
    ∃ cmds, helpReply (ballOf (some a)) = some cmds := by
  have hword := closingWord_ballOf h
  obtain ⟨line, hline, -⟩ := Option.map_eq_some_iff.mp hword
  exact ⟨_, by rw [helpReply, hline]; rfl⟩

/-! ## The login -/

variable {srv : Server} {ftp : Ftp Sock} (user password : QString)

def Server.Accepts (srv : Server) : Prop :=
  ∃ u ∈ srv.user, u.reply.code = 230 ∨ ∃ p ∈ srv.pass, p.reply.code = 230

theorem getSupportedCmds_ctrl (hq : ftp.sock = ⟨[], []⟩) (hs : ftp.supportedCmds = [])
    (h : Whole srv.help) :
    (∃ r ftp', getSupportedCmds srv.ctrl ftp = some (r, ftp')) ↔ srv.help ≠ none := by
  unfold getSupportedCmds
  rw [command_ctrl hq (by rw [answer_help]; exact h), answer_help]
  cases hh : srv.help with
  | none => simp [show helpReply (ballOf none) = none by decide]
  | some b =>
    obtain ⟨cmds, hcmds⟩ := helpReply_ballOf (h b hh)
    simp [hcmds, hs]

theorem passReply_eq {pass : Option Answer} (h : Whole pass) :
    passReply (ballOf pass) = decide (∀ p ∈ pass, p.reply.code = 230) := by
  cases pass with
  | none => decide
  | some p => rw [passReply_ballOf (h p rfl)]; simp

theorem auth_ctrl (hq : ftp.sock = ⟨[], []⟩) (ha : Whole srv.auth) :
    auth srv.ctrl ftp = if srv.auth = none then none else some ftp := by
  unfold auth
  rw [command_ctrl hq (by rw [answer_auth]; exact ha), answer_auth]
  cases hauth : srv.auth with
  | none => simp [show authReply (ballOf none) = none by decide]
  | some x =>
    rw [authReply_ballOf (ha x hauth)]
    simp [Server.ctrl]

theorem credentials_ctrl (hq : ftp.sock = ⟨[], []⟩) (hu : Whole srv.user) (hp : Whole srv.pass) :
    credentials srv.ctrl user password ftp = srv.user.map fun u =>
      (decide (u.reply.code = 230 ∨ ∀ p ∈ srv.pass, p.reply.code = 230), ftp) := by
  unfold credentials
  rw [command_ctrl hq (by rw [answer_user]; exact hu), answer_user]
  cases huser : srv.user with
  | none => simp [show userReply (ballOf none) = none by decide]
  | some u =>
    simp only [userReply_ballOf (hu u huser), Option.bind_eq_bind, Option.bind_some, Option.map_some]
    rw [exchange_ctrl hq (by rw [answer_pass]; exact hp), answer_pass, passReply_eq hp]
    by_cases h : u.reply.code = 230 <;> simp [h]

theorem login_returns_zero (hq : ftp.sock = ⟨[], []⟩) (hs : ftp.supportedCmds = [])
    (ha : Whole srv.auth) (hu : Whole srv.user) (hp : Whole srv.pass) (hh : Whole srv.help) :
    (login srv.ctrl user password ftp).map Prod.fst = some 0 ↔
      srv.auth ≠ none ∧ srv.help ≠ none ∧
        ∃ u ∈ srv.user, u.reply.code = 230 ∨ ∀ p ∈ srv.pass, p.reply.code = 230 := by
  unfold login
  rw [auth_ctrl hq ha]
  cases hauth : srv.auth with
  | none => simp
  | some x =>
    simp only [reduceCtorEq, if_false, Option.bind_eq_bind, Option.bind_some]
    rw [credentials_ctrl user password hq hu hp]
    cases huser : srv.user with
    | none => simp
    | some u =>
      rw [Option.map_some, Option.bind_some]
      by_cases h : u.reply.code = 230 ∨ ∀ p ∈ srv.pass, p.reply.code = 230
      · have hcmds := getSupportedCmds_ctrl hq hs hh
        rw [decide_eq_true h]
        simp only [if_true]
        cases hc : getSupportedCmds srv.ctrl ftp with
        | none =>
          have hnone : srv.help = none := by
            by_contra hne
            obtain ⟨r, ftp', hsome⟩ := hcmds.mpr hne
            rw [hc] at hsome
            cases hsome
          simp [hnone]
        | some r =>
          have hsome : srv.help ≠ none := hcmds.mp ⟨r.1, r.2, hc⟩
          simpa [hsome] using h
      · rw [decide_eq_false h]
        refine iff_of_false (by simp) ?_
        rintro ⟨-, -, v, hv, hor⟩
        obtain rfl := Option.some.inj hv
        exact h hor

/-- The answers that the login reads with `readAll` are readable. -/
def Server.Readable (srv : Server) : Prop :=
  Whole srv.auth ∧ Whole srv.user ∧ Whole srv.pass ∧ Whole srv.help

/-- A `LibFtp` that has read the welcome. -/
def connectedFtp (codec : Codec) : Ftp Sock := { sock := ⟨[], []⟩, codec := codec }

/-- The reply "ddd " in one packet, without a wait. -/
def Answer.short (code : Nat) (h : 100 ≤ code ∧ code ≤ 599) : Answer where
  reply := .short code h
  waits := 0
  packets := [.data (UInt8.ofNat (48 + code / 100))
    [UInt8.ofNat (48 + code / 10 % 10), UInt8.ofNat (48 + code % 10), 32, 13, 10]]
  waits_le := by omega
  no_timeout := by simp
  delivers := rfl

def plainServer (pass : Option Answer) : Server where
  auth := some (.short 500 (by decide))
  user := some (.short 331 (by decide))
  pass := pass
  help := some (.short 214 (by decide))
  pbsz := none
  prot := none

theorem readable_plainServer {pass : Option Answer} (h : Whole pass) :
    (plainServer pass).Readable := by
  refine ⟨?_, ?_, h, ?_⟩ <;>
  · rintro _ ⟨⟩
    exact Reply.readable_short _ _

end NullFxp.LibFtp
