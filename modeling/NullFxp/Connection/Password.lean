import NullFxp.QMap
import NullFxp.Lib.Percent
import NullFxp.LibFtp.Tls

/-!
# The way of a password

From the line edit of the dialog through the host map and the connection to the server.
The host map holds it in percent encoding.
-/

open Text

namespace NullFxp.Connection

/-! ## The dialog -/

inductive Protocol where
  | sftp | ftp | ftpes | ftps
  deriving DecidableEq

def Protocol.name : Protocol → QString
  | .sftp => "SFTP".toList
  | .ftp => "FTP".toList
  | .ftpes => "FTPES".toList
  | .ftps => "FTPS".toList

/-- The fields of `QuickConnectInfoDialog`. -/
structure Dialog where
  showName : QString
  /-- the current item of `comboBox` -/
  protocol : Protocol
  /-- the host -/
  lineEdit : QString
  /-- the port -/
  lineEdit2 : QString
  /-- the user -/
  lineEdit3 : QString
  /-- the password -/
  lineEdit4 : QString
  pubkeyPath : QString

/-- `QString s = QUrl::toPercentEncoding(text)` -/
def toPercentEncoding (text : QString) : QString := fromLatin1 (Percent.encode text)

/-- `QUrl::fromPercentEncoding(text.toAscii())` -/
def fromPercentEncoding (text : QString) : QString := Percent.decode (toAscii text)

def getHostMap (d : Dialog) : QMap :=
  let host := QMap.empty
    |>.insert "show_name" d.showName
    |>.insert "protocol" d.protocol.name
    |>.insert "host_name" (trimmed d.lineEdit)
    |>.insert "user_name" (trimmed d.lineEdit3)
    |>.insert "password" (toPercentEncoding d.lineEdit4)
    |>.insert "port" (trimmed d.lineEdit2)
  if 0 < d.pubkeyPath.length then host.insert "pubkey" d.pubkeyPath else host

/-- The item for a protocol; `none` is a failed assert. -/
def protocolItem (protocol : QString) : Option Protocol :=
  [Protocol.ftps, .ftpes, .ftp, .sftp].find? fun p => p.name = protocol

def setActiveHost (host : QMap) : Option Dialog :=
  (protocolItem (host.value "protocol")).map fun protocol =>
    { showName := host.value "show_name"
      protocol := protocol
      lineEdit := host.value "host_name"
      lineEdit2 := host.value "port"
      lineEdit3 := host.value "user_name"
      lineEdit4 := fromPercentEncoding (host.value "password")
      pubkeyPath := host.value "pubkey" }

/-! ## The connection -/

structure Info where
  protocol : QString := []
  userName : QString := []
  password : QString := []
  hostName : QString := []
  port : Int := 0
  pubkey : QString := []

def toUShort (s : QString) : Int := toNumber 0 0xffff s

/-- `Connection::setHostInfo`, for a new connection -/
def setHostInfo (host : QMap) : Info where
  protocol := host.value "protocol"
  userName := host.value "user_name"
  password := host.value "password"
  hostName := host.value "host_name"
  port := toUShort (host.value "port")
  pubkey := if host.contains "pubkey" then host.value "pubkey" else []

/-! ## Authentication by SSH -/

/-- A text as a C function reads it from `toAscii().data()`. -/
def asciiData (s : QString) : List UInt8 := (toAscii s).takeWhile (· ≠ 0)

/-- `s.left(n)`: a negative `n` gives the whole text. -/
def left (s : QString) (n : Int) : QString := if n < 0 then s else s.take n.toNat

inductive AuthCall where
  | hostbasedFromfile (user pubkey privkey passphrase host : List UInt8)
  | publickeyFromfile (user : List UInt8) (pubkey : Option (List UInt8))
      (privkey passphrase : List UInt8)
  | password (user password : List UInt8)
  /-- `ssh2_password` is what the callback answers. -/
  | keyboardInteractive (user ssh2Password : List UInt8)
  deriving DecidableEq

/-- What the calls return, and whether the user had canceled before the second and the third. -/
structure AuthEnv where
  hostbased : Int
  isPrivatekey : Int
  publickey : Int
  password : Int
  canceledPublickey : Bool
  canceledPassword : Bool

def passwordAuth (env : AuthEnv) (conn : Info) : List AuthCall :=
  if env.canceledPassword then []
  else
    let user := asciiData conn.userName
    let password := asciiData (fromPercentEncoding conn.password)
    .password user password ::
      if env.password < 0 then [.keyboardInteractive user (password.take 60)] else []

/-- The calls of `SSHConnection::sshAuth`. -/
def sshAuth (env : AuthEnv) (conn : Info) : List AuthCall :=
  let user := asciiData conn.userName
  let pubkey := asciiData conn.pubkey
  let privkey := asciiData (left conn.pubkey (conn.pubkey.length - 4))
  let passphrase := asciiData (fromPercentEncoding conn.password)
  .hostbasedFromfile user pubkey privkey passphrase (asciiData conn.hostName) ::
    if 0 ≤ env.hostbased then []
    else if conn.pubkey = [] then passwordAuth env conn
    else if env.canceledPublickey then []
    else
      (if env.isPrivatekey < 0 then .publickeyFromfile user (some pubkey) privkey passphrase
        else .publickeyFromfile user none pubkey passphrase) ::
      if env.publickey < 0 then passwordAuth env conn else []

/-! ## What is sent -/

/-- The server is sent the text of the line edit. An empty FTP password stands for another one. -/
def SendsTyped (d : Dialog) : Prop :=
  let conn := setHostInfo (getHostMap d)
  match d.protocol with
  | .sftp => ∀ env user password, .password user password ∈ sshAuth env conn →
      password = toAscii d.lineEdit4
  | _ => d.lineEdit4 ≠ [] → ∀ (σ : Type) (io : LibFtp.Ctrl σ) (ftp : LibFtp.Ftp σ),
      ∀ w ∈ LibFtp.credentialWrites io conn.userName conn.password ftp,
        w.2 = LibFtp.userCmd conn.userName ∨ w.2 = toAscii (LibFtp.cmdLine "PASS" d.lineEdit4)

/-- SSH decodes the password, up to a NUL, and FTP does not decode it. -/
def Sendable (d : Dialog) : Prop :=
  match d.protocol with
  | .sftp => Char.ofNat 0 ∉ d.lineEdit4
  | _ => ∀ c ∈ d.lineEdit4, Percent.plain c = true

theorem setHostInfo_password (d : Dialog) :
    (setHostInfo (getHostMap d)).password = toPercentEncoding d.lineEdit4 := by
  unfold setHostInfo getHostMap
  simp only
  split <;> simp [QMap.value_insert]

theorem toAscii_toPercentEncoding (text : QString) :
    toAscii (toPercentEncoding text) = Percent.encode text := by
  rw [toPercentEncoding, fromLatin1_of_not_mem (Percent.zero_not_mem_encode text),
    toAscii_map_latin1]

theorem fromPercentEncoding_toPercentEncoding (text : QString) :
    fromPercentEncoding (toPercentEncoding text) = text := by
  rw [fromPercentEncoding, toAscii_toPercentEncoding, Percent.decode_encode]

/-- **The edit dialog shows the password that was typed**, whatever the other fields are. -/
theorem setActiveHost_getHostMap (d : Dialog) :
    (setActiveHost (getHostMap d)).map Dialog.lineEdit4 = some d.lineEdit4 := by
  have hprotocol : (getHostMap d).value "protocol" = d.protocol.name := by
    unfold getHostMap
    simp only
    split <;> simp [QMap.value_insert]
  have hitem : protocolItem d.protocol.name = some d.protocol := by
    cases d.protocol <;> decide
  have hpassword := setHostInfo_password d
  unfold setHostInfo at hpassword
  simp only at hpassword
  unfold setActiveHost
  rw [hprotocol, hitem, hpassword, fromPercentEncoding_toPercentEncoding]
  rfl

/-! ## SSH -/

theorem toAscii_latin {text : QString} (h : ∀ c ∈ text, c.toNat < 256) :
    toAscii text = text.map fun c => UInt8.ofNat c.toNat := by
  induction text with
  | nil => rfl
  | cons c text ih =>
    rw [List.forall_mem_cons] at h
    change charBytes c ++ toAscii text = _
    rw [ih h.2]
    simp [charBytes, h.1]

theorem asciiData_eq_iff {text : QString} (h : ∀ c ∈ text, c.toNat < 256) :
    asciiData text = toAscii text ↔ Char.ofNat 0 ∉ text := by
  have hzero : 0 ∈ toAscii text ↔ Char.ofNat 0 ∈ text := by
    rw [toAscii_latin h, List.mem_map]
    constructor
    · rintro ⟨c, hc, h0⟩
      have hnat := congrArg UInt8.toNat h0
      rw [UInt8.toNat_ofNat', Nat.mod_eq_of_lt (h c hc)] at hnat
      have hchar := congrArg Char.ofNat hnat
      rw [Char.ofNat_toNat] at hchar
      exact hchar ▸ hc
    · intro hmem
      exact ⟨_, hmem, rfl⟩
  rw [← hzero, asciiData, List.takeWhile_eq_self_iff]
  constructor
  · intro hall hmem
    exact absurd (hall 0 hmem) (by decide)
  · intro hnot b hb
    simpa using ne_of_mem_of_not_mem hb hnot

theorem password_mem_sshAuth {env : AuthEnv} {conn : Info} {user password : List UInt8}
    (h : .password user password ∈ sshAuth env conn) :
    password = asciiData (fromPercentEncoding conn.password) := by
  have hauth : .password user password ∈ passwordAuth env conn →
      password = asciiData (fromPercentEncoding conn.password) := by
    intro hmem
    unfold passwordAuth at hmem
    split at hmem
    · cases hmem
    · rcases List.mem_cons.mp hmem with heq | hmem
      · exact (AuthCall.password.inj heq).2
      · split at hmem <;> simp at hmem
  unfold sshAuth at h
  rcases List.mem_cons.mp h with heq | h
  · cases heq
  · split at h
    · cases h
    · split at h
      · exact hauth h
      · split at h
        · cases h
        · rcases List.mem_cons.mp h with heq | h
          · split at heq <;> cases heq
          · split at h
            · exact hauth h
            · cases h

/-- Host based and public key authentication fail. -/
def failing : AuthEnv where
  hostbased := -1
  isPrivatekey := -1
  publickey := -1
  password := 0
  canceledPublickey := false
  canceledPassword := false

theorem sshAuth_failing (conn : Info) :
    .password (asciiData conn.userName) (asciiData (fromPercentEncoding conn.password)) ∈
      sshAuth failing conn := by
  by_cases h : conn.pubkey = [] <;> simp [sshAuth, passwordAuth, failing, h]

/-! ## FTP -/

/-- A server without TLS that wants a password. -/
def askingServer : LibFtp.Ftp LibFtp.Script where
  sock := ⟨[], ["500 no\n", "331 password\n"].map fun s => toAscii s.toList⟩
  codec := ⟨fromLatin1, toAscii⟩

theorem passCmd_mem_asking (user password : QString) :
    ∃ w ∈ LibFtp.credentialWrites LibFtp.scripted user password askingServer,
      w.2 = LibFtp.passCmd password := by
  have huser : LibFtp.userReply (toAscii "331 password\n".toList) = some true := by decide
  refine ⟨(⟨[toAscii "AUTH TLS\r\n".toList, LibFtp.userCmd user], []⟩, LibFtp.passCmd password),
    ?_, rfl⟩
  change _ ∈ _ :: (if LibFtp.userReply (toAscii "331 password\n".toList) = some true then _ else _)
  rw [if_pos huser]
  exact List.mem_cons_of_mem _ (List.mem_singleton.mpr rfl)

theorem mem_credentialWrites {σ : Type} {io : LibFtp.Ctrl σ} {user password : QString}
    {ftp : LibFtp.Ftp σ} {w : σ × List UInt8}
    (h : w ∈ LibFtp.credentialWrites io user password ftp) :
    w.2 = LibFtp.userCmd user ∨ w.2 = LibFtp.passCmd password := by
  unfold LibFtp.credentialWrites at h
  split at h
  · cases h
  · split at h
    · rcases List.mem_cons.mp h with rfl | h
      · exact .inl rfl
      · split at h
        · cases h
        · split at h
          · cases h
          · split at h
            · rw [List.mem_singleton.mp h]
              exact .inr rfl
            · cases h
    · cases h

theorem userCmd_ne_pass (user password : QString) :
    toAscii (LibFtp.cmdLine "PASS" password) ≠ LibFtp.userCmd user := by
  intro h
  have hpass : (toAscii (LibFtp.cmdLine "PASS" password)).head? = some 80 := rfl
  have huser : (LibFtp.userCmd user).head? = some 85 := rfl
  rw [h, huser] at hpass
  exact absurd hpass (by decide)

theorem toAscii_cmdLine_inj (verb : String) {arg arg' : QString} :
    toAscii (LibFtp.cmdLine verb arg) = toAscii (LibFtp.cmdLine verb arg') ↔
      toAscii arg = toAscii arg' := by
  have hline : ∀ arg, toAscii (LibFtp.cmdLine verb arg) =
      toAscii verb.toList ++ 32 :: toAscii arg ++ toAscii crlf := by
    intro arg
    rw [LibFtp.cmdLine, toAscii_append, toAscii_append]
    rfl
  rw [hline, hline, List.append_left_inj, List.append_right_inj, List.cons.injEq]
  exact and_iff_right rfl

theorem encode_eq_toAscii_iff {text : QString} (h : ∀ c ∈ text, c.toNat < 256) :
    Percent.encode text = toAscii text ↔ ∀ c ∈ text, Percent.plain c = true := by
  rw [toAscii_latin h]
  constructor
  · intro heq
    apply (Percent.length_encode_eq_iff text).mp
    rw [heq, List.length_map]
  · exact Percent.encode_of_plain

theorem toPercentEncoding_eq_nil_iff (text : QString) : toPercentEncoding text = [] ↔ text = [] := by
  constructor
  · intro h
    have hlen := Percent.length_le_length_encode text
    rw [← toAscii_toPercentEncoding, h] at hlen
    exact List.length_eq_zero_iff.mp (Nat.le_zero.mp hlen)
  · rintro rfl
    rfl

/-- **The password typed is the password sent** for SSH if there is no NUL in it, and for FTP if
its percent encoding is the password itself. -/
theorem sends_typed_iff (d : Dialog) (hlatin : ∀ c ∈ d.lineEdit4, c.toNat < 256) :
    SendsTyped d ↔ Sendable d := by
  have hpassword := setHostInfo_password d
  have hftp : (d.lineEdit4 ≠ [] → ∀ (σ : Type) (io : LibFtp.Ctrl σ) (ftp : LibFtp.Ftp σ),
      ∀ w ∈ LibFtp.credentialWrites io (setHostInfo (getHostMap d)).userName
          (setHostInfo (getHostMap d)).password ftp,
        w.2 = LibFtp.userCmd (setHostInfo (getHostMap d)).userName ∨
          w.2 = toAscii (LibFtp.cmdLine "PASS" d.lineEdit4)) ↔
      ∀ c ∈ d.lineEdit4, Percent.plain c = true := by
    generalize (setHostInfo (getHostMap d)).userName = user
    rw [hpassword, ← encode_eq_toAscii_iff hlatin]
    by_cases hempty : d.lineEdit4 = []
    · simp [hempty, Percent.encode, Percent.utf8, toAscii]
    have hpass : LibFtp.passCmd (toPercentEncoding d.lineEdit4) =
        toAscii (LibFtp.cmdLine "PASS" (toPercentEncoding d.lineEdit4)) := by
      rw [LibFtp.passCmd, LibFtp.orFtp, if_neg]
      rwa [toPercentEncoding_eq_nil_iff]
    rw [← toAscii_toPercentEncoding, ← toAscii_cmdLine_inj "PASS", ← hpass]
    constructor
    · intro h
      obtain ⟨w, hw, hwpass⟩ := passCmd_mem_asking user (toPercentEncoding d.lineEdit4)
      rcases h hempty _ _ _ w hw with huser | hsent
      · rw [hwpass, hpass] at huser
        exact absurd huser (userCmd_ne_pass _ _)
      · rw [← hsent, hwpass]
    · intro h _ σ io ftp w hw
      rw [← h]
      exact mem_credentialWrites hw
  unfold SendsTyped Sendable
  cases d.protocol with
  | sftp =>
    simp only
    rw [← asciiData_eq_iff hlatin]
    have hdecoded : fromPercentEncoding (setHostInfo (getHostMap d)).password = d.lineEdit4 := by
      rw [hpassword, fromPercentEncoding_toPercentEncoding]
    constructor
    · intro h
      have hcall := h failing _ _ (sshAuth_failing (setHostInfo (getHostMap d)))
      rwa [hdecoded] at hcall
    · intro h env user password hcall
      rw [password_mem_sshAuth hcall, hdecoded, h]
  | ftp => exact hftp
  | ftpes => exact hftp
  | ftps => exact hftp

/-- The password `p@1` in the dialog. -/
def typed (protocol : Protocol) : Dialog where
  showName := []
  protocol := protocol
  lineEdit := "h".toList
  lineEdit2 := "21".toList
  lineEdit3 := "u".toList
  lineEdit4 := "p@1".toList
  pubkeyPath := []

theorem typed_latin (protocol : Protocol) : ∀ c ∈ (typed protocol).lineEdit4, c.toNat < 256 := by
  have hall : "p@1".toList.all (fun c => c.toNat < 256) = true := by decide
  exact fun c hc => of_decide_eq_true (List.all_eq_true.mp hall c hc)

theorem sends_typed_sftp : SendsTyped (typed .sftp) :=
  (sends_typed_iff (typed .sftp) (typed_latin .sftp)).mpr (by
    change Char.ofNat 0 ∉ "p@1".toList
    decide)

theorem sends_encoded_ftp :
    LibFtp.passCmd (setHostInfo (getHostMap (typed .ftp))).password =
      toAscii "PASS p%401\r\n".toList ∧
    ¬ SendsTyped (typed .ftp) := by
  -- FTP sends the encoding.
  refine ⟨by decide, fun h => ?_⟩
  have hplain := (sends_typed_iff (typed .ftp) (typed_latin .ftp)).mp h
  change ∀ c ∈ "p@1".toList, Percent.plain c = true at hplain
  exact absurd (hplain '@' (by decide)) (by decide)

end NullFxp.Connection
