import NullFxp.Connection.Password
import NullFxp.Lib.Calls

/-!
# A connection over SSH

`connect` runs in the thread of the connector. Meanwhile the user cancels and the timer of the
connection pings.
-/

open Text Calls

namespace NullFxp.SSHConnection

open Connection

/-! ## The calls -/

/-- `CONN_OK`, `CONN_REFUSE`, ..., in the order of the enum -/
inductive Status where
  | ok
  | refuse
  | cancel
  | other
  | resolveError
  | sessError
  | authError
  | sftpError
  | execError
  | protocolVersionNotMatchError
  deriving DecidableEq

/-- Where `user_canceled` is read. -/
inductive Test where
  | initSocketResolved
  | initSocketConnected
  | connectSocket
  | connectSession
  | sshAuthPublickey
  | sshAuthPassword
  | sshAuthTried
  | sshAuthDone
  | sshHomePath
  | connectHome
  | connectEnvs
  deriving DecidableEq

inductive Call where
  | userCanceled (test : Test)
  | hostAddressIsNull (hostName : QString)
  | hostInfo (hostName : QString)
  | socket
  | select
  | strerror
  | soError
  | piClose
  | sessionInit
  | sessionStartup
  | lastError
  | userauthList (user : List UInt8)
  | isPrivatekey (privkey passphrase : List UInt8)
  | userauth (request : AuthCall)
  | authenticated
  | sessionDisconnect
  | sessionFree
  | sessionMethods
  | sftpInit
  | realpath
  | sftpShutdown
  | channelOpen
  | channelShell
  | channelWrite (bytes : List UInt8)
  | channelSendEof
  | channelRead
  | channelClose
  | channelFree
  | setConnected
  | setHomePath (path : QString)
  | setCodec (codec : Option QString)
  | setErrorString (msg : QString)
  | deleteConnection
  | setConnection
  deriving DecidableEq

/-- What a call gives back. -/
abbrev Ans : Call → Type
  | .userCanceled _ => Bool
  | .hostAddressIsNull _ => Bool
  -- the error with its text, if there is one
  | .hostInfo _ => Option (Int × QString)
  | .socket => Int
  | .select => Int
  | .strerror => Int × QString
  | .soError => Int × QString
  -- whether it is a pointer that is not `NULL`
  | .sessionInit => Bool
  | .sessionStartup => Int
  | .lastError => Option QString
  | .isPrivatekey _ _ => Int
  | .userauth _ => Int
  | .authenticated => Int
  | .sftpInit => Bool
  | .realpath => Int × List UInt8
  | .channelOpen => Bool
  | .channelRead => Int × List UInt8
  | _ => Unit

abbrev Program := Prog Ans

def call (o : Call) : Program (Ans o) := ask o

def callWhile (o : Call) (more : Ans o → Bool) : Program (List (Ans o) × Ans o) :=
  askWhile o more

/-! ## initSocket -/

/-- `tr("Resoving host faild: (%1),%2")` -/
def resolveFailed (error : Int × QString) : QString :=
  "Resoving host faild: (".toList ++ (toString error.1).toList ++ "),".toList ++ error.2

/-- `tr("Connect faild : (%1),%2 ")` -/
def connectFailed (error : Int × QString) : QString :=
  "Connect faild : (".toList ++ (toString error.1).toList ++ "),".toList ++ error.2 ++ [' ']

def resolve (conn : Info) : Program Status := do
  if ← call (.hostAddressIsNull conn.hostName) then
    let error : Option (Int × QString) ← call (.hostInfo conn.hostName)
    match error with
    | some error =>
      call (.setErrorString (resolveFailed error))
      return .resolveError
    | none => return .ok
  else return .ok

def initSocket (conn : Info) : Program Status := do
  let ret ← resolve conn
  if ret ≠ .ok then return ret
  if ← call (.userCanceled .initSocketResolved) then return .cancel
  let sock ← call .socket
  assert (0 < sock)
  let ret ← call .select
  assert (ret ≠ -1)
  if ret = 0 then
    let error : Int × QString ← call .strerror
    call (.setErrorString (connectFailed error))
    return .refuse
  let error : Int × QString ← call .soError
  if error.1 ≠ 0 then
    call (.setErrorString error.2)
    return .refuse
  if ← call (.userCanceled .initSocketConnected) then
    call .piClose
    return .cancel
  return .ok

/-! ## initSSHSession -/

/-- `LIBSSH2_ERROR_EAGAIN` -/
def eagain : Int := -37

/-- `LIBSSH2_ERROR_KEX_FAILURE` -/
def kexFailure : Int := -5

/-- `QString(emsg)` -/
def messageOf (emsg : Option QString) : QString := emsg.getD []

def initSSHSession : Program Status := do
  let sess ← call .sessionInit
  assert sess
  let startup : List Int × Int ← callWhile .sessionStartup (fun ret => decide (ret = eagain))
  if startup.2 ≠ 0 then
    let emsg ← call .lastError
    call (.setErrorString (messageOf emsg))
    call .piClose
    return if startup.2 = kexFailure then .protocolVersionNotMatchError else .sessError
  return .ok

/-! ## sshAuth -/

/-- What a test that finds the flag set does, within `sshAuth` and `sshHomePath`. -/
def cleanUp : Program Status := do
  call .sessionDisconnect
  call .sessionFree
  call .piClose
  return .cancel

def authFailed : QString := "User faild (Keyboard Interactive)(Password ).".toList

/-- The end of `sshAuth`. -/
def authDone : Program Status := do
  let ret ← call .authenticated
  if ret = 0 then
    call (.setErrorString authFailed)
    return .authError
  if ← call (.userCanceled .sshAuthDone) then cleanUp
  else return .ok

/-- The password, then the end of `sshAuth`. -/
def authPassword (conn : Info) : Program Status := do
  let user := asciiData conn.userName
  let password := asciiData (fromPercentEncoding conn.password)
  if ← call (.userCanceled .sshAuthPassword) then cleanUp
  else do
    let ret ← call (.userauth (.password user password))
    if ret < 0 then
      let _ ← call (.userauth (.keyboardInteractive user (password.take 60)))
    if ← call (.userCanceled .sshAuthTried) then cleanUp
    else authDone

def sshAuth (conn : Info) : Program Status := do
  let user := asciiData conn.userName
  let pubkey := asciiData conn.pubkey
  let privkey := asciiData (left conn.pubkey (conn.pubkey.length - 4))
  let passphrase := asciiData (fromPercentEncoding conn.password)
  call (.userauthList user)
  let ret ← call
    (.userauth (.hostbasedFromfile user pubkey privkey passphrase (asciiData conn.hostName)))
  if 0 ≤ ret then authDone
  else if conn.pubkey = [] then authPassword conn
  else if ← call (.userCanceled .sshAuthPublickey) then cleanUp
  else do
    let isPrivKey ← call (.isPrivatekey pubkey passphrase)
    let ret ← call (.userauth
      (if isPrivKey < 0 then .publickeyFromfile user (some pubkey) privkey passphrase
        else .publickeyFromfile user none pubkey passphrase))
    if ret < 0 then authPassword conn else authDone

/-! ## sshHomePath -/

def unknownSftpError : QString := "Unknown SFTP error.".toList

def sshHomePath : Program Status := do
  let sftp ← call .sftpInit
  if !sftp then
    let emsg : Option QString ← call .lastError
    call (.setErrorString (emsg.getD unknownSftpError))
    return .sftpError
  let homePath : Int × List UInt8 ← call .realpath
  assert (homePath.1 ≠ 0)
  assert (0 ≤ homePath.1)
  call (.setHomePath (fromLatin1 homePath.2))
  call .sftpShutdown
  if ← call (.userCanceled .sshHomePath) then cleanUp
  else return .ok

/-! ## The codec -/

def getServerEnvVars (cmd : String) : Program QString := do
  let _ ← call .channelOpen
  call .channelShell
  call (.channelWrite (toAscii cmd.toList))
  call (.channelWrite (toAscii ['\n']))
  call .channelSendEof
  let output : List (Int × List UInt8) × (Int × List UInt8) ←
    callWhile .channelRead (fun buff => decide (0 < buff.1))
  call .channelClose
  call .channelFree
  return output.1.flatMap fun buff => fromLatin1 buff.2

/-- The three variables that name an encoding. -/
def isLocaleLine (line : QString) : Bool :=
  "LANG=".toList.isPrefixOf line || "LC_CTYPE=".toList.isPrefixOf line ||
    "LC_ALL=".toList.isPrefixOf line

/-- `codecForName` is that of `QTextCodec`. -/
def codecForLine (codecForName : List UInt8 → Option QString) (line : QString) :
    Option QString :=
  if isLocaleLine line then
    match line.splitOn '.' with
    | [_, name] => codecForName (toAscii name)
    | _ => none
  else none

def codecForEnv (codecForName : List UInt8 → Option QString) (env : QString) : Option QString :=
  (env.splitOn '\n').findSome? (codecForLine codecForName)

/-! ## connect -/

def connect (codecForName : List UInt8 → Option QString) (conn : Info) : Program Status := do
  let ret ← initSocket conn
  if ret ≠ .ok then return ret
  if ← call (.userCanceled .connectSocket) then return .cancel
  let ret ← initSSHSession
  if ret ≠ .ok then return ret
  if ← call (.userCanceled .connectSession) then return .cancel
  let ret ← sshAuth conn
  if ret ≠ .ok then return ret
  call .setConnected
  call .sessionMethods
  let ret ← sshHomePath
  if ret ≠ .ok then return ret
  if ← call (.userCanceled .connectHome) then return .cancel
  let envs ← getServerEnvVars "env"
  call (.setCodec (codecForEnv codecForName envs))
  let _ ← getServerEnvVars "uname -a"
  if ← call (.userCanceled .connectEnvs) then return .cancel
  return .ok

/-- `Connector::run`, then `NullFXP::slot_connect_remote_host_finished`: a view gets the
connection, or it is deleted. -/
def connectToRemoteHost (codecForName : List UInt8 → Option QString) (conn : Info) :
    Program Status := do
  let status ← connect codecForName conn
  if status = .ok then call .setConnection else call .deleteConnection
  return status

end NullFxp.SSHConnection
