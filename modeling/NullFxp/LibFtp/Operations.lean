import NullFxp.LibFtp.Listing

/-!
# The operations of `LibFtp`

Every operation writes a command and tests the reply that `readAll` hands over. `none` is a failed
assert or an index out of range. A TLS layer is part of the socket.
-/

open Text Regex

namespace NullFxp.LibFtp

structure Codec where
  toUnicode : Bytes → QString
  fromUnicode : QString → Bytes

/-- What the operations use of the control socket. -/
structure Ctrl (σ : Type) where
  bytesAvailable : σ → Nat
  /-- `write`, and whether `waitForBytesWritten` was in time -/
  send : Bytes → σ → Bool × σ
  readAll : σ → Option (Bytes × σ)
  /-- `waitForReadyRead` and `qsock->readAll()`; `none` when nothing came -/
  readyRead : σ → Option Bytes × σ
  /-- `startClientEncryption` and `waitForEncrypted`, whose result is only logged. A TLS layer
  that does not change what is written and read need not be seen. -/
  startClientEncryption : σ → σ := id

structure Ftp (σ : Type) where
  sock : σ
  codec : Codec
  /-- what comes over the data connection, arrival by arrival -/
  data : List Bytes := []
  dirList2 : List FTPFileInfo := []
  supportedCmds : List QString := []
  pasvHost : QString := []
  pasvPort : Nat := 0
  useTLS : Bool := false
  errnum : Int := 0
  errmsg : QString := []

/-! ## Reply tests -/

/-- `replyText.split(" ").at(0)` -/
def firstWord (text : QString) : QString := (text.splitOn ' ').headD []

/-- `sl.at(sl.count() - 2)` of the lines -/
def closingLine (text : QString) : Option QString :=
  elemAt (text.splitOn '\n') ((text.splitOn '\n').length - 2)

/-- `sl.at(sl.count() - 2).split(" ").at(0)` of the lines -/
def closingWord (ball : Bytes) : Option QString := (closingLine (fromLatin1 ball)).map firstWord

def test (code : String) (word : QString) : Int := if word = code.toList then 0 else -1

/-- 0 for the code, and else the assert fails. -/
def expect (code : String) (word : QString) : Option Int :=
  if word = code.toList then some 0 else none

/-! ## Commands -/

section

variable {σ : Type} (io : Ctrl σ) {α : Type}

def exchange (cmd : Bytes) (failed : α) (reply : Bytes → Ftp σ → Option (α × Ftp σ))
    (ftp : Ftp σ) : Option (α × Ftp σ) :=
  let (written, sock) := io.send cmd ftp.sock
  if written then
    (io.readAll sock).bind fun (ball, sock) => reply ball { ftp with sock := sock }
  else some (failed, { ftp with sock := sock })

/-- A command that asserts `bytesAvailable() == 0` first. -/
def command (cmd : Bytes) (failed : α) (reply : Bytes → Ftp σ → Option (α × Ftp σ))
    (ftp : Ftp σ) : Option (α × Ftp σ) :=
  if io.bytesAvailable ftp.sock = 0 then exchange io cmd failed reply ftp else none

/-- `QString("VERB %1\r\n").arg(arg)` -/
def cmdLine (verb : String) (arg : QString) : QString := verb.toList ++ ' ' :: arg ++ crlf

/-- `encodeCMD.toAscii()`, where `QString encodeCMD = codec->fromUnicode(cmd)` -/
def encodeCMD (codec : Codec) (cmd : QString) : Bytes :=
  toAscii (fromLatin1 (codec.fromUnicode cmd))

/-- The operations that assert the code of the first word. -/
def expectFirst (cmd : QString) (code : String) : Ftp σ → Option (Int × Ftp σ) :=
  command io (toAscii cmd) (-1) fun ball ftp =>
    (expect code (firstWord (fromLatin1 ball))).map fun r => (r, ftp)

def mkdir (path : QString) : Ftp σ → Option (Int × Ftp σ) :=
  expectFirst io (cmdLine "MKD" path) "257"

def rmdir (path : QString) : Ftp σ → Option (Int × Ftp σ) :=
  expectFirst io (cmdLine "RMD" path) "250"

def noop : Ftp σ → Option (Int × Ftp σ) := expectFirst io "NOOP\r\n".toList "200"

inductive TransferType where
  | ascii | ebcid | bin | image | localByte
  deriving DecidableEq

def TransferType.tname : TransferType → QString
  | .ascii => ['A']
  | _ => ['I']

def type (t : TransferType) : Ftp σ → Option (Int × Ftp σ) :=
  expectFirst io (cmdLine "TYPE" t.tname) "200"

def chdir (path : QString) : Ftp σ → Option (Int × Ftp σ) :=
  command io (toAscii (cmdLine "CWD" path)) (-1) fun ball ftp =>
    (closingWord ball).map fun word => (test "250" word, ftp)

def get (fileName : QString) : Ftp σ → Option (Int × Ftp σ) :=
  command io (toAscii (cmdLine "RETR" fileName)) (-1) fun ball ftp => do
    let r ← expect "150" (← closingWord ball)
    some (r, ftp)

/-- `okno` is the code of success. -/
def setError (okno : Int) (msg : QString) (ftp : Ftp σ) : Ftp σ :=
  if msg = [] then ftp
  else if okno = toInt (firstWord msg) then { ftp with errnum := 0, errmsg := "Sucess.".toList }
  else if toInt (firstWord msg) = 0 then
    { ftp with errnum := 600, errmsg := "No response.".toList }
  else { ftp with errnum := toInt (firstWord msg), errmsg := trimmed msg }

/-- `put` does not look at `bytesAvailable()`. -/
def put (fileName : QString) (ftp : Ftp σ) : Option (Int × Ftp σ) :=
  exchange io (encodeCMD ftp.codec (cmdLine "STOR" fileName)) (-1) (fun ball ftp =>
    some (test "150" (firstWord (fromLatin1 ball)), setError 150 (fromLatin1 ball) ftp)) ftp

def remove (path : QString) (ftp : Ftp σ) : Option (Int × Ftp σ) :=
  command io (encodeCMD ftp.codec (cmdLine "DELE" path)) (-1) (fun ball ftp =>
    some (test "250" (firstWord (fromLatin1 ball)), ftp)) ftp

def rename (src dest : QString) : Ftp σ → Option (Int × Ftp σ) :=
  command io (toAscii (cmdLine "RNFR" src)) (-1) fun ball ftp => do
    let _ ← expect "350" (firstWord (fromLatin1 ball))
    exchange io (toAscii (cmdLine "RNTO" dest)) (-1) (fun ball ftp =>
      (expect "250" (firstWord (fromLatin1 ball))).map fun r => (r, ftp)) ftp

def putNoWaitResponse (fileName : QString) (ftp : Ftp σ) : Option (Int × Ftp σ) :=
  let (written, sock) := io.send (toAscii (cmdLine "STOR" fileName)) ftp.sock
  some (if written then 0 else -1, { ftp with sock := sock })

def portLine (hostip : QString) (port : Nat) : QString :=
  cmdLine "PORT" (hostip.map (fun c => if c = '.' then ',' else c) ++
    ',' :: (Nat.repr (port / 256 % 256)).toList ++ ',' :: (Nat.repr (port % 256)).toList)

def port (hostip : QString) (port : Nat) : Ftp σ → Option (Int × Ftp σ) :=
  command io (toAscii (portLine hostip port)) (-1) fun ball ftp =>
    some (test "200" (firstWord (fromLatin1 ball)), ftp)

/-- The reply of the family that returns the second word too. -/
def secondWord (code : String) (text : QString) : Option (Int × QString) := do
  let r ← expect code (firstWord text)
  some (r, ← elemAt (text.splitOn ' ') 1)

def system (type : QString) : Ftp σ → Option ((Int × QString) × Ftp σ) :=
  command io (toAscii "SYST\r\n".toList) (-1, type) fun ball ftp =>
    (secondWord "215" (fromLatin1 ball)).map fun r => (r, ftp)

def size (path : QString) (siz : Int) : Ftp σ → Option ((Int × Int) × Ftp σ) :=
  command io (toAscii (cmdLine "SIZE" path)) (-1, siz) fun ball ftp =>
    (secondWord "213" (fromLatin1 ball)).map fun r => ((r.1, toULongLong (trimmed r.2)), ftp)

/-- The path between the quotes is cut out before the code is tested. -/
def pwd (path : QString) : Ftp σ → Option ((Int × QString) × Ftp σ) :=
  command io (toAscii "PWD\r\n".toList) (-1, path) fun ball ftp => do
    let word ← elemAt ((fromLatin1 ball).splitOn ' ') 1
    let path ← elemAt (word.splitOn '"') 1
    let r ← expect "257" (firstWord (fromLatin1 ball))
    some ((r, path), ftp)

def swallowResponse (ftp : Ftp σ) : Option (Int × Ftp σ) :=
  (io.readAll ftp.sock).map fun (ball, sock) =>
    (toInt (firstWord (((fromLatin1 ball).splitOn '\n').getLastD [])), { ftp with sock := sock })

/-! ## Listings -/

/-- `while (canReadLine()) readLine()`: the lines that have their newline. -/
def completeLines (bs : Bytes) : List Bytes := (bs.splitOn 10).dropLast.map (· ++ [10])

def entryOf (codec : Codec) (line : Bytes) : Option FTPFileInfo :=
  (parseDir [] line).map fun ffi => { ffi with name := codec.toUnicode (toAscii ffi.name) }

/-- One `waitForReadyRead`, and then what is there to read. -/
def readListing (codec : Codec) (data : List Bytes) : List FTPFileInfo :=
  (completeLines (data.headD [])).filterMap (entryOf codec)

/-- The first reply to `LIST`, and the data connection. -/
def listData (ball : Bytes) (ftp : Ftp σ) : Option (Ftp σ) := do
  let _ ← expect "150" (← closingWord ball)
  some { ftp with dirList2 := readListing ftp.codec ftp.data, data := [] }

def list (path : QString) (ftp : Ftp σ) : Option (Int × Ftp σ) :=
  command io (toAscii ("LIST -a -l ".toList ++ path ++ crlf)) (-1) (fun ball ftp => do
    let ftp ← listData ball ftp
    let (ball, sock) ← io.readAll ftp.sock
    let r ← expect "226" (← closingWord ball)
    some (r, { ftp with sock := sock })) { ftp with dirList2 := [] }

/-- `lista` returns -1 when no second reply came. -/
def lista (path : QString) (ftp : Ftp σ) : Option (Int × Ftp σ) :=
  command io (toAscii ("LIST -a ".toList ++ path ++ crlf)) (-1) (fun ball ftp => do
    let ftp ← listData ball ftp
    let (ball, sock) ← io.readAll ftp.sock
    if ball = [] then some (-1, { ftp with sock := sock })
    else
      let r ← expect "226" (← closingWord ball)
      some (r, { ftp with sock := sock })) { ftp with dirList2 := [] }

/-- `(\d+),(\d+),(\d+),(\d+),(\d+),(\d+)` -/
def addrPortPattern : Pat := .ofList
  [.group (.plus digit), .chr ',', .group (.plus digit), .chr ',', .group (.plus digit), .chr ',',
   .group (.plus digit), .chr ',', .group (.plus digit), .chr ',', .group (.plus digit)]

def toUInt (s : QString) : Nat := (toNumber 0 0xffffffff s).toNat

def passive : Ftp σ → Option (Int × Ftp σ) :=
  command io (toAscii "PASV\r\n".toList) (-1) fun ball ftp =>
    match addrPortPattern.find (fromLatin1 ball) with
    | some [_, a, b, c, d, p, q] =>
      some (0, { ftp with
        pasvHost := a ++ '.' :: b ++ '.' :: c ++ '.' :: d
        pasvPort := (toUInt p * 256 + toUInt q) % 65536 })
    | _ => some (-1, ftp)

def infoRows (ball : Bytes) : List Bytes := ((ball.splitOn 10).drop 1).dropLast.dropLast

def mlst (path : QString) (ftp : Ftp σ) : Option (Int × Ftp σ) :=
  if "MLST".toList ∈ ftp.supportedCmds then
    command io (toAscii (cmdLine "MLST" path)) (-1) (fun ball ftp => do
      let r ← expect "250" (← closingWord ball)
      let rows ← (infoRows ball).mapM parseMLSTLine
      some (r, { ftp with dirList2 := rows })) { ftp with dirList2 := [] }
  else do
    let (_, ftp) ← passive io ftp
    lista io path ftp

/-! ## Logging in -/

def upperChar (c : Char) : QString :=
  if ('a' ≤ c ∧ c ≤ 'z') ∨ (0xE0 ≤ c.toNat ∧ c.toNat ≤ 0xFE ∧ c.toNat ≠ 0xF7) then
    [Char.ofNat (c.toNat - 32)]
  else if c.toNat = 0xDF then ['S', 'S']
  else if c.toNat = 0xB5 then [Char.ofNat 0x39C]
  else if c.toNat = 0xFF then [Char.ofNat 0x178]
  else [c]

def helpCmds (text : QString) : List QString :=
  ((text.splitOn '\n').drop 1).dropLast.flatMap fun line =>
    ((line.splitOn ' ').map trimmed).filterMap fun word =>
      if word = [] then none else some (word.flatMap upperChar)

def helpReply (ball : Bytes) : Option (List QString) :=
  (closingLine (fromLatin1 ball)).map fun line =>
    if "214".toList <+: line then helpCmds (fromLatin1 ball) else []

def getSupportedCmds (ftp : Ftp σ) : Option (Int × Ftp σ) := do
  let (cmds, ftp) ← command io (toAscii "HELP\r\n".toList) [] (fun ball ftp =>
    (helpReply ball).map fun cmds => (cmds, ftp)) ftp
  if ftp.supportedCmds = [] then some (cmds.length, { ftp with supportedCmds := cmds.dedup })
  else none

def authReply (ball : Bytes) : Option Bool := (closingWord ball).map fun word => word = "234".toList

def userReply (ball : Bytes) : Option Bool := (closingWord ball).map fun word => word ≠ "230".toList

def beforeCrlf : QString → QString
  | [] => []
  | c :: s => if crlf <+: c :: s then [] else c :: beforeCrlf s

def passReply (ball : Bytes) : Bool := ball = [] ∨ "230".toList <+: beforeCrlf (fromLatin1 ball)

def pbszReply (ball : Bytes) : Bool :=
  firstWord (((fromLatin1 ball).splitOn '\n').headD []) = "200".toList

def orFtp (s : QString) : QString := if s = [] then "ftp".toList else s

/-- `PBSZ` and `PROT`, whose replies are not read through `readAll`. -/
def protect (ftp : Ftp σ) : Ftp σ :=
  let (written, sock) := io.send (toAscii "PBSZ 0\r\n".toList) ftp.sock
  let ftp :=
    if written then
      match io.readyRead sock with
      | (some ball, sock) => { ftp with sock := sock, useTLS := pbszReply ball }
      | (none, sock) => { ftp with sock := sock }
    else { ftp with sock := sock }
  if ftp.useTLS then
    let (written, sock) := io.send (toAscii "PROT P\r\n".toList) ftp.sock
    { ftp with sock := if written then (io.readyRead sock).2 else sock }
  else ftp

def auth (ftp : Ftp σ) : Option (Ftp σ) := do
  let (tls, ftp) ← command io (toAscii "AUTH TLS\r\n".toList) false (fun ball ftp =>
    (authReply ball).map fun tls => (tls, ftp)) ftp
  some (if tls then { ftp with sock := io.startClientEncryption ftp.sock } else ftp)

/-- `USER`, and `PASS` when the server wants one. The result says whether the login goes on. -/
def credentials (user password : QString) : Ftp σ → Option (Bool × Ftp σ) :=
  command io (toAscii (cmdLine "USER" (orFtp user))) true fun ball ftp => do
    if ← userReply ball then
      exchange io (toAscii (cmdLine "PASS" (orFtp password))) true (fun ball ftp =>
        some (passReply ball, ftp)) ftp
    else some (true, ftp)

def login (user password : QString) (ftp : Ftp σ) : Option (Int × Ftp σ) := do
  let ftp ← auth io ftp
  let (goOn, ftp) ← credentials io user password ftp
  if goOn then
    let (_, ftp) ← getSupportedCmds io ftp
    some (0, protect io ftp)
  else some (-1, ftp)

end

/-! ## A socket with given replies -/

/-- What was written, and what `readAll` hands over from now on. -/
structure Script where
  sent : List Bytes := []
  answers : List Bytes := []
  deriving DecidableEq

/-- After the last reply nothing comes. -/
def scripted : Ctrl Script where
  bytesAvailable _ := 0
  send cmd s := (true, { s with sent := s.sent ++ [cmd] })
  readAll s := some (s.answers.headD [], { s with answers := s.answers.tail })
  readyRead s := (s.answers.head?, { s with answers := s.answers.tail })

def Ftp.answered (ftp : Ftp Script) (answers : List Bytes) : Ftp Script :=
  { ftp with sock := { ftp.sock with answers := answers } }

section

variable {α : Type} {cmd : Bytes} {failed : α}
  {reply : Bytes → Ftp Script → Option (α × Ftp Script)}

@[simp]
theorem exchange_scripted (ftp : Ftp Script) : exchange scripted cmd failed reply ftp =
    reply (ftp.sock.answers.headD [])
      { ftp with sock := ⟨ftp.sock.sent ++ [cmd], ftp.sock.answers.tail⟩ } := rfl

@[simp]
theorem command_scripted (ftp : Ftp Script) :
    command scripted cmd failed reply ftp = exchange scripted cmd failed reply ftp := rfl

@[simp]
theorem readAll_scripted (s : Script) :
    scripted.readAll s = some (s.answers.headD [], { s with answers := s.answers.tail }) := rfl

end

end NullFxp.LibFtp
