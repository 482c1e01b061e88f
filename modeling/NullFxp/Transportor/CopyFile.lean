import NullFxp.Transportor.Queue

/-!
# Copying one file

What the system calls return during the copy of a file is a `FileEnv`. Progress signals are
left out.
-/

namespace NullFxp.Transportor

abbrev Bytes := List UInt8

/-- What the calls return while one file is copied. Lengths are cut to what is there. -/
structure FileEnv where
  /-- `stat` of the remote destination fails although the file is there -/
  statFails : Bool
  /-- the SFTP open of the source fails, and `libssh2_sftp_last_error` is this -/
  srcOpenError : Option Int
  /-- the SFTP open of the destination fails, and `libssh2_sftp_last_error` is this -/
  destOpenError : Option Int
  /-- the local file opens -/
  localOpen : Bool
  /-- the FTP commands before the data succeed, and there is a data socket -/
  ftpCommands : Bool
  reads : Nat → Int
  writes : Nat → Int
  /-- the answer, when a question is asked: `unknown` is a value out of range -/
  answer : Overwrite
  /-- `set_user_cancel(true)` was called before the first test, after the question, and during
  the copy of each part -/
  cancelBefore : Bool
  cancelAfter : Bool
  cancelDuring : Nat → Bool

/-- One call of the routine for one file: what it was given, and what it did. -/
structure Turn where
  src : QString
  dest : QString
  before : Option Bytes
  calls : List Call
  after : Option Bytes
  deriving DecidableEq

/-- The files of the destination, by the names along their paths, and the rest of the world. -/
structure World (τ : Type) where
  dest : List QString → Option Bytes
  turns : List Turn
  hosts : τ

section Files

variable {τ : Type}

def World.setFile (w : World τ) (path : QString) (content : Bytes) : World τ :=
  { w with dest := fun key => if key = components path then some content else w.dest key }

def State.setFile (s : State (World τ)) (path : QString) (content : Bytes) : State (World τ) :=
  { s with world := s.world.setFile path content }

def State.destFile (s : State (World τ)) (path : QString) : Option Bytes :=
  s.world.dest (components path)

def State.cancelIf (s : State (World τ)) (cancel : Bool) : State (World τ) :=
  { s with userCanceled := s.userCanceled || cancel }

def State.fail (s : State (World τ)) (code : Int) (text : String) : State (World τ) :=
  { s with errorCode := code, errorString := text.toList }

/-! ## The loop over the parts of a file -/

/-- Bytes written at a position. A gap before them is filled with zeros. -/
def writeAt (content : Bytes) (pos : Nat) (bytes : Bytes) : Bytes :=
  if bytes = [] then content
  else content.take pos ++ List.replicate (pos - content.length) 0 ++ bytes ++
    content.drop (pos + bytes.length)

inductive Check where
  | goOn | quota | abort
  deriving DecidableEq

def libssh2ErrorSftpProtocol : Int := -31

/-- `LIBSSH2_ERROR_SFTP_PROTOCOL` is taken for a full quota, and then `Q_ASSERT(wlen == rlen)` -/
def checkSftp (rlen wlen : Int) : Check :=
  if wlen = libssh2ErrorSftpProtocol then .quota else if wlen = rlen then .goOn else .abort

def checkAssert (rlen wlen : Int) : Check := if wlen = rlen then .goOn else .abort

def checkNothing (_ _ : Int) : Check := .goOn

inductive CopyEnd where
  | ended | quota | canceled
  deriving DecidableEq

/-- Read up to `buf` bytes and write them, until a read returns nothing. -/
def copyLoop (check : Int → Int → Check) (buf : Nat) (env : FileEnv) :
    Nat → Nat → Bytes → Bytes → Nat → Option (Bytes × CopyEnd)
  | 0, _, _, _, _ => none
  | fuel + 1, k, rest, out, pos =>
    let rlen := min (env.reads k).toNat buf
    let chunk := rest.take rlen
    if chunk = [] then some (out, .ended)
    else
      let wlen := min (env.writes k) chunk.length
      let out := writeAt out pos (chunk.take wlen.toNat)
      match check chunk.length wlen with
      | .abort => none
      | .quota => some (out, .quota)
      | .goOn =>
        if env.cancelDuring k then some (out, .canceled)
        else copyLoop check buf env fuel (k + 1) (rest.drop rlen) out (pos + wlen.toNat)

/-- Every part that is read is not empty, so the rounds are at most the bytes. -/
def copyParts (check : Int → Int → Check) (buf : Nat) (env : FileEnv) (rest out : Bytes)
    (pos : Nat) : Option (Bytes × CopyEnd) :=
  copyLoop check buf env (rest.length + 1) 0 rest out pos

def afterCopy (destFile : QString) (s : State (World τ)) : Bytes × CopyEnd → State (World τ)
  | (out, .ended) => s.setFile destFile out
  | (out, .quota) => (s.setFile destFile out).fail 4 "Reach server quota limitation."
  | (out, .canceled) => (s.setFile destFile out).cancelIf true

/-! ## The question about an existing file -/

def asks (method : Overwrite) : Bool :=
  method = .unknown || method = .yes || method = .resume || method = .no

/-- A value that is no answer cancels the task. -/
def userResponseResult (answer : Overwrite) (s : State (World τ)) : State (World τ) :=
  if answer = .unknown then { s with userCanceled := true }
  else { s with fileConflictResolveMethod := answer }

def askUser (env : FileEnv) (file other : QString) (s : State (World τ)) : State (World τ) :=
  if asks s.fileConflictResolveMethod then
    userResponseResult env.answer (s.called (.destFileExists file other env.answer))
  else s

/-- What follows from the answer: `false` when the routine returns. -/
def obey (s : State (World τ)) : Bool × State (World τ) :=
  if s.userCanceled || s.fileConflictResolveMethod = .cancel then (false, s)
  else if s.fileConflictResolveMethod = .no then (false, s)
  else if s.fileConflictResolveMethod = .noAll then (false, { s with userCanceled := true })
  else (true, s)

def conflict (env : FileEnv) (file other : QString) (s : State (World τ)) :
    Bool × State (World τ) :=
  if (s.cancelIf env.cancelBefore).userCanceled then (false, s.cancelIf env.cancelBefore)
  else obey ((askUser env file other s).cancelIf env.cancelAfter)

/-! ## The routines -/

variable (env : FileEnv) (source : QString → Bytes)

def fxNoSuchFile : Int := 2
def fxPermissionDenied : Int := 3

/-- Without `LIBSSH2_FXF_CREAT` the file has to be there. -/
def destOpenError (create : Bool) (old : Option Bytes) : Option Int :=
  match env.destOpenError with
  | some code => some code
  | none => if create || old.isSome then none else some fxNoSuchFile

def openFailed (s : State (World τ)) (code : Int) : State (World τ) :=
  if code = fxPermissionDenied then s.fail fxPermissionDenied "Open file faild, Permission denied"
  else s.fail code "Open file faild."

/-- From the open of the destination on, in `run_FILE_to_SFTP`. -/
def sendFile (srcFile destFile : QString) (destExists : Bool) (s : State (World τ)) :
    Option (State (World τ)) :=
  let old := s.destFile destFile
  let resume := decide (s.fileConflictResolveMethod = .resume)
  let offset := if resume && destExists then (old.getD []).length else 0
  match destOpenError env (!resume) old with
  | some code => some (openFailed s code)
  | none =>
    let out := if resume then old.getD [] else []
    let s := (s.called (.openForWriting destFile)).setFile destFile out
    if env.localOpen then
      (copyParts checkSftp 5120 env ((source srcFile).drop offset) out offset).map
        (afterCopy destFile s)
    else some s

def runFileToSftpFile (srcFile destFile : QString) (s : State (World τ)) :
    Option (State (World τ)) :=
  let destExists := (s.destFile destFile).isSome && !env.statFails
  let (goOn, s) := if destExists then conflict env srcFile destFile s else (true, s)
  if goOn then sendFile env source srcFile destFile destExists s else some s

/-- From the open of the local file on, in `run_SFTP_to_FILE`. -/
def fetchFile (srcFile destFile : QString) (s : State (World τ)) : Option (State (World τ)) :=
  let old := s.destFile destFile
  let resume := decide (s.fileConflictResolveMethod = .resume)
  let offset := if resume then (old.getD []).length else 0
  let out := if resume then old.getD [] else []
  if env.localOpen then
    let s := (s.called (.openForWriting destFile)).setFile destFile out
    (copyParts checkNothing 8192 env ((source srcFile).drop offset) out offset).map
      (afterCopy destFile s)
  else some s

/-- `run_SFTP_to_FILE(srcFile, destFile)`. The error of the failed open is taken from the SFTP
session of the destination, and there is none. -/
def runSftpToFileFile (srcFile destFile : QString) (s : State (World τ)) :
    Option (State (World τ)) :=
  match env.srcOpenError with
  | some code => some (openFailed s (if code = fxPermissionDenied then code else errnoBase + 0))
  | none =>
    let (goOn, s) :=
      if (s.destFile destFile).isSome then conflict env destFile srcFile s else (true, s)
    if goOn then fetchFile env source srcFile destFile s else some s

/-- `run_SFTP_to_SFTP(srcFile, destFile)`. The open of the destination is never tested: a write
to the missing handle fails, and so does the assertion after it. -/
def runSftpToSftpFile (srcFile destFile : QString) (s : State (World τ)) :
    Option (State (World τ)) :=
  match env.srcOpenError, env.destOpenError with
  | some _, _ => none
  | none, some _ =>
    if (source srcFile).take (min (env.reads 0).toNat 5120) = [] then some s else none
  | none, none =>
    let s := (s.called (.openForWriting destFile)).setFile destFile []
    (copyParts checkSftp 5120 env (source srcFile) [] 0).map (afterCopy destFile s)

/-- `run_FTP_to_FILE(srcFile, destFile)`. The file is opened without `Truncate`. -/
def runFtpToFileFile (srcFile destFile : QString) (s : State (World τ)) :
    Option (State (World τ)) :=
  if env.ftpCommands && env.localOpen then
    let out := (s.destFile destFile).getD []
    let s := (s.called (.openForWriting destFile)).setFile destFile out
    (copyParts checkAssert 8192 env (source srcFile) out 0).map (afterCopy destFile s)
  else none

end Files

end NullFxp.Transportor
