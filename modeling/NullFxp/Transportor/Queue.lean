import NullFxp.QString

/-!
# The queue loops of the transfer thread

Each pair of protocols has its own loop over `transfer_ready_queue`. What a loop reads and
changes outside the program is a value of `σ`, and the hosts are functions on it. `none` is
a failed assertion, or a crash.
-/

namespace NullFxp.Transportor

structure TaskPackage where
  scheme : Nat
  files : List QString
  host : QString
  port : QString
  username : QString
  password : QString
  pubkey : QString
  deriving DecidableEq

def TaskPackage.setFile (pkg : TaskPackage) (file : QString) : TaskPackage :=
  { pkg with files := [file] }

/-- The answers about an existing file, `OW_UNKNOWN` to `OW_NO_ALL`. -/
inductive Overwrite where
  | unknown | cancel | yes | yesAll | resume | no | noAll
  deriving DecidableEq

def errnoBase : Int := 50
def errnoCancel : Int := 52
def errnoTaskInvalid : Int := 54

/-- What the thread asks for, in the order that it does. -/
inductive Call where
  /-- `transfer_new_file_started`, with the directory that the entry goes to -/
  | newFileStarted (src dest : QString)
  | mkdir (path : QString)
  /-- the routine for one file -/
  | copy (src dest : QString)
  /-- the question about an existing file, and the answer to it -/
  | destFileExists (src dest : QString) (answer : Overwrite)
  | openForWriting (path : QString)
  deriving DecidableEq

structure State (σ : Type) where
  readyQueue : List (TaskPackage × TaskPackage)
  doneQueue : List (TaskPackage × TaskPackage)
  errorCode : Int
  errorString : QString
  userCanceled : Bool
  fileConflictResolveMethod : Overwrite
  calls : List Call
  world : σ

def State.called {σ : Type} (s : State σ) (c : Call) : State σ := { s with calls := s.calls ++ [c] }

def State.new {σ : Type} (world : σ) : State σ :=
  ⟨[], [], 0, [], false, .unknown, [], world⟩

/-! ## Hosts -/

/-- What `stat` says about a path. Links are followed. -/
inductive Kind where
  | dir | reg | special
  deriving DecidableEq

structure LocalDisk (σ : Type) where
  stat : QString → σ → Option Kind × σ
  opendir : QString → σ → Option (List QString) × σ
  mkpath : QString → σ → Bool × σ

structure SftpHost (σ : Type) where
  stat : QString → σ → Option Kind × σ
  opendir : QString → σ → Option (List QString) × σ
  mkdir : QString → σ → Bool × σ

structure FtpHost (σ : Type) where
  chdir : QString → σ → Bool × σ
  /-- the entries that `LIST` returned -/
  list : QString → σ → Option (List QString) × σ
  mkdir : QString → σ → Bool × σ

section Hosts

variable {σ : Type}

/-- `a && b` -/
def andThen (a b : σ → Option (Bool × σ)) (w : σ) : Option (Bool × σ) :=
  (a w).bind fun (x, w) => if x then b w else some (false, w)

def LocalDisk.isFile (disk : LocalDisk σ) (path : QString) (w : σ) : Option (Bool × σ) :=
  some ((disk.stat path w).1 = some .reg, (disk.stat path w).2)

def LocalDisk.isDir (disk : LocalDisk σ) (path : QString) (w : σ) : Option (Bool × σ) :=
  some ((disk.stat path w).1 = some .dir, (disk.stat path w).2)

/-- `stat` has to succeed. -/
def remoteIs (kind : Kind) (host : SftpHost σ) (path : QString) (w : σ) : Option (Bool × σ) :=
  (host.stat path w).1.map fun k => (decide (k = kind), (host.stat path w).2)

def remoteIsDir : SftpHost σ → QString → σ → Option (Bool × σ) := remoteIs .dir

def remoteIsReg : SftpHost σ → QString → σ → Option (Bool × σ) := remoteIs .reg

def isFTPDir (host : FtpHost σ) (path : QString) (w : σ) : Option (Bool × σ) :=
  some (host.chdir path w)

def isFTPFile (host : FtpHost σ) (path : QString) (w : σ) : Option (Bool × σ) :=
  some (!(host.chdir path w).1, (host.chdir path w).2)

def isDots (name : QString) : Bool := name = ['.'] || name = ['.', '.']

/-- A directory that does not open has no entries. -/
def fxpDoLsDir (host : SftpHost σ) (path : QString) (w : σ) : Option (List QString × σ) :=
  let (names, w) := host.opendir path w
  some ((names.getD []).filter (! isDots ·), w)

/-- The entries of a local directory that `stat` finds. -/
def statEntries (disk : LocalDisk σ) (path : QString) : List QString → σ → List QString × σ
  | [], w => ([], w)
  | name :: names, w =>
    if isDots name then statEntries disk path names w
    else
      let (kind, w) := disk.stat (childPath path name) w
      let (rest, w) := statEntries disk path names w
      (if kind.isSome then name :: rest else rest, w)

/-- `readdir` of a directory that did not open crashes. -/
def fxpLocalDoLs (disk : LocalDisk σ) (path : QString) (w : σ) : Option (List QString × σ) :=
  let (names, w) := disk.opendir path w
  names.map fun names => statEntries disk path names w

/-- The loops from an FTP host call `list`, and then read `fileList`, which it never fills. Only
one of them opens a data channel for it. Without one the reply is not `150`, which fails an
assertion, or the socket is read through a null pointer. -/
def ftpListing (dataChannel : Bool) (host : FtpHost σ) (path : QString) (w : σ) :
    Option (List QString × σ) :=
  if dataChannel then
    (host.list (path ++ ['/']) w).1.map fun _ => ([], (host.list (path ++ ['/']) w).2)
  else none

def ftpMkdir (host : FtpHost σ) (path : QString) (w : σ) : Option σ :=
  if (host.mkdir path w).1 then some (host.mkdir path w).2 else none

end Hosts

/-! ## One loop for all pairs -/

/-- What the eight loops differ in. -/
structure Loop (σ : Type) where
  /-- connect to the hosts that are not connected yet, or say what went wrong -/
  connect : σ → Option QString × σ
  fileToDir : QString → QString → σ → Option (Bool × σ)
  dirToDir : QString → QString → σ → Option (Bool × σ)
  /-- Directories are tested for before files. -/
  dirFirst : Bool
  list : QString → σ → Option (List QString × σ)
  mkdir : QString → σ → Option σ
  copyFile : QString → QString → State σ → Option (State σ)

namespace Loop

variable {σ : Type} (lp : Loop σ)

def copyBranch (src dest : QString) (s : State σ) : Option (State σ) :=
  let target := childPath dest (lastPart src)
  lp.copyFile src target (s.called (.copy src target))

def queueEntries (srcPkg destPkg : TaskPackage) (src target : QString) (names : List QString)
    (s : State σ) : State σ :=
  { s with readyQueue := s.readyQueue ++
      names.map fun name => (srcPkg.setFile (childPath src name), destPkg.setFile target) }

def dirBranch (srcPkg destPkg : TaskPackage) (src dest : QString) (s : State σ) :
    Option (State σ) :=
  (lp.list src s.world).bind fun (names, w) =>
  let target := childPath dest (lastPart src)
  (lp.mkdir target w).bind fun w =>
  some (queueEntries srcPkg destPkg src target names
    (State.called { s with world := w } (.mkdir target)))

inductive Branch where
  | file | dir | invalid
  deriving DecidableEq

def ifElse (first second : σ → Option (Bool × σ)) (doFirst doSecond : Branch) (w : σ) :
    Option (Branch × σ) :=
  (first w).bind fun (b, w) =>
  if b then some (doFirst, w)
  else (second w).bind fun (b, w) => some (if b then doSecond else .invalid, w)

def branch (src dest : QString) (w : σ) : Option (Branch × σ) :=
  if lp.dirFirst then ifElse (lp.dirToDir src dest) (lp.fileToDir src dest) .dir .file w
  else ifElse (lp.fileToDir src dest) (lp.dirToDir src dest) .file .dir w

def process (srcPkg destPkg : TaskPackage) (src dest : QString) (s : State σ) :
    Option (State σ) :=
  (lp.branch src dest s.world).bind fun
    | (.file, w) => lp.copyBranch src dest { s with world := w }
    | (.dir, w) => lp.dirBranch srcPkg destPkg src dest { s with world := w }
    | (.invalid, w) => some { s with errorCode := errnoTaskInvalid, world := w }

/-- A failed connection breaks out of the loop, and its pair stays in the queue. -/
inductive Round (σ : Type) where
  | goOn (s : State σ)
  | broke (s : State σ)

def afterPair (srcPkg destPkg : TaskPackage) (s : State σ) : State σ :=
  { s with readyQueue := s.readyQueue.tail, doneQueue := s.doneQueue ++ [(srcPkg, destPkg)] }

def round (s : State σ) : Option (Round σ) :=
  match s.readyQueue with
  | [] => none
  | (srcPkg, destPkg) :: _ =>
    match srcPkg.files, destPkg.files with
    | src :: _, dest :: _ =>
      let (error, w) := lp.connect s.world
      let s := State.called { s with world := w } (.newFileStarted src dest)
      match error with
      | some text => some (.broke { s with errorCode := 6, errorString := text })
      | none =>
        (lp.process srcPkg destPkg src dest s).map fun s => .goOn (afterPair srcPkg destPkg s)
    | _, _ => none

theorem round_eq {s : State σ} {w : σ} {srcPkg destPkg : TaskPackage} {src dest : QString}
    {rest : List (TaskPackage × TaskPackage)}
    (hready : s.readyQueue = (srcPkg.setFile src, destPkg.setFile dest) :: rest)
    (hconnect : lp.connect s.world = (none, w)) :
    lp.round s =
      (lp.process (srcPkg.setFile src) (destPkg.setFile dest) src dest
        (State.called { s with world := w } (.newFileStarted src dest))).map fun s =>
          .goOn (afterPair (srcPkg.setFile src) (destPkg.setFile dest) s) := by
  obtain ⟨ready, done, code, text, canceled, method, calls, world⟩ := s
  obtain rfl : ready = _ := hready
  have hc : lp.connect world = (none, w) := hconnect
  simp only [round, TaskPackage.setFile, hc]

/-- `none` also when `fuel` rounds are not enough. -/
def loop : Nat → State σ → Option (State σ)
  | 0, _ => none
  | fuel + 1, s =>
    (lp.round s).bind fun
      | .broke s => some s
      | .goOn s =>
        if s.readyQueue ≠ [] ∧ s.userCanceled = false then loop fuel s else some s

def finish (s : State σ) : State σ :=
  if s.userCanceled then { s with errorCode := errnoCancel } else s

def run (fuel : Nat) (s : State σ) : Option (State σ) :=
  (lp.loop fuel { s with errorCode := 0, errorString := "No error.".toList }).map finish

end Loop

/-- Every source file is paired with every destination. -/
def setTransportInfo {σ : Type} (srcPkg destPkg : TaskPackage) (s : State σ) : State σ :=
  { s with readyQueue := s.readyQueue ++ srcPkg.files.flatMap fun src =>
      destPkg.files.map fun dest => (srcPkg.setFile src, destPkg.setFile dest) }

/-! ## The eight loops -/

section Members

variable {σ : Type} (connect : σ → Option QString × σ)
  (copyFile : QString → QString → State σ → Option (State σ))

def runFileToSftp (src : LocalDisk σ) (dest : SftpHost σ) : Loop σ where
  connect := connect
  fileToDir s d := andThen (src.isFile s) (remoteIsDir dest d)
  dirToDir s d := andThen (src.isDir s) (remoteIsDir dest d)
  dirFirst := false
  list s := fxpLocalDoLs src s
  mkdir path w := some (dest.mkdir path w).2
  copyFile := copyFile

def runFileToFtp (src : LocalDisk σ) (dest : FtpHost σ) : Loop σ where
  connect := connect
  fileToDir s d := andThen (src.isFile s) (isFTPDir dest d)
  dirToDir s d := andThen (src.isDir s) (isFTPDir dest d)
  dirFirst := false
  list s := fxpLocalDoLs src s
  mkdir := ftpMkdir dest
  copyFile := copyFile

/-- `remote_is_reg` is called once more for the debug output. -/
def runSftpToFile (src : SftpHost σ) (dest : LocalDisk σ) : Loop σ where
  connect := connect
  fileToDir s d w := (remoteIsReg src s w).bind fun (_, w) =>
    (dest.isDir d w).bind fun (_, w) => andThen (remoteIsReg src s) (dest.isDir d) w
  dirToDir s d := andThen (dest.isDir d) (remoteIsDir src s)
  dirFirst := false
  list s := fxpDoLsDir src (s ++ ['/'])
  mkdir path w := some (dest.mkpath path w).2
  copyFile := copyFile

def runFtpToFile (src : FtpHost σ) (dest : LocalDisk σ) : Loop σ where
  connect := connect
  fileToDir s d := andThen (isFTPFile src s) (dest.isDir d)
  dirToDir s d := andThen (dest.isDir d) (isFTPDir src s)
  dirFirst := false
  list := ftpListing true src
  mkdir path w := some (dest.mkpath path w).2
  copyFile := copyFile

def runFtpToSftp (src : FtpHost σ) (dest : SftpHost σ) : Loop σ where
  connect := connect
  fileToDir s d := andThen (isFTPFile src s) (remoteIsDir dest d)
  dirToDir s d := andThen (isFTPDir src s) (remoteIsDir dest d)
  dirFirst := false
  list := ftpListing false src
  mkdir path w := some (dest.mkdir path w).2
  copyFile := copyFile

def runSftpToSftp (src dest : SftpHost σ) : Loop σ where
  connect := connect
  fileToDir s d := andThen (remoteIsReg src s) (remoteIsDir dest d)
  dirToDir s d := andThen (remoteIsDir src s) (remoteIsDir dest d)
  dirFirst := true
  list s := fxpDoLsDir src (s ++ ['/'])
  mkdir path w := some (dest.mkdir path w).2
  copyFile := copyFile

def runSftpToFtp (src : SftpHost σ) (dest : FtpHost σ) : Loop σ where
  connect := connect
  fileToDir s d := andThen (remoteIsReg src s) (isFTPDir dest d)
  dirToDir s d := andThen (remoteIsDir src s) (isFTPDir dest d)
  dirFirst := true
  list s := fxpDoLsDir src (s ++ ['/'])
  mkdir := ftpMkdir dest
  copyFile := copyFile

def runFtpToFtp (src dest : FtpHost σ) : Loop σ where
  connect := connect
  fileToDir s d := andThen (isFTPFile src s) (isFTPDir dest d)
  dirToDir s d := andThen (isFTPDir src s) (isFTPDir dest d)
  dirFirst := true
  list := ftpListing false src
  mkdir := ftpMkdir dest
  copyFile := copyFile

end Members

end NullFxp.Transportor
