import NullFxp.LibFtp.Session
import NullFxp.Transportor.FtpStore

/-!
# The control connection of a transfer

A server sends two things about a file that it sends or stores: that it begins, and that it is done.
The routine for one file reads both, unless it gives up between them.
-/

open NullFxp.LibFtp Text

namespace NullFxp.Transportor

/-- What the transfers of a queue use an FTP connection for. -/
inductive Errand where
  /-- `isFTPDir`, and `isFTPFile` -/
  | isDir (path : QString)
  | mkdir (path : QString)
  /-- The entries of a directory, in `run_FTP_to_FILE`. The other loops do not come further
  (`ftpListing`). -/
  | entries (path : QString)
  /-- the destination of a file -/
  | store (srcFile destFile : QString)
  /-- The source of a file. `run_FTP_to_SFTP` returns at once when the destination does not open. -/
  | fetch (srcFile : QString) (destOpen : Bool)

namespace Errand

/-- `setFTPCurrentDirByFullPath`, on the control connection -/
def changeDir (path : QString) : List Use :=
  [⟨.chdir (absoluteDir path), false⟩, ⟨.pwd [], false⟩]

def uses : Errand → List Use
  | isDir path => [⟨.chdir path, false⟩]
  | mkdir path => [⟨.mkdir path, true⟩]
  | entries path => [⟨.passive, false⟩, ⟨.list (path ++ ['/']), true⟩]
  | store srcFile destFile =>
    changeDir destFile ++ [⟨.type .bin, true⟩, ⟨.passive, true⟩, ⟨.put (lastPart srcFile), true⟩,
      ⟨.swallowResponse, false⟩]
  | fetch srcFile destOpen =>
    changeDir srcFile ++ [⟨.type .bin, true⟩, ⟨.size srcFile 0, true⟩, ⟨.passive, true⟩,
      ⟨.get (lastPart srcFile), true⟩] ++ if destOpen then [⟨.swallowResponse, false⟩] else []

/-- How many replies the server sends to each command. -/
def brings : Errand → List Nat
  | isDir _ => [1]
  | mkdir _ => [1]
  | entries _ => [1, 2]
  | store _ _ => [1, 1, 1, 1, 2]
  | fetch _ _ => [1, 1, 1, 1, 1, 2]

/-- The completion of the file is not read. -/
def GivesUp : Errand → Bool
  | fetch _ destOpen => !destOpen
  | _ => false

theorem reads_add (e : Errand) : reads e.uses + (if e.GivesUp then 1 else 0) = e.brings.sum := by
  cases e with
  | isDir path => rfl
  | mkdir path => rfl
  | entries path => rfl
  | store srcFile destFile => rfl
  | fetch srcFile destOpen => cases destOpen <;> rfl

theorem covered_errand (e : Errand) {acts : List Act} {n : Nat} {replies : List Nat}
    (h : Covered acts (n + if e.GivesUp then 1 else 0) replies) :
    Covered (actsOf e.uses ++ acts) n (e.brings ++ replies) := by
  cases e with
  | isDir path => simpa [GivesUp, uses, brings, actsOf, Operation.acts, Covered] using h
  | mkdir path => simpa [GivesUp, uses, brings, actsOf, Operation.acts, Covered] using h
  | entries path => simpa [GivesUp, uses, brings, actsOf, Operation.acts, Covered] using h
  | store srcFile destFile =>
    simpa [GivesUp, uses, changeDir, brings, actsOf, Operation.acts, Covered] using h
  | fetch srcFile destOpen =>
    cases destOpen <;> simpa [GivesUp, uses, changeDir, brings, actsOf, Operation.acts, Covered] using h

end Errand

/-! ## A queue of errands -/

/-- An errand, and the answers to each of its commands. -/
abbrev Job := Errand × List (List Answer)

def usesOf (jobs : List Job) : List Use := jobs.flatMap fun job => job.1.uses

def bytesOf (answers : List (List Answer)) : List Bytes := answers.flatten.map fun a => a.reply.bytes

/-- The server carries out every command, so it answers as it does then. -/
def CarriedOut (job : Job) : Prop :=
  job.2.map List.length = job.1.brings ∧ ∀ a ∈ job.2.flatten, a.reply.Readable

/-- The replies that nobody has read in the end. -/
def leftAfter : List Job → List Bytes → List Bytes
  | [], left => left
  | (e, answers) :: jobs, left => leftAfter jobs ((left ++ bytesOf answers).drop (reads e.uses))

/-- An errand is handed what was left before it, and after that its own replies. -/
def chained : List Job → List Bytes → Ftp Unit → Option (List Out × Ftp Unit)
  | [], _, ftp => some ([], ftp)
  | (e, answers) :: jobs, left, ftp =>
    (handOut e.uses (left ++ bytesOf answers) ftp).bind fun (outs, next) =>
      (chained jobs ((left ++ bytesOf answers).drop (reads e.uses)) next).map fun (outs', ftp) =>
        (outs ++ outs', ftp)

section Jobs

variable {jobs : List Job} {job : Job}

theorem CarriedOut.length (h : CarriedOut job) :
    (bytesOf job.2).length = reads job.1.uses + if job.1.GivesUp then 1 else 0 := by
  rw [Errand.reads_add, ← h.1, bytesOf, List.length_map, List.length_flatten]

theorem covered_jobs (h : ∀ job ∈ jobs, CarriedOut job) (n : Nat) :
    Covered (actsOf (usesOf jobs)) n ((jobs.flatMap Prod.snd).map List.length) := by
  induction jobs generalizing n with
  | nil => trivial
  | cons job jobs ih =>
    obtain ⟨hjob, h⟩ := List.forall_mem_cons.mp h
    have hacts : actsOf (usesOf (job :: jobs)) = actsOf job.1.uses ++ actsOf (usesOf jobs) := by
      simp [usesOf, actsOf]
    rw [hacts, List.flatMap_cons, List.map_append, hjob.1]
    exact job.1.covered_errand (ih h _)

/-- **One reply is left for every file that was given up**, and none for the other errands. -/
theorem length_leftAfter (h : ∀ job ∈ jobs, CarriedOut job) (left : List Bytes) :
    (leftAfter jobs left).length = left.length + jobs.countP fun job => job.1.GivesUp := by
  induction jobs generalizing left with
  | nil => rfl
  | cons job jobs ih =>
    obtain ⟨hjob, h⟩ := List.forall_mem_cons.mp h
    have hlen := hjob.length
    rw [leftAfter, ih h, List.length_drop, List.length_append, List.countP_cons]
    omega

theorem handOut_jobs (h : ∀ job ∈ jobs, CarriedOut job) (left : List Bytes) (ftp : Ftp Unit) :
    handOut (usesOf jobs) (left ++ bytesOf (jobs.flatMap Prod.snd)) ftp = chained jobs left ftp := by
  induction jobs generalizing left ftp with
  | nil => rfl
  | cons job jobs ih =>
    obtain ⟨hjob, h⟩ := List.forall_mem_cons.mp h
    have hlen : reads job.1.uses ≤ (left ++ bytesOf job.2).length := by
      rw [List.length_append, hjob.length]
      omega
    have hstream : left ++ bytesOf ((job :: jobs).flatMap Prod.snd) =
        left ++ bytesOf job.2 ++ bytesOf (jobs.flatMap Prod.snd) := by
      simp [bytesOf]
    have huses : usesOf (job :: jobs) = job.1.uses ++ usesOf jobs := by simp [usesOf]
    rw [huses, hstream, handOut_append, ← handOut_take _ _ _ hlen, List.take_left,
      List.drop_append_of_le_length hlen]
    unfold chained
    congr 1
    funext r
    simp only
    rw [ih h]

end Jobs

/-- A reply of one line in one packet. There is none for a text that is no line. -/
def oneLine (code : Nat) (text : String) : List Answer :=
  if h : (100 ≤ code ∧ code ≤ 599) ∧ IsLine (toAscii text.toList) then
    [{ Answer.short code h.1 with
      reply := { Reply.short code h.1 with text := toAscii text.toList, text_line := h.2 }
      packets := [.data (UInt8.ofNat (48 + code / 100)) (UInt8.ofNat (48 + code / 10 % 10) ::
        UInt8.ofNat (48 + code % 10) :: 32 :: toAscii text.toList ++ eol)]
      no_timeout := by simp
      delivers := by
        simp [delivered, Arrival.bytes, Reply.bytes, Reply.opening, Reply.short, Reply.lastLine,
          codeBytes] }]
  else []

/-- A file that is fetched, and then a test for a directory that is there. -/
def fetchThenTest (destOpen : Bool) : List Job :=
  [(.fetch ['/', 'f'] destOpen,
    [oneLine 250 "ok", oneLine 257 "\"/\"", oneLine 200 "ok", oneLine 213 "5",
      oneLine 227 "(1,2,3,4,5,6)", oneLine 150 "ok" ++ oneLine 226 "ok"]),
    (.isDir ['/', 'd'], [oneLine 250 "ok"])]

end NullFxp.Transportor
