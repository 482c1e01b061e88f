import Mathlib.Data.List.TakeWhile
import NullFxp.LibFtp.Operations
import NullFxp.RemoteDirModel.Paths
import NullFxp.Retriver.Loop

/-!
# What the commands ask for, and what they report

The UI packs the two names of a rename into one text, and the retrievers take it apart again.
Every command ends with a status, which the model and the user take for the answer of the server.
-/

open NullFxp.RemoteDirModel

namespace NullFxp.Retriver

/-! ## Rename -/

/-- The directories that `rename` does not touch. -/
def renameGuarded (proto : Protocol) (absPath : QString) : Bool :=
  match proto with
  | .sftp => sysDirsRename.contains (absPath.map Char.toLower)
  | .ftp => sysDirsShort.contains absPath

/-- The two paths that `rename` sends to the server. -/
def renameRequest (proto : Protocol) (nd : NetDirNode) (params : QString) :
    Option (QString × QString) :=
  let absPath := childPath nd.fullPath (renameNames params).1
  let absPathRenameTo := childPath nd.fullPath (renameNames params).2
  if renameGuarded proto absPath then none else some (absPath, absPathRenameTo)

theorem renameStatus_eq (proto : Protocol) (srv : Replies) (nd : NetDirNode) (params : QString) :
    renameStatus proto srv nd params =
      match renameRequest proto nd params with
      | none => some (-1)
      | some (absPath, absPathRenameTo) => srv.rename absPath absPathRenameTo := by
  unfold renameStatus renameRequest renameGuarded
  cases proto with
  | sftp =>
    simp only
    split <;> rfl
  | ftp =>
    simp only
    split <;> rfl

theorem renameNames_packed_iff (old new : QString) :
    renameNames (old ++ '!' :: new) = (old, new) ↔ '!' ∉ old := by
  have hsep : (old ++ '!' :: new).contains '!' = true := by simp
  rw [renameNames, if_pos hsep, Prod.mk.injEq]
  constructor
  · rintro ⟨htake, -⟩ hmem
    rw [← htake] at hmem
    simpa using List.mem_takeWhile_imp hmem
  · intro h
    have hall : ∀ c ∈ old, decide (c ≠ '!') = true := by
      intro c hc
      have hne : c ≠ '!' := by
        rintro rfl
        exact h hc
      simpa using hne
    rw [List.takeWhile_append_of_pos hall, List.dropWhile_append_of_pos hall]
    simp

theorem childPath_right_inj (path : QString) {a b : QString} :
    childPath path a = childPath path b ↔ a = b := by
  simp [childPath]

theorem renameRequest_packed_iff (proto : Protocol) (nd : NetDirNode) (old new : QString) :
    renameRequest proto nd (old ++ '!' :: new) =
        some (childPath nd.fullPath old, childPath nd.fullPath new) ↔
      '!' ∉ old ∧ renameGuarded proto (childPath nd.fullPath old) = false := by
  rw [← renameNames_packed_iff old new]
  unfold renameRequest
  constructor
  · intro h
    simp only at h
    split at h
    · simp at h
    · next hguard =>
      simp only [Option.some.injEq, Prod.mk.injEq, childPath_right_inj] at h
      refine ⟨Prod.ext h.1 h.2, ?_⟩
      rw [← h.1]
      simpa using hguard
  · rintro ⟨hnames, hguard⟩
    simp [hnames, hguard]

theorem setDataString_packs {m : Model} (hm : WellFormed m) {n p : Nat} {nd pd : NetDirNode}
    (hn : m.nodes n = some nd) (hnp : nd.pNode = some p) (hp : m.nodes p = some pd) {new : QString}
    (hne : new ≠ []) (hnew : new ≠ nd.fileName) :
    ∃ m', m.setDataString (m.persistent n) new = some m' ∧ m'.nodes p = some pd ∧
      m'.commandQueue = m.commandQueue ++ [⟨p, p, .rename, nd.fileName ++ '!' :: new⟩] := by
  obtain ⟨hidx, hcol, i, hpar, -⟩ := persistent_spec hm hn
  have hi : i.internalPointer = some p := by
    simp only [Model.parent, hidx.1, if_true, Model.deref, hidx.2, Option.bind_some, hn,
      Option.bind_eq_bind, hnp, hp, Option.bind_eq_some_iff] at hpar
    obtain ⟨-, -, hpar⟩ := hpar
    rw [← Option.some.inj hpar]
  have hpn : p ≠ n := by
    rcases hm.parent n nd hn with ⟨hroot, -⟩ | ⟨q, -, -, hq, hlt, -⟩
    · simp [hroot] at hnp
    · rw [hnp] at hq
      have := Option.some.inj hq
      omega
  refine ⟨(m.set n { nd with fullPath := childPath pd.fullPath new, fileName := new }).slotExecuteCommand
    p p .rename (nd.fileName ++ '!' :: new), ?_, ?_, rfl⟩
  · rw [Model.setDataString, if_pos ⟨hidx.1, hne⟩]
    simp only [hcol, guard, if_true, hpar, hidx.2, hn, hi, hp, Option.bind_eq_bind, Option.bind_some,
      Option.pure_def, Ne.symm hnew, if_false]
  · show (m.set n _).nodes p = some pd
    rw [Model.set_nodes_ne _ _ hpn]
    exact hp

/-- **A rename is for the edited entry** exactly when its old name has no separator in it and is
not one of the names that the retriever refuses to touch. -/
theorem rename_asks_for_edited_iff (m : Model) (hm : WellFormed m) (n p : Nat) (nd pd : NetDirNode)
    (hn : m.nodes n = some nd) (hnp : nd.pNode = some p) (hp : m.nodes p = some pd) (new : QString)
    (hne : new ≠ []) (hnew : new ≠ nd.fileName) :
    ∃ m' c, m.setDataString (m.persistent n) new = some m' ∧ m'.commandQueue = m.commandQueue ++ [c] ∧
      c.cmd = .rename ∧ c.parentItem = p ∧ m'.nodes p = some pd ∧
      (renameNames c.params = (nd.fileName, new) ↔ '!' ∉ nd.fileName) ∧
      ∀ proto, renameRequest proto pd c.params =
          some (childPath pd.fullPath nd.fileName, childPath pd.fullPath new) ↔
        '!' ∉ nd.fileName ∧ renameGuarded proto (childPath pd.fullPath nd.fileName) = false := by
  obtain ⟨m', hset, hpd, hq⟩ := setDataString_packs hm hn hnp hp hne hnew
  refine ⟨m', _, hset, hq, rfl, rfl, hpd, renameNames_packed_iff nd.fileName new, ?_⟩
  intro proto
  exact renameRequest_packed_iff proto pd nd.fileName new

theorem rename_asks_for_edited_home :
    ∃ m' c, (smallTree ['a']).setDataString ((smallTree ['a']).persistent 1) ['b', '!'] = some m' ∧
      m'.commandQueue = [c] ∧ c.cmd = .rename ∧ c.parentItem = 0 ∧
      ∀ proto, renameRequest proto smallRoot c.params = some (['/', 'a'], ['/', 'b', '!']) := by
  obtain ⟨m', c, hset, hq, hcmd, hpar, -, -, hreq⟩ := rename_asks_for_edited_iff (smallTree ['a'])
    (smallTree_wellFormed _) 1 0 (smallDir ['a']) smallRoot rfl rfl rfl ['b', '!'] (by decide)
    (by decide)
  refine ⟨m', c, hset, hq, hcmd, hpar, fun proto => (hreq proto).mpr ⟨by decide, ?_⟩⟩
  cases proto with
  | sftp => decide
  | ftp => decide

theorem rename_of_other_entry : ∃ m', WellFormed (smallTree ['a', '!', 'b']) ∧
    (smallTree ['a', '!', 'b']).setDataString ((smallTree ['a', '!', 'b']).persistent 1) ['c'] =
      some m' ∧
    ∃ c, m'.commandQueue = [c] ∧ ∀ proto,
      renameRequest proto smallRoot c.params = some (['/', 'a'], ['/', 'b', '!', 'c']) := by
  -- The entry `a!b` gets the name `c`: the server is asked to give `a` the name `b!c`.
  obtain ⟨m', hset, -, hq⟩ := setDataString_packs (smallTree_wellFormed ['a', '!', 'b'])
    (n := 1) (p := 0) rfl rfl rfl (show ['c'] ≠ [] by decide) (by decide)
  refine ⟨m', smallTree_wellFormed _, hset, _, hq, fun proto => ?_⟩
  cases proto with
  | sftp => decide
  | ftp => decide

/-! ## What the operations return -/

/-- What the server decides about each operation, by its path: 0 when it does what it is asked
for. -/
structure Outcomes where
  list : QString → List (QString × Attrib)
  mkdir : QString → Int
  rmdir : QString → Int
  unlink : QString → Int
  rename : QString → QString → Int
  stat : QString → Int × Attrib
  sftpLastError : Int
  /-- what the recursive remove finds in a directory -/
  entries : QString → List (QString × Entry)
  chdir : QString → Int
  passive : QString → Int
  connectDataChannel : QString → Int
  lista : QString → Int
  /-- what an uninitialised variable holds -/
  garbage : Int

section FtpReturns

open LibFtp Text

/-- The reply with the code of success, or a refusal. -/
def replyTo (code : String) (ret : Int) : Bytes :=
  toAscii ((if ret = 0 then code else "550").toList ++ " -".toList ++ crlf)

/-- What an operation of `LibFtp` returns for these replies. -/
def ftpReturns (op : Ftp Script → Option (Int × Ftp Script)) (answers : List Bytes) : Option Int :=
  (op { sock := { answers := answers }, codec := ⟨fromLatin1, toAscii⟩ }).map Prod.fst

theorem firstWord_replyTo (code : String) (hcode : code = "257" ∨ code = "250" ∨ code = "350")
    (ret : Int) : firstWord (fromLatin1 (replyTo code ret)) =
      (if ret = 0 then code else "550").toList := by
  unfold replyTo
  split
  · rcases hcode with rfl | rfl | rfl <;> decide
  · decide

theorem expectFirst_returns {code : String} (hcode : code = "257" ∨ code = "250" ∨ code = "350")
    (cmd : QString) (ret : Int) :
    ftpReturns (expectFirst scripted cmd code) [replyTo code ret] =
      if ret = 0 then some 0 else none := by
  have hrefused : "550".toList ≠ code.toList := by
    rcases hcode with rfl | rfl | rfl <;> decide
  simp only [ftpReturns, expectFirst, command_scripted, exchange_scripted, List.headD_cons,
    firstWord_replyTo code hcode, expect]
  by_cases hret : ret = 0
  · simp [hret]
  · rw [if_neg hret, if_neg hret, if_neg hrefused]
    rfl

theorem rename_returns (src dest : QString) (ret : Int) :
    ftpReturns (LibFtp.rename scripted src dest) [replyTo "350" ret, replyTo "250" ret] =
      if ret = 0 then some 0 else none := by
  simp only [ftpReturns, LibFtp.rename, command_scripted, exchange_scripted, List.headD_cons,
    List.tail_cons, firstWord_replyTo "350" (by decide), firstWord_replyTo "250" (by decide), expect,
    Option.bind_eq_bind]
  by_cases hret : ret = 0
  · simp [hret]
  · rw [if_neg hret, if_neg hret, if_neg hret, if_neg (by decide)]
    rfl

end FtpReturns

def Outcomes.mkdirReturns (srv : Outcomes) (proto : Protocol) (path : QString) : Option Int :=
  match proto with
  | .sftp => some (srv.mkdir path)
  | .ftp => ftpReturns (LibFtp.mkdir LibFtp.scripted path) [replyTo "257" (srv.mkdir path)]

def Outcomes.rmdirReturns (srv : Outcomes) (proto : Protocol) (path : QString) : Option Int :=
  match proto with
  | .sftp => some (srv.rmdir path)
  | .ftp => ftpReturns (LibFtp.rmdir LibFtp.scripted path) [replyTo "250" (srv.rmdir path)]

def Outcomes.renameReturns (srv : Outcomes) (proto : Protocol) (src dest : QString) : Option Int :=
  match proto with
  | .sftp => some (srv.rename src dest)
  | .ftp => ftpReturns (LibFtp.rename LibFtp.scripted src dest)
      [replyTo "350" (srv.rename src dest), replyTo "250" (srv.rename src dest)]

/-- What is returned for a decision of the server: `LibFtp` does not return a refusal. -/
def returned (proto : Protocol) (ret : Int) : Option Int :=
  match proto with
  | .sftp => some ret
  | .ftp => if ret = 0 then some 0 else none

section Returned

variable (srv : Outcomes) (proto : Protocol) (path dest : QString)

@[simp]
theorem mkdirReturns_eq : srv.mkdirReturns proto path = returned proto (srv.mkdir path) := by
  cases proto with
  | sftp => rfl
  | ftp => exact expectFirst_returns (.inl rfl) _ _

@[simp]
theorem rmdirReturns_eq : srv.rmdirReturns proto path = returned proto (srv.rmdir path) := by
  cases proto with
  | sftp => rfl
  | ftp => exact expectFirst_returns (.inr (.inl rfl)) _ _

@[simp]
theorem renameReturns_eq :
    srv.renameReturns proto path dest = returned proto (srv.rename path dest) := by
  cases proto with
  | sftp => rfl
  | ftp => exact rename_returns path dest _

end Returned

/-! ## The recursive remove, by its results -/

/-- The directories that the recursion goes into, from the last one to the first. -/
def Outcomes.subdirs (srv : Outcomes) (path : QString) : List QString :=
  ((srv.entries path).reverse.filter fun e => e.2 = .dir ∧ e.1 ≠ ['.'] ∧ e.1 ≠ ['.', '.']).map Prod.fst

/-- `SSHDirRetriver::rm_file_or_directory_recursively_ex`: `none` when it has not returned before
the given depth. What the files and the directories below return is dropped. -/
def sshRmExStatus (srv : Outcomes) : Nat → QString → Option Int
  | 0, _ => none
  | depth + 1, path => do
    (srv.subdirs path).forM fun name => do
      let _ ← sshRmExStatus srv depth (childPath path name)
    some (if srv.rmdir path = 0 then 0 else srv.unlink path)

/-- `FTPDirRetriver::rm_file_or_directory_recursively_ex`: `none` also when an assertion fails. -/
def ftpRmExStatus (srv : Outcomes) : Nat → QString → Option Int
  | 0, _ => none
  | depth + 1, path =>
    if srv.chdir path = 0 then do
      guard (srv.passive path = 0)
      guard (srv.connectDataChannel path = 0)
      guard (srv.lista path = 0)
      (srv.subdirs path).forM fun name => do
        let ret ← ftpRmExStatus srv depth (childPath path name)
        guard (ret = 0)
      srv.rmdirReturns .ftp path
    else some (srv.unlink path)

def rmExStatus (proto : Protocol) (srv : Outcomes) : Nat → QString → Option Int :=
  match proto with
  | .sftp => sshRmExStatus srv
  | .ftp => ftpRmExStatus srv

/-- The server removes the entry at the path itself. -/
def Grants (proto : Protocol) (srv : Outcomes) (path : QString) : Prop :=
  match proto with
  | .sftp => srv.rmdir path = 0 ∨ srv.unlink path = 0
  | .ftp => if srv.chdir path = 0 then srv.rmdir path = 0 else srv.unlink path = 0

theorem rmExStatus_eq_zero {proto : Protocol} {srv : Outcomes} {depth : Nat} {path : QString}
    {ret : Int} (h : rmExStatus proto srv depth path = some ret) : ret = 0 ↔ Grants proto srv path := by
  cases proto with
  | sftp =>
    cases depth with
    | zero => simp [rmExStatus, sshRmExStatus] at h
    | succ depth =>
      simp only [rmExStatus, sshRmExStatus, Option.bind_eq_bind, Option.bind_eq_some_iff] at h
      obtain ⟨-, -, h⟩ := h
      rw [← Option.some.inj h, Grants]
      split
      · simp [*]
      · simp [*]
  | ftp =>
    cases depth with
    | zero => simp [rmExStatus, ftpRmExStatus] at h
    | succ depth =>
      simp only [rmExStatus, ftpRmExStatus] at h
      rw [Grants]
      split at h
      · next hdir =>
        simp only [Option.bind_eq_bind, Option.bind_eq_some_iff, rmdirReturns_eq, returned] at h
        obtain ⟨-, -, -, -, -, -, -, -, h⟩ := h
        rw [if_pos hdir]
        split at h
        · next hrm => simp [hrm, ← Option.some.inj h]
        · cases h
      · next hdir => rw [← Option.some.inj h, if_neg hdir]

theorem ftpRmExStatus_not_granted {srv : Outcomes} {path : QString} (h : ¬Grants .ftp srv path) :
    (∃ depth, rmExStatus .ftp srv depth path ≠ none) ↔ srv.chdir path ≠ 0 := by
  constructor
  · rintro ⟨depth, hret⟩ hdir
    obtain ⟨ret, hret⟩ := Option.ne_none_iff_exists'.mp hret
    cases depth with
    | zero => simp [rmExStatus, ftpRmExStatus] at hret
    | succ depth =>
      simp only [rmExStatus, ftpRmExStatus, if_pos hdir, Option.bind_eq_bind,
        Option.bind_eq_some_iff, rmdirReturns_eq, returned] at hret
      obtain ⟨-, -, -, -, -, -, -, -, hret⟩ := hret
      rw [Grants, if_pos hdir] at h
      rw [if_neg h] at hret
      cases hret
  · intro hdir
    exact ⟨1, by simp [rmExStatus, ftpRmExStatus, hdir]⟩

/-- What the operations return to a retriever, with a limit on the depth of the recursion. -/
def Outcomes.replies (srv : Outcomes) (proto : Protocol) (depth : Nat) : Replies where
  list := srv.list
  mkdir := srv.mkdirReturns proto
  rmdir := srv.rmdirReturns proto
  rmFileOrDirectoryRecursivelyEx := rmExStatus proto srv depth
  rename := srv.renameReturns proto
  stat := srv.stat
  sftpLastError := srv.sftpLastError
  noop := some 0
  garbage := srv.garbage

/-! ## The status of a command -/

inductive Request where
  | mkdir (name : QString)
  | rmdir (name : QString)
  | remove (name : QString)
  | rename (old new : QString)
  | realpath

/-- The command that the UI queues. -/
def Request.elem (parentItem persisIndex : Nat) : Request → CommandElem
  | .mkdir name => ⟨parentItem, persisIndex, ssh2FxpMkdir, name⟩
  | .rmdir name => ⟨parentItem, persisIndex, ssh2FxpRmdir, name⟩
  | .remove name => ⟨parentItem, persisIndex, ssh2FxpRemove, name⟩
  | .rename old new => ⟨parentItem, persisIndex, ssh2FxpRename, old ++ '!' :: new⟩
  | .realpath => ⟨parentItem, persisIndex, ssh2FxpRealpath, []⟩

/-- The child that a recursive remove is called for. -/
def selected (nodes : Nat → Option NetDirNode) (nd : NetDirNode) (params : QString) :
    Option NetDirNode :=
  if sysDirs.contains (childPath nd.fullPath params) then none
  else (findChild nodes nd params (List.range nd.childNodes.count)).join

/-- The status that goes to `execute_command_finished`. There is none when an assertion fails. -/
def reported (proto : Protocol) (srv : Outcomes) (depth : Nat) (c : CommandElem) (s : Loop) :
    Option Int :=
  (execute proto (srv.replies proto depth) c s).map Prod.fst

def leadsToDir (srv : Outcomes) (path : QString) : Prop :=
  (srv.stat path).1 = 0 ∧ (srv.stat path).2.permissions &&& 0o170000 = 0o040000

/-- What was requested has happened on the server. -/
def TookEffect (proto : Protocol) (srv : Outcomes) (s : Loop) (nd : NetDirNode) : Request → Prop
  | .mkdir name => srv.mkdir (childPath nd.fullPath name) = 0
  | .rmdir name =>
    sysDirsShort.contains (childPath nd.fullPath name) = false ∧ srv.rmdir (childPath nd.fullPath name) = 0
  | .remove name => ∃ childItem, selected s.nodes nd name = some childItem ∧
      Grants proto srv childItem.fullPath
  | .rename old new =>
    renameRequest proto nd (old ++ '!' :: new) =
      some (childPath nd.fullPath old, childPath nd.fullPath new) ∧
    srv.rename (childPath nd.fullPath old) (childPath nd.fullPath new) = 0
  | .realpath => leadsToDir srv nd.fullPath

/-- There is a status, it says whether the request took effect, and it does not depend on the
protocol. -/
structure TellsTruth (srv : Outcomes) (p i : Nat) (s : Loop) (nd : NetDirNode) (r : Request) : Prop where
  reports : ∀ proto, ∃ depth, reported proto srv depth (r.elem p i) s ≠ none
  truth : ∀ proto depth status, reported proto srv depth (r.elem p i) s = some status →
    (status = 0 ↔ TookEffect proto srv s nd r)
  same : ∀ depth depth' status status',
    reported .sftp srv depth (r.elem p i) s = some status →
    reported .ftp srv depth' (r.elem p i) s = some status' → (status = 0 ↔ status' = 0)

/-- What the server has to answer for the status to tell the truth. -/
def SafeAnswer (srv : Outcomes) (s : Loop) (nd : NetDirNode) : Request → Prop
  | .mkdir _ => False
  | .rmdir name =>
    sysDirsShort.contains (childPath nd.fullPath name) = false →
      srv.rmdir (childPath nd.fullPath name) = 0
  | .remove name => ∀ childItem, selected s.nodes nd name = some childItem →
      (∃ depth, sshRmExStatus srv depth childItem.fullPath ≠ none) ∧
        srv.rmdir childItem.fullPath ≠ 0 ∧ srv.unlink childItem.fullPath ≠ 0 ∧
          srv.chdir childItem.fullPath ≠ 0
  | .rename old new =>
    let names := renameNames (old ++ '!' :: new)
    let absPath := childPath nd.fullPath names.1
    renameGuarded .ftp absPath = false →
      srv.rename absPath (childPath nd.fullPath names.2) = 0 ∧ '!' ∉ old ∧
        renameGuarded .sftp absPath = false
  | .realpath => srv.garbage = 0 ↔ leadsToDir srv nd.fullPath

section Reported

variable {s : Loop} {p : Nat} {nd : NetDirNode} (hnd : s.nodes p = some nd) (proto : Protocol)
  (srv : Outcomes) (depth i : Nat)

include hnd

theorem reported_mkdir (name : QString) :
    reported proto srv depth ((Request.mkdir name).elem p i) s =
      mkdirStatus proto (srv.replies proto depth) nd name := by
  cases h : mkdirStatus proto (srv.replies proto depth) nd name
  all_goals
    simp [reported, Request.elem, execute, hnd, addNode_eq hnd, h, ssh2FxpReaddir, ssh2FxpMkdir]

theorem reported_rmdir (name : QString) :
    reported proto srv depth ((Request.rmdir name).elem p i) s =
      rmdirStatus (srv.replies proto depth) nd name := by
  cases h : rmdirStatus (srv.replies proto depth) nd name
  all_goals
    simp [reported, Request.elem, execute, hnd, addNode_eq hnd, h, ssh2FxpReaddir, ssh2FxpMkdir,
      ssh2FxpRmdir]

theorem reported_remove (name : QString) :
    reported proto srv depth ((Request.remove name).elem p i) s =
      rmStatus (srv.replies proto depth) s.nodes nd name := by
  cases h : rmStatus (srv.replies proto depth) s.nodes nd name
  all_goals
    simp [reported, Request.elem, execute, hnd, addNode_eq hnd, h, ssh2FxpReaddir, ssh2FxpMkdir,
      ssh2FxpRmdir, ssh2FxpRemove]

theorem reported_rename (old new : QString) :
    reported proto srv depth ((Request.rename old new).elem p i) s =
      renameStatus proto (srv.replies proto depth) nd (old ++ '!' :: new) := by
  cases h : renameStatus proto (srv.replies proto depth) nd (old ++ '!' :: new)
  all_goals
    simp [reported, Request.elem, execute, hnd, addNode_eq hnd, h, ssh2FxpReaddir, ssh2FxpMkdir,
      ssh2FxpRmdir, ssh2FxpRemove, ssh2FxpRename]

theorem reported_realpath :
    reported proto srv depth (Request.realpath.elem p i) s =
      some (fxpRealpathStatus proto (srv.replies proto depth) nd) := by
  simp [reported, Request.elem, execute, hnd, ssh2FxpReaddir, ssh2FxpMkdir, ssh2FxpRmdir,
    ssh2FxpRemove, ssh2FxpRename, ssh2FxpKeepAlive, ssh2FxpRealpath]

end Reported

@[simp]
theorem returned_eq_zero {proto : Protocol} {ret : Int} : returned proto ret = some 0 ↔ ret = 0 := by
  cases proto with
  | sftp => simp [returned]
  | ftp => simp [returned]

theorem rmStatus_eq_some {proto : Protocol} {srv : Outcomes} {depth : Nat} {s : Loop}
    (hc : ChildrenLive s.nodes) {p : Nat} {nd : NetDirNode} (hnd : s.nodes p = some nd)
    {name : QString} {status : Int} :
    rmStatus (srv.replies proto depth) s.nodes nd name = some status ↔
      status = -1 ∧ ∀ childItem, selected s.nodes nd name = some childItem →
        rmExStatus proto srv depth childItem.fullPath ≠ none := by
  unfold rmStatus selected
  split
  · simp [eq_comm]
  · obtain ⟨found, hfound⟩ := Option.isSome_iff_exists.mp (findChild_isSome hc hnd name
      (List.range nd.childNodes.count) fun i hi => List.mem_range.mp hi)
    rw [hfound]
    cases found with
    | none => simp [eq_comm]
    | some childItem =>
      simp only [Outcomes.replies, Option.bind_eq_bind, Option.bind_some, Option.bind_eq_some_iff,
        Option.some.injEq, Option.join_some, forall_eq', Option.ne_none_iff_exists']
      constructor
      · rintro ⟨ret, hret, rfl⟩
        exact ⟨rfl, ret, hret⟩
      · rintro ⟨rfl, ret, hret⟩
        exact ⟨ret, hret, rfl⟩

theorem fxpRealpathStatus_sftp (srv : Outcomes) (depth : Nat) (nd : NetDirNode) :
    fxpRealpathStatus .sftp (srv.replies .sftp depth) nd = 0 ↔ leadsToDir srv nd.fullPath := by
  simp only [fxpRealpathStatus, leadsToDir, beq_iff_eq, Outcomes.replies]
  split
  · next hret => simp [hret]
  · next hret =>
    split
    · next hdir => simp [hdir, not_not.mp hret]
    · next hdir => simp [hdir]

theorem renameGuarded_sftp_of_ftp {path : QString} (h : renameGuarded .ftp path = true) :
    renameGuarded .sftp path = true := by
  have hall : ∀ d ∈ sysDirsShort, sysDirsRename.contains (d.map Char.toLower) = true :=
    List.all_eq_true.mp (by decide)
  exact hall path (List.contains_iff_mem.mp h)

theorem renameStatus_replies (proto : Protocol) (srv : Outcomes) (depth : Nat) (nd : NetDirNode)
    (params : QString) : renameStatus proto (srv.replies proto depth) nd params =
      if renameGuarded proto (childPath nd.fullPath (renameNames params).1) then some (-1)
      else returned proto (srv.rename (childPath nd.fullPath (renameNames params).1)
        (childPath nd.fullPath (renameNames params).2)) := by
  rw [renameStatus_eq]
  unfold renameRequest
  by_cases hguard : renameGuarded proto (childPath nd.fullPath (renameNames params).1) = true
  · simp [hguard]
  · simp [hguard, Outcomes.replies]

theorem TellsTruth.of_reported {srv : Outcomes} {p i : Nat} {s : Loop} {nd : NetDirNode}
    {r : Request} {status : Protocol → Nat → Int}
    (hst : ∀ proto depth, reported proto srv depth (r.elem p i) s = some (status proto depth))
    (htruth : ∀ proto depth, status proto depth = 0 ↔ TookEffect proto srv s nd r)
    (hsame : ∀ depth depth', status .sftp depth = 0 ↔ status .ftp depth' = 0) :
    TellsTruth srv p i s nd r := by
  refine ⟨fun proto => ⟨0, by simp [hst]⟩, fun proto depth _ h => ?_, fun depth depth' _ _ h h' => ?_⟩
  · rw [hst, Option.some.injEq] at h
    rw [← h]
    exact htruth proto depth
  · rw [hst, Option.some.injEq] at h h'
    rw [← h, ← h']
    exact hsame depth depth'

section Truth

variable {s : Loop} {p : Nat} {nd : NetDirNode} (hnd : s.nodes p = some nd) (srv : Outcomes) (i : Nat)

include hnd

theorem tellsTruth_mkdir (name : QString) :
    TellsTruth srv p i s nd (.mkdir name) ↔ SafeAnswer srv s nd (.mkdir name) := by
  refine iff_of_false (fun h => ?_) id
  obtain ⟨depth, hreports⟩ := h.reports .ftp
  obtain ⟨status, hstatus⟩ := Option.ne_none_iff_exists'.mp hreports
  have htruth := h.truth .ftp depth status hstatus
  rw [reported_mkdir hnd] at hstatus
  obtain ⟨ret, hret, rfl⟩ := Option.map_eq_some_iff.mp hstatus
  simp only [Outcomes.replies, mkdirReturns_eq, returned] at hret
  split at hret
  · next hgranted => simpa using htruth.mpr hgranted
  · cases hret

theorem tellsTruth_rmdir (name : QString) :
    TellsTruth srv p i s nd (.rmdir name) ↔ SafeAnswer srv s nd (.rmdir name) := by
  have hreported : ∀ proto depth, reported proto srv depth ((Request.rmdir name).elem p i) s =
      if sysDirsShort.contains (childPath nd.fullPath name) then some (-1)
      else returned proto (srv.rmdir (childPath nd.fullPath name)) := by
    intro proto depth
    rw [reported_rmdir hnd]
    simp only [rmdirStatus, Outcomes.replies, rmdirReturns_eq]
  constructor
  · intro h hguard
    obtain ⟨depth, hreports⟩ := h.reports .ftp
    rw [hreported, hguard] at hreports
    by_contra hrefused
    exact hreports (if_neg hrefused)
  · intro hsafe
    cases hguard : sysDirsShort.contains (childPath nd.fullPath name) with
    | true =>
      simp only [hguard, if_true] at hreported
      refine .of_reported hreported (fun proto depth => ?_) fun _ _ => Iff.rfl
      exact iff_of_false (by decide) fun htook => by cases hguard.symm.trans htook.1
    | false =>
      have hgranted := hsafe hguard
      have hzero : ∀ proto depth, reported proto srv depth ((Request.rmdir name).elem p i) s =
          some 0 := by
        intro proto depth
        rw [hreported, hguard, hgranted]
        exact returned_eq_zero.mpr rfl
      exact .of_reported hzero (fun _ _ => iff_of_true rfl ⟨hguard, hgranted⟩) fun _ _ => Iff.rfl

theorem tellsTruth_remove (hc : ChildrenLive s.nodes) (name : QString) :
    TellsTruth srv p i s nd (.remove name) ↔ SafeAnswer srv s nd (.remove name) := by
  have hreported : ∀ {proto depth status},
      reported proto srv depth ((Request.remove name).elem p i) s = some status ↔
        status = -1 ∧ ∀ childItem, selected s.nodes nd name = some childItem →
          rmExStatus proto srv depth childItem.fullPath ≠ none := by
    intro proto depth status
    rw [reported_remove hnd]
    exact rmStatus_eq_some hc hnd
  constructor
  · intro h childItem hchild
    have hback : ∀ proto, (∃ depth, rmExStatus proto srv depth childItem.fullPath ≠ none) ∧
        ¬Grants proto srv childItem.fullPath := by
      intro proto
      obtain ⟨depth, hreports⟩ := h.reports proto
      obtain ⟨status, hstatus⟩ := Option.ne_none_iff_exists'.mp hreports
      have htruth := h.truth proto depth status hstatus
      obtain ⟨rfl, hret⟩ := hreported.mp hstatus
      exact ⟨⟨depth, hret childItem hchild⟩, fun hgrants => by
        simpa using htruth.mpr ⟨childItem, hchild, hgrants⟩⟩
    obtain ⟨hssh, hstays⟩ := hback .sftp
    obtain ⟨hrmdir, hunlink⟩ := not_or.mp hstays
    exact ⟨hssh, hrmdir, hunlink, (ftpRmExStatus_not_granted (hback .ftp).2).mp (hback .ftp).1⟩
  · intro hsafe
    have hnot : ∀ proto, ¬TookEffect proto srv s nd (.remove name) := by
      rintro proto ⟨childItem, hchild, hgrants⟩
      obtain ⟨-, hrmdir, hunlink, hchdir⟩ := hsafe childItem hchild
      cases proto with
      | sftp => exact hgrants.elim hrmdir hunlink
      | ftp =>
        rw [Grants, if_neg hchdir] at hgrants
        exact hunlink hgrants
    refine ⟨fun proto => ?_, fun proto depth status hst => ?_,
      fun depth depth' status status' hst hst' => ?_⟩
    · have hreturns : ∃ depth, ∀ childItem, selected s.nodes nd name = some childItem →
          rmExStatus proto srv depth childItem.fullPath ≠ none := by
        cases hchild : selected s.nodes nd name with
        | none => exact ⟨0, nofun⟩
        | some childItem =>
          obtain ⟨hssh, -, -, hchdir⟩ := hsafe childItem hchild
          have hchildReturns : ∃ depth, rmExStatus proto srv depth childItem.fullPath ≠ none := by
            cases proto with
            | sftp => exact hssh
            | ftp => exact ⟨1, by simp [rmExStatus, ftpRmExStatus, hchdir]⟩
          obtain ⟨depth, hret⟩ := hchildReturns
          exact ⟨depth, fun _ heq => Option.some.inj heq ▸ hret⟩
      obtain ⟨depth, hret⟩ := hreturns
      exact ⟨depth, Option.ne_none_iff_exists'.mpr ⟨-1, hreported.mpr ⟨rfl, hret⟩⟩⟩
    · obtain ⟨rfl, -⟩ := hreported.mp hst
      exact iff_of_false (by decide) (hnot proto)
    · rw [(hreported.mp hst).1, (hreported.mp hst').1]

theorem tellsTruth_rename (old new : QString) :
    TellsTruth srv p i s nd (.rename old new) ↔ SafeAnswer srv s nd (.rename old new) := by
  have hreported : ∀ proto depth,
      reported proto srv depth ((Request.rename old new).elem p i) s =
        if renameGuarded proto (childPath nd.fullPath (renameNames (old ++ '!' :: new)).1) then
          some (-1)
        else returned proto
          (srv.rename (childPath nd.fullPath (renameNames (old ++ '!' :: new)).1)
            (childPath nd.fullPath (renameNames (old ++ '!' :: new)).2)) := by
    intro proto depth
    rw [reported_rename hnd, renameStatus_replies]
  have htook : ∀ proto, TookEffect proto srv s nd (.rename old new) ↔
      ('!' ∉ old ∧ renameGuarded proto (childPath nd.fullPath old) = false) ∧
      srv.rename (childPath nd.fullPath old) (childPath nd.fullPath new) = 0 := by
    intro proto
    rw [TookEffect, renameRequest_packed_iff]
  rw [SafeAnswer]
  constructor
  · rintro ⟨hreports, htruth, hsame⟩ hguard
    obtain ⟨depth, hftp⟩ := hreports .ftp
    have hgranted : srv.rename (childPath nd.fullPath (renameNames (old ++ '!' :: new)).1)
        (childPath nd.fullPath (renameNames (old ++ '!' :: new)).2) = 0 := by
      by_contra hrefused
      apply hftp
      rw [hreported, hguard]
      exact if_neg hrefused
    have hzero : ∀ {proto depth}, renameGuarded proto
        (childPath nd.fullPath (renameNames (old ++ '!' :: new)).1) = false →
        reported proto srv depth ((Request.rename old new).elem p i) s = some 0 := by
      intro proto depth h
      rw [hreported, h, hgranted]
      exact returned_eq_zero.mpr rfl
    refine ⟨hgranted, ((htook .ftp).mp ((htruth .ftp 0 0 (hzero hguard)).mp rfl)).1.1, ?_⟩
    by_contra hsftp
    have hst : reported .sftp srv 0 ((Request.rename old new).elem p i) s = some (-1) := by
      rw [hreported, if_pos (by simpa using hsftp)]
    simpa using (hsame 0 0 _ _ hst (hzero hguard)).mpr rfl
  · intro hsafe
    cases hguard : renameGuarded .ftp
        (childPath nd.fullPath (renameNames (old ++ '!' :: new)).1) with
    | true =>
      -- Both retrievers refuse, whatever the server would do.
      have hboth : ∀ proto, renameGuarded proto
          (childPath nd.fullPath (renameNames (old ++ '!' :: new)).1) = true := by
        intro proto
        cases proto with
        | sftp => exact renameGuarded_sftp_of_ftp hguard
        | ftp => exact hguard
      have hst : ∀ proto depth,
          reported proto srv depth ((Request.rename old new).elem p i) s = some (-1) := by
        intro proto depth
        rw [hreported, if_pos (hboth proto)]
      refine .of_reported hst (fun proto depth => ?_) fun _ _ => Iff.rfl
      rw [htook]
      refine iff_of_false (by decide) fun htook => ?_
      have hnames := (renameNames_packed_iff old new).mpr htook.1.1
      have := hboth proto
      rw [hnames, htook.1.2] at this
      cases this
    | false =>
      obtain ⟨hgranted, hsep, hsftp⟩ := hsafe hguard
      have hneither : ∀ proto, renameGuarded proto
          (childPath nd.fullPath (renameNames (old ++ '!' :: new)).1) = false := by
        intro proto
        cases proto with
        | sftp => exact hsftp
        | ftp => exact hguard
      have hst : ∀ proto depth,
          reported proto srv depth ((Request.rename old new).elem p i) s = some 0 := by
        intro proto depth
        rw [hreported, hneither, hgranted]
        exact returned_eq_zero.mpr rfl
      rw [(renameNames_packed_iff old new).mpr hsep] at hgranted hneither
      refine .of_reported hst (fun proto depth => ?_) fun _ _ => Iff.rfl
      rw [htook]
      exact iff_of_true rfl ⟨⟨hsep, hneither proto⟩, hgranted⟩

theorem tellsTruth_realpath :
    TellsTruth srv p i s nd .realpath ↔ SafeAnswer srv s nd .realpath := by
  constructor
  · intro h
    exact h.truth .ftp 0 _ (reported_realpath hnd .ftp srv 0 i)
  · intro h
    have hzero : ∀ proto depth, fxpRealpathStatus proto (srv.replies proto depth) nd = 0 ↔
        leadsToDir srv nd.fullPath := by
      intro proto depth
      cases proto with
      | sftp => exact fxpRealpathStatus_sftp srv depth nd
      | ftp => exact h
    refine .of_reported (fun proto depth => reported_realpath hnd proto srv depth i) hzero
      fun depth depth' => ?_
    rw [hzero, hzero]

end Truth

/-- **The status tells the truth** exactly for the answers of `SafeAnswer`: `mkdir` never does,
`rmdir` when the server removes the directory, `remove` when it does not remove the entry, `rename`
when both retrievers ask for what the user wants and the server does it, and the resolution of a
link over FTP by chance. -/
theorem status_tells_truth_iff (srv : Outcomes) (s : Loop) (hc : ChildrenLive s.nodes) (p i : Nat)
    (nd : NetDirNode) (hnd : s.nodes p = some nd) (r : Request) :
    TellsTruth srv p i s nd r ↔ SafeAnswer srv s nd r := by
  cases r with
  | mkdir name => exact tellsTruth_mkdir hnd srv i name
  | rmdir name => exact tellsTruth_rmdir hnd srv i name
  | remove name => exact tellsTruth_remove hnd srv i hc name
  | rename old new => exact tellsTruth_rename hnd srv i old new
  | realpath => exact tellsTruth_realpath hnd srv i

/-- A server that does whatever it is asked for. -/
def grantsAll : Outcomes where
  list _ := []
  mkdir _ := 0
  rmdir _ := 0
  unlink _ := 0
  rename _ _ := 0
  stat _ := (0, { Attrib.zero with permissions := 0o040755 })
  sftpLastError := 0
  entries _ := []
  chdir _ := 0
  passive _ := 0
  connectDataChannel _ := 0
  lista _ := 0
  garbage := 0

/-- A retriever with the tree of `smallTree`. -/
def idleLoop : Loop where
  nodes := (smallTree ['a']).nodes
  commandQueue := []
  dirNodeProcessQueue := []
  signals := []

theorem status_tells_truth_rename :
    TellsTruth grantsAll 0 0 idleLoop smallRoot (.rename ['a'] ['b']) :=
  (status_tells_truth_iff grantsAll idleLoop
    (childrenLive_of_wellFormed (smallTree_wellFormed ['a'])) 0 0 smallRoot rfl _).mpr fun _ =>
      ⟨rfl, by decide, by decide⟩

theorem mkdir_reports_failure :
    TookEffect .ftp grantsAll idleLoop smallRoot (.mkdir ['b']) ∧
    reported .ftp grantsAll 0 ((Request.mkdir ['b']).elem 0 0) idleLoop = some (-1) ∧
    reported .sftp grantsAll 0 ((Request.mkdir ['b']).elem 0 0) idleLoop = some 0 ∧
    reported .ftp { grantsAll with mkdir := fun _ => 4 } 0 ((Request.mkdir ['b']).elem 0 0)
      idleLoop = none ∧
    ¬ TellsTruth grantsAll 0 0 idleLoop smallRoot (.mkdir ['b']) := by
  -- The directory `/b` is made, and the FTP retriever reports that it was not. A server that
  -- refuses ends the program.
  have hroot : idleLoop.nodes 0 = some smallRoot := rfl
  refine ⟨rfl, ?_, ?_, ?_, fun h => (tellsTruth_mkdir hroot grantsAll 0 ['b']).mp h⟩
  · rw [reported_mkdir hroot]
    simp [mkdirStatus, Outcomes.replies, returned, grantsAll]
  · rw [reported_mkdir hroot]
    simp [mkdirStatus, Outcomes.replies, returned, grantsAll]
  · rw [reported_mkdir hroot]
    simp [mkdirStatus, Outcomes.replies, returned]

end NullFxp.Retriver
