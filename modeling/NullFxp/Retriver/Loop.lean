import Mathlib.Algebra.GroupWithZero.Nat
import Mathlib.Data.List.Sort
import NullFxp.RemoteDirModel.Requests
import NullFxp.Retriver.Remove

/-!
# The loop of the retriever thread

`run` takes one command after another from the front of the queue. A command that changes a
directory appends a `READDIR` of it, and a `READDIR` goes through a second container, a map
from nodes to indexes in which a second entry for a node would be lost.
-/

open NullFxp.RemoteDirModel

namespace NullFxp.Retriver

/-! ## The queue -/

def ssh2FxpReaddir : Int := 12
def ssh2FxpRemove : Int := 13
def ssh2FxpMkdir : Int := 14
def ssh2FxpRmdir : Int := 15
def ssh2FxpRealpath : Int := 16
def ssh2FxpRename : Int := 18
def ssh2FxpKeepAlive : Int := 8888

/-- `command_queue_elem`, with the code of the command as the callers give it. -/
structure CommandElem where
  parentItem : Nat
  persisIndex : Nat
  cmd : Int
  params : QString
  deriving DecidableEq

inductive Signal where
  | enterRemoteDirRetriveLoop
  | remoteDirNodeRetrived (parentItem persisIndex : Nat) (newNodes : List NetDirNode)
  | executeCommandFinished (parentItem persisIndex : Nat) (cmd status : Int)
  | leaveRemoteDirRetriveLoop

structure Loop where
  nodes : Nat → Option NetDirNode
  commandQueue : List CommandElem
  /-- `dir_node_process_queue`, in the order of its keys -/
  dirNodeProcessQueue : List (Nat × Nat)
  signals : List Signal

/-- `std::map::insert`, which leaves an entry that is there as it is. -/
def mapInsert (map : List (Nat × Nat)) (key value : Nat) : List (Nat × Nat) :=
  if map.any fun e => e.1 == key then map
  else List.orderedInsert (fun a b => a.1 ≤ b.1) (key, value) map

/-- The values that the server operations return while one command is executed. `none` is a failed
assertion in `LibFtp`, or in the recursive remove. -/
structure Replies where
  list : QString → List (QString × Attrib)
  mkdir : QString → Option Int
  rmdir : QString → Option Int
  rmFileOrDirectoryRecursivelyEx : QString → Option Int
  rename : QString → QString → Option Int
  stat : QString → Int × Attrib
  sftpLastError : Int
  noop : Option Int
  /-- what an uninitialised variable holds -/
  garbage : Int

/-- No operation aborts the program. -/
structure Replies.Returns (srv : Replies) : Prop where
  mkdir : ∀ path, srv.mkdir path ≠ none
  rmdir : ∀ path, srv.rmdir path ≠ none
  rmEx : ∀ path, srv.rmFileOrDirectoryRecursivelyEx path ≠ none
  rename : ∀ src dest, srv.rename src dest ≠ none
  noop : srv.noop ≠ none

namespace Loop

def addNode (s : Loop) (parentItem persisIndex : Nat) : Option Loop := do
  let nd ← s.nodes parentItem
  some { s with
    nodes := Function.update s.nodes parentItem
      (some { nd with prevFlag := nd.retrFlag, retrFlag := popUpdating })
    commandQueue := s.commandQueue ++ [⟨parentItem, persisIndex, ssh2FxpReaddir, []⟩] }

def slotExecuteCommand (s : Loop) (parentItem persisIndex : Nat) (cmd : Int) (params : QString) :
    Loop :=
  { s with commandQueue := s.commandQueue ++ [⟨parentItem, persisIndex, cmd, params⟩] }

end Loop

/-! ## The commands -/

def sysDirsShort : List QString :=
  ["/usr", "/bin", "/sbin", "/lib", "/etc", "/dev", "/proc", "/mnt", "/sys", "/var"].map String.toList

/-- The guard of the SSH `rename` knows more names, and ignores the case. -/
def sysDirsRename : List QString := sysDirs ++ ["c:", "d:", "e:", "f:", "g:"].map String.toList

/-- `retrive_dir`. Each round handles the first entry of the map, and erases it. -/
def retriveDirLoop (proto : Protocol) (srv : Replies) (nodes : Nat → Option NetDirNode) :
    List (Nat × Nat) → Option (List Signal)
  | [] => some []
  | (parentItem, persisIndex) :: map => do
    let nd ← nodes parentItem
    let newNodes := RemoteDirModel.retriveDir proto nd (srv.list (nd.fullPath ++ ['/']))
    let signals ← retriveDirLoop proto srv nodes map
    some (.remoteDirNodeRetrived parentItem persisIndex newNodes :: signals)

/-- The result of `retrive_dir` is 0 if the loop made a round. -/
def retriveDir (proto : Protocol) (srv : Replies) (s : Loop) : Option (Int × Loop) := do
  let signals ← retriveDirLoop proto srv s.nodes s.dirNodeProcessQueue
  some (if s.dirNodeProcessQueue = [] then -1 else 0,
    { s with dirNodeProcessQueue := [], signals := s.signals ++ signals })

/-- The FTP version drops what `LibFtp` returns. -/
def mkdirStatus (proto : Protocol) (srv : Replies) (nd : NetDirNode) (params : QString) :
    Option Int :=
  (srv.mkdir (childPath nd.fullPath params)).map fun ret =>
    match proto with
    | .sftp => ret
    | .ftp => -1

def rmdirStatus (srv : Replies) (nd : NetDirNode) (params : QString) : Option Int :=
  let absPath := childPath nd.fullPath params
  if sysDirsShort.contains absPath then some (-1) else srv.rmdir absPath

/-- The old and the new name stand before and after the first `!`. Without one, `mid(0, -1)` and
`mid(0, -1)` give the whole text twice. -/
def renameNames (params : QString) : QString × QString :=
  if params.contains '!' then
    (params.takeWhile (· ≠ '!'), (params.dropWhile (· ≠ '!')).drop 1)
  else (params, params)

def renameStatus (proto : Protocol) (srv : Replies) (nd : NetDirNode) (params : QString) :
    Option Int :=
  let absPath := childPath nd.fullPath (renameNames params).1
  let absPathRenameTo := childPath nd.fullPath (renameNames params).2
  let guarded := match proto with
    | .sftp => sysDirsRename.contains (absPath.map Char.toLower)
    | .ftp => sysDirsShort.contains absPath
  if guarded then some (-1) else srv.rename absPath absPathRenameTo

/-- The search of `rm_file_or_directory_recursively` for the child to remove. -/
def findChild (nodes : Nat → Option NetDirNode) (nd : NetDirNode) (name : QString) :
    List Nat → Option (Option NetDirNode)
  | [] => some none
  | i :: is => do
    let c ← nd.childAt i
    let childItem ← nodes c
    if childItem.fileName = name then some (some childItem) else findChild nodes nd name is

/-- `rm_file_or_directory_recursively` returns -1 whatever the recursion returns. -/
def rmStatus (srv : Replies) (nodes : Nat → Option NetDirNode) (nd : NetDirNode)
    (params : QString) : Option Int :=
  if sysDirs.contains (childPath nd.fullPath params) then some (-1)
  else do
    match ← findChild nodes nd params (List.range nd.childNodes.count) with
    | some childItem =>
      let _ ← srv.rmFileOrDirectoryRecursivelyEx childItem.fullPath
      some (-1)
    | none => some (-1)

def keepAliveStatus (proto : Protocol) (srv : Replies) : Option Int :=
  match proto with
  | .sftp =>
    -- `SSH2_FX_NO_SUCH_FILE`
    if srv.sftpLastError = 2 then some 0
    else some (srv.stat "/nullfxp_keep_alive_dummy_directory".toList).1
  | .ftp => srv.noop

def fxpRealpathStatus (proto : Protocol) (srv : Replies) (nd : NetDirNode) : Int :=
  match proto with
  | .sftp =>
    let (ret, attrib) := srv.stat nd.fullPath
    if ret ≠ 0 then ret else if attrib.permissions &&& 0o170000 == 0o040000 then 0 else 1
  | .ftp => srv.garbage

def execute (proto : Protocol) (srv : Replies) (c : CommandElem) (s : Loop) : Option (Int × Loop) :=
  if c.cmd = ssh2FxpReaddir then
    retriveDir proto srv
      { s with dirNodeProcessQueue := mapInsert s.dirNodeProcessQueue c.parentItem c.persisIndex }
  else if c.cmd = ssh2FxpMkdir then do
    let nd ← s.nodes c.parentItem
    let status ← mkdirStatus proto srv nd c.params
    let s ← s.addNode c.parentItem c.persisIndex
    some (status, s)
  else if c.cmd = ssh2FxpRmdir then do
    let nd ← s.nodes c.parentItem
    let status ← rmdirStatus srv nd c.params
    let s ← s.addNode c.parentItem c.persisIndex
    some (status, s)
  else if c.cmd = ssh2FxpRemove then do
    let nd ← s.nodes c.parentItem
    let status ← rmStatus srv s.nodes nd c.params
    let s ← s.addNode c.parentItem c.persisIndex
    some (status, s)
  else if c.cmd = ssh2FxpRename then do
    let nd ← s.nodes c.parentItem
    let status ← renameStatus proto srv nd c.params
    let s ← s.addNode c.parentItem c.persisIndex
    some (status, s)
  else if c.cmd = ssh2FxpKeepAlive then (keepAliveStatus proto srv).map fun status => (status, s)
  else if c.cmd = ssh2FxpRealpath then do
    let nd ← s.nodes c.parentItem
    some (fxpRealpathStatus proto srv nd, s)
  else some (-1, s)

def iterate (proto : Protocol) (srv : Replies) (s : Loop) : Option Loop := do
  let c ← s.commandQueue.head?
  let (status, s) ← execute proto srv c s
  some { s with
    signals := s.signals ++ [.executeCommandFinished c.parentItem c.persisIndex c.cmd status]
    commandQueue := s.commandQueue.tail }

/-! ## The run -/

inductive Push where
  | addNode (parentItem persisIndex : Nat)
  | slotExecuteCommand (parentItem persisIndex : Nat) (cmd : Int) (params : QString)

def Push.elem : Push → CommandElem
  | .addNode parentItem persisIndex => ⟨parentItem, persisIndex, ssh2FxpReaddir, []⟩
  | .slotExecuteCommand parentItem persisIndex cmd params => ⟨parentItem, persisIndex, cmd, params⟩

def push (s : Loop) : Push → Option Loop
  | .addNode parentItem persisIndex => s.addNode parentItem persisIndex
  | .slotExecuteCommand parentItem persisIndex cmd params =>
    some (s.slotExecuteCommand parentItem persisIndex cmd params)

/-- A command that changes a directory has it listed again. -/
def followUp (c : CommandElem) : List CommandElem :=
  if c.cmd = ssh2FxpMkdir ∨ c.cmd = ssh2FxpRmdir ∨ c.cmd = ssh2FxpRemove ∨ c.cmd = ssh2FxpRename then
    [⟨c.parentItem, c.persisIndex, ssh2FxpReaddir, []⟩]
  else []

def rounds (c : CommandElem) : Nat := 1 + (followUp c).length

/-- The loop of `run`. Round `k` sees the server answer `srv k`, and `arrivals` is what the UI
thread pushes after this round, after the next, and so on. -/
def runLoop (proto : Protocol) (srv : Nat → Replies) :
    Nat → Nat → List (List Push) → Loop → Option Loop
  | 0, _, _, s => some s
  | fuel + 1, k, arrivals, s =>
    if s.commandQueue = [] then some s
    else do
      let s ← iterate proto (srv k) s
      let s ← (arrivals.headD []).foldlM push s
      runLoop proto srv fuel (k + 1) arrivals.tail s

/-- The source has no limit on the number of rounds; this one is never reached. -/
def enoughRounds (arrivals : List (List Push)) (s : Loop) : Nat :=
  (s.commandQueue.map rounds).sum + (arrivals.flatten.map fun p => rounds p.elem).sum

def run (proto : Protocol) (srv : Nat → Replies) (arrivals : List (List Push)) (s : Loop) :
    Option Loop := do
  let s := { s with signals := s.signals ++ [.enterRemoteDirRetriveLoop] }
  let s ← runLoop proto srv (enoughRounds arrivals s) 0 arrivals s
  some { s with signals := s.signals ++ [.leaveRemoteDirRetriveLoop] }

/-! ## First in, first out -/

/-- The queue as it should be: what is at the front is taken, and the `READDIR` that it asks for
and then the commands of the UI thread are put at the end. -/
inductive Fifo : List CommandElem → List (List Push) → List CommandElem → Prop where
  | done {arrivals : List (List Push)} : Fifo [] arrivals []
  | next {c : CommandElem} {queue processed : List CommandElem} {arrivals : List (List Push)}
    (h : Fifo (queue ++ followUp c ++ (arrivals.headD []).map Push.elem) arrivals.tail processed) :
    Fifo (c :: queue) arrivals (c :: processed)

def pushed : List CommandElem → List (List Push) → List CommandElem
  | [], _ => []
  | c :: cs, arrivals => followUp c ++ (arrivals.headD []).map Push.elem ++ pushed cs arrivals.tail

theorem Fifo.processed_eq {queue processed : List CommandElem} {arrivals : List (List Push)}
    (h : Fifo queue arrivals processed) : processed = queue ++ pushed processed arrivals := by
  induction h with
  | done => rfl
  | next _ ih =>
    rw [pushed, List.cons_append, List.cons_inj_right]
    nth_rewrite 1 [ih]
    simp only [List.append_assoc]

def newNodesOf (proto : Protocol) (srv : Replies) (nodes : Nat → Option NetDirNode) (n : Nat) :
    List NetDirNode :=
  match nodes n with
  | none => []
  | some nd => RemoteDirModel.retriveDir proto nd (srv.list (nd.fullPath ++ ['/']))

/-- The status of a command whose operations return. -/
def statusOf (proto : Protocol) (srv : Replies) (nodes : Nat → Option NetDirNode) (c : CommandElem) :
    Int :=
  match nodes c.parentItem with
  | none => -1
  | some nd =>
    if c.cmd = ssh2FxpReaddir then 0
    else if c.cmd = ssh2FxpMkdir then (mkdirStatus proto srv nd c.params).getD (-1)
    else if c.cmd = ssh2FxpRmdir then (rmdirStatus srv nd c.params).getD (-1)
    else if c.cmd = ssh2FxpRemove then -1
    else if c.cmd = ssh2FxpRename then (renameStatus proto srv nd c.params).getD (-1)
    else if c.cmd = ssh2FxpKeepAlive then (keepAliveStatus proto srv).getD (-1)
    else if c.cmd = ssh2FxpRealpath then fxpRealpathStatus proto srv nd
    else -1

def answer (proto : Protocol) (srv : Replies) (nodes : Nat → Option NetDirNode) (c : CommandElem) :
    List Signal :=
  (if c.cmd = ssh2FxpReaddir then
    [.remoteDirNodeRetrived c.parentItem c.persisIndex (newNodesOf proto srv nodes c.parentItem)]
  else []) ++
  [.executeCommandFinished c.parentItem c.persisIndex c.cmd (statusOf proto srv nodes c)]

/-! ## One round -/

def ChildrenLive (nodes : Nat → Option NetDirNode) : Prop :=
  ∀ n nd, nodes n = some nd → ∀ i < nd.childNodes.count, ∃ c cd, nd.childAt i = some c ∧ nodes c = some cd

def SameButFlags (nodes nodes' : Nat → Option NetDirNode) : Prop :=
  ∀ x, (nodes' x).map (fun nd => (nd.fullPath, nd.childNodes)) =
    (nodes x).map fun nd => (nd.fullPath, nd.childNodes)

section Round

variable {nodes nodes' : Nat → Option NetDirNode}

theorem SameButFlags.node (h : SameButFlags nodes nodes') {x : Nat} {xd : NetDirNode}
    (hx : nodes x = some xd) : ∃ xd', nodes' x = some xd' ∧ xd'.fullPath = xd.fullPath ∧
      xd'.childNodes = xd.childNodes := by
  have hx' := h x
  rw [hx, Option.map_some, Option.map_eq_some_iff] at hx'
  obtain ⟨xd', hxd', heq⟩ := hx'
  simp only [Prod.mk.injEq] at heq
  exact ⟨xd', hxd', heq⟩

theorem SameButFlags.symm (h : SameButFlags nodes nodes') : SameButFlags nodes' nodes :=
  fun x => (h x).symm

theorem SameButFlags.live (h : SameButFlags nodes nodes') {x : Nat} (hx : nodes x ≠ none) :
    nodes' x ≠ none := by
  obtain ⟨xd, hxd⟩ := Option.ne_none_iff_exists'.mp hx
  obtain ⟨xd', hxd', -⟩ := h.node hxd
  simp [hxd']

theorem SameButFlags.childrenLive (h : SameButFlags nodes nodes') (hc : ChildrenLive nodes) :
    ChildrenLive nodes' := by
  intro n nd' hn i hi
  obtain ⟨nd, hnd, -, hrows⟩ := h.symm.node hn
  obtain ⟨c, cd, hat, hcd⟩ := hc n nd hnd i (by rwa [hrows])
  obtain ⟨cd', hcd', -⟩ := h.node hcd
  refine ⟨c, cd', ?_, hcd'⟩
  rw [NetDirNode.childAt, ← hrows]
  exact hat

theorem newItem_congr {nd nd' : NetDirNode} (h : nd'.fullPath = nd.fullPath) (proto : Protocol) :
    RemoteDirModel.retriveDir proto nd' = RemoteDirModel.retriveDir proto nd := by
  funext entries
  simp only [RemoteDirModel.retriveDir, newItem, h]

theorem SameButFlags.answer_eq (h : SameButFlags nodes nodes') (proto : Protocol) (srv : Replies)
    (c : CommandElem) : answer proto srv nodes' c = answer proto srv nodes c := by
  cases hc : nodes c.parentItem with
  | none =>
    have hc' : nodes' c.parentItem = none := by
      have := h c.parentItem
      simpa [hc] using this
    simp only [answer, newNodesOf, statusOf, hc, hc']
  | some nd =>
    obtain ⟨nd', hc', hpath, -⟩ := h.node hc
    simp only [answer, newNodesOf, statusOf, hc, hc', hpath, newItem_congr hpath, mkdirStatus,
      rmdirStatus, renameStatus, fxpRealpathStatus]

theorem addNode_eq {s : Loop} {n : Nat} {nd : NetDirNode} (hn : s.nodes n = some nd) (i : Nat) :
    s.addNode n i = some { s with
      nodes := Function.update s.nodes n
        (some { nd with prevFlag := nd.retrFlag, retrFlag := popUpdating })
      commandQueue := s.commandQueue ++ [⟨n, i, ssh2FxpReaddir, []⟩] } := by
  rw [Loop.addNode, hn]
  rfl

theorem sameButFlags_refl (nodes : Nat → Option NetDirNode) : SameButFlags nodes nodes := fun _ => rfl

theorem SameButFlags.trans {nodes'' : Nat → Option NetDirNode} (h : SameButFlags nodes nodes')
    (h' : SameButFlags nodes' nodes'') : SameButFlags nodes nodes'' := fun x => (h' x).trans (h x)

theorem sameButFlags_update {n : Nat} {nd : NetDirNode} (hn : nodes n = some nd) :
    SameButFlags nodes (Function.update nodes n
      (some { nd with prevFlag := nd.retrFlag, retrFlag := popUpdating })) := by
  intro x
  by_cases hx : x = n
  · subst hx
    rw [Function.update_self, hn]
    rfl
  · rw [Function.update_of_ne hx]

theorem findChild_isSome (hc : ChildrenLive nodes) {n : Nat} {nd : NetDirNode}
    (hn : nodes n = some nd) (name : QString) (is : List Nat)
    (his : ∀ i ∈ is, i < nd.childNodes.count) : (findChild nodes nd name is).isSome := by
  induction is with
  | nil => rfl
  | cons i is ih =>
    obtain ⟨c, cd, hat, hcd⟩ := hc n nd hn i (his i (by simp))
    rw [findChild, hat]
    simp only [Option.bind_eq_bind, Option.bind_some, hcd]
    split
    · rfl
    · exact ih fun j hj => his j (List.mem_cons_of_mem _ hj)

theorem rmStatus_eq {srv : Replies} (hret : srv.Returns) (hc : ChildrenLive nodes) {n : Nat}
    {nd : NetDirNode} (hn : nodes n = some nd) (params : QString) :
    rmStatus srv nodes nd params = some (-1) := by
  rw [rmStatus]
  split
  · rfl
  · obtain ⟨r, hr⟩ := Option.isSome_iff_exists.mp (findChild_isSome hc hn params
      (List.range nd.childNodes.count) (fun i hi => List.mem_range.mp hi))
    simp only [hr, Option.bind_eq_bind, Option.bind_some]
    cases r with
    | none => rfl
    | some childItem =>
      obtain ⟨ret, hrm⟩ := Option.ne_none_iff_exists'.mp (hret.rmEx childItem.fullPath)
      simp only [hrm, Option.bind_some]

end Round

section Returns

variable {srv : Replies} (hret : srv.Returns) (proto : Protocol) (nd : NetDirNode)
  (params : QString)

include hret

theorem mkdirStatus_returns : ∃ status, mkdirStatus proto srv nd params = some status := by
  obtain ⟨ret, h⟩ := Option.ne_none_iff_exists'.mp (hret.mkdir (childPath nd.fullPath params))
  exact ⟨_, congrArg (Option.map _) h⟩

theorem rmdirStatus_returns : ∃ status, rmdirStatus srv nd params = some status := by
  unfold rmdirStatus
  dsimp only
  split
  · exact ⟨-1, rfl⟩
  · exact Option.ne_none_iff_exists'.mp (hret.rmdir _)

theorem renameStatus_returns : ∃ status, renameStatus proto srv nd params = some status := by
  obtain ⟨ret, h⟩ := Option.ne_none_iff_exists'.mp (hret.rename
    (childPath nd.fullPath (renameNames params).1) (childPath nd.fullPath (renameNames params).2))
  unfold renameStatus
  simp only [h, ← apply_ite]
  exact ⟨_, rfl⟩

theorem keepAliveStatus_returns : ∃ status, keepAliveStatus proto srv = some status := by
  cases proto with
  | ftp => exact Option.ne_none_iff_exists'.mp hret.noop
  | sftp =>
    simp only [keepAliveStatus]
    split
    · exact ⟨0, rfl⟩
    · exact ⟨_, rfl⟩

end Returns

/-- `mkdir`, `rmdir`, `rm_file_or_directory_recursively` and `rename` change a directory. -/
def Changes (c : CommandElem) : Prop :=
  c.cmd = ssh2FxpMkdir ∨ c.cmd = ssh2FxpRmdir ∨ c.cmd = ssh2FxpRemove ∨ c.cmd = ssh2FxpRename

theorem followUp_of_changes {c : CommandElem} (h : Changes c) :
    followUp c = [⟨c.parentItem, c.persisIndex, ssh2FxpReaddir, []⟩] := if_pos h

theorem followUp_of_not {c : CommandElem} (h : ¬ Changes c) : followUp c = [] := if_neg h

theorem not_changes_readdir {c : CommandElem} (h : c.cmd = ssh2FxpReaddir) : ¬ Changes c := by
  rw [Changes, h]
  decide

section Execute

variable (proto : Protocol) (srv : Replies) {s : Loop} {c : CommandElem} {nd : NetDirNode}
  (hnd : s.nodes c.parentItem = some nd)

include hnd

theorem execute_readdir (hmap : s.dirNodeProcessQueue = []) (h : c.cmd = ssh2FxpReaddir) :
    execute proto srv c s = some (statusOf proto srv s.nodes c, { s with
      dirNodeProcessQueue := []
      signals := s.signals ++ [.remoteDirNodeRetrived c.parentItem c.persisIndex
        (newNodesOf proto srv s.nodes c.parentItem)] }) := by
  rw [execute, if_pos h, retriveDir, hmap]
  simp only [mapInsert, List.any_nil, Bool.false_eq_true, if_false, List.orderedInsert_nil,
    retriveDirLoop, hnd, Option.bind_eq_bind, Option.bind_some, statusOf, h, if_true, newNodesOf,
    reduceCtorEq]

theorem execute_changes (hret : srv.Returns) (hc : ChildrenLive s.nodes) (h : Changes c) :
    ∃ s', s.addNode c.parentItem c.persisIndex = some s' ∧
      execute proto srv c s = some (statusOf proto srv s.nodes c, s') := by
  refine ⟨_, addNode_eq hnd _, ?_⟩
  obtain ⟨_, hmkdir⟩ := mkdirStatus_returns hret proto nd c.params
  obtain ⟨_, hrmdir⟩ := rmdirStatus_returns hret nd c.params
  obtain ⟨_, hrename⟩ := renameStatus_returns hret proto nd c.params
  rcases h with h | h | h | h
  · simp [execute, statusOf, h, hnd, hmkdir, addNode_eq hnd, ssh2FxpReaddir, ssh2FxpMkdir]
  · simp [execute, statusOf, h, hnd, hrmdir, addNode_eq hnd, ssh2FxpReaddir, ssh2FxpMkdir,
      ssh2FxpRmdir]
  · simp [execute, statusOf, h, hnd, addNode_eq hnd, rmStatus_eq hret hc hnd, ssh2FxpReaddir,
      ssh2FxpMkdir, ssh2FxpRmdir, ssh2FxpRemove]
  · simp [execute, statusOf, h, hnd, hrename, addNode_eq hnd, ssh2FxpReaddir, ssh2FxpMkdir,
      ssh2FxpRmdir, ssh2FxpRemove, ssh2FxpRename]

theorem execute_other (hret : srv.Returns) (hread : c.cmd ≠ ssh2FxpReaddir) (h : ¬ Changes c) :
    execute proto srv c s = some (statusOf proto srv s.nodes c, s) := by
  simp only [Changes, not_or] at h
  obtain ⟨h1, h2, h3, h4⟩ := h
  simp only [execute, statusOf, hread, h1, h2, h3, h4, if_false, hnd, Option.bind_eq_bind,
    Option.bind_some]
  obtain ⟨_, hkeep⟩ := keepAliveStatus_returns hret proto
  split
  · rw [hkeep]
    rfl
  · split <;> rfl

end Execute

/-- What one round leaves: the answer to `c`, and its follow-up at the end of the queue. -/
structure Rounded (proto : Protocol) (srv : Replies) (s : Loop) (c : CommandElem)
    (queue : List CommandElem) (s' : Loop) : Prop where
  nodes : SameButFlags s.nodes s'.nodes
  queue : s'.commandQueue = queue ++ followUp c
  map : s'.dirNodeProcessQueue = []
  signals : s'.signals = s.signals ++ answer proto srv s.nodes c

/-- **The round.** -/
theorem iterate_spec (proto : Protocol) {srv : Replies} (hret : srv.Returns) {s : Loop}
    {c : CommandElem} {queue : List CommandElem} (hq : s.commandQueue = c :: queue) (hmap : s.dirNodeProcessQueue = [])
    (hlive : s.nodes c.parentItem ≠ none) (hc : ChildrenLive s.nodes) :
    ∃ s', iterate proto srv s = some s' ∧ Rounded proto srv s c queue s' := by
  obtain ⟨nd, hnd⟩ := Option.ne_none_iff_exists'.mp hlive
  rw [iterate, hq, List.head?_cons, Option.bind_eq_bind, Option.bind_some]
  by_cases hread : c.cmd = ssh2FxpReaddir
  · rw [execute_readdir proto srv hnd hmap hread]
    refine ⟨_, rfl, sameButFlags_refl _, ?_, rfl, ?_⟩
    · rw [followUp_of_not (not_changes_readdir hread), List.append_nil, hq]
      rfl
    · rw [answer, if_pos hread, List.append_assoc]
  by_cases hch : Changes c
  · obtain ⟨s', hs', hex⟩ := execute_changes proto srv hnd hret hc hch
    rw [addNode_eq hnd] at hs'
    obtain rfl := Option.some.inj hs'
    rw [hex]
    refine ⟨_, rfl, sameButFlags_update hnd, ?_, hmap, ?_⟩
    · rw [followUp_of_changes hch, hq]
      rfl
    · rw [answer, if_neg hread, List.nil_append]
  · rw [execute_other proto srv hnd hret hread hch]
    refine ⟨_, rfl, sameButFlags_refl _, ?_, hmap, ?_⟩
    · rw [followUp_of_not hch, List.append_nil, hq]
      rfl
    · rw [answer, if_neg hread, List.nil_append]

/-! ## The retriever of the model -/

def codeOf : Command → Int
  | .readdir => ssh2FxpReaddir
  | .mkdir => ssh2FxpMkdir
  | .rmdir => ssh2FxpRmdir
  | .remove => ssh2FxpRemove
  | .rename => ssh2FxpRename
  | .realpath => ssh2FxpRealpath
  | .keepAlive => ssh2FxpKeepAlive

def elemOf (q : QueueElem) : CommandElem := ⟨q.parentItem, q.persisIndex, codeOf q.cmd, q.params⟩

def signalOf : RemoteDirModel.Event → Signal
  | .retrived parentItem persisIndex newNodes => .remoteDirNodeRetrived parentItem persisIndex newNodes
  | .finished parentItem persisIndex cmd status =>
    .executeCommandFinished parentItem persisIndex (codeOf cmd) status

def loopOf (s : System) : Loop where
  nodes := s.model.nodes
  commandQueue := s.model.commandQueue.map elemOf
  dirNodeProcessQueue := []
  signals := s.events.map signalOf

theorem changes_elemOf (q : QueueElem) :
    Changes (elemOf q) ↔ q.cmd ≠ .readdir ∧ q.cmd ≠ .realpath ∧ q.cmd ≠ .keepAlive := by
  show codeOf q.cmd = ssh2FxpMkdir ∨ codeOf q.cmd = ssh2FxpRmdir ∨ codeOf q.cmd = ssh2FxpRemove ∨
    codeOf q.cmd = ssh2FxpRename ↔ _
  cases q.cmd <;> decide

theorem codeOf_readdir_iff (cmd : Command) : codeOf cmd = ssh2FxpReaddir ↔ cmd = .readdir := by
  cases cmd <;> decide

theorem childrenLive_of_wellFormed {m : Model} (hm : WellFormed m) : ChildrenLive m.nodes := by
  intro n nd hn i hi
  obtain ⟨l, hl, -⟩ := hm.children n nd hn
  rw [children_count hl] at hi
  have hat := List.getElem?_eq_getElem hi
  obtain ⟨cd, hcd, -⟩ := hm.children_onRow hn hl i _ hat
  exact ⟨_, cd, (children_childAt hl i).trans hat, hcd⟩

/-- **A round of the loop is a work step of the system**, with what the server answered. -/
theorem iterate_of_work (proto : Protocol) {srv : Replies} (hret : srv.Returns) {s s' : System}
    (hs : WellFormed s.model)
    {q : QueueElem} {rest : List QueueElem} {nd : NetDirNode} (hq : s.model.commandQueue = q :: rest)
    (hnd : s.model.nodes q.parentItem = some nd)
    (h : s.work proto q rest (srv.list (nd.fullPath ++ ['/']))
      (statusOf proto srv s.model.nodes (elemOf q)) = some s') :
    iterate proto srv (loopOf s) = some (loopOf s') := by
  have hhead : (loopOf s).commandQueue.head? = some (elemOf q) := by simp [loopOf, hq]
  have hlive : (loopOf s).nodes (elemOf q).parentItem = some nd := hnd
  have hc : ChildrenLive (loopOf s).nodes := childrenLive_of_wellFormed hs
  rw [iterate, hhead, Option.bind_eq_bind, Option.bind_some]
  simp only [System.work, hnd, Option.bind_eq_bind, Option.bind_some] at h
  split at h
  · rename_i hcmd
    obtain rfl := Option.some.inj h
    rw [execute_readdir proto srv hlive rfl ((codeOf_readdir_iff _).mpr hcmd)]
    simp [loopOf, hq, newNodesOf, hnd, elemOf, signalOf, hcmd]
  · rename_i hcmd
    have hread : (elemOf q).cmd ≠ ssh2FxpReaddir := fun he => hcmd ((codeOf_readdir_iff _).mp he)
    split at h
    · rename_i hother
      obtain rfl := Option.some.inj h
      have hno : ¬ Changes (elemOf q) := by
        rw [changes_elemOf]
        tauto
      rw [execute_other proto srv hlive hret hread hno]
      simp [loopOf, hq, elemOf, signalOf]
    · rename_i hother
      have hch : Changes (elemOf q) := by
        rw [changes_elemOf]
        tauto
      obtain ⟨t, ht, hex⟩ := execute_changes proto srv hlive hret hc hch
      rw [addNode_eq hlive] at ht
      obtain rfl := Option.some.inj ht
      rw [hex]
      rw [RemoteDirModel.addNode_eq (m := { s.model with commandQueue := rest }) hnd] at h
      obtain rfl := Option.some.inj h
      simp [loopOf, hq, elemOf, signalOf, codeOf, Model.set, NetDirNode.updating]

/-! ## The whole run -/

theorem push_spec {s : Loop} {p : Push} (hlive : s.nodes p.elem.parentItem ≠ none) :
    ∃ s', push s p = some s' ∧ SameButFlags s.nodes s'.nodes ∧
      s'.commandQueue = s.commandQueue ++ [p.elem] ∧
      s'.dirNodeProcessQueue = s.dirNodeProcessQueue ∧ s'.signals = s.signals := by
  cases p with
  | addNode n i =>
    obtain ⟨nd, hnd⟩ := Option.ne_none_iff_exists'.mp hlive
    exact ⟨_, addNode_eq hnd i, sameButFlags_update hnd, rfl, rfl, rfl⟩
  | slotExecuteCommand n i cmd params =>
    exact ⟨_, rfl, sameButFlags_refl _, rfl, rfl, rfl⟩

theorem push_batch_spec (ps : List Push) {s : Loop}
    (hlive : ∀ p ∈ ps, s.nodes p.elem.parentItem ≠ none) :
    ∃ s', ps.foldlM push s = some s' ∧ SameButFlags s.nodes s'.nodes ∧
      s'.commandQueue = s.commandQueue ++ ps.map Push.elem ∧
      s'.dirNodeProcessQueue = s.dirNodeProcessQueue ∧ s'.signals = s.signals := by
  induction ps generalizing s with
  | nil => exact ⟨s, rfl, sameButFlags_refl _, by simp, rfl, rfl⟩
  | cons p ps ih =>
    obtain ⟨s1, h1, hsame1, hq1, hmap1, hsig1⟩ := push_spec (hlive p (by simp))
    obtain ⟨s2, h2, hsame2, hq2, hmap2, hsig2⟩ :=
      ih fun q hq => hsame1.live (hlive q (List.mem_cons_of_mem _ hq))
    refine ⟨s2, ?_, hsame1.trans hsame2, ?_, hmap2.trans hmap1, hsig2.trans hsig1⟩
    · rw [List.foldlM_cons, h1]
      exact h2
    · rw [hq2, hq1, List.map_cons, List.append_assoc, List.singleton_append]

theorem followUp_parent {c d : CommandElem} (h : d ∈ followUp c) : d.parentItem = c.parentItem := by
  rw [followUp] at h
  split at h
  · rw [List.mem_singleton.mp h]
  · simp at h

theorem rounds_followUp (c : CommandElem) : ((followUp c).map rounds).sum = (followUp c).length := by
  by_cases h : Changes c
  · rw [followUp_of_changes h]
    simp [rounds, followUp, ssh2FxpReaddir, ssh2FxpMkdir, ssh2FxpRmdir, ssh2FxpRemove, ssh2FxpRename]
  · rw [followUp_of_not h]
    rfl

theorem headD_append_flatten_tail (arrivals : List (List Push)) :
    arrivals.headD [] ++ arrivals.tail.flatten = arrivals.flatten := by
  cases arrivals <;> rfl

theorem enoughRounds_next {arrivals : List (List Push)} {s s' : Loop} {c : CommandElem}
    {queue : List CommandElem} (hq : s.commandQueue = c :: queue)
    (hq' : s'.commandQueue = queue ++ followUp c ++ (arrivals.headD []).map Push.elem) :
    enoughRounds arrivals s = enoughRounds arrivals.tail s' + 1 := by
  have hc := rounds_followUp c
  have hr : rounds c = 1 + (followUp c).length := rfl
  rw [enoughRounds, enoughRounds, hq, hq', ← headD_append_flatten_tail]
  simp only [List.map_cons, List.map_append, List.sum_cons, List.sum_append, List.map_map,
    Function.comp_def]
  omega

/-- **The loop.** By induction on the rounds that are left. -/
theorem runLoop_spec (proto : Protocol) {srv : Nat → Replies} (hret : ∀ k, (srv k).Returns)
    (fuel k : Nat)
    (arrivals : List (List Push)) {s : Loop} (hfuel : enoughRounds arrivals s ≤ fuel)
    (hmap : s.dirNodeProcessQueue = [])
    (hlive : ∀ c ∈ s.commandQueue ++ arrivals.flatten.map Push.elem, s.nodes c.parentItem ≠ none)
    (hc : ChildrenLive s.nodes) :
    ∃ s' processed, runLoop proto srv fuel k arrivals s = some s' ∧
      Fifo s.commandQueue arrivals processed ∧ s'.commandQueue = [] ∧ s'.dirNodeProcessQueue = [] ∧
      s'.signals = s.signals ++
        (processed.zipIdx k).flatMap fun e => answer proto (srv e.2) s.nodes e.1 := by
  induction fuel generalizing k arrivals s with
  | zero =>
    cases hq : s.commandQueue with
    | nil => exact ⟨s, [], rfl, .done, hq, hmap, by simp⟩
    | cons c queue =>
      rw [enoughRounds, hq, List.map_cons, List.sum_cons, rounds] at hfuel
      omega
  | succ fuel ih =>
    cases hq : s.commandQueue with
    | nil =>
      refine ⟨s, [], ?_, .done, hq, hmap, by simp⟩
      rw [runLoop, if_pos hq]
    | cons c queue =>
      rw [hq] at hlive
      obtain ⟨s1, h1, hround⟩ := iterate_spec proto (hret k) hq hmap
        (hlive c (by simp)) hc
      rw [← headD_append_flatten_tail, List.map_append] at hlive
      have hbatch : ∀ p ∈ arrivals.headD [], s.nodes p.elem.parentItem ≠ none := fun p hp =>
        hlive p.elem (List.mem_append_right _ (List.mem_append_left _ (List.mem_map_of_mem hp)))
      obtain ⟨s2, h2, hsame2, hq2, hmap2, hsig2⟩ :=
        push_batch_spec (arrivals.headD []) fun p hp => hround.nodes.live (hbatch p hp)
      have hsame : SameButFlags s.nodes s2.nodes := hround.nodes.trans hsame2
      rw [hround.queue] at hq2
      have hfuel2 : enoughRounds arrivals.tail s2 ≤ fuel := by
        have := enoughRounds_next hq hq2
        omega
      have hlive2 : ∀ d ∈ s2.commandQueue ++ arrivals.tail.flatten.map Push.elem,
          s2.nodes d.parentItem ≠ none := by
        intro d hd
        apply hsame.live
        rw [hq2, List.append_assoc, List.append_assoc] at hd
        rcases List.mem_append.mp hd with hd | hd
        · exact hlive d (by simp [hd])
        rcases List.mem_append.mp hd with hd | hd
        · rw [followUp_parent hd]
          exact hlive c (by simp)
        · exact hlive d (List.mem_append_right _ hd)
      obtain ⟨s3, processed, h3, hfifo, hq3, hmap3, hsig3⟩ := ih (k + 1) arrivals.tail hfuel2
        (hmap2.trans hround.map) hlive2 (hsame.childrenLive hc)
      refine ⟨s3, c :: processed, ?_, .next (hq2 ▸ hfifo), hq3, hmap3, ?_⟩
      · rw [runLoop, if_neg (by simp [hq]), Option.bind_eq_bind, h1, Option.bind_some, h2,
          Option.bind_some]
        exact h3
      · rw [hsig3, hsig2, hround.signals, List.zipIdx_cons, List.flatMap_cons, List.append_assoc]
        congr 2
        simp only [hsame.answer_eq]

/-- The states of a retriever between two executions of `run`. The UI thread pushes commands, and
does with the nodes what it likes. -/
inductive Reached : Loop → Prop where
  | fresh (nodes : Nat → Option NetDirNode) : Reached ⟨nodes, [], [], []⟩
  | nodes {s : Loop} (nodes : Nat → Option NetDirNode) (h : Reached s) : Reached { s with nodes := nodes }
  | push {s s' : Loop} {p : Push} (h : Reached s) (hp : push s p = some s') : Reached s'
  | run {s s' : Loop} {proto : Protocol} {srv : Nat → Replies} {arrivals : List (List Push)}
    (h : Reached s) (hr : run proto srv arrivals s = some s') : Reached s'

theorem addNode_map {s s' : Loop} {n i : Nat} (h : s.addNode n i = some s') :
    s'.dirNodeProcessQueue = s.dirNodeProcessQueue := by
  simp only [Loop.addNode, Option.bind_eq_bind, Option.bind_eq_some_iff] at h
  obtain ⟨nd, -, h⟩ := h
  rw [← Option.some.inj h]

theorem push_map {s s' : Loop} {p : Push} (h : push s p = some s') :
    s'.dirNodeProcessQueue = s.dirNodeProcessQueue := by
  cases p with
  | addNode n i => exact addNode_map h
  | slotExecuteCommand n i cmd params =>
    rw [← Option.some.inj h]
    rfl

theorem execute_map {proto : Protocol} {srv : Replies} {c : CommandElem} {s s' : Loop} {status : Int}
    (hmap : s.dirNodeProcessQueue = []) (h : execute proto srv c s = some (status, s')) :
    s'.dirNodeProcessQueue = [] := by
  have hadd : ∀ {t : Loop}, s.addNode c.parentItem c.persisIndex = some t →
      t.dirNodeProcessQueue = [] := fun ht => (addNode_map ht).trans hmap
  rw [execute] at h
  split at h
  · simp only [retriveDir, Option.bind_eq_bind, Option.bind_eq_some_iff] at h
    obtain ⟨signals, -, h⟩ := h
    obtain ⟨-, rfl⟩ := Prod.mk.inj (Option.some.inj h)
    rfl
  · simp only [Option.bind_eq_bind] at h
    repeat' split at h
    all_goals simp only [Option.bind_eq_some_iff, Option.map_eq_some_iff, Option.some.injEq,
      Prod.mk.injEq] at h
    all_goals grind

theorem iterate_map {proto : Protocol} {srv : Replies} {s s' : Loop}
    (hmap : s.dirNodeProcessQueue = []) (h : iterate proto srv s = some s') :
    s'.dirNodeProcessQueue = [] := by
  simp only [iterate, Option.bind_eq_bind, Option.bind_eq_some_iff] at h
  obtain ⟨c, -, ⟨status, t⟩, ht, h⟩ := h
  have hdone := execute_map hmap ht
  rw [← Option.some.inj h]
  exact hdone

theorem push_batch_map {ps : List Push} {s s' : Loop} (h : ps.foldlM push s = some s') :
    s'.dirNodeProcessQueue = s.dirNodeProcessQueue := by
  induction ps generalizing s with
  | nil => rw [← Option.some.inj h]
  | cons p ps ih =>
    rw [List.foldlM_cons, Option.bind_eq_bind, Option.bind_eq_some_iff] at h
    obtain ⟨t, ht, h⟩ := h
    exact (ih h).trans (push_map ht)

theorem runLoop_map {proto : Protocol} {srv : Nat → Replies} {fuel k : Nat}
    {arrivals : List (List Push)} {s s' : Loop} (hmap : s.dirNodeProcessQueue = [])
    (h : runLoop proto srv fuel k arrivals s = some s') : s'.dirNodeProcessQueue = [] := by
  induction fuel generalizing k arrivals s with
  | zero => rw [← Option.some.inj h, hmap]
  | succ fuel ih =>
    rw [runLoop] at h
    split at h
    · rw [← Option.some.inj h, hmap]
    · simp only [Option.bind_eq_bind, Option.bind_eq_some_iff] at h
      obtain ⟨s1, h1, s2, h2, h⟩ := h
      exact ih ((push_batch_map h2).trans (iterate_map hmap h1)) h

theorem Reached.map {s : Loop} (h : Reached s) : s.dirNodeProcessQueue = [] := by
  induction h with
  | fresh => rfl
  | nodes _ _ ih => exact ih
  | push _ hp ih => exact (push_map hp).trans ih
  | run _ hr ih =>
    simp only [Retriver.run, Option.bind_eq_bind, Option.bind_eq_some_iff] at hr
    obtain ⟨t, ht, hr⟩ := hr
    have hdone := runLoop_map (by exact ih) ht
    rw [← Option.some.inj hr]
    exact hdone

/-- **Every command is executed once, in order, and answered with its own data.** One execution of
`run` takes all commands that are in the queue or come while it works, of nodes that are there,
and the `READDIR`s that these ask for, in the order in which they were put into the queue. Then
both containers are empty. -/
theorem run_executes_in_order (proto : Protocol) (srv : Nat → Replies)
    (hret : ∀ k, (srv k).Returns) (arrivals : List (List Push)) (s : Loop) (hs : Reached s)
    (hlive : ∀ c ∈ s.commandQueue ++ arrivals.flatten.map Push.elem, s.nodes c.parentItem ≠ none)
    (hc : ChildrenLive s.nodes) :
    ∃ s' processed, run proto srv arrivals s = some s' ∧
      Fifo s.commandQueue arrivals processed ∧
      processed = s.commandQueue ++ pushed processed arrivals ∧
      s'.signals = s.signals ++ .enterRemoteDirRetriveLoop ::
        ((processed.zipIdx.flatMap fun e => answer proto (srv e.2) s.nodes e.1) ++
          [.leaveRemoteDirRetriveLoop]) ∧
      s'.commandQueue = [] ∧ s'.dirNodeProcessQueue = [] := by
  obtain ⟨s', processed, h, hfifo, hq, hmap, hsig⟩ := runLoop_spec proto hret _ 0 arrivals
    (s := { s with signals := s.signals ++ [.enterRemoteDirRetriveLoop] }) le_rfl hs.map hlive hc
  refine ⟨{ s' with signals := s'.signals ++ [.leaveRemoteDirRetriveLoop] }, processed, ?_, hfifo,
    hfifo.processed_eq, ?_, hq, hmap⟩
  · rw [run, h]
    rfl
  · rw [hsig]
    simp only [List.append_assoc, List.cons_append, List.nil_append]

def oneFile : Replies where
  list _ := [(['f'], .zero)]
  mkdir _ := some (-1)
  rmdir _ := some (-1)
  rmFileOrDirectoryRecursivelyEx _ := some (-1)
  rename _ _ := some (-1)
  stat _ := (-1, .zero)
  sftpLastError := 2
  noop := some 0
  garbage := 0

theorem oneFile_returns : oneFile.Returns := by
  constructor <;> simp [oneFile]

/-- A retriever with one node, which is listed twice and has a directory made in it. -/
def threeCommands : Loop where
  nodes := Function.update (fun _ => none) 0 (some { NetDirNode.new with
    retrFlag := popUpdating, prevFlag := popUpdating })
  commandQueue := [⟨0, 0, ssh2FxpReaddir, []⟩, ⟨0, 0, ssh2FxpReaddir, []⟩,
    ⟨0, 0, ssh2FxpMkdir, ['d']⟩]
  dirNodeProcessQueue := []
  signals := []

theorem run_executes_in_order_three : ∃ s' processed,
    run .sftp (fun _ => oneFile) [[.addNode 0 0]] threeCommands = some s' ∧
      Fifo threeCommands.commandQueue [[.addNode 0 0]] processed ∧
      processed = threeCommands.commandQueue ++ pushed processed [[.addNode 0 0]] ∧
      s'.signals = threeCommands.signals ++ .enterRemoteDirRetriveLoop ::
        ((processed.zipIdx.flatMap fun e => answer .sftp oneFile threeCommands.nodes e.1) ++
          [.leaveRemoteDirRetriveLoop]) ∧
      s'.commandQueue = [] ∧ s'.dirNodeProcessQueue = [] := by
  have hnode : threeCommands.nodes 0 = some { NetDirNode.new with
      retrFlag := popUpdating, prevFlag := popUpdating } := rfl
  have hlive : ∀ c ∈ threeCommands.commandQueue ++ [[Push.addNode 0 0]].flatten.map Push.elem,
      threeCommands.nodes c.parentItem ≠ none := by
    intro c hc
    have hzero : c.parentItem = 0 := by
      revert c
      decide
    simp [hzero, hnode]
  have hreached : Reached threeCommands :=
    .push (p := .slotExecuteCommand 0 0 ssh2FxpMkdir ['d'])
      (.push (p := .slotExecuteCommand 0 0 ssh2FxpReaddir [])
        (.push (p := .slotExecuteCommand 0 0 ssh2FxpReaddir []) (.fresh threeCommands.nodes) rfl)
        rfl) rfl
  refine run_executes_in_order .sftp (fun _ => oneFile) (fun _ => oneFile_returns)
    [[.addNode 0 0]] threeCommands hreached hlive ?_
  intro n nd hn i hi
  have hn : Function.update (fun _ => none) 0 (some { NetDirNode.new with
      retrFlag := popUpdating, prevFlag := popUpdating }) n = some nd := hn
  by_cases hz : n = 0
  · subst hz
    rw [Function.update_self] at hn
    obtain rfl := Option.some.inj hn
    exact absurd hi (Nat.not_lt_zero i)
  · rw [Function.update_of_ne hz] at hn
    simp at hn

end NullFxp.Retriver
