import NullFxp.Lib.Runs
import NullFxp.Sync.Transfer

/-!
# What the rows show

The signals of the transfers reach `SyncDifferModel`, which looks up the row of a file by its name
and falls back on the first row. A session takes one task after the other, until an assert fails.
-/

open Runs

namespace NullFxp.Sync

structure SyncDifferModel where
  mMergedFiles : List File
  mTransferStatus : List QString
  sized : mTransferStatus.length = mMergedFiles.length

namespace SyncDifferModel

def setDiffFiles (files : List File) : SyncDifferModel :=
  ⟨files, files.map fun _ => [], List.length_map _⟩

def getRowNumberByFileName (m : SyncDifferModel) (fileName : QString) : Nat :=
  (m.mMergedFiles.findIdx? fun f => f.1 = fileName).getD 0

/-- What the three slots have in common. -/
def setStatus (m : SyncDifferModel) (fileName statusLine : QString) : SyncDifferModel where
  mMergedFiles := m.mMergedFiles
  mTransferStatus := m.mTransferStatus.set (m.getRowNumberByFileName fileName) statusLine
  sized := by rw [List.length_set, m.sized]

def startSyncFile (m : SyncDifferModel) (fileName : QString) (fileSize : Nat) : SyncDifferModel :=
  m.setStatus fileName ("Starting sync ".toList ++ (toString fileSize).toList ++ " Bytes ...".toList)

def syncSuccess : QString := "Sync success".toList

/-- The status is not looked at. -/
def stopSyncFile (m : SyncDifferModel) (fileName : QString) (_status : Int) : SyncDifferModel :=
  m.setStatus fileName syncSuccess

def changeTransferedPercent (m : SyncDifferModel) (fileName : QString) (percent : Int)
    (_transferdLength _lastBlockLength : Nat) : SyncDifferModel :=
  m.setStatus fileName ("Synced ".toList ++ (toString percent).toList ++ "% ...".toList)

def slot (m : SyncDifferModel) : Signal → SyncDifferModel
  | .syncFileStarted fileName fileSize => m.startSyncFile fileName fileSize
  | .transferPercentChanged fileName percent transferLength lastBlockLength =>
    m.changeTransferedPercent fileName percent transferLength lastBlockLength
  | .syncFileStopped fileName status => m.stopSyncFile fileName status

/-- The status in the row of a file. -/
def statusOf (m : SyncDifferModel) (fileName : QString) : Option QString :=
  m.mTransferStatus[m.getRowNumberByFileName fileName]?

end SyncDifferModel

open SyncDifferModel

/-! ## Sessions -/

structure Session where
  world : World
  model : SyncDifferModel
  /-- No assert has failed. -/
  alive : Bool
  /-- the files of the tasks so far, the last one first, and whether each was copied whole -/
  done : List (QString × Bool)
  /-- the signals so far, with the file of the task and the model that the signal came to -/
  shown : List (QString × SyncDifferModel × Signal)

/-- The side that a task copies from. -/
def World.source (w : World) : Direct → Tree
  | .download => w.remote
  | .upload => w.here

/-- All bytes of a regular file were read and written. -/
def copiedWhole (host : Host) (w : World) (task : SyncTaskPackage) (io : Io) : Bool :=
  match (w.source task.direct).find (components task.fileName) with
  | some (.file content _) => (transferImpl host io w task).copied = some content
  | _ => false

def shownBy (fileName : QString) : SyncDifferModel → List Signal →
    List (QString × SyncDifferModel × Signal)
  | _, [] => []
  | m, signal :: signals => (fileName, m, signal) :: shownBy fileName (m.slot signal) signals

/-- The next task; the window asks for files of the model only. -/
def Session.step (host : Host) (s : Session) (a : SyncTaskPackage × Io) : Option Session :=
  if s.alive ∧ a.1.fileName ∈ names s.model.mMergedFiles then
    let outcome := transferImpl host a.2 s.world a.1
    some {
      world := outcome.world
      model := outcome.signals.foldl slot s.model
      alive := outcome.ret.isSome
      done := (a.1.fileName, copiedWhole host s.world a.1 a.2) :: s.done
      shown := s.shown ++ shownBy a.1.fileName s.model outcome.signals }
  else none

def Session.start (w : World) (files : List File) : Session := ⟨w, setDiffFiles files, true, [], []⟩

/-- A signal of a task for `fileName` changes what the row of another file shows. -/
def Disturbs (fileName : QString) (m : SyncDifferModel) (signal : Signal) : Prop :=
  ∃ (row : Nat) (f : File), m.mMergedFiles[row]? = some f ∧ f.1 ≠ fileName ∧
    (m.slot signal).mTransferStatus[row]? ≠ m.mTransferStatus[row]?

/-- What the rows show is true. -/
structure ShowsTruth (s : Session) : Prop where
  success : ∀ (row : Nat) (f : File), s.model.mMergedFiles[row]? = some f →
    s.model.mTransferStatus[row]? = some syncSuccess → Assoc.value s.done f.1 = some true
  failed : ∀ fileName before, s.done = (fileName, false) :: before →
    ∀ (row : Nat) (f : File), s.model.mMergedFiles[row]? = some f → f.1 = fileName →
      s.model.mTransferStatus[row]? ≠ some syncSuccess
  undisturbed : ∀ e ∈ s.shown, ¬Disturbs e.1 e.2.1 e.2.2

/-- The local file opens for the download. -/
def OpensHere (host : Host) (w : World) (l : Loc) (io : Io) : Prop :=
  io.localOpen = true ∧ (openTrunc host w.here l).isSome = true

/-- The calls of the task `a` are such that the rows go on showing the truth. -/
def Honest (host : Host) (s : Session) (a : SyncTaskPackage × Io) : Prop :=
  let l := components a.1.fileName
  match a.1.direct with
  | .download =>
    match openRead host a.2 s.world.remote l with
    | none => s.model.statusOf a.1.fileName ≠ some syncSuccess
    | some node =>
      -- `utimes` fails, or the whole file comes over
      (a.2.touch = false ∨ s.world.here.find l = none ∧ ¬OpensHere host s.world l a.2) ∨
        node.isDir = false ∧ OpensHere host s.world l a.2 ∧ Delivers 8192 a.2 0 node.content
  | .upload =>
    if a.2.remoteOpen = true ∧ (openTrunc host s.world.remote l).isSome = true then
      ∃ content mtime, s.world.here.find l = some (.file content mtime) ∧ a.2.localOpen = true ∧
        ReadsOn 5120 a.2 0 content
    else
      -- the row that the empty name leads to shows what is shown anyway
      s.model.getRowNumberByFileName [] ≠ s.model.getRowNumberByFileName a.1.fileName ∧
        s.model.statusOf [] = some syncSuccess ∧
        s.model.statusOf a.1.fileName ≠ some syncSuccess

/-! ## Rows -/

def Signal.fileName : Signal → QString
  | .syncFileStarted fileName _ => fileName
  | .transferPercentChanged fileName _ _ _ => fileName
  | .syncFileStopped fileName _ => fileName

/-- The line that a signal brings to the row of its file. -/
def Signal.statusLine : Signal → QString
  | .syncFileStarted _ fileSize =>
    "Starting sync ".toList ++ (toString fileSize).toList ++ " Bytes ...".toList
  | .transferPercentChanged _ percent _ _ =>
    "Synced ".toList ++ (toString percent).toList ++ "% ...".toList
  | .syncFileStopped _ _ => syncSuccess

theorem slot_eq (m : SyncDifferModel) (signal : Signal) :
    m.slot signal = m.setStatus signal.fileName signal.statusLine := by
  cases signal <;> rfl

section Rows

variable {m : SyncDifferModel} {fileName : QString}

theorem row_eq (hnd : (names m.mMergedFiles).Nodup) {row : Nat} {f : File}
    (h : m.mMergedFiles[row]? = some f) : m.getRowNumberByFileName f.1 = row := by
  obtain ⟨hlt, hf⟩ := List.getElem?_eq_some_iff.mp h
  have hfind : m.mMergedFiles.findIdx? (fun f' => f'.1 = f.1) = some row := by
    rw [List.findIdx?_eq_some_iff_getElem]
    refine ⟨hlt, by simp [hf], fun j hj => ?_⟩
    have hne := List.pairwise_iff_getElem.mp hnd j row (by simp [names]; omega) (by simpa [names]) hj
    simpa [names, hf] using hne
  rw [getRowNumberByFileName, hfind, Option.getD_some]

theorem exists_row (h : fileName ∈ names m.mMergedFiles) :
    ∃ f, m.mMergedFiles[m.getRowNumberByFileName fileName]? = some f ∧ f.1 = fileName := by
  obtain ⟨f, hf, rfl⟩ := List.mem_map.mp h
  unfold getRowNumberByFileName
  cases hi : m.mMergedFiles.findIdx? fun f' => f'.1 = f.1 with
  | none =>
    have hnot := List.findIdx?_eq_none_iff.mp hi f hf
    simp at hnot
  | some i =>
    obtain ⟨hlt, hname, -⟩ := List.findIdx?_eq_some_iff_getElem.mp hi
    exact ⟨m.mMergedFiles[i], List.getElem?_eq_getElem hlt, by simpa using hname⟩

theorem row_lt (h : m.mMergedFiles ≠ []) (fileName : QString) :
    m.getRowNumberByFileName fileName < m.mTransferStatus.length := by
  rw [m.sized, getRowNumberByFileName]
  cases hi : m.mMergedFiles.findIdx? fun f => f.1 = fileName with
  | none => exact List.length_pos_iff.mpr h
  | some i =>
    obtain ⟨hlt, -⟩ := List.findIdx?_eq_some_iff_getElem.mp hi
    exact hlt

theorem slot_row (h : m.mMergedFiles ≠ []) (signal : Signal) (row : Nat) :
    (m.slot signal).mTransferStatus[row]? =
      if row = m.getRowNumberByFileName signal.fileName then some signal.statusLine
      else m.mTransferStatus[row]? := by
  rw [slot_eq, setStatus, List.getElem?_set]
  by_cases hrow : m.getRowNumberByFileName signal.fileName = row
  · rw [if_pos hrow, if_pos hrow.symm, if_pos (hrow ▸ row_lt h _)]
  · rw [if_neg hrow, if_neg (Ne.symm hrow)]

theorem slot_files (m : SyncDifferModel) (signal : Signal) :
    (m.slot signal).mMergedFiles = m.mMergedFiles := by
  rw [slot_eq]
  rfl

theorem slot_rowNumber (m : SyncDifferModel) (signal : Signal) (fileName : QString) :
    (m.slot signal).getRowNumberByFileName fileName = m.getRowNumberByFileName fileName := by
  rw [getRowNumberByFileName, slot_files, getRowNumberByFileName]

theorem foldl_slot_files (m : SyncDifferModel) (signals : List Signal) :
    (signals.foldl slot m).mMergedFiles = m.mMergedFiles := by
  induction signals generalizing m with
  | nil => rfl
  | cons signal signals ih => rw [List.foldl_cons, ih, slot_files]

theorem foldl_slot_rowNumber (m : SyncDifferModel) (signals : List Signal) (fileName : QString) :
    (signals.foldl slot m).getRowNumberByFileName fileName = m.getRowNumberByFileName fileName := by
  rw [getRowNumberByFileName, foldl_slot_files, getRowNumberByFileName]

theorem foldl_slot_other (h : m.mMergedFiles ≠ []) {signals : List Signal}
    (hown : ∀ signal ∈ signals, signal.fileName = fileName) {row : Nat}
    (hrow : row ≠ m.getRowNumberByFileName fileName) :
    (signals.foldl slot m).mTransferStatus[row]? = m.mTransferStatus[row]? := by
  induction signals generalizing m with
  | nil => rfl
  | cons signal signals ih =>
    obtain ⟨hfirst, hown⟩ := List.forall_mem_cons.mp hown
    rw [List.foldl_cons, ih (by rwa [slot_files]) hown (by rwa [slot_rowNumber]), slot_row h, hfirst,
      if_neg hrow]

theorem foldl_slot_last (h : m.mMergedFiles ≠ []) (signals : List Signal) (last : Signal) :
    ((signals ++ [last]).foldl slot m).mTransferStatus[m.getRowNumberByFileName last.fileName]? =
      some last.statusLine := by
  rw [List.foldl_append, List.foldl_cons, List.foldl_nil, slot_row (by rwa [foldl_slot_files]),
    foldl_slot_rowNumber, if_pos rfl]

theorem other_row (hname : fileName ∈ names m.mMergedFiles) {row : Nat} {f : File}
    (h : m.mMergedFiles[row]? = some f) (hf : f.1 ≠ fileName) :
    row ≠ m.getRowNumberByFileName fileName := by
  rintro rfl
  obtain ⟨f', hf', hname'⟩ := exists_row hname
  rw [h] at hf'
  exact hf (Option.some.inj hf' ▸ hname')

theorem files_ne_nil (hname : fileName ∈ names m.mMergedFiles) : m.mMergedFiles ≠ [] := by
  intro hnil
  simp [hnil, names] at hname

theorem not_disturbs_own (hname : fileName ∈ names m.mMergedFiles) {signal : Signal}
    (hown : signal.fileName = fileName) : ¬Disturbs fileName m signal := by
  rintro ⟨row, f, hf, hother, hchanged⟩
  rw [slot_row (files_ne_nil hname), hown, if_neg (other_row hname hf hother)] at hchanged
  exact hchanged rfl

theorem shownBy_own (hname : fileName ∈ names m.mMergedFiles) {signals : List Signal}
    (hown : ∀ signal ∈ signals, signal.fileName = fileName) :
    ∀ e ∈ shownBy fileName m signals, ¬Disturbs e.1 e.2.1 e.2.2 := by
  induction signals generalizing m with
  | nil => simp [shownBy]
  | cons signal signals ih =>
    obtain ⟨hfirst, hown⟩ := List.forall_mem_cons.mp hown
    rw [shownBy, List.forall_mem_cons]
    exact ⟨not_disturbs_own hname hfirst, ih (by rwa [slot_files]) hown⟩

end Rows

/-! ## The signals of a task -/

theorem starting_ne_success (fileName : QString) (fileSize : Nat) :
    (Signal.syncFileStarted fileName fileSize).statusLine ≠ syncSuccess := by
  unfold Signal.statusLine syncSuccess
  simp

theorem synced_ne_success (fileName : QString) (percent : Int) (n k : Nat) :
    (Signal.transferPercentChanged fileName percent n k).statusLine ≠ syncSuccess := by
  unfold Signal.statusLine syncSuccess
  simp

theorem progress_own (host : Host) (currFile : QString) (fileSize tranLen : Int) (wlens : List Int) :
    ∀ signal ∈ progress host currFile fileSize tranLen wlens,
      signal.fileName = currFile ∧ signal.statusLine ≠ syncSuccess := by
  induction wlens generalizing tranLen with
  | nil => simp [progress]
  | cons wlen wlens ih =>
    rw [progress, List.forall_mem_cons]
    exact ⟨⟨rfl, synced_ne_success _ _ _ _⟩, ih _⟩

/-- The task starts with its own row, and ends with it if no assert fails. -/
def Reports (fileName : QString) (outcome : Outcome) : Prop :=
  ∃ signals last, (∀ signal ∈ signals ++ [last],
      signal.fileName = fileName ∧ signal.statusLine ≠ syncSuccess) ∧
    outcome.signals = signals ++ [last] ++
      if outcome.ret = none then [] else [.syncFileStopped fileName 0]

theorem exists_last (host : Host) (currFile : QString) (fileSize : Nat) (size tranLen : Int)
    (wlens : List Int) : ∃ signals last, .syncFileStarted currFile fileSize ::
      progress host currFile size tranLen wlens = signals ++ [last] ∧
      ∀ signal ∈ signals ++ [last], signal.fileName = currFile ∧ signal.statusLine ≠ syncSuccess := by
  have hown : ∀ signal ∈ Signal.syncFileStarted currFile fileSize ::
      progress host currFile size tranLen wlens,
      signal.fileName = currFile ∧ signal.statusLine ≠ syncSuccess :=
    List.forall_mem_cons.mpr ⟨⟨rfl, starting_ne_success _ _⟩,
      progress_own host currFile size tranLen wlens⟩
  have hlast := List.dropLast_concat_getLast
    (List.cons_ne_nil (Signal.syncFileStarted currFile fileSize)
      (progress host currFile size tranLen wlens))
  exact ⟨_, _, hlast.symm, hlast.symm ▸ hown⟩

section Task

variable {host : Host} {io : Io} {w : World} {task : SyncTaskPackage}

theorem download_opened (h : task.direct = .download) {node : Node}
    (hopen : openRead host io w.remote (components task.fileName) = some node) :
    Reports task.fileName (transferImpl host io w task) ∧
    (transferImpl host io w task).copied =
      (receive host io node.content w.here (components task.fileName)).map (fun r => r.2.out) ∧
    ((transferImpl host io w task).ret = none ↔ io.touch = false ∨
      (((receive host io node.content w.here (components task.fileName)).map Prod.fst).getD
        w.here).find (components task.fileName) = none) := by
  rw [transferImpl_download h, doDownload]
  simp only [place_childPath, relative_childPath, hopen]
  obtain ⟨signals, last, hsignals, hown⟩ := exists_last host task.fileName
    (quint64 (int32 node.size)) (int32 node.size) 0
    (((receive host io node.content w.here (components task.fileName)).map fun r => r.2.wlens).getD [])
  cases htouch : utimes io (((receive host io node.content w.here
      (components task.fileName)).map Prod.fst).getD w.here) (components task.fileName) node.mtime with
  | none =>
    refine ⟨⟨signals, last, hown, ?_⟩, rfl, iff_of_true rfl ((utimes_eq_none_iff ..).mp htouch)⟩
    rw [hsignals, if_pos rfl, List.append_nil]
  | some here =>
    refine ⟨⟨signals, last, hown, ?_⟩, rfl, iff_of_false (by simp) fun hno => ?_⟩
    · rw [hsignals, if_neg (by simp)]
    · rw [(utimes_eq_none_iff ..).mpr hno] at htouch
      cases htouch

theorem upload_opened (h : task.direct = .upload)
    (hopen : io.remoteOpen = true ∧ (openTrunc host w.remote (components task.fileName)).isSome = true) :
    Reports task.fileName (transferImpl host io w task) ∧
    (transferImpl host io w task).copied =
      (openLocal io w.here (components task.fileName)).map (fun c => (copyAll true 5120 io c).out) ∧
    ((transferImpl host io w task).ret = none ↔
      ∃ c, openLocal io w.here (components task.fileName) = some c ∧
        (copyAll true 5120 io c).asserted = true) := by
  obtain ⟨remote, hremote⟩ := Option.isSome_iff_exists.mp hopen.2
  rw [transferImpl_upload h, doUpload]
  simp only [place_childPath, relative_childPath, hopen.1, hremote, if_true]
  obtain ⟨signals, last, hsignals, hown⟩ := exists_last host task.fileName
    (quint64 (int32 (((w.here.find (components task.fileName)).map Node.size).getD 0)))
    (int32 (((w.here.find (components task.fileName)).map Node.size).getD 0)) 0
    ((((openLocal io w.here (components task.fileName)).map (copyAll true 5120 io)).map
      Copy.wlens).getD [])
  have hasserted : (((openLocal io w.here (components task.fileName)).map
      (copyAll true 5120 io)).map Copy.asserted).getD false = true ↔
      ∃ c, openLocal io w.here (components task.fileName) = some c ∧
        (copyAll true 5120 io c).asserted = true := by
    cases openLocal io w.here (components task.fileName) <;> simp
  split
  · next hstop =>
    refine ⟨⟨signals, last, hown, ?_⟩, ?_, iff_of_true rfl (hasserted.mp hstop)⟩
    · rw [hsignals, if_pos rfl, List.append_nil]
    · exact Option.map_map ..
  · next hstop =>
    refine ⟨⟨signals, last, hown, ?_⟩, ?_, iff_of_false (by simp) fun hno => hstop (hasserted.mpr hno)⟩
    · rw [hsignals, if_neg (by simp)]
    · exact Option.map_map ..

theorem copiedWhole_iff {node : Node}
    (hfind : (w.source task.direct).find (components task.fileName) = some node) :
    copiedWhole host w task io = true ↔
      node.isDir = false ∧ (transferImpl host io w task).copied = some node.content := by
  rw [copiedWhole, hfind]
  cases node with
  | dir size mtime => simp [Node.isDir]
  | file content mtime => simp [Node.isDir, Node.content]

theorem copiedWhole_eq_false (h : (transferImpl host io w task).copied = none) :
    copiedWhole host w task io = false := by
  unfold copiedWhole
  split
  · rw [h]
    rfl
  · rfl

theorem download_whole_iff (h : task.direct = .download) {node : Node}
    (hopen : openRead host io w.remote (components task.fileName) = some node) :
    ((transferImpl host io w task).ret = none ∨ copiedWhole host w task io = true) ↔
      (io.touch = false ∨ w.here.find (components task.fileName) = none ∧
          ¬OpensHere host w (components task.fileName) io) ∨
        node.isDir = false ∧ OpensHere host w (components task.fileName) io ∧
          Delivers 8192 io 0 node.content := by
  obtain ⟨-, hcopied, hret⟩ := download_opened h hopen
  have hsource : (w.source task.direct).find (components task.fileName) = some node := by
    rw [h]
    exact (openRead_eq_some hopen).1
  have hopens : OpensHere host w (components task.fileName) io ↔
      (receive host io node.content w.here (components task.fileName)).isSome = true :=
    (receive_eq ..).symm
  rw [hret, copiedWhole_iff hsource, hcopied, hopens]
  cases hreceive : receive host io node.content w.here (components task.fileName) with
  | none => simp
  | some r =>
    obtain ⟨hcopy, hfind⟩ := receive_spec hreceive
    have hthere : r.1.find (components task.fileName) ≠ none := by simp [hfind]
    have hdelivers : (copyAll false 8192 io node.content).out = node.content ↔
        Delivers 8192 io 0 node.content := copyLoop_untested (Nat.lt_succ_self _)
    simp [hthere, hcopy, hdelivers]

theorem upload_whole_iff (h : task.direct = .upload)
    (hopen : io.remoteOpen = true ∧ (openTrunc host w.remote (components task.fileName)).isSome = true) :
    ((transferImpl host io w task).ret = none ∨ copiedWhole host w task io = true) ↔
      ∃ content mtime, w.here.find (components task.fileName) = some (.file content mtime) ∧
        io.localOpen = true ∧ ReadsOn 5120 io 0 content := by
  obtain ⟨-, hcopied, hret⟩ := upload_opened h hopen
  have htested (content : List UInt8) : ((copyAll true 5120 io content).asserted = true ∨
      (copyAll true 5120 io content).out = content) ↔ ReadsOn 5120 io 0 content :=
    copyLoop_tested (Nat.lt_succ_self content.length)
  cases hlocal : openLocal io w.here (components task.fileName) with
  | none =>
    refine iff_of_false ?_ ?_
    · rintro (hno | hwhole)
      · obtain ⟨c, hc, -⟩ := hret.mp hno
        rw [hlocal] at hc
        cases hc
      · rw [copiedWhole_eq_false (by rw [hcopied, hlocal, Option.map_none])] at hwhole
        cases hwhole
    · rintro ⟨content, mtime, hfind, hio, -⟩
      rw [openLocal_eq_some_iff.mpr ⟨mtime, hfind, hio⟩] at hlocal
      cases hlocal
  | some content =>
    obtain ⟨mtime, hfind, hio⟩ := openLocal_eq_some_iff.mp hlocal
    have hsource : (w.source task.direct).find (components task.fileName) =
        some (.file content mtime) := by
      rw [h]
      exact hfind
    rw [hret, copiedWhole_iff hsource, hcopied, hlocal]
    simp [Node.isDir, Node.content, hfind, hio, htested]

end Task

/-! ## One task -/

section Step

variable {host : Host} {s s' : Session} {fileName : QString} {whole : Bool}

theorem showsTruth_iff (s' : Session) (hnd : (names s.model.mMergedFiles).Nodup) (hs : ShowsTruth s)
    (hname : fileName ∈ names s.model.mMergedFiles)
    (hfiles : s'.model.mMergedFiles = s.model.mMergedFiles)
    (hdone : s'.done = (fileName, whole) :: s.done)
    (hother : ∀ row, row ≠ s.model.getRowNumberByFileName fileName →
      s'.model.mTransferStatus[row]? = s.model.mTransferStatus[row]?)
    (hshown : ∀ e ∈ s'.shown, ¬Disturbs e.1 e.2.1 e.2.2) :
    ShowsTruth s' ↔ (s'.model.mTransferStatus[s.model.getRowNumberByFileName fileName]? =
      some syncSuccess → whole = true) := by
  constructor
  · intro h hsuccess
    obtain ⟨f, hf, hfname⟩ := exists_row hname
    have hvalue := h.success _ f (hfiles ▸ hf) hsuccess
    rw [hdone, Assoc.value_cons, if_pos hfname.symm] at hvalue
    exact Option.some.inj hvalue
  · intro hown
    have hrow : ∀ (row : Nat) (f : File), s'.model.mMergedFiles[row]? = some f → f.1 = fileName →
        row = s.model.getRowNumberByFileName fileName := by
      intro row f hf hfname
      rw [hfiles] at hf
      rw [← hfname, row_eq hnd hf]
    refine ⟨fun row f hf hsuccess => ?_, fun name before hlast row f hf hfname hsuccess => ?_, hshown⟩
    · rw [hdone, Assoc.value_cons]
      split
      · next hfname =>
        rw [hrow row f hf hfname.symm] at hsuccess
        rw [hown hsuccess]
      · next hfname =>
        have hne := other_row hname (hfiles ▸ hf) (Ne.symm hfname)
        rw [hother row hne] at hsuccess
        exact hs.success row f (hfiles ▸ hf) hsuccess
    · obtain ⟨hpair, -⟩ := List.cons.inj (hdone.symm.trans hlast)
      obtain ⟨rfl, hwhole⟩ := Prod.mk.inj hpair
      rw [hrow row f hf hfname] at hsuccess
      rw [hown hsuccess] at hwhole
      cases hwhole

theorem reports_showsTruth_iff (hnd : (names s.model.mMergedFiles).Nodup) (hs : ShowsTruth s)
    (hname : fileName ∈ names s.model.mMergedFiles) {outcome : Outcome}
    (hreports : Reports fileName outcome) (whole : Bool) :
    ShowsTruth ⟨outcome.world, outcome.signals.foldl slot s.model, outcome.ret.isSome,
        (fileName, whole) :: s.done, s.shown ++ shownBy fileName s.model outcome.signals⟩ ↔
      outcome.ret = none ∨ whole = true := by
  obtain ⟨signals, last, hown, hsignals⟩ := hreports
  have hne := files_ne_nil hname
  have hall : ∀ signal ∈ outcome.signals, signal.fileName = fileName := by
    intro signal hsignal
    rw [hsignals] at hsignal
    rcases List.mem_append.mp hsignal with hsignal | hsignal
    · exact (hown signal hsignal).1
    · split at hsignal
      · cases hsignal
      · rw [List.mem_singleton.mp hsignal]
        rfl
  have hshown : ∀ e ∈ s.shown ++ shownBy fileName s.model outcome.signals,
      ¬Disturbs e.1 e.2.1 e.2.2 := by
    intro e he
    rcases List.mem_append.mp he with he | he
    · exact hs.undisturbed e he
    · exact shownBy_own hname hall e he
  refine (showsTruth_iff _ hnd hs hname (foldl_slot_files _ _) rfl
    (fun row hrow => foldl_slot_other hne hall hrow) hshown).trans ?_
  cases hret : outcome.ret with
  | none =>
    rw [hsignals, hret, if_pos rfl, List.append_nil]
    obtain ⟨hlast, hline⟩ := hown last (by simp)
    have hshown := foldl_slot_last hne signals last
    rw [hlast] at hshown
    exact iff_of_true (fun h => absurd (Option.some.inj (hshown.symm.trans h)) hline) (.inl rfl)
  | some ret =>
    rw [hsignals, hret, if_neg (by simp)]
    have hshown := foldl_slot_last hne (signals ++ [last]) (.syncFileStopped fileName 0)
    have hshown : (List.foldl slot s.model (signals ++ [last] ++ [.syncFileStopped fileName
      0])).mTransferStatus[s.model.getRowNumberByFileName fileName]? = some syncSuccess := hshown
    exact ⟨fun h => .inr (h hshown), fun h _ => h.resolve_left (by simp)⟩

theorem silent_showsTruth_iff (hnd : (names s.model.mMergedFiles).Nodup) (hs : ShowsTruth s)
    (hname : fileName ∈ names s.model.mMergedFiles) :
    ShowsTruth ⟨s.world, s.model, true, (fileName, false) :: s.done, s.shown ++ []⟩ ↔
      s.model.statusOf fileName ≠ some syncSuccess := by
  have hshown : ∀ e ∈ s.shown ++ [], ¬Disturbs e.1 e.2.1 e.2.2 := by
    rw [List.append_nil]
    exact hs.undisturbed
  refine (showsTruth_iff ⟨s.world, s.model, true, (fileName, false) :: s.done, s.shown ++ []⟩ hnd hs hname rfl
    rfl (fun _ _ => rfl) hshown).trans ?_
  simp [statusOf]

theorem stopped_showsTruth_iff (hnd : (names s.model.mMergedFiles).Nodup) (hs : ShowsTruth s)
    (hname : fileName ∈ names s.model.mMergedFiles) :
    ShowsTruth ⟨s.world, s.model.slot (.syncFileStopped [] (-1)), true, (fileName, false) :: s.done,
        s.shown ++ [(fileName, s.model, .syncFileStopped [] (-1))]⟩ ↔
      s.model.getRowNumberByFileName [] ≠ s.model.getRowNumberByFileName fileName ∧
        s.model.statusOf [] = some syncSuccess ∧ s.model.statusOf fileName ≠ some syncSuccess := by
  have hne := files_ne_nil hname
  have hslot : ∀ row, (s.model.slot (.syncFileStopped [] (-1))).mTransferStatus[row]? =
      if row = s.model.getRowNumberByFileName [] then some syncSuccess
      else s.model.mTransferStatus[row]? := slot_row hne (.syncFileStopped [] (-1))
  constructor
  · intro h
    obtain ⟨f, hf, hfname⟩ := exists_row hname
    have hfailed := h.failed fileName s.done rfl _ f (by rwa [slot_files]) hfname
    rw [hslot] at hfailed
    have hrow : s.model.getRowNumberByFileName [] ≠ s.model.getRowNumberByFileName fileName := by
      intro he
      rw [if_pos he.symm] at hfailed
      exact hfailed rfl
    rw [if_neg (Ne.symm hrow)] at hfailed
    refine ⟨hrow, ?_, hfailed⟩
    -- the row of the empty name is another file's, so it may not change
    have hundisturbed : ¬Disturbs fileName s.model (.syncFileStopped [] (-1)) :=
      h.undisturbed _ (List.mem_append_right _ (List.mem_singleton_self _))
    have hlt := row_lt hne []
    obtain ⟨g, hg⟩ : ∃ g, s.model.mMergedFiles[s.model.getRowNumberByFileName []]? = some g :=
      ⟨_, List.getElem?_eq_getElem (s.model.sized ▸ hlt)⟩
    by_contra hchanged
    refine hundisturbed ⟨_, g, hg, fun hgname => hrow ?_, ?_⟩
    · rw [← hgname, row_eq hnd hg]
    · rw [hslot, if_pos rfl]
      exact fun he => hchanged he.symm
  · rintro ⟨hrow, hsuccess, hown⟩
    have hsame (row : Nat) : (s.model.slot (.syncFileStopped [] (-1))).mTransferStatus[row]? =
        s.model.mTransferStatus[row]? := by
      rw [hslot]
      split
      · next he =>
        rw [he]
        exact hsuccess.symm
      · rfl
    have hshown : ∀ e ∈ s.shown ++ [(fileName, s.model, Signal.syncFileStopped [] (-1))],
        ¬Disturbs e.1 e.2.1 e.2.2 := by
      intro e he
      rcases List.mem_append.mp he with he | he
      · exact hs.undisturbed e he
      · rw [List.mem_singleton.mp he]
        rintro ⟨row, f, -, -, hchanged⟩
        exact hchanged (hsame row)
    refine (showsTruth_iff _ hnd hs hname (slot_files _ _) rfl (fun row _ => hsame row) hshown).mpr ?_
    rw [hsame]
    exact fun he => absurd he hown

/-- **One task keeps the rows true exactly when it is honest.** -/
theorem step_showsTruth_iff {a : SyncTaskPackage × Io} (hnd : (names s.model.mMergedFiles).Nodup)
    (hs : ShowsTruth s) (hstep : s.step host a = some s') : ShowsTruth s' ↔ Honest host s a := by
  obtain ⟨task, io⟩ := a
  unfold Session.step at hstep
  split at hstep
  · next halive =>
    obtain rfl := Option.some.inj hstep
    obtain ⟨-, hname⟩ := halive
    unfold Honest
    dsimp only
    cases hdirect : task.direct with
    | download =>
      cases hopen : openRead host io s.world.remote (components task.fileName) with
      | none =>
        have hout : transferImpl host io s.world task = _ := download_closed hdirect hopen
        rw [copiedWhole_eq_false (by rw [hout]), hout]
        exact silent_showsTruth_iff hnd hs hname
      | some node =>
        rw [reports_showsTruth_iff hnd hs hname (download_opened hdirect hopen).1]
        exact download_whole_iff hdirect hopen
    | upload =>
      dsimp only
      split
      · next hopen =>
        rw [reports_showsTruth_iff hnd hs hname (upload_opened hdirect hopen).1]
        exact upload_whole_iff hdirect hopen
      · next hopen =>
        have hout : transferImpl host io s.world task = _ := upload_closed hdirect hopen
        rw [copiedWhole_eq_false (by rw [hout]), hout]
        exact stopped_showsTruth_iff hnd hs hname
  · cases hstep

end Step

theorem step_files {host : Host} {s s' : Session} {a : SyncTaskPackage × Io}
    (h : s.step host a = some s') : s'.model.mMergedFiles = s.model.mMergedFiles := by
  unfold Session.step at h
  split at h
  · obtain rfl := Option.some.inj h
    exact foldl_slot_files _ _
  · cases h

theorem start_showsTruth (w : World) (files : List File) : ShowsTruth (Session.start w files) := by
  refine ⟨fun row f _ hsuccess => ?_, nofun, fun e he => by cases he⟩
  simp only [Session.start, setDiffFiles, List.getElem?_map] at hsuccess
  obtain ⟨g, -, hnil⟩ := Option.map_eq_some_iff.mp hsuccess
  exact absurd hnil (by unfold syncSuccess; simp)

/-- **What the rows show is true in every state of a run exactly when every task is honest.** -/
theorem sync_success_iff (host : Host) (w : World) (files : List File) (hnd : (names files).Nodup)
    (tasks : List (SyncTaskPackage × Io)) (s : Session)
    (hrun : run (Session.step host) (Session.start w files) tasks = some s) :
    Meets (Session.step host) (Honest host) (Session.start w files) tasks ↔
      ∀ before t, before <+: tasks → run (Session.step host) (Session.start w files) before = some t →
        ShowsTruth t := by
  have hinv : ∀ s a s', (names s.model.mMergedFiles).Nodup → Session.step host s a = some s' →
      (names s'.model.mMergedFiles).Nodup := by
    intro s a s' hs hstep
    rwa [step_files hstep]
  exact meets_iff hinv (fun s a s' hs hgood hstep => step_showsTruth_iff hs hgood hstep) hnd
    (start_showsTruth w files) hrun

/-- The file `a` is to be fetched; the file `b` is not there yet. -/
def twoRows : List File := [(['a'], 0), (['b'], 1)]

theorem sync_success_fetched : (names twoRows).Nodup ∧
    ∃ s, run (Session.step plainHost) (Session.start ⟨plainFile, emptyTree⟩ twoRows)
        [(⟨['a'], 0, .download⟩, fineIo)] = some s ∧
      s.model.mTransferStatus = [syncSuccess, []] ∧ ShowsTruth s := by
  refine ⟨by decide, _, rfl, by decide, ?_⟩
  refine (sync_success_iff plainHost ⟨plainFile, emptyTree⟩ twoRows (by decide)
    [(⟨['a'], 0, .download⟩, fineIo)] _ rfl).mp ⟨?_, fun _ _ => trivial⟩ _ _ (List.prefix_refl _) rfl
  exact .inr ⟨rfl, ⟨rfl, by decide⟩, .done 0⟩

theorem sync_success_of_other : ∃ s,
    run (Session.step plainHost) (Session.start ⟨emptyTree, emptyTree⟩ twoRows)
        [(⟨['b'], 1, .upload⟩, { fineIo with remoteOpen := false })] = some s ∧
      s.done = [(['b'], false)] ∧ s.model.mTransferStatus = [syncSuccess, []] ∧ ¬ShowsTruth s := by
  -- The upload of `b` cannot open the remote file, and the row of `a` shows a success.
  refine ⟨_, rfl, by decide, by decide, fun h => ?_⟩
  have hdone := h.success 0 (['a'], 0) rfl (by decide)
  exact absurd hdone (by decide)

end NullFxp.Sync
