import NullFxp.TaskPackage
import NullFxp.Transportor.CopyTree

/-!
# How a transfer starts

A selection is dragged from one view into another, files of the desktop are dropped, or a menu is
used. Two packages come of it, and their schemes say which loop runs.
-/

open Text

namespace NullFxp.Transportor

/-! ## Views -/

inductive View where
  | file | sftp | ftp
  deriving DecidableEq

/-- `PROTO_FILE`, `PROTO_SFTP`, `PROTO_FTP` -/
def View.scheme : View → Int
  | file => 1
  | sftp => 2
  | ftp => 3

structure Conn where
  hostName : QString
  port : Nat
  userName : QString
  password : QString
  pubkey : QString

/-- The package of a view for some of its files. The local view has no connection. -/
def View.package (view : View) (conn : Conn) (files : List QString) : NullFxp.TaskPackage :=
  match view with
  | .file => { scheme := View.scheme .file, files }
  | view =>
    { scheme := view.scheme, files
      host := conn.hostName
      port := conn.port.repr.toList
      username := conn.userName
      password := conn.password
      pubkey := conn.pubkey }

/-- A selection model: whether anything is selected, and the rows beside the current one, each with
its path and whether it is selected. -/
structure Selection where
  hasSelection : Bool
  rows : List (QString × Bool)

/-- `for (int i = rowCount(pidx) - 1; i >= 0; --i) if (isRowSelected(i, pidx))` -/
def Selection.paths (s : Selection) : List QString := (s.rows.filter (·.2)).reverse.map (·.1)

/-! ## Drag and drop -/

inductive MimeData where
  | taskPackage (ba : QByteArray)
  | uriList (paths : List QString)
  | other

/-- What is dragged: the selection of the table, or of the tree if the table has none. -/
def dragged (table tree : Selection) : Selection := if table.hasSelection then table else tree

/-- `SFTPView::slot_drag_ready` -/
def sftpSlotDragReady (conn : Conn) (table tree : Selection) : Option MimeData :=
  let ism := dragged table tree
  if ism.hasSelection then some (.taskPackage (View.package .sftp conn ism.paths).toRawData) else none

/-- `FTPView::slot_drag_ready` asks the proxy of the one view for the rows of the other. The index is
invalid then, and `filePath` asserts that it is not. -/
def ftpSlotDragReady (conn : Conn) (table tree : Selection) : Option (Option MimeData) :=
  let ism := dragged table tree
  if ism.paths ≠ [] then none
  else some (if ism.hasSelection then
    some (.taskPackage (View.package .ftp conn []).toRawData) else none)

/-- The two packages of a transfer -/
abbrev Packages := NullFxp.TaskPackage × NullFxp.TaskPackage

/-- `none` is a failed assertion; no transfer is `some none`. -/
def slotDropMimeData (view : View) (conn : Conn) (path : QString) :
    MimeData → Option (Option Packages)
  | .taskPackage ba =>
    let pkg := NullFxp.TaskPackage.fromRawData ba
    some (if pkg.isValid then some (pkg, view.package conn [path]) else none)
  | .uriList [] => if view = .file then some none else none
  | .uriList paths => some (some (View.package .file conn paths, view.package conn [path]))
  | .other => some none

/-! ## Menus -/

/-- The view that the files go to, with the directory that is selected or dropped on -/
structure Place where
  view : View
  conn : Conn
  path : QString

/-- The menu of the local view, with the topmost remote view: `slot_new_upload_requested`. `name` is
the name of the directory that is selected there. -/
def slotNewUploadRequested (selection : Selection) (dest : Place) (name : QString) : Option Packages :=
  match dest.view with
  | .file => none
  | .sftp =>
    if dest.path = [] then none
    else some (View.package .file dest.conn selection.paths,
      View.package .sftp dest.conn [dest.path])
  | .ftp =>
    if dest.path = [] ∧ name = [] then none
    else some (View.package .file dest.conn selection.paths,
      View.package .ftp dest.conn [dest.path])

/-- `slot_new_transfer` of a remote view, with the directory that is selected in the local one -/
def slotNewTransfer (view : View) (conn : Conn) (inRetriveLoop : Bool) (selection : Selection)
    (localDir : QString) (isDir : Bool) : Option Packages :=
  if view = .file then none
  else if inRetriveLoop || !selection.hasSelection then none
  else if localDir.length = 0 || !isDir then none
  else some (view.package conn selection.paths, View.package .file conn [localDir])

/-! ## Gestures -/

inductive Gesture where
  | dragSftp (conn : Conn) (table tree : Selection) (dest : Place)
  | dragFtp (conn : Conn) (table tree : Selection) (dest : Place)
  /-- from the local view, or from another program -/
  | dropUrls (paths : List QString) (dest : Place)
  | upload (selection : Selection) (dest : Place) (name : QString)
  | download (view : View) (conn : Conn) (inRetriveLoop : Bool) (selection : Selection)
      (localDir : QString) (isDir : Bool)

namespace Gesture

def start : Gesture → Option (Option Packages)
  | dragSftp conn table tree dest =>
    match sftpSlotDragReady conn table tree with
    | some data => slotDropMimeData dest.view dest.conn dest.path data
    | none => some none
  | dragFtp conn table tree dest =>
    (ftpSlotDragReady conn table tree).bind fun
      | some data => slotDropMimeData dest.view dest.conn dest.path data
      | none => some none
  | dropUrls paths dest => slotDropMimeData dest.view dest.conn dest.path (.uriList paths)
  | upload selection dest name => some (slotNewUploadRequested selection dest name)
  | download view conn inRetriveLoop selection localDir isDir =>
    some (slotNewTransfer view conn inRetriveLoop selection localDir isDir)

/-- What the user selected -/
def files : Gesture → List QString
  | dragSftp _ table tree _ | dragFtp _ table tree _ => (dragged table tree).paths
  | dropUrls paths _ => paths
  | upload selection .. | download _ _ _ selection .. => selection.paths

/-- Where it goes -/
def dest : Gesture → QString
  | dragSftp _ _ _ dest | dragFtp _ _ _ dest | dropUrls _ dest | upload _ dest _ => dest.path
  | download _ _ _ _ localDir _ => localDir

def IsMenu : Gesture → Prop
  | upload .. | download .. => True
  | _ => False

end Gesture

/-! ## Which loop runs -/

inductive RunLoop where
  | fileToSftp | fileToFtp | ftpToFile | sftpToFile | ftpToSftp | sftpToFtp | ftpToFtp | sftpToSftp
  deriving DecidableEq

inductive Dispatch where
  | routine (r : RunLoop)
  /-- `ERRNO_TASK_INVALID` -/
  | taskInvalid
  /-- Nothing is said, and the error code is not set. -/
  | unsupported
  deriving DecidableEq

/-- `Transportor::run` -/
def dispatch (srcProtocol destProtocol : Int) : Dispatch :=
  if srcProtocol = 1 ∧ destProtocol = 1 then .taskInvalid
  else if srcProtocol = 1 ∧ destProtocol = 2 then .routine .fileToSftp
  else if srcProtocol = 1 ∧ destProtocol = 3 then .routine .fileToFtp
  else if srcProtocol = 3 ∧ destProtocol = 1 then .routine .ftpToFile
  else if srcProtocol = 2 ∧ destProtocol = 1 then .routine .sftpToFile
  else if srcProtocol = 3 ∧ destProtocol = 2 then .routine .ftpToSftp
  else if srcProtocol = 2 ∧ destProtocol = 3 then .routine .sftpToFtp
  else if srcProtocol = 3 ∧ destProtocol = 3 then .routine .ftpToFtp
  else if srcProtocol = 2 ∧ destProtocol = 2 then .routine .sftpToSftp
  else .unsupported

/-- A package as the transfer thread has it. -/
def atThread (pkg : NullFxp.TaskPackage) : TaskPackage :=
  ⟨pkg.scheme.toNat, pkg.files, pkg.host, pkg.port, pkg.username, pkg.password, pkg.pubkey⟩

/-- `ProgressDialog::set_transfer_info`, for a new thread -/
def setTransferInfo {σ : Type} (tr : Packages) (world : σ) : State σ :=
  setTransportInfo (atThread tr.1) (atThread tr.2) (State.new world)

/-! ## What is dropped -/

/-- No file is sent as one file without a name. -/
def orNameless (files : List QString) : List QString := if files = [] then [[]] else files

theorem fromRawData_of_scheme {pkg : NullFxp.TaskPackage} (h : 0 < pkg.scheme ∧ pkg.scheme < 9) :
    .fromRawData pkg.toRawData = NullFxp.TaskPackage.reread { pkg with files := orNameless pkg.files } := by
  have hraw : pkg.toRawData =
      NullFxp.TaskPackage.toRawData { pkg with files := orNameless pkg.files } := by
    obtain ⟨scheme, files, host, port, username, password, pubkey⟩ := pkg
    unfold orNameless
    cases files with
    | nil => rfl
    | cons f files => rfl
  rw [hraw]
  apply NullFxp.TaskPackage.fromRawData_toRawData
  have hne : orNameless pkg.files ≠ [] := by
    unfold orNameless
    split
    · exact List.cons_ne_nil _ _
    · next h => exact h
  unfold NullFxp.TaskPackage.isValid NullFxp.TaskPackage.protoMin NullFxp.TaskPackage.protoMax
  rw [if_neg (show ¬ (pkg.scheme ≤ 0 ∨ pkg.scheme ≥ 9) by omega), if_neg (by simpa using hne)]

theorem isValid_reread {pkg : NullFxp.TaskPackage} (h : 0 < pkg.scheme ∧ pkg.scheme < 9) :
    (NullFxp.TaskPackage.reread { pkg with files := orNameless pkg.files }).isValid = true := by
  have hne : orNameless pkg.files ≠ [] := by
    unfold orNameless
    split
    · exact List.cons_ne_nil _ _
    · next h => exact h
  unfold NullFxp.TaskPackage.isValid NullFxp.TaskPackage.protoMin NullFxp.TaskPackage.protoMax
    NullFxp.TaskPackage.reread
  rw [if_neg (show ¬ (pkg.scheme ≤ 0 ∨ pkg.scheme ≥ 9) by omega), if_neg (by simpa using hne)]

theorem drop_toRawData (view : View) (conn : Conn) (path : QString) {pkg : NullFxp.TaskPackage}
    (h : 0 < pkg.scheme ∧ pkg.scheme < 9) :
    slotDropMimeData view conn path (.taskPackage pkg.toRawData) =
      some (some (.reread { pkg with files := orNameless pkg.files }, view.package conn [path])) := by
  unfold slotDropMimeData
  simp only [fromRawData_of_scheme h, isValid_reread h, if_true]

@[simp] theorem scheme_package (view : View) (conn : Conn) (files : List QString) :
    (view.package conn files).scheme = view.scheme := by
  cases view <;> rfl

@[simp] theorem files_package (view : View) (conn : Conn) (files : List QString) :
    (view.package conn files).files = files := by
  cases view <;> rfl

theorem scheme_range (view : View) : 0 < view.scheme ∧ view.scheme < 9 := by
  cases view <;> decide

/-! ## What starts -/

namespace Gesture

/-- The view that the files come from, and the one that they go to -/
def views : Gesture → View × View
  | dragSftp _ _ _ dest => (.sftp, dest.view)
  | dragFtp _ _ _ dest => (.ftp, dest.view)
  | dropUrls _ dest | upload _ dest _ => (.file, dest.view)
  | download view .. => (view, .file)

/-- The files as they come out of a drag -/
def sentFiles (g : Gesture) : List QString :=
  match g with
  | dragSftp .. | dragFtp .. => (orNameless g.files).map fun s => fromLatin1 (toAscii s)
  | _ => g.files

theorem upload_eq {selection : Selection} {dest : Place} {name : QString} {tr : Packages}
    (h : slotNewUploadRequested selection dest name = some tr) :
    tr = (View.package .file dest.conn selection.paths, dest.view.package dest.conn [dest.path]) := by
  unfold slotNewUploadRequested at h
  split at h
  · cases h
  · next hview =>
    split at h
    · cases h
    · rw [hview]
      exact (Option.some.inj h).symm
  · next hview =>
    split at h
    · cases h
    · rw [hview]
      exact (Option.some.inj h).symm

theorem download_eq {view : View} {conn : Conn} {inRetriveLoop isDir : Bool} {selection : Selection}
    {localDir : QString} {tr : Packages}
    (h : slotNewTransfer view conn inRetriveLoop selection localDir isDir = some tr) :
    tr = (view.package conn selection.paths, View.package .file conn [localDir]) := by
  unfold slotNewTransfer at h
  split at h
  · cases h
  · split at h
    · cases h
    · split at h
      · cases h
      · exact (Option.some.inj h).symm

theorem start_eq {g : Gesture} {tr : Packages} (h : g.start = some (some tr)) :
    tr.1.scheme = g.views.1.scheme ∧ tr.2.scheme = g.views.2.scheme ∧
      tr.1.files = g.sentFiles ∧ tr.2.files = [g.dest] := by
  cases g with
  | dragSftp conn table tree dest =>
    unfold start sftpSlotDragReady at h
    by_cases hsel : (dragged table tree).hasSelection = true
    · simp only [hsel, if_true] at h
      rw [drop_toRawData _ _ _ (by rw [scheme_package]; exact scheme_range _)] at h
      obtain rfl := Option.some.inj (Option.some.inj h)
      simp [NullFxp.TaskPackage.reread, views, sentFiles, files, Gesture.dest]
    · simp only [hsel] at h
      cases Option.some.inj h
  | dragFtp conn table tree dest =>
    unfold start ftpSlotDragReady at h
    by_cases hpaths : (dragged table tree).paths = []
    · by_cases hsel : (dragged table tree).hasSelection = true
      · simp only [hpaths, ne_eq, not_true_eq_false, if_false, hsel, if_true, Option.bind_some] at h
        rw [drop_toRawData _ _ _ (by rw [scheme_package]; exact scheme_range _)] at h
        obtain rfl := Option.some.inj (Option.some.inj h)
        simp [NullFxp.TaskPackage.reread, views, sentFiles, files, Gesture.dest, hpaths]
      · simp [hpaths, hsel] at h
    · simp [hpaths] at h
  | dropUrls paths dest =>
    cases paths with
    | nil =>
      change (if dest.view = .file then some none else none) = some (some tr) at h
      split at h
      · cases Option.some.inj h
      · cases h
    | cons path paths =>
      obtain rfl := Option.some.inj (Option.some.inj h)
      simp [views, sentFiles, files, Gesture.dest]
  | upload selection dest name =>
    obtain rfl := upload_eq (Option.some.inj h)
    simp [views, sentFiles, files, Gesture.dest]
  | download view conn inRetriveLoop selection localDir isDir =>
    obtain rfl := download_eq (Option.some.inj h)
    simp [views, sentFiles, files, Gesture.dest]

theorem start_eq_none_iff (g : Gesture) : g.start = none ↔
    (∃ conn table tree dest, g = .dragFtp conn table tree dest ∧ g.files ≠ []) ∨
      ∃ dest, g = .dropUrls [] dest ∧ dest.view ≠ .file := by
  cases g with
  | dragSftp conn table tree dest =>
    have hne : start (.dragSftp conn table tree dest) ≠ none := by
      by_cases hsel : (dragged table tree).hasSelection = true
      · simp [start, sftpSlotDragReady, hsel, slotDropMimeData]
      · simp [start, sftpSlotDragReady, hsel]
    simp [hne]
  | dragFtp conn table tree dest =>
    have hstart : start (.dragFtp conn table tree dest) = none ↔ (dragged table tree).paths ≠ [] := by
      unfold start ftpSlotDragReady
      by_cases hpaths : (dragged table tree).paths = []
      · by_cases hsel : (dragged table tree).hasSelection = true
        · simp [hpaths, hsel, slotDropMimeData]
        · simp [hpaths, hsel]
      · simp [hpaths]
    rw [hstart]
    simp [files]
  | dropUrls paths dest =>
    cases paths with
    | nil =>
      have hstart : start (.dropUrls [] dest) = if dest.view = .file then some none else none := rfl
      rw [hstart]
      simp
    | cons path paths =>
      have hstart : start (.dropUrls (path :: paths) dest) ≠ none := by
        simp [start, slotDropMimeData]
      simp [hstart]
  | upload => simp [start]
  | download => simp [start]

end Gesture

theorem dispatch_views (src dest : View) :
    (dispatch src.scheme dest.scheme = .taskInvalid ↔ src = .file ∧ dest = .file) ∧
      dispatch src.scheme dest.scheme ≠ .unsupported := by
  cases src <;> cases dest <;> decide

theorem Gesture.sentFiles_eq_nil_iff (g : Gesture) :
    g.sentFiles = [] ↔ g.files = [] ∧ g.IsMenu ∨ ∃ dest, g = .dropUrls [] dest := by
  have hne : ∀ files : List QString, orNameless files ≠ [] := by
    intro files
    unfold orNameless
    split
    · exact List.cons_ne_nil _ _
    · next h => exact h
  cases g with
  | dragSftp => simp [sentFiles, IsMenu, hne]
  | dragFtp => simp [sentFiles, IsMenu, hne]
  | dropUrls paths dest => simp [sentFiles, IsMenu, files]
  | upload => simp [sentFiles, IsMenu]
  | download => simp [sentFiles, IsMenu]

/-- **What a gesture does.** The program stops at a drag of FTP entries and at a drop of nothing. A
transfer that starts has one of the eight loops, or is told to be invalid when it goes from the local
disk to itself. Its queue is empty, so that the loop stops the program, just if it comes from a menu
with nothing selected beside the current row. -/
theorem gesture_spec (g : Gesture) :
    (g.start = none ↔
      (∃ conn table tree dest, g = .dragFtp conn table tree dest ∧ g.files ≠ []) ∨
        ∃ dest, g = .dropUrls [] dest ∧ dest.view ≠ .file) ∧
    ∀ tr, g.start = some (some tr) →
      (dispatch tr.1.scheme tr.2.scheme = .taskInvalid ↔ g.views = (.file, .file)) ∧
      dispatch tr.1.scheme tr.2.scheme ≠ .unsupported ∧
      ∀ (σ : Type) (lp : Loop σ) (world : σ),
        (lp.round (setTransferInfo tr world) = none ∧ (setTransferInfo tr world).readyQueue = [] ↔
          g.IsMenu ∧ g.files = []) := by
  refine ⟨g.start_eq_none_iff, fun tr htr => ?_⟩
  obtain ⟨hsrc, hdest, hfiles, hone⟩ := Gesture.start_eq htr
  obtain ⟨hinvalid, hsupported⟩ := dispatch_views g.views.1 g.views.2
  rw [hsrc, hdest]
  refine ⟨by rw [hinvalid, Prod.ext_iff], hsupported, fun σ lp world => ?_⟩
  have hready : (setTransferInfo tr world).readyQueue = [] ↔ g.sentFiles = [] := by
    cases hsent : g.sentFiles <;>
      simp [setTransferInfo, setTransportInfo, State.new, atThread, hfiles, hone, hsent]
  have hround : (setTransferInfo tr world).readyQueue = [] →
      lp.round (setTransferInfo tr world) = none := by
    intro h
    unfold Loop.round
    rw [h]
  have hurls : ∀ dest, g ≠ .dropUrls [] dest := by
    rintro dest rfl
    change (if dest.view = .file then some none else none) = some (some tr) at htr
    split at htr
    · cases Option.some.inj htr
    · cases htr
  rw [and_iff_right_of_imp hround, hready, g.sentFiles_eq_nil_iff]
  simp only [hurls, exists_false, or_false]
  exact and_comm

/-- The menu of the local view, with nothing selected, while a directory of a host is. -/
def exampleUpload : Gesture :=
  .upload ⟨false, [("/c".toList, false)]⟩
    ⟨.sftp, ⟨"host".toList, 22, "user".toList, "password".toList, []⟩, "/d".toList⟩ "d".toList

theorem gesture_spec_upload :
    ∃ tr, exampleUpload.start = some (some tr) ∧ ∀ lp : Loop Dirs,
      lp.round (setTransferInfo tr []) = none := by
  obtain ⟨tr, hstart⟩ : ∃ tr, exampleUpload.start = some (some tr) := ⟨_, rfl⟩
  refine ⟨tr, hstart, fun lp => ?_⟩
  exact (((gesture_spec exampleUpload).2 tr hstart).2.2 Dirs lp [] |>.mpr ⟨trivial, by decide⟩).1

/-! ## From the gesture to the copies -/

/-- The paths of a drag have no NUL and only characters of one byte. -/
def Gesture.Readable (g : Gesture) : Prop :=
  ∀ conn table tree dest, g = .dragSftp conn table tree dest →
    ∀ path ∈ g.files, ∀ c ∈ path, 0 < c.toNat ∧ c.toNat < 256

theorem Gesture.sentFiles_eq {g : Gesture} {tr : Packages} (hstart : g.start = some (some tr))
    (hne : g.files ≠ []) (h : g.Readable) : g.sentFiles = g.files := by
  cases g with
  | dragSftp conn table tree dest =>
    have hsent : orNameless (files (.dragSftp conn table tree dest)) =
        files (.dragSftp conn table tree dest) := if_neg hne
    unfold sentFiles
    dsimp only
    rw [hsent]
    refine (List.map_congr_left fun path hpath => ?_).trans (List.map_id _)
    exact (fromLatin1_toAscii_iff path).mpr (h conn table tree dest rfl path hpath)
  | dragFtp conn table tree dest =>
    rw [((start_eq_none_iff _).mpr (.inl ⟨conn, table, tree, dest, rfl, hne⟩))] at hstart
    cases hstart
  | dropUrls => rfl
  | upload => rfl
  | download => rfl

/-- The loops between the local disk and SFTP, with the tree `t` on the side of the source. -/
def Dispatch.loopOf (t : Tree) (copy : QString → QString → State Dirs → Option (State Dirs)) :
    Dispatch → Option (Loop Dirs)
  | .routine .sftpToFile => some (runSftpToFile connected copy t.sftpHost Dirs.localDisk)
  | .routine .sftpToSftp => some (runSftpToSftp connected copy t.sftpHost Dirs.sftpHost)
  | .routine .fileToSftp => some (runFileToSftp connected copy t.localDisk Dirs.sftpHost)
  | _ => none

theorem acts_loopOf {t : Tree} (ht : t.Named)
    {copy : QString → QString → State Dirs → Option (State Dirs)} {d : Dispatch} {lp : Loop Dirs}
    (hlp : d.loopOf t copy = some lp) : (∀ w, lp.connect w = (none, w)) ∧ lp.copyFile = copy ∧
      ∀ src u, t.lookup (components src) = some u → Acts lp src u := by
  unfold Dispatch.loopOf at hlp
  split at hlp
  · obtain rfl := Option.some.inj hlp
    exact ⟨fun _ => rfl, rfl, fun src u hu => acts_sftpToFile copy ht hu⟩
  · obtain rfl := Option.some.inj hlp
    exact ⟨fun _ => rfl, rfl, fun src u hu => acts_sftpToSftp copy ht hu⟩
  · obtain rfl := Option.some.inj hlp
    exact ⟨fun _ => rfl, rfl, fun src u hu => acts_fileToSftp copy ht hu⟩
  · cases hlp

/-- The directory `/a` is dragged from the table of a host into `/d` on the local disk. -/
def exampleDrag : Gesture :=
  .dragSftp ⟨"host".toList, 22, "user".toList, "password".toList, []⟩
    ⟨true, [("/c".toList, false), ("/a".toList, true)]⟩ ⟨true, []⟩
    ⟨.file, ⟨[], 0, [], [], []⟩, "/d".toList⟩

end NullFxp.Transportor
