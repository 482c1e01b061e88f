import NullFxp.Sync.Merge

/-!
# The plan of a synchronisation

`SynchronizeWindow::syncAllFiles` goes through the merged files and asks for the transfers of a
direction. Its tests of the flags do not exclude each other; that a file gets one task at most
rests on the merge.
-/

namespace NullFxp.Sync

inductive Direct where
  | upload | download
  deriving DecidableEq

structure SyncTaskPackage where
  fileName : QString
  attr : Nat
  direct : Direct
  deriving DecidableEq

def taskUpload : Int := 1
def taskDownload : Int := 2
def taskBoth : Int := 3
def taskUploadLocalOnly : Int := 4
def taskDownloadRemoteOnly : Int := 5

def syncUpload (file : File) : List SyncTaskPackage := [⟨file.1, file.2, .upload⟩]

def syncDownload (file : File) : List SyncTaskPackage := [⟨file.1, file.2, .download⟩]

/-- What one row of the model emits. -/
def syncFile (direct : Int) (flags : Nat) (file : File) : List SyncTaskPackage :=
  (if flags &&& flagLocalOnly ≠ 0 then
    (if direct = taskUpload ∨ direct = taskBoth then syncUpload file else []) ++
      if direct = taskUploadLocalOnly then syncUpload file else []
  else []) ++
  (if flags &&& flagRemoteOnly ≠ 0 then
    (if direct = taskDownload ∨ direct = taskBoth then syncDownload file else []) ++
      if direct = taskDownloadRemoteOnly then syncDownload file else []
  else []) ++
  (if flags &&& flagLocalNewer ≠ 0 then
    if direct = taskUpload ∨ direct = taskBoth then syncUpload file else []
  else []) ++
  (if flags &&& flagRemoteNewer ≠ 0 then
    if direct = taskDownload ∨ direct = taskBoth then syncDownload file else []
  else [])

def syncAllFiles (heap : Heap) (direct : Int) : List File → Option (List SyncTaskPackage)
  | [] => some []
  | file :: files => do
    let pattr ← heap file.2
    let tasks ← syncAllFiles heap direct files
    some (syncFile direct pattr.flags file ++ tasks)

/-! ## One file -/

theorem syncFile_bits {flags flag : Nat} (h : flags &&& diffBits = flag) (direct : Int) (file : File) :
    syncFile direct flags file = syncFile direct flag file := by
  have hbit : ∀ bit, diffBits &&& bit = bit → flags &&& bit = flag &&& bit := by
    intro bit hb
    rw [← h, Nat.and_assoc, hb]
  unfold syncFile
  rw [hbit flagLocalOnly rfl, hbit flagRemoteOnly rfl, hbit flagLocalNewer rfl,
    hbit flagRemoteNewer rfl]

section File

variable (direct : Int) (file : File)

theorem syncFile_localOnly : syncFile direct flagLocalOnly file =
    if direct = taskUpload ∨ direct = taskBoth ∨ direct = taskUploadLocalOnly then syncUpload file
    else [] := by
  by_cases h : direct = taskUploadLocalOnly
  · simp [syncFile, flagLocalOnly, flagRemoteOnly, flagLocalNewer, flagRemoteNewer, h, taskUpload,
      taskBoth, taskUploadLocalOnly]
  · simp [syncFile, flagLocalOnly, flagRemoteOnly, flagLocalNewer, flagRemoteNewer, h]

theorem syncFile_remoteOnly : syncFile direct flagRemoteOnly file =
    if direct = taskDownload ∨ direct = taskBoth ∨ direct = taskDownloadRemoteOnly then
      syncDownload file
    else [] := by
  by_cases h : direct = taskDownloadRemoteOnly
  · simp [syncFile, flagLocalOnly, flagRemoteOnly, flagLocalNewer, flagRemoteNewer, h, taskDownload,
      taskBoth, taskDownloadRemoteOnly]
  · simp [syncFile, flagLocalOnly, flagRemoteOnly, flagLocalNewer, flagRemoteNewer, h]

theorem syncFile_localNewer : syncFile direct flagLocalNewer file =
    if direct = taskUpload ∨ direct = taskBoth then syncUpload file else [] := by
  simp [syncFile, flagLocalOnly, flagRemoteOnly, flagLocalNewer, flagRemoteNewer]

theorem syncFile_remoteNewer : syncFile direct flagRemoteNewer file =
    if direct = taskDownload ∨ direct = taskBoth then syncDownload file else [] := by
  simp [syncFile, flagLocalOnly, flagRemoteOnly, flagLocalNewer, flagRemoteNewer]

theorem syncFile_equal : syncFile direct flagFileEqual file = [] := rfl

theorem syncFile_different : syncFile direct flagFileDifferent file = [] := rfl

end File

/-- What is emitted for a file follows from the records of its name. -/
structure Sound (direct : Int) (r l : Option Attributes) (file : File) (task : SyncTaskPackage) :
    Prop where
  fileName : task.fileName = file.1
  download : task.direct = .download → l = none ∨ ∃ rattr lattr, r = some rattr ∧ l = some lattr ∧
    lattr.mtime + 2 < rattr.mtime
  upload : task.direct = .upload → r = none ∨ ∃ rattr lattr, r = some rattr ∧ l = some lattr ∧
    rattr.mtime + 2 < lattr.mtime
  noDownload : direct = taskUpload ∨ direct = taskUploadLocalOnly → task.direct = .upload
  noUpload : direct = taskDownload ∨ direct = taskDownloadRemoteOnly → task.direct = .download

theorem syncFile_cases {r l : Option Attributes} {flag : Nat} (h : Classified r l flag)
    (direct : Int) (file : File) :
    syncFile direct flag file = [] ∨
      ∃ task, syncFile direct flag file = [task] ∧ Sound direct r l file task := by
  cases h with
  | remoteOnly r =>
    rw [syncFile_remoteOnly]
    split
    · next hd =>
      refine .inr ⟨_, rfl, rfl, fun _ => .inl rfl, nofun, fun hu => ?_, fun _ => rfl⟩
      simp only [taskUpload, taskUploadLocalOnly, taskDownload, taskBoth, taskDownloadRemoteOnly] at *
      omega
    · exact .inl rfl
  | localOnly l =>
    rw [syncFile_localOnly]
    split
    · next hd =>
      refine .inr ⟨_, rfl, rfl, nofun, fun _ => .inl rfl, fun _ => rfl, fun hu => ?_⟩
      simp only [taskUpload, taskUploadLocalOnly, taskDownload, taskBoth, taskDownloadRemoteOnly] at *
      omega
    · exact .inl rfl
  | remoteNewer hnewer =>
    rw [syncFile_remoteNewer]
    split
    · next hd =>
      refine .inr ⟨_, rfl, rfl, fun _ => .inr ⟨_, _, rfl, rfl, hnewer⟩, nofun, fun hu => ?_,
        fun _ => rfl⟩
      simp only [taskUpload, taskUploadLocalOnly, taskDownload, taskBoth] at *
      omega
    · exact .inl rfl
  | localNewer hnewer =>
    rw [syncFile_localNewer]
    split
    · next hd =>
      refine .inr ⟨_, rfl, rfl, nofun, fun _ => .inr ⟨_, _, rfl, rfl, hnewer⟩, fun _ => rfl,
        fun hu => ?_⟩
      simp only [taskUpload, taskDownload, taskBoth, taskDownloadRemoteOnly] at *
      omega
    · exact .inl rfl
  | equal => exact .inl rfl
  | different => exact .inl rfl

/-- The bits of a file that is on one side only, or newer there. -/
def oneSided : Nat := flagLocalOnly ||| flagRemoteOnly ||| flagLocalNewer ||| flagRemoteNewer

theorem syncFile_both {r l : Option Attributes} {flag : Nat} (h : Classified r l flag)
    (hone : flag &&& oneSided ≠ 0) (file : File) : syncFile taskBoth flag file ≠ [] := by
  cases h with
  | remoteOnly r => rw [syncFile_remoteOnly]; simp [syncDownload]
  | localOnly l => rw [syncFile_localOnly]; simp [syncUpload]
  | remoteNewer => rw [syncFile_remoteNewer]; simp [syncDownload]
  | localNewer => rw [syncFile_localNewer]; simp [syncUpload]
  | equal => exact absurd rfl hone
  | different => exact absurd rfl hone

/-! ## All files -/

/-- The flag in the record of a file. -/
def flagOf (heap : Heap) (file : File) : Nat :=
  ((heap file.2).map fun attr => attr.flags &&& diffBits).getD 0

theorem flagOf_eq {heap : Heap} {file : File} {attr : Attributes} (h : heap file.2 = some attr) :
    flagOf heap file = attr.flags &&& diffBits := by
  rw [flagOf, h, Option.map_some, Option.getD_some]

theorem syncAllFiles_eq {heap : Heap} (direct : Int) {files : List File}
    (h : ∀ f ∈ files, heap f.2 ≠ none) :
    syncAllFiles heap direct files =
      some (files.flatMap fun f => syncFile direct (flagOf heap f) f) := by
  induction files with
  | nil => rfl
  | cons f files ih =>
    obtain ⟨attr, hattr⟩ := Option.ne_none_iff_exists'.mp (h f (by simp))
    rw [syncAllFiles, hattr, ih fun g hg => h g (List.mem_cons_of_mem _ hg)]
    simp only [Option.bind_eq_bind, Option.bind_some, List.flatMap_cons,
      syncFile_bits (flagOf_eq hattr).symm]

theorem flatMap_fileNames {files : List File} {emitted : File → List SyncTaskPackage}
    (h : ∀ f ∈ files, emitted f = [] ∨ ∃ task, emitted f = [task] ∧ task.fileName = f.1) :
    ((files.flatMap emitted).map SyncTaskPackage.fileName).Sublist (names files) := by
  induction files with
  | nil => exact List.Sublist.refl _
  | cons f files ih =>
    have ih := ih fun g hg => h g (List.mem_cons_of_mem _ hg)
    rw [List.flatMap_cons, List.map_append, names, List.map_cons]
    rcases h f (by simp) with hnil | ⟨task, hone, hname⟩
    · rw [hnil]
      exact ih.cons _
    · rw [hone, List.map_singleton, hname]
      exact ih.cons_cons _

theorem fileNames_sublist {heap : Heap} {files : List File}
    (h : ∀ f ∈ files, ∃ r l, Classified r l (flagOf heap f)) (direct : Int) :
    ((files.flatMap fun f => syncFile direct (flagOf heap f) f).map SyncTaskPackage.fileName).Sublist
      (names files) := by
  apply flatMap_fileNames
  intro f hf
  obtain ⟨r, l, hclass⟩ := h f hf
  rcases syncFile_cases hclass direct f with hnil | ⟨task, hone, hsound⟩
  · exact .inl hnil
  · exact .inr ⟨task, hone, hsound.fileName⟩

theorem sound_of_mem {heap : Heap} {files : List File} {r l : QString → Option Attributes}
    (h : ∀ f ∈ files, Classified (r f.1) (l f.1) (flagOf heap f)) {direct : Int} {task : SyncTaskPackage}
    (htask : task ∈ files.flatMap fun f => syncFile direct (flagOf heap f) f) :
    ∃ f ∈ files, Sound direct (r f.1) (l f.1) f task := by
  obtain ⟨f, hf, htask⟩ := List.mem_flatMap.mp htask
  rcases syncFile_cases (h f hf) direct f with hnil | ⟨task', hone, hsound⟩
  · simp [hnil] at htask
  · rw [hone, List.mem_singleton] at htask
    exact ⟨f, hf, htask ▸ hsound⟩

/-- **A plan overwrites no newer and no equal file.** A file has one task at most, a download only
if it is not there or older on the local side, an upload only if it is so on the remote side; the
directions of one way stay on it, and the direction of both takes whatever differs. -/
theorem plan_overwrites_older (heap : Heap) (rfiles lfiles : List File) (h : Ready heap rfiles lfiles)
    (hclear : Unmarked heap (rfiles ++ lfiles)) (direct : Int) :
    ∃ m tasks, sortMerge heap rfiles lfiles = some m ∧
      syncAllFiles m.heap direct m.files = some tasks ∧
      (tasks.map SyncTaskPackage.fileName).Nodup ∧
      (∀ task ∈ tasks, task.direct = .download → task.fileName ∉ names lfiles ∨
        ∃ r l, recordOf heap rfiles task.fileName = some r ∧
          recordOf heap lfiles task.fileName = some l ∧ l.mtime + 2 < r.mtime) ∧
      (∀ task ∈ tasks, task.direct = .upload → task.fileName ∉ names rfiles ∨
        ∃ r l, recordOf heap rfiles task.fileName = some r ∧
          recordOf heap lfiles task.fileName = some l ∧ r.mtime + 2 < l.mtime) ∧
      (direct = taskUpload ∨ direct = taskUploadLocalOnly → ∀ task ∈ tasks, task.direct = .upload) ∧
      (direct = taskDownload ∨ direct = taskDownloadRemoteOnly →
        ∀ task ∈ tasks, task.direct = .download) ∧
      (direct = taskBoth → ∀ f ∈ m.files, ∀ attr, m.heap f.2 = some attr →
        attr.flags &&& oneSided ≠ 0 → ∃ task ∈ tasks, task.fileName = f.1) := by
  obtain ⟨m, hm, -, hnodup, -, -, -, hmarked⟩ := sortMerge_exact heap rfiles lfiles h hclear
  have hlive : ∀ f ∈ m.files, m.heap f.2 ≠ none := by
    intro f hf
    obtain ⟨attr, hattr, -⟩ := hmarked f hf
    simp [hattr]
  have hflags : ∀ f ∈ m.files,
      Classified (recordOf heap rfiles f.1) (recordOf heap lfiles f.1) (flagOf m.heap f) := by
    intro f hf
    obtain ⟨attr, hattr, hclass⟩ := hmarked f hf
    rw [flagOf_eq hattr]
    exact hclass
  have hsound : ∀ task ∈ m.files.flatMap (fun f => syncFile direct (flagOf m.heap f) f), ∃ f ∈ m.files,
      Sound direct (recordOf heap rfiles f.1) (recordOf heap lfiles f.1) f task := fun task htask =>
    sound_of_mem hflags htask
  have hrlive : ∀ p ∈ records rfiles, heap p ≠ none := fun p hp => h.live p (List.mem_append_left _ hp)
  have hllive : ∀ p ∈ records lfiles, heap p ≠ none := fun p hp => h.live p (List.mem_append_right _ hp)
  refine ⟨m, _, hm, syncAllFiles_eq direct hlive, ?_, ?_, ?_, ?_, ?_, ?_⟩
  · exact hnodup.sublist (fileNames_sublist (fun f hf => ⟨_, _, hflags f hf⟩) direct)
  · intro task htask hdirect
    obtain ⟨f, -, hsound⟩ := hsound task htask
    rw [hsound.fileName]
    rcases hsound.download hdirect with hnone | hnewer
    · exact .inl (not_mem_of_recordOf_none hllive hnone)
    · exact .inr hnewer
  · intro task htask hdirect
    obtain ⟨f, -, hsound⟩ := hsound task htask
    rw [hsound.fileName]
    rcases hsound.upload hdirect with hnone | hnewer
    · exact .inl (not_mem_of_recordOf_none hrlive hnone)
    · exact .inr hnewer
  · intro hway task htask
    obtain ⟨f, -, hsound⟩ := hsound task htask
    exact hsound.noDownload hway
  · intro hway task htask
    obtain ⟨f, -, hsound⟩ := hsound task htask
    exact hsound.noUpload hway
  · rintro rfl f hf attr hattr hone
    have hone' : flagOf m.heap f &&& oneSided ≠ 0 := by
      rw [flagOf_eq hattr, Nat.and_assoc, show diffBits &&& oneSided = oneSided from rfl]
      exact hone
    rcases syncFile_cases (hflags f hf) taskBoth f with hnil | ⟨task, htask, hsound⟩
    · exact absurd hnil (syncFile_both (hflags f hf) hone' f)
    · exact ⟨task, List.mem_flatMap.mpr ⟨f, hf, by simp [htask]⟩, hsound.fileName⟩

theorem plan_overwrites_older_two : ∃ m tasks,
    sortMerge twoSides [(['a'], 0)] [(['a'], 1), (['b'], 2)] = some m ∧
      syncAllFiles m.heap taskBoth m.files = some tasks ∧
      tasks = [⟨['a'], 0, .download⟩, ⟨['b'], 2, .upload⟩] := by
  obtain ⟨m, tasks, hm, htasks, -⟩ := plan_overwrites_older twoSides [(['a'], 0)]
    [(['a'], 1), (['b'], 2)] ready_twoSides unmarked_twoSides taskBoth
  refine ⟨m, tasks, hm, htasks, ?_⟩
  rw [← Option.some.inj hm] at htasks
  rw [← Option.some.inj htasks]
  decide

end NullFxp.Sync
