import NullFxp.Transportor.Corruption
import NullFxp.Transportor.CopyTree

/-!
# Sending files to an FTP server

The routine for one file changes to the directory of the target, and then stores under the name
of the source. The server has one current directory, which the tests of the loop change too.
-/

namespace NullFxp.Transportor

/-- An FTP server. A path is the names along it. -/
structure FtpServer where
  dirs : Dirs
  files : List QString → Option Bytes
  cwd : List QString
  /-- the sources of the calls of the routine so far -/
  turns : List QString

def FtpServer.turn (server : FtpServer) (srcFile : QString) : FtpServer :=
  { server with turns := server.turns ++ [srcFile] }

/-- `STOR name`, and what comes over the data connection -/
def FtpServer.put (server : FtpServer) (name : QString) (content : Bytes) : FtpServer :=
  { server with
    files := fun key => if key = server.cwd ++ [name] then some content else server.files key }

/-- `QFileInfo(path).absoluteDir().path()`, for a clean path -/
def absoluteDir (path : QString) : QString :=
  if (components path).dropLast = [] then ['/'] else joinPath [] (components path).dropLast

section Routines

variable (host : FtpHost FtpServer) (env : Nat → FileEnv) (source : QString → Bytes)

/-- What `chdir` returns is not tested. -/
def setFTPCurrentDirByFullPath (path : QString) (server : FtpServer) : FtpServer :=
  (host.chdir (absoluteDir path) server).2

def afterPut (name : QString) (s : State FtpServer) : Bytes × CopyEnd → State FtpServer
  | (out, .canceled) => { s with world := s.world.put name out, userCanceled := true }
  | (out, _) => { s with world := s.world.put name out }

/-- From the change of the directory on. A command that fails is a failed assert. -/
def sendToFtp (check : Int → Int → Check) (env : FileEnv) (srcFile destFile : QString)
    (s : State FtpServer) : Option (State FtpServer) :=
  let s := { s with world := setFTPCurrentDirByFullPath host destFile (s.world.turn srcFile) }
  if env.ftpCommands then
    (copyParts check 8192 env (source srcFile) [] 0).map (afterPut (lastPart srcFile) s)
  else none

/-- `run_FILE_to_FTP(srcFile, destFile)` -/
def runFileToFtpFile (srcFile destFile : QString) (s : State FtpServer) :
    Option (State FtpServer) :=
  let env := env s.world.turns.length
  if env.localOpen then sendToFtp host source checkAssert env srcFile destFile s else none

/-- `run_SFTP_to_FTP(srcFile, destFile)`. The error of the failed open is taken from the SFTP
session of the destination, and there is none. -/
def runSftpToFtpFile (srcFile destFile : QString) (s : State FtpServer) :
    Option (State FtpServer) :=
  let env := env s.world.turns.length
  match env.srcOpenError with
  | some _ => some { s with
      errorCode := errnoBase, errorString := "Open file faild.".toList,
      world := s.world.turn srcFile }
  | none => sendToFtp host source checkNothing env srcFile destFile s

end Routines

/-! ## Paths without dots -/

/-- An absolute path, with no `.` or `..` in it. -/
def IsClean (path : QString) : Prop := path.head? = some '/' ∧ ∀ name ∈ components path, IsName name

instance (path : QString) : Decidable (IsClean path) := inferInstanceAs (Decidable (_ ∧ _))

theorem IsClean.childPath {path name : QString} (h : IsClean path) (hname : IsName name) :
    IsClean (childPath path name) := by
  refine ⟨?_, fun n hn => ?_⟩
  · rw [NullFxp.childPath, List.head?_append, h.1]
    rfl
  · rw [components_childPath path name hname, List.mem_append, List.mem_singleton] at hn
    rcases hn with hn | rfl
    · exact h.2 n hn
    · exact hname

theorem components_absoluteDir {path : QString} (h : ∀ name ∈ components path, IsName name) :
    components (absoluteDir path) = (components path).dropLast := by
  unfold absoluteDir
  split
  · next hnil =>
    rw [hnil]
    decide
  · exact components_joinPath [] _ fun name hname => h name (List.dropLast_subset _ hname)

theorem components_absoluteDir_childPath {dest name : QString} (hdest : IsClean dest)
    (hname : IsName name) : components (absoluteDir (childPath dest name)) = components dest := by
  rw [components_absoluteDir (hdest.childPath hname).2, components_childPath dest name hname,
    List.dropLast_concat]

/-! ## Servers, and what the files are read from -/

/-- What is known of a server: `chdir` moves if it succeeds, and `mkdir` makes directories. -/
structure FtpHost.Serves (host : FtpHost FtpServer) : Prop where
  chdir : ∀ path server, (host.chdir path server).2 =
    if (host.chdir path server).1 = true then { server with cwd := components path } else server
  mkdir : ∀ path server, ∃ dirs, (host.mkdir path server).2 = { server with dirs := dirs }

/-- Names in a directory have no slash in them. -/
def ListsNames (opendir : QString → FtpServer → Option (List QString) × FtpServer) : Prop :=
  ∀ path server names, (opendir path server).1 = some names →
    ∀ name ∈ names, name ≠ [] ∧ '/' ∉ name

structure LocalDisk.Reads (disk : LocalDisk FtpServer) : Prop where
  stat : ∀ path server, (disk.stat path server).2 = server
  opendir : ∀ path server, (disk.opendir path server).2 = server
  names : ListsNames disk.opendir

structure SftpHost.Reads (host : SftpHost FtpServer) : Prop where
  stat : ∀ path server, (host.stat path server).2 = server
  opendir : ∀ path server, (host.opendir path server).2 = server
  names : ListsNames host.opendir

theorem copyLoop_ne_quota {check : Int → Int → Check} (h : ∀ rlen wlen, check rlen wlen ≠ .quota)
    {buf : Nat} {env : FileEnv} {fuel k : Nat} {rest out out' : Bytes} {pos : Nat} :
    copyLoop check buf env fuel k rest out pos ≠ some (out', .quota) := by
  induction fuel generalizing k rest out pos with
  | zero => simp [copyLoop]
  | succ fuel ih =>
    simp only [copyLoop]
    split
    · simp
    · split
      · simp
      · next hquota => exact absurd hquota (h _ _)
      · split
        · simp
        · exact ih

section Steps

variable {host : FtpHost FtpServer} {source : QString → Bytes} {env : FileEnv}
  {check : Int → Int → Check} {src dest : QString}

/-- Only the current directory may have changed. -/
def FtpServer.SameFiles (server server' : FtpServer) : Prop :=
  server'.files = server.files ∧ server'.turns = server.turns

theorem FtpServer.SameFiles.trans {a b c : FtpServer} (h : a.SameFiles b) (h' : b.SameFiles c) :
    a.SameFiles c := ⟨h'.1.trans h.1, h'.2.trans h.2⟩

theorem FtpHost.Serves.chdir_sameFiles (hhost : host.Serves) (path : QString) (server : FtpServer) :
    server.SameFiles (host.chdir path server).2 := by
  rw [hhost.chdir]
  split
  · exact ⟨rfl, rfl⟩
  · exact ⟨rfl, rfl⟩

theorem setFTPCurrentDirByFullPath_spec (hhost : host.Serves) (hdest : IsClean dest) {name : QString}
    (hname : IsName name) (server : FtpServer) (hcwd : server.cwd = components dest) :
    setFTPCurrentDirByFullPath host (childPath dest name) server = server := by
  unfold setFTPCurrentDirByFullPath
  rw [hhost.chdir]
  split
  · rw [components_absoluteDir_childPath hdest hname, ← hcwd]
  · rfl

theorem sendToFtp_spec (hhost : host.Serves) (hdest : IsClean dest) (hsrc : IsName (lastPart src))
    {s s' : State FtpServer} (hcwd : s.world.cwd = components dest)
    (h : sendToFtp host source check env src (childPath dest (lastPart src)) s = some s') :
    ∃ out, copyParts check 8192 env (source src) [] 0 = some out ∧
      s' = afterPut (lastPart src) { s with world := s.world.turn src } out := by
  unfold sendToFtp at h
  rw [setFTPCurrentDirByFullPath_spec hhost hdest hsrc (s.world.turn src) hcwd] at h
  simp only at h
  split at h
  · obtain ⟨out, hout, rfl⟩ := Option.map_eq_some_iff.mp h
    exact ⟨out, hout, rfl⟩
  · cases h

/-- What the routine has done when it returns: a file under the name of the source, in the
current directory of the server. -/
structure Taken (checked : Bool) (env : FileEnv) (source : QString → Bytes) (src : QString)
    (s s' : State FtpServer) : Prop where
  ready : s'.readyQueue = s.readyQueue
  calls : s'.calls = s.calls
  turns : s'.world.turns = s.world.turns ++ [src]
  others : ∀ key, key ≠ s.world.cwd ++ [lastPart src] → s'.world.files key = s.world.files key
  goesOn : s'.errorCode = 0 → s'.userCanceled = false → s.errorCode = 0 ∧ s.userCanceled = false
  whole : Delivers checked 8192 env 0 (source src) → s'.errorCode = 0 →
    s'.userCanceled = false → s'.world.files (s.world.cwd ++ [lastPart src]) = some (source src)

theorem sendToFtp_taken {checked : Bool} (hcheck : checked = true → Checks check)
    (hnotSeen : ∀ rlen wlen, check rlen wlen ≠ .quota) (hhost : host.Serves)
    (hdest : IsClean dest) (hsrc : IsName (lastPart src)) {s s' : State FtpServer}
    (hcwd : s.world.cwd = components dest)
    (h : sendToFtp host source check env src (childPath dest (lastPart src)) s = some s') :
    Taken checked env source src s s' := by
  obtain ⟨⟨out, e⟩, hout, rfl⟩ := sendToFtp_spec hhost hdest hsrc hcwd h
  have hfiles : (afterPut (lastPart src) { s with world := s.world.turn src } (out, e)).world =
      (s.world.turn src).put (lastPart src) out := by cases e <;> rfl
  constructor
  case ready => cases e <;> rfl
  case calls => cases e <;> rfl
  case turns => rw [hfiles]; rfl
  case others =>
    intro key hkey
    rw [hfiles]
    exact if_neg hkey
  case goesOn =>
    intro herror hcancel
    cases e with
    | canceled => cases hcancel
    | ended => exact ⟨herror, hcancel⟩
    | quota => exact ⟨herror, hcancel⟩
  case whole =>
    intro hd herror hcancel
    have hput : ((s.world.turn src).put (lastPart src) out).files (s.world.cwd ++ [lastPart src]) =
        some out := if_pos rfl
    rw [hfiles, hput]
    cases e with
    | canceled => cases hcancel
    | quota => exact absurd hout (copyLoop_ne_quota hnotSeen)
    | ended =>
      have hwhole := copyLoop_ended (by decide) hcheck hd (Nat.le_refl _) hout
      simpa using hwhole

end Steps

/-! ## A run -/

/-- What a loop to an FTP server does with it. -/
structure Sends (checked : Bool) (env : Nat → FileEnv) (source : QString → Bytes)
    (lp : Loop FtpServer) : Prop where
  connect : ∀ w : FtpServer, w.SameFiles (lp.connect w).2
  /-- A file is only sent where the test of the destination has moved. -/
  branch : ∀ src dest (w : FtpServer) b w', lp.branch src dest w = some (b, w') →
    w.SameFiles w' ∧ (b = .file → w'.cwd = components dest)
  list : ∀ src (w : FtpServer) names w', lp.list src w = some (names, w') →
    w.SameFiles w' ∧ ∀ name ∈ names, IsName name
  mkdir : ∀ path (w w' : FtpServer), lp.mkdir path w = some w' → w.SameFiles w'
  copyFile : ∀ src dest (s s' : State FtpServer), IsClean dest → IsName (lastPart src) →
    s.world.cwd = components dest → lp.copyFile src (childPath dest (lastPart src)) s = some s' →
    Taken checked (env s.world.turns.length) source src s s'

/-- The files, when what was called is done. -/
def Call.store (source : QString → Bytes) (files : List QString → Option Bytes) :
    Call → List QString → Option Bytes
  | .copy src dest => fun key => if key = components dest then some (source src) else files key
  | _ => files

/-- All entries of the queue have names, and go to clean paths. -/
def Addressed (queue : List (TaskPackage × TaskPackage)) : Prop :=
  ∀ p ∈ queue, (∀ src ∈ p.1.files, IsName (lastPart src)) ∧ ∀ dest ∈ p.2.files, IsClean dest

/-- The results of the calls, for the files that were sent. -/
def Delivered (checked : Bool) (env : Nat → FileEnv) (source : QString → Bytes)
    (turns : List QString) : Prop :=
  ∀ n src, turns[n]? = some src → Delivers checked 8192 (env n) 0 (source src)

theorem Delivered.concat {checked : Bool} {env : Nat → FileEnv} {source : QString → Bytes}
    {turns : List QString} {src : QString} (h : Delivered checked env source (turns ++ [src])) :
    Delivered checked env source turns ∧
      Delivers checked 8192 (env turns.length) 0 (source src) := by
  refine ⟨fun n src' hn => h n src' ?_, h turns.length src (by simp)⟩
  obtain ⟨hlt, hget⟩ := List.getElem?_eq_some_iff.mp hn
  rw [List.getElem?_append_left hlt, hn]

/-- What every round keeps. `files` are the files before the run. -/
structure Stored (checked : Bool) (env : Nat → FileEnv) (source : QString → Bytes)
    (files : List QString → Option Bytes) (s : State FtpServer) : Prop where
  addressed : Addressed s.readyQueue
  others : ∀ key, s.world.files key ≠ files key →
    ∃ src dest, .copy src dest ∈ s.calls ∧ components dest = key
  whole : Delivered checked env source s.world.turns → s.errorCode = 0 →
    s.userCanceled = false → s.world.files = s.calls.foldl (Call.store source) files

section Run

variable {checked : Bool} {env : Nat → FileEnv} {source : QString → Bytes}
  {files : List QString → Option Bytes} {lp : Loop FtpServer} {s s' : State FtpServer}
  {src dest : QString}

theorem Stored.called (h : Stored checked env source files s) {w : FtpServer}
    (hw : s.world.SameFiles w) {c : Call} (hc : ∀ files, Call.store source files c = files) :
    Stored checked env source files (State.called { s with world := w } c) := by
  refine ⟨h.addressed, fun key hkey => ?_, fun hd herror hcancel => ?_⟩
  · obtain ⟨src, dest, hmem, hdest⟩ := h.others key (hw.1 ▸ hkey)
    exact ⟨src, dest, List.mem_append_left _ hmem, hdest⟩
  · calc w.files
      _ = s.calls.foldl (Call.store source) files :=
          hw.1.trans (h.whole (hw.2 ▸ hd) herror hcancel)
      _ = (s.calls ++ [c]).foldl (Call.store source) files := by
          rw [List.foldl_append, List.foldl_cons, List.foldl_nil, hc]

theorem Stored.world (h : Stored checked env source files s) {w : FtpServer}
    (hw : s.world.SameFiles w) : Stored checked env source files { s with world := w } := by
  refine ⟨h.addressed, fun key hkey => h.others key (hw.1 ▸ hkey), fun hd herror hcancel => ?_⟩
  exact hw.1.trans (h.whole (hw.2 ▸ hd) herror hcancel)

theorem Stored.failed (h : Stored checked env source files s) {code : Int} (hcode : code ≠ 0)
    (text : QString) :
    Stored checked env source files { s with errorCode := code, errorString := text } :=
  ⟨h.addressed, h.others, fun _ herror _ => absurd herror hcode⟩

theorem Stored.queue (h : Stored checked env source files s)
    {ready done : List (TaskPackage × TaskPackage)} (hready : Addressed ready) :
    Stored checked env source files { s with readyQueue := ready, doneQueue := done } :=
  ⟨hready, h.others, h.whole⟩

theorem Stored.copyBranch (hlp : Sends checked env source lp)
    (h : Stored checked env source files s) (hsrc : IsName (lastPart src)) (hdest : IsClean dest)
    (hcwd : s.world.cwd = components dest) (hc : lp.copyBranch src dest s = some s') :
    Stored checked env source files s' := by
  have ht := hlp.copyFile src dest (s.called _) s' hdest hsrc hcwd hc
  have hplace : s.world.cwd ++ [lastPart src] = components (childPath dest (lastPart src)) := by
    rw [hcwd, components_childPath dest _ hsrc]
  refine ⟨ht.ready ▸ h.addressed, fun key hkey => ?_, fun hd herror hcancel => ?_⟩
  · rw [ht.calls]
    by_cases hk : key = s.world.cwd ++ [lastPart src]
    · exact ⟨src, _, List.mem_append_right _ List.mem_cons_self, by rw [hk, hplace]⟩
    · rw [ht.others key hk] at hkey
      obtain ⟨src', dest', hmem, hdest'⟩ := h.others key hkey
      exact ⟨src', dest', List.mem_append_left _ hmem, hdest'⟩
  · rw [ht.turns] at hd
    obtain ⟨hbefore, hthis⟩ := hd.concat
    obtain ⟨herror₀, hcancel₀⟩ := ht.goesOn herror hcancel
    have hold := h.whole hbefore herror₀ hcancel₀
    rw [ht.calls, State.called, List.foldl_append, ← hold]
    funext key
    by_cases hk : key = components (childPath dest (lastPart src))
    · rw [hk, ← hplace]
      refine (ht.whole hthis herror hcancel).trans ?_
      simp [Call.store, hplace]
    · refine (ht.others key (hplace ▸ hk)).trans ?_
      simp [Call.store, hk, State.called]

theorem Stored.process (hlp : Sends checked env source lp) {srcPkg destPkg : TaskPackage}
    (h : Stored checked env source files s) (hsrc : IsName (lastPart src)) (hdest : IsClean dest)
    (hp : lp.process srcPkg destPkg src dest s = some s') :
    Stored checked env source files s' := by
  obtain ⟨⟨b, w⟩, hb, hp⟩ := Option.bind_eq_some_iff.mp hp
  obtain ⟨hw, hcwd⟩ := hlp.branch src dest s.world b w hb
  cases b with
  | file => exact (h.world hw).copyBranch hlp hsrc hdest (hcwd rfl) hp
  | invalid =>
    obtain rfl := Option.some.inj hp
    exact (h.world hw).failed (by decide) s.errorString
  | dir =>
    obtain ⟨⟨names, w₁⟩, hlist, hp⟩ := Option.bind_eq_some_iff.mp hp
    obtain ⟨w₂, hmkdir, hp⟩ := Option.bind_eq_some_iff.mp hp
    obtain rfl := Option.some.inj hp
    obtain ⟨hw₁, hnames⟩ := hlp.list src w names w₁ hlist
    have hw₂ := (hw.trans hw₁).trans (hlp.mkdir _ w₁ w₂ hmkdir)
    refine (h.called hw₂ (c := .mkdir (childPath dest (lastPart src))) fun _ => rfl).queue ?_
    refine List.forall_mem_append.mpr ⟨h.addressed, List.forall_mem_map.mpr fun name hname => ?_⟩
    have hn := hnames name hname
    constructor
    · simp only [TaskPackage.setFile, List.mem_singleton, forall_eq]
      rwa [lastPart_childPath src name hn.2.1]
    · simp only [TaskPackage.setFile, List.mem_singleton, forall_eq]
      exact hdest.childPath hsrc

def Loop.Round.after : Loop.Round FtpServer → State FtpServer
  | .goOn s => s
  | .broke s => s

theorem Stored.round (hlp : Sends checked env source lp) {r : Loop.Round FtpServer}
    (h : Stored checked env source files s) (hr : lp.round s = some r) :
    Stored checked env source files r.after := by
  rw [Loop.round] at hr
  split at hr
  · cases hr
  · next srcPkg destPkg rest hready =>
    split at hr
    · next src srcs dest dests hsrcs hdests =>
      obtain ⟨hsrc, hdest⟩ := h.addressed (srcPkg, destPkg) (by rw [hready]; exact List.mem_cons_self)
      have hstarted := h.called (hlp.connect s.world) (c := .newFileStarted src dest) fun _ => rfl
      simp only at hr
      split at hr
      · next text _ =>
        obtain rfl := Option.some.inj hr
        exact hstarted.failed (by decide) text
      · obtain ⟨t, ht, rfl⟩ := Option.map_eq_some_iff.mp hr
        have hprocessed := hstarted.process hlp (hsrc src (by simp [hsrcs]))
          (hdest dest (by simp [hdests])) ht
        exact hprocessed.queue fun p hp => hprocessed.addressed p (List.mem_of_mem_tail hp)
    · cases hr

theorem Stored.loop (hlp : Sends checked env source lp) {fuel : Nat}
    (h : Stored checked env source files s) (hl : lp.loop fuel s = some s') :
    Stored checked env source files s' := by
  induction fuel generalizing s with
  | zero => cases hl
  | succ fuel ih =>
    obtain ⟨r, hr, hl⟩ := Option.bind_eq_some_iff.mp hl
    have hround := h.round hlp hr
    cases r with
    | broke t =>
      obtain rfl := Option.some.inj hl
      exact hround
    | goOn t =>
      simp only at hl
      split at hl
      · exact ih hround hl
      · obtain rfl := Option.some.inj hl
        exact hround

theorem stored_run (hlp : Sends checked env source lp) (hqueue : Addressed s.readyQueue)
    (hcalls : s.calls = []) {fuel : Nat} (hrun : lp.run fuel s = some s') :
    Stored checked env source s.world.files s' := by
  obtain ⟨t, ht, rfl⟩ := Option.map_eq_some_iff.mp hrun
  have hstart : Stored checked env source s.world.files
      { s with errorCode := 0, errorString := "No error.".toList } := by
    refine ⟨hqueue, fun key hkey => absurd rfl hkey, fun _ _ _ => ?_⟩
    rw [hcalls]
    rfl
  have h := hstart.loop hlp ht
  rw [Loop.finish]
  split
  · exact h.failed (show errnoCancel ≠ 0 by decide) t.errorString
  · exact h

theorem not_canceled {fuel : Nat} (hrun : lp.run fuel s = some s') (herror : s'.errorCode = 0) :
    s'.userCanceled = false := by
  obtain ⟨t, -, rfl⟩ := Option.map_eq_some_iff.mp hrun
  unfold Loop.finish at herror ⊢
  split at herror
  · exact absurd (show errnoCancel = 0 from herror) (by decide)
  · next hcancel => simp [hcancel]

end Run

/-! ## The two loops -/

section Loops

variable {connect : FtpServer → Option QString × FtpServer} {disk : LocalDisk FtpServer}
  {sftp : SftpHost FtpServer} {host : FtpHost FtpServer} {env : Nat → FileEnv}
  {source : QString → Bytes} {src dest : QString} {w w' : FtpServer}

theorem isName_of_listed {name : QString} (h : name ≠ [] ∧ '/' ∉ name) (hdots : isDots name = false) :
    IsName name := by
  simp only [isDots, Bool.or_eq_false_iff, decide_eq_false_iff_not] at hdots
  exact ⟨h.1, h.2, hdots⟩

theorem statEntries_reads (hdisk : disk.Reads) (path : QString) {names : List QString}
    (hnames : ∀ name ∈ names, name ≠ [] ∧ '/' ∉ name) (w : FtpServer) :
    (statEntries disk path names w).2 = w ∧
      ∀ name ∈ (statEntries disk path names w).1, IsName name := by
  induction names with
  | nil => exact ⟨rfl, by simp [statEntries]⟩
  | cons name names ih =>
    obtain ⟨hname, hnames⟩ := List.forall_mem_cons.mp hnames
    obtain ⟨hw, hrest⟩ := ih hnames
    rw [statEntries]
    split
    · exact ⟨hw, hrest⟩
    · next hdots =>
      simp only [hdisk.stat]
      refine ⟨hw, ?_⟩
      split
      · refine List.forall_mem_cons.mpr ⟨?_, hrest⟩
        exact isName_of_listed hname (Bool.not_eq_true _ ▸ hdots)
      · exact hrest

theorem fxpLocalDoLs_reads (hdisk : disk.Reads) {names : List QString}
    (h : fxpLocalDoLs disk src w = some (names, w')) :
    w.SameFiles w' ∧ ∀ name ∈ names, IsName name := by
  unfold fxpLocalDoLs at h
  obtain ⟨listed, hlisted, h⟩ := Option.map_eq_some_iff.mp h
  rw [hdisk.opendir] at h
  obtain ⟨hw, hnames⟩ := statEntries_reads hdisk src (hdisk.names src w listed hlisted) w
  rw [h] at hw hnames
  exact ⟨hw ▸ ⟨rfl, rfl⟩, hnames⟩

theorem fxpDoLsDir_reads (hsftp : sftp.Reads) {names : List QString}
    (h : fxpDoLsDir sftp src w = some (names, w')) :
    w.SameFiles w' ∧ ∀ name ∈ names, IsName name := by
  unfold fxpDoLsDir at h
  rw [show sftp.opendir src w = ((sftp.opendir src w).1, w) from
    Prod.ext rfl (hsftp.opendir src w)] at h
  obtain ⟨rfl, rfl⟩ := Prod.mk.inj (Option.some.inj h)
  refine ⟨⟨rfl, rfl⟩, fun name hname => ?_⟩
  obtain ⟨hmem, hdots⟩ := List.mem_filter.mp hname
  refine isName_of_listed ?_ (by simpa using hdots)
  cases hlisted : (sftp.opendir src w).1 with
  | none =>
    rw [hlisted] at hmem
    cases hmem
  | some listed =>
    rw [hlisted] at hmem
    exact hsftp.names src w listed hlisted name hmem

theorem andThen_isFTPDir (hhost : host.Serves) {test : FtpServer → Option (Bool × FtpServer)}
    (htest : ∀ w b w', test w = some (b, w') → w' = w) {b : Bool}
    (h : andThen test (isFTPDir host dest) w = some (b, w')) :
    w.SameFiles w' ∧ (b = true → w'.cwd = components dest) := by
  obtain ⟨⟨x, w₁⟩, hx, hmoved⟩ := Option.bind_eq_some_iff.mp h
  obtain rfl := htest _ _ _ hx
  simp only at hmoved
  split at hmoved
  · obtain ⟨hb, rfl⟩ := Prod.mk.inj (Option.some.inj hmoved)
    refine ⟨hhost.chdir_sameFiles dest _, fun htrue => ?_⟩
    rw [hhost.chdir, if_pos (hb.trans htrue)]
  · obtain ⟨rfl, rfl⟩ := Prod.mk.inj (Option.some.inj hmoved)
    exact ⟨⟨rfl, rfl⟩, fun h => Bool.noConfusion h⟩

theorem branch_sends {lp : Loop FtpServer}
    (hfile : ∀ w b w', lp.fileToDir src dest w = some (b, w') →
      w.SameFiles w' ∧ (b = true → w'.cwd = components dest))
    (hdir : ∀ w b w', lp.dirToDir src dest w = some (b, w') → w.SameFiles w') {b : Loop.Branch}
    (h : lp.branch src dest w = some (b, w')) :
    w.SameFiles w' ∧ (b = .file → w'.cwd = components dest) := by
  unfold Loop.branch Loop.ifElse at h
  split at h
  · obtain ⟨⟨x, w₁⟩, hx, h⟩ := Option.bind_eq_some_iff.mp h
    simp only at h
    split at h
    · obtain ⟨rfl, rfl⟩ := Prod.mk.inj (Option.some.inj h)
      exact ⟨hdir _ _ _ hx, fun h => Loop.Branch.noConfusion h⟩
    · obtain ⟨⟨y, w₂⟩, hy, h⟩ := Option.bind_eq_some_iff.mp h
      obtain ⟨hb, rfl⟩ := Prod.mk.inj (Option.some.inj h)
      obtain ⟨hw, hcwd⟩ := hfile _ _ _ hy
      refine ⟨(hdir _ _ _ hx).trans hw, fun hsend => hcwd ?_⟩
      rw [← hb] at hsend
      split at hsend
      · assumption
      · cases hsend
  · obtain ⟨⟨x, w₁⟩, hx, h⟩ := Option.bind_eq_some_iff.mp h
    obtain ⟨hw, hcwd⟩ := hfile _ _ _ hx
    simp only at h
    split at h
    · next htrue =>
      obtain ⟨rfl, rfl⟩ := Prod.mk.inj (Option.some.inj h)
      exact ⟨hw, fun _ => hcwd htrue⟩
    · obtain ⟨⟨y, w₂⟩, hy, h⟩ := Option.bind_eq_some_iff.mp h
      obtain ⟨rfl, rfl⟩ := Prod.mk.inj (Option.some.inj h)
      refine ⟨hw.trans (hdir _ _ _ hy), fun hsend => ?_⟩
      split at hsend
      · cases hsend
      · cases hsend

theorem ftpMkdir_sends (hhost : host.Serves) {path : QString} (h : ftpMkdir host path w = some w') :
    w.SameFiles w' := by
  obtain ⟨dirs, hdirs⟩ := hhost.mkdir path w
  unfold ftpMkdir at h
  split at h
  · obtain rfl := Option.some.inj h
    rw [hdirs]
    exact ⟨rfl, rfl⟩
  · cases h

theorem checkAssert_ne_quota (rlen wlen : Int) : checkAssert rlen wlen ≠ .quota := by
  unfold checkAssert
  split <;> simp

theorem isFile_reads (hdisk : disk.Reads) {b : Bool} (h : disk.isFile src w = some (b, w')) :
    w' = w := by
  obtain ⟨-, rfl⟩ := Prod.mk.inj (Option.some.inj h)
  exact hdisk.stat src w

theorem isDir_reads (hdisk : disk.Reads) {b : Bool} (h : disk.isDir src w = some (b, w')) :
    w' = w := by
  obtain ⟨-, rfl⟩ := Prod.mk.inj (Option.some.inj h)
  exact hdisk.stat src w

theorem remoteIs_reads (hsftp : sftp.Reads) {kind : Kind} {b : Bool}
    (h : remoteIs kind sftp src w = some (b, w')) : w' = w := by
  obtain ⟨k, -, h⟩ := Option.map_eq_some_iff.mp h
  obtain ⟨-, rfl⟩ := Prod.mk.inj h
  exact hsftp.stat src w

variable (hconnect : ∀ w : FtpServer, w.SameFiles (connect w).2) (hhost : host.Serves)

include hconnect hhost

theorem sends_fileToFtp (hdisk : disk.Reads) : Sends true env source
    (runFileToFtp connect (runFileToFtpFile host env source) disk host) where
  connect := hconnect
  branch src dest w b w' h := by
    refine branch_sends (fun w b w' h => ?_) (fun w b w' h => ?_) h
    · exact andThen_isFTPDir hhost (fun w b w' h => isFile_reads hdisk h) h
    · exact (andThen_isFTPDir hhost (fun w b w' h => isDir_reads hdisk h) h).1
  list src w names w' h := fxpLocalDoLs_reads hdisk h
  mkdir path w w' h := ftpMkdir_sends hhost h
  copyFile src dest s s' hdest hsrc hcwd h := by
    change runFileToFtpFile host env source src _ s = some s' at h
    simp only [runFileToFtpFile] at h
    split at h
    · exact sendToFtp_taken (fun _ => checks_assert) checkAssert_ne_quota hhost hdest hsrc hcwd h
    · cases h

theorem sends_sftpToFtp (hsftp : sftp.Reads) : Sends false env source
    (runSftpToFtp connect (runSftpToFtpFile host env source) sftp host) where
  connect := hconnect
  branch src dest w b w' h := by
    refine branch_sends (fun w b w' h => ?_) (fun w b w' h => ?_) h
    · exact andThen_isFTPDir hhost (fun w b w' h => remoteIs_reads hsftp h) h
    · exact (andThen_isFTPDir hhost (fun w b w' h => remoteIs_reads hsftp h) h).1
  list src w names w' h := fxpDoLsDir_reads hsftp h
  mkdir path w w' h := ftpMkdir_sends hhost h
  copyFile src dest s s' hdest hsrc hcwd h := by
    change runSftpToFtpFile host env source src _ s = some s' at h
    simp only [runSftpToFtpFile] at h
    split at h
    · obtain rfl := Option.some.inj h
      refine ⟨rfl, rfl, rfl, fun _ _ => rfl, ?_, ?_⟩
      · intro herror
        exact absurd (show errnoBase = 0 from herror) (by decide)
      · intro _ herror
        exact absurd (show errnoBase = 0 from herror) (by decide)
    · exact sendToFtp_taken (fun h => Bool.noConfusion h) (fun _ _ => by simp [checkNothing]) hhost
        hdest hsrc hcwd h

end Loops

/-- The two loops to an FTP server, and whether each sees to its writes. -/
def ftpUploads (connect : FtpServer → Option QString × FtpServer) (disk : LocalDisk FtpServer)
    (sftp : SftpHost FtpServer) (host : FtpHost FtpServer) (env : Nat → FileEnv)
    (source : QString → Bytes) : List (Bool × Loop FtpServer) :=
  [(true, runFileToFtp connect (runFileToFtpFile host env source) disk host),
    (false, runSftpToFtp connect (runSftpToFtpFile host env source) sftp host)]

/-- **A file is stored where it was to go, although only its name is sent.** -/
theorem ftp_upload_stores {connect : FtpServer → Option QString × FtpServer}
    {disk : LocalDisk FtpServer} {sftp : SftpHost FtpServer} {host : FtpHost FtpServer}
    (env : Nat → FileEnv) (source : QString → Bytes)
    (hconnect : ∀ w : FtpServer, w.SameFiles (connect w).2) (hdisk : disk.Reads)
    (hsftp : sftp.Reads) (hhost : host.Serves) {s : State FtpServer}
    (hqueue : Addressed s.readyQueue) (hcalls : s.calls = []) :
    ∀ upload ∈ ftpUploads connect disk sftp host env source, ∀ fuel s',
      upload.2.run fuel s = some s' →
        (∀ key, s'.world.files key ≠ s.world.files key →
          ∃ src dest, .copy src dest ∈ s'.calls ∧ components dest = key) ∧
        (Delivered upload.1 env source s'.world.turns → s'.errorCode = 0 →
          s'.world.files = s'.calls.foldl (Call.store source) s.world.files) := by
  intro upload hupload fuel s' hrun
  have hsends : Sends upload.1 env source upload.2 := by
    simp only [ftpUploads, List.mem_cons, List.not_mem_nil, or_false] at hupload
    rcases hupload with rfl | rfl
    · exact sends_fileToFtp hconnect hhost hdisk
    · exact sends_sftpToFtp hconnect hhost hsftp
  have h := stored_run hsends hqueue hcalls hrun
  exact ⟨h.others, fun hd herror => h.whole hd herror (not_canceled hrun herror)⟩

/-- A disk with one file, and a server on which every directory can be changed to. -/
def fileDisk : LocalDisk FtpServer :=
  ⟨fun path w => (if path = "/a".toList then some .reg else none, w), fun _ w => (none, w),
    fun _ w => (false, w)⟩

def fileHost : SftpHost FtpServer := ⟨fileDisk.stat, fileDisk.opendir, fileDisk.mkpath⟩

def openHost : FtpHost FtpServer :=
  ⟨fun path w => (true, { w with cwd := components path }), fun _ w => (none, w), fun _ w => (false, w)⟩

def fileStart : State FtpServer :=
  { State.new ⟨[], fun _ => none, [], []⟩ with
    readyQueue := [(localPkg ["/a".toList], remotePkg ["/d".toList])] }

/-- Every read and every write takes what it can. -/
def openEnv : FileEnv :=
  ⟨false, none, none, true, true, fun _ => 8192, fun _ => 8192, .unknown, false, false,
    fun _ => false⟩

theorem ftp_upload_stores_file :
    ∃ s', (runFileToFtp (fun w => (none, w))
        (runFileToFtpFile openHost (fun _ => openEnv) fun _ => [104, 105]) fileDisk openHost).run 1
        fileStart = some s' ∧
      s'.world.files ["d".toList, "a".toList] = some [104, 105] := by
  have hrun : ∃ s', (runFileToFtp (fun w => (none, w))
      (runFileToFtpFile openHost (fun _ => openEnv) fun _ => [104, 105]) fileDisk openHost).run 1
      fileStart = some s' ∧ s'.errorCode = 0 ∧ s'.world.turns = ["/a".toList] ∧
      s'.calls = [.newFileStarted "/a".toList "/d".toList, .copy "/a".toList "/d/a".toList] := by
    with_unfolding_all exact ⟨_, rfl, rfl, rfl, rfl⟩
  obtain ⟨s', hrun, herror, hturns, hcalls⟩ := hrun
  have hdisk : fileDisk.Reads := ⟨fun _ _ => rfl, fun _ _ => rfl, fun _ _ _ h => by cases h⟩
  have hsftp : fileHost.Reads := ⟨fun _ _ => rfl, fun _ _ => rfl, fun _ _ _ h => by cases h⟩
  have h := ftp_upload_stores (fun _ => openEnv) (fun _ => [104, 105]) (fun _ => ⟨rfl, rfl⟩) hdisk hsftp
    ⟨fun _ _ => rfl, fun _ w => ⟨w.dirs, rfl⟩⟩ (s := fileStart)
    (by simp only [Addressed, fileStart, List.mem_singleton, forall_eq]; decide) rfl _
    List.mem_cons_self 1 s' hrun
  refine ⟨s', hrun, ?_⟩
  rw [h.2 _ herror, hcalls]
  · decide
  · rw [hturns]
    intro n src _
    exact .part (by simp [openEnv]) (.inr (by simp [openEnv])) .done

end NullFxp.Transportor
