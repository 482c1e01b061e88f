import NullFxp.Transportor.CopyFile

/-!
# Whole runs, file by file

The loops with the routines for one file in them. The hosts answer as they like, and only the
routines change the files of the destination.
-/

namespace NullFxp.Transportor

variable {τ : Type}

/-! ## The hosts beside the files -/

def World.onHosts {α : Type} (f : τ → α × τ) (w : World τ) : α × World τ :=
  ((f w.hosts).1, { w with hosts := (f w.hosts).2 })

def LocalDisk.beside (disk : LocalDisk τ) : LocalDisk (World τ) where
  stat path := World.onHosts (disk.stat path)
  opendir path := World.onHosts (disk.opendir path)
  mkpath path := World.onHosts (disk.mkpath path)

def SftpHost.beside (host : SftpHost τ) : SftpHost (World τ) where
  stat path := World.onHosts (host.stat path)
  opendir path := World.onHosts (host.opendir path)
  mkdir path := World.onHosts (host.mkdir path)

def FtpHost.beside (host : FtpHost τ) : FtpHost (World τ) where
  chdir path := World.onHosts (host.chdir path)
  list path := World.onHosts (host.list path)
  mkdir path := World.onHosts (host.mkdir path)

/-- The files of the destination and the turns are as they were. -/
def World.SameFiles (w w' : World τ) : Prop := w'.dest = w.dest ∧ w'.turns = w.turns

theorem World.SameFiles.refl (w : World τ) : w.SameFiles w := ⟨rfl, rfl⟩

theorem World.SameFiles.trans {w₁ w₂ w₃ : World τ} (h : w₁.SameFiles w₂) (h' : w₂.SameFiles w₃) :
    w₁.SameFiles w₃ := ⟨h'.1.trans h.1, h'.2.trans h.2⟩

/-- A part of a loop that leaves the files alone. -/
def LeavesFiles {α : Type} (f : World τ → Option (α × World τ)) : Prop :=
  ∀ w a w', f w = some (a, w') → w.SameFiles w'

section Leaves

variable {α : Type}

theorem onHosts_sameFiles (f : τ → α × τ) (w : World τ) : w.SameFiles (World.onHosts f w).2 :=
  ⟨rfl, rfl⟩

theorem LeavesFiles.andThen {a b : World τ → Option (Bool × World τ)} (ha : LeavesFiles a)
    (hb : LeavesFiles b) : LeavesFiles (andThen a b) := by
  intro w x w' h
  obtain ⟨⟨y, w₁⟩, h₁, h⟩ := Option.bind_eq_some_iff.mp h
  have h1 := ha _ _ _ h₁
  simp only at h
  split at h
  · exact h1.trans (hb _ _ _ h)
  · obtain ⟨-, rfl⟩ := Prod.mk.inj (Option.some.inj h)
    exact h1

theorem leaves_isFile (disk : LocalDisk τ) (path : QString) :
    LeavesFiles (disk.beside.isFile path) := by
  intro w x w' h
  obtain ⟨-, rfl⟩ := Prod.mk.inj (Option.some.inj h)
  exact onHosts_sameFiles _ w

theorem leaves_isDir (disk : LocalDisk τ) (path : QString) :
    LeavesFiles (disk.beside.isDir path) := by
  intro w x w' h
  obtain ⟨-, rfl⟩ := Prod.mk.inj (Option.some.inj h)
  exact onHosts_sameFiles _ w

theorem leaves_remoteIs (kind : Kind) (host : SftpHost τ) (path : QString) :
    LeavesFiles (remoteIs kind host.beside path) := by
  intro w x w' h
  obtain ⟨k, -, h⟩ := Option.map_eq_some_iff.mp h
  obtain ⟨-, rfl⟩ := Prod.mk.inj h
  exact onHosts_sameFiles _ w

theorem leaves_isFTPDir (host : FtpHost τ) (path : QString) :
    LeavesFiles (isFTPDir host.beside path) := by
  intro w x w' h
  obtain ⟨-, rfl⟩ := Prod.mk.inj (Option.some.inj h)
  exact onHosts_sameFiles _ w

theorem leaves_isFTPFile (host : FtpHost τ) (path : QString) :
    LeavesFiles (isFTPFile host.beside path) := by
  intro w x w' h
  obtain ⟨-, rfl⟩ := Prod.mk.inj (Option.some.inj h)
  exact onHosts_sameFiles _ w

theorem leaves_fxpDoLsDir (host : SftpHost τ) (path : QString) :
    LeavesFiles (fxpDoLsDir host.beside path) := by
  intro w x w' h
  obtain ⟨-, rfl⟩ := Prod.mk.inj (Option.some.inj h)
  exact onHosts_sameFiles _ w

theorem statEntries_sameFiles (disk : LocalDisk τ) (path : QString) (names : List QString)
    (w : World τ) : w.SameFiles (statEntries disk.beside path names w).2 := by
  induction names generalizing w with
  | nil => exact .refl w
  | cons name names ih =>
    rw [statEntries]
    split
    · exact ih w
    · exact (onHosts_sameFiles (disk.stat (childPath path name)) w).trans (ih _)

theorem leaves_fxpLocalDoLs (disk : LocalDisk τ) (path : QString) :
    LeavesFiles (fxpLocalDoLs disk.beside path) := by
  intro w x w' h
  obtain ⟨names, -, h⟩ := Option.map_eq_some_iff.mp h
  have hfiles := (onHosts_sameFiles (disk.opendir path) w).trans
    (statEntries_sameFiles disk path names _)
  rw [show (World.onHosts (disk.opendir path) w).2 = (disk.beside.opendir path w).2 from rfl] at hfiles
  rw [h] at hfiles
  exact hfiles

theorem leaves_ftpListing (dataChannel : Bool) (host : FtpHost τ) (path : QString) :
    LeavesFiles (ftpListing dataChannel host.beside path) := by
  intro w x w' h
  cases dataChannel with
  | false => cases h
  | true =>
    obtain ⟨k, -, h⟩ := Option.map_eq_some_iff.mp h
    obtain ⟨-, rfl⟩ := Prod.mk.inj h
    exact onHosts_sameFiles _ w

end Leaves

/-! ## What a run keeps -/

/-- The loop itself never touches the files. -/
structure Loop.Keeps (lp : Loop (World τ)) : Prop where
  connect : ∀ w : World τ, w.SameFiles (lp.connect w).2
  fileToDir : ∀ src dest, LeavesFiles (lp.fileToDir src dest)
  dirToDir : ∀ src dest, LeavesFiles (lp.dirToDir src dest)
  list : ∀ src, LeavesFiles (lp.list src)
  mkdir : ∀ path (w w' : World τ), lp.mkdir path w = some w' → w.SameFiles w'

def Call.ofLoop : Call → Bool
  | .newFileStarted _ _ => true
  | .mkdir _ => true
  | .copy _ _ => true
  | _ => false

/-- What has to be shown of a property that a run keeps. -/
structure Loop.Invariant (lp : Loop (World τ)) (P : State (World τ) → Prop) : Prop where
  queue : ∀ s ready done, P s → P { s with readyQueue := ready, doneQueue := done }
  called : ∀ s c, Call.ofLoop c = true → P s → P (s.called c)
  world : ∀ s w, s.world.SameFiles w → P s → P { s with world := w }
  error : ∀ s code text, code ≠ 0 → P s → P { s with errorCode := code, errorString := text }
  copy : ∀ src dest s s', lp.copyFile src dest s = some s' → P s → P s'

namespace Loop

variable {lp : Loop (World τ)} {P : State (World τ) → Prop}

theorem Keeps.branch (hlp : lp.Keeps) (src dest : QString) : LeavesFiles (lp.branch src dest) := by
  have hifElse {first second : World τ → Option (Bool × World τ)} {b₁ b₂ : Branch}
      (h₁ : LeavesFiles first) (h₂ : LeavesFiles second) :
      LeavesFiles (ifElse first second b₁ b₂) := by
    intro w b w' h
    obtain ⟨⟨x, w₁⟩, hx, h⟩ := Option.bind_eq_some_iff.mp h
    have hw₁ := h₁ _ _ _ hx
    simp only at h
    split at h
    · obtain ⟨-, rfl⟩ := Prod.mk.inj (Option.some.inj h)
      exact hw₁
    · obtain ⟨⟨y, w₂⟩, hy, h⟩ := Option.bind_eq_some_iff.mp h
      obtain ⟨-, rfl⟩ := Prod.mk.inj (Option.some.inj h)
      exact hw₁.trans (h₂ _ _ _ hy)
  intro w b w' h
  rw [Loop.branch] at h
  split at h
  · exact hifElse (hlp.dirToDir src dest) (hlp.fileToDir src dest) _ _ _ h
  · exact hifElse (hlp.fileToDir src dest) (hlp.dirToDir src dest) _ _ _ h

theorem Invariant.process (h : lp.Invariant P) (hlp : lp.Keeps) {srcPkg destPkg : TaskPackage}
    {src dest : QString} {s s' : State (World τ)}
    (hp : lp.process srcPkg destPkg src dest s = some s') (hs : P s) : P s' := by
  obtain ⟨⟨b, w⟩, hb, hp⟩ := Option.bind_eq_some_iff.mp hp
  have hw : P { s with world := w } := h.world s w (hlp.branch src dest _ _ _ hb) hs
  cases b with
  | file => exact h.copy _ _ _ _ hp (h.called _ _ rfl hw)
  | dir =>
    obtain ⟨⟨names, w₁⟩, hlist, hp⟩ := Option.bind_eq_some_iff.mp hp
    obtain ⟨w₂, hmkdir, hp⟩ := Option.bind_eq_some_iff.mp hp
    obtain rfl := Option.some.inj hp
    have hw₂ : w.SameFiles w₂ := (hlp.list src _ _ _ hlist).trans (hlp.mkdir _ _ _ hmkdir)
    exact h.queue _ _ _ (h.called _ _ rfl (h.world _ w₂ hw₂ hw))
  | invalid =>
    obtain rfl := Option.some.inj hp
    exact h.error _ errnoTaskInvalid s.errorString (by decide) hw

def Round.state : Round (World τ) → State (World τ)
  | .goOn s => s
  | .broke s => s

theorem Invariant.round (h : lp.Invariant P) (hlp : lp.Keeps) {s : State (World τ)}
    {r : Round (World τ)} (hr : lp.round s = some r) (hs : P s) : P r.state := by
  rw [Loop.round] at hr
  split at hr
  · cases hr
  · next srcPkg destPkg rest hready =>
    split at hr
    · next src srcs dest dests hsrc hdest =>
      have hw := h.called _ (.newFileStarted src dest) rfl
        (h.world s _ (hlp.connect s.world) hs)
      simp only at hr
      split at hr
      · next text _ =>
        obtain rfl := Option.some.inj hr
        exact h.error _ 6 text (by decide) hw
      · obtain ⟨t, ht, rfl⟩ := Option.map_eq_some_iff.mp hr
        exact h.queue _ _ _ (h.process hlp ht hw)
    · cases hr

theorem Invariant.loop (h : lp.Invariant P) (hlp : lp.Keeps) {fuel : Nat} {s s' : State (World τ)}
    (hl : lp.loop fuel s = some s') (hs : P s) : P s' := by
  induction fuel generalizing s with
  | zero => cases hl
  | succ fuel ih =>
    obtain ⟨r, hr, hl⟩ := Option.bind_eq_some_iff.mp hl
    have hr := h.round hlp hr hs
    cases r with
    | broke t =>
      obtain rfl := Option.some.inj hl
      exact hr
    | goOn t =>
      simp only at hl
      split at hl
      · exact ih hl hr
      · obtain rfl := Option.some.inj hl
        exact hr

/-- **The invariant rule for the queue loops.** -/
theorem Invariant.run (h : lp.Invariant P) (hlp : lp.Keeps) {fuel : Nat} {s s' : State (World τ)}
    (hrun : lp.run fuel s = some s')
    (hs : P { s with errorCode := 0, errorString := "No error.".toList }) : P s' := by
  obtain ⟨t, ht, rfl⟩ := Option.map_eq_some_iff.mp hrun
  have hp := h.loop hlp ht hs
  rw [finish]
  split
  · exact h.error t errnoCancel t.errorString (by decide) hp
  · exact hp

end Loop

/-! ## The four loops -/

def connectBeside (connect : τ → Option QString × τ) : World τ → Option QString × World τ :=
  World.onHosts connect

/-- A routine with the results of its file, and its turn written down. -/
def takeTurn (routine : FileEnv → QString → QString → State (World τ) → Option (State (World τ)))
    (env : Nat → FileEnv) (src dest : QString) (s : State (World τ)) : Option (State (World τ)) :=
  (routine (env s.world.turns.length) src dest s).map fun s' =>
    { s' with world := { s'.world with
        turns := s.world.turns ++
          [⟨src, dest, s.destFile dest, s'.calls.drop s.calls.length, s'.destFile dest⟩] } }

section Loops

variable (source : QString → Bytes) (env : Nat → FileEnv) (connect : τ → Option QString × τ)

def loopFileToSftp (disk : LocalDisk τ) (host : SftpHost τ) : Loop (World τ) :=
  runFileToSftp (connectBeside connect) (takeTurn (runFileToSftpFile · source) env) disk.beside
    host.beside

def loopSftpToFile (host : SftpHost τ) (disk : LocalDisk τ) : Loop (World τ) :=
  runSftpToFile (connectBeside connect) (takeTurn (runSftpToFileFile · source) env) host.beside
    disk.beside

def loopSftpToSftp (host dest : SftpHost τ) : Loop (World τ) :=
  runSftpToSftp (connectBeside connect) (takeTurn (runSftpToSftpFile · source) env) host.beside
    dest.beside

def loopFtpToFile (host : FtpHost τ) (disk : LocalDisk τ) : Loop (World τ) :=
  runFtpToFile (connectBeside connect) (takeTurn (runFtpToFileFile · source) env) host.beside
    disk.beside

theorem keeps_fileToSftp (disk : LocalDisk τ) (host : SftpHost τ) :
    (loopFileToSftp source env connect disk host).Keeps where
  connect w := onHosts_sameFiles connect w
  fileToDir src dest := (leaves_isFile disk src).andThen (leaves_remoteIs .dir host dest)
  dirToDir src dest := (leaves_isDir disk src).andThen (leaves_remoteIs .dir host dest)
  list src := leaves_fxpLocalDoLs disk src
  mkdir path w w' h := by
    obtain rfl := Option.some.inj h
    exact onHosts_sameFiles (host.mkdir path) w

theorem keeps_sftpToSftp (host dest : SftpHost τ) :
    (loopSftpToSftp source env connect host dest).Keeps where
  connect w := onHosts_sameFiles connect w
  fileToDir src d := (leaves_remoteIs .reg host src).andThen (leaves_remoteIs .dir dest d)
  dirToDir src d := (leaves_remoteIs .dir host src).andThen (leaves_remoteIs .dir dest d)
  list src := leaves_fxpDoLsDir host (src ++ ['/'])
  mkdir path w w' h := by
    obtain rfl := Option.some.inj h
    exact onHosts_sameFiles (dest.mkdir path) w

theorem keeps_ftpToFile (host : FtpHost τ) (disk : LocalDisk τ) :
    (loopFtpToFile source env connect host disk).Keeps where
  connect w := onHosts_sameFiles connect w
  fileToDir src dest := (leaves_isFTPFile host src).andThen (leaves_isDir disk dest)
  dirToDir src dest := (leaves_isDir disk dest).andThen (leaves_isFTPDir host src)
  list src := leaves_ftpListing true host src
  mkdir path w w' h := by
    obtain rfl := Option.some.inj h
    exact onHosts_sameFiles (disk.mkpath path) w

theorem keeps_sftpToFile (host : SftpHost τ) (disk : LocalDisk τ) :
    (loopSftpToFile source env connect host disk).Keeps where
  connect w := onHosts_sameFiles connect w
  fileToDir src dest := by
    intro w x w' h
    obtain ⟨⟨a, w₁⟩, h₁, h⟩ := Option.bind_eq_some_iff.mp h
    obtain ⟨⟨b, w₂⟩, h₂, h⟩ := Option.bind_eq_some_iff.mp h
    have hdebug := (leaves_remoteIs .reg host src _ _ _ h₁).trans (leaves_isDir disk dest _ _ _ h₂)
    exact hdebug.trans ((leaves_remoteIs .reg host src).andThen (leaves_isDir disk dest) _ _ _ h)
  dirToDir src dest := (leaves_isDir disk dest).andThen (leaves_remoteIs .dir host src)
  list src := leaves_fxpDoLsDir host (src ++ ['/'])
  mkdir path w w' h := by
    obtain rfl := Option.some.inj h
    exact onHosts_sameFiles (disk.mkpath path) w

end Loops

end NullFxp.Transportor
