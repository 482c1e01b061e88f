import NullFxp.Transportor.Answers

/-!
# Resuming a file

The writes of a copy, with their positions, and what they make of the destination.
-/

namespace NullFxp.Transportor

/-- Bytes that are written, and where. -/
abbrev Write := Nat × Bytes

/-! ## The writes of a copy -/

/-- What `copyLoop` writes, in order. -/
def copyWrites (check : Int → Int → Check) (buf : Nat) (env : FileEnv) :
    Nat → Nat → Bytes → Nat → Option (List Write × CopyEnd)
  | 0, _, _, _ => none
  | fuel + 1, k, rest, pos =>
    let rlen := min (env.reads k).toNat buf
    let chunk := rest.take rlen
    if chunk = [] then some ([], .ended)
    else
      let wlen := min (env.writes k) chunk.length
      let write := (pos, chunk.take wlen.toNat)
      match check chunk.length wlen with
      | .abort => none
      | .quota => some ([write], .quota)
      | .goOn =>
        if env.cancelDuring k then some ([write], .canceled)
        else
          (copyWrites check buf env fuel (k + 1) (rest.drop rlen) (pos + wlen.toNat)).map
            fun (writes, how) => (write :: writes, how)

/-- A file after the writes. -/
def replay (content : Bytes) (writes : List Write) : Bytes :=
  writes.foldl (fun content w => writeAt content w.1 w.2) content

section Copy

variable {check : Int → Int → Check} {buf : Nat} {env : FileEnv}

/-- **The loop leaves what its writes leave.** -/
theorem copyLoop_eq_replay (fuel k : Nat) (rest out : Bytes) (pos : Nat) :
    copyLoop check buf env fuel k rest out pos =
      (copyWrites check buf env fuel k rest pos).map fun (writes, how) =>
        (replay out writes, how) := by
  induction fuel generalizing k rest out pos with
  | zero => rfl
  | succ fuel ih =>
    simp only [copyLoop, copyWrites]
    split
    · rfl
    · cases check (rest.take (min (env.reads k).toNat buf)).length
          (min (env.writes k) (rest.take (min (env.reads k).toNat buf)).length) with
      | abort => rfl
      | quota => rfl
      | goOn =>
        simp only
        split
        · rfl
        · rw [ih, Option.map_map]
          rfl

theorem copyWrites_pos {fuel k pos : Nat} {rest : Bytes} {writes : List Write} {how : CopyEnd}
    (h : copyWrites check buf env fuel k rest pos = some (writes, how)) :
    ∀ w ∈ writes, pos ≤ w.1 := by
  induction fuel generalizing k rest pos writes with
  | zero => cases h
  | succ fuel ih =>
    simp only [copyWrites] at h
    split at h
    · cases h
      simp
    · split at h
      · cases h
      · cases h
        simp
      · split at h
        · cases h
          simp
        · simp only [Option.map_eq_some_iff, Prod.exists, Prod.mk.injEq] at h
          obtain ⟨later, _, hlater, rfl, rfl⟩ := h
          intro w hw
          rcases List.mem_cons.mp hw with rfl | hw
          · exact Nat.le_refl _
          · have hpos := ih hlater w hw
            omega

end Copy

/-! ## The writes of the routines -/

section Routines

variable {τ : Type} (env : FileEnv) (source : QString → Bytes)

/-- The writes of `sendFile`. -/
def sendWrites (srcFile destFile : QString) (destExists : Bool) (s : State (World τ)) :
    Option (List Write) :=
  let old := s.destFile destFile
  let resume := decide (s.fileConflictResolveMethod = .resume)
  let offset := if resume && destExists then (old.getD []).length else 0
  let rest := (source srcFile).drop offset
  match destOpenError env (!resume) old with
  | some _ => some []
  | none =>
    if env.localOpen then
      (copyWrites checkSftp 5120 env (rest.length + 1) 0 rest offset).map Prod.fst
    else some []

/-- The writes of `run_FILE_to_SFTP(srcFile, destFile)`. -/
def runFileToSftpWrites (srcFile destFile : QString) (s : State (World τ)) : Option (List Write) :=
  let destExists := (s.destFile destFile).isSome && !env.statFails
  let (goOn, s) := if destExists then conflict env srcFile destFile s else (true, s)
  if goOn then sendWrites env source srcFile destFile destExists s else some []

/-- The writes of `fetchFile`. -/
def fetchWrites (srcFile destFile : QString) (s : State (World τ)) : Option (List Write) :=
  let old := s.destFile destFile
  let resume := decide (s.fileConflictResolveMethod = .resume)
  let offset := if resume then (old.getD []).length else 0
  let rest := (source srcFile).drop offset
  if env.localOpen then
    (copyWrites checkNothing 8192 env (rest.length + 1) 0 rest offset).map Prod.fst
  else some []

/-- The writes of `run_SFTP_to_FILE(srcFile, destFile)`. -/
def runSftpToFileWrites (srcFile destFile : QString) (s : State (World τ)) : Option (List Write) :=
  match env.srcOpenError with
  | some _ => some []
  | none =>
    let (goOn, s) :=
      if (s.destFile destFile).isSome then conflict env destFile srcFile s else (true, s)
    if goOn then fetchWrites env source srcFile destFile s else some []

variable {env source} {src dest : QString} {s s' : State (World τ)}

/-- The destination is what it was, or empty after it was truncated, with the writes made. -/
def Replayed (before after : Option Bytes) (writes : List Write) : Prop :=
  (after = before ∧ writes = []) ∨
    ∃ opened, (opened = before.getD [] ∨ opened = []) ∧ after = some (replay opened writes)

theorem afterCopy_destFile (dest : QString) (s : State (World τ)) (result : Bytes × CopyEnd) :
    (afterCopy dest s result).destFile dest = some result.1 := by
  obtain ⟨out, how⟩ := result
  cases how <;> exact destFile_setFile s dest out

theorem copyParts_replayed {check : Int → Int → Check} {buf : Nat} {rest out : Bytes} {pos : Nat}
    {before : Option Bytes} (hout : out = before.getD [] ∨ out = [])
    (h : (copyParts check buf env rest out pos).map (afterCopy dest s) = some s') :
    ∃ writes, (copyWrites check buf env (rest.length + 1) 0 rest pos).map Prod.fst = some writes ∧
      Replayed before (s'.destFile dest) writes := by
  rw [copyParts, copyLoop_eq_replay, Option.map_map, Option.map_eq_some_iff] at h
  obtain ⟨⟨writes, how⟩, hwrites, rfl⟩ := h
  refine ⟨writes, by rw [hwrites]; rfl, .inr ⟨out, hout, ?_⟩⟩
  exact afterCopy_destFile dest s _

theorem opened_cases (resume : Bool) (old : Option Bytes) :
    (if resume then old.getD [] else []) = old.getD [] ∨ (if resume then old.getD [] else []) = [] := by
  cases resume
  · exact .inr rfl
  · exact .inl rfl

theorem openFailed_destFile (s : State (World τ)) (code : Int) (dest : QString) :
    (openFailed s code).destFile dest = s.destFile dest := by
  unfold openFailed
  split <;> rfl

theorem sendFile_replayed {destExists : Bool}
    (h : sendFile env source src dest destExists s = some s') :
    ∃ writes, sendWrites env source src dest destExists s = some writes ∧
      Replayed (s.destFile dest) (s'.destFile dest) writes := by
  cases hopen : destOpenError env (!decide (s.fileConflictResolveMethod = .resume))
      (s.destFile dest) with
  | some code =>
    simp only [sendFile, hopen] at h
    simp only [sendWrites, hopen]
    obtain rfl := Option.some.inj h
    exact ⟨[], rfl, .inl ⟨openFailed_destFile s code dest, rfl⟩⟩
  | none =>
    simp only [sendFile, hopen] at h
    simp only [sendWrites, hopen]
    by_cases hlocal : env.localOpen = true
    · rw [if_pos hlocal] at h ⊢
      exact copyParts_replayed (opened_cases _ _) h
    · rw [if_neg hlocal] at h ⊢
      obtain rfl := Option.some.inj h
      exact ⟨[], rfl, .inr ⟨_, opened_cases _ _, destFile_setFile _ dest _⟩⟩

theorem fetchFile_replayed (h : fetchFile env source src dest s = some s') :
    ∃ writes, fetchWrites env source src dest s = some writes ∧
      Replayed (s.destFile dest) (s'.destFile dest) writes := by
  simp only [fetchFile] at h
  simp only [fetchWrites]
  by_cases hlocal : env.localOpen = true
  · rw [if_pos hlocal] at h ⊢
    exact copyParts_replayed (opened_cases _ _) h
  · rw [if_neg hlocal] at h ⊢
    obtain rfl := Option.some.inj h
    exact ⟨[], rfl, .inl ⟨rfl, rfl⟩⟩

theorem conflict_world (env : FileEnv) (file other : QString) (s : State (World τ)) :
    (conflict env file other s).2.world = s.world := by
  unfold conflict
  split
  · rfl
  · unfold obey askUser userResponseResult
    split_ifs <;> rfl

theorem asked_replayed {r : Bool × State (World τ)} (hr : r.2.world = s.world)
    {next : State (World τ) → Option (State (World τ))} {log : State (World τ) → Option (List Write)}
    (hnext : ∀ t, next t = some s' → ∃ writes, log t = some writes ∧
      Replayed (t.destFile dest) (s'.destFile dest) writes)
    (h : (if r.1 then next r.2 else some r.2) = some s') :
    ∃ writes, (if r.1 then log r.2 else some []) = some writes ∧
      Replayed (s.destFile dest) (s'.destFile dest) writes := by
  have hfile : r.2.destFile dest = s.destFile dest := by rw [State.destFile, hr, State.destFile]
  rw [← hfile]
  split at h
  · next hgo =>
    rw [if_pos hgo]
    exact hnext _ h
  · next hgo =>
    obtain rfl := Option.some.inj h
    rw [if_neg hgo]
    exact ⟨[], rfl, .inl ⟨rfl, rfl⟩⟩

theorem asked_world (env : FileEnv) (file other : QString) (there : Bool) (s : State (World τ)) :
    (if there then conflict env file other s else (true, s)).2.world = s.world := by
  split
  · exact conflict_world env file other s
  · rfl

/-- **The writes of an upload are what it does to the destination**, whatever the calls return. -/
theorem runFileToSftp_replayed (h : runFileToSftpFile env source src dest s = some s') :
    ∃ writes, runFileToSftpWrites env source src dest s = some writes ∧
      Replayed (s.destFile dest) (s'.destFile dest) writes :=
  asked_replayed (asked_world env src dest _ s) (fun _ ht => sendFile_replayed ht) h

theorem runSftpToFile_replayed (h : runSftpToFileFile env source src dest s = some s') :
    ∃ writes, runSftpToFileWrites env source src dest s = some writes ∧
      Replayed (s.destFile dest) (s'.destFile dest) writes := by
  cases hopen : env.srcOpenError with
  | some code =>
    simp only [runSftpToFileFile, hopen] at h
    simp only [runSftpToFileWrites, hopen]
    obtain rfl := Option.some.inj h
    exact ⟨[], rfl, .inl ⟨openFailed_destFile s _ dest, rfl⟩⟩
  | none =>
    simp only [runSftpToFileFile, hopen] at h
    simp only [runSftpToFileWrites, hopen]
    exact asked_replayed (asked_world env dest src _ s) (fun _ ht => fetchFile_replayed ht) h

/-! ## A resumed file -/

theorem conflict_resumes (he : Succeeds env) (file other : QString) (hs : s.userCanceled = false)
    (hasks : asks s.fileConflictResolveMethod = true) (hanswer : env.answer = .resume) :
    ∃ t, conflict env file other s = (true, t) ∧ t.fileConflictResolveMethod = .resume ∧
      ∀ path, t.destFile path = s.destFile path := by
  have h := askUser_asked he file other hs hasks
  rw [hanswer] at h
  refine ⟨askUser env file other s, ?_, h.method, ?_⟩
  · rw [conflict_eq he hs]
    simp [obey, h.method, h.canceled]
  · intro path
    rw [State.destFile, h.world, State.destFile]

theorem sendWrites_pos {old : Bytes} (hm : s.fileConflictResolveMethod = .resume)
    (hold : s.destFile dest = some old) {writes : List Write}
    (h : sendWrites env source src dest true s = some writes) : ∀ w ∈ writes, old.length ≤ w.1 := by
  simp only [sendWrites, hm, hold, decide_true, Bool.and_self, if_true, Option.getD_some] at h
  split at h
  · cases h
    simp
  · split at h
    · obtain ⟨⟨_, how⟩, hwrites, rfl⟩ := Option.map_eq_some_iff.mp h
      exact copyWrites_pos hwrites
    · cases h
      simp

theorem fetchWrites_pos {old : Bytes} (hm : s.fileConflictResolveMethod = .resume)
    (hold : s.destFile dest = some old) {writes : List Write}
    (h : fetchWrites env source src dest s = some writes) : ∀ w ∈ writes, old.length ≤ w.1 := by
  simp only [fetchWrites, hm, hold, decide_true, if_true, Option.getD_some] at h
  split at h
  · obtain ⟨⟨_, how⟩, hwrites, rfl⟩ := Option.map_eq_some_iff.mp h
    exact copyWrites_pos hwrites
  · cases h
    simp

end Routines

/-- **Resuming completes the file**, in both directions: when the destination has a first part of
the source and `OW_RESUME` is the answer, then it has the source afterwards, and no write was
before its old end. -/
theorem resume_completes {τ : Type} (env : FileEnv) (he : Succeeds env)
    (hanswer : env.answer = .resume) (source : QString → Bytes) (src dest : QString)
    (s : State (World τ)) (hs : s.userCanceled = false)
    (hasks : asks s.fileConflictResolveMethod = true) (old : Bytes)
    (hold : s.destFile dest = some old) (hpart : old <+: source src) :
    (∃ s' writes, runFileToSftpFile env source src dest s = some s' ∧
      s'.destFile dest = some (source src) ∧
      runFileToSftpWrites env source src dest s = some writes ∧ ∀ w ∈ writes, old.length ≤ w.1) ∧
    (∃ s' writes, runSftpToFileFile env source src dest s = some s' ∧
      s'.destFile dest = some (source src) ∧
      runSftpToFileWrites env source src dest s = some writes ∧ ∀ w ∈ writes, old.length ≤ w.1) := by
  have hwhole : old ++ (source src).drop old.length = source src := by
    obtain ⟨rest, hrest⟩ := hpart
    rw [← hrest, List.drop_left]
  constructor
  · obtain ⟨t, hconflict, hmethod, hfile⟩ := conflict_resumes he src dest hs hasks hanswer
    have hthere := (hfile dest).trans hold
    have hrun : runFileToSftpFile env source src dest s = sendFile env source src dest true t := by
      simp [runFileToSftpFile, hold, he.stat, hconflict]
    have hlog : runFileToSftpWrites env source src dest s = sendWrites env source src dest true t := by
      simp [runFileToSftpWrites, hold, he.stat, hconflict]
    rw [hrun, hlog]
    have hsent : ∃ s', sendFile env source src dest true t = some s' ∧
        s'.destFile dest = some (source src) :=
      ⟨_, sendFile_resumes he hmethod hthere, by rw [destFile_setFile, hwhole]⟩
    obtain ⟨s', hsent, hfinal⟩ := hsent
    obtain ⟨writes, hwrites, -⟩ := sendFile_replayed hsent
    exact ⟨s', writes, hsent, hfinal, hwrites, sendWrites_pos hmethod hthere hwrites⟩
  · obtain ⟨t, hconflict, hmethod, hfile⟩ := conflict_resumes he dest src hs hasks hanswer
    have hthere := (hfile dest).trans hold
    have hrun : runSftpToFileFile env source src dest s = fetchFile env source src dest t := by
      simp [runSftpToFileFile, hold, he.srcOpen, hconflict]
    have hlog : runSftpToFileWrites env source src dest s = fetchWrites env source src dest t := by
      simp [runSftpToFileWrites, hold, he.srcOpen, hconflict]
    rw [hrun, hlog]
    have hfetched : ∃ s', fetchFile env source src dest t = some s' ∧
        s'.destFile dest = some (source src) :=
      ⟨_, fetchFile_resumes he hmethod, by rw [destFile_setFile, hthere, Option.getD_some, hwhole]⟩
    obtain ⟨s', hfetched, hfinal⟩ := hfetched
    obtain ⟨writes, hwrites, -⟩ := fetchFile_replayed hfetched
    exact ⟨s', writes, hfetched, hfinal, hwrites, fetchWrites_pos hmethod hthere hwrites⟩

/-- Every read gives one byte. -/
def byteByByte : FileEnv where
  statFails := false
  srcOpenError := none
  destOpenError := none
  localOpen := true
  ftpCommands := true
  reads := fun _ => 1
  writes := fun _ => 8192
  answer := .resume
  cancelBefore := false
  cancelAfter := false
  cancelDuring := fun _ => false

def oneByteThere : State (World Unit) := State.new ⟨fun _ => some [1], [], ()⟩

theorem resume_completes_bytewise :
    ∃ s' writes, runFileToSftpFile byteByByte (fun _ => [1, 2, 3]) ['a'] ['b'] oneByteThere = some s' ∧
      s'.destFile ['b'] = some [1, 2, 3] ∧
      runFileToSftpWrites byteByByte (fun _ => [1, 2, 3]) ['a'] ['b'] oneByteThere = some writes ∧
      writes = [(1, [2]), (2, [3])] ∧ ∀ w ∈ writes, 1 ≤ w.1 := by
  have he : Succeeds byteByByte :=
    ⟨rfl, rfl, rfl, rfl, fun _ => Int.zero_lt_one, fun _ => Int.le_refl _, by decide, rfl, rfl,
      fun _ => rfl⟩
  obtain ⟨⟨s', writes, hrun, hfile, hlog, hpos⟩, -⟩ := resume_completes byteByByte he rfl
    (fun _ => [1, 2, 3]) ['a'] ['b'] oneByteThere rfl rfl [1] rfl ⟨[2, 3], rfl⟩
  refine ⟨s', writes, hrun, hfile, hlog, ?_, hpos⟩
  exact (Option.some.inj hlog).symm

end NullFxp.Transportor
