import NullFxp.Transportor.Corruption

/-!
# What the answers about existing files do

`run_FILE_to_SFTP` and `run_SFTP_to_FILE` on a sequence of files, when nothing fails and the
user only answers questions.
-/

namespace NullFxp.Transportor

variable {τ : Type}

/-- Every call succeeds, and the answer is one of the six. -/
structure Succeeds (env : FileEnv) : Prop where
  stat : env.statFails = false
  srcOpen : env.srcOpenError = none
  destOpen : env.destOpenError = none
  localOpen : env.localOpen = true
  reads : ∀ k, 0 < env.reads k
  writes : ∀ k, 8192 ≤ env.writes k
  answer : env.answer ≠ .unknown
  cancelBefore : env.cancelBefore = false
  cancelAfter : env.cancelAfter = false
  cancelDuring : ∀ k, env.cancelDuring k = false

/-! ## Copying succeeds -/

section Copy

variable {env : FileEnv} {check : Int → Int → Check} {buf : Nat}

theorem Succeeds.delivers (he : Succeeds env) (hbuf : 0 < buf) (hmax : buf ≤ 8192)
    (checked : Bool) (k : Nat) (rest : Bytes) : Delivers checked buf env k rest := by
  -- Every part shortens what is left.
  induction hn : rest.length using Nat.strongRecOn generalizing k rest with
  | _ n ih =>
    by_cases hrest : rest = []
    · subst hrest
      exact .done
    · have hlen : 0 < rest.length := List.length_pos_of_ne_nil hrest
      have hread := he.reads k
      have hwrite := he.writes k
      refine .part hread (.inr ?_) (ih _ ?_ (k + 1) _ rfl)
      · rw [List.length_take]
        omega
      · rw [List.length_drop]
        omega

theorem Succeeds.copyLoop_ends (he : Succeeds env) (hmax : buf ≤ 8192)
    (hcheck : ∀ n : Nat, check n n = .goOn) {fuel : Nat} (k pos : Nat) (rest out : Bytes)
    (hfuel : rest.length < fuel) :
    ∃ out', copyLoop check buf env fuel k rest out pos = some (out', .ended) := by
  induction fuel generalizing k rest out pos with
  | zero => omega
  | succ fuel ih =>
    have hwrite := he.writes k
    simp only [copyLoop]
    split
    · exact ⟨out, rfl⟩
    · next hne =>
      have hlen : (rest.take (min (env.reads k).toNat buf)).length ≤ buf := by
        rw [List.length_take]
        omega
      rw [Int.min_eq_right (by omega), hcheck]
      simp only [he.cancelDuring k, Bool.false_eq_true, if_false]
      apply ih
      have hpos : 0 < min (env.reads k).toNat buf := by
        rcases Nat.eq_zero_or_pos (min (env.reads k).toNat buf) with h0 | h0
        · exact absurd (by rw [h0]; rfl) hne
        · exact h0
      have hrest : 0 < rest.length := by
        rcases rest with _ | ⟨b, rest⟩
        · exact absurd List.take_nil hne
        · simp
      rw [List.length_drop]
      omega

theorem checkSftp_goOn (n : Nat) : checkSftp n n = .goOn := by
  have hne : (n : Int) ≠ libssh2ErrorSftpProtocol := by
    unfold libssh2ErrorSftpProtocol
    omega
  simp [checkSftp, hne]

theorem Succeeds.copyParts (he : Succeeds env) (check : Int → Int → Check) (buf : Nat)
    (hbuf : 0 < buf) (hmax : buf ≤ 8192) (hcheck : ∀ n : Nat, check n n = .goOn) (rest out : Bytes) :
    copyParts check buf env rest out out.length = some (out ++ rest, .ended) := by
  obtain ⟨out', h⟩ := he.copyLoop_ends hmax hcheck 0 out.length rest out (Nat.lt_succ_self rest.length)
  have hout := copyLoop_ended hbuf (fun h => by cases h)
    (he.delivers hbuf hmax false 0 rest) (Nat.le_refl _) h
  rw [Transportor.copyParts, h, hout]
  simp

end Copy

/-! ## What becomes of one file -/

/-- The outcome of a turn: the answer to the question that was asked, the answer that holds
from then on, whether the run stops, and the file afterwards. -/
structure Verdict where
  answer : Option Overwrite
  method : Overwrite
  stops : Bool
  after : Option Bytes

def existingVerdict (content old : Bytes) (asked : Option Overwrite) (method : Overwrite) : Verdict :=
  match method with
  | .cancel | .no => ⟨asked, method, false, some old⟩
  | .noAll => ⟨asked, method, true, some old⟩
  | .resume => ⟨asked, method, false, some (old ++ content.drop old.length)⟩
  | _ => ⟨asked, method, false, some content⟩

/-- `method` is the last answer so far, and `answer` is given when there is a question. -/
def verdict (m : Member) (content : Bytes) (method answer : Overwrite) : Option Bytes → Verdict
  | none =>
    -- After `OW_RESUME` the upload opens every file without `LIBSSH2_FXF_CREAT`.
    ⟨none, method, false, if m = .fileToSftp ∧ method = .resume then none else some content⟩
  | some old =>
    if asks method then existingVerdict content old (some answer) answer
    else existingVerdict content old none method

def answerIn (calls : List Call) : Option Overwrite :=
  calls.findSome? fun
    | .destFileExists _ _ answer => some answer
    | _ => none

structure Took (v : Verdict) (dest : QString) (s s' : State (World τ)) : Prop where
  answer : ∃ calls, s'.calls = s.calls ++ calls ∧ answerIn calls = v.answer
  method : s'.fileConflictResolveMethod = v.method
  canceled : s'.userCanceled = v.stops
  file : s'.destFile dest = v.after
  turns : s'.world.turns = s.world.turns
  queue : s'.readyQueue = s.readyQueue

section Routine

variable {env : FileEnv} {source : QString → Bytes} {src dest file other : QString}
  {s : State (World τ)}

theorem destFile_setFile (s : State (World τ)) (path : QString) (content : Bytes) :
    (s.setFile path content).destFile path = some content := by
  simp [State.destFile, State.setFile, World.setFile]

theorem destOpenError_succeeds (he : Succeeds env) (create : Bool) {old : Option Bytes}
    (h : create = true ∨ old ≠ none) : destOpenError env create old = none := by
  have hor : (create || old.isSome) = true := by
    rcases h with rfl | h
    · rfl
    · simp [Option.isSome_iff_ne_none.mpr h]
  simp [destOpenError, he.destOpen, hor]

theorem sendFile_overwrites (he : Succeeds env) (hm : s.fileConflictResolveMethod ≠ .resume)
    (destExists : Bool) :
    sendFile env source src dest destExists s =
      some (((s.called (.openForWriting dest)).setFile dest []).setFile dest (source src)) := by
  have hparts := he.copyParts checkSftp 5120 (by decide) (by decide)
    checkSftp_goOn (source src) []
  simp only [sendFile, hm, decide_false, Bool.not_false, destOpenError_succeeds he _ (.inl rfl),
    he.localOpen, Bool.false_and, Bool.false_eq_true, if_false, if_true, List.drop_zero]
  rw [List.length_nil] at hparts
  rw [hparts]
  rfl

theorem sendFile_resumes (he : Succeeds env) (hm : s.fileConflictResolveMethod = .resume)
    {old : Bytes} (hold : s.destFile dest = some old) :
    sendFile env source src dest true s =
      some (((s.called (.openForWriting dest)).setFile dest old).setFile dest
        (old ++ (source src).drop old.length)) := by
  have hparts := he.copyParts checkSftp 5120 (by decide) (by decide)
    checkSftp_goOn ((source src).drop old.length) old
  have hopen := destOpenError_succeeds he false (.inr (Option.some_ne_none old))
  simp only [sendFile, hm, decide_true, Bool.not_true, hold, hopen, he.localOpen, Bool.and_self,
    if_true, Option.getD_some, hparts]
  rfl

theorem sendFile_missing (he : Succeeds env) (hm : s.fileConflictResolveMethod = .resume)
    (hold : s.destFile dest = none) (destExists : Bool) :
    sendFile env source src dest destExists s = some (openFailed s fxNoSuchFile) := by
  simp only [sendFile, hm, decide_true, Bool.not_true, hold, destOpenError, he.destOpen,
    Option.isSome_none, Bool.or_self, Bool.false_eq_true, if_false]

theorem fetchFile_overwrites (he : Succeeds env) (hm : s.fileConflictResolveMethod ≠ .resume) :
    fetchFile env source src dest s =
      some (((s.called (.openForWriting dest)).setFile dest []).setFile dest (source src)) := by
  have hparts := he.copyParts checkNothing 8192 (by decide) (by decide)
    (fun _ => rfl) (source src) []
  simp only [fetchFile, hm, decide_false, he.localOpen, Bool.false_eq_true, if_false, if_true,
    List.drop_zero]
  rw [List.length_nil] at hparts
  rw [hparts]
  rfl

theorem fetchFile_resumes (he : Succeeds env) (hm : s.fileConflictResolveMethod = .resume) :
    fetchFile env source src dest s =
      some (((s.called (.openForWriting dest)).setFile dest ((s.destFile dest).getD [])).setFile dest
        ((s.destFile dest).getD [] ++ (source src).drop ((s.destFile dest).getD []).length)) := by
  have hparts := he.copyParts checkNothing 8192 (by decide) (by decide)
    (fun _ => rfl) ((source src).drop ((s.destFile dest).getD []).length)
    ((s.destFile dest).getD [])
  simp only [fetchFile, hm, decide_true, he.localOpen, if_true, hparts]
  rfl

theorem took_written {v : Verdict} {out content : Bytes}
    (hanswer : v.answer = none) (hmethod : v.method = s.fileConflictResolveMethod)
    (hcancel : v.stops = s.userCanceled) (hafter : v.after = some content) :
    Took v dest s
      (((s.called (.openForWriting dest)).setFile dest out).setFile dest content) where
  answer := ⟨[.openForWriting dest], rfl, hanswer.symm⟩
  method := hmethod.symm
  canceled := hcancel.symm
  file := by rw [destFile_setFile, hafter]
  turns := rfl
  queue := rfl

theorem conflict_eq (he : Succeeds env) (hs : s.userCanceled = false) :
    conflict env file other s = obey (askUser env file other s) := by
  have hsame (t : State (World τ)) : t.cancelIf false = t := by simp [State.cancelIf]
  rw [conflict, he.cancelBefore, he.cancelAfter, hsame, hsame, hs]
  rfl

/-- The state `t` after the question: `answer` was given, if one was asked, and `method` is what
holds now. -/
structure Asked (answer : Option Overwrite) (method : Overwrite) (s t : State (World τ)) : Prop where
  calls : ∃ calls, t.calls = s.calls ++ calls ∧ answerIn calls = answer
  method : t.fileConflictResolveMethod = method
  canceled : t.userCanceled = false
  world : t.world = s.world
  queue : t.readyQueue = s.readyQueue

theorem askUser_asked (he : Succeeds env) (file other : QString) (hs : s.userCanceled = false)
    (hasks : asks s.fileConflictResolveMethod = true) :
    Asked (some env.answer) env.answer s (askUser env file other s) := by
  rw [askUser, if_pos hasks, userResponseResult, if_neg he.answer]
  exact ⟨⟨[.destFileExists file other env.answer], rfl, rfl⟩, rfl, hs, rfl, rfl⟩

theorem askUser_silent (env : FileEnv) (file other : QString) (hs : s.userCanceled = false)
    (hasks : asks s.fileConflictResolveMethod = false) :
    Asked none s.fileConflictResolveMethod s (askUser env file other s) := by
  rw [askUser, if_neg (by simp [hasks])]
  exact ⟨⟨[], by simp, rfl⟩, rfl, hs, rfl, rfl⟩

theorem Asked.took_kept {answer : Option Overwrite} {method : Overwrite} {t : State (World τ)}
    (h : Asked answer method s t) (dest : QString) (stops : Bool) :
    Took ⟨answer, method, stops, s.destFile dest⟩ dest s { t with userCanceled := stops } where
  answer := h.calls
  method := h.method
  canceled := rfl
  file := by rw [State.destFile, State.destFile, ← h.world]
  turns := by rw [← h.world]
  queue := h.queue

theorem Asked.took_written {answer : Option Overwrite} {method : Overwrite} {t : State (World τ)}
    (h : Asked answer method s t) (dest : QString) (out content : Bytes) :
    Took ⟨answer, method, false, some content⟩ dest s
      (((t.called (.openForWriting dest)).setFile dest out).setFile dest content) where
  answer := by
    obtain ⟨calls, hcalls, hanswer⟩ := h.calls
    refine ⟨calls ++ [.openForWriting dest], ?_, ?_⟩
    · simp [State.setFile, State.called, hcalls]
    · rw [answerIn, List.findSome?_append]
      rw [answerIn] at hanswer
      rw [hanswer]
      cases answer <;> rfl
  method := h.method
  canceled := h.canceled
  file := destFile_setFile _ dest content
  turns := by
    change t.world.turns = s.world.turns
    rw [h.world]
  queue := h.queue

theorem Asked.took {answer : Option Overwrite} {method : Overwrite} {t : State (World τ)}
    (h : Asked answer method s t) {old content : Bytes} (hold : s.destFile dest = some old)
    {next : State (World τ) → Option (State (World τ))}
    (hover : t.fileConflictResolveMethod ≠ .resume → next t =
      some (((t.called (.openForWriting dest)).setFile dest []).setFile dest content))
    (hresume : t.fileConflictResolveMethod = .resume → next t =
      some (((t.called (.openForWriting dest)).setFile dest old).setFile dest
        (old ++ content.drop old.length))) :
    ∃ s', (if (obey t).1 then next (obey t).2 else some (obey t).2) = some s' ∧
      Took (existingVerdict content old answer method) dest s s' := by
  have hkept := h.took_kept dest
  have hwritten := h.took_written dest
  have hsame : { t with userCanceled := false } = t := by rw [← h.canceled]
  rw [hold] at hkept
  rw [h.method] at hover hresume
  cases hmethod : method <;> rw [hmethod] at hkept hwritten hover hresume h
  case cancel =>
    exact ⟨t, by simp [obey, h.method], hsame ▸ hkept false⟩
  case no =>
    exact ⟨t, by simp [obey, h.method, h.canceled], hsame ▸ hkept false⟩
  case noAll =>
    exact ⟨{ t with userCanceled := true }, by simp [obey, h.method, h.canceled], hkept true⟩
  case resume =>
    exact ⟨_, by simp [obey, h.method, h.canceled, hresume], hwritten old _⟩
  case unknown =>
    exact ⟨_, by simp [obey, h.method, h.canceled, hover], hwritten [] content⟩
  case yes =>
    exact ⟨_, by simp [obey, h.method, h.canceled, hover], hwritten [] content⟩
  case yesAll =>
    exact ⟨_, by simp [obey, h.method, h.canceled, hover], hwritten [] content⟩

theorem existing_took {m : Member} (he : Succeeds env) (hs : s.userCanceled = false)
    {old content : Bytes} (hold : s.destFile dest = some old)
    {next : State (World τ) → Option (State (World τ))}
    (hover : ∀ t, t.fileConflictResolveMethod ≠ .resume → next t =
      some (((t.called (.openForWriting dest)).setFile dest []).setFile dest content))
    (hresume : ∀ t, t.fileConflictResolveMethod = .resume → t.destFile dest = some old → next t =
      some (((t.called (.openForWriting dest)).setFile dest old).setFile dest
        (old ++ content.drop old.length))) :
    ∃ s', (if (conflict env file other s).1 then next (conflict env file other s).2
        else some (conflict env file other s).2) = some s' ∧
      Took (verdict m content s.fileConflictResolveMethod env.answer (some old)) dest s s' := by
  have hfile : ∀ {answer method t}, Asked answer method s t → t.destFile dest = some old := by
    intro answer method t h
    rw [State.destFile, h.world]
    exact hold
  rw [conflict_eq he hs]
  cases hasks : asks s.fileConflictResolveMethod with
  | true =>
    have h := askUser_asked he file other hs hasks
    have hv : verdict m content s.fileConflictResolveMethod env.answer (some old) =
        existingVerdict content old (some env.answer) env.answer := by simp [verdict, hasks]
    rw [hv]
    exact h.took hold (hover _) fun hr => hresume _ hr (hfile h)
  | false =>
    have h := askUser_silent env file other hs hasks
    have hv : verdict m content s.fileConflictResolveMethod env.answer (some old) =
        existingVerdict content old none s.fileConflictResolveMethod := by simp [verdict, hasks]
    rw [hv]
    exact h.took hold (hover _) fun hr => hresume _ hr (hfile h)

/-- **What the two routines do with a file**, in terms of the answers. -/
theorem routine_took {m : Member} (hm : m = .fileToSftp ∨ m = .sftpToFile) (he : Succeeds env)
    (source : QString → Bytes) (src dest : QString) (hs : s.userCanceled = false) :
    ∃ s', m.routine env source src dest s = some s' ∧
      Took (verdict m (source src) s.fileConflictResolveMethod env.answer (s.destFile dest))
        dest s s' := by
  cases hold : s.destFile dest with
  | none =>
    -- No question is asked.
    rcases hm with rfl | rfl
    · have hroutine : Member.routine .fileToSftp env source src dest s =
          sendFile env source src dest false s := by
        simp [Member.routine, runFileToSftpFile, hold]
      rw [hroutine]
      by_cases hresume : s.fileConflictResolveMethod = .resume
      · refine ⟨_, sendFile_missing he hresume hold false, ⟨[], ?_, rfl⟩, rfl, hs, ?_, rfl, rfl⟩
        · simp [openFailed, fxNoSuchFile, fxPermissionDenied, State.fail]
        · simp [verdict, hresume]
          exact hold
      · refine ⟨_, sendFile_overwrites he hresume false, took_written rfl rfl hs.symm ?_⟩
        simp [verdict, hresume]
    · have hroutine : Member.routine .sftpToFile env source src dest s =
          fetchFile env source src dest s := by
        simp [Member.routine, runSftpToFileFile, hold, he.srcOpen]
      rw [hroutine]
      by_cases hresume : s.fileConflictResolveMethod = .resume
      · refine ⟨_, fetchFile_resumes he hresume, took_written rfl rfl hs.symm ?_⟩
        simp [verdict, hold]
      · refine ⟨_, fetchFile_overwrites he hresume, took_written rfl rfl hs.symm ?_⟩
        simp [verdict]
  | some old =>
    rcases hm with rfl | rfl
    · have hroutine : Member.routine .fileToSftp env source src dest s =
          if (conflict env src dest s).1 then
            sendFile env source src dest true (conflict env src dest s).2
          else some (conflict env src dest s).2 := by
        simp [Member.routine, runFileToSftpFile, hold, he.stat]
      rw [hroutine]
      exact existing_took he hs hold (fun t ht => sendFile_overwrites he ht true)
        (fun t ht hfile => sendFile_resumes he ht hfile)
    · have hroutine : Member.routine .sftpToFile env source src dest s =
          if (conflict env dest src s).1 then
            fetchFile env source src dest (conflict env dest src s).2
          else some (conflict env dest src s).2 := by
        simp [Member.routine, runSftpToFileFile, hold, he.srcOpen]
      rw [hroutine]
      refine existing_took he hs hold (fun t ht => fetchFile_overwrites he ht) fun t ht hfile => ?_
      rw [fetchFile_resumes he ht, hfile, Option.getD_some]

end Routine

end NullFxp.Transportor
