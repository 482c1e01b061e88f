import NullFxp.Transportor.Turns

/-!
# When a copy is the file that it is a copy of

What the results of the calls have to be like, so that a run that ends without an error has
copied every byte.
-/

namespace NullFxp.Transportor

variable {τ : Type}

/-! ## The parts of a file -/

/-- Every read before the end of the file returns something, and every write is done whole as far
as the routine does not see to it. `checked` says that it does. A copy that the user cancels,
or whose failed write is seen, need not get to the end. -/
inductive Delivers (checked : Bool) (buf : Nat) (env : FileEnv) : Nat → Bytes → Prop where
  | done {k : Nat} : Delivers checked buf env k []
  | stopped {k : Nat} {rest : Bytes} (read : 0 < env.reads k)
      (stop : (checked = true ∧ env.writes k < (rest.take (min (env.reads k).toNat buf)).length) ∨
        env.cancelDuring k = true) : Delivers checked buf env k rest
  | part {k : Nat} {rest : Bytes} (read : 0 < env.reads k)
      (write : checked = true ∨
        ((rest.take (min (env.reads k).toNat buf)).length : Int) ≤ env.writes k)
      (next : Delivers checked buf env (k + 1) (rest.drop (min (env.reads k).toNat buf))) :
      Delivers checked buf env k rest

def Checks (check : Int → Int → Check) : Prop := ∀ rlen wlen, check rlen wlen = .goOn → wlen = rlen

theorem checks_sftp : Checks checkSftp := by
  intro rlen wlen h
  unfold checkSftp at h
  split at h
  · cases h
  · split at h
    · assumption
    · cases h

theorem checks_assert : Checks checkAssert := by
  intro rlen wlen h
  unfold checkAssert at h
  split at h
  · assumption
  · cases h

theorem writeAt_eq {content bytes : Bytes} {pos : Nat} (hpos : pos ≤ content.length)
    (hbytes : bytes ≠ []) :
    writeAt content pos bytes = content.take pos ++ bytes ++ content.drop (pos + bytes.length) := by
  simp [writeAt, hbytes, Nat.sub_eq_zero_of_le hpos]

theorem take_writeAt {content bytes : Bytes} {pos : Nat} (hpos : pos ≤ content.length)
    (hbytes : bytes ≠ []) :
    (writeAt content pos bytes).take (pos + bytes.length) = content.take pos ++ bytes := by
  rw [writeAt_eq hpos hbytes]
  exact List.take_left' (by simp [hpos])

theorem drop_writeAt {content bytes : Bytes} {pos : Nat} (hpos : pos ≤ content.length)
    (hbytes : bytes ≠ []) (n : Nat) :
    (writeAt content pos bytes).drop (pos + bytes.length + n) =
      content.drop (pos + bytes.length + n) := by
  rw [writeAt_eq hpos hbytes, List.drop_append, List.drop_eq_nil_of_le (by simp; omega)]
  simp [hpos, Nat.add_assoc]

theorem le_length_writeAt {content bytes : Bytes} {pos : Nat} (hpos : pos ≤ content.length)
    (hbytes : bytes ≠ []) : pos + bytes.length ≤ (writeAt content pos bytes).length := by
  rw [writeAt_eq hpos hbytes]
  simp only [List.length_append, List.length_take]
  omega

section Parts

variable {checked : Bool} {buf : Nat} {env : FileEnv} {k : Nat} {rest : Bytes}

theorem Delivers.eq_nil (hd : Delivers checked buf env k rest) (hbuf : 0 < buf)
    (hnil : rest.take (min (env.reads k).toNat buf) = []) : rest = [] := by
  have hempty : 0 < env.reads k → rest = [] := by
    intro hread
    rcases List.take_eq_nil_iff.mp hnil with h0 | hrest
    · omega
    · exact hrest
  cases hd with
  | done => rfl
  | stopped hread _ => exact hempty hread
  | part hread _ _ => exact hempty hread

theorem Delivers.whole (hd : Delivers checked buf env k rest) {check : Int → Int → Check}
    (hcheck : checked = true → Checks check) {chunk : Bytes}
    (hchunk : rest.take (min (env.reads k).toNat buf) = chunk) (hne : chunk ≠ [])
    (hgoOn : check chunk.length (min (env.writes k) chunk.length) = .goOn)
    (hcancel : env.cancelDuring k ≠ true) :
    min (env.writes k) (chunk.length : Int) = chunk.length ∧
      Delivers checked buf env (k + 1) (rest.drop (min (env.reads k).toNat buf)) := by
  cases hd with
  | done =>
    rw [List.take_nil] at hchunk
    exact absurd hchunk.symm hne
  | stopped _ stop =>
    rcases stop with ⟨hc, hshort⟩ | hcanceled
    · rw [hchunk] at hshort
      have := hcheck hc _ _ hgoOn
      omega
    · exact absurd hcanceled hcancel
  | part _ write next =>
    refine ⟨?_, next⟩
    rcases write with hc | hwrite
    · exact hcheck hc _ _ hgoOn
    · rw [hchunk] at hwrite
      omega

theorem copyLoop_ended {check : Int → Int → Check} (hbuf : 0 < buf)
    (hcheck : checked = true → Checks check) {fuel pos : Nat} {out out' : Bytes}
    (hd : Delivers checked buf env k rest) (hpos : pos ≤ out.length)
    (h : copyLoop check buf env fuel k rest out pos = some (out', .ended)) :
    out' = out.take pos ++ rest ++ out.drop (pos + rest.length) := by
  induction fuel generalizing k rest out pos with
  | zero => cases h
  | succ fuel ih =>
    simp only [copyLoop] at h
    generalize hchunk : rest.take (min (env.reads k).toNat buf) = chunk at h
    split at h
    · next hnil =>
      obtain ⟨rfl, -⟩ := Prod.mk.inj (Option.some.inj h)
      simp [hd.eq_nil hbuf (hchunk.trans hnil)]
    · next hne =>
      split at h
      · cases h
      · cases h
      · next hgoOn =>
        split at h
        · cases h
        · next hcancel =>
          obtain ⟨hfull, next⟩ := hd.whole hcheck hchunk hne hgoOn hcancel
          have hrest : rest = chunk ++ rest.drop (min (env.reads k).toNat buf) := by
            rw [← hchunk, List.take_append_drop]
          generalize rest.drop (min (env.reads k).toNat buf) = rest' at h next hrest
          rw [hfull, Int.toNat_natCast, List.take_length] at h
          calc out'
            _ = (writeAt out pos chunk).take (pos + chunk.length) ++ rest' ++
                  (writeAt out pos chunk).drop (pos + chunk.length + rest'.length) :=
                ih next (le_length_writeAt hpos hne) h
            _ = out.take pos ++ chunk ++ rest' ++ out.drop (pos + chunk.length + rest'.length) := by
                rw [take_writeAt hpos hne, drop_writeAt hpos hne]
            _ = out.take pos ++ rest ++ out.drop (pos + rest.length) := by
                rw [hrest]
                simp [Nat.add_assoc]

end Parts

/-! ## What a routine only adds to -/

/-- An error, a cancellation and what was called stay. -/
structure Extends (s s' : State (World τ)) : Prop where
  error : s'.errorCode = 0 → s.errorCode = 0
  canceled : s'.userCanceled = false → s.userCanceled = false
  calls : s.calls <+: s'.calls
  turns : s'.world.turns = s.world.turns

namespace Extends

variable {s s' t : State (World τ)}

theorem refl (s : State (World τ)) : Extends s s := ⟨id, id, List.prefix_rfl, rfl⟩

theorem trans (h : Extends s t) (h' : Extends t s') : Extends s s' :=
  ⟨h.error ∘ h'.error, h.canceled ∘ h'.canceled, h.calls.trans h'.calls, h'.turns.trans h.turns⟩

theorem called (s : State (World τ)) (c : Call) : Extends s (s.called c) :=
  ⟨id, id, List.prefix_append _ _, rfl⟩

theorem cancelIf (s : State (World τ)) (b : Bool) : Extends s (s.cancelIf b) :=
  ⟨id, fun h => (Bool.or_eq_false_iff.mp h).1, List.prefix_rfl, rfl⟩

theorem setFile (s : State (World τ)) (path : QString) (content : Bytes) :
    Extends s (s.setFile path content) := ⟨id, id, List.prefix_rfl, rfl⟩

theorem fail (s : State (World τ)) {code : Int} (hcode : code ≠ 0) (text : String) :
    Extends s (s.fail code text) := ⟨fun h => absurd h hcode, id, List.prefix_rfl, rfl⟩

theorem openFailed (s : State (World τ)) {code : Int} (hcode : code ≠ 0) :
    Extends s (openFailed s code) := by
  unfold Transportor.openFailed
  split
  · exact fail s (by decide) _
  · exact fail s hcode _

theorem askUser (env : FileEnv) (file other : QString) (s : State (World τ)) :
    Extends s (askUser env file other s) := by
  unfold Transportor.askUser
  split
  · refine (called s (.destFileExists file other env.answer)).trans ?_
    unfold userResponseResult
    split
    · exact ⟨id, fun h => Bool.noConfusion h, List.prefix_rfl, rfl⟩
    · exact ⟨id, id, List.prefix_rfl, rfl⟩
  · exact refl s

theorem obey (s : State (World τ)) : Extends s (obey s).2 := by
  unfold Transportor.obey
  split
  · exact refl s
  · split
    · exact refl s
    · split
      · exact ⟨id, fun h => Bool.noConfusion h, List.prefix_rfl, rfl⟩
      · exact refl s

theorem conflict (env : FileEnv) (file other : QString) (s : State (World τ)) :
    Extends s (conflict env file other s).2 := by
  unfold Transportor.conflict
  split
  · exact cancelIf s _
  · exact ((askUser env file other s).trans (cancelIf _ _)).trans (obey _)

theorem afterCopy (path : QString) (s : State (World τ)) (r : Bytes × CopyEnd) :
    Extends s (afterCopy path s r) := by
  obtain ⟨out, e⟩ := r
  cases e with
  | ended => exact setFile s path out
  | quota => exact (setFile s path out).trans (fail _ (by decide) _)
  | canceled => exact (setFile s path out).trans (cancelIf _ _)

end Extends

/-! ## Answers that let a file be overwritten -/

/-- The answer keeps what the destination has, or a part of it. -/
def Overwrite.keepsOld : Overwrite → Bool
  | .no | .noAll | .cancel | .resume => true
  | .unknown | .yes | .yesAll => false

/-- No question was answered so. -/
def NoneKept (calls : List Call) : Prop :=
  ∀ file other answer, .destFileExists file other answer ∈ calls → answer.keepsOld = false

theorem NoneKept.of_prefix {l l' : List Call} (h : NoneKept l') (hl : l <+: l') : NoneKept l :=
  fun file other answer ha => h file other answer (hl.subset ha)

theorem askUser_method {env : FileEnv} {file other : QString} {s : State (World τ)}
    (hm : s.fileConflictResolveMethod.keepsOld = false)
    (hkept : NoneKept (askUser env file other s).calls) :
    (askUser env file other s).fileConflictResolveMethod.keepsOld = false ∧
      (askUser env file other s).world = s.world := by
  unfold askUser at hkept ⊢
  split
  · next hasks =>
    rw [if_pos hasks] at hkept
    unfold userResponseResult at hkept ⊢
    split
    · exact ⟨hm, rfl⟩
    · next hne =>
      rw [if_neg hne] at hkept
      exact ⟨hkept file other env.answer (by simp [State.called]), rfl⟩
  · exact ⟨hm, rfl⟩

theorem obey_goOn {s : State (World τ)} (hm : s.fileConflictResolveMethod.keepsOld = false)
    (hcancel : (obey s).2.userCanceled = false) : obey s = (true, s) := by
  have hs : s.userCanceled = false := (Extends.obey s).canceled hcancel
  unfold obey
  cases hmethod : s.fileConflictResolveMethod <;> simp [hmethod, Overwrite.keepsOld] at hm <;>
    simp [hs]

theorem conflict_goOn {env : FileEnv} {file other : QString} {s : State (World τ)}
    (hm : s.fileConflictResolveMethod.keepsOld = false)
    (hcancel : (conflict env file other s).2.userCanceled = false)
    (hkept : NoneKept (conflict env file other s).2.calls) :
    (conflict env file other s).1 = true ∧
      (conflict env file other s).2.fileConflictResolveMethod.keepsOld = false ∧
      (conflict env file other s).2.world = s.world := by
  unfold conflict at hcancel hkept ⊢
  split
  · next h => rw [if_pos h, h] at hcancel; cases hcancel
  · next h =>
    rw [if_neg h] at hcancel hkept
    have hcalls := hkept.of_prefix (Extends.obey _).calls
    obtain ⟨hmethod, hworld⟩ := askUser_method hm hcalls
    rw [obey_goOn (s := (askUser env file other s).cancelIf env.cancelAfter) hmethod hcancel]
    exact ⟨rfl, hmethod, hworld⟩

/-! ## The routine for one file -/

inductive Member where
  | fileToSftp | sftpToFile | sftpToSftp | ftpToFile
  deriving DecidableEq

def Member.routine (m : Member) (env : FileEnv) (source : QString → Bytes) :
    QString → QString → State (World τ) → Option (State (World τ)) :=
  match m with
  | .fileToSftp => runFileToSftpFile env source
  | .sftpToFile => runSftpToFileFile env source
  | .sftpToSftp => runSftpToSftpFile env source
  | .ftpToFile => runFtpToFileFile env source

/-- What the calls have to return for a file with this content, when the destination had
`before`: nothing goes wrong that the routine passes over. -/
def Faithful (m : Member) (env : FileEnv) (content : Bytes) (before : Option Bytes) : Prop :=
  match m with
  | .fileToSftp =>
    -- A failed open whose error number is 0 counts as no error.
    env.destOpenError ≠ some 0 ∧
      (env.destOpenError = none → env.localOpen = true ∧ Delivers true 5120 env 0 content)
  | .sftpToFile =>
    env.srcOpenError = none → env.localOpen = true ∧ Delivers false 8192 env 0 content
  | .sftpToSftp =>
    env.srcOpenError = none →
      (env.destOpenError = none → Delivers true 5120 env 0 content) ∧
      -- The first write shows that the destination is not open.
      (env.destOpenError ≠ none → content ≠ [] ∧ 0 < env.reads 0)
  | .ftpToFile =>
    -- What is longer than the new content stays at its end.
    (before.getD []).length ≤ content.length ∧ Delivers true 8192 env 0 content

variable {env : FileEnv} {source : QString → Bytes} {src dest : QString} {s s' : State (World τ)}

theorem setFile_setFile (w : World τ) (path : QString) (a b : Bytes) :
    (w.setFile path a).setFile path b = w.setFile path b := by
  simp only [World.setFile, World.mk.injEq, and_true]
  funext key
  split <;> rfl

theorem copyParts_ended {check : Int → Int → Check} {buf : Nat} {rest out : Bytes} {pos : Nat}
    {s s' : State (World τ)}
    (h : (copyParts check buf env rest out pos).map (afterCopy dest s) = some s')
    (herror : s'.errorCode = 0) (hcancel : s'.userCanceled = false) :
    ∃ out', copyParts check buf env rest out pos = some (out', .ended) ∧
      s' = s.setFile dest out' := by
  obtain ⟨⟨out', e⟩, hparts, rfl⟩ := Option.map_eq_some_iff.mp h
  cases e with
  | ended => exact ⟨out', hparts, rfl⟩
  | quota => cases herror
  | canceled => simp [afterCopy, State.cancelIf] at hcancel

theorem openFailed_errorCode {code : Int} (hcode : code ≠ 0) : (openFailed s code).errorCode ≠ 0 := by
  unfold openFailed
  split
  · exact fun h => absurd h (by decide : fxPermissionDenied ≠ 0)
  · exact hcode

theorem resume_of_keepsOld (hm : s.fileConflictResolveMethod.keepsOld = false) :
    decide (s.fileConflictResolveMethod = .resume) = false := by
  cases hmethod : s.fileConflictResolveMethod <;> simp [hmethod, Overwrite.keepsOld] at hm ⊢

theorem destOpenError_ne_zero (hf : env.destOpenError ≠ some 0) {create : Bool}
    {old : Option Bytes} {code : Int} (h : destOpenError env create old = some code) : code ≠ 0 := by
  rintro rfl
  unfold destOpenError at h
  split at h
  · next c hc => exact hf (hc.trans h)
  · split at h
    · cases h
    · cases h

theorem destOpenError_create {old : Option Bytes} (h : destOpenError env true old = none) :
    env.destOpenError = none := by
  unfold destOpenError at h
  split at h
  · cases h
  · assumption

theorem opened_extends (s : State (World τ)) (dest : QString) (out : Bytes) :
    Extends s ((s.called (.openForWriting dest)).setFile dest out) :=
  (Extends.called s _).trans (Extends.setFile _ dest out)

theorem sendFile_extends (hf : env.destOpenError ≠ some 0) {destExists : Bool}
    (h : sendFile env source src dest destExists s = some s') : Extends s s' := by
  simp only [sendFile] at h
  split at h
  · next code hc =>
    obtain rfl := Option.some.inj h
    exact Extends.openFailed s (destOpenError_ne_zero hf hc)
  · split at h
    · obtain ⟨r, -, rfl⟩ := Option.map_eq_some_iff.mp h
      exact (opened_extends s dest _).trans (Extends.afterCopy dest _ r)
    · obtain rfl := Option.some.inj h
      exact opened_extends s dest _

theorem sendFile_copies (hf : env.destOpenError ≠ some 0)
    (hdelivers : env.destOpenError = none →
      env.localOpen = true ∧ Delivers true 5120 env 0 (source src))
    (hm : s.fileConflictResolveMethod.keepsOld = false) {destExists : Bool}
    (h : sendFile env source src dest destExists s = some s')
    (herror : s'.errorCode = 0) (hcancel : s'.userCanceled = false) :
    s'.world = s.world.setFile dest (source src) ∧
      s'.fileConflictResolveMethod = s.fileConflictResolveMethod := by
  simp only [sendFile, resume_of_keepsOld hm] at h
  split at h
  · next code hc =>
    obtain rfl := Option.some.inj h
    exact absurd herror (openFailed_errorCode (destOpenError_ne_zero hf hc))
  · next hopen =>
    obtain ⟨hlocal, hdelivers⟩ := hdelivers (destOpenError_create hopen)
    rw [if_pos hlocal] at h
    obtain ⟨out, hparts, rfl⟩ := copyParts_ended h herror hcancel
    have hout := copyLoop_ended (by decide) (fun _ => checks_sftp) hdelivers (Nat.zero_le _) hparts
    have hall : out = source src := by simpa using hout
    rw [hall]
    exact ⟨setFile_setFile _ _ _ _, rfl⟩

theorem fetchFile_extends (h : fetchFile env source src dest s = some s') : Extends s s' := by
  simp only [fetchFile] at h
  split at h
  · obtain ⟨r, -, rfl⟩ := Option.map_eq_some_iff.mp h
    exact (opened_extends s dest _).trans (Extends.afterCopy dest _ r)
  · obtain rfl := Option.some.inj h
    exact Extends.refl s

theorem fetchFile_copies (hlocal : env.localOpen = true)
    (hdelivers : Delivers false 8192 env 0 (source src))
    (hm : s.fileConflictResolveMethod.keepsOld = false)
    (h : fetchFile env source src dest s = some s')
    (herror : s'.errorCode = 0) (hcancel : s'.userCanceled = false) :
    s'.world = s.world.setFile dest (source src) ∧
      s'.fileConflictResolveMethod = s.fileConflictResolveMethod := by
  simp only [fetchFile, resume_of_keepsOld hm, hlocal, if_true] at h
  obtain ⟨out, hparts, rfl⟩ := copyParts_ended h herror hcancel
  have hout := copyLoop_ended (by decide) (fun h => by cases h) hdelivers (Nat.zero_le _) hparts
  have hall : out = source src := by simpa using hout
  rw [hall]
  exact ⟨setFile_setFile _ _ _ _, rfl⟩

theorem asked_extends {file other : QString} {ask : Bool}
    {next : State (World τ) → Option (State (World τ))}
    (hnext : ∀ t, next t = some s' → Extends t s')
    (h : (if (if ask then conflict env file other s else (true, s)).1 then
        next (if ask then conflict env file other s else (true, s)).2
      else some (if ask then conflict env file other s else (true, s)).2) = some s') :
    Extends s s' := by
  have hasked : Extends s (if ask then conflict env file other s else (true, s)).2 := by
    split
    · exact Extends.conflict env file other s
    · exact Extends.refl s
  generalize (if ask then conflict env file other s else (true, s)) = r at h hasked
  split at h
  · exact hasked.trans (hnext _ h)
  · obtain rfl := Option.some.inj h
    exact hasked

theorem asked_goOn {file other : QString} {ask : Bool}
    {next : State (World τ) → Option (State (World τ))}
    (hnext : ∀ t, next t = some s' → Extends t s')
    (hm : s.fileConflictResolveMethod.keepsOld = false)
    (hcancel : s'.userCanceled = false) (hkept : NoneKept s'.calls)
    (h : (if (if ask then conflict env file other s else (true, s)).1 then
        next (if ask then conflict env file other s else (true, s)).2
      else some (if ask then conflict env file other s else (true, s)).2) = some s') :
    ∃ t, next t = some s' ∧ t.world = s.world ∧
      t.fileConflictResolveMethod.keepsOld = false := by
  cases ask with
  | false => exact ⟨s, by simpa using h, rfl, hm⟩
  | true =>
    simp only [if_true] at h
    have hextends : Extends (conflict env file other s).2 s' := by
      split at h
      · exact hnext _ h
      · obtain rfl := Option.some.inj h
        exact Extends.refl _
    obtain ⟨hgo, hmethod, hworld⟩ := conflict_goOn hm (hextends.canceled hcancel)
      (hkept.of_prefix hextends.calls)
    rw [if_pos hgo] at h
    exact ⟨_, h, hworld, hmethod⟩

theorem routine_extends {m : Member} (hf : Faithful m env (source src) (s.destFile dest))
    (h : m.routine env source src dest s = some s') : Extends s s' := by
  cases m with
  | fileToSftp => exact asked_extends (fun t ht => sendFile_extends hf.1 ht) h
  | sftpToFile =>
    simp only [Member.routine, runSftpToFileFile] at h
    split at h
    · obtain rfl := Option.some.inj h
      refine Extends.openFailed s ?_
      split
      · next hcode => rw [hcode]; decide
      · decide
    · exact asked_extends (fun t ht => fetchFile_extends ht) h
  | sftpToSftp =>
    simp only [Member.routine, runSftpToSftpFile] at h
    split at h
    · cases h
    · split at h
      · obtain rfl := Option.some.inj h
        exact Extends.refl s
      · cases h
    · obtain ⟨r, -, rfl⟩ := Option.map_eq_some_iff.mp h
      exact (opened_extends s dest _).trans (Extends.afterCopy dest _ r)
  | ftpToFile =>
    simp only [Member.routine, runFtpToFileFile] at h
    split at h
    · obtain ⟨r, -, rfl⟩ := Option.map_eq_some_iff.mp h
      exact (opened_extends s dest _).trans (Extends.afterCopy dest _ r)
    · cases h

theorem routine_copies {m : Member} (hf : Faithful m env (source src) (s.destFile dest))
    (h : m.routine env source src dest s = some s')
    (hm : s.fileConflictResolveMethod.keepsOld = false) (herror : s'.errorCode = 0)
    (hcancel : s'.userCanceled = false) (hkept : NoneKept s'.calls) :
    s'.world = s.world.setFile dest (source src) ∧
      s'.fileConflictResolveMethod.keepsOld = false := by
  cases m with
  | fileToSftp =>
    obtain ⟨t, ht, hworld, hmethod⟩ :=
      asked_goOn (fun t ht => sendFile_extends hf.1 ht) hm hcancel hkept h
    obtain ⟨hs', hm'⟩ := sendFile_copies hf.1 hf.2 hmethod ht herror hcancel
    rw [hs', hm', hworld]
    exact ⟨rfl, hmethod⟩
  | sftpToFile =>
    simp only [Member.routine, runSftpToFileFile] at h
    split at h
    · obtain rfl := Option.some.inj h
      refine absurd herror (openFailed_errorCode ?_)
      split
      · next hcode => rw [hcode]; decide
      · decide
    · next hopen =>
      obtain ⟨t, ht, hworld, hmethod⟩ :=
        asked_goOn (fun t ht => fetchFile_extends ht) hm hcancel hkept h
      obtain ⟨hlocal, hdelivers⟩ := hf hopen
      obtain ⟨hs', hm'⟩ := fetchFile_copies hlocal hdelivers hmethod ht herror hcancel
      rw [hs', hm', hworld]
      exact ⟨rfl, hmethod⟩
  | sftpToSftp =>
    simp only [Member.routine, runSftpToSftpFile] at h
    split at h
    · cases h
    · next hsrc hdest =>
      obtain ⟨hne, hread⟩ := (hf hsrc).2 (by simp [hdest])
      split at h
      · next hnil =>
        rcases List.take_eq_nil_iff.mp hnil with h0 | h0
        · omega
        · exact absurd h0 hne
      · cases h
    · next hsrc hdest =>
      obtain ⟨out, hparts, rfl⟩ := copyParts_ended h herror hcancel
      have hout := copyLoop_ended (by decide) (fun _ => checks_sftp) ((hf hsrc).1 hdest)
        (Nat.zero_le _) hparts
      have hall : out = source src := by simpa using hout
      rw [hall]
      exact ⟨setFile_setFile _ _ _ _, hm⟩
  | ftpToFile =>
    simp only [Member.routine, runFtpToFileFile] at h
    split at h
    · obtain ⟨out, hparts, rfl⟩ := copyParts_ended h herror hcancel
      have hout := copyLoop_ended (by decide) (fun _ => checks_assert) hf.2 (Nat.zero_le _) hparts
      have hall : out = source src := by simpa [List.drop_eq_nil_of_le hf.1] using hout
      rw [hall]
      exact ⟨setFile_setFile _ _ _ _, hm⟩
    · cases h

/-! ## Whole runs -/

/-- The hosts of all four loops, and what connecting to them returns. -/
structure Hosts (τ : Type) where
  connect : τ → Option QString × τ
  disk : LocalDisk τ
  sftpSrc : SftpHost τ
  sftpDest : SftpHost τ
  ftp : FtpHost τ

def Member.loop (m : Member) (source : QString → Bytes) (env : Nat → FileEnv) (hosts : Hosts τ) :
    Loop (World τ) :=
  match m with
  | .fileToSftp => loopFileToSftp source env hosts.connect hosts.disk hosts.sftpDest
  | .sftpToFile => loopSftpToFile source env hosts.connect hosts.sftpSrc hosts.disk
  | .sftpToSftp => loopSftpToSftp source env hosts.connect hosts.sftpSrc hosts.sftpDest
  | .ftpToFile => loopFtpToFile source env hosts.connect hosts.ftp hosts.disk

theorem Member.loop_copyFile (m : Member) (source : QString → Bytes) (env : Nat → FileEnv)
    (hosts : Hosts τ) :
    (m.loop source env hosts).copyFile = takeTurn (m.routine · source) env := by
  cases m <;> rfl

theorem Member.loop_keeps (m : Member) (source : QString → Bytes) (env : Nat → FileEnv)
    (hosts : Hosts τ) : (m.loop source env hosts).Keeps := by
  cases m with
  | fileToSftp => exact keeps_fileToSftp source env _ _ _
  | sftpToFile => exact keeps_sftpToFile source env _ _ _
  | sftpToSftp => exact keeps_sftpToSftp source env _ _ _
  | ftpToFile => exact keeps_ftpToFile source env _ _ _

/-- The run has no error, was not cancelled, and no answer kept an old file. -/
structure Clean (s : State (World τ)) : Prop where
  error : s.errorCode = 0
  canceled : s.userCanceled = false
  answers : NoneKept s.calls

/-- Every file met calls that its routine can stand, and no two files with one target differ. -/
structure AllFaithful (m : Member) (source : QString → Bytes) (env : Nat → FileEnv)
    (turns : List Turn) : Prop where
  each : ∀ n t, turns[n]? = some t → Faithful m (env n) (source t.src) t.before
  apart : ∀ t ∈ turns, ∀ t' ∈ turns, components t.dest = components t'.dest →
    source t.src = source t'.src

theorem AllFaithful.init {m : Member} {source : QString → Bytes} {env : Nat → FileEnv}
    {turns : List Turn} {t : Turn} (h : AllFaithful m source env (turns ++ [t])) :
    AllFaithful m source env turns := by
  refine ⟨fun n u hn => h.each n u ?_, fun u hu u' hu' => h.apart u ?_ u' ?_⟩
  · have hlt := (List.getElem?_eq_some_iff.mp hn).1
    rw [List.getElem?_append_left hlt, hn]
  · exact List.mem_append_left _ hu
  · exact List.mem_append_left _ hu'

/-- Every file so far was copied. -/
def CopiesGood (m : Member) (source : QString → Bytes) (env : Nat → FileEnv)
    (s : State (World τ)) : Prop :=
  Clean s → AllFaithful m source env s.world.turns →
    s.fileConflictResolveMethod.keepsOld = false ∧
      ∀ t ∈ s.world.turns, s.world.dest (components t.dest) = some (source t.src)

theorem takeTurn_good {m : Member} {source : QString → Bytes} {env : Nat → FileEnv}
    {src dest : QString} {s s' : State (World τ)}
    (h : takeTurn (m.routine · source) env src dest s = some s')
    (hs : CopiesGood m source env s) : CopiesGood m source env s' := by
  obtain ⟨u, hu, rfl⟩ := Option.map_eq_some_iff.mp h
  intro hclean hfaithful
  have hf : Faithful m (env s.world.turns.length) (source src) (s.destFile dest) :=
    hfaithful.each s.world.turns.length _ List.getElem?_concat_length
  have hext := routine_extends hf hu
  -- What is clean now was clean before, so the earlier files are copied.
  have hbefore : Clean s := ⟨hext.error hclean.error, hext.canceled hclean.canceled,
    hclean.answers.of_prefix hext.calls⟩
  obtain ⟨hmethod, hcopied⟩ := hs hbefore hfaithful.init
  obtain ⟨hworld, hmethod'⟩ :=
    routine_copies hf hu hmethod hclean.error hclean.canceled hclean.answers
  refine ⟨hmethod', fun t ht => ?_⟩
  have hkey : ∀ key, u.world.dest key =
      if key = components dest then some (source src) else s.world.dest key := by
    rw [hworld]
    exact fun _ => rfl
  rw [hkey]
  split
  · next hsame =>
    exact congrArg some (hfaithful.apart _ (List.mem_append_right _ List.mem_cons_self) t ht
      hsame.symm)
  · next hother =>
    rcases List.mem_append.mp ht with ht | ht
    · exact hcopied t ht
    · obtain rfl := List.mem_singleton.mp ht
      exact absurd rfl hother

theorem copiesGood_invariant (m : Member) (source : QString → Bytes) (env : Nat → FileEnv)
    (hosts : Hosts τ) : (m.loop source env hosts).Invariant (CopiesGood m source env) where
  queue s ready done hs := fun hclean => hs ⟨hclean.error, hclean.canceled, hclean.answers⟩
  called s c hc hs := fun hclean => hs ⟨hclean.error, hclean.canceled,
    hclean.answers.of_prefix (List.prefix_append _ _)⟩
  world s w hw hs := by
    intro hclean hfaithful
    rw [hw.2] at hfaithful
    have := hs ⟨hclean.error, hclean.canceled, hclean.answers⟩ hfaithful
    rwa [← hw.1, ← hw.2] at this
  error s code text hcode hs := fun hclean => absurd hclean.error hcode
  copy src dest s s' h hs := by
    rw [m.loop_copyFile source env hosts] at h
    exact takeTurn_good h hs

/-- **No silent corruption**, in the runs whose calls the routines can stand. -/
theorem copies_have_source_bytes {τ : Type} (m : Member) (source : QString → Bytes)
    (env : Nat → FileEnv) (hosts : Hosts τ) (srcPkg destPkg : TaskPackage)
    (before : List QString → Option Bytes) (h₀ : τ) (fuel : Nat) (s : State (World τ))
    (hrun : (m.loop source env hosts).run fuel
      (setTransportInfo srcPkg destPkg (State.new ⟨before, [], h₀⟩)) = some s)
    (hclean : Clean s) (hfaithful : AllFaithful m source env s.world.turns) :
    ∀ t ∈ s.world.turns, s.world.dest (components t.dest) = some (source t.src) := by
  have hgood := (copiesGood_invariant m source env hosts).run (m.loop_keeps source env hosts) hrun
    fun _ _ => ⟨rfl, fun t ht => absurd ht List.not_mem_nil⟩
  exact (hgood hclean hfaithful).2

/-! ## A run -/

/-- Everything succeeds, and a question is answered with yes. -/
def goodEnv : FileEnv :=
  ⟨false, none, none, true, true, fun _ => 8192, fun _ => 8192, .yes, false, false, fun _ => false⟩

/-- Hosts with files at the source and directories at the destination. -/
def Member.fileHosts (m : Member) : Hosts Unit where
  connect _ := (none, ())
  disk := ⟨fun _ _ => (some (if m = .fileToSftp then .reg else .dir), ()), fun _ _ => (none, ()),
    fun _ _ => (true, ())⟩
  sftpSrc := ⟨fun _ _ => (some .reg, ()), fun _ _ => (none, ()), fun _ _ => (true, ())⟩
  sftpDest := ⟨fun _ _ => (some .dir, ()), fun _ _ => (none, ()), fun _ _ => (true, ())⟩
  ftp := ⟨fun _ _ => (false, ()), fun _ _ => (none, ()), fun _ _ => (true, ())⟩

def uploadFrom (source : QString → Bytes) (env : FileEnv) : Option (State (World Unit)) :=
  (Member.fileToSftp.loop source (fun _ => env) (Member.fileHosts .fileToSftp)).run 2
    (setTransportInfo ⟨1, ["/f".toList], [], [], [], [], []⟩ ⟨2, ["/d".toList], [], [], [], [], []⟩
      (State.new ⟨fun _ => none, [], ()⟩))

def uploadCalls : List Call :=
  [.newFileStarted "/f".toList "/d".toList, .copy "/f".toList "/d/f".toList,
    .openForWriting "/d/f".toList]

def uploadTurn (content : Bytes) : Turn :=
  ⟨"/f".toList, "/d/f".toList, none, [.openForWriting "/d/f".toList], some content⟩

def isUpload (content : Bytes) (s : State (World Unit)) : Bool :=
  s.errorCode = 0 && !s.userCanceled && s.calls = uploadCalls &&
    s.world.turns = [uploadTurn content] && s.world.dest ["d".toList, "f".toList] = some content

theorem isUpload_clean {content : Bytes} {s : State (World Unit)} (h : isUpload content s = true) :
    Clean s ∧ s.world.turns = [uploadTurn content] ∧
      s.world.dest ["d".toList, "f".toList] = some content := by
  simp only [isUpload, Bool.and_eq_true, decide_eq_true_eq, Bool.not_eq_true'] at h
  obtain ⟨⟨⟨⟨herror, hcancel⟩, hcalls⟩, hturns⟩, hdest⟩ := h
  refine ⟨⟨herror, hcancel, ?_⟩, hturns, hdest⟩
  intro file other answer hmem
  rw [hcalls] at hmem
  simp [uploadCalls] at hmem

theorem copies_have_source_bytes_upload :
    ∃ s, uploadFrom (fun _ => [1, 2, 3]) goodEnv = some s ∧
      ∀ t ∈ s.world.turns, s.world.dest (components t.dest) = some [1, 2, 3] := by
  have hrun : (uploadFrom (fun _ => [1, 2, 3]) goodEnv).any (isUpload [1, 2, 3]) = true := by decide
  obtain ⟨s, hs, htest⟩ := (Option.any_eq_true _ _).mp hrun
  obtain ⟨hclean, hturns, -⟩ := isUpload_clean htest
  refine ⟨s, hs, copies_have_source_bytes .fileToSftp (fun _ => [1, 2, 3]) (fun _ => goodEnv)
    (Member.fileHosts .fileToSftp) _ _ _ _ 2 s hs hclean ⟨fun n t _ => ?_, fun _ _ _ _ _ => rfl⟩⟩
  exact ⟨by decide, fun _ => ⟨rfl, .part (by decide) (.inl rfl) .done⟩⟩

theorem upload_of_unreadable_file :
    ∃ s, uploadFrom (fun _ => [1, 2, 3]) { goodEnv with localOpen := false } = some s ∧ Clean s ∧
      ∃ t ∈ s.world.turns, s.world.dest (components t.dest) ≠ some [1, 2, 3] := by
  -- The local file does not open: the destination is left empty, and there is no error.
  have hrun : (uploadFrom (fun _ => [1, 2, 3]) { goodEnv with localOpen := false }).any
      (isUpload []) = true := by decide
  obtain ⟨s, hs, htest⟩ := (Option.any_eq_true _ _).mp hrun
  obtain ⟨hclean, hturns, hdest⟩ := isUpload_clean htest
  refine ⟨s, hs, hclean, uploadTurn [], by simp [hturns], ?_⟩
  have hkey : components (uploadTurn []).dest = ["d".toList, "f".toList] := by decide
  rw [hkey, hdest]
  decide

end NullFxp.Transportor
