import Mathlib.Data.List.Induction
import NullFxp.Transportor.Answers

/-!
# The answers over a whole run

A run on a sequence of files as the list of its turns. Each turn is a verdict on the answer
that was given last.
-/

namespace NullFxp.Transportor

def Turn.answer (t : Turn) : Option Overwrite := answerIn t.calls

/-- The last answer in these turns. -/
def methodAfter (turns : List Turn) : Overwrite :=
  turns.foldl (fun method t => t.answer.getD method) .unknown

theorem methodAfter_concat (l : List Turn) (t : Turn) :
    methodAfter (l ++ [t]) = t.answer.getD (methodAfter l) := by
  simp [methodAfter]

theorem existingVerdict_answer (content old : Bytes) (asked : Option Overwrite)
    (method : Overwrite) : (existingVerdict content old asked method).answer = asked := by
  cases method <;> rfl

theorem existingVerdict_method (content old : Bytes) (asked : Option Overwrite)
    (method : Overwrite) : (existingVerdict content old asked method).method = method := by
  cases method <;> rfl

theorem existingVerdict_stops {content old : Bytes} {asked : Option Overwrite}
    {method : Overwrite} : (existingVerdict content old asked method).stops = true ↔
      method = .noAll := by
  cases method <;> simp [existingVerdict]

theorem verdict_method (m : Member) (content : Bytes) (method answer : Overwrite)
    (before : Option Bytes) :
    (verdict m content method answer before).method =
      (verdict m content method answer before).answer.getD method := by
  cases before with
  | none => rfl
  | some old =>
    rw [verdict]
    split
    · rw [existingVerdict_answer, existingVerdict_method, Option.getD_some]
    · rw [existingVerdict_answer, existingVerdict_method, Option.getD_none]

theorem verdict_stops {m : Member} {content : Bytes} {method answer : Overwrite}
    {before : Option Bytes} :
    (verdict m content method answer before).stops = true ↔
      before ≠ none ∧ (verdict m content method answer before).method = .noAll := by
  cases before with
  | none => simp [verdict]
  | some old =>
    rw [verdict]
    split <;> simp [existingVerdict_stops, existingVerdict_method]

/-- A turn is what the verdict says, when it comes after `earlier` and `given` is the answer to
a question. -/
structure TurnFits (m : Member) (source : QString → Bytes) (earlier : List Turn) (t : Turn)
    (given : Overwrite) : Prop where
  answer : t.answer = (verdict m (source t.src) (methodAfter earlier) given t.before).answer
  after : t.after = (verdict m (source t.src) (methodAfter earlier) given t.before).after

theorem TurnFits.method {m : Member} {source : QString → Bytes} {earlier : List Turn}
    {t : Turn} {given : Overwrite} (h : TurnFits m source earlier t given) :
    methodAfter (earlier ++ [t]) =
      (verdict m (source t.src) (methodAfter earlier) given t.before).method := by
  rw [methodAfter_concat, verdict_method, h.answer]

/-- The turns of a run on these files and targets. -/
structure Follows (m : Member) (source : QString → Bytes) (files : List (QString × QString))
    (turns : List Turn) : Prop where
  order : turns.map (fun t => (t.src, t.dest)) <+: files
  each : ∀ l₁ t l₂, turns = l₁ ++ t :: l₂ → ∃ given, TurnFits m source l₁ t given
  /-- Only `OW_NO_ALL` stops it, and at once. -/
  stops : ∀ l₁ t l₂, turns = l₁ ++ t :: l₂ → t.before ≠ none → methodAfter (l₁ ++ [t]) = .noAll →
    l₂ = []
  all : turns.length = files.length ∨
    ∃ l t, turns = l ++ [t] ∧ t.before ≠ none ∧ methodAfter turns = .noAll

/-! ## The run -/

section Run

variable {m : Member} {source : QString → Bytes} {env : Nat → FileEnv}

structure Going (m : Member) (source : QString → Bytes) (taken : List (QString × QString))
    (s : State (World Unit)) : Prop where
  order : s.world.turns.map (fun t => (t.src, t.dest)) = taken
  each : ∀ l₁ t l₂, s.world.turns = l₁ ++ t :: l₂ → ∃ given, TurnFits m source l₁ t given
  goesOn : ∀ l₁ t l₂, s.world.turns = l₁ ++ t :: l₂ → t.before ≠ none →
    methodAfter (l₁ ++ [t]) ≠ .noAll
  method : s.fileConflictResolveMethod = methodAfter s.world.turns
  canceled : s.userCanceled = false

theorem split_concat {α : Type} {l l₁ l₂ : List α} {a t : α} (h : l ++ [a] = l₁ ++ t :: l₂) :
    (l₁ = l ∧ t = a ∧ l₂ = []) ∨ ∃ l₂', l₂ = l₂' ++ [a] ∧ l = l₁ ++ t :: l₂' := by
  rcases List.eq_nil_or_concat l₂ with rfl | ⟨l₂', b, rfl⟩
  · have := List.append_inj' h rfl
    exact .inl ⟨this.1.symm, by simpa using this.2.symm, rfl⟩
  · rw [List.concat_eq_append, ← List.cons_append, ← List.append_assoc] at h
    have := List.append_inj' h rfl
    refine .inr ⟨l₂', ?_, this.1⟩
    rw [List.concat_eq_append]
    simpa using this.2.symm

theorem fileHosts_branch (hm : m = .fileToSftp ∨ m = .sftpToFile) (src dest : QString)
    (w : World Unit) :
    (m.loop source env m.fileHosts).branch src dest w = some (.file, w) := by
  rcases hm with rfl | rfl <;> rfl

structure Stepped (m : Member) (source : QString → Bytes) (src dest : QString)
    (s s' : State (World Unit)) (t : Turn) : Prop where
  turns : s'.world.turns = s.world.turns ++ [t]
  file : (t.src, t.dest) = (src, dest)
  fits : ∃ given, TurnFits m source s.world.turns t given
  method : s'.fileConflictResolveMethod = methodAfter (s.world.turns ++ [t])
  canceled : s'.userCanceled = true ↔
    t.before ≠ none ∧ methodAfter (s.world.turns ++ [t]) = .noAll

theorem takeTurn_stepped (hm : m = .fileToSftp ∨ m = .sftpToFile) (he : ∀ n, Succeeds (env n))
    (source : QString → Bytes) (s : State (World Unit))
    (hmethod : s.fileConflictResolveMethod = methodAfter s.world.turns)
    (hs : s.userCanceled = false) (src dest : QString) :
    ∃ s' t, takeTurn (m.routine · source) env src dest s = some s' ∧
      Stepped m source src dest s s' t ∧ s'.readyQueue = s.readyQueue := by
  obtain ⟨u, hu, htook⟩ :=
    routine_took hm (he s.world.turns.length) source src dest hs
  obtain ⟨calls, hcalls, hanswer⟩ := htook.answer
  have hdrop : u.calls.drop s.calls.length = calls := by rw [hcalls, List.drop_left]
  have hfits : TurnFits m source s.world.turns
      ⟨src, dest, s.destFile dest, u.calls.drop s.calls.length, u.destFile dest⟩
      (env s.world.turns.length).answer := by
    rw [hmethod] at hanswer htook
    exact ⟨by rw [Turn.answer, hdrop, hanswer], htook.file⟩
  refine ⟨_, _, congrArg (Option.map _) hu, ⟨rfl, rfl, ⟨_, hfits⟩, ?_, ?_⟩, htook.queue⟩
  · rw [hfits.method, ← hmethod]
    exact htook.method
  · rw [hfits.method, ← verdict_stops, ← hmethod]
    exact Bool.eq_iff_iff.mp htook.canceled

def filePair (srcPkg destPkg : TaskPackage) (f : QString × QString) : TaskPackage × TaskPackage :=
  (srcPkg.setFile f.1, destPkg.setFile f.2)

def fileTarget (f : QString × QString) : QString × QString := (f.1, childPath f.2 (lastPart f.1))

variable {srcPkg destPkg : TaskPackage}

theorem round_stepped (hm : m = .fileToSftp ∨ m = .sftpToFile) (he : ∀ n, Succeeds (env n))
    (source : QString → Bytes)
    {f : QString × QString} {rest : List (QString × QString)} {s : State (World Unit)}
    (hready : s.readyQueue = (f :: rest).map (filePair srcPkg destPkg))
    (hmethod : s.fileConflictResolveMethod = methodAfter s.world.turns)
    (hs : s.userCanceled = false) :
    ∃ s' t, (m.loop source env m.fileHosts).round s = some (.goOn s') ∧
      s'.readyQueue = rest.map (filePair srcPkg destPkg) ∧
      Stepped m source (fileTarget f).1 (fileTarget f).2 s s' t := by
  obtain ⟨src, dest⟩ := f
  have hconnect : (m.loop source env m.fileHosts).connect s.world = (none, s.world) := by
    rcases hm with rfl | rfl <;> rfl
  obtain ⟨u, t, hu, ht, hqueue⟩ := takeTurn_stepped hm he source
    ((s.called (.newFileStarted src dest)).called (.copy src (childPath dest (lastPart src))))
    hmethod hs src (childPath dest (lastPart src))
  have hprocess : (m.loop source env m.fileHosts).process (srcPkg.setFile src)
      (destPkg.setFile dest) src dest (s.called (.newFileStarted src dest)) = some u := by
    rw [Loop.process, fileHosts_branch hm, Option.bind_some, ← hu, ← m.loop_copyFile source env]
    rfl
  refine ⟨_, t, ((m.loop source env m.fileHosts).round_eq hready hconnect).trans
    (congrArg (Option.map _) hprocess), ?_, ⟨ht.turns, ht.file, ht.fits, ht.method, ht.canceled⟩⟩
  change u.readyQueue.tail = _
  rw [hqueue]
  change s.readyQueue.tail = _
  rw [hready, List.map_cons, List.tail_cons]

theorem Going.next {taken : List (QString × QString)} {f : QString × QString}
    {s s' : State (World Unit)} {t : Turn} (hs : Going m source taken s)
    (h : Stepped m source f.1 f.2 s s' t) (hgoesOn : s'.userCanceled = false) :
    Going m source (taken ++ [f]) s' := by
  have hnoAll : t.before ≠ none → methodAfter (s.world.turns ++ [t]) ≠ .noAll := by
    intro hb hn
    rw [h.canceled.mpr ⟨hb, hn⟩] at hgoesOn
    cases hgoesOn
  constructor
  case order => rw [h.turns, List.map_append, hs.order, List.map_singleton, h.file]
  case each =>
    intro l₁ u l₂ hsplit
    rw [h.turns] at hsplit
    rcases split_concat hsplit with ⟨rfl, rfl, rfl⟩ | ⟨l₂', -, hl⟩
    · exact h.fits
    · exact hs.each l₁ u l₂' hl
  case goesOn =>
    intro l₁ u l₂ hsplit
    rw [h.turns] at hsplit
    rcases split_concat hsplit with ⟨rfl, rfl, rfl⟩ | ⟨l₂', -, hl⟩
    · exact hnoAll
    · exact hs.goesOn l₁ u l₂' hl
  case method => rw [h.method, h.turns]
  case canceled => exact hgoesOn

theorem Going.follows {taken : List (QString × QString)} {s : State (World Unit)}
    (hs : Going m source taken s) : Follows m source taken s.world.turns where
  order := hs.order ▸ List.prefix_rfl
  each := hs.each
  stops l₁ t l₂ hsplit hb hn := absurd hn (hs.goesOn l₁ t l₂ hsplit hb)
  all := .inl (by rw [← hs.order, List.length_map])

theorem Going.follows_stopped {taken rest : List (QString × QString)} {f : QString × QString}
    {s s' : State (World Unit)} {t : Turn} (hs : Going m source taken s)
    (h : Stepped m source f.1 f.2 s s' t) (hstop : s'.userCanceled = true) :
    Follows m source (taken ++ f :: rest) s'.world.turns where
  order := by
    rw [h.turns, List.map_append, hs.order, List.map_singleton, h.file]
    exact ⟨rest, by simp⟩
  each := by
    intro l₁ u l₂ hsplit
    rw [h.turns] at hsplit
    rcases split_concat hsplit with ⟨rfl, rfl, rfl⟩ | ⟨l₂', -, hl⟩
    · exact h.fits
    · exact hs.each l₁ u l₂' hl
  stops := by
    intro l₁ u l₂ hsplit hb hn
    rw [h.turns] at hsplit
    rcases split_concat hsplit with ⟨-, -, rfl⟩ | ⟨l₂', -, hl⟩
    · rfl
    · exact absurd hn (hs.goesOn l₁ u l₂' hl hb)
  all := by
    obtain ⟨hb, hn⟩ := h.canceled.mp hstop
    exact .inr ⟨s.world.turns, t, h.turns, hb, h.turns ▸ hn⟩

theorem loop_follows (hm : m = .fileToSftp ∨ m = .sftpToFile) (he : ∀ n, Succeeds (env n))
    {taken rest : List (QString × QString)} {s : State (World Unit)}
    (hs : Going m source (taken.map fileTarget) s) (hne : rest ≠ [])
    (hready : s.readyQueue = rest.map (filePair srcPkg destPkg)) :
    ∃ s', (m.loop source env m.fileHosts).loop rest.length s = some s' ∧
      Follows m source ((taken ++ rest).map fileTarget) s'.world.turns := by
  induction rest generalizing taken s with
  | nil => exact absurd rfl hne
  | cons f rest ih =>
    obtain ⟨s', t, hround, hready', hstep⟩ :=
      round_stepped hm he source hready hs.method hs.canceled
    rw [List.length_cons, Loop.loop, hround, Option.bind_some]
    simp only [hready']
    by_cases hstop : s'.userCanceled = true
    · refine ⟨s', by simp [hstop], ?_⟩
      rw [List.map_append, List.map_cons]
      exact hs.follows_stopped hstep hstop
    · have hgoesOn : s'.userCanceled = false := by simpa using hstop
      have hnext := hs.next hstep hgoesOn
      have hgoing : Going m source ((taken ++ [f]).map fileTarget) s' := by
        rw [List.map_append, List.map_singleton]
        exact hnext
      by_cases hrest : rest = []
      · refine ⟨s', by simp [hrest], ?_⟩
        rw [hrest]
        exact hgoing.follows
      · obtain ⟨s'', hloop, hfollows⟩ := ih hgoing hrest hready'
        refine ⟨s'', by simp [hrest, hgoesOn, hloop], ?_⟩
        rw [List.append_assoc, List.singleton_append] at hfollows
        exact hfollows

/-- The sequence of files that `set_transport_info` queues. -/
def filesOf (srcPkg destPkg : TaskPackage) : List (QString × QString) :=
  srcPkg.files.flatMap fun src => destPkg.files.map fun dest => (src, dest)

/-- **A run on a sequence of files ends, and its turns are the verdicts on the answers.** -/
theorem run_follows (hm : m = .fileToSftp ∨ m = .sftpToFile) (he : ∀ n, Succeeds (env n))
    (source : QString → Bytes)
    (hne : filesOf srcPkg destPkg ≠ []) (before : List QString → Option Bytes) :
    ∃ fuel s, (m.loop source env m.fileHosts).run fuel
        (setTransportInfo srcPkg destPkg (State.new ⟨before, [], ()⟩)) = some s ∧
      Follows m source ((filesOf srcPkg destPkg).map fileTarget) s.world.turns := by
  have hready : (setTransportInfo srcPkg destPkg (State.new (⟨before, [], ()⟩ : World Unit))).readyQueue =
      (filesOf srcPkg destPkg).map (filePair srcPkg destPkg) := by
    simp [setTransportInfo, State.new, filesOf, filePair, List.map_flatMap, Function.comp_def]
  have hstart : Going m source ([].map fileTarget)
      { setTransportInfo srcPkg destPkg (State.new (⟨before, [], ()⟩ : World Unit)) with
        errorCode := 0, errorString := "No error.".toList } :=
    ⟨rfl, fun l₁ t l₂ h => by simp [setTransportInfo, State.new] at h,
      fun l₁ t l₂ h => by simp [setTransportInfo, State.new] at h, rfl, rfl⟩
  obtain ⟨s, hloop, hfollows⟩ := loop_follows hm he hstart hne hready
  refine ⟨_, _, congrArg (Option.map _) hloop, ?_⟩
  rw [Loop.finish]
  split <;> exact hfollows

end Run

/-! ## What the answers promise -/

def Answered (answer : Overwrite) (turns : List Turn) : Prop := ∃ t ∈ turns, t.answer = some answer

/-- Every answer has the effect that its name says. `dest` is the destination after the run. -/
structure AnswersObeyed (source : QString → Bytes) (files : List (QString × QString))
    (turns : List Turn) (dest : List QString → Option Bytes) : Prop where
  created : ∀ l₁ t l₂, turns = l₁ ++ t :: l₂ → t.before = none → ¬ Answered .cancel l₁ →
    t.after = some (source t.src)
  /-- The run does not end before a file that is not there. -/
  createdAll : ∀ f ∈ files.drop turns.length, dest (components f.2) = none →
    Answered .cancel turns
  noQuestion : ∀ l₁ t l₂, turns = l₁ ++ t :: l₂ → Answered .yesAll l₁ ∨ Answered .noAll l₁ →
    t.answer = none
  noAllKeeps : ∀ l₁ t l₂, turns = l₁ ++ t :: l₂ → Answered .noAll l₁ → t.before ≠ none →
    t.after = t.before
  noAllCopies : ∀ l₁ t l₂, turns = l₁ ++ t :: l₂ → Answered .noAll l₁ → t.before = none →
    t.after = some (source t.src)
  noAllCopiesAll : Answered .noAll turns → ∀ f ∈ files.drop turns.length,
    dest (components f.2) ≠ none
  yesAllOverwrites : ∀ l₁ t l₂, turns = l₁ ++ t :: l₂ → Answered .yesAll l₁ → t.before ≠ none →
    t.after = some (source t.src)
  /-- No file is taken after `OW_CANCEL`. -/
  cancelEnds : ∀ l₁ t l₂, turns = l₁ ++ t :: l₂ → ¬ Answered .cancel l₁

/-- The turns of the run that the code handles as the answers promise. -/
structure Handled (m : Member) (files : List (QString × QString)) (turns : List Turn)
    (dest : List QString → Option Bytes) : Prop where
  /-- `OW_CANCEL` is answered at the last file only. -/
  cancelLast : ∀ l₁ t l₂, turns = l₁ ++ t :: l₂ → t.answer = some .cancel →
    l₁.length + 1 = files.length
  /-- After `OW_NO_ALL` there are only files whose destination exists. -/
  noAllExisting : ∀ l₁ t l₂, turns = l₁ ++ t :: l₂ → t.answer = some .noAll →
    ∀ f ∈ files.drop (l₁.length + 1), dest (components f.2) ≠ none
  /-- An upload meets no absent file while the last answer is `OW_RESUME`. -/
  resumeExisting : m = .fileToSftp → ∀ l₁ t l₂, turns = l₁ ++ t :: l₂ → t.before = none →
    methodAfter l₁ ≠ .resume

section Law

variable {m : Member} {source : QString → Bytes} {files : List (QString × QString)}
  {turns : List Turn} {dest : List QString → Option Bytes}

theorem verdict_silent {content : Bytes} {method answer : Overwrite} (h : asks method = false)
    (before : Option Bytes) : (verdict m content method answer before).answer = none := by
  cases before with
  | none => rfl
  | some old =>
    rw [verdict, if_neg (by simp [h])]
    exact existingVerdict_answer _ _ _ _

theorem answered_of_methodAfter {x : Overwrite} {l : List Turn} (h : methodAfter l = x)
    (hx : x ≠ .unknown) : Answered x l := by
  induction l using List.reverseRecOn with
  | nil => exact absurd h.symm hx
  | append_singleton l t ih =>
    rw [methodAfter_concat] at h
    cases hanswer : t.answer with
    | none =>
      rw [hanswer, Option.getD_none] at h
      obtain ⟨u, hu, hua⟩ := ih h
      exact ⟨u, List.mem_append_left _ hu, hua⟩
    | some a =>
      rw [hanswer, Option.getD_some] at h
      exact ⟨t, by simp, h ▸ hanswer⟩

theorem Follows.sticky (h : Follows m source files turns) {x : Overwrite} (hx : asks x = false)
    {l₁ l₂ : List Turn} (hl : turns = l₁ ++ l₂) (ha : Answered x l₁) : methodAfter l₁ = x := by
  induction l₁ using List.reverseRecOn generalizing l₂ with
  | nil =>
    obtain ⟨t, ht, -⟩ := ha
    exact absurd ht List.not_mem_nil
  | append_singleton l t ih =>
    rw [List.append_assoc, List.singleton_append] at hl
    obtain ⟨given, hfits⟩ := h.each l t l₂ hl
    rw [methodAfter_concat]
    obtain ⟨u, hu, hanswer⟩ := ha
    rcases List.mem_append.mp hu with hu | hu
    · have hmethod := ih hl ⟨u, hu, hanswer⟩
      rw [hfits.answer, hmethod, verdict_silent hx, Option.getD_none]
    · obtain rfl := List.mem_singleton.mp hu
      rw [hanswer, Option.getD_some]

theorem Follows.noAll_last (h : Follows m source files turns) (l₁ : List Turn) (t : Turn)
    (l₂ : List Turn)    (hl : turns = l₁ ++ t :: l₂) : ¬ Answered .noAll l₁ := by
  rintro ⟨u, hu, hanswer⟩
  obtain ⟨l, l', rfl⟩ := List.append_of_mem hu
  have hsplit : turns = l ++ u :: (l' ++ t :: l₂) := by rw [hl]; simp
  obtain ⟨given, hfits⟩ := h.each l u _ hsplit
  have hb : u.before ≠ none := by
    intro hb
    rw [hfits.answer, hb] at hanswer
    cases hanswer
  have hm : methodAfter (l ++ [u]) = .noAll := by
    rw [methodAfter_concat, hanswer, Option.getD_some]
  have := h.stops l u _ hsplit hb hm
  simp at this

theorem Follows.early (h : Follows m source files turns) (hlen : turns.length ≠ files.length) :
    ∃ l t, turns = l ++ [t] ∧ t.answer = some .noAll := by
  rcases h.all with hall | ⟨l, t, hl, hb, hm⟩
  · exact absurd hall hlen
  · refine ⟨l, t, hl, ?_⟩
    -- Before the last turn the run went on.
    have hno : methodAfter l ≠ .noAll := fun hm =>
      h.noAll_last _ _ _ hl (answered_of_methodAfter hm (by decide))
    rw [hl, methodAfter_concat] at hm
    cases hanswer : t.answer with
    | none => rw [hanswer, Option.getD_none] at hm; exact absurd hm hno
    | some a => rw [hanswer, Option.getD_some] at hm; rw [hm]

theorem Follows.length_le (h : Follows m source files turns) : turns.length ≤ files.length := by
  simpa using h.order.length_le

theorem handled_of_obeyed (h : Follows m source files turns)
    (ho : AnswersObeyed source files turns dest) : Handled m files turns dest where
  cancelLast l₁ t l₂ hl hanswer := by
    cases l₂ with
    | nil =>
      have hlen : turns.length = l₁.length + 1 := by simp [hl]
      by_cases hall : turns.length = files.length
      · omega
      · -- `OW_NO_ALL` would have been the answer at the same turn.
        obtain ⟨l, u, hlu, hu⟩ := h.early hall
        obtain ⟨-, hut⟩ := List.append_inj' (hlu.symm.trans hl) rfl
        obtain rfl : u = t := by simpa using hut
        rw [hanswer] at hu
        cases hu
    | cons u l₂ =>
      refine absurd ⟨t, by simp, hanswer⟩ (ho.cancelEnds (l₁ ++ [t]) u l₂ ?_)
      rw [hl]
      simp
  noAllExisting l₁ t l₂ hl hanswer := by
    cases l₂ with
    | nil =>
      have hlen : turns.length = l₁.length + 1 := by simp [hl]
      rw [← hlen]
      exact ho.noAllCopiesAll ⟨t, by simp [hl], hanswer⟩
    | cons u l₂ =>
      refine absurd ⟨t, by simp, hanswer⟩ (h.noAll_last (l₁ ++ [t]) u l₂ ?_)
      rw [hl]
      simp
  resumeExisting hm l₁ t l₂ hl hb hresume := by
    obtain ⟨given, hfits⟩ := h.each l₁ t l₂ hl
    have hcreated := ho.created l₁ t l₂ hl hb (ho.cancelEnds l₁ t l₂ hl)
    rw [hfits.after, hb] at hcreated
    simp [verdict, hm, hresume] at hcreated

theorem obeyed_of_handled (h : Follows m source files turns) (hh : Handled m files turns dest) :
    AnswersObeyed source files turns dest where
  created l₁ t l₂ hl hb _ := by
    obtain ⟨given, hfits⟩ := h.each l₁ t l₂ hl
    have hresume : ¬ (m = .fileToSftp ∧ methodAfter l₁ = .resume) :=
      fun ⟨hm, hr⟩ => hh.resumeExisting hm l₁ t l₂ hl hb hr
    rw [hfits.after, hb, verdict, if_neg hresume]
  createdAll f hf hnone := by
    have hlen : turns.length ≠ files.length := by
      intro hlen
      rw [hlen, List.drop_length] at hf
      exact absurd hf List.not_mem_nil
    obtain ⟨l, t, hl, hanswer⟩ := h.early hlen
    have hturns : turns.length = l.length + 1 := by simp [hl]
    rw [hturns] at hf
    exact absurd hnone (hh.noAllExisting l t [] hl hanswer f hf)
  noQuestion l₁ t l₂ hl ha := by
    obtain ⟨given, hfits⟩ := h.each l₁ t l₂ hl
    rcases ha with ha | ha
    · rw [hfits.answer, h.sticky rfl hl ha, verdict_silent rfl]
    · exact absurd ha (h.noAll_last _ _ _ hl)
  noAllKeeps l₁ t l₂ hl ha := absurd ha (h.noAll_last _ _ _ hl)
  noAllCopies l₁ t l₂ hl ha := absurd ha (h.noAll_last _ _ _ hl)
  noAllCopiesAll := by
    rintro ⟨t, ht, hanswer⟩
    obtain ⟨l₁, l₂, hl⟩ := List.append_of_mem ht
    have hlast := hh.noAllExisting l₁ t l₂ hl hanswer
    cases l₂ with
    | nil =>
      have hlen : turns.length = l₁.length + 1 := by simp [hl]
      rwa [hlen]
    | cons u l₂ =>
      refine absurd ⟨t, by simp, hanswer⟩ (h.noAll_last (l₁ ++ [t]) u l₂ ?_)
      rw [hl]
      simp
  yesAllOverwrites l₁ t l₂ hl ha hb := by
    obtain ⟨given, hfits⟩ := h.each l₁ t l₂ hl
    obtain ⟨old, hold⟩ := Option.ne_none_iff_exists'.mp hb
    rw [hfits.after, h.sticky rfl hl ha, hold]
    rfl
  cancelEnds l₁ t l₂ hl := by
    rintro ⟨u, hu, hanswer⟩
    obtain ⟨l, l', rfl⟩ := List.append_of_mem hu
    have hsplit : turns = l ++ u :: (l' ++ t :: l₂) := by rw [hl]; simp
    have hlast := hh.cancelLast l u _ hsplit hanswer
    have hlen : turns.length = l.length + 1 + (l'.length + 1 + l₂.length) := by
      rw [hsplit]
      simp
      omega
    have := h.length_le
    omega

end Law

/-- **When the answers have the effect that their names say, over a whole run.** -/
theorem answers_obeyed_iff (m : Member) (hm : m = .fileToSftp ∨ m = .sftpToFile)
    (source : QString → Bytes) (env : Nat → FileEnv) (he : ∀ n, Succeeds (env n))
    (srcPkg destPkg : TaskPackage) (hne : filesOf srcPkg destPkg ≠ [])
    (before : List QString → Option Bytes) :
    ∃ fuel s, (m.loop source env m.fileHosts).run fuel
        (setTransportInfo srcPkg destPkg (State.new ⟨before, [], ()⟩)) = some s ∧
      s.world.turns.map (fun t => (t.src, t.dest)) <+: (filesOf srcPkg destPkg).map fileTarget ∧
      (AnswersObeyed source ((filesOf srcPkg destPkg).map fileTarget) s.world.turns s.world.dest ↔
        Handled m ((filesOf srcPkg destPkg).map fileTarget) s.world.turns s.world.dest) := by
  obtain ⟨fuel, s, hrun, hfollows⟩ := run_follows hm he source hne before
  exact ⟨fuel, s, hrun, hfollows.order,
    handled_of_obeyed hfollows, obeyed_of_handled hfollows⟩

theorem goodEnv_succeeds (answer : Overwrite) (h : answer ≠ .unknown) :
    Succeeds { goodEnv with answer := answer } where
  stat := rfl
  srcOpen := rfl
  destOpen := rfl
  localOpen := rfl
  reads _ := (by decide : (0 : Int) < 8192)
  writes _ := Int.le_refl 8192
  answer := h
  cancelBefore := rfl
  cancelAfter := rfl
  cancelDuring _ := rfl

def uploadPkgs (files : List QString) : TaskPackage × TaskPackage :=
  (⟨1, files, [], [], [], [], []⟩, ⟨2, ["/d".toList], [], [], [], [], []⟩)

def oldFile (key : List QString) : Option Bytes :=
  if key = ["d".toList, "f".toList] then some [9] else none

theorem answers_obeyed_iff_upload :
    ∃ fuel s, (Member.fileToSftp.loop (fun _ => [1, 2, 3]) (fun _ => { goodEnv with answer := .yes })
        (Member.fileHosts .fileToSftp)).run fuel
        (setTransportInfo (uploadPkgs ["/f".toList]).1 (uploadPkgs ["/f".toList]).2
          (State.new ⟨oldFile, [], ()⟩)) = some s ∧
      s.world.turns.map (fun t => (t.src, t.dest)) <+: [("/f".toList, "/d/f".toList)] ∧
      (AnswersObeyed (fun _ => [1, 2, 3]) [("/f".toList, "/d/f".toList)] s.world.turns
          s.world.dest ↔
        Handled .fileToSftp [("/f".toList, "/d/f".toList)] s.world.turns s.world.dest) :=
  answers_obeyed_iff .fileToSftp (.inl rfl) (fun _ => [1, 2, 3])
    (fun _ => { goodEnv with answer := .yes }) (fun _ => goodEnv_succeeds .yes (by decide))
    (uploadPkgs ["/f".toList]).1 (uploadPkgs ["/f".toList]).2 (by decide) oldFile

theorem noAll_skips_absent_file :
    ∃ s, (Member.fileToSftp.loop (fun _ => [1, 2, 3]) (fun _ => { goodEnv with answer := .noAll })
        (Member.fileHosts .fileToSftp)).run 3
        (setTransportInfo (uploadPkgs ["/f".toList, "/g".toList]).1
          (uploadPkgs ["/f".toList, "/g".toList]).2 (State.new ⟨oldFile, [], ()⟩)) = some s ∧
      ¬ AnswersObeyed (fun _ => [1, 2, 3])
        [("/f".toList, "/d/f".toList), ("/g".toList, "/d/g".toList)] s.world.turns s.world.dest := by
  -- `OW_NO_ALL` at `f`, and `g` is never copied although it is not there.
  have hrun : ((Member.fileToSftp.loop (fun _ => [1, 2, 3])
      (fun _ => { goodEnv with answer := .noAll }) (Member.fileHosts .fileToSftp)).run 3
        (setTransportInfo (uploadPkgs ["/f".toList, "/g".toList]).1
          (uploadPkgs ["/f".toList, "/g".toList]).2 (State.new ⟨oldFile, [], ()⟩))).any
      (fun s => s.world.turns.length = 1 && s.world.turns.any (·.answer = some .noAll) &&
        s.world.dest ["d".toList, "g".toList] = none) = true := by decide
  obtain ⟨s, hs, htest⟩ := (Option.any_eq_true _ _).mp hrun
  simp only [Bool.and_eq_true, decide_eq_true_eq, List.any_eq_true] at htest
  obtain ⟨⟨hlen, t, ht, hanswer⟩, hnone⟩ := htest
  refine ⟨s, hs, fun hobeyed => ?_⟩
  refine hobeyed.noAllCopiesAll ⟨t, ht, hanswer⟩ ("/g".toList, "/d/g".toList) ?_ ?_
  · rw [hlen]
    exact List.mem_cons_self
  · rw [show components "/d/g".toList = ["d".toList, "g".toList] by decide]
    exact hnone

end NullFxp.Transportor
