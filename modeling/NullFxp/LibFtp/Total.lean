import NullFxp.LibFtp.Codes

/-!
# Which replies the operations survive

An operation that asserts the code, or takes a reply apart without looking at its length, returns
on some replies only.
-/

open Text

namespace NullFxp.LibFtp

/-! ## Replies that can be taken apart -/

theorem elemAt_isSome {α : Type*} {l : List α} {i : Int} :
    (elemAt l i).isSome ↔ 0 ≤ i ∧ i < l.length := by
  unfold elemAt
  split
  · rw [Option.isSome_iff_ne_none, ne_eq, List.getElem?_eq_none_iff]
    omega
  · simp only [Option.isSome_none, Bool.false_eq_true, false_iff]
    omega

theorem two_le_length_splitOn {c : Char} {text : QString} :
    2 ≤ (text.splitOn c).length ↔ c ∈ text := by
  constructor
  · intro h
    by_contra hc
    rw [List.splitOn_eq_singleton hc] at h
    simp at h
  · intro h
    obtain ⟨a, b, rfl, ha⟩ := List.eq_append_cons_of_mem h
    rw [List.splitOn_append_cons_self_of_not_mem ha]
    have := List.length_pos_iff.mpr (List.splitOn_ne_nil c b)
    simp only [List.length_cons]
    omega

theorem elemAt_one_isSome {c : Char} {text : QString} :
    (elemAt (text.splitOn c) 1).isSome ↔ c ∈ text := by
  rw [elemAt_isSome, ← two_le_length_splitOn]
  omega

theorem closingLine_isSome {text : QString} : (closingLine text).isSome ↔ '\n' ∈ text := by
  rw [closingLine, elemAt_isSome, ← two_le_length_splitOn]
  omega

theorem parseMLSTLine_isSome {row : Bytes} :
    (parseMLSTLine row).isSome ↔ 4 ≤ (fieldValue (row.splitOn 59) "UNIX.mode").length := by
  unfold parseMLSTLine
  dsimp only
  generalize fieldValue (row.splitOn 59) "UNIX.mode" = mode
  match mode with
  | [] => simp
  | [a] => simp
  | [a, b] => simp
  | [a, b, c] => simp
  | a :: b :: c :: d :: m => simp

theorem mapM_isSome {α β : Type} {f : α → Option β} {l : List α} :
    (l.mapM f).isSome ↔ ∀ x ∈ l, (f x).isSome := by
  induction l with
  | nil => simp
  | cons x l ih =>
    rw [List.mapM_cons, List.forall_mem_cons, ← ih]
    cases f x with
    | none => simp
    | some y => cases l.mapM f <;> simp

/-! ## Listings -/

section

variable {ftp : Ftp Script} {ball : Bytes} {rest : List Bytes} (path : QString)

def Ftp.afterList (ftp : Ftp Script) (cmd : Bytes) : Ftp Script :=
  { ftp with
    sock := ⟨ftp.sock.sent ++ [cmd], ftp.sock.answers.tail.tail⟩
    dirList2 := readListing ftp.codec ftp.data
    data := [] }

theorem list_spec (ftp : Ftp Script) :
    list scripted path ftp =
      if closingWord (ftp.sock.answers.headD []) = some "150".toList ∧
          closingWord (ftp.sock.answers.tail.headD []) = some "226".toList then
        some (0, ftp.afterList (toAscii ("LIST -a -l ".toList ++ path ++ crlf)))
      else none := by
  simp only [list, command_scripted, exchange_scripted, listData, Option.bind_eq_bind, bind_expect,
    readAll_scripted, Option.bind_some]
  by_cases h1 : closingWord (ftp.sock.answers.headD []) = some "150".toList
  · simp only [h1, if_true, Option.bind_some, true_and]
    rfl
  · simp only [h1, if_false, Option.bind_none, false_and]

theorem lista_spec (ftp : Ftp Script) :
    lista scripted path ftp =
      if closingWord (ftp.sock.answers.headD []) = some "150".toList ∧
          (ftp.sock.answers.tail.headD [] = [] ∨
            closingWord (ftp.sock.answers.tail.headD []) = some "226".toList) then
        some (if ftp.sock.answers.tail.headD [] = [] then -1 else 0,
          ftp.afterList (toAscii ("LIST -a ".toList ++ path ++ crlf)))
      else none := by
  simp only [lista, command_scripted, exchange_scripted, listData, Option.bind_eq_bind, bind_expect,
    readAll_scripted, Option.bind_some]
  by_cases h1 : closingWord (ftp.sock.answers.headD []) = some "150".toList
  · simp only [h1, if_true, Option.bind_some, true_and]
    by_cases h0 : ftp.sock.answers.tail.headD [] = []
    · simp only [h0, if_true, true_or]
      rfl
    · simp only [h0, if_false, false_or]
      rfl
  · simp only [h1, if_false, Option.bind_none, false_and]

theorem mlst_spec (h : ftp.sock.answers = ball :: rest)
    (hm : "MLST".toList ∈ ftp.supportedCmds) :
    mlst scripted path ftp =
      if closingWord ball = some "250".toList then
        ((infoRows ball).mapM parseMLSTLine).map fun rows =>
          (0, { ftp with
            sock := ⟨ftp.sock.sent ++ [toAscii (cmdLine "MLST" path)], rest⟩, dirList2 := rows })
      else none := by
  simp only [mlst, hm, if_true, command_scripted, exchange_scripted, Option.bind_eq_bind,
    bind_expect, h, List.headD_cons, List.tail_cons]
  cases (infoRows ball).mapM parseMLSTLine <;> rfl

theorem passive_spec (ftp : Ftp Script) (h : ftp.sock.answers = ball :: rest) :
    ∃ r ftp', passive scripted ftp = some (r, ftp') ∧ ftp'.sock.answers = rest := by
  simp only [passive, command_scripted, exchange_scripted, h, List.headD_cons, List.tail_cons]
  split
  · exact ⟨_, _, rfl, rfl⟩
  · exact ⟨_, _, rfl, rfl⟩

end

/-! ## The operations -/

inductive Call where
  | pwd (path : QString)
  | mkdir (path : QString)
  | rmdir (path : QString)
  | chdir (path : QString)
  | put (fileName : QString)
  | get (fileName : QString)
  | rename (src dest : QString)
  | type (t : TransferType)
  | size (path : QString) (siz : Int)
  | list (path : QString)
  | lista (path : QString)
  | mlst (path : QString)

namespace Call

def returns {σ : Type} (io : Ctrl σ) (ftp : Ftp σ) : Call → Option Int
  | pwd path => (LibFtp.pwd io path ftp).map fun r => r.1.1
  | mkdir path => (LibFtp.mkdir io path ftp).map Prod.fst
  | rmdir path => (LibFtp.rmdir io path ftp).map Prod.fst
  | chdir path => (LibFtp.chdir io path ftp).map Prod.fst
  | put fileName => (LibFtp.put io fileName ftp).map Prod.fst
  | get fileName => (LibFtp.get io fileName ftp).map Prod.fst
  | rename src dest => (LibFtp.rename io src dest ftp).map Prod.fst
  | type t => (LibFtp.type io t ftp).map Prod.fst
  | size path siz => (LibFtp.size io path siz ftp).map fun r => r.1.1
  | list path => (LibFtp.list io path ftp).map Prod.fst
  | lista path => (LibFtp.lista io path ftp).map Prod.fst
  | mlst path => (LibFtp.mlst io path ftp).map Prod.fst

def ListaAnswers (ball ball' : Bytes) : Prop :=
  closingWord ball = some "150".toList ∧ (ball' = [] ∨ closingWord ball' = some "226".toList)

/-- The replies that the operation returns on. -/
def Survives (supportedCmds : List QString) (ball ball' ball'' : Bytes) : Call → Prop
  | pwd _ => ∃ word, elemAt ((fromLatin1 ball).splitOn ' ') 1 = some word ∧ '"' ∈ word ∧
      firstWord (fromLatin1 ball) = "257".toList
  | mkdir _ => firstWord (fromLatin1 ball) = "257".toList
  | rmdir _ => firstWord (fromLatin1 ball) = "250".toList
  | chdir _ => '\n' ∈ fromLatin1 ball
  | put _ => True
  | get _ => closingWord ball = some "150".toList
  | rename _ _ => firstWord (fromLatin1 ball) = "350".toList ∧
      firstWord (fromLatin1 ball') = "250".toList
  | type _ => firstWord (fromLatin1 ball) = "200".toList
  | size _ _ => firstWord (fromLatin1 ball) = "213".toList ∧ ' ' ∈ fromLatin1 ball
  | list _ => closingWord ball = some "150".toList ∧ closingWord ball' = some "226".toList
  | lista _ => ListaAnswers ball ball'
  | mlst _ =>
    if "MLST".toList ∈ supportedCmds then closingWord ball = some "250".toList ∧
      ∀ row ∈ infoRows ball, 4 ≤ (fieldValue (row.splitOn 59) "UNIX.mode").length
    else ListaAnswers ball' ball''

section

variable {ftp : Ftp Script} {ball ball' : Bytes} {rest : List Bytes} (path : QString)

theorem lista_map (h : ftp.sock.answers = ball :: ball' :: rest) :
    (∃ r, (LibFtp.lista scripted path ftp).map Prod.fst = some r ∧ (r = 0 ∨ r = -1)) ↔
      ListaAnswers ball ball' := by
  rw [lista_spec path]
  split
  · next hc =>
    rw [h] at hc
    refine iff_of_true ⟨_, rfl, ?_⟩ hc
    split <;> simp
  · next hc =>
    rw [h] at hc
    exact iff_of_false (by simp) hc

theorem mlst_map {ball'' : Bytes} :
    (∃ r, (LibFtp.mlst scripted path (ftp.answered [ball, ball', ball''])).map Prod.fst = some r ∧
      (r = 0 ∨ r = -1)) ↔ (mlst path).Survives ftp.supportedCmds ball ball' ball'' := by
  simp only [Survives]
  by_cases hm : "MLST".toList ∈ ftp.supportedCmds
  · have hm' : "MLST".toList ∈ (ftp.answered [ball, ball', ball'']).supportedCmds := hm
    have hrows : (∀ row ∈ infoRows ball, 4 ≤ (fieldValue (row.splitOn 59) "UNIX.mode").length) ↔
        ∃ rows, (infoRows ball).mapM parseMLSTLine = some rows := by
      rw [← Option.isSome_iff_exists, mapM_isSome]
      exact forall₂_congr fun row _ => parseMLSTLine_isSome.symm
    rw [mlst_spec path rfl hm', if_pos hm, hrows]
    by_cases h : closingWord ball = some "250".toList
    · rw [if_pos h]
      cases (infoRows ball).mapM parseMLSTLine <;> simp [h]
    · simp only [h, if_false, Option.map_none, reduceCtorEq, false_and, exists_false]
  · obtain ⟨r, ftp', hpass, hans⟩ := passive_spec (ftp.answered [ball, ball', ball'']) rfl
    have hm' : "MLST".toList ∉ (ftp.answered [ball, ball', ball'']).supportedCmds := hm
    rw [LibFtp.mlst, if_neg hm', hpass, if_neg hm]
    exact lista_map path hans

end

variable (ftp : Ftp Script) (ball ball' ball'' : Bytes)

theorem survives_iff (call : Call) :
    (∃ r, call.returns scripted (ftp.answered [ball, ball', ball'']) = some r ∧ (r = 0 ∨ r = -1)) ↔
      call.Survives ftp.supportedCmds ball ball' ball'' := by
  have htest : ∀ code word, test code word = 0 ∨ test code word = -1 := by
    intro code word
    unfold test
    split <;> simp
  cases call with
  | pwd path =>
    have hquote : ∀ word : QString, (∃ p, elemAt (word.splitOn '"') 1 = some p) ↔ '"' ∈ word :=
      fun word => by rw [← elemAt_one_isSome, Option.isSome_iff_exists]
    simp [returns, LibFtp.pwd, Ftp.answered, Survives, Option.bind_eq_some_iff, expect_eq_some,
      hquote]
  | mkdir path =>
    simp [returns, Survives, LibFtp.mkdir, expectFirst, Ftp.answered, expect_eq_some]
  | rmdir path =>
    simp [returns, Survives, LibFtp.rmdir, expectFirst, Ftp.answered, expect_eq_some]
  | chdir path =>
    simp [returns, Survives, LibFtp.chdir, Ftp.answered, closingWord, htest,
      ← Option.isSome_iff_exists, closingLine_isSome]
  | put fileName => simp [returns, Survives, LibFtp.put, Ftp.answered, htest]
  | get fileName =>
    simp [returns, Survives, LibFtp.get, Ftp.answered, Option.bind_eq_some_iff, expect_eq_some]
  | rename src dest =>
    simp [returns, Survives, LibFtp.rename, Ftp.answered, Option.bind_eq_some_iff, expect_eq_some]
  | type t =>
    simp [returns, Survives, LibFtp.type, expectFirst, Ftp.answered, expect_eq_some]
  | size path siz =>
    simp [returns, Survives, LibFtp.size, Ftp.answered, secondWord, Option.bind_eq_some_iff,
      expect_eq_some, ← Option.isSome_iff_exists, elemAt_one_isSome]
  | list path =>
    rw [returns, list_spec path]
    split
    · next hc => exact iff_of_true ⟨0, rfl, Or.inl rfl⟩ hc
    · next hc => exact iff_of_false (by simp) hc
  | lista path =>
    exact lista_map path rfl
  | mlst path => exact mlst_map path

end Call

/-- **An operation returns just on the replies that it survives.** The tests of `AUTH`, `USER` and
`HELP` need a newline, and those of `PASS` and `PBSZ` need nothing. -/
theorem operations_return_iff (ftp : Ftp Script) :
    (∀ (call : Call) (ball ball' ball'' : Bytes),
      (∃ r, call.returns scripted (ftp.answered [ball, ball', ball'']) = some r ∧
        (r = 0 ∨ r = -1)) ↔ call.Survives ftp.supportedCmds ball ball' ball'') ∧
    (∀ ball, (authReply ball).isSome ↔ '\n' ∈ fromLatin1 ball) ∧
    (∀ ball, (userReply ball).isSome ↔ '\n' ∈ fromLatin1 ball) ∧
    ∀ ball, (∃ count : Nat,
        (getSupportedCmds scripted (ftp.answered [ball])).map Prod.fst = some (count : Int)) ↔
      '\n' ∈ fromLatin1 ball ∧ ftp.supportedCmds = [] := by
  refine ⟨fun call ball ball' ball'' => call.survives_iff ftp ball ball' ball'', ?_, ?_, ?_⟩
  · intro ball
    rw [authReply, Option.isSome_map, closingWord, Option.isSome_map, closingLine_isSome]
  · intro ball
    rw [userReply, Option.isSome_map, closingWord, Option.isSome_map, closingLine_isSome]
  · intro ball
    rw [← closingLine_isSome]
    cases hline : closingLine (fromLatin1 ball) with
    | none => simp [getSupportedCmds, Ftp.answered, helpReply, hline]
    | some line =>
      by_cases hempty : ftp.supportedCmds = []
      · simp [getSupportedCmds, Ftp.answered, helpReply, hline, hempty]
      · simp [getSupportedCmds, Ftp.answered, helpReply, hline, hempty]

theorem operations_not_total : ∃ ftp : Ftp Script,
    (Call.mkdir ['x']).returns scripted (ftp.answered [toAscii "550 no\r\n".toList]) = none ∧
    (Call.chdir ['x']).returns scripted (ftp.answered [[]]) = none ∧
    authReply [] = none := by
  -- "550 no" makes `MKD` fail its assert, no reply to `CWD` and to `AUTH` an index out of range.
  refine ⟨{ sock := {}, codec := ⟨fromLatin1, toAscii⟩ }, ?_, ?_, ?_⟩
  · decide +kernel
  · decide +kernel
  · decide

end NullFxp.LibFtp
