import Mathlib.Data.Option.Basic
import NullFxp.LibFtp.Operations
import NullFxp.LibFtp.Reader

/-!
# The code of a reply

The operations find the code of a reply in three ways: as the first word, as the first word of the
last line, and as what follows the last newline.
-/

open Text

namespace NullFxp.LibFtp

/-! ## Words and lines -/

variable {w rest l : QString}

theorem firstWord_append (h : ' ' ∉ w) : firstWord (w ++ ' ' :: rest) = w := by
  rw [firstWord, List.splitOn_append_cons_self_of_not_mem h]
  rfl

theorem isPrefix_firstWord (h : ' ' ∉ w) : w <+: firstWord (w ++ rest) := by
  by_cases hr : ' ' ∈ rest
  · obtain ⟨a, b, rfl, ha⟩ := List.eq_append_cons_of_mem hr
    rw [← List.append_assoc, firstWord_append (by simp [h, ha])]
    exact List.prefix_append _ _
  · rw [firstWord, List.splitOn_eq_singleton (by simp [h, hr])]
    exact List.prefix_append _ _

theorem elemAt_one_of_mem {text : QString} (h : ' ' ∈ text) :
    ∃ word, elemAt (text.splitOn ' ') 1 = some word := by
  obtain ⟨a, b, rfl, ha⟩ := List.eq_append_cons_of_mem h
  rw [List.splitOn_append_cons_self_of_not_mem ha]
  obtain ⟨word, words, hb⟩ := List.exists_cons_of_ne_nil (List.splitOn_ne_nil ' ' b)
  exact ⟨word, by rw [hb]; rfl⟩

theorem closingLine_append (p : QString) (hl : '\n' ∉ l) (hp : p = [] ∨ ∃ q, p = q ++ ['\n']) :
    closingLine (p ++ l ++ ['\n']) = some l := by
  have hlast : ∃ ls, (p ++ l).splitOn '\n' = ls ++ [l] := by
    rcases hp with rfl | ⟨q, rfl⟩
    · exact ⟨[], List.splitOn_eq_singleton hl⟩
    · exact ⟨q.splitOn '\n', by
        rw [List.append_assoc, List.singleton_append, List.splitOn_append_cons_self,
          List.splitOn_eq_singleton hl]⟩
  obtain ⟨ls, hls⟩ := hlast
  rw [closingLine, List.splitOn_append_cons_self, hls, List.splitOn_nil]
  have hlen : (((ls ++ [l] ++ [[]]).length : Int) - 2) = ls.length := by simp
  rw [hlen, elemAt_natCast]
  simp

/-! ## What an operation is given of a reply -/

namespace Reply

variable (R : Reply)

/-- The bytes that `readAll` hands over of a reply that it reads whole. -/
def received : Bytes := kept R.bytes

theorem received_of_readable (h : R.Readable) : R.received = R.bytes := by
  apply List.filter_eq_self.mpr
  intro b hb
  simpa using ne_of_mem_of_not_mem hb h.1

def plain (bs : Bytes) : QString := (kept bs).map latin1

theorem plain_append (bs cs : Bytes) : plain (bs ++ cs) = plain bs ++ plain cs := by
  rw [plain, kept, List.filter_append, List.map_append]
  rfl

theorem plain_codeBytes : plain (codeBytes R.code) = codeChars R.code := by
  have h0 := not_mem_codeBytes (b := 0) R.code_range.2 (by decide)
  rw [plain, kept, List.filter_eq_self.mpr]
  · rfl
  · intro b hb
    simpa using ne_of_mem_of_not_mem hb h0

theorem fromLatin1_received : fromLatin1 R.received =
    plain R.opening ++ (codeChars R.code ++ ' ' :: (plain R.text ++ ['\r'])) ++ ['\n'] := by
  have h0 : 0 ∉ R.received := by simp [received, kept]
  have hlast : plain (R.lastLine ++ eol) =
      codeChars R.code ++ ' ' :: (plain R.text ++ ['\r']) ++ ['\n'] := by
    rw [lastLine, List.append_assoc, plain_append, plain_codeBytes, List.cons_append]
    change codeChars R.code ++ ' ' :: plain (R.text ++ eol) = _
    rw [plain_append, show plain eol = ['\r', '\n'] by decide]
    simp
  rw [fromLatin1_of_not_mem h0]
  change plain R.bytes = _
  rw [bytes, List.append_assoc, plain_append, hlast]
  simp

theorem space_not_mem_codeChars : ' ' ∉ codeChars R.code := by
  intro h
  have := codeChars_not_space R.code_range.2 _ h
  exact absurd this (by decide)

theorem newline_not_mem_codeChars : '\n' ∉ codeChars R.code := by
  intro h
  have := codeChars_not_space R.code_range.2 _ h
  exact absurd this (by decide)

theorem firstWord_single (h : R.head = none) :
    firstWord (fromLatin1 R.received) = codeChars R.code := by
  have hopen : R.opening = [] := by simp [opening, h]
  rw [fromLatin1_received, hopen, List.append_assoc]
  exact firstWord_append R.space_not_mem_codeChars

theorem firstWord_multi (h : R.head ≠ none) (code : Nat) :
    firstWord (fromLatin1 R.received) ≠ codeChars code := by
  obtain ⟨hd, hhd⟩ := Option.ne_none_iff_exists'.mp h
  have hword : codeChars R.code ++ ['-'] <+: firstWord (fromLatin1 R.received) := by
    rw [fromLatin1_received, opening, hhd]
    change _ <+: firstWord (plain (codeBytes R.code ++ 45 :: hd.1 ++ eol ++ _) ++ _ ++ _)
    rw [plain_append, plain_append, plain_append, plain_codeBytes]
    change _ <+: firstWord (codeChars R.code ++ '-' :: plain hd.1 ++ _ ++ _ ++ _ ++ _)
    rw [List.append_cons]
    simp only [List.append_assoc]
    rw [← List.append_assoc (codeChars R.code)]
    apply isPrefix_firstWord
    simp [R.space_not_mem_codeChars]
  intro heq
  have := hword.length_le
  rw [heq] at this
  simp [codeChars, codeBytes] at this

theorem opening_ends : R.opening = [] ∨ ∃ q, R.opening = q ++ [10] := by
  rcases R.head_cases with ⟨-, -, h⟩ | ⟨first, -, -, -, h⟩
  · exact Or.inl h
  · right
    rw [h]
    rcases R.middle.eq_nil_or_concat with hm | ⟨ms, m, hm⟩
    · exact ⟨codeBytes R.code ++ 45 :: first ++ [13], by simp [hm]⟩
    · exact ⟨codeBytes R.code ++ 45 :: first ++ eol ++ ms.flatMap (· ++ eol) ++ m ++ [13],
        by simp [hm]⟩

theorem closingWord_received : closingWord R.received = some (codeChars R.code) := by
  have htext : '\n' ∉ plain R.text := by
    intro hmem
    obtain ⟨b, hb, hbn⟩ := List.mem_map.mp hmem
    have : b = 10 := latin1_injective (hbn.trans (show '\n' = latin1 10 by decide))
    exact R.text_line.2 (this ▸ (List.mem_filter.mp hb).1)
  have hline : '\n' ∉ codeChars R.code ++ ' ' :: (plain R.text ++ ['\r']) := by
    simp [R.newline_not_mem_codeChars, htext]
  have hopen : plain R.opening = [] ∨ ∃ q, plain R.opening = q ++ ['\n'] := by
    rcases R.opening_ends with h | ⟨q, h⟩
    · exact Or.inl (by rw [h]; rfl)
    · exact Or.inr ⟨plain q, by rw [h, plain_append]; rfl⟩
  rw [closingWord, fromLatin1_received, closingLine_append _ hline hopen]
  exact congrArg some (firstWord_append R.space_not_mem_codeChars)

theorem space_mem_received : ' ' ∈ fromLatin1 R.received := by
  rw [fromLatin1_received]
  simp

theorem getLastD_received : ((fromLatin1 R.received).splitOn '\n').getLastD [] = [] := by
  rw [fromLatin1_received, List.splitOn_append_cons_self, List.splitOn_nil]
  simp

end Reply

/-! ## Codes and their texts -/

theorem test_eq_zero {code : String} {word : QString} : test code word = 0 ↔ word = code.toList := by
  unfold test
  split <;> simp [*]

theorem expect_eq_some {code : String} {word : QString} {r : Int} :
    expect code word = some r ↔ word = code.toList ∧ r = 0 := by
  unfold expect
  split <;> simp [*, eq_comm]

theorem bind_expect {α : Type} {code : String} {word : Option QString} {f : Int → Option α} :
    (word.bind fun w => (expect code w).bind f) =
      if word = some code.toList then f 0 else none := by
  cases word with
  | none => simp
  | some w =>
    by_cases h : w = code.toList
    · simp [expect, h]
    · simp [expect, h]

/-! ## The operations with one reply -/

inductive Op where
  | mkdir (path : QString)
  | rmdir (path : QString)
  | remove (path : QString)
  | type (t : TransferType)
  | noop
  | size (path : QString) (siz : Int)
  | put (fileName : QString)
  | port (hostip : QString) (port : Nat)
  | system (type : QString)
  | chdir (path : QString)
  | get (fileName : QString)

namespace Op

def accepts : Op → Nat
  | mkdir _ => 257
  | rmdir _ => 250
  | remove _ => 250
  | type _ => 200
  | noop => 200
  | size _ _ => 213
  | put _ => 150
  | port _ _ => 200
  | system _ => 215
  | chdir _ => 250
  | get _ => 150

def returns {σ : Type} (io : Ctrl σ) (ftp : Ftp σ) : Op → Option Int
  | mkdir path => (LibFtp.mkdir io path ftp).map Prod.fst
  | rmdir path => (LibFtp.rmdir io path ftp).map Prod.fst
  | remove path => (LibFtp.remove io path ftp).map Prod.fst
  | type t => (LibFtp.type io t ftp).map Prod.fst
  | noop => (LibFtp.noop io ftp).map Prod.fst
  | size path siz => (LibFtp.size io path siz ftp).map fun r => r.1.1
  | put fileName => (LibFtp.put io fileName ftp).map Prod.fst
  | port hostip p => (LibFtp.port io hostip p ftp).map Prod.fst
  | system t => (LibFtp.system io t ftp).map fun r => r.1.1
  | chdir path => (LibFtp.chdir io path ftp).map Prod.fst
  | get fileName => (LibFtp.get io fileName ftp).map Prod.fst

/-- The operations that look at the last line of a reply. -/
def ByLastLine : Op → Prop
  | chdir _ => True
  | get _ => True
  | _ => False

variable {R : Reply} (ftp : Ftp Script)

theorem returns_firstWord {op : Op} (h : ¬ op.ByLastLine) :
    op.returns scripted (ftp.answered [R.received]) = some 0 ↔
      firstWord (fromLatin1 R.received) = codeChars op.accepts := by
  obtain ⟨word, hword⟩ := elemAt_one_of_mem R.space_mem_received
  cases op with
  | mkdir path =>
    simp [returns, LibFtp.mkdir, expectFirst, Ftp.answered, expect_eq_some, accepts,
      show "257".toList = codeChars 257 by decide]
  | rmdir path =>
    simp [returns, LibFtp.rmdir, expectFirst, Ftp.answered, expect_eq_some, accepts,
      show "250".toList = codeChars 250 by decide]
  | remove path =>
    simp [returns, LibFtp.remove, Ftp.answered, test_eq_zero, accepts,
      show "250".toList = codeChars 250 by decide]
  | type t =>
    simp [returns, LibFtp.type, expectFirst, Ftp.answered, expect_eq_some, accepts,
      show "200".toList = codeChars 200 by decide]
  | noop =>
    simp [returns, LibFtp.noop, expectFirst, Ftp.answered, expect_eq_some, accepts,
      show "200".toList = codeChars 200 by decide]
  | size path siz =>
    simp [returns, LibFtp.size, Ftp.answered, secondWord, hword, expect_eq_some, accepts,
      show "213".toList = codeChars 213 by decide]
  | put fileName =>
    simp [returns, LibFtp.put, Ftp.answered, test_eq_zero, accepts,
      show "150".toList = codeChars 150 by decide]
  | port hostip p =>
    simp [returns, LibFtp.port, Ftp.answered, test_eq_zero, accepts,
      show "200".toList = codeChars 200 by decide]
  | system t =>
    simp [returns, LibFtp.system, Ftp.answered, secondWord, hword, expect_eq_some, accepts,
      show "215".toList = codeChars 215 by decide]
  | chdir path => exact absurd trivial h
  | get fileName => exact absurd trivial h

theorem returns_lastLine {op : Op} (h : op.ByLastLine) :
    op.returns scripted (ftp.answered [R.received]) = some 0 ↔ R.code = op.accepts := by
  have hcode : ∀ c ≤ 599, codeChars R.code = codeChars c ↔ R.code = c := fun c hc =>
    ⟨codeChars_injective R.code_range.2 hc, fun h => h ▸ rfl⟩
  cases op with
  | chdir path =>
    simp [returns, LibFtp.chdir, Ftp.answered, R.closingWord_received, test_eq_zero, accepts,
      show "250".toList = codeChars 250 by decide, hcode]
  | get fileName =>
    simp [returns, LibFtp.get, Ftp.answered, R.closingWord_received, expect_eq_some, accepts,
      show "150".toList = codeChars 150 by decide, hcode]
  | _ => exact h.elim

end Op

/-! ## All operations -/

section

variable (ftp : Ftp Script)

theorem rename_returns (src dest : QString) (R R' : Reply) :
    (rename scripted src dest (ftp.answered [R.received, R'.received])).map Prod.fst = some 0 ↔
      firstWord (fromLatin1 R.received) = codeChars 350 ∧
        firstWord (fromLatin1 R'.received) = codeChars 250 := by
  simp [rename, Ftp.answered, Option.bind_eq_some_iff, expect_eq_some,
    show "350".toList = codeChars 350 by decide, show "250".toList = codeChars 250 by decide]

theorem swallowResponse_returns (R : Reply) :
    (swallowResponse scripted (ftp.answered [R.received])).map Prod.fst = some 0 := by
  change some (toInt (firstWord (((fromLatin1 R.received).splitOn '\n').getLastD []))) = some 0
  rw [R.getLastD_received]
  decide

end

theorem Reply.firstWord_iff (R : Reply) {code : Nat} (hcode : code ≤ 599) :
    firstWord (fromLatin1 R.received) = codeChars code ↔ R.head = none ∧ R.code = code := by
  by_cases h : R.head = none
  · rw [R.firstWord_single h]
    exact ⟨fun heq => ⟨h, codeChars_injective R.code_range.2 hcode heq⟩, fun heq => heq.2 ▸ rfl⟩
  · exact ⟨fun heq => absurd heq (R.firstWord_multi h code), fun heq => absurd heq.1 h⟩

/-- **A reply is judged by its code** by the operations that look at its last line, by the others
just if it has one line or another code than that of success, and by `swallowResponse` never. -/
theorem judged_by_code_iff (ftp : Ftp Script) :
    (∀ (op : Op) (R : Reply),
      (op.returns scripted (ftp.answered [R.received]) = some 0 ↔ R.code = op.accepts) ↔
        op.ByLastLine ∨ R.head = none ∨ R.code ≠ op.accepts) ∧
    (∀ (src dest : QString) (R R' : Reply),
      ((rename scripted src dest (ftp.answered [R.received, R'.received])).map Prod.fst = some 0 ↔
          R.code = 350 ∧ R'.code = 250) ↔
        R.head = none ∧ R'.head = none ∨ R.code ≠ 350 ∨ R'.code ≠ 250) ∧
    ∀ R : Reply,
      (swallowResponse scripted (ftp.answered [R.received])).map Prod.fst ≠ some (R.code : Int) := by
  refine ⟨fun op R => ?_, fun src dest R R' => ?_, fun R => ?_⟩
  · by_cases h : op.ByLastLine
    · simp only [Op.returns_lastLine ftp h, h, true_or]
    · have hacc : op.accepts ≤ 599 := by cases op <;> simp [Op.accepts]
      rw [Op.returns_firstWord ftp h, R.firstWord_iff hacc]
      tauto
  · rw [rename_returns, R.firstWord_iff (by omega), R'.firstWord_iff (by omega)]
    tauto
  · rw [swallowResponse_returns]
    have := R.code_range
    simp only [ne_eq, Option.some.injEq]
    omega

/-- "257-a", "257 c" -/
def createdReply : Reply where
  code := 257
  head := some ([97], [])
  text := [99]
  code_range := by decide
  head_lines := by
    rintro _ ⟨⟩
    exact ⟨(by decide : IsLine [97]), by simp⟩
  text_line := by decide

theorem created_not_judged_by_code :
    ∃ ftp : Ftp Script, createdReply.code = (Op.mkdir ['x']).accepts ∧
      (Op.mkdir ['x']).returns scripted (ftp.answered [createdReply.received]) = none ∧
      (swallowResponse scripted (ftp.answered [createdReply.received])).map Prod.fst = some 0 := by
  -- A `MKD` that was answered with 257 in two lines fails the assert, and `swallowResponse` takes
  -- the code for 0.
  refine ⟨{ sock := {}, codec := ⟨fromLatin1, toAscii⟩ }, rfl, ?_, ?_⟩
  · decide +kernel
  · decide +kernel

end NullFxp.LibFtp
