import NullFxp.LibFtp.Codes

/-!
# The working directory

RFC 959: the reply to `PWD` has the path between double quotes, and a double quote in the path is
doubled. `pwd` cuts the path out at blanks and then at double quotes.
-/

open Text

namespace NullFxp.LibFtp

/-! ## Replies that quote a path -/

def quoted (p : Bytes) : Bytes := p.flatMap fun b => if b = 34 then [34, 34] else [b]

namespace Reply

/-- `257 "q"`, with any text after it, where `q` stands for the absolute path `p`. -/
def Quotes (R : Reply) (p : Bytes) : Prop :=
  R.head = none ∧ R.code = 257 ∧ p.head? = some 47 ∧
    ∃ t, R.text = 34 :: (quoted p ++ 34 :: t) ∧ t.head? ≠ some 34

end Reply

theorem quoted_cons (b : UInt8) (p : Bytes) :
    quoted (b :: p) = (if b = 34 then [34, 34] else [b]) ++ quoted p := List.flatMap_cons

theorem quoted_of_not_mem {p : Bytes} (h : 34 ∉ p) : quoted p = p := by
  induction p with
  | nil => rfl
  | cons b p ih =>
    simp only [List.mem_cons, not_or] at h
    rw [quoted_cons, if_neg (Ne.symm h.1), ih h.2]
    rfl

theorem quoted_injective {p q t u : Bytes} (ht : t.head? ≠ some 34) (hu : u.head? ≠ some 34)
    (h : quoted p ++ 34 :: t = quoted q ++ 34 :: u) : p = q := by
  induction p generalizing q with
  | nil =>
    cases q with
    | nil => rfl
    | cons c q =>
      rw [quoted_cons] at h
      split at h
      · simp [quoted] at h
        exact absurd (by rw [h]; rfl) ht
      · next hc => exact absurd (List.cons.inj h).1.symm hc
  | cons b p ih =>
    cases q with
    | nil =>
      rw [quoted_cons] at h
      split at h
      · simp [quoted] at h
        exact absurd (by rw [← h]; rfl) hu
      · next hb => exact absurd (List.cons.inj h).1 hb
    | cons c q =>
      rw [quoted_cons, quoted_cons] at h
      have hbc : b = c := by
        split at h <;> split at h <;> simp_all
      subst hbc
      rw [List.append_assoc, List.append_assoc, List.append_right_inj] at h
      rw [ih h]

/-! ## What `pwd` does with a reply -/

/-- The return value and the argument after the call. -/
def pwdResult (R : Reply) (path : QString) (ftp : Ftp Script) : Option (Int × QString) :=
  (pwd scripted path (ftp.answered [R.received])).map Prod.fst

variable {R : Reply} {path : QString} {ftp : Ftp Script}

theorem pwdResult_eq : pwdResult R path ftp =
    (elemAt ((fromLatin1 R.received).splitOn ' ') 1).bind fun word =>
      (elemAt (word.splitOn '"') 1).bind fun q =>
        (expect "257" (firstWord (fromLatin1 R.received))).map fun r => (r, q) := by
  unfold pwdResult pwd
  rw [command_scripted, exchange_scripted]
  change Option.map Prod.fst ((elemAt ((fromLatin1 R.received).splitOn ' ') 1).bind fun word =>
    (elemAt (word.splitOn '"') 1).bind fun q =>
      (expect "257" (firstWord (fromLatin1 R.received))).bind fun r => _) = _
  cases elemAt ((fromLatin1 R.received).splitOn ' ') 1 with
  | none => rfl
  | some word =>
    rw [Option.bind_some, Option.bind_some]
    cases elemAt (word.splitOn '"') 1 with
    | none => rfl
    | some q => cases expect "257" (firstWord (fromLatin1 R.received)) <;> rfl

theorem mem_of_elemAt {α : Type} {l : List α} {i : Int} {x : α} (h : elemAt l i = some x) :
    x ∈ l := by
  unfold elemAt at h
  split at h
  · exact List.mem_of_getElem? h
  · cases h

theorem elemAt_one_splitOn {sep : Char} {w rest : QString} (h : sep ∉ w) :
    elemAt ((w ++ sep :: rest).splitOn sep) 1 = some ((rest.splitOn sep).headD []) := by
  rw [List.splitOn_append_cons_self_of_not_mem h]
  obtain ⟨first, parts, hparts⟩ := List.exists_cons_of_ne_nil (List.splitOn_ne_nil sep rest)
  rw [hparts]
  rfl

theorem pwdResult_eq_some {r : Int} {q : QString} (h : pwdResult R path ftp = some (r, q)) :
    r = 0 ∧ ' ' ∉ q ∧ '"' ∉ q ∧ latin1 0 ∉ q := by
  rw [pwdResult_eq] at h
  obtain ⟨word, hword, h⟩ := Option.bind_eq_some_iff.mp h
  obtain ⟨q', hq, h⟩ := Option.bind_eq_some_iff.mp h
  obtain ⟨r', hr, heq⟩ := Option.map_eq_some_iff.mp h
  obtain ⟨rfl, rfl⟩ := Prod.mk.inj heq
  have hword := of_mem_splitOn (mem_of_elemAt hword)
  have hq := of_mem_splitOn (mem_of_elemAt hq)
  refine ⟨(expect_eq_some.mp hr).2, fun h => hword.1 (hq.2 h), hq.1, fun h => ?_⟩
  exact latin1_zero_not_mem _ (hword.2 (hq.2 h))

theorem pwdResult_of_quotes {p : Bytes} (h : R.Quotes p) (hspace : 32 ∉ p) (hquote : 34 ∉ p)
    (hnul : 0 ∉ p) : pwdResult R path ftp = some (0, p.map latin1) := by
  obtain ⟨hhead, hcode, -, t, htext, -⟩ := h
  have hopen : R.opening = [] := by simp [Reply.opening, hhead]
  have hnotMem : ∀ b : UInt8, b ∉ p → latin1 b ∉ p.map latin1 := by
    intro b hb hmem
    exact hb ((List.mem_map_of_injective latin1_injective).mp hmem)
  have hplain : Reply.plain R.text = '"' :: (p.map latin1 ++ '"' :: Reply.plain t) := by
    have hp : Reply.plain p = p.map latin1 := by
      rw [Reply.plain, kept, List.filter_eq_self.mpr]
      intro b hb
      simpa using ne_of_mem_of_not_mem hb hnul
    rw [htext, quoted_of_not_mem hquote]
    change '"' :: Reply.plain (p ++ 34 :: t) = _
    rw [Reply.plain_append, hp]
    rfl
  have hreply : fromLatin1 R.received =
      "257".toList ++ ' ' :: ('"' :: p.map latin1 ++ '"' :: (Reply.plain t ++ ['\r', '\n'])) := by
    rw [Reply.fromLatin1_received, hopen, hplain, hcode, show codeChars 257 = "257".toList by decide]
    simp [Reply.plain, kept]
  have hsecond : elemAt ((fromLatin1 R.received).splitOn ' ') 1 =
      some ('"' :: p.map latin1 ++ ['"'] ++ firstWord (Reply.plain t ++ ['\r', '\n'])) := by
    have hblank : ' ' ∉ '"' :: p.map latin1 ++ ['"'] := by
      have := hnotMem 32 hspace
      simp only [List.mem_append, List.mem_cons, List.not_mem_nil, not_or]
      exact ⟨⟨by decide, this⟩, by decide, fun h => h⟩
    rw [hreply, elemAt_one_splitOn (by decide), List.append_cons, headD_splitOn_append hblank]
    rfl
  have hpath : elemAt (('"' :: p.map latin1 ++ ['"'] ++
      firstWord (Reply.plain t ++ ['\r', '\n'])).splitOn '"') 1 = some (p.map latin1) := by
    rw [List.append_assoc, List.singleton_append, List.cons_append, ← List.nil_append ('"' :: _),
      elemAt_one_splitOn List.not_mem_nil, headD_splitOn_append (show '"' ∉ p.map latin1 from hnotMem 34 hquote),
      List.splitOn_cons_eq_if_modifyHead]
    simp
  have hfirst : firstWord (fromLatin1 R.received) = "257".toList := by
    rw [hreply]
    exact firstWord_append (by decide)
  rw [pwdResult_eq, hsecond, Option.bind_some, hpath, Option.bind_some, hfirst]
  rfl

/-! ## The paths that are read back -/

/-- `pwd` sets its argument to the path that the reply quotes, and else fails without a change. -/
def ReadsBack (R : Reply) (path : QString) (ftp : Ftp Script) : Prop :=
  (∀ p, R.Quotes p → pwdResult R path ftp = some (0, p.map latin1)) ∧
  ((∀ p, ¬ R.Quotes p) → pwdResult R path ftp = some (-1, path))

/-- **The working directory is read back** just when the reply quotes a path without a blank, a
double quote and a NUL. No other reply makes `pwd` fail. -/
theorem pwd_reads_back_iff (R : Reply) (path : QString) (ftp : Ftp Script) :
    ReadsBack R path ftp ↔ ∃ p, R.Quotes p ∧ 32 ∉ p ∧ 34 ∉ p ∧ 0 ∉ p := by
  constructor
  · rintro ⟨hpath, hother⟩
    by_cases hq : ∃ p, R.Quotes p
    · obtain ⟨p, hp⟩ := hq
      obtain ⟨-, hspace, hquote, hnul⟩ := pwdResult_eq_some (hpath p hp)
      exact ⟨p, hp, fun h => hspace (List.mem_map_of_mem h), fun h => hquote (List.mem_map_of_mem h),
        fun h => hnul (List.mem_map_of_mem h)⟩
    · have hzero := (pwdResult_eq_some (hother (not_exists.mp hq))).1
      omega
  · rintro ⟨p, hp, hspace, hquote, hnul⟩
    refine ⟨?_, fun hnone => absurd hp (hnone p)⟩
    intro q hq
    obtain ⟨-, -, -, t, ht, hstop⟩ := id hp
    obtain ⟨-, -, -, u, hu, hstop'⟩ := hq
    rw [← quoted_injective hstop hstop' (List.cons.inj (ht.symm.trans hu)).2]
    exact pwdResult_of_quotes hp hspace hquote hnul

/-- 257 "/home/john doe" -/
def johnDoe : Reply :=
  { Reply.short 257 createdReply.code_range with
    text := 34 :: (toAscii "/home/john doe".toList ++ [34])
    text_line := by decide }

theorem pwd_cuts_at_blank : ∃ (R : Reply) (path : QString) (ftp : Ftp Script),
    R.Quotes (toAscii "/home/john doe".toList) ∧
      pwdResult R path ftp = some (0, "/home/john".toList) ∧ ¬ ReadsBack R path ftp := by
  -- Of a path with a blank only the part before the blank is left.
  have hquotes : johnDoe.Quotes (toAscii "/home/john doe".toList) :=
    ⟨rfl, rfl, by decide, [], by decide, by decide⟩
  have hresult : pwdResult johnDoe [] { sock := {}, codec := ⟨fromLatin1, toAscii⟩ } =
      some (0, "/home/john".toList) := by
    rw [pwdResult_eq]
    decide
  refine ⟨johnDoe, [], { sock := {}, codec := ⟨fromLatin1, toAscii⟩ }, hquotes, hresult, ?_⟩
  intro h
  have := hresult.symm.trans (h.1 _ hquotes)
  exact absurd this (by decide)

end NullFxp.LibFtp
