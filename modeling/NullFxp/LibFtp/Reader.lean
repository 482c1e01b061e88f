import NullFxp.LibFtp.Reply

/-!
# Reading one reply

The control socket is read byte by byte, and the text so far is tested at every line end. `none`
is an index out of range.
-/

open Text

namespace NullFxp.LibFtp

/-- What a `waitForReadyRead` ends with. Data that is new has at least one byte. -/
inductive Arrival where
  | data (b : UInt8) (more : Bytes)
  | timeout
  deriving DecidableEq

def Arrival.bytes : Arrival → Bytes
  | .data b more => b :: more
  | .timeout => []

def delivered (as : List Arrival) : Bytes := as.flatMap Arrival.bytes

/-- The socket of the control connection: bytes that have arrived and were not read, and what the
waits to come end with. After the last of them nothing arrives. -/
structure Sock where
  unread : Bytes
  arrivals : List Arrival
  deriving DecidableEq

def Sock.pending (s : Sock) : Bytes := s.unread ++ delivered s.arrivals

def cmdEnd (sall : QString) : Option Bool := do
  let lastindex := lastIndexOf crlf (trimmed sall)
  let code := toInt (mid sall (lastindex + 2).toNat 3)
  let found ←
    if (← elemAt sall 3) = ' ' then some true
    else if 0 ≤ lastindex then
      (elemAt sall (lastindex + 5)).map fun c => c == ' ' && (0 < code && code < 1000)
    else some false
  -- the debug output of a tail that was found reads the character once more
  if found then (elemAt sall (lastindex + 5)).map fun _ => true else some false

inductive Feed where
  | ended (sall : QString) (unread : Bytes)
  | more (sall : QString)
  deriving DecidableEq

/-- The inner loop, over the bytes that are there to read. -/
def feed : QString → Bytes → Option Feed
  | sall, [] => some (.more sall)
  | sall, b :: bs =>
    let sall := sall ++ fromLatin1 [b]
    if crlf <:+ sall then
      (cmdEnd sall).bind fun cmdend => if cmdend then some (.ended sall bs) else feed sall bs
    else feed sall bs

/-- The outer loop, and the retries while nothing was read. -/
def readAllByEndSymbol (retryTimes : Nat) (sall : QString) (unread : Bytes) :
    List Arrival → Option (Bytes × Sock)
  | [] => some (toAscii sall, ⟨unread, []⟩)
  | .timeout :: as =>
    if sall = [] ∧ retryTimes ≤ 3 then readAllByEndSymbol (retryTimes + 1) sall unread as
    else some (toAscii sall, ⟨unread, as⟩)
  | .data b more :: as =>
    (feed sall (unread ++ b :: more)).bind fun
      | .ended sall unread => some (toAscii sall, ⟨unread, as⟩)
      | .more sall => readAllByEndSymbol retryTimes sall [] as

def readAll (s : Sock) : Option (Bytes × Sock) := readAllByEndSymbol 0 [] s.unread s.arrivals

/-! ## The test at a line end -/

/-- A text that begins as a reply of several lines does. -/
def Started (sall : QString) : Prop :=
  ∃ a b c t, sall = a :: b :: c :: '-' :: t ∧ isSpace a = false

def EndsEarly (l : QString) : Prop :=
  l[3]? = some ' ' ∧ 0 < toInt (l.take 3) ∧ toInt (l.take 3) < 1000

instance (l : QString) : Decidable (EndsEarly l) := inferInstanceAs (Decidable (_ ∧ _ ∧ _))

/-- A line after which the reader goes on. -/
def Harmless (l : QString) : Prop := (∀ c ∈ l, isSpace c = true) ∨ l.length ≠ 1 ∧ ¬ EndsEarly l

instance (l : QString) : Decidable (Harmless l) :=
  decidable_of_iff (l.all isSpace = true ∨ l.length ≠ 1 ∧ ¬ EndsEarly l) (by simp [Harmless])

variable {s l w : QString}

theorem Started.append (h : Started s) (t : QString) : Started (s ++ t) := by
  obtain ⟨a, b, c, u, rfl, ha⟩ := h
  exact ⟨a, b, c, u ++ t, rfl, ha⟩

theorem Started.trimmed_eq (h : Started s) : trimmed s = s.rdropWhile isSpace := by
  obtain ⟨a, b, c, u, rfl, ha⟩ := h
  exact trimmed_cons _ ha

theorem cmdEnd_of_started (h : Started s) :
    cmdEnd s = if 0 ≤ lastIndexOf crlf (trimmed s) then
      (elemAt s (lastIndexOf crlf (trimmed s) + 5)).map fun c => c == ' ' &&
        (0 < toInt (mid s (lastIndexOf crlf (trimmed s) + 2).toNat 3) &&
          toInt (mid s (lastIndexOf crlf (trimmed s) + 2).toNat 3) < 1000)
      else some false := by
  have h3 : elemAt s 3 = some '-' := by
    obtain ⟨a, b, c, u, rfl, -⟩ := h
    rfl
  unfold cmdEnd
  rw [h3]
  by_cases hi : 0 ≤ lastIndexOf crlf (trimmed s)
  · cases hc : elemAt s (lastIndexOf crlf (trimmed s) + 5) with
    | none => simp [hi, hc]
    | some c =>
      simp only [Option.bind_eq_bind, Option.bind_some, if_pos hi, hc, Option.map_some,
        show ('-' : Char) ≠ ' ' by decide, if_false]
      split
      · next hf => rw [hf]
      · next hf => rw [Bool.eq_false_iff.mpr hf]
  · simp [hi]

theorem cmdEnd_line (h : Started s) (hl : '\r' ∉ l) (hne : ∃ c ∈ l, isSpace c = false) :
    cmdEnd (s ++ crlf ++ l ++ crlf) =
      if l.length = 1 then none else some (decide (EndsEarly l)) := by
  have htrim : trimmed (s ++ crlf ++ l ++ crlf) = s ++ crlf ++ l.rdropWhile isSpace := by
    rw [(((h.append _).append _).append _).trimmed_eq, rdropWhile_append_of_forall isSpace_of_mem_crlf,
      rdropWhile_append_of_exists hne]
  have hlast : lastIndexOf crlf (trimmed (s ++ crlf ++ l ++ crlf)) = s.length := by
    rw [htrim]
    exact lastIndexOf_crlf_append s fun hmem => hl ((List.rdropWhile_prefix _ _).subset hmem)
  have hat : elemAt (s ++ crlf ++ l ++ crlf) ((s.length : Int) + 5) = (l ++ crlf)[3]? := by
    rw [show (s.length : Int) + 5 = ((s.length + 5 : Nat) : Int) by omega, elemAt_natCast]
    simp [List.getElem?_append_right]
  have hmid : mid (s ++ crlf ++ l ++ crlf) ((s.length : Int) + 2).toNat 3 = (l ++ crlf).take 3 := by
    rw [show ((s.length : Int) + 2).toNat = (s ++ crlf).length by simp; omega, mid,
      List.append_assoc, List.drop_left]
  rw [cmdEnd_of_started (((h.append _).append _).append _), hlast, hat, hmid, if_pos (by omega)]
  -- the character that is looked at stands in the line, or in its line end
  match l with
  | [] => simp at hne
  | [a] => rfl
  | [a, b] => simp [EndsEarly]
  | [a, b, c] => simp [EndsEarly]
  | a :: b :: c :: d :: t =>
    simp only [List.cons_append, List.getElem?_cons_succ, List.getElem?_cons_zero,
      Option.map_some, List.length_cons, List.take_succ_cons, List.take_zero]
    rw [if_neg (by omega)]
    simp only [EndsEarly, List.getElem?_cons_succ, List.getElem?_cons_zero, Option.some.injEq,
      List.take_succ_cons, List.take_zero, Bool.decide_and]
    rfl

theorem cmdEnd_append_blank {e : Bool} (h : Started s) (hs : cmdEnd s = some e)
    (hw : ∀ c ∈ w, isSpace c = true) : cmdEnd (s ++ w) = some e := by
  have htrim : trimmed (s ++ w) = trimmed s := by
    rw [(h.append w).trimmed_eq, h.trimmed_eq, rdropWhile_append_of_forall hw]
  rw [cmdEnd_of_started h] at hs
  rw [cmdEnd_of_started (h.append w), htrim]
  by_cases hi : 0 ≤ lastIndexOf crlf (trimmed s)
  · rw [if_pos hi] at hs ⊢
    obtain ⟨c, hc, rfl⟩ := Option.map_eq_some_iff.mp hs
    have hmid : mid (s ++ w) (lastIndexOf crlf (trimmed s) + 2).toNat 3 =
        mid s (lastIndexOf crlf (trimmed s) + 2).toNat 3 := by
      have hlen : (lastIndexOf crlf (trimmed s) + 5).toNat < s.length := by
        rw [elemAt, if_pos (by omega)] at hc
        exact (List.getElem?_eq_some_iff.mp hc).1
      rw [mid, mid, List.drop_append_of_le_length (by omega),
        List.take_append_of_le_length (by simp; omega)]
    rw [elemAt_append_left hc, hmid]
    rfl
  · rw [if_neg hi] at hs ⊢
    exact hs

/-! ## One line -/

theorem latin1_ne {b b' : UInt8} (h : b ≠ b') : latin1 b ≠ latin1 b' :=
  fun heq => h (latin1_injective heq)

theorem fromLatin1_singleton {b : UInt8} (h : b ≠ 0) : fromLatin1 [b] = [latin1 b] := by
  simp [fromLatin1, h]

theorem feed_cons (sall : QString) {b : UInt8} (h0 : b ≠ 0) (h : b ≠ 10) (bs : Bytes) :
    feed sall (b :: bs) = feed (sall ++ [latin1 b]) bs := by
  have hend : ¬ crlf <:+ sall ++ [latin1 b] := by
    intro hs
    have hc : latin1 b = '\n' := by simpa using (List.IsSuffix.getLast hs (by simp)).symm
    exact latin1_ne h (hc.trans (by decide))
  rw [feed, fromLatin1_singleton h0]
  simp only [if_neg hend]

theorem feed_append (sall : QString) {bs : Bytes} (h0 : 0 ∉ bs) (h : 10 ∉ bs) (rest : Bytes) :
    feed sall (bs ++ rest) = feed (sall ++ bs.map latin1) rest := by
  induction bs generalizing sall with
  | nil => simp
  | cons b bs ih =>
    simp only [List.mem_cons, not_or] at h0 h
    rw [List.cons_append, feed_cons sall (Ne.symm h0.1) (Ne.symm h.1), ih _ h0.2 h.2]
    simp

theorem feed_line (sall : QString) {l : Bytes} (h0 : 0 ∉ l) (h : IsLine l) (rest : Bytes) :
    feed sall (l ++ eol ++ rest) =
      (cmdEnd (sall ++ l.map latin1 ++ crlf)).bind fun cmdend =>
        if cmdend then some (.ended (sall ++ l.map latin1 ++ crlf) rest)
        else feed (sall ++ l.map latin1 ++ crlf) rest := by
  have hcr : latin1 13 = '\r' := by decide
  have hlf : fromLatin1 [10] = ['\n'] := by decide
  rw [List.append_assoc, feed_append sall h0 h.2]
  change feed _ (13 :: 10 :: rest) = _
  rw [feed_cons _ (by decide) (by decide), hcr, feed, hlf]
  have hsplit : sall ++ l.map latin1 ++ ['\r'] ++ ['\n'] = sall ++ l.map latin1 ++ crlf := by simp
  simp only [hsplit, if_pos (List.suffix_append (sall ++ l.map latin1) crlf)]

/-! ## The lines of a reply -/

/-- The reader is between two lines of a reply, and has not found its end. -/
def Open (sall : QString) : Prop := Started sall ∧ cmdEnd (sall ++ crlf) = some false

variable {sall : QString} {b : Bytes}

theorem not_mem_cr (h : IsLine b) : '\r' ∉ b.map latin1 := by
  intro hmem
  obtain ⟨x, hx, hxr⟩ := List.mem_map.mp hmem
  exact h.1 (latin1_injective (hxr.trans (show '\r' = latin1 13 by decide)) ▸ hx)

theorem cmdEnd_next (h : Open sall) (hb : IsLine b) :
    cmdEnd (sall ++ crlf ++ b.map latin1 ++ crlf) =
      if Harmless (b.map latin1) then some false
      else if b.length = 1 then none else some true := by
  by_cases hblank : ∀ c ∈ b.map latin1, isSpace c = true
  · have hh : Harmless (b.map latin1) := Or.inl hblank
    rw [if_pos hh, List.append_assoc]
    apply cmdEnd_append_blank (h.1.append crlf) h.2
    intro c hc
    rcases List.mem_append.mp hc with hc | hc
    · exact hblank c hc
    · exact isSpace_of_mem_crlf c hc
  · have hne : ∃ c ∈ b.map latin1, isSpace c = false := by simpa using hblank
    rw [cmdEnd_line h.1 (not_mem_cr hb) hne, List.length_map]
    by_cases h1 : b.length = 1
    · rw [if_pos h1, if_neg, if_pos h1]
      rintro (hall | ⟨h2, -⟩)
      · exact hblank hall
      · exact h2 (by simpa using h1)
    · by_cases he : EndsEarly (b.map latin1)
      · rw [if_neg h1, decide_eq_true he, if_neg, if_neg h1]
        rintro (hall | ⟨-, h2⟩)
        · exact hblank hall
        · exact h2 he
      · rw [if_neg h1, decide_eq_false he, if_pos]
        exact Or.inr ⟨by simpa using h1, he⟩

theorem feed_harmless (h : Open sall) (hb : IsLine b) (h0 : 0 ∉ b)
    (hh : Harmless (b.map latin1)) (rest : Bytes) :
    feed (sall ++ crlf) (b ++ eol ++ rest) = feed (sall ++ crlf ++ b.map latin1 ++ crlf) rest ∧
      Open (sall ++ crlf ++ b.map latin1) := by
  have hend := cmdEnd_next h hb
  rw [if_pos hh] at hend
  refine ⟨?_, (h.1.append _).append _, hend⟩
  rw [feed_line _ h0 hb, hend]
  rfl

theorem feed_harmful (h : Open sall) (hb : IsLine b) (h0 : 0 ∉ b)
    (hh : ¬ Harmless (b.map latin1)) (rest : Bytes) :
    feed (sall ++ crlf) (b ++ eol ++ rest) =
      if b.length = 1 then none else some (.ended (sall ++ crlf ++ b.map latin1 ++ crlf) rest) := by
  rw [feed_line _ h0 hb, cmdEnd_next h hb, if_neg hh]
  by_cases h1 : b.length = 1 <;> simp [h1]

@[simp]
theorem map_eol : eol.map latin1 = crlf := by decide

variable {ms : List Bytes}

theorem feed_lines (h : Open sall) (hl : ∀ m ∈ ms, IsLine m) (h0 : ∀ m ∈ ms, 0 ∉ m)
    (hh : ∀ m ∈ ms, Harmless (m.map latin1)) (rest : Bytes) :
    ∃ sall', feed (sall ++ crlf) (ms.flatMap (· ++ eol) ++ rest) = feed (sall' ++ crlf) rest ∧
      Open sall' ∧ sall' ++ crlf = sall ++ crlf ++ (ms.flatMap (· ++ eol)).map latin1 := by
  induction ms generalizing sall with
  | nil => exact ⟨sall, rfl, h, by simp⟩
  | cons m ms ih =>
    obtain ⟨hfeed, hopen⟩ := feed_harmless h (hl m (by simp)) (h0 m (by simp)) (hh m (by simp))
      (ms.flatMap (· ++ eol) ++ rest)
    obtain ⟨sall', hrest, hopen', htext⟩ := ih hopen (fun m hm => hl m (by simp [hm]))
      (fun m hm => h0 m (by simp [hm])) (fun m hm => hh m (by simp [hm]))
    refine ⟨sall', ?_, hopen', ?_⟩
    · rw [List.flatMap_cons, List.append_assoc, hfeed, hrest]
    · rw [htext, List.flatMap_cons, List.map_append, List.map_append, map_eol]
      simp only [List.append_assoc]

theorem feed_lines_harmful (h : Open sall) (hl : ∀ m ∈ ms, IsLine m) (h0 : ∀ m ∈ ms, 0 ∉ m)
    (hh : ¬ ∀ m ∈ ms, Harmless (m.map latin1)) (rest : Bytes) :
    feed (sall ++ crlf) (ms.flatMap (· ++ eol) ++ rest) = none ∨
      ∃ t u, feed (sall ++ crlf) (ms.flatMap (· ++ eol) ++ rest) = some (.ended t u) ∧
        rest.length ≤ u.length := by
  induction ms generalizing sall with
  | nil => simp at hh
  | cons m ms ih =>
    rw [List.flatMap_cons, List.append_assoc]
    by_cases hm : Harmless (m.map latin1)
    · obtain ⟨hfeed, hopen⟩ := feed_harmless h (hl m (by simp)) (h0 m (by simp)) hm
        (ms.flatMap (· ++ eol) ++ rest)
      rw [hfeed]
      apply ih hopen (fun m hm => hl m (by simp [hm])) (fun m hm => h0 m (by simp [hm]))
      intro hms
      exact hh fun x hx => (List.mem_cons.mp hx).elim (fun hx => hx ▸ hm) (hms x)
    · rw [feed_harmful h (hl m (by simp)) (h0 m (by simp)) hm]
      by_cases h1 : m.length = 1
      · exact Or.inl (if_pos h1)
      · exact Or.inr ⟨_, _, if_neg h1, by simp⟩

namespace Reply

variable (R : Reply)

def Readable : Prop := 0 ∉ R.bytes ∧ ∀ m ∈ R.middle, Harmless (m.map latin1)

instance : Decidable R.Readable := inferInstanceAs (Decidable (_ ∧ _))

theorem isLine_lastLine : IsLine R.lastLine := by
  have hcode := isLine_codeBytes R.code_range.2
  have htext := R.text_line
  simp only [IsLine, lastLine, List.mem_append, List.mem_cons, not_or] at hcode htext ⊢
  exact ⟨⟨hcode.1, by decide, htext.1⟩, hcode.2, by decide, htext.2⟩

theorem lastLine_map : R.lastLine.map latin1 = codeChars R.code ++ ' ' :: R.text.map latin1 := by
  rw [lastLine, List.map_append, List.map_cons]
  rfl

theorem cmdEnd_single : cmdEnd (R.lastLine.map latin1 ++ crlf) = some true := by
  have hcode : ∃ a b c, codeChars R.code = [a, b, c] ∧ isSpace a = false :=
    ⟨_, _, _, rfl, codeChars_not_space R.code_range.2 _ (by simp [codeChars, codeBytes])⟩
  have hcr := not_mem_cr R.isLine_lastLine
  rw [lastLine_map] at hcr ⊢
  obtain ⟨a, b, c, habc, ha⟩ := hcode
  rw [habc] at hcr ⊢
  have hlast : lastIndexOf crlf (trimmed ([a, b, c] ++ ' ' :: R.text.map latin1 ++ crlf)) = -1 := by
    apply lastIndexOf_crlf_of_not_mem
    change '\r' ∉ trimmed (a :: _)
    rw [trimmed_cons _ ha]
    change '\r' ∉ (([a, b, c] ++ ' ' :: R.text.map latin1) ++ crlf).rdropWhile isSpace
    rw [rdropWhile_append_of_forall isSpace_of_mem_crlf]
    exact fun hmem => hcr ((List.rdropWhile_prefix _ _).subset hmem)
  unfold cmdEnd
  rw [hlast]
  cases R.text.map latin1 <;> rfl

theorem cmdEnd_lastLine (h : Open sall) :
    cmdEnd (sall ++ crlf ++ R.lastLine.map latin1 ++ crlf) = some true := by
  have hearly : EndsEarly (R.lastLine.map latin1) := by
    rw [lastLine_map]
    refine ⟨rfl, ?_⟩
    change 0 < toInt (codeChars R.code) ∧ toInt (codeChars R.code) < 1000
    have := R.code_range
    rw [toInt_codeChars this.2]
    omega
  have hharm : ¬ Harmless (R.lastLine.map latin1) := by
    rintro (hall | ⟨-, h⟩)
    · have ha := codeChars_not_space R.code_range.2 _ (List.mem_cons_self ..)
      rw [hall _ (by rw [lastLine_map]; exact List.mem_append_left _ (List.mem_cons_self ..))] at ha
      cases ha
    · exact h hearly
  rw [cmdEnd_next h R.isLine_lastLine, if_neg hharm, if_neg]
  simp [lastLine, codeBytes]

theorem zero_not_mem_bytes (h : 0 ∉ R.bytes) : 0 ∉ R.opening ∧ 0 ∉ R.lastLine := by
  simp only [bytes, List.mem_append, not_or] at h
  exact h.1

variable {first : Bytes}

theorem feed_first (hf : IsLine first) (h0 : 0 ∉ first) (rest : Bytes) :
    feed [] (codeBytes R.code ++ 45 :: first ++ eol ++ rest) =
      feed ((codeBytes R.code ++ 45 :: first).map latin1 ++ crlf) rest ∧
      Open ((codeBytes R.code ++ 45 :: first).map latin1) := by
  have hcode := R.code_range.2
  have h0' : 0 ∉ codeBytes R.code ++ 45 :: first := by
    have := not_mem_codeBytes (b := 0) hcode (by decide)
    simp [this, h0]
  have hline : IsLine (codeBytes R.code ++ 45 :: first) := by
    have := isLine_codeBytes hcode
    simp only [IsLine, List.mem_append, List.mem_cons, not_or] at hf this ⊢
    exact ⟨⟨this.1, by decide, hf.1⟩, this.2, by decide, hf.2⟩
  have hstarted : Started ((codeBytes R.code ++ 45 :: first).map latin1) := by
    rw [List.map_append, List.map_cons]
    exact ⟨_, _, _, _, rfl, codeChars_not_space hcode _ (List.mem_cons_self ..)⟩
  have hend : cmdEnd ((codeBytes R.code ++ 45 :: first).map latin1 ++ crlf) = some false := by
    rw [cmdEnd_of_started (hstarted.append _), lastIndexOf_crlf_of_not_mem, if_neg (by decide)]
    rw [(hstarted.append _).trimmed_eq, rdropWhile_append_of_forall isSpace_of_mem_crlf]
    exact fun hmem => not_mem_cr hline ((List.rdropWhile_prefix _ _).subset hmem)
  refine ⟨?_, hstarted, hend⟩
  rw [feed_line [] h0' hline, List.nil_append, hend]
  rfl

theorem head_cases : R.head = none ∧ R.middle = [] ∧ R.opening = [] ∨
    ∃ first, R.head = some (first, R.middle) ∧ IsLine first ∧ (∀ m ∈ R.middle, IsLine m) ∧
      R.opening = codeBytes R.code ++ 45 :: first ++ eol ++ R.middle.flatMap (· ++ eol) := by
  cases h : R.head with
  | none => exact Or.inl ⟨rfl, by simp [middle, h], by simp [opening, h]⟩
  | some p =>
    obtain ⟨hfirst, hmiddle⟩ := R.head_lines p h
    have hm : R.middle = p.2 := by simp [middle, h]
    exact Or.inr ⟨p.1, by rw [hm], hfirst, by rw [hm]; exact fun m hx => (hmiddle m hx).1,
      by simp [opening, hm, h]⟩

theorem zero_not_mem_middle (h : 0 ∉ R.bytes) : ∀ m ∈ R.middle, 0 ∉ m := by
  intro m hm h0
  rcases R.head_cases with ⟨-, hmid, -⟩ | ⟨first, -, -, -, hopen⟩
  · simp [hmid] at hm
  · apply (R.zero_not_mem_bytes h).1
    rw [hopen]
    exact List.mem_append_right _ (List.mem_flatMap.mpr ⟨m, hm, List.mem_append_left _ h0⟩)

theorem feed_opening (h0 : 0 ∉ R.bytes) (hfirst : IsLine first)
    (hopen : R.opening = codeBytes R.code ++ 45 :: first ++ eol ++ R.middle.flatMap (· ++ eol))
    (rest : Bytes) : ∃ sall, Open sall ∧
      feed [] (R.bytes ++ rest) =
        feed (sall ++ crlf) (R.middle.flatMap (· ++ eol) ++ (R.lastLine ++ eol ++ rest)) ∧
      sall ++ crlf ++ (R.middle.flatMap (· ++ eol)).map latin1 = R.opening.map latin1 := by
  have h0first : 0 ∉ first := by
    have := (R.zero_not_mem_bytes h0).1
    simp only [hopen, List.mem_append, List.mem_cons, not_or] at this
    exact this.1.1.2.2
  obtain ⟨hfeed, hO⟩ := R.feed_first hfirst h0first
    (R.middle.flatMap (· ++ eol) ++ (R.lastLine ++ eol ++ rest))
  have hsplit : R.bytes ++ rest = codeBytes R.code ++ 45 :: first ++ eol ++
      (R.middle.flatMap (· ++ eol) ++ (R.lastLine ++ eol ++ rest)) := by
    simp [bytes, hopen]
  refine ⟨_, hO, by rw [hsplit, hfeed], ?_⟩
  rw [hopen, ← map_eol]
  simp only [List.map_append]

/-- **A reply that is readable is read to its end**, whatever follows. -/
theorem feed_readable (h : R.Readable) (rest : Bytes) :
    feed [] (R.bytes ++ rest) = some (.ended (R.bytes.map latin1) rest) := by
  obtain ⟨h0, hh⟩ := h
  have h0last := (R.zero_not_mem_bytes h0).2
  rcases R.head_cases with ⟨-, -, hopen⟩ | ⟨first, -, hfirst, hmiddle, hopen⟩
  · rw [bytes, hopen, List.nil_append, feed_line [] h0last R.isLine_lastLine, List.nil_append,
      R.cmdEnd_single, List.map_append, map_eol]
    rfl
  · obtain ⟨sall, hO, hfeed, htext⟩ := R.feed_opening h0 hfirst hopen rest
    obtain ⟨sall', hlines, hO', htext'⟩ := feed_lines hO hmiddle (R.zero_not_mem_middle h0) hh
      (R.lastLine ++ eol ++ rest)
    rw [hfeed, hlines, feed_line _ h0last R.isLine_lastLine, R.cmdEnd_lastLine hO', htext', htext,
      bytes, List.map_append, List.map_append, map_eol]
    rfl

theorem feed_not_readable (h0 : 0 ∉ R.bytes) (hh : ¬ ∀ m ∈ R.middle, Harmless (m.map latin1))
    (rest : Bytes) : feed [] (R.bytes ++ rest) = none ∨
      ∃ t u, feed [] (R.bytes ++ rest) = some (.ended t u) ∧ rest.length < u.length := by
  rcases R.head_cases with ⟨-, hmid, -⟩ | ⟨first, -, hfirst, hmiddle, hopen⟩
  · simp [hmid] at hh
  · obtain ⟨sall, hO, hfeed, -⟩ := R.feed_opening h0 hfirst hopen rest
    rw [hfeed]
    rcases feed_lines_harmful hO hmiddle (R.zero_not_mem_middle h0) hh (R.lastLine ++ eol ++ rest)
      with hnone | ⟨t, u, hsome, hlen⟩
    · exact Or.inl hnone
    · refine Or.inr ⟨t, u, hsome, ?_⟩
      simp only [List.length_append, List.length_cons, List.length_nil] at hlen
      omega

end Reply

/-! ## Arrivals -/

/-- What the loop keeps of the bytes that it reads. -/
abbrev kept (bs : Bytes) : Bytes := bs.filter (· ≠ 0)

theorem fromLatin1_eq_kept (b : UInt8) : fromLatin1 [b] = (kept [b]).map latin1 := by
  by_cases h : b = 0 <;> simp [fromLatin1, kept, h]

theorem feed_ended {bs u : Bytes} {t : QString} (h : feed sall bs = some (.ended t u)) :
    ∃ read, bs = read ++ u ∧ t = sall ++ (kept read).map latin1 := by
  induction bs generalizing sall with
  | nil => simp [feed] at h
  | cons b bs ih =>
    have hgo : feed (sall ++ fromLatin1 [b]) bs = some (.ended t u) →
        ∃ read, b :: bs = read ++ u ∧ t = sall ++ (kept read).map latin1 := by
      intro h
      obtain ⟨read, rfl, rfl⟩ := ih h
      refine ⟨b :: read, rfl, ?_⟩
      rw [fromLatin1_eq_kept, List.append_assoc, ← List.map_append, ← List.filter_append,
        List.singleton_append]
    unfold feed at h
    simp only at h
    split at h
    · obtain ⟨e, -, he⟩ := Option.bind_eq_some_iff.mp h
      cases e with
      | false => exact hgo he
      | true =>
        simp only [if_true, Option.some.injEq, Feed.ended.injEq] at he
        exact ⟨[b], by simp [he.2], by rw [← fromLatin1_eq_kept, he.1]⟩
    · exact hgo h

theorem feed_more {bs : Bytes} {t : QString} (h : feed sall bs = some (.more t)) :
    t = sall ++ (kept bs).map latin1 := by
  induction bs generalizing sall with
  | nil => simpa [feed, eq_comm] using h
  | cons b bs ih =>
    have hgo : feed (sall ++ fromLatin1 [b]) bs = some (.more t) →
        t = sall ++ (kept (b :: bs)).map latin1 := by
      intro h
      rw [ih h, fromLatin1_eq_kept, List.append_assoc, ← List.map_append, ← List.filter_append,
        List.singleton_append]
    unfold feed at h
    simp only at h
    split at h
    · obtain ⟨e, -, he⟩ := Option.bind_eq_some_iff.mp h
      cases e with
      | false => exact hgo he
      | true => simp at he
    · exact hgo h

theorem feed_append_bytes (sall : QString) (bs cs : Bytes) :
    feed sall (bs ++ cs) = (feed sall bs).bind fun
      | .ended t u => some (.ended t (u ++ cs))
      | .more t => feed t cs := by
  induction bs generalizing sall with
  | nil => rfl
  | cons b bs ih =>
    rw [List.cons_append, feed, feed]
    split
    · cases cmdEnd (sall ++ fromLatin1 [b]) with
      | none => rfl
      | some e =>
        cases e with
        | false => simpa using ih _
        | true => rfl
    · exact ih _

theorem delivered_append (as bs : List Arrival) :
    delivered (as ++ bs) = delivered as ++ delivered bs := List.flatMap_append

theorem delivered_timeouts (k : Nat) : delivered (List.replicate k .timeout) = [] := by
  simp [delivered, List.flatMap_replicate, Arrival.bytes]

/-- **The reader hands over what it takes from the socket**, without the NULs. -/
theorem readAllByEndSymbol_takes {n : Nat} {unread ball : Bytes} {as : List Arrival} {s' : Sock}
    (h : readAllByEndSymbol n sall unread as = some (ball, s')) :
    ∃ read, unread ++ delivered as = read ++ s'.pending ∧ ball = toAscii sall ++ kept read := by
  induction as generalizing n sall unread with
  | nil =>
    obtain ⟨rfl, rfl⟩ : toAscii sall = ball ∧ ⟨unread, []⟩ = s' := by
      simpa [readAllByEndSymbol] using h
    exact ⟨[], rfl, by simp⟩
  | cons a as ih =>
    cases a with
    | timeout =>
      rw [readAllByEndSymbol] at h
      split at h
      · exact ih h
      · obtain ⟨rfl, rfl⟩ : toAscii sall = ball ∧ ⟨unread, as⟩ = s' := by simpa using h
        exact ⟨[], rfl, by simp⟩
    | data b more =>
      rw [readAllByEndSymbol] at h
      obtain ⟨r, hr, h⟩ := Option.bind_eq_some_iff.mp h
      have hbytes : unread ++ delivered (.data b more :: as) =
          unread ++ b :: more ++ delivered as := by
        simp [delivered, Arrival.bytes]
      rw [hbytes]
      cases r with
      | ended t u =>
        obtain ⟨rfl, rfl⟩ : toAscii t = ball ∧ ⟨u, as⟩ = s' := by simpa using h
        obtain ⟨read, hread, rfl⟩ := feed_ended hr
        exact ⟨read, by rw [hread, List.append_assoc]; rfl, by simp⟩
      | more t =>
        obtain ⟨read, hread, rfl⟩ := ih h
        rw [feed_more hr]
        refine ⟨unread ++ b :: more ++ read, ?_, ?_⟩
        · rw [List.append_assoc _ read, ← hread]
          rfl
        · rw [toAscii_append, toAscii_map_latin1, List.append_assoc, ← List.filter_append]

section Packets

variable {packets : List Arrival} (hp : .timeout ∉ packets) (later : List Arrival) {n : Nat}
include hp

theorem readAllByEndSymbol_ended {t : QString} {u : Bytes}
    (h : feed sall (delivered packets) = some (.ended t u)) :
    ∃ s' rest, readAllByEndSymbol n sall [] (packets ++ later) = some (toAscii t, s') ∧
      s'.arrivals = rest ++ later ∧ rest <:+ packets ∧ s'.unread ++ delivered rest = u := by
  induction packets generalizing sall with
  | nil => simp [delivered, feed] at h
  | cons a packets ih =>
    simp only [List.mem_cons, not_or] at hp
    cases a with
    | timeout => exact absurd rfl hp.1
    | data b more =>
      change feed sall ((b :: more) ++ delivered packets) = _ at h
      rw [feed_append_bytes] at h
      obtain ⟨r, hr, h⟩ := Option.bind_eq_some_iff.mp h
      rw [List.cons_append, readAllByEndSymbol, List.nil_append, hr]
      cases r with
      | ended t' u' =>
        obtain ⟨rfl, rfl⟩ : t' = t ∧ u' ++ delivered packets = u := by simpa using h
        exact ⟨_, packets, rfl, rfl, List.suffix_cons _ _, rfl⟩
      | more t' =>
        obtain ⟨s', rest, hs, harr, hsuf, hu⟩ := ih hp.2 h
        exact ⟨s', rest, hs, harr, hsuf.trans (List.suffix_cons _ _), hu⟩

theorem readAllByEndSymbol_none (h : feed sall (delivered packets) = none) :
    readAllByEndSymbol n sall [] (packets ++ later) = none := by
  induction packets generalizing sall with
  | nil => simp [delivered, feed] at h
  | cons a packets ih =>
    simp only [List.mem_cons, not_or] at hp
    cases a with
    | timeout => exact absurd rfl hp.1
    | data b more =>
      change feed sall ((b :: more) ++ delivered packets) = _ at h
      rw [feed_append_bytes] at h
      rw [List.cons_append, readAllByEndSymbol, List.nil_append]
      cases hr : feed sall (b :: more) with
      | none => rfl
      | some r =>
        rw [hr] at h
        cases r with
        | ended t' u' => simp at h
        | more t' => exact ih hp.2 h

end Packets

theorem readAllByEndSymbol_timeouts {n k : Nat} (hk : n + k ≤ 4) (as : List Arrival) :
    readAllByEndSymbol n [] [] (List.replicate k .timeout ++ as) =
      readAllByEndSymbol (n + k) [] [] as := by
  induction k generalizing n with
  | zero => rfl
  | succ k ih =>
    rw [List.replicate_succ, List.cons_append, readAllByEndSymbol, if_pos ⟨rfl, by omega⟩,
      ih (by omega), Nat.add_assoc, Nat.add_comm 1 k]

/-- The first `len` bytes come without a pause, and the first of them before the reader gives up. -/
def Prompt (len : Nat) (as : List Arrival) : Prop :=
  ∃ k packets later, k ≤ 4 ∧ as = List.replicate k .timeout ++ packets ++ later ∧
    .timeout ∉ packets ∧ len ≤ (delivered packets).length

theorem packets_of_read {n : Nat} {unread ball : Bytes} {as : List Arrival} {s' : Sock}
    (hs : sall ≠ []) (h : readAllByEndSymbol n sall unread as = some (ball, s')) :
    ∃ packets later, as = packets ++ later ∧ .timeout ∉ packets ∧
      (delivered later).length ≤ s'.pending.length := by
  induction as generalizing n sall unread with
  | nil => exact ⟨[], [], rfl, by simp, by simp [delivered]⟩
  | cons a as ih =>
    cases a with
    | timeout =>
      rw [readAllByEndSymbol, if_neg fun h => hs h.1] at h
      obtain ⟨-, rfl⟩ : toAscii sall = ball ∧ ⟨unread, as⟩ = s' := by simpa using h
      exact ⟨[], .timeout :: as, rfl, by simp, by simp [Sock.pending, delivered, Arrival.bytes]⟩
    | data b more =>
      rw [readAllByEndSymbol] at h
      obtain ⟨r, hr, h⟩ := Option.bind_eq_some_iff.mp h
      cases r with
      | ended t u =>
        obtain ⟨-, rfl⟩ : toAscii t = ball ∧ ⟨u, as⟩ = s' := by simpa using h
        exact ⟨[.data b more], as, rfl, by simp, by simp [Sock.pending]⟩
      | more t =>
        have ht : t ≠ [] := by
          rw [feed_more hr]
          simp [hs]
        obtain ⟨packets, later, rfl, hp, hlen⟩ := ih ht h
        exact ⟨.data b more :: packets, later, rfl, by simpa using hp, hlen⟩

theorem prompt_of_read {n : Nat} {ball : Bytes} {as : List Arrival} {s' : Sock} (hn : n ≤ 4)
    (hfirst : (delivered as).head? ≠ some 0) (hball : ball ≠ [])
    (h : readAllByEndSymbol n [] [] as = some (ball, s')) :
    ∃ k packets later, n + k ≤ 4 ∧ as = List.replicate k .timeout ++ packets ++ later ∧
      .timeout ∉ packets ∧ (delivered later).length ≤ s'.pending.length := by
  induction as generalizing n with
  | nil =>
    obtain ⟨rfl, -⟩ : [] = ball ∧ ⟨[], []⟩ = s' := by simpa [readAllByEndSymbol, toAscii] using h
    exact absurd rfl hball
  | cons a as ih =>
    cases a with
    | timeout =>
      rw [readAllByEndSymbol] at h
      split at h
      · next hretry =>
        obtain ⟨k, packets, later, hk, rfl, hp, hlen⟩ := ih (by omega) hfirst h
        exact ⟨k + 1, packets, later, by omega, rfl, hp, hlen⟩
      · obtain ⟨rfl, -⟩ : [] = ball ∧ ⟨[], as⟩ = s' := by simpa [toAscii] using h
        exact absurd rfl hball
    | data b more =>
      rw [readAllByEndSymbol] at h
      obtain ⟨r, hr, h⟩ := Option.bind_eq_some_iff.mp h
      cases r with
      | ended t u =>
        obtain ⟨-, rfl⟩ : toAscii t = ball ∧ ⟨u, as⟩ = s' := by simpa using h
        exact ⟨0, [.data b more], as, hn, rfl, by simp, by simp [Sock.pending]⟩
      | more t =>
        have hb : b ≠ 0 := by simpa [delivered, Arrival.bytes] using hfirst
        have ht : t ≠ [] := by
          rw [feed_more hr]
          simp [kept, hb]
        obtain ⟨packets, later, rfl, hp, hlen⟩ := packets_of_read ht h
        exact ⟨0, .data b more :: packets, later, hn, rfl, by simpa using hp, hlen⟩

namespace Reply

variable (R : Reply) {further : Bytes} {as : List Arrival}

theorem bytes_head? : R.bytes.head? ≠ some 0 := by
  have hcode := not_mem_codeBytes (b := 0) R.code_range.2 (by decide)
  have hdigit : ∃ b bs, R.bytes = b :: bs ∧ b ∈ codeBytes R.code := by
    rcases R.head_cases with ⟨-, -, hopen⟩ | ⟨first, -, -, -, hopen⟩
    · exact ⟨_, _, by rw [bytes, hopen]; rfl, List.mem_cons_self ..⟩
    · exact ⟨_, _, by rw [bytes, hopen]; rfl, List.mem_cons_self ..⟩
  obtain ⟨b, bs, hb, hmem⟩ := hdigit
  rw [hb, List.head?_cons]
  rintro ⟨⟩
  exact hcode hmem

theorem bytes_ne_nil : R.bytes ≠ [] := by simp [bytes]

theorem readable_short (code : Nat) (h : 100 ≤ code ∧ code ≤ 599) : (short code h).Readable := by
  have h0 := not_mem_codeBytes (b := 0) h.2 (by decide)
  refine ⟨?_, by simp [short, middle]⟩
  change 0 ∉ codeBytes code ++ [32, 13, 10]
  simp [h0]

theorem readAll_of_readable (h : delivered as = R.bytes ++ further) (hr : R.Readable)
    (hp : Prompt R.bytes.length as) :
    ∃ s, readAll ⟨[], as⟩ = some (R.bytes, s) ∧ s.pending = further := by
  obtain ⟨k, packets, later, hk, rfl, hnot, hlen⟩ := hp
  rw [delivered_append, delivered_append, delivered_timeouts, List.nil_append] at h
  obtain ⟨f, hf⟩ := List.prefix_of_prefix_length_le ⟨further, h.symm⟩ (List.prefix_append _ _) hlen
  have hfurther : further = f ++ delivered later := by
    rw [← hf, List.append_assoc] at h
    exact (List.append_cancel_left h).symm
  obtain ⟨s, rest, hs, harr, -, hu⟩ := readAllByEndSymbol_ended (n := 0 + k) hnot later
    (hf ▸ R.feed_readable hr f)
  have hpend : s.pending = further := by
    rw [Sock.pending, harr, delivered_append, ← List.append_assoc, hu, hfurther]
  refine ⟨s, ?_, hpend⟩
  rw [readAll, List.append_assoc, readAllByEndSymbol_timeouts (by omega), hs, toAscii_map_latin1]

/-- **The reader takes exactly one reply from the socket** just if the reply is readable and comes
without a pause. -/
theorem readAll_iff (h : delivered as = R.bytes ++ further) :
    (∃ s, readAll ⟨[], as⟩ = some (R.bytes, s) ∧ s.pending = further) ↔
      R.Readable ∧ Prompt R.bytes.length as := by
  refine ⟨?_, fun ⟨hr, hp⟩ => R.readAll_of_readable h hr hp⟩
  rintro ⟨s, hs, rfl⟩
  obtain ⟨read, hread, hball⟩ := readAllByEndSymbol_takes hs
  simp only [List.nil_append, h, List.append_cancel_right_eq, toAscii, List.flatMap_nil]
    at hread hball
  -- what was read is the reply, and it has lost no NUL
  subst hread
  have h0 : 0 ∉ R.bytes := by
    intro hmem
    rw [hball] at hmem
    simp [kept] at hmem
  have hhead : (delivered as).head? ≠ some 0 := by
    rw [h, List.head?_append_of_ne_nil _ R.bytes_ne_nil]
    exact R.bytes_head?
  obtain ⟨k, packets, later, hk, rfl, hnot, hlen⟩ :=
    prompt_of_read (by omega) hhead R.bytes_ne_nil hs
  rw [delivered_append, delivered_append, delivered_timeouts, List.nil_append] at h
  have hlen' : R.bytes.length ≤ (delivered packets).length := by
    have := congrArg List.length h
    simp only [List.length_append] at this
    omega
  refine ⟨⟨h0, ?_⟩, k, packets, later, by omega, rfl, hnot, hlen'⟩
  by_contra hh
  obtain ⟨f, hf⟩ :=
    List.prefix_of_prefix_length_le ⟨s.pending, h.symm⟩ (List.prefix_append _ _) hlen'
  rw [readAll, List.append_assoc, readAllByEndSymbol_timeouts (by omega)] at hs
  rcases R.feed_not_readable h0 hh f with hnone | ⟨t, u, hsome, hlt⟩
  · rw [hf] at hnone
    rw [readAllByEndSymbol_none hnot later hnone] at hs
    cases hs
  · rw [hf] at hsome
    obtain ⟨s', rest, hs', harr, -, hu⟩ := readAllByEndSymbol_ended (n := 0 + k) hnot later hsome
    have hpend : s'.pending = u ++ delivered later := by
      rw [Sock.pending, harr, delivered_append, ← List.append_assoc, hu]
    rw [hs', Option.some.injEq, Prod.mk.injEq] at hs
    rw [← hs.2, ← hf, List.append_assoc] at h
    have := congrArg List.length (List.append_cancel_left h)
    rw [hpend, List.length_append, List.length_append] at this
    omega

/-- "220-a", the lines, and "220 b" -/
def welcome (lines : List Bytes)
    (h : ∀ l ∈ lines, IsLine l ∧ beginsWithCode l = false) : Reply where
  code := 220
  head := some ([97], lines)
  text := [98]
  code_range := by decide
  head_lines := by
    rintro _ ⟨⟩
    exact ⟨(by decide : IsLine [97]), h⟩
  text_line := by decide

theorem readAll_iff_welcome : ∃ R as,
    R = welcome [[], toAscii "c d".toList] (by decide) ∧
    delivered as = R.bytes ++ [51] ∧
    ∃ s, readAll ⟨[], as⟩ = some (R.bytes, s) ∧ s.pending = [51] := by
  -- one timeout, and two packets, with the "3" of another reply in the second one
  refine ⟨_, [.timeout, .data 50 (toAscii "20".toList),
    .data 45 (toAscii "a\r\n\r\nc d\r\n220 b\r\n3".toList)], rfl, by decide, ?_⟩
  exact (readAll_iff _ (by decide)).mpr ⟨by decide, 1,
    [.data 50 (toAscii "20".toList), .data 45 (toAscii "a\r\n\r\nc d\r\n220 b\r\n3".toList)], [],
    by decide, by decide, by decide, by decide⟩

theorem readAll_short_line :
    (∃ R as, R = welcome [toAscii "x".toList] (by decide) ∧ .timeout ∉ as ∧
      delivered as = R.bytes ∧ readAll ⟨[], as⟩ = none) ∧
    ∃ R as, R = welcome [toAscii " 12 x".toList] (by decide) ∧ .timeout ∉ as ∧
      delivered as = R.bytes ∧
      readAll ⟨[], as⟩ = some (toAscii "220-a\r\n 12 x\r\n".toList,
        ⟨toAscii "220 b\r\n".toList, []⟩) := by
  -- The line "x" takes the reader out of its buffer, and the line " 12 x" ends it.
  refine ⟨⟨_, [.data 50 (toAscii "20-a\r\nx\r\n220 b\r\n".toList)], rfl, by decide, by decide,
    by decide +kernel⟩, ?_⟩
  exact ⟨_, [.data 50 (toAscii "20-a\r\n 12 x\r\n220 b\r\n".toList)], rfl, by decide, by decide,
    by decide +kernel⟩

end Reply

end NullFxp.LibFtp
