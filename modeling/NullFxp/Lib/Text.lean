import Mathlib.Data.List.DropRight

/-!
# Texts made from bytes

Bytes and characters of the same number stand for each other (Latin-1). An index that is out of
range gives `none`.
-/

namespace Text

abbrev crlf : List Char := ['\r', '\n']

/-! ## Bytes and characters -/

def latin1 (b : UInt8) : Char := Char.ofNat b.toNat

/-- The text of a C string: it ends before the first NUL. -/
def fromLatin1 (bs : List UInt8) : List Char := (bs.takeWhile (· ≠ 0)).map latin1

/-- A character that has no byte becomes a question mark, or two if it needs two UTF-16 units. -/
def charBytes (c : Char) : List UInt8 :=
  if c.toNat < 256 then [UInt8.ofNat c.toNat] else if c.toNat < 65536 then [63] else [63, 63]

def toAscii (s : List Char) : List UInt8 := s.flatMap charBytes

/-! ## Parts of a text -/

def isSpace (c : Char) : Bool :=
  (9 ≤ c.toNat && c.toNat ≤ 13) || c.toNat == 0x20 || c.toNat == 0xA0 || c.toNat == 0x1680 ||
  c.toNat == 0x180E || (0x2000 ≤ c.toNat && c.toNat ≤ 0x200A) || c.toNat == 0x2028 ||
  c.toNat == 0x2029 || c.toNat == 0x202F || c.toNat == 0x205F || c.toNat == 0x3000

def trimmed (s : List Char) : List Char := (s.dropWhile isSpace).rdropWhile isSpace

/-- Element `i`, for an `i` that may be negative. -/
def elemAt {α : Type*} (l : List α) (i : Int) : Option α := if 0 ≤ i then l[i.toNat]? else none

/-- `s.mid(i, n)`, for an `i` that is not negative -/
def mid (s : List Char) (i n : Nat) : List Char := (s.drop i).take n

/-- Where `pat` begins for the last time in `s`, or -1. -/
def lastIndexOf (pat : List Char) : List Char → Int
  | [] => if pat = [] then 0 else -1
  | c :: s =>
    let i := lastIndexOf pat s
    if 0 ≤ i then i + 1 else if pat <+: c :: s then 0 else -1

/-! ## Numbers -/

def digitVal (c : Char) : Option Nat :=
  if '0' ≤ c ∧ c ≤ '9' then some (c.toNat - 48) else none

def digitsVal : Nat → List Char → Option Nat
  | acc, [] => some acc
  | acc, c :: s => (digitVal c).bind fun d => digitsVal (acc * 10 + d) s

def signedVal : List Char → Option Int
  | [] => none
  | '+' :: s => if s = [] then none else (digitsVal 0 s).map Int.ofNat
  | '-' :: s => if s = [] then none else (digitsVal 0 s).map fun n : Nat => -(n : Int)
  | s => (digitsVal 0 s).map Int.ofNat

/-- A number with blanks around it, when it lies in the range of the integer type. -/
def toNumber (lo hi : Int) (s : List Char) : Int :=
  match signedVal (trimmed s) with
  | some n => if lo ≤ n ∧ n ≤ hi then n else 0
  | none => 0

def toInt (s : List Char) : Int := toNumber (-0x80000000) 0x7fffffff s

def toULongLong (s : List Char) : Int := toNumber 0 0xffffffffffffffff s

/-! ## Laws -/

@[simp]
theorem elemAt_natCast {α : Type*} (l : List α) (i : Nat) : elemAt l (i : Int) = l[i]? := by
  simp [elemAt]

theorem elemAt_append_left {α : Type*} {l m : List α} {i : Int} {x : α} (h : elemAt l i = some x) :
    elemAt (l ++ m) i = some x := by
  unfold elemAt at h ⊢
  split at h
  · next hi =>
    rw [if_pos hi, List.getElem?_append_left (List.getElem?_eq_some_iff.mp h).1, h]
  · cases h

theorem toNat_latin1 (b : UInt8) : (latin1 b).toNat = b.toNat := by
  have hlt := b.toNat_lt
  have hv : b.toNat.isValidChar := Or.inl (by omega)
  unfold latin1 Char.ofNat
  rw [dif_pos hv]
  rfl

theorem latin1_injective : Function.Injective latin1 := by
  intro a b h
  have := congrArg Char.toNat h
  rw [toNat_latin1, toNat_latin1] at this
  exact UInt8.toNat_inj.mp this

theorem charBytes_latin1 (b : UInt8) : charBytes (latin1 b) = [b] := by
  have := b.toNat_lt
  simp [charBytes, toNat_latin1, this]

@[simp]
theorem toAscii_map_latin1 (bs : List UInt8) : toAscii (bs.map latin1) = bs := by
  induction bs with
  | nil => rfl
  | cons b bs ih =>
    change charBytes (latin1 b) ++ toAscii (bs.map latin1) = b :: bs
    rw [charBytes_latin1, ih, List.singleton_append]

@[simp]
theorem toAscii_append (s t : List Char) : toAscii (s ++ t) = toAscii s ++ toAscii t :=
  List.flatMap_append

theorem fromLatin1_of_not_mem {bs : List UInt8} (h : 0 ∉ bs) : fromLatin1 bs = bs.map latin1 := by
  rw [fromLatin1, List.takeWhile_eq_self_iff.mpr]
  intro b hb
  simpa using ne_of_mem_of_not_mem hb h

theorem latin1_zero_not_mem (bs : List UInt8) : latin1 0 ∉ fromLatin1 bs := by
  intro h
  obtain ⟨b, hb, hzero⟩ := List.mem_map.mp h
  have hne : b ≠ 0 := by simpa using List.mem_takeWhile_imp hb
  exact hne (latin1_injective hzero)

theorem latin1_ofNat {c : Char} (h : c.toNat < 256) : latin1 (UInt8.ofNat c.toNat) = c := by
  rw [latin1, UInt8.toNat_ofNat', Nat.mod_eq_of_lt h]
  exact Char.ofNat_toNat c

/-- **A text comes back from its bytes** just when each of its characters has a byte of its own
that is not NUL. -/
theorem fromLatin1_toAscii_iff (s : List Char) :
    fromLatin1 (toAscii s) = s ↔ ∀ c ∈ s, 0 < c.toNat ∧ c.toNat < 256 := by
  constructor
  · intro h c hc
    rw [← h] at hc
    obtain ⟨b, hb, rfl⟩ := List.mem_map.mp hc
    have hne : b ≠ 0 := by simpa using List.mem_takeWhile_imp hb
    have hpos : b.toNat ≠ 0 := fun h0 => hne (UInt8.toNat_inj.mp h0)
    have hlt := b.toNat_lt
    rw [toNat_latin1]
    omega
  · intro h
    have hs : (s.map fun c => UInt8.ofNat c.toNat).map latin1 = s := by
      rw [List.map_map]
      exact (List.map_congr_left fun c hc => latin1_ofNat (h c hc).2).trans (List.map_id s)
    rw [← hs, toAscii_map_latin1, fromLatin1_of_not_mem]
    intro hmem
    obtain ⟨c, hc, hzero⟩ := List.mem_map.mp hmem
    have hnat := congrArg UInt8.toNat hzero
    have := h c hc
    rw [UInt8.toNat_ofNat', Nat.mod_eq_of_lt this.2] at hnat
    change c.toNat = 0 at hnat
    omega

theorem isSpace_of_mem_crlf : ∀ c ∈ crlf, isSpace c = true := List.all_eq_true.mp (by decide)

theorem rdropWhile_append_of_forall {α : Type*} {p : α → Bool} {l w : List α} (h : ∀ x ∈ w, p x) :
    (l ++ w).rdropWhile p = l.rdropWhile p := by
  induction w using List.reverseRecOn with
  | nil => rw [List.append_nil]
  | append_singleton w x ih =>
    rw [← List.append_assoc, List.rdropWhile_concat_pos _ _ _ (h x (by simp))]
    exact ih fun y hy => h y (by simp [hy])

theorem rdropWhile_append_of_exists {α : Type*} {p : α → Bool} {l w : List α}
    (h : ∃ x ∈ w, p x = false) : (l ++ w).rdropWhile p = l ++ w.rdropWhile p := by
  induction w using List.reverseRecOn with
  | nil => simp at h
  | append_singleton w x ih =>
    rw [← List.append_assoc, List.rdropWhile_concat, List.rdropWhile_concat]
    cases hx : p x with
    | false => simp
    | true =>
      obtain ⟨y, hy, hpy⟩ := h
      rcases List.mem_append.mp hy with hy | hy
      · simpa using ih ⟨y, hy, hpy⟩
      · rw [List.mem_singleton.mp hy, hx] at hpy
        cases hpy

theorem trimmed_cons {c : Char} (s : List Char) (h : isSpace c = false) :
    trimmed (c :: s) = (c :: s).rdropWhile isSpace := by
  simp [trimmed, h]

theorem lastIndexOf_char_of_not_mem {c : Char} {s : List Char} (h : c ∉ s) :
    lastIndexOf [c] s = -1 := by
  induction s with
  | nil => simp [lastIndexOf]
  | cons d s ih =>
    simp only [List.mem_cons, not_or] at h
    rw [lastIndexOf, ih h.2]
    simp [List.cons_prefix_cons, h.1]

theorem lastIndexOf_char_append (c : Char) (s : List Char) {t : List Char} (h : c ∉ t) :
    lastIndexOf [c] (s ++ c :: t) = s.length := by
  induction s with
  | nil =>
    rw [List.nil_append, lastIndexOf, lastIndexOf_char_of_not_mem h]
    simp [List.cons_prefix_cons]
  | cons d s ih =>
    rw [List.cons_append, lastIndexOf, ih]
    simp

theorem lastIndexOf_crlf_of_not_mem {s : List Char} (h : '\r' ∉ s) : lastIndexOf crlf s = -1 := by
  induction s with
  | nil => simp [lastIndexOf]
  | cons c s ih =>
    simp only [List.mem_cons, not_or] at h
    rw [lastIndexOf, ih h.2]
    simp [List.cons_prefix_cons, h.1]

theorem lastIndexOf_crlf_append (s : List Char) {t : List Char} (h : '\r' ∉ t) :
    lastIndexOf crlf (s ++ crlf ++ t) = s.length := by
  induction s with
  | nil =>
    have ht : '\r' ∉ '\n' :: t := by simp [h]
    change lastIndexOf crlf ('\r' :: '\n' :: t) = 0
    rw [lastIndexOf, lastIndexOf_crlf_of_not_mem ht]
    simp [List.cons_prefix_cons]
  | cons c s ih =>
    change lastIndexOf crlf (c :: (s ++ crlf ++ t)) = _
    rw [lastIndexOf, ih]
    simp

theorem exists_last_of_mem {α : Type*} {c : α} {s : List α} (h : c ∈ s) :
    ∃ t u, s = t ++ c :: u ∧ c ∉ u := by
  obtain ⟨u, t, hrev, hu⟩ := List.eq_append_cons_of_mem (List.mem_reverse.mpr h)
  refine ⟨t.reverse, u.reverse, ?_, by simpa using hu⟩
  simpa using congrArg List.reverse hrev

theorem prefix_append_of_not_mem {α : Type*} {sep : α} {s t rest : List α} (hs : sep ∉ s)
    (hrest : ∀ c ∈ rest.head?, c = sep) : s <+: t ++ rest ↔ s <+: t := by
  constructor
  · intro h
    rcases List.prefix_or_prefix_of_prefix h (List.prefix_append t rest) with hst | ⟨u, rfl⟩
    · exact hst
    · cases u with
      | nil => simp
      | cons c u =>
        have hu := (List.prefix_append_right_inj t).mp h
        obtain ⟨v, rfl⟩ := hu
        obtain rfl : c = sep := hrest c (by simp)
        simp at hs
  · intro h
    exact h.trans (List.prefix_append t rest)

theorem append_prefix_append {α : Type*} {sep : α} {s t u rest : List α} (hs : sep ∉ s) (ht : sep ∉ t)
    (hrest : ∀ c ∈ rest.head?, c = sep) : s ++ sep :: u <+: t ++ rest ↔ s = t ∧ sep :: u <+: rest := by
  constructor
  · intro h
    obtain ⟨v, rfl⟩ := (prefix_append_of_not_mem hs hrest).mp ((List.prefix_append _ _).trans h)
    rw [List.append_assoc, List.prefix_append_right_inj] at h
    cases v with
    | nil => exact ⟨(List.append_nil s).symm, h⟩
    | cons c v =>
      obtain ⟨rfl, -⟩ := List.cons_prefix_cons.mp h
      simp at ht
  · rintro ⟨rfl, h⟩
    exact (List.prefix_append_right_inj s).mpr h

theorem splitOn_append {α : Type*} [BEq α] (sep : α) (s t : List α) :
    (s ++ t).splitOn sep =
      (s.splitOn sep).dropLast ++ ((s.splitOn sep).getLastD [] ++ t).splitOn sep := by
  induction s with
  | nil => simp
  | cons c s ih =>
    obtain ⟨x, xs, hx⟩ := List.exists_cons_of_ne_nil (List.splitOn_ne_nil sep s)
    rw [List.cons_append, List.splitOn_cons_eq_if_modifyHead, ih,
      List.splitOn_cons_eq_if_modifyHead c s, hx]
    by_cases hc : (c == sep) = true
    · rw [if_pos hc, if_pos hc]
      rfl
    · rw [if_neg hc, if_neg hc]
      cases xs with
      | nil =>
        change List.modifyHead _ ((x ++ t).splitOn sep) = (c :: (x ++ t)).splitOn sep
        rw [List.splitOn_cons_eq_if_modifyHead, if_neg hc]
      | cons y ys => rfl

theorem of_mem_splitOn {α : Type*} [BEq α] [LawfulBEq α] {sep : α} {s part : List α}
    (h : part ∈ s.splitOn sep) : sep ∉ part ∧ part ⊆ s := by
  induction s generalizing part with
  | nil =>
    obtain rfl : part = [] := by simpa using h
    exact ⟨List.not_mem_nil, List.nil_subset _⟩
  | cons c s ih =>
    rw [List.splitOn_cons_eq_if_modifyHead] at h
    split at h
    · rcases List.mem_cons.mp h with rfl | h
      · exact ⟨List.not_mem_nil, List.nil_subset _⟩
      · exact ⟨(ih h).1, List.subset_cons_of_subset c (ih h).2⟩
    · next hc =>
      obtain ⟨first, rest, hparts⟩ := List.exists_cons_of_ne_nil (List.splitOn_ne_nil sep s)
      rw [hparts, List.modifyHead_cons, List.mem_cons] at h
      rcases h with rfl | h
      · have hfirst := ih (show first ∈ s.splitOn sep by simp [hparts])
        refine ⟨?_, List.cons_subset_cons c hfirst.2⟩
        simp only [List.mem_cons, not_or]
        exact ⟨fun heq => hc (by simp [heq]), hfirst.1⟩
      · have hpart := ih (show part ∈ s.splitOn sep by simp [hparts, h])
        exact ⟨hpart.1, List.subset_cons_of_subset c hpart.2⟩

theorem headD_splitOn_append {α : Type*} [BEq α] [LawfulBEq α] {sep : α} {s : List α}
    (h : sep ∉ s) (t : List α) :
    ((s ++ t).splitOn sep).headD [] = s ++ (t.splitOn sep).headD [] := by
  induction s with
  | nil => rfl
  | cons c s ih =>
    simp only [List.mem_cons, not_or] at h
    obtain ⟨first, rest, hparts⟩ := List.exists_cons_of_ne_nil (List.splitOn_ne_nil sep (s ++ t))
    have ih := ih h.2
    rw [hparts] at ih
    rw [List.cons_append, List.splitOn_cons_eq_if_modifyHead, if_neg (by simpa using Ne.symm h.1),
      hparts, List.modifyHead_cons, List.headD_cons, List.cons_append, ← ih, List.headD_cons]

/-! ## Digits -/

variable {c : Char} {d : Nat}

theorem digitVal_eq_some (h : digitVal c = some d) : 48 ≤ c.toNat ∧ c.toNat ≤ 57 := by
  unfold digitVal at h
  split at h
  · next hc => exact hc
  · cases h

theorem isSpace_of_digit (h : digitVal c = some d) : isSpace c = false := by
  have := digitVal_eq_some h
  simp only [isSpace, Bool.or_eq_false_iff, Bool.and_eq_false_iff, decide_eq_false_iff_not,
    beq_eq_false_iff_ne]
  omega

theorem signedVal_of_digit (s : List Char) (h : digitVal c = some d) :
    signedVal (c :: s) = (digitsVal 0 (c :: s)).map Int.ofNat := by
  have := digitVal_eq_some h
  unfold signedVal
  split
  · next heq => cases heq
  · next heq => simp [(List.cons.inj heq).1] at this
  · next heq => simp [(List.cons.inj heq).1] at this
  · rfl

theorem trimmed_of_not_space {s : List Char} (h : ∀ c ∈ s, isSpace c = false) :
    trimmed s = s := by
  have hd : s.dropWhile isSpace = s := by
    cases s with
    | nil => rfl
    | cons c s => rw [List.dropWhile_cons_of_neg (by simp [h c])]
  rw [trimmed, hd, List.rdropWhile_eq_self_iff]
  intro hne
  simp [h _ (List.getLast_mem hne)]

theorem toNumber_digits {s : List Char} {n : Nat} (lo hi : Int) (hne : s ≠ [])
    (h : digitsVal 0 s = some n) (hs : ∀ c ∈ s, ∃ d, digitVal c = some d) :
    toNumber lo hi s = if lo ≤ n ∧ n ≤ hi then (n : Int) else 0 := by
  have htrim : trimmed s = s := by
    apply trimmed_of_not_space
    intro c hc
    obtain ⟨d, hd⟩ := hs c hc
    exact isSpace_of_digit hd
  obtain ⟨c, t, rfl⟩ := List.exists_cons_of_ne_nil hne
  obtain ⟨d, hd⟩ := hs c (by simp)
  rw [toNumber, htrim, signedVal_of_digit t hd, h]
  rfl

theorem toNumber_of_digits {s : List Char} {n : Nat} {lo hi : Int} (hne : s ≠ [])
    (h : digitsVal 0 s = some n) (hs : ∀ c ∈ s, ∃ d, digitVal c = some d)
    (hlo : lo ≤ n) (hhi : n ≤ hi) : toNumber lo hi s = n := by
  rw [toNumber_digits lo hi hne h hs, if_pos ⟨hlo, hhi⟩]

theorem digit_of_digitsVal {s : List Char} {acc n : Nat} (h : digitsVal acc s = some n) :
    ∀ c ∈ s, ∃ d, digitVal c = some d := by
  induction s generalizing acc with
  | nil => simp
  | cons c s ih =>
    rw [digitsVal, Option.bind_eq_some_iff] at h
    obtain ⟨d, hd, h⟩ := h
    intro e he
    rcases List.mem_cons.mp he with rfl | he
    · exact ⟨d, hd⟩
    · exact ih h e he

theorem digitsVal_append (acc : Nat) (s t : List Char) :
    digitsVal acc (s ++ t) = (digitsVal acc s).bind fun n => digitsVal n t := by
  induction s generalizing acc with
  | nil => rfl
  | cons c s ih =>
    rw [List.cons_append, digitsVal, digitsVal]
    cases digitVal c with
    | none => rfl
    | some d => exact ih _

theorem digitsVal_isSome {s : List Char} (acc : Nat) (h : ∀ c ∈ s, ∃ d, digitVal c = some d) :
    ∃ n, digitsVal acc s = some n := by
  induction s generalizing acc with
  | nil => exact ⟨acc, rfl⟩
  | cons c s ih =>
    obtain ⟨d, hd⟩ := h c (by simp)
    rw [digitsVal, hd]
    exact ih _ fun e he => h e (by simp [he])

theorem digitVal_digitChar (h : d < 10) : digitVal d.digitChar = some d := by
  have : ∀ d < 10, digitVal d.digitChar = some d := by decide
  exact this d h

theorem digitsVal_repr (n : Nat) : digitsVal 0 n.repr.toList = some n := by
  rw [Nat.toList_repr]
  induction n using Nat.strong_induction_on with
  | _ n ih =>
    have hlast : n % 10 < 10 := Nat.mod_lt _ (by omega)
    by_cases hn : n < 10
    · rw [Nat.toDigits_of_lt_base hn, digitsVal, digitVal_digitChar hn]
      simp [digitsVal]
    · rw [Nat.toDigits_of_base_le (by omega) (by omega), digitsVal_append, ih (n / 10) (by omega),
        Option.bind_some, digitsVal, digitVal_digitChar hlast]
      simp only [Option.bind_some, digitsVal, Option.some.injEq]
      omega

theorem digitVal_of_mem_repr {n : Nat} (h : c ∈ n.repr.toList) : ∃ d, digitVal c = some d := by
  rw [Nat.toList_repr] at h
  have hc := Nat.isDigit_of_mem_toDigits (by omega) (by omega) h
  rw [Char.isDigit_iff_toNat] at hc
  exact ⟨c.toNat - 48, if_pos hc⟩

theorem repr_toList_ne_nil (n : Nat) : n.repr.toList ≠ [] := by
  rw [Nat.toList_repr]
  exact Nat.toDigits_ne_nil

end Text
