import NullFxp.Lib.RegexLaws
import NullFxp.LibFtp.Listing

/-!
# Unix lines of a listing

What a server of the Unix kind writes for an entry, and what the pattern makes of it: `\s+` takes a
whole run of blanks and every group takes a whole token.
-/

open Text Regex

namespace NullFxp.LibFtp

/-! ## The pieces of a line -/

/-- A Latin-1 character. No text of a line has a NUL. -/
def IsLatin1 (c : Char) : Prop := 0 < c.toNat ∧ c.toNat < 256

instance (c : Char) : Decidable (IsLatin1 c) :=
  inferInstanceAs (Decidable (0 < c.toNat ∧ c.toNat < 256))

def Blanks : Type := { w : QString // w ≠ [] ∧ ∀ c ∈ w, isSpace c = true ∧ IsLatin1 c }

def Token : Type := { w : QString // w ≠ [] ∧ ∀ c ∈ w, isSpace c = false ∧ IsLatin1 c }

/-- A name may have blanks in it, but does not begin or end with one. -/
def Name : Type :=
  { w : QString // w ≠ [] ∧ (∀ c ∈ w.head?, isSpace c = false) ∧
    (∀ c ∈ w.getLast?, isSpace c = false) ∧ ∀ c ∈ w, IsLatin1 c }

/-- A decimal number -/
def Number : Type := { w : QString // w ≠ [] ∧ ∀ c ∈ w, ∃ d, digitVal c = some d }

/-- What stands for the right to execute: `x`, nothing, or a letter of the special bits. -/
inductive Exe where
  | off | on | specialOff | specialOn
  deriving DecidableEq

def Exe.char (s t : Char) : Exe → Char
  | off => '-'
  | on => 'x'
  | specialOff => t
  | specialOn => s

structure Mode where
  readOwner : Bool
  writeOwner : Bool
  exeOwner : Exe
  readGroup : Bool
  writeGroup : Bool
  exeGroup : Exe
  readOther : Bool
  writeOther : Bool
  exeOther : Exe

def Mode.text (m : Mode) : QString :=
  [if m.readOwner then 'r' else '-', if m.writeOwner then 'w' else '-', m.exeOwner.char 's' 'S',
   if m.readGroup then 'r' else '-', if m.writeGroup then 'w' else '-', m.exeGroup.char 's' 'S',
   if m.readOther then 'r' else '-', if m.writeOther then 'w' else '-', m.exeOther.char 't' 'T']

inductive Kind where
  | dir
  | file
  | link (target : Name)

def Kind.char : Kind → Char
  | dir => 'd'
  | file => '-'
  | link _ => 'l'

def Kind.isFile : Kind → Bool
  | file => true
  | _ => false

def Kind.isSymLink : Kind → Bool
  | link _ => true
  | _ => false

theorem Kind.char_cases (k : Kind) : k.char = 'd' ∨ k.char = '-' ∨ k.char = 'l' := by
  cases k with
  | dir => exact .inl rfl
  | file => exact .inr (.inl rfl)
  | link target => exact .inr (.inr rfl)

structure UnixLine where
  kind : Kind
  mode : Mode
  gap1 : Blanks
  links : Number
  gap2 : Blanks
  owner : Token
  gap3 : Blanks
  group : Token
  gap4 : Blanks
  size : Number
  gap5 : Blanks
  month : Token
  gap6 : Blanks
  day : Token
  gap7 : Blanks
  year : Token
  gap8 : Blanks
  name : Name
  /-- the line break, or nothing -/
  eol : QString
  size_range : ∀ n ∈ digitsVal 0 size.1, n < 0x8000000000000000
  name_arrow : ∀ target, kind = .link target → ¬ " ->".toList <:+: name.1
  eol_blank : ∀ c ∈ eol, isSpace c = true ∧ IsLatin1 c

namespace UnixLine

variable (L : UnixLine)

def sizeVal : Nat := (digitsVal 0 L.size.1).getD 0

def date : QString := L.month.1 ++ (L.gap6.1 ++ (L.day.1 ++ (L.gap7.1 ++ L.year.1)))

/-- The name, and for a link the arrow and the target. -/
def rest : QString :=
  match L.kind with
  | .link target => L.name.1 ++ " -> ".toList ++ target.1
  | _ => L.name.1

def text : QString :=
  [L.kind.char] ++ (L.mode.text ++ (L.gap1.1 ++ (L.links.1 ++ (L.gap2.1 ++ (L.owner.1 ++
    (L.gap3.1 ++ (L.group.1 ++ (L.gap4.1 ++ (L.size.1 ++ (L.gap5.1 ++ (L.date ++
      (L.gap8.1 ++ L.rest))))))))))))

def bytes : Bytes := toAscii (L.text ++ L.eol)

end UnixLine

/-! ## How the pattern reads the pieces -/

theorem not_digit_of_isSpace {c : Char} (h : isSpace c = true) : digit c = false := by
  by_contra hd
  rw [Bool.not_eq_false] at hd
  have hval : ∃ n, digitVal c = some n := by
    refine ⟨c.toNat - 48, if_pos ?_⟩
    simpa [digit] using hd
  obtain ⟨n, hn⟩ := hval
  rw [isSpace_of_digit hn] at h
  cases h

section

variable {t : List Char}

theorem Blanks.reads (b : Blanks) (h : Ends isSpace t) : (Pat.plus isSpace).Reads b.1 t [] :=
  Pat.reads_plus b.2.1 (fun c hc => (b.2.2 c hc).1) h

theorem Blanks.ends_notSpace (b : Blanks) : Ends notSpace (b.1 ++ t) :=
  ends_append b.2.1 fun c hc => by
    simp [notSpace, (b.2.2 c (List.mem_of_mem_head? hc)).1]

theorem Blanks.ends_digit (b : Blanks) : Ends digit (b.1 ++ t) :=
  ends_append b.2.1 fun c hc => not_digit_of_isSpace (b.2.2 c (List.mem_of_mem_head? hc)).1

theorem Token.all_notSpace (k : Token) : ∀ c ∈ k.1, notSpace c = true := by
  intro c hc
  simp [notSpace, (k.2.2 c hc).1]

theorem Token.ends (k : Token) : Ends isSpace (k.1 ++ t) :=
  ends_append k.2.1 fun c hc => (k.2.2 c (List.mem_of_mem_head? hc)).1

theorem Number.all_digit (n : Number) : ∀ c ∈ n.1, digit c = true := by
  intro c hc
  obtain ⟨d, hd⟩ := n.2.2 c hc
  exact digit_of_digitVal hd

theorem Number.ends (n : Number) : Ends isSpace (n.1 ++ t) :=
  ends_append n.2.1 fun c hc => by
    obtain ⟨d, hd⟩ := n.2.2 c (List.mem_of_mem_head? hc)
    exact isSpace_of_digit hd

end

namespace UnixLine

variable (L : UnixLine)

theorem rest_ne_nil : L.rest ≠ [] := by
  have := L.name.2.1
  unfold rest
  split <;> simp [this]

theorem rest_ends : Ends isSpace L.rest := by
  have hname : Ends isSpace (L.name.1 ++ []) := ends_append L.name.2.1 L.name.2.2.1
  unfold rest
  split
  · rw [List.append_assoc]
    exact ends_append L.name.2.1 L.name.2.2.1
  · rwa [List.append_nil] at hname

theorem forall_mode {P : Char → Prop} (hdash : P '-') (hr : P 'r') (hw : P 'w')
    (hexe : ∀ x : Exe, P (x.char 's' 'S') ∧ P (x.char 't' 'T')) (m : Mode) : ∀ c ∈ m.text, P c := by
  have hletter : ∀ (b : Bool) {c : Char}, P c → P (if b then c else '-') := by
    intro b c hc
    cases b
    · exact hdash
    · exact hc
  simp only [Mode.text, List.forall_mem_cons]
  exact ⟨hletter _ hr, hletter _ hw, (hexe _).1, hletter _ hr, hletter _ hw, (hexe _).1,
    hletter _ hr, hletter _ hw, (hexe _).2, fun c hc => absurd hc List.not_mem_nil⟩

theorem mode_reads (m : Mode) (t : List Char) :
    (Pat.group (.times 9 (.one modeChar))).Reads m.text t [m.text] := by
  have hexe : ∀ x : Exe, modeChar (x.char 's' 'S') = true ∧ modeChar (x.char 't' 'T') = true := by
    intro x
    cases x <;> decide
  have hmode : ∀ c ∈ m.text, modeChar c = true := forall_mode (by decide) (by decide) (by decide) hexe m
  have htext : m.text ≠ [] := by simp [Mode.text]
  exact Pat.reads_group (Pat.reads_times htext hmode)

theorem date_reads {t : List Char} (h : Ends notSpace t) :
    (Pat.group (.ofList [.plus notSpace, .plus isSpace, .plus notSpace, .plus isSpace,
      .plus notSpace])).Reads L.date t [L.date] := by
  have hword : ∀ (k : Token) {t : List Char}, Ends notSpace t → (Pat.plus notSpace).Reads k.1 t [] :=
    fun k t ht => Pat.reads_plus k.2.1 k.all_notSpace ht
  apply Pat.reads_group
  refine Pat.reads_seq (hword L.month ?_) (Pat.reads_seq (L.gap6.reads ?_) ?_)
  · rw [List.append_assoc]
    exact L.gap6.ends_notSpace
  · rw [List.append_assoc]
    exact L.day.ends
  refine Pat.reads_seq (hword L.day ?_) (Pat.reads_seq (L.gap7.reads ?_) (hword L.year h))
  · rw [List.append_assoc]
    exact L.gap7.ends_notSpace
  · exact L.year.ends

theorem pattern_reads : unixPattern.Reads L.text []
    [[L.kind.char], L.mode.text, L.owner.1, L.group.1, L.size.1, L.date, L.rest] := by
  have hkind : (Pat.group (.one fun c => c == '-' || c == 'd' || c == 'l')).Reads [L.kind.char]
      (L.text.drop 1 ++ []) [[L.kind.char]] := by
    apply Pat.reads_group
    apply Pat.reads_one
    cases L.kind <;> rfl
  have hword : ∀ (k : Token) {t : List Char}, Ends notSpace t →
      (Pat.group (.many notSpace)).Reads k.1 t [k.1] :=
    fun k t ht => Pat.reads_group (Pat.reads_many k.all_notSpace ht)
  have hnumber : ∀ (n : Number) {t : List Char}, Ends digit t → (Pat.plus digit).Reads n.1 t [] :=
    fun n t ht => Pat.reads_plus n.2.1 n.all_digit ht
  have hrest : (Pat.group (.seq (.one notSpace) (.many fun _ => true))).Reads L.rest [] [L.rest] := by
    apply Pat.reads_group
    obtain ⟨c, r, hcr⟩ := List.exists_cons_of_ne_nil L.rest_ne_nil
    have hc := L.rest_ends c (by rw [hcr]; rfl)
    rw [hcr]
    exact Pat.reads_seq (Pat.reads_one (by simp [notSpace, hc])) (Pat.reads_many (by simp) ends_nil)
  -- every run of blanks ends where a token begins, and every token where blanks begin
  refine Pat.reads_seq hkind (Pat.reads_seq (mode_reads _ _) ?_)
  refine Pat.reads_seq (L.gap1.reads ?_) (Pat.reads_seq (hnumber L.links ?_) ?_)
  · rw [List.append_nil]
    exact L.links.ends
  · rw [List.append_nil]
    exact L.gap2.ends_digit
  refine Pat.reads_seq (L.gap2.reads ?_) (Pat.reads_seq (hword L.owner ?_) ?_)
  · rw [List.append_nil]
    exact L.owner.ends
  · rw [List.append_nil]
    exact L.gap3.ends_notSpace
  refine Pat.reads_seq (L.gap3.reads ?_) (Pat.reads_seq (hword L.group ?_) ?_)
  · rw [List.append_nil]
    exact L.group.ends
  · rw [List.append_nil]
    exact L.gap4.ends_notSpace
  refine Pat.reads_seq (L.gap4.reads ?_)
    (Pat.reads_seq (Pat.reads_group (hnumber L.size ?_)) ?_)
  · rw [List.append_nil]
    exact L.size.ends
  · rw [List.append_nil]
    exact L.gap5.ends_digit
  refine Pat.reads_seq (L.gap5.reads ?_) (Pat.reads_seq (L.date_reads ?_) ?_)
  · rw [List.append_nil, date, List.append_assoc]
    exact L.month.ends
  · rw [List.append_nil]
    exact L.gap8.ends_notSpace
  refine Pat.reads_seq (L.gap8.reads ?_) hrest
  rw [List.append_nil]
  exact L.rest_ends

/-! ## What becomes of the line -/

theorem latin1_rest {c : Char} (h : c ∈ L.rest) : IsLatin1 c := by
  have harrow : ∀ c ∈ " -> ".toList, IsLatin1 c := by
    simp only [show " -> ".toList = [' ', '-', '>', ' '] from rfl, List.forall_mem_cons]
    exact ⟨by decide, by decide, by decide, by decide, fun c hc => absurd hc List.not_mem_nil⟩
  unfold rest at h
  split at h
  · next target _ =>
    simp only [List.mem_append] at h
    rcases h with (h | h) | h
    · exact L.name.2.2.2.2 c h
    · exact harrow c h
    · exact target.2.2.2.2 c h
  · exact L.name.2.2.2.2 c h

theorem latin1_mode (m : Mode) {c : Char} (h : c ∈ m.text) : IsLatin1 c := by
  refine forall_mode ?_ ?_ ?_ ?_ m c h
  · decide
  · decide
  · decide
  · intro x
    cases x <;> decide

theorem latin1_number (n : Number) {c : Char} (h : c ∈ n.1) : IsLatin1 c := by
  obtain ⟨d, hd⟩ := n.2.2 c h
  have := digitVal_eq_some hd
  unfold IsLatin1
  omega

theorem latin1_text {c : Char} (h : c ∈ L.text) : IsLatin1 c := by
  have hkind : IsLatin1 L.kind.char := by
    rcases L.kind.char_cases with h | h | h <;> rw [h] <;> decide
  have hblank : ∀ b : Blanks, c ∈ b.1 → IsLatin1 c := fun b hc => (b.2.2 c hc).2
  have htoken : ∀ k : Token, c ∈ k.1 → IsLatin1 c := fun k hc => (k.2.2 c hc).2
  simp only [text, date, List.mem_append, List.mem_singleton] at h
  rcases h with rfl | h | h | h | h | h | h | h | h | h | h | (h | h | h | h | h) | h | h
  · exact hkind
  · exact latin1_mode _ h
  · exact hblank _ h
  · exact latin1_number _ h
  · exact hblank _ h
  · exact htoken _ h
  · exact hblank _ h
  · exact htoken _ h
  · exact hblank _ h
  · exact latin1_number _ h
  · exact hblank _ h
  · exact htoken _ h
  · exact hblank _ h
  · exact htoken _ h
  · exact hblank _ h
  · exact htoken _ h
  · exact hblank _ h
  · exact L.latin1_rest h

theorem rdropWhile_name (front : QString) (n : Name) :
    (front ++ n.1).rdropWhile isSpace = front ++ n.1 := by
  rw [List.rdropWhile_eq_self_iff]
  intro hne
  have hlast := n.2.2.2.1 (n.1.getLast n.2.1) (List.getLast?_eq_some_getLast n.2.1)
  rw [List.getLast_append_of_ne_nil _ n.2.1, hlast]
  decide

/-- The name or target that ends the line. -/
def lastName : Name :=
  match L.kind with
  | .link target => target
  | _ => L.name

theorem lastName_suffix : L.lastName.1 <:+ L.text := by
  have hrest : L.lastName.1 <:+ L.rest := by
    unfold lastName rest
    split
    · exact List.suffix_append _ _
    · exact List.suffix_rfl
  apply hrest.trans
  unfold text
  repeat apply List.suffix_append_of_suffix
  exact List.suffix_rfl

theorem trimmed_text : trimmed (L.text ++ L.eol) = L.text := by
  have hkind : isSpace L.kind.char = false := by
    rcases L.kind.char_cases with h | h | h <;> rw [h] <;> decide
  have hcons : ∃ s, L.text = L.kind.char :: s := ⟨_, rfl⟩
  obtain ⟨s, hs⟩ := hcons
  rw [hs, List.cons_append, trimmed_cons _ hkind, ← List.cons_append, ← hs,
    rdropWhile_append_of_forall fun c hc => (L.eol_blank c hc).1]
  obtain ⟨front, hfront⟩ := L.lastName_suffix
  rw [← hfront]
  exact rdropWhile_name front L.lastName

theorem indexOf_arrow {n : QString} (t : QString) (h : ¬ " ->".toList <:+: n) :
    indexOf " ->".toList (n ++ " -> ".toList ++ t) = some n.length := by
  induction n with
  | nil => rfl
  | cons c n ih =>
    have hn : ¬ " ->".toList <:+: n := fun hn => h (hn.trans (List.suffix_cons c n).isInfix)
    have hc : ¬ " ->".toList <+: c :: (n ++ " -> ".toList ++ t) := by
      intro hpre
      -- the arrow would have to begin in the name and end in it, or go on with the blank after it
      rcases n with _ | ⟨d, _ | ⟨e, n⟩⟩
      · simp [List.cons_prefix_cons] at hpre
      · simp [List.cons_prefix_cons] at hpre
      · apply h
        apply List.IsPrefix.isInfix
        simpa [List.cons_prefix_cons] using hpre
    rw [List.cons_append, List.cons_append, indexOf, if_neg hc, ih hn]
    rfl

/-- What is recorded for the target of a link begins with the blank after the arrow. -/
def recordedTarget : QString :=
  match L.kind with
  | .link target => ' ' :: target.1
  | _ => []

theorem resolveName_rest : resolveName L.kind.isSymLink L.rest = (L.name.1, L.recordedTarget) := by
  cases hk : L.kind with
  | link target =>
    have hrest : L.rest = L.name.1 ++ " -> ".toList ++ target.1 := by simp only [rest, hk]
    rw [hrest, resolveName, Kind.isSymLink, if_pos rfl, indexOf_arrow _ (L.name_arrow target hk)]
    simp [recordedTarget, hk]
  | dir => simp [recordedTarget, rest, hk, resolveName, Kind.isSymLink]
  | file => simp [recordedTarget, rest, hk, resolveName, Kind.isSymLink]

theorem toLongLong_size : toLongLong L.size.1 = L.sizeVal := by
  obtain ⟨n, hn⟩ := digitsVal_isSome 0 L.size.2.2
  have hlt := L.size_range n hn
  rw [sizeVal, hn]
  exact toNumber_of_digits L.size.2.1 hn L.size.2.2 (by omega) (by simp; omega)

theorem parseUnixDir_fields (userName whole : QString) (k : Kind)
    (mode owner group size date last : QString) :
    let info := parseUnixDir userName [whole, [k.char], mode, owner, group, size, date, last] {}
    info.name = (resolveName k.isSymLink last).1 ∧
      info.symlinkTarget = (resolveName k.isSymLink last).2 ∧ info.size = toLongLong size ∧
      info.permissions = unixPermissions mode ∧ info.isFile = k.isFile ∧
      info.isSymLink = k.isSymLink ∧ info.isDir = !k.isFile := by
  cases k <;> exact ⟨rfl, rfl, rfl, rfl, rfl, rfl, rfl⟩

/-- **Every Unix line is accepted**, and the entry has its kind, name, size and letters. -/
theorem parseDir_bytes (userName : QString) :
    ∃ info, parseDir userName L.bytes = some info ∧ info.name = L.name.1 ∧
      info.size = L.sizeVal ∧ info.permissions = unixPermissions L.mode.text ∧
      info.isFile = L.kind.isFile ∧ info.isSymLink = L.kind.isSymLink ∧
      info.isDir = (!L.kind.isFile) ∧ info.symlinkTarget = L.recordedTarget := by
  have hbytes : fromLatin1 L.bytes = L.text ++ L.eol := by
    rw [bytes, fromLatin1_toAscii_iff]
    intro c hc
    rcases List.mem_append.mp hc with hc | hc
    · exact L.latin1_text hc
    · exact (L.eol_blank c hc).2
  have hne : L.bytes ≠ [] := by
    intro hnil
    rw [hnil] at hbytes
    cases hbytes
  have htokens := Pat.captured_of_reads L.pattern_reads
  rw [parseDir, if_neg hne]
  simp only [hbytes, L.trimmed_text, htokens]
  obtain ⟨hname, htarget, hsize, hmode, hkind⟩ := parseUnixDir_fields userName L.text L.kind
    L.mode.text L.owner.1 L.group.1 L.size.1 L.date L.rest
  rw [L.resolveName_rest] at hname htarget
  exact ⟨_, rfl, hname, hsize.trans L.toLongLong_size, hmode, hkind.1, hkind.2.1, hkind.2.2, htarget⟩

end UnixLine

end NullFxp.LibFtp
