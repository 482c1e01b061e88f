import NullFxp.LibFtp.Operations
import NullFxp.LibFtp.Reader

/-!
# File names from a listing to a command

A name comes from the server as bytes, is decoded with the codec of the connection, and goes back
in a command: encoded with the codec by `put` and `remove`, and as Latin-1 by the others.
-/

open Text Regex

namespace NullFxp.LibFtp

/-! ## Names in a listing -/

def nameBytes (line : Bytes) : Option Bytes := (parseDir [] line).map fun ffi => toAscii ffi.name

variable {line b : Bytes}

theorem trimmed_sublist (s : QString) : (trimmed s).Sublist s :=
  (List.rdropWhile_prefix _ _).sublist.trans (List.dropWhile_sublist _)

theorem resolveName_sublist (isSymLink : Bool) (name : QString) :
    (resolveName isSymLink name).1.Sublist name := by
  unfold resolveName
  split
  · exact List.take_sublist _ _
  · exact List.Sublist.refl _

theorem parseUnixDir_name {tokens : List QString} {s : QString} (h : ∀ t ∈ tokens, t.Sublist s) :
    (parseUnixDir [] tokens {}).name.Sublist s := by
  unfold parseUnixDir
  split
  · next last => exact (resolveName_sublist _ _).trans (h last (by simp))
  · exact List.nil_sublist _

theorem parseDosDir_name {tokens : List QString} {s : QString} (h : ∀ t ∈ tokens, t.Sublist s) :
    (parseDosDir tokens {}).name.Sublist s := by
  unfold parseDosDir
  split
  · next name => exact h name (by simp)
  · exact List.nil_sublist _

theorem parseDir_name {ffi : FTPFileInfo} (h : parseDir [] line = some ffi) :
    ffi.name.Sublist (fromLatin1 line) := by
  unfold parseDir at h
  split at h
  · cases h
  · dsimp only at h
    split at h
    · next tokens htok =>
      obtain rfl := Option.some.inj h
      exact (parseUnixDir_name fun t ht => mem_captured htok ht).trans (trimmed_sublist _)
    · obtain ⟨tokens, htok, rfl⟩ := Option.map_eq_some_iff.mp h
      exact (parseDosDir_name fun t ht => mem_captured htok ht).trans (trimmed_sublist _)

theorem zero_not_mem_nameBytes (h : nameBytes line = some b) : 0 ∉ b := by
  obtain ⟨ffi, hffi, rfl⟩ := Option.map_eq_some_iff.mp h
  obtain ⟨bs, hbs, hname⟩ := List.sublist_map_iff.mp (parseDir_name hffi)
  rw [hname, toAscii_map_latin1]
  intro h0
  have := List.mem_takeWhile_imp (hbs.subset h0)
  simp at this

/-! ## Commands with a name -/

/-- A socket that keeps what is written, and answers nothing. -/
def recorder : Ctrl (List Bytes) where
  bytesAvailable _ := 0
  send cmd sent := (false, sent ++ [cmd])
  readAll sent := some ([], sent)
  readyRead sent := (none, sent)

inductive NameCmd where
  | get | chdir | size | put | putNoWaitResponse | remove
  deriving DecidableEq

namespace NameCmd

def verb : NameCmd → String
  | get => "RETR"
  | chdir => "CWD"
  | size => "SIZE"
  | put => "STOR"
  | putNoWaitResponse => "STOR"
  | remove => "DELE"

/-- The operations that encode their command with the codec. -/
def Encodes (c : NameCmd) : Prop := c = put ∨ c = remove

def written (codec : Codec) (n : QString) (c : NameCmd) : Option (List Bytes) :=
  let ftp : Ftp (List Bytes) := { sock := [], codec := codec }
  match c with
  | get => (LibFtp.get recorder n ftp).map fun r => r.2.sock
  | chdir => (LibFtp.chdir recorder n ftp).map fun r => r.2.sock
  | size => (LibFtp.size recorder n 0 ftp).map fun r => r.2.sock
  | put => (LibFtp.put recorder n ftp).map fun r => r.2.sock
  | putNoWaitResponse => (LibFtp.putNoWaitResponse recorder n ftp).map fun r => r.2.sock
  | remove => (LibFtp.remove recorder n ftp).map fun r => r.2.sock

def cmdBytes (c : NameCmd) (b : Bytes) : Bytes := toAscii c.verb.toList ++ 32 :: b ++ eol

theorem toAscii_cmdLine (c : NameCmd) (n : QString) :
    toAscii (cmdLine c.verb n) = c.cmdBytes (toAscii n) := by
  rw [cmdLine, toAscii_append, toAscii_append, cmdBytes]
  rfl

theorem written_latin1 {codec : Codec} {n : QString} {c : NameCmd} (h : ¬ c.Encodes) :
    c.written codec n = some [c.cmdBytes (toAscii n)] := by
  rw [← toAscii_cmdLine]
  cases c with
  | put => exact absurd (Or.inl rfl) h
  | remove => exact absurd (Or.inr rfl) h
  | _ => rfl

theorem written_encoded {codec : Codec} {n : QString} {c : NameCmd} (h : c.Encodes) :
    c.written codec n = some [encodeCMD codec (cmdLine c.verb n)] := by
  rcases h with rfl | rfl <;> rfl

theorem zero_not_mem_cmdBytes (c : NameCmd) {b : Bytes} (h : 0 ∉ b) : 0 ∉ c.cmdBytes b := by
  have hverb : 0 ∉ toAscii c.verb.toList := by cases c <;> decide
  simp [cmdBytes, hverb, h]

theorem isAscii_verb (c : NameCmd) : ∀ x ∈ c.verb.toList, x.toNat < 128 := by
  have hall : c.verb.toList.all (fun x => decide (x.toNat < 128)) = true := by cases c <;> decide
  intro x hx
  exact of_decide_eq_true (List.all_eq_true.mp hall x hx)

end NameCmd

/-! ## Codecs -/

namespace Codec

variable (codec : Codec)

/-- ASCII around a text is encoded as ASCII. -/
def AsciiBased : Prop :=
  ∀ p s q : QString, (∀ x ∈ p, x.toNat < 128) → (∀ x ∈ q, x.toNat < 128) →
    codec.fromUnicode (p ++ s ++ q) = toAscii p ++ codec.fromUnicode s ++ toAscii q

def IsUtf8 : Prop := ∀ s, codec.fromUnicode s = s.flatMap String.utf8EncodeChar

end Codec

theorem utf8EncodeChar_of_ascii {c : Char} (h : c.toNat < 128) :
    String.utf8EncodeChar c = charBytes c := by
  have hv : c.val.toNat ≤ 127 := Nat.le_of_lt_succ h
  rw [String.utf8EncodeChar, if_pos hv, charBytes, if_pos (by omega)]
  rfl

theorem utf8EncodeChar_of_not_ascii {c : Char} (h : 128 ≤ c.toNat) :
    (charBytes c).length < (String.utf8EncodeChar c).length ∧
      ∃ x ∈ String.utf8EncodeChar c, 128 ≤ x.toNat := by
  have hlast : 128 ≤ (UInt8.ofNat (c.val.toNat % 0x40 + 0x80)).toNat := by
    rw [UInt8.toNat_ofNat_of_lt' (by simp [UInt8.size]; omega)]
    omega
  have hv : c.val.toNat = c.toNat := rfl
  unfold String.utf8EncodeChar
  dsimp only
  rw [if_neg (by omega)]
  split
  · have h1 : (charBytes c).length = 1 := by
      unfold charBytes
      split_ifs with h256 h65536
      · rfl
      · rfl
      · omega
    exact ⟨by simp [h1], _, by simp, hlast⟩
  · have h2 : (charBytes c).length ≤ 2 := by
      unfold charBytes
      split_ifs <;> simp
    split
    · exact ⟨by simp only [List.length_cons]; omega, _, by simp, hlast⟩
    · exact ⟨by simp only [List.length_cons]; omega, _, by simp, hlast⟩

theorem length_charBytes_le (c : Char) :
    (charBytes c).length ≤ (String.utf8EncodeChar c).length := by
  by_cases h : c.toNat < 128
  · rw [utf8EncodeChar_of_ascii h]
  · exact (utf8EncodeChar_of_not_ascii (by omega)).1.le

theorem length_toAscii_le (s : QString) :
    (toAscii s).length ≤ (s.flatMap String.utf8EncodeChar).length := by
  induction s with
  | nil => rfl
  | cons c s ih =>
    change (charBytes c ++ toAscii s).length ≤ _
    have := length_charBytes_le c
    simp only [List.flatMap_cons, List.length_append]
    omega

theorem toAscii_eq_utf8 {s : QString} :
    toAscii s = s.flatMap String.utf8EncodeChar ↔ ∀ c ∈ s, c.toNat < 128 := by
  induction s with
  | nil => simp [toAscii]
  | cons c s ih =>
    change charBytes c ++ toAscii s =
      String.utf8EncodeChar c ++ s.flatMap String.utf8EncodeChar ↔ _
    rw [List.forall_mem_cons, ← ih]
    by_cases hc : c.toNat < 128
    · rw [utf8EncodeChar_of_ascii hc]
      simp [hc]
    · refine iff_of_false (fun heq => ?_) (fun h => hc h.1)
      have hlt := (utf8EncodeChar_of_not_ascii (c := c) (by omega)).1
      have hle := length_toAscii_le s
      have := congrArg List.length heq
      simp only [List.length_append] at this
      omega

theorem utf8_ascii_iff {s : QString} :
    (∀ x ∈ s.flatMap String.utf8EncodeChar, x.toNat < 128) ↔ ∀ c ∈ s, c.toNat < 128 := by
  constructor
  · intro h c hc
    by_contra hn
    obtain ⟨x, hx, hle⟩ := (utf8EncodeChar_of_not_ascii (c := c) (by omega)).2
    have := h x (List.mem_flatMap.mpr ⟨c, hc, hx⟩)
    omega
  · intro h x hx
    obtain ⟨c, hc, hx⟩ := List.mem_flatMap.mp hx
    have hlt := h c hc
    rw [utf8EncodeChar_of_ascii hlt, charBytes, if_pos (by omega), List.mem_singleton] at hx
    rw [hx, UInt8.toNat_ofNat_of_lt' (by simp [UInt8.size]; omega)]
    exact hlt

/-! ## The round trip -/

section

variable {codec : Codec} {e : FTPFileInfo}

theorem entryOf_name (h : entryOf codec line = some e) (hb : nameBytes line = some b) :
    e.name = codec.toUnicode b := by
  obtain ⟨ffi, hffi, rfl⟩ := Option.map_eq_some_iff.mp h
  rw [nameBytes, hffi] at hb
  obtain rfl := Option.some.inj hb
  rfl

theorem encodeCMD_name (hascii : codec.AsciiBased) {n : QString} (hround : codec.fromUnicode n = b)
    (h0 : 0 ∉ b) (c : NameCmd) : encodeCMD codec (cmdLine c.verb n) = c.cmdBytes b := by
  have hverb : ∀ x ∈ c.verb.toList ++ [' '], x.toNat < 128 := by
    intro x hx
    rcases List.mem_append.mp hx with hx | hx
    · exact c.isAscii_verb x hx
    · obtain rfl := List.mem_singleton.mp hx
      decide
  have hcmd : codec.fromUnicode (cmdLine c.verb n) = c.cmdBytes b := by
    have hsplit : cmdLine c.verb n = c.verb.toList ++ [' '] ++ n ++ crlf := by simp [cmdLine]
    rw [hsplit, hascii _ n _ hverb (by simp), hround, toAscii_append, NameCmd.cmdBytes,
      show toAscii [' '] = [32] by decide, show toAscii crlf = eol by decide]
    simp
  rw [encodeCMD, hcmd, fromLatin1_of_not_mem (c.zero_not_mem_cmdBytes h0), toAscii_map_latin1]

/-- **A name goes back to the server as it came**: from `put` and `remove` always, and from the
others just if its bytes are the Latin-1 bytes of the decoded name. With UTF-8 these are the names
in ASCII. -/
theorem name_sent_iff (h : entryOf codec line = some e) (hb : nameBytes line = some b)
    (hround : codec.fromUnicode (codec.toUnicode b) = b) (hascii : codec.AsciiBased) :
    (∀ c : NameCmd, c.written codec e.name = some [c.cmdBytes b] ↔
      c.Encodes ∨ toAscii (codec.toUnicode b) = b) ∧
    (codec.IsUtf8 → (toAscii (codec.toUnicode b) = b ↔ ∀ x ∈ b, x.toNat < 128)) := by
  rw [entryOf_name h hb]
  constructor
  · intro c
    by_cases hc : c.Encodes
    · rw [NameCmd.written_encoded hc, encodeCMD_name hascii hround (zero_not_mem_nameBytes hb)]
      simp [hc]
    · rw [NameCmd.written_latin1 hc]
      simp [hc, NameCmd.cmdBytes]
  · intro hutf8
    rw [hutf8] at hround
    generalize codec.toUnicode b = n at hround ⊢
    subst hround
    rw [toAscii_eq_utf8, utf8_ascii_iff]

end

/-- UTF-8 for characters below 0x800 -/
def utf8Short : Codec where
  toUnicode := decode
  fromUnicode s := s.flatMap String.utf8EncodeChar
where
  decode : Bytes → QString
    | [] => []
    | [a] => [latin1 a]
    | a :: b :: bs =>
      if 0xC0 ≤ a.toNat then Char.ofNat (a.toNat % 32 * 64 + b.toNat % 64) :: decode bs
      else latin1 a :: decode (b :: bs)

theorem utf8Short_asciiBased : utf8Short.AsciiBased := by
  have hascii : ∀ p : QString, (∀ x ∈ p, x.toNat < 128) →
      p.flatMap String.utf8EncodeChar = toAscii p := fun p hp => (toAscii_eq_utf8.mpr hp).symm
  intro p s q hp hq
  change (p ++ s ++ q).flatMap String.utf8EncodeChar = _
  rw [List.flatMap_append, List.flatMap_append, hascii p hp, hascii q hq]
  rfl

def nameLine (b : Bytes) : Bytes := toAscii "-rw-r--r-- 1 a b 5 Aug 10 2004 ".toList ++ b ++ eol

theorem name_sent_ascii : ∃ e, entryOf utf8Short (nameLine [97, 98]) = some e ∧
    nameBytes (nameLine [97, 98]) = some [97, 98] ∧
    ∀ c : NameCmd, c.written utf8Short e.name = some [c.cmdBytes [97, 98]] := by
  have he : entryOf utf8Short (nameLine [97, 98]) =
      some ((entryOf utf8Short (nameLine [97, 98])).getD {}) := by decide +kernel
  have hb : nameBytes (nameLine [97, 98]) = some [97, 98] := by decide +kernel
  have h := name_sent_iff he hb (by decide +kernel) utf8Short_asciiBased
  exact ⟨_, he, hb, fun c => (h.1 c).mpr (Or.inr (by decide +kernel))⟩

theorem name_sent_latin1 : ∃ e, entryOf utf8Short (nameLine [0xC3, 0xA9]) = some e ∧
    nameBytes (nameLine [0xC3, 0xA9]) = some [0xC3, 0xA9] ∧
    utf8Short.fromUnicode (utf8Short.toUnicode [0xC3, 0xA9]) = [0xC3, 0xA9] ∧
    NameCmd.get.written utf8Short e.name = some [NameCmd.get.cmdBytes [0xE9]] := by
  -- The name "é" in UTF-8 leaves `RETR` as Latin-1.
  refine ⟨(entryOf utf8Short (nameLine [0xC3, 0xA9])).getD {}, ?_, ?_, ?_, ?_⟩
  · decide +kernel
  · decide +kernel
  · decide +kernel
  · decide +kernel

end NullFxp.LibFtp
