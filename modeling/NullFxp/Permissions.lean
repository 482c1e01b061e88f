import Mathlib.Tactic.IntervalCases
import NullFxp.Lib.Bits
import NullFxp.Retriver.TreeNode

/-!
# The rights on a file

A mode word of SFTP, the flags of `QFile`, and the letters, digits and check boxes that the
property dialog shows.
-/

open Bits NullFxp.RemoteDirModel NullFxp.Retriver

namespace NullFxp.Permissions

/-! ## `QFile::Permission` -/

def readOwner : Nat := 0x4000
def writeOwner : Nat := 0x2000
def exeOwner : Nat := 0x1000
def readUser : Nat := 0x0400
def writeUser : Nat := 0x0200
def exeUser : Nat := 0x0100
def readGroup : Nat := 0x0040
def writeGroup : Nat := 0x0020
def exeGroup : Nat := 0x0010
def readOther : Nat := 0x0004
def writeOther : Nat := 0x0002
def exeOther : Nat := 0x0001

/-! ## `SSHFileInfo` -/

/-- What `fromQFileInfo` asks of a local file. -/
structure QFileInfo where
  size : Nat
  permissions : Nat
  lastRead : Nat
  lastModified : Nat
  isFile : Bool
  isSymLink : Bool
  isDir : Bool

/-- The flags of the user stand for the rights of the owner. -/
def fromTable : List (Nat × Nat) :=
  [(readUser, 0o400), (writeUser, 0o200), (exeUser, 0o100),
   (readGroup, 0o040), (writeGroup, 0o020), (exeGroup, 0o010),
   (readOther, 0o004), (writeOther, 0o002), (exeOther, 0o001)]

def fromQFileInfo (fi : QFileInfo) : Attrib :=
  { Attrib.zero with
    filesize := fi.size
    atime := fi.lastRead
    mtime := fi.lastModified
    permissions :=
      (if fi.isFile && !fi.isSymLink then 0o100000
        else if fi.isSymLink then 0o120000
        else if fi.isDir then 0o040000
        else 0) ||| grants fromTable fi.permissions }

def modeTable : List (Nat × Nat) :=
  [(0o400, 0o400), (0o200, 0o200), (0o100, 0o100), (0o040, 0o040), (0o020, 0o020), (0o010, 0o010),
   (0o004, 0o004), (0o002, 0o002), (0o001, 0o001)]

def mode (attr : Attrib) : Nat := grants modeTable attr.permissions

def qModeTable : List (Nat × Nat) :=
  [(0o400, readUser), (0o400, readOwner), (0o200, writeUser), (0o200, writeOwner),
   (0o100, exeUser), (0o100, exeOwner),
   (0o040, readGroup), (0o020, writeGroup), (0o010, exeGroup),
   (0o004, readOther), (0o002, writeOther), (0o001, exeOther)]

def qMode (attr : Attrib) : Nat := grants qModeTable attr.permissions

/-! ## The property dialogs -/

def digit (mode r w x : Nat) : Char :=
  Char.ofNat (48 + ((if mode &&& r ≠ 0 then 4 else 0) + (if mode &&& w ≠ 0 then 2 else 0) +
    (if mode &&& x ≠ 0 then 1 else 0)))

def digitMode (mode : Nat) : QString :=
  [digit mode 0o4000 0o2000 0o1000, digit mode 0o400 0o200 0o100, digit mode 0o040 0o020 0o010,
   digit mode 0o004 0o002 0o001]

/-- The first digit, which is the owner's, is overwritten. -/
def localDigitMode (perm : Nat) : QString :=
  ['0', digit perm readUser writeUser exeUser, digit perm readGroup writeGroup exeGroup,
   digit perm readOther writeOther exeOther]

/-- The twelve check boxes -/
structure PermTable where
  readOwner : Bool
  writeOwner : Bool
  exeOwner : Bool
  setUid : Bool
  readGroup : Bool
  writeGroup : Bool
  exeGroup : Bool
  setGid : Bool
  readOther : Bool
  writeOther : Bool
  exeOther : Bool
  sticky : Bool
  deriving DecidableEq

/-- `FileProperties::update_perm_table`. A text that is too short ends in a failed assertion. -/
def updatePermTable (filePerm : QString) : Option PermTable := do
  let r1 ← filePerm[1]?
  let w1 ← filePerm[2]?
  let x1 ← filePerm[3]?
  let r4 ← filePerm[4]?
  let w4 ← filePerm[5]?
  let x4 ← filePerm[6]?
  let r7 ← filePerm[7]?
  let w7 ← filePerm[8]?
  let x7 ← filePerm[9]?
  some
    { readOwner := r1 = 'r', writeOwner := w1 = 'w', exeOwner := x1 = 'x' ∨ x1 = 's'
      setUid := x1 = 'S' ∨ x1 = 's'
      readGroup := r4 = 'r', writeGroup := w4 = 'w', exeGroup := x4 = 'x' ∨ x4 = 's'
      setGid := x4 = 'S' ∨ x4 = 's'
      readOther := r7 = 'r', writeOther := w7 = 'w'
      -- not `'t'`
      exeOther := x7 = 'x' ∨ x7 = 'T'
      sticky := x7 = 't' ∨ x7 = 'T' }

/-- `LocalFileProperties::update_perm_table` sets the first nine boxes. -/
def localUpdatePermTable (perm : Nat) (t : PermTable) : PermTable :=
  { t with
    readOwner := perm &&& readOwner ≠ 0, writeOwner := perm &&& writeOwner ≠ 0
    exeOwner := perm &&& exeOwner ≠ 0
    readGroup := perm &&& readGroup ≠ 0, writeGroup := perm &&& writeGroup ≠ 0
    exeGroup := perm &&& exeGroup ≠ 0
    readOther := perm &&& readOther ≠ 0, writeOther := perm &&& writeOther ≠ 0
    exeOther := perm &&& exeOther ≠ 0 }

/-! ## There and back -/

theorem modeTable_eq : modeTable = keeping [8, 7, 6, 5, 4, 3, 2, 1, 0] := by decide

theorem mode_eq (attr : Attrib) : mode attr = attr.permissions % 512 := by
  apply Nat.eq_of_testBit_eq
  intro i
  rw [Bool.eq_iff_iff, mode, modeTable_eq, testBit_keeping, show 512 = 2 ^ 9 from rfl,
    Nat.testBit_mod_two_pow, Bool.and_eq_true, decide_eq_true_eq]
  simp only [List.mem_cons, List.not_mem_nil, or_false]
  exact and_congr_left' (by omega)

theorem grants_fromQFileInfo {table : List (Nat × Nat)} (h : ∀ e ∈ table, 0o170000 &&& e.1 = 0)
    (fi : QFileInfo) :
    grants table (fromQFileInfo fi).permissions =
      grants (compose fromTable table) fi.permissions := by
  rw [← grants_grants]
  apply grants_or
  intro e he
  have hall : ∀ ty, ty ||| 0o170000 = 0o170000 → ty &&& e.1 = 0 := by
    intro ty hty
    have hand := h e he
    rw [← hty, Nat.and_or_distrib_right, Nat.or_eq_zero_iff] at hand
    exact hand.1
  split
  · exact hall _ rfl
  · split
    · exact hall _ rfl
    · split
      · exact hall _ rfl
      · exact hall _ rfl

/-- What comes of the flags of a local file on a server and back. -/
def throughTable : List (Nat × Nat) :=
  [(readUser, readUser), (readUser, readOwner), (writeUser, writeUser), (writeUser, writeOwner),
   (exeUser, exeUser), (exeUser, exeOwner), (readGroup, readGroup), (writeGroup, writeGroup),
   (exeGroup, exeGroup), (readOther, readOther), (writeOther, writeOther), (exeOther, exeOther)]

theorem qMode_fromQFileInfo (fi : QFileInfo) :
    qMode (fromQFileInfo fi) = grants throughTable fi.permissions := by
  unfold qMode
  rw [grants_fromQFileInfo (by decide), show compose fromTable qModeTable = throughTable by decide]

theorem mode_fromQFileInfo_qMode {fi : QFileInfo} {attr : Attrib}
    (h : fi.permissions = qMode attr) : mode (fromQFileInfo fi) = mode attr := by
  unfold mode
  rw [grants_fromQFileInfo (by decide), h, qMode, grants_grants,
    show compose qModeTable (compose fromTable modeTable) = modeTable by decide]

/-- The owner has the same three rights as the user that runs the program. -/
def UserAsOwner (perm : Nat) : Prop :=
  ∀ e ∈ [(readUser, readOwner), (writeUser, writeOwner), (exeUser, exeOwner)],
    perm &&& e.1 ≠ 0 ↔ perm &&& e.2 ≠ 0

/-- The places of the twelve flags -/
def flags : List Nat := [10, 14, 9, 13, 8, 12, 6, 5, 4, 2, 1, 0]

theorem userAsOwner_iff {perm : Nat} :
    UserAsOwner perm ↔ (perm &&& readUser ≠ 0 ↔ perm &&& readOwner ≠ 0) ∧
      (perm &&& writeUser ≠ 0 ↔ perm &&& writeOwner ≠ 0) ∧
      (perm &&& exeUser ≠ 0 ↔ perm &&& exeOwner ≠ 0) := by
  simp [UserAsOwner]

theorem through_eq_iff {perm : Nat} (hperm : grants (keeping flags) perm = perm) :
    grants throughTable perm = perm ↔ UserAsOwner perm := by
  constructor
  · intro h
    have hand : ∀ n, perm &&& n ≠ 0 ↔ ∃ e ∈ throughTable, perm &&& e.1 ≠ 0 ∧ e.2 &&& n ≠ 0 :=
      fun n => by rw [← grants_and_ne_zero_iff, h]
    rw [userAsOwner_iff, hand readOwner, hand writeOwner, hand exeOwner]
    simp [throughTable, readUser, readOwner, writeUser, writeOwner, exeUser, exeOwner, readGroup,
      writeGroup, exeGroup, readOther, writeOther, exeOther]
  · intro h
    obtain ⟨hread, hwrite, hexe⟩ := userAsOwner_iff.mp h
    conv_rhs => rw [← hperm]
    apply grants_eq_of_forall₂
    change List.Forall₂ _ throughTable [(readUser, readUser), (readOwner, readOwner),
      (writeUser, writeUser), (writeOwner, writeOwner), (exeUser, exeUser), (exeOwner, exeOwner),
      (readGroup, readGroup), (writeGroup, writeGroup), (exeGroup, exeGroup),
      (readOther, readOther), (writeOther, writeOther), (exeOther, exeOther)]
    simp only [throughTable, List.forall₂_cons, List.Forall₂.nil, hread, hwrite, hexe, and_self]

/-- **The rights of a file survive a transfer**: those of a remote file always, those of a local one
just if the owner has the rights of the user. -/
theorem rights_survive :
    (∀ (attr : Attrib) (fi : QFileInfo), fi.permissions = qMode attr →
      mode (fromQFileInfo fi) = mode attr ∧ mode attr = attr.permissions % 512) ∧
    ∀ fi : QFileInfo, grants (keeping flags) fi.permissions = fi.permissions →
      (qMode (fromQFileInfo fi) = fi.permissions ↔ UserAsOwner fi.permissions) := by
  refine ⟨fun attr fi h => ⟨mode_fromQFileInfo_qMode h, mode_eq attr⟩, fun fi h => ?_⟩
  rw [qMode_fromQFileInfo]
  exact through_eq_iff h

/-- A file that its owner and the group may read, and that is read by another user. -/
def groupFile : QFileInfo :=
  ⟨0, readOwner ||| writeOwner ||| readUser ||| readGroup, 0, 0, true, false, false⟩

theorem rights_survive_groupFile :
    mode (fromQFileInfo
      { groupFile with permissions := qMode ⟨0, 0, 0, 0, 0o100640, 0, 0⟩ }) = 0o640 ∧
    qMode (fromQFileInfo groupFile) ≠ groupFile.permissions := by
  refine ⟨((rights_survive.1 _ _ rfl).1).trans (by decide), fun h => ?_⟩
  have huser := (rights_survive.2 groupFile (by decide)).mp h
  exact absurd (userAsOwner_iff.mp huser).2.1 (by decide)

/-! ## The letters -/

/-- The letters of a mode word, as those of a line of a listing. -/
def exeOf (mode x special : Nat) : LibFtp.Exe :=
  if mode &&& special = 0 then if mode &&& x ≠ 0 then .on else .off
  else if mode &&& x ≠ 0 then .specialOn else .specialOff

theorem exeChar_eq (mode x special : Nat) (lower upper : Char) :
    exeChar mode x special lower upper = (exeOf mode x special).char lower upper := by
  unfold exeChar exeOf rightChar
  split
  · split <;> rfl
  · split <;> rfl

def modeOf (mode : Nat) : LibFtp.Mode where
  readOwner := mode &&& 0o400 ≠ 0
  writeOwner := mode &&& 0o200 ≠ 0
  exeOwner := exeOf mode 0o100 0o4000
  readGroup := mode &&& 0o040 ≠ 0
  writeGroup := mode &&& 0o020 ≠ 0
  exeGroup := exeOf mode 0o010 0o2000
  readOther := mode &&& 0o004 ≠ 0
  writeOther := mode &&& 0o002 ≠ 0
  exeOther := exeOf mode 0o001 0o1000

theorem strmode_eq (mode : Nat) : strmode mode = typeChar mode :: ((modeOf mode).text ++ [' ']) := by
  simp [strmode, exeChar_eq, rightChar, modeOf, LibFtp.Mode.text]

theorem letter_inj {a b : Bool} {c : Char} (hc : c ≠ '-') :
    (if a then c else '-') = (if b then c else '-') ↔ a = b := by
  cases a <;> cases b <;> simp [hc, hc.symm]

theorem exeChar_inj {a b : LibFtp.Exe} {s t : Char} (h : ['-', 'x', s, t].Nodup) :
    a.char s t = b.char s t ↔ a = b := by
  simp only [List.nodup_cons, List.mem_cons, List.not_mem_nil, or_false, not_or] at h
  obtain ⟨⟨h1, h2, h3⟩, ⟨h4, h5⟩, h6, -⟩ := h
  cases a <;> cases b <;>
    simp [LibFtp.Exe.char, h1, h2, h3, h4, h5, h6, Ne.symm h2, Ne.symm h3, Ne.symm h4, Ne.symm h5,
      Ne.symm h6]

theorem text_inj {m m' : LibFtp.Mode} : m.text = m'.text ↔ m = m' := by
  cases m
  cases m'
  simp [LibFtp.Mode.text, letter_inj, exeChar_inj]

/-! ## The low twelve bits -/

/-- The two words have the same flag, or neither has it. -/
def Alike (m m' bit : Nat) : Prop := m &&& bit ≠ 0 ↔ m' &&& bit ≠ 0

theorem exeOf_eq_iff {m m' x special : Nat} :
    exeOf m x special = exeOf m' x special ↔ Alike m m' x ∧ Alike m m' special := by
  unfold exeOf Alike
  by_cases hx : m &&& x = 0 <;> by_cases hx' : m' &&& x = 0 <;>
    by_cases hs : m &&& special = 0 <;> by_cases hs' : m' &&& special = 0 <;>
    simp [hx, hx', hs, hs']

def octal (r w x : Bool) : Char :=
  Char.ofNat (48 + ((if r then 4 else 0) + (if w then 2 else 0) + (if x then 1 else 0)))

theorem octal_inj : ∀ r w x r' w' x' : Bool,
    octal r w x = octal r' w' x' ↔ r = r' ∧ w = w' ∧ x = x' := by
  decide

theorem digit_eq_iff {m m' r w x r' w' x' : Nat} : digit m r w x = digit m' r' w' x' ↔
    (m &&& r ≠ 0 ↔ m' &&& r' ≠ 0) ∧ (m &&& w ≠ 0 ↔ m' &&& w' ≠ 0) ∧
    (m &&& x ≠ 0 ↔ m' &&& x' ≠ 0) := by
  have h : ∀ n r w x, digit n r w x = octal (n &&& r ≠ 0) (n &&& w ≠ 0) (n &&& x ≠ 0) := by
    intro n r w x
    simp [digit, octal]
  rw [h, h, octal_inj]
  simp only [decide_eq_decide]

theorem alike_two_pow {m m' : Nat} (k : Nat) :
    Alike m m' (2 ^ k) ↔ m / 2 ^ k % 2 = m' / 2 ^ k % 2 := by
  unfold Alike
  rw [and_two_pow_ne_zero_iff, and_two_pow_ne_zero_iff]
  omega

theorem testBit_low (m i : Nat) :
    (m % 4096).testBit i = (decide (i < 12) && decide (m / 2 ^ i % 2 = 1)) := by
  rw [← Nat.testBit_eq_decide_div_mod_eq]
  exact Nat.testBit_mod_two_pow m 12 i

theorem alike_iff {m m' : Nat} : (∀ k < 12, Alike m m' (2 ^ k)) ↔ m % 4096 = m' % 4096 := by
  simp only [alike_two_pow]
  constructor
  · intro h
    apply Nat.eq_of_testBit_eq
    intro i
    rw [testBit_low, testBit_low]
    by_cases hi : i < 12
    · rw [h i hi]
    · simp [hi]
  · intro h k hk
    have hbit := congrArg (Nat.testBit · k) h
    simp only [testBit_low, hk, decide_true, Bool.true_and, decide_eq_decide] at hbit
    omega

theorem low_eq_iff {m m' : Nat} : m % 4096 = m' % 4096 ↔
    (Alike m m' 0o4000 ∧ Alike m m' 0o2000 ∧ Alike m m' 0o1000) ∧
    (Alike m m' 0o400 ∧ Alike m m' 0o200 ∧ Alike m m' 0o100) ∧
    (Alike m m' 0o040 ∧ Alike m m' 0o020 ∧ Alike m m' 0o010) ∧
    (Alike m m' 0o004 ∧ Alike m m' 0o002 ∧ Alike m m' 0o001) := by
  rw [← alike_iff]
  constructor
  · intro h
    exact ⟨⟨h 11 (by decide), h 10 (by decide), h 9 (by decide)⟩,
      ⟨h 8 (by decide), h 7 (by decide), h 6 (by decide)⟩,
      ⟨h 5 (by decide), h 4 (by decide), h 3 (by decide)⟩,
      ⟨h 2 (by decide), h 1 (by decide), h 0 (by decide)⟩⟩
  · rintro ⟨⟨h11, h10, h9⟩, ⟨h8, h7, h6⟩, ⟨h5, h4, h3⟩, ⟨h2, h1, h0⟩⟩ k hk
    interval_cases k
    · exact h0
    · exact h1
    · exact h2
    · exact h3
    · exact h4
    · exact h5
    · exact h6
    · exact h7
    · exact h8
    · exact h9
    · exact h10
    · exact h11

theorem modeOf_eq_iff {m m' : Nat} : modeOf m = modeOf m' ↔ m % 4096 = m' % 4096 := by
  rw [low_eq_iff]
  simp only [modeOf, LibFtp.Mode.mk.injEq, exeOf_eq_iff, decide_eq_decide]
  constructor
  · rintro ⟨h8, h7, ⟨h6, h11⟩, h5, h4, ⟨h3, h10⟩, h2, h1, h0, h9⟩
    exact ⟨⟨h11, h10, h9⟩, ⟨h8, h7, h6⟩, ⟨h5, h4, h3⟩, ⟨h2, h1, h0⟩⟩
  · rintro ⟨⟨h11, h10, h9⟩, ⟨h8, h7, h6⟩, ⟨h5, h4, h3⟩, ⟨h2, h1, h0⟩⟩
    exact ⟨h8, h7, ⟨h6, h11⟩, h5, h4, ⟨h3, h10⟩, h2, h1, h0, h9⟩

theorem digitMode_eq_iff {m m' : Nat} : digitMode m = digitMode m' ↔ m % 4096 = m' % 4096 := by
  rw [low_eq_iff]
  simp only [digitMode, List.cons.injEq, digit_eq_iff, and_true]
  rfl

theorem strmode_eq_iff {m m' : Nat} :
    strmode m = strmode m' ↔ typeChar m = typeChar m' ∧ m % 4096 = m' % 4096 := by
  rw [strmode_eq, strmode_eq, List.cons.injEq, List.append_cancel_right_eq, text_inj, modeOf_eq_iff]

/-! ## The check boxes -/

def PermTable.ofMode (mode : Nat) : PermTable where
  readOwner := mode &&& 0o400 ≠ 0
  writeOwner := mode &&& 0o200 ≠ 0
  exeOwner := mode &&& 0o100 ≠ 0
  setUid := mode &&& 0o4000 ≠ 0
  readGroup := mode &&& 0o040 ≠ 0
  writeGroup := mode &&& 0o020 ≠ 0
  exeGroup := mode &&& 0o010 ≠ 0
  setGid := mode &&& 0o2000 ≠ 0
  readOther := mode &&& 0o004 ≠ 0
  writeOther := mode &&& 0o002 ≠ 0
  exeOther := mode &&& 0o001 ≠ 0
  sticky := mode &&& 0o1000 ≠ 0

theorem exeChar_boxes (mode x special : Nat) :
    (decide (exeChar mode x special 's' 'S' = 'x' ∨ exeChar mode x special 's' 'S' = 's') =
      decide (mode &&& x ≠ 0)) ∧
    (decide (exeChar mode x special 's' 'S' = 'S' ∨ exeChar mode x special 's' 'S' = 's') =
      decide (mode &&& special ≠ 0)) := by
  unfold exeChar rightChar
  by_cases hx : mode &&& x = 0 <;> by_cases hs : mode &&& special = 0 <;> simp [hx, hs]

theorem exeChar_otherBoxes (mode x special : Nat) :
    (decide (exeChar mode x special 't' 'T' = 'x' ∨ exeChar mode x special 't' 'T' = 'T') =
      (decide (mode &&& x ≠ 0) ^^ decide (mode &&& special ≠ 0))) ∧
    (decide (exeChar mode x special 't' 'T' = 't' ∨ exeChar mode x special 't' 'T' = 'T') =
      decide (mode &&& special ≠ 0)) := by
  unfold exeChar rightChar
  by_cases hx : mode &&& x = 0 <;> by_cases hs : mode &&& special = 0 <;> simp [hx, hs]

theorem rightChar_eq_iff (mode bit : Nat) {c : Char} (hc : c ≠ '-') :
    rightChar mode bit c = c ↔ mode &&& bit ≠ 0 := by
  unfold rightChar
  split
  · next h => simp [h]
  · next h => simp [h, hc.symm]

theorem updatePermTable_strmode (mode : Nat) :
    updatePermTable (strmode mode) = some { PermTable.ofMode mode with
      exeOther := decide (mode &&& 0o001 ≠ 0) ^^ decide (mode &&& 0o1000 ≠ 0) } := by
  have hr : ∀ bit, decide (rightChar mode bit 'r' = 'r') = decide (mode &&& bit ≠ 0) :=
    fun bit => decide_eq_decide.mpr (rightChar_eq_iff mode bit (by decide))
  have hw : ∀ bit, decide (rightChar mode bit 'w' = 'w') = decide (mode &&& bit ≠ 0) :=
    fun bit => decide_eq_decide.mpr (rightChar_eq_iff mode bit (by decide))
  simp only [updatePermTable, strmode, List.getElem?_cons_succ, List.getElem?_cons_zero,
    Option.bind_eq_bind, Option.bind_some, hr, hw, (exeChar_boxes mode 0o100 0o4000).1,
    (exeChar_boxes mode 0o100 0o4000).2, (exeChar_boxes mode 0o010 0o2000).1,
    (exeChar_boxes mode 0o010 0o2000).2, (exeChar_otherBoxes mode 0o001 0o1000).1,
    (exeChar_otherBoxes mode 0o001 0o1000).2, PermTable.ofMode]

/-- **The dialog shows the mode**: its letters and its digits tell any two modes apart, and its boxes
are those of the mode just if the sticky bit is not set. -/
theorem dialog_shows_mode (m : Nat) :
    (∀ m', strmode m = strmode m' ↔ typeChar m = typeChar m' ∧ m % 4096 = m' % 4096) ∧
    (∀ m', digitMode m = digitMode m' ↔ m % 4096 = m' % 4096) ∧
    (updatePermTable (strmode m) = some (.ofMode m) ↔ m &&& 0o1000 = 0) := by
  refine ⟨fun _ => strmode_eq_iff, fun _ => digitMode_eq_iff, ?_⟩
  rw [updatePermTable_strmode]
  by_cases h : m &&& 0o1000 = 0 <;> simp [PermTable.ofMode, h]

theorem localDigitMode_iff (perm : Nat) : localDigitMode perm =
    ['0', digit perm readOwner writeOwner exeOwner, digit perm readGroup writeGroup exeGroup,
      digit perm readOther writeOther exeOther] ↔ UserAsOwner perm := by
  rw [userAsOwner_iff]
  simp [localDigitMode, digit_eq_iff]

end NullFxp.Permissions
