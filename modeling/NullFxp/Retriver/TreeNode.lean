import NullFxp.LibFtp.UnixLine
import NullFxp.RemoteDirModel.Requests

/-!
# Nodes made from a listing

`FTPDirRetriver` turns the entries of a listing into nodes. The permissions go from the bits of
`QUrlInfo` to those of SFTP, and `strmode` prints them.
-/

open Text NullFxp.RemoteDirModel

namespace NullFxp.Retriver

open LibFtp

/-! ## The attributes -/

/-- `QFile::ExeGroup` -/
def fileExeGroup : Nat := 0x0010

/-- `if (perm & bit) attr->permissions |= out` -/
def grant (perm bit out : Nat) : Nat := if perm &&& bit ≠ 0 then out else 0

def typeBits (ui : FTPFileInfo) : Nat :=
  if ui.isFile && !ui.isSymLink then 0o100000
  else if ui.isSymLink then 0o120000
  else if ui.isDir then 0o040000
  else 0

/-- The right of the group to execute is looked up with a bit of another enumeration. -/
def rightBits (perm : Nat) : Nat :=
  grant perm readOwner 0o400 ||| grant perm writeOwner 0o200 ||| grant perm exeOwner 0o100 |||
  grant perm readGroup 0o040 ||| grant perm writeGroup 0o020 ||| grant perm fileExeGroup 0o010 |||
  grant perm readOther 0o004 ||| grant perm writeOther 0o002 ||| grant perm exeOther 0o001

/-- `QUrlInfo2LIBSSH2_SFTP_ATTRIBUTES`. The two times are those of the entry. -/
def qUrlInfo2Attributes (ui : FTPFileInfo) (atime mtime : Nat) : Attrib :=
  { Attrib.zero with
    filesize := (ui.size % 0x10000000000000000).toNat
    atime, mtime
    permissions := typeBits ui ||| rightBits ui.permissions }

/-- `times` gives the last read and the last change of an entry. -/
def dirListToTreeNode (times : FTPFileInfo → Nat × Nat) (dirList : List FTPFileInfo)
    (pnode : Nat) (parent : NetDirNode) : List NetDirNode :=
  dirList.mapIdx fun i ui =>
    { newItem .ftp parent i ui.name (qUrlInfo2Attributes ui (times ui).1 (times ui).2) with
      pNode := some pnode }

/-! ## `strmode` -/

/-- `switch (mode & S_IFMT)` -/
def typeChar (mode : Nat) : Char :=
  let fmt := mode &&& 0o170000
  if fmt = 0o040000 then 'd'
  else if fmt = 0o020000 then 'c'
  else if fmt = 0o060000 then 'b'
  else if fmt = 0o100000 then '-'
  else if fmt = 0o120000 then 'l'
  else if fmt = 0o140000 then 's'
  else if fmt = 0o010000 then 'p'
  else '?'

def rightChar (mode bit : Nat) (c : Char) : Char := if mode &&& bit ≠ 0 then c else '-'

/-- `switch (mode & (x | special))` -/
def exeChar (mode x special : Nat) (lower upper : Char) : Char :=
  if mode &&& special = 0 then rightChar mode x 'x' else if mode &&& x ≠ 0 then lower else upper

def strmode (mode : Nat) : QString :=
  [typeChar mode,
   rightChar mode 0o400 'r', rightChar mode 0o200 'w', exeChar mode 0o100 0o4000 's' 'S',
   rightChar mode 0o040 'r', rightChar mode 0o020 'w', exeChar mode 0o010 0o2000 's' 'S',
   rightChar mode 0o004 'r', rightChar mode 0o002 'w', exeChar mode 0o001 0o1000 't' 'T', ' ']

def fileMode (node : NetDirNode) : QString := strmode node.attrib.permissions

/-! ## From the letters of a line to the letters of its node -/

def flag (b : Bool) (n : Nat) : Nat := if b then n else 0

theorem unixPermissions_text (m : Mode) : unixPermissions m.text =
    (flag m.readOwner readOwner ||| flag m.writeOwner writeOwner |||
    flag (m.exeOwner = .on) exeOwner ||| flag m.readGroup readGroup |||
    flag m.writeGroup writeGroup ||| flag (m.exeGroup = .on) exeGroup |||
    flag m.readOther readOther ||| flag m.writeOther writeOther |||
    flag (m.exeOther = .on) exeOther) := by
  have hr : ∀ (b : Bool) (f : Nat), (if some (if b then 'r' else '-') = some 'r' then f else 0) =
      flag b f := by
    intro b f
    cases b <;> rfl
  have hw : ∀ (b : Bool) (f : Nat), (if some (if b then 'w' else '-') = some 'w' then f else 0) =
      flag b f := by
    intro b f
    cases b <;> rfl
  have hs : ∀ (x : Exe) (f : Nat), (if some (x.char 's' 'S') = some 'x' then f else 0) =
      flag (x = .on) f := by
    intro x f
    cases x <;> rfl
  have ht : ∀ (x : Exe) (f : Nat), (if some (x.char 't' 'T') = some 'x' then f else 0) =
      flag (x = .on) f := by
    intro x f
    cases x <;> rfl
  rw [← hr m.readOwner, ← hw m.writeOwner, ← hs m.exeOwner, ← hr m.readGroup, ← hw m.writeGroup,
    ← hs m.exeGroup, ← hr m.readOther, ← hw m.writeOther, ← ht m.exeOther]
  rfl

def letter (b : Bool) (c : Char) : Char := if b then c else '-'

theorem flag_and (b : Bool) (n k : Nat) : flag b n &&& k = flag b (n &&& k) := by
  cases b <;> simp [flag]

theorem flag_zero (b : Bool) : flag b 0 = 0 := by
  cases b <;> rfl

theorem flag_eq_zero_iff (b : Bool) (n : Nat) : flag b n = 0 ↔ b = false ∨ n = 0 := by
  cases b <;> simp [flag]

theorem rightBits_flags (a b c d e f g h i : Bool) :
    rightBits (flag a readOwner ||| flag b writeOwner ||| flag c exeOwner ||| flag d readGroup |||
      flag e writeGroup ||| flag f exeGroup ||| flag g readOther ||| flag h writeOther |||
      flag i exeOther) =
    (flag a 0o400 ||| flag b 0o200 ||| flag c 0o100 ||| flag d 0o040 ||| flag e 0o020 |||
      flag e 0o010 ||| flag g 0o004 ||| flag h 0o002 ||| flag i 0o001) := by
  have hgrant : ∀ (b : Bool) (n : Nat), (if b = true then n else 0) = flag b n := fun _ _ => rfl
  simp only [rightBits, grant, readOwner, writeOwner, exeOwner, readGroup, writeGroup, exeGroup,
    fileExeGroup, readOther, writeOther, exeOther, Nat.and_or_distrib_right, flag_and, Nat.reduceAnd,
    flag_zero, Nat.or_zero, Nat.zero_or, ne_eq, flag_eq_zero_iff]
  simp [hgrant]

theorem strmode_rights (a b c d e f g h i : Bool) {ty : Nat}
    (hty : ty ∈ [0o100000, 0o120000, 0o040000]) : strmode (ty ||| rightBits
      (flag a readOwner ||| flag b writeOwner ||| flag c exeOwner ||| flag d readGroup |||
       flag e writeGroup ||| flag f exeGroup ||| flag g readOther ||| flag h writeOther |||
       flag i exeOther)) =
      [typeChar ty, letter a 'r', letter b 'w', letter c 'x', letter d 'r', letter e 'w',
       letter e 'x', letter g 'r', letter h 'w', letter i 'x', ' '] := by
  rw [rightBits_flags]
  have hletter : ∀ (b : Bool) (c : Char), (if b = true then c else '-') = letter b c :=
    fun _ _ => rfl
  simp only [List.mem_cons, List.not_mem_nil, or_false] at hty
  -- each mask of `strmode` leaves one flag, or the type
  rcases hty with rfl | rfl | rfl <;>
    simp [strmode, typeChar, rightChar, exeChar, Nat.and_or_distrib_right, flag_and, flag_zero,
      flag_eq_zero_iff, hletter, -Nat.and_one_is_mod]

/-! ## Lines that reach the tree -/

/-- `s` and `t` stand for the right to execute, `S` and `T` do not. -/
def executes (x : Exe) : Bool := x = .on ∨ x = .specialOn

/-- The nine letters that the line stands for. -/
def shown (m : Mode) : QString :=
  [letter m.readOwner 'r', letter m.writeOwner 'w', letter (executes m.exeOwner) 'x',
   letter m.readGroup 'r', letter m.writeGroup 'w', letter (executes m.exeGroup) 'x',
   letter m.readOther 'r', letter m.writeOther 'w', letter (executes m.exeOther) 'x']

/-- The line is accepted, and wherever its entry stands in a listing, the node has what the line
says. -/
def Reaches (userName : QString) (L : UnixLine) : Prop :=
  ∃ info, parseDir userName L.bytes = some info ∧
    (∀ target, L.kind = .link target → info.symlinkTarget = target.1) ∧
    ∀ times dirList pnode parent (i : Nat), dirList[i]? = some info →
      ∃ node, (dirListToTreeNode times dirList pnode parent)[i]? = some node ∧
        node.fileName = L.name.1 ∧ node.attrib.filesize = L.sizeVal ∧
        fileMode node = L.kind.char :: (shown L.mode ++ [' '])

theorem sizeVal_lt (L : UnixLine) : L.sizeVal < 0x8000000000000000 := by
  cases h : digitsVal 0 L.size.1 with
  | none => simp [UnixLine.sizeVal, h]
  | some n => simpa [UnixLine.sizeVal, h] using L.size_range n h

def kindBits : Kind → Nat
  | .file => 0o100000
  | .link _ => 0o120000
  | .dir => 0o040000

theorem kindBits_mem (k : Kind) : kindBits k ∈ [0o100000, 0o120000, 0o040000] := by
  cases k <;> simp [kindBits]

theorem typeChar_kindBits (k : Kind) : typeChar (kindBits k) = k.char := by
  cases k with
  | dir => exact show typeChar 0o040000 = 'd' by decide
  | file => exact show typeChar 0o100000 = '-' by decide
  | link target => exact show typeChar 0o120000 = 'l' by decide

/-- What the code makes of the nine letters. -/
def printed (m : Mode) : QString :=
  [letter m.readOwner 'r', letter m.writeOwner 'w', letter (m.exeOwner = .on) 'x',
   letter m.readGroup 'r', letter m.writeGroup 'w', letter m.writeGroup 'x',
   letter m.readOther 'r', letter m.writeOther 'w', letter (m.exeOther = .on) 'x']

theorem fileMode_of_info (L : UnixLine) {info : FTPFileInfo} {atime mtime : Nat}
    (hperm : info.permissions = unixPermissions L.mode.text) (hfile : info.isFile = L.kind.isFile)
    (hlink : info.isSymLink = L.kind.isSymLink) (hdir : info.isDir = !L.kind.isFile) :
    strmode (qUrlInfo2Attributes info atime mtime).permissions =
      L.kind.char :: (printed L.mode ++ [' ']) := by
  have hrights := @strmode_rights L.mode.readOwner L.mode.writeOwner (L.mode.exeOwner = .on)
    L.mode.readGroup L.mode.writeGroup (L.mode.exeGroup = .on) L.mode.readOther L.mode.writeOther
    (L.mode.exeOther = .on)
  rw [← unixPermissions_text, ← hperm] at hrights
  have htype : typeBits info = kindBits L.kind := by
    rw [typeBits, hfile, hlink, hdir]
    cases L.kind <;> rfl
  change strmode (typeBits info ||| rightBits info.permissions) = _
  rw [htype, hrights (kindBits_mem L.kind), typeChar_kindBits]
  rfl

theorem letter_x_inj (a b : Bool) : letter a 'x' = letter b 'x' ↔ a = b := by
  cases a <;> cases b <;> decide

theorem on_eq_executes_iff (x : Exe) : decide (x = .on) = executes x ↔ x ≠ .specialOn := by
  cases x <;> decide

theorem printed_eq_shown_iff (m : Mode) : printed m = shown m ↔
    m.exeOwner ≠ .specialOn ∧ m.exeOther ≠ .specialOn ∧ m.writeGroup = executes m.exeGroup := by
  rw [printed, shown]
  simp only [List.cons.injEq, true_and, and_true, letter_x_inj, on_eq_executes_iff]
  tauto

theorem node_of_info (L : UnixLine) {info : FTPFileInfo} (hname : info.name = L.name.1)
    (hsize : info.size = L.sizeVal) (hperm : info.permissions = unixPermissions L.mode.text)
    (hfile : info.isFile = L.kind.isFile) (hlink : info.isSymLink = L.kind.isSymLink)
    (hdir : info.isDir = !L.kind.isFile) (times : FTPFileInfo → Nat × Nat)
    {dirList : List FTPFileInfo} (pnode : Nat) (parent : NetDirNode) {i : Nat}
    (hi : dirList[i]? = some info) :
    ∃ node, (dirListToTreeNode times dirList pnode parent)[i]? = some node ∧
      node.fileName = L.name.1 ∧ node.attrib.filesize = L.sizeVal ∧
      fileMode node = L.kind.char :: (printed L.mode ++ [' ']) := by
  have hlt := sizeVal_lt L
  refine ⟨_, by rw [dirListToTreeNode, List.getElem?_mapIdx, hi, Option.map_some], hname, ?_, ?_⟩
  · change (info.size % 0x10000000000000000).toNat = L.sizeVal
    rw [hsize]
    omega
  · exact fileMode_of_info L hperm hfile hlink hdir

variable {userName : QString} {L : UnixLine}

theorem Reaches.printed_eq_shown (h : Reaches userName L) : printed L.mode = shown L.mode := by
  obtain ⟨info, hparse, hname, hsize, hperm, hfile, hlink, hdir, -⟩ := L.parseDir_bytes userName
  obtain ⟨info', hparse', -, hnode⟩ := h
  obtain rfl : info = info' := Option.some.inj (hparse.symm.trans hparse')
  obtain ⟨node, hget, -, -, hmode⟩ := hnode (fun _ => (0, 0)) [info] 0 .new 0 rfl
  obtain ⟨node', hget', -, -, hmode'⟩ := node_of_info L hname hsize hperm hfile hlink hdir
    (fun _ => (0, 0)) 0 .new (show [info][0]? = some info from rfl)
  obtain rfl : node = node' := Option.some.inj (hget.symm.trans hget')
  rw [hmode] at hmode'
  exact (List.append_cancel_right (List.cons.inj hmode').2).symm

theorem Reaches.not_link (h : Reaches userName L) : L.kind.isSymLink = false := by
  obtain ⟨info, hparse, -, -, -, -, -, -, htarget⟩ := L.parseDir_bytes userName
  obtain ⟨info', hparse', hrecorded, -⟩ := h
  obtain rfl : info = info' := Option.some.inj (hparse.symm.trans hparse')
  cases hk : L.kind with
  | link target =>
    have hlen := congrArg List.length ((hrecorded target hk).symm.trans htarget)
    simp [UnixLine.recordedTarget, hk] at hlen
  | dir => rfl
  | file => rfl

/-- **A Unix line reaches the tree unchanged** just if it is not a link, has no `s` for the owner and
no `t`, and the group may execute just if it may write. -/
theorem unix_line_reaches_iff (userName : QString) (L : UnixLine) :
    Reaches userName L ↔ L.kind.isSymLink = false ∧ L.mode.exeOwner ≠ .specialOn ∧
      L.mode.exeOther ≠ .specialOn ∧ L.mode.writeGroup = executes L.mode.exeGroup := by
  constructor
  · intro h
    exact ⟨h.not_link, (printed_eq_shown_iff L.mode).mp h.printed_eq_shown⟩
  · rintro ⟨hnolink, hletters⟩
    rw [← printed_eq_shown_iff] at hletters
    obtain ⟨info, hparse, hname, hsize, hperm, hfile, hlink, hdir, -⟩ := L.parseDir_bytes userName
    refine ⟨info, hparse, ?_, ?_⟩
    · intro target hk
      simp [hk, Kind.isSymLink] at hnolink
    · intro times dirList pnode parent i hi
      rw [← hletters]
      exact node_of_info L hname hsize hperm hfile hlink hdir times pnode parent hi

/-! ## The lines that the parser has as examples -/

def spaces (n : Nat) : Blanks :=
  ⟨List.replicate (n + 1) ' ', by simp, fun c hc => by
    obtain rfl := List.eq_of_mem_replicate hc
    exact ⟨by decide, by decide, by decide⟩⟩

def token (w : QString) (hne : w ≠ [])
    (h : (w.all fun c => !isSpace c && decide (0 < c.toNat ∧ c.toNat < 256)) = true) : Token :=
  ⟨w, hne, fun c hc => by
    have := List.all_eq_true.mp h c hc
    simpa [IsLatin1] using this⟩

def number (w : QString) (hne : w ≠ []) (h : (w.all fun c => (digitVal c).isSome) = true) : Number :=
  ⟨w, hne, fun c hc => Option.isSome_iff_exists.mp (List.all_eq_true.mp h c hc)⟩

def name (k : Token) : Name :=
  ⟨k.1, k.2.1, fun c hc => (k.2.2 c (List.mem_of_mem_head? hc)).1,
    fun c hc => (k.2.2 c (List.mem_of_mem_getLast? hc)).1, fun c hc => (k.2.2 c hc).2⟩

/-- drwxr-xr-x    3 ftp      ftp          4096 Apr 14  2000 compiled-examples -/
def compiledExamples : UnixLine where
  kind := .dir
  mode := ⟨true, true, .on, true, false, .on, true, false, .on⟩
  gap1 := spaces 3
  links := number "3".toList (by decide) (by decide)
  gap2 := spaces 0
  owner := token "ftp".toList (by decide) (by decide)
  gap3 := spaces 5
  group := token "ftp".toList (by decide) (by decide)
  gap4 := spaces 9
  size := number "4096".toList (by decide) (by decide)
  gap5 := spaces 0
  month := token "Apr".toList (by decide) (by decide)
  gap6 := spaces 0
  day := token "14".toList (by decide) (by decide)
  gap7 := spaces 1
  year := token "2000".toList (by decide) (by decide)
  gap8 := spaces 0
  name := name (token "compiled-examples".toList (by decide) (by decide))
  eol := []
  size_range := by decide
  name_arrow := by simp
  eol_blank := by simp

theorem compiledExamples_changed :
    compiledExamples.text =
      "drwxr-xr-x    3 ftp      ftp          4096 Apr 14  2000 compiled-examples".toList ∧
    printed compiledExamples.mode = "rwxr--r-x".toList ∧ ¬ Reaches [] compiledExamples := by
  -- The group may not write, so it is not shown that it may execute.
  refine ⟨by decide, by decide, ?_⟩
  intro h
  exact absurd h.printed_eq_shown (by decide)

end NullFxp.Retriver
