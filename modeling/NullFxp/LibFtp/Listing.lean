import NullFxp.Lib.Regex
import NullFxp.LibFtp.Reply

/-!
# Lines of a directory listing

An entry is what a line of `LIST` or of `MLST` says, but for its date.
-/

open Text Regex

namespace NullFxp.LibFtp

structure FTPFileInfo where
  name : QString := []
  isDir : Bool := false
  isFile : Bool := true
  isSymLink : Bool := false
  owner : QString := []
  group : QString := []
  size : Int := 0
  permissions : Nat := 0
  isReadable : Bool := true
  isWritable : Bool := true
  symlinkTarget : QString := []
  deriving DecidableEq

/-! ## `QUrlInfo::PermissionSpec` -/

def readOwner : Nat := 0o400
def writeOwner : Nat := 0o200
def exeOwner : Nat := 0o100
def readGroup : Nat := 0o040
def writeGroup : Nat := 0o020
def exeGroup : Nat := 0o010
def readOther : Nat := 0o004
def writeOther : Nat := 0o002
def exeOther : Nat := 0o001

/-- `QFile::WriteGroup` -/
def fileWriteGroup : Nat := 0x0020

/-! ## Patterns -/

def digit (c : Char) : Bool := '0' ≤ c && c ≤ '9'

theorem digit_of_digitVal {c : Char} {n : Nat} (h : digitVal c = some n) : digit c = true := by
  have := digitVal_eq_some h
  simpa [digit, Char.le_def, UInt32.le_iff_toNat_le] using this

def notSpace (c : Char) : Bool := !isSpace c

/-- `[a-zA-Z\-]` -/
def modeChar (c : Char) : Bool := ('a' ≤ c && c ≤ 'z') || ('A' ≤ c && c ≤ 'Z') || c == '-'

/-- `^([\-dl])([a-zA-Z\-]{9,9})\s+\d+\s+(\S*)\s+(\S*)\s+(\d+)\s+(\S+\s+\S+\s+\S+)\s+(\S.*)` -/
def unixPattern : Pat := .ofList
  [.group (.one fun c => c == '-' || c == 'd' || c == 'l'), .group (.times 9 (.one modeChar)),
   .plus isSpace, .plus digit, .plus isSpace, .group (.many notSpace), .plus isSpace,
   .group (.many notSpace), .plus isSpace, .group (.plus digit), .plus isSpace,
   .group (.ofList [.plus notSpace, .plus isSpace, .plus notSpace, .plus isSpace, .plus notSpace]),
   .plus isSpace, .group (.seq (.one notSpace) (.many fun _ => true))]

/-- `^(\d\d-\d\d-\d\d\ \ \d\d:\d\d[AP]M)\s+(<DIR>|\d+)\s+(\S.*)$` -/
def dosPattern : Pat := .ofList
  [.group (.ofList
    [.one digit, .one digit, .chr '-', .one digit, .one digit, .chr '-', .one digit, .one digit,
     .chr ' ', .chr ' ', .one digit, .one digit, .chr ':', .one digit, .one digit,
     .one (fun c => c == 'A' || c == 'P'), .chr 'M']),
   .plus isSpace, .group (.alt (.word "<DIR>") (.plus digit)), .plus isSpace,
   .group (.seq (.one notSpace) (.many fun _ => true)), .stop]

/-! ## The lines of `LIST` -/

def toLongLong (s : QString) : Int := toNumber (-0x8000000000000000) 0x7fffffffffffffff s

def indexOf (pat : QString) : QString → Option Nat
  | [] => if pat = [] then some 0 else none
  | c :: s => if pat <+: c :: s then some 0 else (indexOf pat s).map (· + 1)

def permission (p : QString) (i : Nat) (c : Char) (flag : Nat) : Nat :=
  if p[i]? = some c then flag else 0

def unixPermissions (p : QString) : Nat :=
  permission p 0 'r' readOwner ||| permission p 1 'w' writeOwner ||| permission p 2 'x' exeOwner |||
  permission p 3 'r' readGroup ||| permission p 4 'w' writeGroup ||| permission p 5 'x' exeGroup |||
  permission p 6 'r' readOther ||| permission p 7 'w' writeOther ||| permission p 8 'x' exeOther

/-- The name of a line, and what follows " ->" for a link. -/
def resolveName (isSymLink : Bool) (name : QString) : QString × QString :=
  match if isSymLink then indexOf " ->".toList name else none with
  | some linkPos => (name.take linkPos, name.drop (linkPos + 3))
  | none => (name, [])

/-- `_q_parseUnixDir`, over the groups of the pattern -/
def parseUnixDir (userName : QString) (tokens : List QString) (info : FTPFileInfo) : FTPFileInfo :=
  match tokens with
  | [_, first, mode, owner, group, size, _, last] =>
    let info := match first with
      | 'd' :: _ => { info with isDir := true, isFile := false, isSymLink := false }
      | '-' :: _ => { info with isDir := false, isFile := true, isSymLink := false }
      | 'l' :: _ => { info with isDir := true, isFile := false, isSymLink := true }
      | _ => info
    let (name, target) := resolveName info.isSymLink last
    let permissions := unixPermissions mode
    let isOwner : Bool := owner = userName
    { info with
      name, owner, group, permissions
      size := toLongLong size
      isReadable := permissions &&& readOther ≠ 0 || (permissions &&& readOwner ≠ 0 && isOwner)
      isWritable := permissions &&& writeOther ≠ 0 || (permissions &&& writeOwner ≠ 0 && isOwner)
      symlinkTarget := target }
  | _ => info

def extension (name : QString) : QString :=
  if '.' ∈ name then (name.splitOn '.').getLastD [] else []

def lowerChar (c : Char) : Char := if 'A' ≤ c ∧ c ≤ 'Z' then Char.ofNat (c.toNat + 32) else c

/-- `_q_parseDosDir`, over the groups of the pattern -/
def parseDosDir (tokens : List QString) (info : FTPFileInfo) : FTPFileInfo :=
  match tokens with
  | [_, _, size, name] =>
    let isDir : Bool := size = "<DIR>".toList
    let executable : Bool := extension name ∈ ["exe".toList, "bat".toList, "com".toList]
    { info with
      name, isDir
      isSymLink := ".lnk".toList <:+ name.map lowerChar
      isFile := !isDir
      size := if isDir then info.size else toLongLong size
      permissions := readOwner ||| writeOwner ||| readGroup ||| writeGroup ||| readOther |||
        writeOther ||| (if executable then exeOwner ||| exeGroup ||| exeOther else 0)
      isReadable := true
      isWritable := !isDir }
  | _ => info

def parseDir (userName : QString) (buffer : Bytes) : Option FTPFileInfo :=
  if buffer = [] then none
  else
    let bufferStr := trimmed (fromLatin1 buffer)
    match unixPattern.captured bufferStr with
    | some tokens => some (parseUnixDir userName tokens {})
    | none => (dosPattern.captured bufferStr).map fun tokens => parseDosDir tokens {}

/-! ## The lines of `MLST` -/

/-- `fieldHash`, the last assignment first -/
def fieldHash (fields : List Bytes) : List (Bytes × Bytes) :=
  (fields.mapIdx fun i field =>
    match field.splitOn 61 with
    | [k, v] => (k, v)
    | kv => (toAscii (Nat.repr i).toList, kv.headD [])).reverse

def fieldValue (fields : List Bytes) (key : String) : Bytes :=
  ((fieldHash fields).lookup (toAscii key.toList)).getD []

/-- A `char` as an `int` -/
def charInt (b : UInt8) : BitVec 32 := b.toBitVec.signExtend 32

def modeFlag (umode : BitVec 32) (bit : Nat) (flag : Nat) : Nat :=
  if umode &&& BitVec.ofNat 32 bit ≠ 0 then flag else 0

/-- `none` is a mode of less than four bytes. -/
def parseMLSTLine (buffer : Bytes) : Option FTPFileInfo := do
  let fields := buffer.splitOn 59
  let isFile : Bool := fieldValue fields "type" = toAscii "file".toList
  let mode := fieldValue fields "UNIX.mode"
  let umode := charInt (← mode[0]?) <<< 3 ||| charInt (← mode[1]?) <<< 2 |||
    charInt (← mode[2]?) <<< 1 ||| charInt (← mode[3]?)
  some
    { name := fromLatin1 (fields.getLastD [])
      isFile, isDir := !isFile
      size := if isFile then toLongLong (fromLatin1 (fieldValue fields "size")) else 0
      isReadable := true
      isWritable := isFile
      permissions :=
        modeFlag umode 0o400 readOwner ||| modeFlag umode 0o200 writeOwner |||
        modeFlag umode 0o100 exeOwner ||| modeFlag umode 0o040 readGroup |||
        modeFlag umode 0o020 fileWriteGroup ||| modeFlag umode 0o010 exeGroup |||
        modeFlag umode 0o004 readOther ||| modeFlag umode 0o002 writeOther |||
        modeFlag umode 0o001 exeOther }

end NullFxp.LibFtp
