import Mathlib.Data.Option.Basic
import NullFxp.QString
import NullFxp.Lib.RowMap

/-!
# The nodes of the remote directory tree

`NetDirNode` and the state of `RemoteDirModel`. Nodes live in a heap, and a pointer is
the address of a node, or `none` for a null pointer. An address is never used twice.

Every function that the source guards with `Q_ASSERT`, or that follows a pointer,
returns an `Option`: `none` is a failed assertion, a null pointer or a deleted node.
-/

namespace NullFxp.RemoteDirModel

abbrev NodePtr := Option Nat

/-- A value stored in a `short`. -/
def short (n : Int) : Int := (Int16.ofInt n).toInt

theorem short_of_lt (n : Nat) (h : n < 32768) : short n = n :=
  Int16.toInt_ofInt_of_le (by omega) (by omega)

theorem short_limit : short (32768 : Nat) = -32768 := by decide

/-! ## NetDirNode -/

/-- `LIBSSH2_SFTP_ATTRIBUTES` -/
structure Attrib where
  flags : Nat
  filesize : Nat
  uid : Nat
  gid : Nat
  permissions : Nat
  atime : Nat
  mtime : Nat
  deriving DecidableEq

def Attrib.zero : Attrib := ⟨0, 0, 0, 0, 0, 0, 0⟩

def popNoNeedNoData : UInt8 := 0x01
def popNoNeedWithData : UInt8 := 0x02
def popWithNeedWantUpdate : UInt8 := 0x04
def popUpdating : UInt8 := 0x08
def popNewest : UInt8 := 0x10

/-- The flags on which `rowCount` asks for a listing. -/
def WantsListing (flag : UInt8) : Prop := flag = popNoNeedNoData ∨ flag = popWithNeedWantUpdate

instance (flag : UInt8) : Decidable (WantsListing flag) := inferInstanceAs (Decidable (_ ∨ _))

structure NetDirNode where
  prevFlag : UInt8
  retrFlag : UInt8
  deleted : Bool
  childNodes : RowMap NodePtr
  pNode : NodePtr
  onRow : Int
  fullPath : QString
  fileName : QString
  linkToDir : Bool
  attrib : Attrib

namespace NetDirNode

def new : NetDirNode where
  prevFlag := 0xFF
  retrFlag := 0
  deleted := false
  childNodes := ∅
  pNode := none
  onRow := -1
  fullPath := []
  fileName := []
  linkToDir := false
  attrib := .zero

def isDir (n : NetDirNode) : Bool := n.attrib.permissions &&& 0o170000 == 0o040000

def isSymLink (n : NetDirNode) : Bool := n.attrib.permissions &&& 0o170000 == 0o120000

/-- `childNodes.value(row)`, which is a null pointer for a missing row. -/
def childAt (n : NetDirNode) (row : Nat) : NodePtr := (n.childNodes.lookup row).getD none

/-- Everything but the children and the parent comes from the other node. -/
def copyFrom (n node : NetDirNode) : NetDirNode :=
  { n with
    fullPath := node.fullPath
    fileName := node.fileName
    linkToDir := node.linkToDir
    retrFlag := node.retrFlag
    prevFlag := node.prevFlag
    deleted := node.deleted
    onRow := node.onRow
    attrib := node.attrib }

end NetDirNode

/-! ## The retriever's queue -/

/-- The commands that `DirRetriver::run` knows. -/
inductive Command where
  | readdir
  | mkdir
  | rmdir
  | remove
  | rename
  | realpath
  | keepAlive
  deriving DecidableEq

/-- `command_queue_elem`. A `QPersistentModelIndex` keeps pointing at the node that it was
made for, so it is that node's address here. -/
structure QueueElem where
  parentItem : Nat
  persisIndex : Nat
  cmd : Command
  params : QString
  deriving DecidableEq

/-! ## The model -/

structure Model where
  nodes : Nat → Option NetDirNode
  next : Nat
  rootNode : NodePtr
  commandQueue : List QueueElem

/-- `QModelIndex`. The row and the column of an invalid one are -1. -/
structure ModelIndex where
  row : Int
  column : Int
  internalPointer : NodePtr
  deriving DecidableEq

namespace ModelIndex

def invalid : ModelIndex := ⟨-1, -1, none⟩

def IsValid (i : ModelIndex) : Prop := 0 ≤ i.row ∧ 0 ≤ i.column

instance (i : ModelIndex) : Decidable i.IsValid := inferInstanceAs (Decidable (_ ∧ _))

end ModelIndex

namespace Model

def empty : Model := ⟨fun _ => none, 0, none, []⟩

def deref (m : Model) (p : NodePtr) : Option NetDirNode := p.bind m.nodes

def set (m : Model) (n : Nat) (nd : NetDirNode) : Model :=
  { m with nodes := Function.update m.nodes n (some nd) }

/-- `new NetDirNode()`, filled in by the caller. -/
def alloc (m : Model) (nd : NetDirNode) : Model :=
  { m with nodes := Function.update m.nodes m.next (some nd), next := m.next + 1 }

@[simp] theorem set_nodes_self (m : Model) (n : Nat) (nd : NetDirNode) :
    (m.set n nd).nodes n = some nd := by simp [set]

theorem set_nodes_ne (m : Model) {n k : Nat} (nd : NetDirNode) (h : k ≠ n) :
    (m.set n nd).nodes k = m.nodes k := by simp [set, h]

@[simp] theorem set_next (m : Model) (n : Nat) (nd : NetDirNode) : (m.set n nd).next = m.next := rfl

@[simp] theorem set_rootNode (m : Model) (n : Nat) (nd : NetDirNode) :
    (m.set n nd).rootNode = m.rootNode := rfl

@[simp] theorem set_commandQueue (m : Model) (n : Nat) (nd : NetDirNode) :
    (m.set n nd).commandQueue = m.commandQueue := rfl

/-! ## Queries -/

def index (m : Model) (row column : Int) (parent : ModelIndex) : Option ModelIndex := do
  guard (column < 4)
  if parent.IsValid then
    let parentItem ← m.deref parent.internalPointer
    guard (row < parentItem.childNodes.count)
    let childItem := if 0 ≤ row then parentItem.childAt row.toNat else none
    guard (¬(row = -1 ∧ column = 0))
    some ⟨row, column, childItem⟩
  else
    guard (row = 0)
    some ⟨row, column, m.rootNode⟩

def parent (m : Model) (child : ModelIndex) : Option ModelIndex :=
  if child.IsValid then do
    let childItem ← m.deref child.internalPointer
    match childItem.pNode with
    | none => some .invalid
    | some p => do
      let parentItem ← m.nodes p
      guard (parentItem.onRow ≠ -1)
      some ⟨parentItem.onRow, 0, some p⟩
  else
    some .invalid

/-- `add_node` of the retriever: the flag goes to "updating" and a `READDIR` is queued. -/
def addNode (m : Model) (parentItem persisIndex : Nat) : Option Model := do
  let nd ← m.nodes parentItem
  let m := m.set parentItem { nd with prevFlag := nd.retrFlag, retrFlag := popUpdating }
  some { m with commandQueue := m.commandQueue ++ [⟨parentItem, persisIndex, .readdir, []⟩] }

def slotExecuteCommand (m : Model) (parentItem persisIndex : Nat) (cmd : Command)
    (params : QString) : Model :=
  { m with commandQueue := m.commandQueue ++ [⟨parentItem, persisIndex, cmd, params⟩] }

/-- The part of `rowCount` that sends a `READDIR` for a node with no listing. -/
def requestListing (m : Model) (p : Nat) (flag : UInt8) : Option Model :=
  if WantsListing flag then m.addNode p p else some m

def rowCount (m : Model) (parent : ModelIndex) : Option (Nat × Model) :=
  if parent.IsValid then do
    let p ← parent.internalPointer
    let parentItem ← m.nodes p
    -- `Q_ASSERT(1 == 2)` in the source
    guard (parentItem.fileName ≠ ['.', 'w', 'i', 'c', 'd'])
    let m ← m.requestListing p parentItem.retrFlag
    some (parentItem.childNodes.count, m)
  else
    some (1, m)

/-- The index that a `QPersistentModelIndex` made for `n` stands for now: the row that `n`
is under in its parent, or an invalid index once `n` is deleted. -/
def persistent (m : Model) (n : Nat) : ModelIndex :=
  match m.nodes n with
  | none => .invalid
  | some nd =>
    match nd.pNode with
    | none => ⟨0, 0, some n⟩
    | some p =>
      match m.nodes p with
      | none => .invalid
      | some pd =>
        match (pd.childNodes.entries.find? fun e => e.2 == some n) with
        | none => .invalid
        | some e => ⟨e.1, 0, some n⟩

end Model

end NullFxp.RemoteDirModel
