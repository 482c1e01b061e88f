import NullFxp.RemoteDirModel.Node

/-! # The operations that change the tree -/

namespace NullFxp.RemoteDirModel

namespace Model

/-! ## Removing rows -/

/-- `delete node`: the destructor deletes the children first, from the last row down.
Addresses grow on the way down, so `next` is enough fuel for any tree. -/
def destroy : Nat → (Nat → Option NetDirNode) → Nat → Option (Nat → Option NetDirNode)
  | 0, _, _ => none
  | fuel + 1, nodes, n => do
    let nd ← nodes n
    let nodes ← (List.range nd.childNodes.count).reverse.foldlM (fun nodes i => do
      -- `Q_ASSERT(this->childNodes.contains(i))`
      let c ← nd.childNodes.lookup i
      c.elim (some nodes) (destroy fuel nodes)) nodes
    some (Function.update nodes n none)

/-- One round of the inner loop of `removeRows`: row `j` moves down to `j - 1`. -/
def shiftRow (m : Model) (p j : Nat) : Option Model := do
  let parentItem ← m.nodes p
  let t ← parentItem.childAt j
  let tempItem ← m.nodes t
  let m := m.set t { tempItem with onRow := short ↑(j - 1) }
  let parentItem ← m.nodes p
  some (m.set p { parentItem with childNodes := parentItem.childNodes.insert (j - 1) (some t) })

def dropLastRow (m : Model) (p : Nat) : Option Model := do
  let parentItem ← m.nodes p
  let cSize := parentItem.childNodes.count
  some (m.set p { parentItem with childNodes := parentItem.childNodes.erase (cSize - 1) })

/-- The inner loop of `removeRows`, which the last row does not need. -/
def shiftRows (m : Model) (p i : Nat) : Option Model := do
  let parentItem ← m.nodes p
  let cSize := parentItem.childNodes.count
  if i ≠ cSize - 1 then (List.range' (i + 1) (cSize - (i + 1))).foldlM (fun m j => m.shiftRow p j) m
  else some m

/-- `delete ptr`, which does nothing for a null pointer. -/
def deletePtr (m : Model) : NodePtr → Option Model
  | none => some m
  | some d => (destroy m.next m.nodes d).map fun nodes => { m with nodes := nodes }

def removeRow (m : Model) (p i : Nat) : Option Model := do
  let parentItem ← m.nodes p
  let deleteItem := parentItem.childAt i
  let m ← m.shiftRows p i
  let m ← m.dropLastRow p
  m.deletePtr deleteItem

def removeRows (m : Model) (row count : Nat) (parent : ModelIndex) : Option Model := do
  let p ← parent.internalPointer
  let _ ← m.nodes p
  (List.range' row count).reverse.foldlM (fun m i => m.removeRow p i) m

/-! ## Inserting rows -/

/-- Moves the node of row `i + row` up, as the source does before it inserts. -/
def moveRow (m : Model) (p row count i : Nat) : Option Model := do
  let pnode ← m.nodes p
  let n ← pnode.childAt (i + row)
  let node ← m.nodes n
  let onRow := short ↑(i + row + count - 1)
  let m := m.set n { node with onRow := onRow }
  guard (0 ≤ onRow)
  let pnode ← m.nodes p
  some (m.set p { pnode with
    childNodes := (pnode.childNodes.insert (i + row) none).insert (i + row + count - 1) (some n) })

def newRow (m : Model) (p i : Nat) : Option Model := do
  let n := m.next
  let m := m.alloc { NetDirNode.new with pNode := some p, onRow := short i }
  guard (0 ≤ short i)
  let pnode ← m.nodes p
  some (m.set p { pnode with childNodes := pnode.childNodes.insert i (some n) })

/-- Makes room at `row`, unless `row` is the end. -/
def moveRows (m : Model) (p row count : Nat) : Option Model := do
  let pnode ← m.nodes p
  if row < pnode.childNodes.count then
    (List.range count).reverse.foldlM (fun m i => m.moveRow p row count i) m
  else some m

def insertRows (m : Model) (row count : Nat) (parent : ModelIndex) : Option Model := do
  guard (1 ≤ count)
  if parent.IsValid then
    let p ← parent.internalPointer
    let pnode ← m.nodes p
    guard (row ≤ pnode.childNodes.count)
    let m ← m.moveRows p row count
    (List.range' row count).foldlM (fun m i => m.newRow p i) m
  else
    guard (row = 0)
    guard (count = 1)
    let n := m.next
    some { m.alloc { NetDirNode.new with onRow := 0 } with rootNode := some n }

/-! ## setData -/

/-- `setData` with a node as the value. -/
def setDataNode (m : Model) (index : ModelIndex) (newNode : NetDirNode) : Option Model :=
  if index.IsValid then do
    let n ← index.internalPointer
    let oldNode ← m.nodes n
    some (m.set n { oldNode.copyFrom newNode with onRow := oldNode.onRow })
  else
    some m

/-- `setData` with a string as the value: a rename. -/
def setDataString (m : Model) (index : ModelIndex) (value : QString) : Option Model :=
  if index.IsValid ∧ value ≠ [] then do
    guard (index.column = 0)
    let parentItem := (← m.parent index).internalPointer
    let n ← index.internalPointer
    let dti ← m.nodes n
    if dti.fileName = value then some m
    else
      let p ← parentItem
      let pd ← m.nodes p
      let m := m.set n { dti with fullPath := childPath pd.fullPath value, fileName := value }
      some (m.slotExecuteCommand p p .rename (dti.fileName ++ '!' :: value))
  else
    some m

/-! ## The initial tree -/

/-- The temporary node that `set_user_home_path` copies into the tree for part `i`. -/
def homeNode (home : QString) (count i : Nat) (fullPath fileName : QString) : NetDirNode :=
  { NetDirNode.new with
    fullPath := fullPath
    fileName := fileName
    onRow := 0
    retrFlag :=
      if home = ['/'] then popNoNeedNoData
      else if i = count - 1 then popNoNeedNoData else popNoNeedWithData
    prevFlag := 0xFF
    attrib := { Attrib.zero with permissions := 16877 } }

/-- The loop over the parts of the home path. An empty part after the first ends it. -/
def homeLoop (home : QString) (count : Nat) :
    List QString → Nat → QString → ModelIndex → Model → Option Model
  | [], _, _, _, m => some m
  | part :: parts, i, lastStripPath, pIndex, m =>
    if i ≠ 0 ∧ part = [] then some m
    else do
      let fullPath := if i = 0 then [] else childPath lastStripPath part
      let fileName := if i = 0 then ['/'] else part
      let m ← m.insertRows 0 1 pIndex
      let currIndex ← m.index 0 0 pIndex
      let m ← m.setDataNode currIndex (homeNode home count i fullPath fileName)
      homeLoop home count parts (i + 1) fullPath currIndex m

def setUserHomePath (m : Model) (home : QString) : Option Model := do
  guard (home.take 1 = ['/'])
  let pathParts := home.splitOn '/'
  homeLoop home pathParts.length pathParts 0 [] .invalid m

/-! ## A listing arrives -/

/-- The entry of the listing that stands for a row. The search runs from the last entry. -/
def entryFor (newNodes : List NetDirNode) (name : QString) : Option NetDirNode :=
  newNodes.reverse.find? fun nnode => nnode.fileName = name

/-- First pass, row `i`: a row that is not listed goes, any other takes the entry's data. -/
def refreshRow (m : Model) (currIndex : ModelIndex) (newNodes : List NetDirNode) (i : Nat) :
    Option Model := do
  let tmpIndex ← m.index i 0 currIndex
  let node ← m.deref tmpIndex.internalPointer
  match entryFor newNodes node.fileName with
  | none => m.removeRows i 1 currIndex
  | some nnode => m.setDataNode tmpIndex nnode

def hasRow (m : Model) (currIndex : ModelIndex) (name : QString) : List Nat → Option Bool
  | [] => some false
  | j :: js => do
    let tmpIndex ← m.index j 0 currIndex
    let node ← m.deref tmpIndex.internalPointer
    if node.fileName = name then some true else hasRow m currIndex name js

/-- Second pass, one entry: a name that no row has yet is appended. -/
def appendRow (m : Model) (currIndex : ModelIndex) (nnode : NetDirNode) : Option Model := do
  let (row, m) ← m.rowCount currIndex
  let found ← m.hasRow currIndex nnode.fileName (List.range row)
  if found then some m
  else
    let m ← m.insertRows row 1 currIndex
    let newIndex ← m.index row 0 currIndex
    m.setDataNode newIndex { nnode with onRow := short row }

def slotRemoteDirNodeRetrived (m : Model) (parentItem persisIndex : Nat)
    (newNodes : List NetDirNode) : Option Model := do
  let _ ← m.nodes parentItem
  let persis := m.persistent persisIndex
  let currIndex ← m.index persis.row persis.column (← m.parent persis)
  -- the debug line asks for the row count once more
  let (_, m) ← m.rowCount currIndex
  let (rows, m) ← m.rowCount currIndex
  let m ← (List.range rows).reverse.foldlM (fun m i => m.refreshRow currIndex newNodes i) m
  let m ← newNodes.foldlM (fun m nnode => m.appendRow currIndex nnode) m
  let nd ← m.nodes parentItem
  some (m.set parentItem { nd with prevFlag := nd.retrFlag, retrFlag := popNewest })

end Model

end NullFxp.RemoteDirModel
