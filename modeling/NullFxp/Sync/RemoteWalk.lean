import Mathlib.Algebra.Order.BigOperators.Group.List
import Mathlib.Algebra.Order.Ring.Nat
import NullFxp.RemoteDirModel.Node
import NullFxp.Sync.Walk

/-!
# The remote walk, call by call

`SyncWalker::getRemoteFiles` against a server that may stop the reading of a directory anywhere, and
with any error code of the library. The loop over `libssh2_sftp_readdir` is left at 0 and at -1.
-/

open scoped List
open NullFxp.RemoteDirModel (Attrib)
open NullFxp.Transportor (joinPath)

namespace NullFxp.Sync

/-! ## What the server answers -/

/-- An entry as `libssh2_sftp_readdir` gives it: the bytes of the name and the attributes. -/
structure DirEntry where
  fnbuf : List UInt8
  attr : Attrib

/-- The names "." and ".." -/
def DirEntry.IsDots (e : DirEntry) : Prop := e.fnbuf = [46] ∨ e.fnbuf = [46, 46]

instance (e : DirEntry) : Decidable e.IsDots := inferInstanceAs (Decidable (_ ∨ _))

/-- `S_ISDIR` -/
def sIsDir (permissions : Nat) : Bool := permissions &&& 0o170000 == 0o040000

/-- A remote tree and what the calls for its directories give, with `toUnicode` as the codec: first
the entries that are read, each once, and then 0 when they are all read, or an error. -/
structure Remote (toUnicode : List UInt8 → QString) where
  tree : Tree
  /-- `libssh2_sftp_opendir` succeeds -/
  opens : Loc → Bool
  reads : Loc → List DirEntry
  final : Loc → Int
  final_le : ∀ d, final d ≤ 0
  named : ∀ d, ∀ e ∈ reads d, e.fnbuf ≠ [] ∧ e.fnbuf.length < 5120 ∧ 0 ∉ e.fnbuf
  listed : ∀ d, ∀ e ∈ reads d, ¬ e.IsDots → ∃ node,
    tree.find (d ++ [toUnicode e.fnbuf]) = some node ∧ node.isDir = sIsDir e.attr.permissions
  once : ∀ d, (((reads d).filter fun e => ¬ e.IsDots).map fun e => toUnicode e.fnbuf).Nodup
  complete : ∀ d, final d = 0 → ∀ name node, tree.find (d ++ [name]) = some node →
    ∃ e ∈ reads d, ¬ e.IsDots ∧ toUnicode e.fnbuf = name

/-- What a call of `libssh2_sftp_readdir` returns and leaves behind. -/
structure Reading where
  rc : Int
  fnbuf : List UInt8
  attr : Attrib

namespace Remote

variable {toUnicode : List UInt8 → QString} (remote : Remote toUnicode)

def opendir (base path : QString) : Option Loc := do
  let d ← resolve base path
  if remote.tree.isDir d ∧ remote.opens d then some d else none

/-- The call number `k` for the directory. Where nothing is read the buffer stays empty, as `memset`
left it, and the attributes stay those of the last entry. -/
def readdir (d : Loc) (k : Nat) (ssh2Attr : Attrib) : Reading :=
  match (remote.reads d)[k]? with
  | some e => ⟨e.fnbuf.length, e.fnbuf, e.attr⟩
  | none => ⟨remote.final d, [], ssh2Attr⟩

end Remote

/-! ## The two loops -/

def flagRemoteFile : Nat := 0x00200000

/-- The variables of the walk, and what happened: the places of `fnbuf` that were written, and the
return values for the directory that is open and for those that are closed. -/
structure Walker where
  dirStack : List QString
  ssh2Attr : Attrib
  files : List (QString × Attrib)
  indexed : List Int
  codes : List Int
  closed : List (List Int)

def memcpy (_dst src : Attrib) : Attrib := src

/-- The new record, in the memory that `malloc` gave. -/
def newRecord (memory ssh2Attr : Attrib) : Attrib :=
  let attr := { memory with flags := memory.flags ||| flagRemoteFile }
  memcpy attr ssh2Attr

/-- The part of the loop body after the tests. A write outside of `fnbuf` changes nothing else
here. -/
def Walker.append (toUnicode : List UInt8 → QString) (memory : Nat → Attrib) (base currDir : QString)
    (w : Walker) (r : Reading) : Walker :=
  let currFile := toUnicode (r.fnbuf.takeWhile (· ≠ 0))
  let path := childPath currDir currFile
  { w with
    indexed := w.indexed ++ [r.rc]
    dirStack := if sIsDir r.attr.permissions then path :: w.dirStack else w.dirStack
    files := w.files ++ [(relative base path, newRecord (memory w.files.length) r.attr)] }

section

variable {toUnicode : List UInt8 → QString} (remote : Remote toUnicode) (memory : Nat → Attrib)
  (base : QString)

/-- `while (true)`, for at most `calls` calls -/
def readLoop (currDir : QString) (d : Loc) : Nat → Nat → Walker → Option Walker
  | 0, _, _ => none
  | calls + 1, k, w =>
    let r := remote.readdir d k w.ssh2Attr
    let w := { w with ssh2Attr := r.attr, codes := w.codes ++ [r.rc] }
    if r.rc = -1 then some w
    else if r.rc = 0 then some w
    else if (r.rc = 1 ∧ r.fnbuf[0]? = some 46) ∨
        (r.rc = 2 ∧ r.fnbuf[0]? = some 46 ∧ r.fnbuf[1]? = some 46) then
      readLoop currDir d calls (k + 1) w
    else readLoop currDir d calls (k + 1) (w.append toUnicode memory base currDir r)

/-- `while (!dirStack.empty())`, for at most `dirs` directories -/
def dirLoop (calls : Nat) : Nat → Walker → Option Walker
  | 0, w => if w.dirStack = [] then some w else none
  | dirs + 1, w =>
    match w.dirStack with
    | [] => some w
    | currDir :: dirStack =>
      match remote.opendir base currDir with
      | none => dirLoop calls dirs { w with dirStack := dirStack }
      | some d =>
        (readLoop remote memory base currDir d calls 0 { w with dirStack := dirStack, codes := [] }).bind
          fun w => dirLoop calls dirs { w with closed := w.closed ++ [w.codes] }

def Remote.getRemoteFiles (ssh2Attr : Attrib) (calls dirs : Nat) : Option Walker :=
  dirLoop remote memory base calls dirs ⟨[base], ssh2Attr, [], [], [], []⟩

/-! ## One directory -/

/-- The entries but "." and "..". -/
def entriesOf (es : List DirEntry) : List DirEntry := es.filter fun e => ¬ e.IsDots

/-- The reading of the directory ends with a code that the loop knows. -/
def Remote.Ends (d : Loc) : Prop := remote.final d = 0 ∨ remote.final d = -1

/-- What one entry does to the variables. -/
def Remote.enter (_ : Remote toUnicode) (currDir : QString) (w : Walker) (e : DirEntry) : Walker :=
  let w := { w with ssh2Attr := e.attr, codes := w.codes ++ [(e.fnbuf.length : Int)] }
  if e.IsDots then w
  else w.append toUnicode memory base currDir ⟨e.fnbuf.length, e.fnbuf, e.attr⟩

/-- What the loop has done when it read `es` and the code after them. -/
structure ReadDir (currDir : QString) (d : Loc) (es : List DirEntry) (w w' : Walker) : Prop where
  ends : remote.Ends d
  dirStack : w'.dirStack = (((entriesOf es).filter fun e => sIsDir e.attr.permissions).map fun e =>
    childPath currDir (toUnicode e.fnbuf)).reverse ++ w.dirStack
  files : w'.files = w.files ++ (entriesOf es).map fun e =>
    (relative base (childPath currDir (toUnicode e.fnbuf)), e.attr)
  indexed : w'.indexed = w.indexed ++ (entriesOf es).map fun e => (e.fnbuf.length : Int)
  codes : w'.codes = w.codes ++ (es.map fun e => (e.fnbuf.length : Int)) ++ [remote.final d]
  closed : w'.closed = w.closed

theorem isDots_iff (e : DirEntry) :
    (((e.fnbuf.length : Int) = 1 ∧ e.fnbuf[0]? = some 46) ∨
      ((e.fnbuf.length : Int) = 2 ∧ e.fnbuf[0]? = some 46 ∧ e.fnbuf[1]? = some 46)) ↔ e.IsDots := by
  obtain ⟨fnbuf, attr⟩ := e
  rcases fnbuf with - | ⟨a, - | ⟨b, - | ⟨c, l⟩⟩⟩
  · simp [DirEntry.IsDots]
  · simp [DirEntry.IsDots]
  · simp [DirEntry.IsDots]
  · simp [DirEntry.IsDots]
    omega

variable {remote memory base} {currDir : QString} {d : Loc}

theorem readLoop_entry {k : Nat} {e : DirEntry} (he : (remote.reads d)[k]? = some e) (calls : Nat)
    (w : Walker) : readLoop remote memory base currDir d (calls + 1) k w =
      readLoop remote memory base currDir d calls (k + 1) (remote.enter memory base currDir w e) := by
  have hpos : 0 < e.fnbuf.length :=
    List.length_pos_iff.mpr (remote.named d e (List.mem_of_getElem? he)).1
  have hread : remote.readdir d k w.ssh2Attr = ⟨e.fnbuf.length, e.fnbuf, e.attr⟩ := by
    rw [Remote.readdir, he]
  rw [readLoop, hread, Remote.enter]
  simp only [isDots_iff]
  rw [if_neg (by omega), if_neg (by omega)]
  split <;> rfl

theorem readLoop_end {k : Nat} (hk : (remote.reads d)[k]? = none) (calls : Nat) (w : Walker) :
    readLoop remote memory base currDir d (calls + 1) k w =
      if remote.final d = 0 ∨ remote.final d = -1 then
        some { w with codes := w.codes ++ [remote.final d] }
      else readLoop remote memory base currDir d calls (k + 1)
        (({ w with codes := w.codes ++ [remote.final d] } : Walker).append toUnicode memory base
          currDir ⟨remote.final d, [], w.ssh2Attr⟩) := by
  have hread : remote.readdir d k w.ssh2Attr = ⟨remote.final d, [], w.ssh2Attr⟩ := by
    rw [Remote.readdir, hk]
  have hle := remote.final_le d
  rw [readLoop, hread]
  by_cases hone : remote.final d = -1
  · simp [hone]
  · by_cases hzero : remote.final d = 0
    · simp [hzero]
    · simp only [hone, hzero, if_false, or_self]
      rw [if_neg (by omega)]

theorem ReadDir.cons {e : DirEntry} {es : List DirEntry} {w w' : Walker}
    (hnul : 0 ∉ e.fnbuf)
    (h : ReadDir remote base currDir d es (remote.enter memory base currDir w e) w') :
    ReadDir remote base currDir d (e :: es) w w' := by
  obtain ⟨hends, hstack, hfiles, hindexed, hcodes, hclosed⟩ := h
  have hname : e.fnbuf.takeWhile (· ≠ 0) = e.fnbuf := by
    rw [List.takeWhile_eq_self_iff]
    intro b hb
    simpa using ne_of_mem_of_not_mem hb hnul
  by_cases hdots : e.IsDots
  · have hentries : entriesOf (e :: es) = entriesOf es := by simp [entriesOf, hdots]
    rw [Remote.enter, if_pos hdots] at hstack hfiles hindexed hcodes hclosed
    refine ⟨hends, ?_, ?_, ?_, ?_, hclosed⟩
    · rw [hentries, hstack]
    · rw [hentries, hfiles]
    · rw [hentries, hindexed]
    · simp [hcodes]
  · have hentries : entriesOf (e :: es) = e :: entriesOf es := by simp [entriesOf, hdots]
    rw [Remote.enter, if_neg hdots, Walker.append] at hstack hfiles hindexed hcodes hclosed
    simp only [hname] at hstack hfiles
    refine ⟨hends, ?_, ?_, ?_, ?_, hclosed⟩
    · rw [hentries, hstack, List.filter_cons]
      split <;> simp
    · rw [hentries, hfiles]
      simp [newRecord, memcpy]
    · rw [hentries, hindexed]
      simp
    · simp [hcodes]

theorem readLoop_spec {calls k : Nat} {w w' : Walker}
    (h : readLoop remote memory base currDir d calls k w = some w') :
    ReadDir remote base currDir d ((remote.reads d).drop k) w w' := by
  induction calls generalizing k w with
  | zero => cases h
  | succ calls ih =>
    cases hk : (remote.reads d)[k]? with
    | some e =>
      rw [readLoop_entry hk] at h
      obtain ⟨hlt, rfl⟩ := List.getElem?_eq_some_iff.mp hk
      rw [List.drop_eq_getElem_cons hlt]
      exact (ih h).cons (remote.named d _ (List.getElem_mem hlt)).2.2
    | none =>
      have hlen := List.getElem?_eq_none_iff.mp hk
      rw [readLoop_end hk] at h
      split at h
      · next hends =>
        obtain rfl := Option.some.inj h
        rw [List.drop_of_length_le hlen]
        exact ⟨hends, rfl, by simp [entriesOf], by simp [entriesOf], by simp, rfl⟩
      -- every further call gives the same code
      · next hends => exact absurd (ih h).ends hends

theorem readLoop_returns (hends : remote.Ends d) {calls k : Nat}
    (hcalls : (remote.reads d).length < k + calls) (hk : k ≤ (remote.reads d).length) (w : Walker) :
    ∃ w', readLoop remote memory base currDir d calls k w = some w' := by
  induction calls generalizing k w with
  | zero => omega
  | succ calls ih =>
    cases hread : (remote.reads d)[k]? with
    | some e =>
      have hlt := (List.getElem?_eq_some_iff.mp hread).1
      rw [readLoop_entry hread]
      exact ih (by omega) (by omega) _
    | none =>
      have hends : remote.final d = 0 ∨ remote.final d = -1 := hends
      rw [readLoop_end hread, if_pos hends]
      exact ⟨_, rfl⟩

/-! ## The whole tree -/

variable (remote) in
/-- The entries that are read in a directory, none where it does not open. -/
def Remote.found (d : Loc) : List DirEntry := if remote.opens d then entriesOf (remote.reads d) else []

variable (remote) in
def Remote.subdirs (d : Loc) : List Loc :=
  ((remote.found d).filter fun e => sIsDir e.attr.permissions).map fun e => d ++ [toUnicode e.fnbuf]

theorem mem_found {e : DirEntry} (h : e ∈ remote.found d) : remote.opens d = true ∧
    e ∈ remote.reads d ∧ ¬ e.IsDots := by
  rw [Remote.found] at h
  split at h
  · next hopen =>
    obtain ⟨hmem, hdots⟩ := List.mem_filter.mp h
    exact ⟨hopen, hmem, by simpa using hdots⟩
  · cases h

theorem mem_subdirs_iff {c : Loc} : c ∈ remote.subdirs d ↔
    ∃ e ∈ remote.found d, sIsDir e.attr.permissions = true ∧ c = d ++ [toUnicode e.fnbuf] := by
  rw [Remote.subdirs, List.mem_map]
  constructor
  · rintro ⟨e, he, rfl⟩
    obtain ⟨hfound, hdir⟩ := List.mem_filter.mp he
    exact ⟨e, hfound, hdir, rfl⟩
  · rintro ⟨e, hfound, hdir, rfl⟩
    exact ⟨e, List.mem_filter.mpr ⟨hfound, hdir⟩, rfl⟩

variable (remote) in
/-- What the walk has done when it took the directories in this order. -/
structure Walked (order : List Loc) (w w' : Walker) : Prop where
  ends : ∀ d ∈ order, remote.opens d = true → remote.Ends d
  files : w'.files = w.files ++ order.flatMap fun d =>
    (remote.found d).map fun e => (rel (d ++ [toUnicode e.fnbuf]), e.attr)
  indexed : w'.indexed = w.indexed ++ order.flatMap fun d =>
    (remote.found d).map fun e => (e.fnbuf.length : Int)
  closed : w'.closed = w.closed ++ (order.filter fun d => remote.opens d).map fun d =>
    ((remote.reads d).map fun e => (e.fnbuf.length : Int)) ++ [remote.final d]

theorem opendir_joinPath (hd : remote.tree.isDir d = true) :
    remote.opendir base (joinPath base d) = if remote.opens d then some d else none := by
  rw [Remote.opendir, resolve_joinPath base (names_of_isDir hd)]
  simp [hd]

theorem isDir_of_mem_subdirs {c : Loc} (h : c ∈ remote.subdirs d) : remote.tree.isDir c = true := by
  obtain ⟨e, he, hdir, rfl⟩ := mem_subdirs_iff.mp h
  obtain ⟨-, hmem, hdots⟩ := mem_found he
  obtain ⟨node, hnode, hisDir⟩ := remote.listed d e hmem hdots
  rw [Tree.isDir_of_find hnode, hisDir]
  exact hdir

theorem subdirs_paths (hopen : remote.opens d = true) :
    (((entriesOf (remote.reads d)).filter fun e => sIsDir e.attr.permissions).map fun e =>
      childPath (joinPath base d) (toUnicode e.fnbuf)) = (remote.subdirs d).map (joinPath base) := by
  rw [Remote.subdirs, Remote.found, if_pos hopen, List.map_map]
  simp only [Function.comp_def, childPath_joinPath]

theorem ReadDir.pushed (hopen : remote.opens d = true) {stack : List Loc} {w w' : Walker}
    (hstack : w.dirStack = stack.map (joinPath base))
    (h : ReadDir remote base (joinPath base d) d (remote.reads d) w w') :
    w'.dirStack = ((remote.subdirs d).reverse ++ stack).map (joinPath base) := by
  rw [h.dirStack, subdirs_paths hopen, hstack, List.map_append, List.map_reverse]

theorem Walked.cons_open (hopen : remote.opens d = true) {order : List Loc} {w w₁ w' : Walker}
    {stack : List QString}
    (hread : ReadDir remote base (joinPath base d) d (remote.reads d)
      { w with dirStack := stack, codes := [] } w₁)
    (h : Walked remote order { w₁ with closed := w₁.closed ++ [w₁.codes] } w') :
    Walked remote (d :: order) w w' := by
  have hfound : remote.found d = entriesOf (remote.reads d) := if_pos hopen
  refine ⟨?_, ?_, ?_, ?_⟩
  · intro c hc hcopen
    rcases List.mem_cons.mp hc with rfl | hc
    · exact hread.ends
    · exact h.ends c hc hcopen
  · have hfile (e : DirEntry) : relative base (childPath (joinPath base d) (toUnicode e.fnbuf)) =
        rel (d ++ [toUnicode e.fnbuf]) := by
      rw [childPath_joinPath, relative_joinPath base (by simp)]
    rw [h.files, hread.files, List.flatMap_cons, hfound, List.append_assoc]
    simp only [hfile]
  · rw [h.indexed, hread.indexed, List.flatMap_cons, hfound, List.append_assoc]
  · rw [h.closed, List.filter_cons_of_pos hopen, List.map_cons]
    simp [hread.closed, hread.codes]

theorem Walked.cons_shut (hshut : remote.opens d = false) {order : List Loc} {w w' : Walker}
    {stack : List QString} (h : Walked remote order { w with dirStack := stack } w') :
    Walked remote (d :: order) w w' := by
  have hfound : remote.found d = [] := if_neg (by simp [hshut])
  refine ⟨?_, ?_, ?_, ?_⟩
  · intro c hc hcopen
    rcases List.mem_cons.mp hc with rfl | hc
    · simp [hshut] at hcopen
    · exact h.ends c hc hcopen
  · rw [h.files, List.flatMap_cons, hfound, List.map_nil, List.nil_append]
  · rw [h.indexed, List.flatMap_cons, hfound, List.map_nil, List.nil_append]
  · rw [h.closed, List.filter_cons_of_neg (by simp [hshut])]

theorem walked_nil (w : Walker) : Walked remote [] w w := ⟨by simp, by simp, by simp, by simp⟩

theorem subdirs_of_shut (hshut : remote.opens d = false) : remote.subdirs d = [] := by
  simp [Remote.subdirs, Remote.found, hshut]

theorem isDir_pushed {stack : List Loc} (hdirs : ∀ d ∈ stack, remote.tree.isDir d = true) :
    ∀ c ∈ (remote.subdirs d).reverse ++ stack, remote.tree.isDir c = true := by
  intro c hc
  rcases List.mem_append.mp hc with hc | hc
  · exact isDir_of_mem_subdirs (List.mem_reverse.mp hc)
  · exact hdirs c hc

theorem dirLoop_spec {calls dirs : Nat} {w w' : Walker} {stack : List Loc}
    (hstack : w.dirStack = stack.map (joinPath base))
    (hdirs : ∀ d ∈ stack, remote.tree.isDir d = true)
    (h : dirLoop remote memory base calls dirs w = some w') :
    ∃ order, StackWalk.walk remote.subdirs dirs stack = some order ∧ Walked remote order w w' := by
  induction dirs generalizing w stack with
  | zero =>
    rw [dirLoop] at h
    split at h
    · next hnil =>
      obtain rfl := Option.some.inj h
      obtain rfl : stack = [] := by simpa [hnil] using hstack.symm
      exact ⟨[], rfl, walked_nil w⟩
    · cases h
  | succ dirs ih =>
    rw [dirLoop] at h
    cases stack with
    | nil =>
      rw [List.map_nil] at hstack
      simp only [hstack] at h
      obtain rfl := Option.some.inj h
      exact ⟨[], rfl, walked_nil w⟩
    | cons d stack =>
      rw [List.map_cons] at hstack
      have hrest := fun c hc => hdirs c (List.mem_cons_of_mem d hc)
      simp only [hstack, opendir_joinPath (hdirs d List.mem_cons_self)] at h
      cases hopen : remote.opens d with
      | true =>
        simp only [hopen, if_true, Option.bind_eq_some_iff] at h
        obtain ⟨w₁, hread, h⟩ := h
        have hread := readLoop_spec hread
        rw [List.drop_zero] at hread
        have hpushed := hread.pushed hopen rfl
        obtain ⟨order, horder, hwalked⟩ := ih (w := { w₁ with closed := w₁.closed ++ [w₁.codes] })
          hpushed (isDir_pushed hrest) h
        exact ⟨d :: order, by rw [StackWalk.walk, horder]; rfl, hwalked.cons_open hopen hread⟩
      | false =>
        simp only [hopen] at h
        obtain ⟨order, horder, hwalked⟩ := ih rfl hrest h
        refine ⟨d :: order, ?_, hwalked.cons_shut hopen⟩
        rw [StackWalk.walk, subdirs_of_shut hopen, List.reverse_nil, List.nil_append, horder]
        rfl

theorem dirLoop_returns {calls dirs : Nat} {w : Walker} {stack order : List Loc}
    (hstack : w.dirStack = stack.map (joinPath base))
    (hdirs : ∀ d ∈ stack, remote.tree.isDir d = true)
    (horder : StackWalk.walk remote.subdirs dirs stack = some order)
    (hends : ∀ d ∈ order, remote.opens d = true → remote.Ends d)
    (hcalls : ∀ d ∈ order, (remote.reads d).length < calls) :
    ∃ w', dirLoop remote memory base calls dirs w = some w' := by
  induction dirs generalizing w stack order with
  | zero =>
    cases stack with
    | nil =>
      rw [List.map_nil] at hstack
      exact ⟨w, by rw [dirLoop, if_pos hstack]⟩
    | cons d stack => cases horder
  | succ dirs ih =>
    rw [dirLoop]
    cases stack with
    | nil =>
      rw [List.map_nil] at hstack
      simp only [hstack]
      exact ⟨w, rfl⟩
    | cons d stack =>
      rw [List.map_cons] at hstack
      have hrest := fun c hc => hdirs c (List.mem_cons_of_mem d hc)
      obtain ⟨order, hwalk, rfl⟩ := Option.map_eq_some_iff.mp horder
      have hends' := fun c hc => hends c (List.mem_cons_of_mem d hc)
      have hcalls' := fun c hc => hcalls c (List.mem_cons_of_mem d hc)
      simp only [hstack, opendir_joinPath (hdirs d List.mem_cons_self)]
      cases hopen : remote.opens d with
      | true =>
        have hlen := hcalls d List.mem_cons_self
        have hreturns : ∃ w₁, readLoop remote memory base (joinPath base d) d calls 0
            { w with dirStack := stack.map (joinPath base), codes := [] } = some w₁ :=
          readLoop_returns (hends d List.mem_cons_self hopen) (by omega) (by omega) _
        obtain ⟨w₁, hw₁⟩ := hreturns
        have hread := readLoop_spec hw₁
        rw [List.drop_zero] at hread
        have hpushed := hread.pushed hopen rfl
        obtain ⟨w', hw'⟩ := ih (w := { w₁ with closed := w₁.closed ++ [w₁.codes] })
          hpushed (isDir_pushed hrest) hwalk hends' hcalls'
        exact ⟨w', by simp only [if_true, hw₁, Option.bind_some, hw']⟩
      | false =>
        rw [subdirs_of_shut hopen, List.reverse_nil, List.nil_append] at hwalk
        exact ih rfl hrest hwalk hends' hcalls'

/-! ## Which directories are reached -/

variable (remote) in
def Remote.Reached (d : Loc) : Prop := StackWalk.Reach remote.subdirs [] d

theorem prefix_of_reach {c l : Loc} (h : StackWalk.Reach remote.subdirs c l) : c <+: l := by
  induction h with
  | refl => exact List.prefix_rfl
  | tail _ hstep ih =>
    obtain ⟨e, -, -, rfl⟩ := mem_subdirs_iff.mp hstep
    exact ih.trans (List.prefix_append ..)

theorem isDir_of_reach {c l : Loc} (hc : remote.tree.isDir c = true)
    (h : StackWalk.Reach remote.subdirs c l) : remote.tree.isDir l = true := by
  induction h with
  | refl => exact hc
  | tail _ hstep _ => exact isDir_of_mem_subdirs hstep

variable (remote) in
theorem nodup_found (d : Loc) : ((remote.found d).map fun e => toUnicode e.fnbuf).Nodup := by
  rw [Remote.found]
  split
  · exact remote.once d
  · exact List.nodup_nil

theorem remote_nodup_subdirs (d : Loc) : (remote.subdirs d).Nodup := by
  have hnames : (((remote.found d).filter fun e => sIsDir e.attr.permissions).map fun e =>
      toUnicode e.fnbuf).Nodup :=
    (nodup_found remote d).sublist (List.filter_sublist.map _)
  have hsub : remote.subdirs d = (((remote.found d).filter fun e => sIsDir e.attr.permissions).map
      fun e => toUnicode e.fnbuf).map fun name => d ++ [name] := by
    rw [Remote.subdirs, List.map_map]
    rfl
  rw [hsub]
  exact hnames.map fun a b hab => by simpa using hab

open Classical in
theorem lists_subdirs (remote : Remote toUnicode) :
    StackWalk.Lists remote.subdirs {d | remote.tree.isDir d = true} fun d =>
      (dirsBelow (fun _ => true) remote.tree []).filter fun l =>
        StackWalk.Reach remote.subdirs d l := by
  refine StackWalk.lists_reach (nodup_dirsBelow []) ?_ (fun d _ => remote_nodup_subdirs d) ?_ ?_
  · intro d hd l hl
    exact mem_dirsBelow.mpr ⟨isDir_of_reach hd hl, l, rfl, by simp⟩
  · intro d _ c hc hloop
    obtain ⟨e, -, -, rfl⟩ := mem_subdirs_iff.mp hc
    have hlen := (prefix_of_reach hloop).length_le
    rw [List.length_append, List.length_singleton] at hlen
    omega
  · intro d _ c hc c' hc' l hl hl'
    obtain ⟨e, -, -, rfl⟩ := mem_subdirs_iff.mp hc
    obtain ⟨e', -, -, rfl⟩ := mem_subdirs_iff.mp hc'
    have hpre := prefix_of_reach hl
    have hpre' := prefix_of_reach hl'
    exact (List.prefix_of_prefix_length_le hpre hpre' (by simp)).eq_of_length (by simp)

theorem walk_returns (remote : Remote toUnicode) : ∃ dirs order,
    StackWalk.walk remote.subdirs dirs [[]] = some order ∧ order.Nodup := by
  have hroot : ∀ d ∈ [([] : Loc)], d ∈ {d | remote.tree.isDir d = true} := by
    intro d hd
    rw [List.mem_singleton.mp hd]
    rfl
  obtain ⟨order, horder, hperm⟩ := (lists_subdirs remote).walk_perm
    (fun _ _ c hc => isDir_of_mem_subdirs hc) hroot le_rfl
  rw [List.flatMap_singleton] at hperm
  exact ⟨_, order, horder, hperm.nodup_iff.mpr ((nodup_dirsBelow []).filter _)⟩

/-! ## What the walk is for -/

variable (remote) in
/-- The entry is read: its directory is reached and opened. -/
def Remote.Read (d : Loc) (e : DirEntry) : Prop := remote.Reached d ∧ e ∈ remote.found d

/-- The directory is left at the first code that is not a length. -/
def LeftAtEnd (codes : List Int) : Prop :=
  ∃ lengths last, codes = lengths ++ [last] ∧ last ≤ 0 ∧ ∀ rc ∈ lengths, 0 < rc

variable (remote) in
structure ListsOnce (w : Walker) : Prop where
  /-- `fnbuf` has 5120 places. -/
  indexed : ∀ i ∈ w.indexed, 0 ≤ i ∧ i < 5120
  left : ∀ codes ∈ w.closed, LeftAtEnd codes
  once : (w.files.map Prod.fst).Nodup
  paths : ∀ path, path ∈ w.files.map Prod.fst ↔
    ∃ d e, remote.Read d e ∧ path = rel (d ++ [toUnicode e.fnbuf])
  flag : ∀ f ∈ w.files, f.2.flags &&& flagRemoteFile = flagRemoteFile

theorem isLoc_of_mem_found {e : DirEntry} (h : e ∈ remote.found d) :
    IsLoc (d ++ [toUnicode e.fnbuf]) := by
  obtain ⟨-, hmem, hdots⟩ := mem_found h
  obtain ⟨node, hnode, -⟩ := remote.listed d e hmem hdots
  exact Tree.find_named hnode

theorem mem_walked_files {order : List Loc} {w w' : Walker} (hw : w.files = [])
    (h : Walked remote order w w') (path : QString) (attr : Attrib) : (path, attr) ∈ w'.files ↔
      ∃ d ∈ order, ∃ e ∈ remote.found d, path = rel (d ++ [toUnicode e.fnbuf]) ∧ attr = e.attr := by
  rw [h.files, hw, List.nil_append, List.mem_flatMap]
  constructor
  · rintro ⟨d, hd, hmem⟩
    obtain ⟨e, he, hpair⟩ := List.mem_map.mp hmem
    obtain ⟨rfl, rfl⟩ := Prod.mk.inj hpair
    exact ⟨d, hd, e, he, rfl, rfl⟩
  · rintro ⟨d, hd, e, he, rfl, rfl⟩
    exact ⟨d, hd, List.mem_map_of_mem he⟩

section Walked

variable {order : List Loc} {w w' : Walker} (hw : w.files = [] ∧ w.indexed = [] ∧ w.closed = [])
  (h : Walked remote order w w')

include hw h

theorem Walked.indexed_lt (i : Int) (hi : i ∈ w'.indexed) : 0 ≤ i ∧ i < 5120 := by
  rw [h.indexed, hw.2.1, List.nil_append, List.mem_flatMap] at hi
  obtain ⟨d, -, hmem⟩ := hi
  obtain ⟨e, he, rfl⟩ := List.mem_map.mp hmem
  have hlen := (remote.named d e (mem_found he).2.1).2.1
  omega

theorem Walked.leftAtEnd (codes : List Int) (hcodes : codes ∈ w'.closed) : LeftAtEnd codes := by
  rw [h.closed, hw.2.2, List.nil_append] at hcodes
  obtain ⟨d, -, rfl⟩ := List.mem_map.mp hcodes
  refine ⟨_, _, rfl, remote.final_le d, ?_⟩
  intro rc hrc
  obtain ⟨e, he, rfl⟩ := List.mem_map.mp hrc
  have hpos := List.length_pos_iff.mpr (remote.named d e he).1
  omega

theorem Walked.paths_nodup (horder : order.Nodup) : (w'.files.map Prod.fst).Nodup := by
  have hfiles : w'.files.map Prod.fst = order.flatMap fun d =>
      (remote.found d).map fun e => rel (d ++ [toUnicode e.fnbuf]) := by
    rw [h.files, hw.1, List.nil_append, List.map_flatMap]
    simp only [List.map_map, Function.comp_def]
  -- the path of an entry says in which directory it is
  have hdir : ∀ d d' : Loc, ∀ e ∈ remote.found d, ∀ e' ∈ remote.found d',
      rel (d ++ [toUnicode e.fnbuf]) = rel (d' ++ [toUnicode e'.fnbuf]) →
      d = d' ∧ toUnicode e.fnbuf = toUnicode e'.fnbuf := by
    intro d d' e he e' he' heq
    exact List.append_singleton_inj.mp
      (rel_inj (isLoc_of_mem_found he) (isLoc_of_mem_found he') heq)
  rw [hfiles, List.nodup_flatMap]
  constructor
  · intro d _
    have hnames := nodup_found remote d
    rw [List.nodup_map_iff_inj_on hnames.of_map] at hnames
    refine List.Nodup.map_on ?_ (nodup_found remote d).of_map
    intro e he e' he' heq
    exact hnames e he e' he' (hdir d d e he e' he' heq).2
  · refine horder.imp ?_
    intro d d' hne path hpath hpath'
    obtain ⟨e, he, rfl⟩ := List.mem_map.mp hpath
    obtain ⟨e', he', heq⟩ := List.mem_map.mp hpath'
    exact hne (hdir d' d e' he' e he heq).1.symm

end Walked

theorem isDir_root : ∀ d ∈ [([] : Loc)], remote.tree.isDir d = true := by
  intro d hd
  rw [List.mem_singleton.mp hd]
  rfl

theorem mem_order {dirs : Nat} {order : List Loc}
    (h : StackWalk.walk remote.subdirs dirs [[]] = some order) (d : Loc) :
    d ∈ order ↔ remote.Reached d := by
  rw [StackWalk.mem_walk h]
  simp [Remote.Reached]

section Returned

variable {ssh2Attr : Attrib} {calls dirs : Nat} {w : Walker}
  (h : remote.getRemoteFiles memory base ssh2Attr calls dirs = some w)

include h

theorem ends_of_returned (d : Loc) (hd : remote.Reached d) (hopen : remote.opens d = true) :
    remote.Ends d := by
  obtain ⟨order, horder, hwalked⟩ := dirLoop_spec rfl isDir_root h
  exact hwalked.ends d ((mem_order horder d).mpr hd) hopen

theorem mem_returned_files (path : QString) (attr : Attrib) : (path, attr) ∈ w.files ↔
    ∃ d e, remote.Read d e ∧ path = rel (d ++ [toUnicode e.fnbuf]) ∧ attr = e.attr := by
  obtain ⟨order, horder, hwalked⟩ := dirLoop_spec rfl isDir_root h
  rw [mem_walked_files rfl hwalked]
  constructor
  · rintro ⟨d, hd, e, he, hpath⟩
    exact ⟨d, e, ⟨(mem_order horder d).mp hd, he⟩, hpath⟩
  · rintro ⟨d, e, ⟨hd, he⟩, hpath⟩
    exact ⟨d, (mem_order horder d).mpr hd, e, he, hpath⟩

theorem returned_nodup : (w.files.map Prod.fst).Nodup := by
  obtain ⟨order, horder, hwalked⟩ := dirLoop_spec rfl isDir_root h
  obtain ⟨dirs', order', horder', hnodup⟩ := walk_returns remote
  rw [StackWalk.walk_unique horder' horder] at hnodup
  exact hwalked.paths_nodup ⟨rfl, rfl, rfl⟩ hnodup

theorem mem_returned_paths (path : QString) : path ∈ w.files.map Prod.fst ↔
    ∃ d e, remote.Read d e ∧ path = rel (d ++ [toUnicode e.fnbuf]) := by
  rw [List.mem_map]
  constructor
  · rintro ⟨⟨path, attr⟩, hf, rfl⟩
    obtain ⟨d, e, he, hpath, -⟩ := (mem_returned_files h path attr).mp hf
    exact ⟨d, e, he, hpath⟩
  · rintro ⟨d, e, he, rfl⟩
    exact ⟨_, (mem_returned_files h _ _).mpr ⟨d, e, he, rfl, rfl⟩, rfl⟩

theorem flag_of_listsOnce (hlists : ListsOnce remote w) (d : Loc) (e : DirEntry)
    (he : remote.Read d e) : e.attr.flags &&& flagRemoteFile = flagRemoteFile :=
  hlists.flag _ ((mem_returned_files h _ _).mpr ⟨d, e, he, rfl, rfl⟩)

end Returned

/-- **When the remote walk does what it is for**: it ends, leaves every directory at its end, stays
inside of `fnbuf` and lists what it read once, with the flag. -/
theorem remote_walk_iff (remote : Remote toUnicode) (memory : Nat → Attrib) (base : QString)
    (ssh2Attr : Attrib) :
    (∃ calls dirs w, remote.getRemoteFiles memory base ssh2Attr calls dirs = some w ∧
      ListsOnce remote w) ↔
    (∀ d, remote.Reached d → remote.opens d = true → remote.Ends d) ∧
    ∀ d e, remote.Read d e → e.attr.flags &&& flagRemoteFile = flagRemoteFile := by
  constructor
  · rintro ⟨calls, dirs, w, hw, hlists⟩
    exact ⟨ends_of_returned hw, flag_of_listsOnce hw hlists⟩
  · rintro ⟨hends, hflag⟩
    obtain ⟨dirs, order, horder, -⟩ := walk_returns remote
    have hcalls : ∀ d ∈ order, (remote.reads d).length <
        (order.map fun d => (remote.reads d).length).sum + 1 := by
      intro d hd
      have hlen : (remote.reads d).length ∈ order.map fun d => (remote.reads d).length :=
        List.mem_map_of_mem hd
      exact Nat.lt_succ_of_le (List.single_le_sum (fun _ _ => Nat.zero_le _) _ hlen)
    have hreturns : ∃ w, remote.getRemoteFiles memory base ssh2Attr _ dirs = some w :=
      dirLoop_returns rfl isDir_root horder (fun d hd => hends d ((mem_order horder d).mp hd)) hcalls
    obtain ⟨w, hw⟩ := hreturns
    obtain ⟨order', horder', hwalked⟩ := dirLoop_spec rfl isDir_root hw
    refine ⟨_, dirs, w, hw, hwalked.indexed_lt ⟨rfl, rfl, rfl⟩, hwalked.leftAtEnd ⟨rfl, rfl, rfl⟩,
      returned_nodup hw, mem_returned_paths hw, ?_⟩
    rintro ⟨path, attr⟩ hf
    obtain ⟨d, e, he, -, rfl⟩ := (mem_returned_files hw path attr).mp hf
    exact hflag d e he

/-! ## A server without errors -/

section NoError

variable (hopen : ∀ d, remote.opens d = true) (hfinal : ∀ d, remote.final d = 0)

include hopen hfinal

theorem read_of_find (hd : remote.Reached d) {name : QString} {node : Node}
    (hnode : remote.tree.find (d ++ [name]) = some node) :
    ∃ e, remote.Read d e ∧ toUnicode e.fnbuf = name ∧ node.isDir = sIsDir e.attr.permissions := by
  obtain ⟨e, he, hdots, rfl⟩ := remote.complete d (hfinal d) name node hnode
  obtain ⟨node', hnode', hdir⟩ := remote.listed d e he hdots
  obtain rfl := Option.some.inj (hnode.symm.trans hnode')
  have hfound : e ∈ remote.found d := by
    rw [Remote.found, if_pos (hopen d)]
    exact List.mem_filter.mpr ⟨he, by simpa using hdots⟩
  exact ⟨e, ⟨hd, hfound⟩, rfl, hdir⟩

theorem reached_of_isDir {l : Loc} (h : remote.tree.isDir l = true) : remote.Reached l := by
  induction l using List.reverseRecOn with
  | nil => exact StackWalk.reach_refl []
  | append_singleton l name ih =>
    have hreached := ih (Tree.isDir_of_append h)
    rcases Tree.isDir_cases h with hnil | ⟨size, mtime, hnode⟩
    · simp at hnil
    · obtain ⟨e, ⟨-, hfound⟩, rfl, hdir⟩ := read_of_find hopen hfinal hreached hnode
      exact hreached.tail (mem_subdirs_iff.mpr ⟨e, hfound, hdir.symm, rfl⟩)

theorem getRemoteFiles_refines (env : Env) {ssh2Attr : Attrib} {calls dirs : Nat} {w : Walker}
    (h : remote.getRemoteFiles memory env.remoteBasePath ssh2Attr calls dirs = some w) :
    ∃ files, getRemoteFiles env remote.tree = some files ∧
      w.files.map Prod.fst ~ files.map Prod.fst := by
  obtain ⟨files, hfiles, hperm⟩ := getRemoteFiles_perm env remote.tree
  refine ⟨files, hfiles, List.Perm.trans ?_ (hperm.map Prod.fst).symm⟩
  rw [List.map_map, List.perm_ext_iff_of_nodup (returned_nodup h)]
  · intro path
    rw [mem_returned_paths h, List.mem_map]
    constructor
    · rintro ⟨d, e, ⟨-, hfound⟩, rfl⟩
      obtain ⟨-, he, hdots⟩ := mem_found hfound
      obtain ⟨node, hnode, -⟩ := remote.listed d e he hdots
      exact ⟨_, Tree.mem_entries_iff.mpr hnode, rfl⟩
    · rintro ⟨⟨l, node⟩, hl, rfl⟩
      have hnode := Tree.mem_entries_iff.mp hl
      have hsplit := List.dropLast_concat_getLast (Tree.find_named hnode).1
      have hreached := reached_of_isDir hopen hfinal (Tree.isDir_parent hnode)
      rw [← hsplit] at hnode
      obtain ⟨e, he, hname, -⟩ := read_of_find hopen hfinal hreached hnode
      refine ⟨l.dropLast, e, he, ?_⟩
      rw [hname, hsplit]
      rfl
  · have hnodup := remote.tree.nodup
    have hmap : (remote.tree.entries.map (Prod.fst ∘ fun e => (rel e.1, env.remoteAttr e.2))) =
        (remote.tree.entries.map Prod.fst).map rel := by
      rw [List.map_map]
      rfl
    rw [hmap]
    refine hnodup.map_on ?_
    intro l hl l' hl' heq
    obtain ⟨e, he, rfl⟩ := List.mem_map.mp hl
    obtain ⟨e', he', rfl⟩ := List.mem_map.mp hl'
    exact rel_inj (remote.tree.named e he) (remote.tree.named e' he') heq

end NoError

end

/-! ## A small directory -/

def singleFileTree : Tree where
  entries := [([['a']], .file [] 0)]
  nodup := by simp
  named := by decide
  closed := by simp

/-- The file `a` as a server sends it: the four bits say which attributes are there. -/
def fileA : DirEntry := ⟨[97], { Attrib.zero with flags := 0xF, permissions := 0o100644 }⟩

theorem singleFileTree_find {d : Loc} {name : QString} {node : Node}
    (h : singleFileTree.find (d ++ [name]) = some node) : d = [] ∧ name = ['a'] := by
  have hmem : (d ++ [name], node) = ([['a']], Node.file [] 0) :=
    List.mem_singleton.mp (Tree.mem_entries_iff.mpr h)
  have hloc : d ++ [name] = [] ++ [['a']] := (Prod.mk.inj hmem).1
  exact List.append_singleton_inj.mp hloc

/-- The base directory has one file `a`, and its reading ends with `final`. -/
def singleFile (final : Int) (h : final ≤ 0) : Remote Text.fromLatin1 where
  tree := singleFileTree
  opens := fun _ => true
  reads := fun d => if d = [] then [fileA] else []
  final := fun d => if d = [] then final else 0
  final_le := by
    intro d
    split <;> omega
  named := by
    intro d e he
    split at he
    · rw [List.mem_singleton.mp he]
      decide
    · cases he
  listed := by
    intro d e he _
    split at he
    · next hd =>
      rw [hd, List.mem_singleton.mp he]
      exact ⟨.file [] 0, by decide, by decide⟩
    · cases he
  once := by
    intro d
    split
    · exact List.nodup_singleton _
    · exact List.nodup_nil
  complete := by
    intro d _ name node hnode
    obtain ⟨rfl, rfl⟩ := singleFileTree_find hnode
    exact ⟨fileA, List.mem_singleton_self _, by decide, by decide⟩

theorem singleFile_read (final : Int) (h : final ≤ 0) : (singleFile final h).Read [] fileA :=
  ⟨StackWalk.reach_refl [], List.mem_singleton_self _⟩

theorem singleFile_not_listed :
    (¬ ∃ calls dirs w, (singleFile 0 (by decide)).getRemoteFiles (fun _ => .zero) "/r".toList .zero calls
      dirs = some w ∧ ListsOnce (singleFile 0 (by decide)) w) ∧
    ¬ ∃ calls dirs w, (singleFile (-37) (by decide)).getRemoteFiles (fun _ => .zero) "/r".toList .zero
      calls dirs = some w := by
  -- The file is listed without the flag. After an error other than -1 the walk does not end.
  constructor
  · rintro ⟨calls, dirs, w, hw, hlists⟩
    have hflag := flag_of_listsOnce hw hlists [] fileA (singleFile_read 0 (by decide))
    exact absurd hflag (by decide)
  · rintro ⟨calls, dirs, w, hw⟩
    have hends : (-37 : Int) = 0 ∨ (-37 : Int) = -1 :=
      ends_of_returned hw [] (StackWalk.reach_refl []) rfl
    exact absurd hends (by decide)

end NullFxp.Sync
