import NullFxp.Sync.Compare
import NullFxp.Sync.Plan

/-!
# The transfer of one file

`SyncTransferThread::do_download` and `SyncTransferThread::do_upload`, with what they do to the two
trees and the signals that they emit. What the calls return, where the trees leave it open, is an
`Io`.
-/

open NullFxp.Transportor (components_joinPath)

namespace NullFxp.Sync

/-- The two systems. -/
structure Host extends Env where
  /-- The server opens a directory for reading; a read of it fails. -/
  opensDirs : Bool
  /-- the time of a write -/
  now : Nat
  /-- size and time of a directory after an entry was made in it -/
  grown : Nat × Nat → Nat × Nat
  /-- `100.0 * ((double)tran_len / (double)file_size)`, cut to an `int` -/
  percent : Int → Int → Int

/-- What the calls return during one transfer. Lengths are cut to what is there. -/
structure Io where
  /-- The open of the remote file does not fail, if there can be one. -/
  remoteOpen : Bool
  localOpen : Bool
  reads : Nat → Int
  writes : Nat → Int
  /-- `utimes` and `libssh2_sftp_setstat` -/
  touch : Bool

structure World where
  remote : Tree
  here : Tree

inductive Signal where
  | syncFileStarted (fileName : QString) (fileSize : Nat)
  | transferPercentChanged (fileName : QString) (percent : Int) (transferLength lastBlockLength : Nat)
  | syncFileStopped (fileName : QString) (status : Int)
  deriving DecidableEq

def int32 (n : Int) : Int := n.bmod 0x100000000

def quint64 (n : Int) : Nat := (n % 0x10000000000000000).toNat

/-! ## The loop -/

structure Copy where
  out : List UInt8
  /-- what the writes returned -/
  wlens : List Int
  /-- `Q_ASSERT(wlen == rlen)` has failed -/
  asserted : Bool

/-- The bytes of the round `k`. -/
def part (buf : Nat) (io : Io) (k : Nat) (rest : List UInt8) : List UInt8 :=
  rest.take (min (io.reads k).toNat buf)

def wlen (io : Io) (k : Nat) (bytes : List UInt8) : Int := min (io.writes k) bytes.length

/-- Only the upload tests what a write returned. -/
def copyLoop (tested : Bool) (buf : Nat) (io : Io) : Nat → Nat → List UInt8 → Copy
  | 0, _, _ => ⟨[], [], false⟩
  | fuel + 1, k, rest =>
    let bytes := part buf io k rest
    if bytes = [] then ⟨[], [], false⟩
    else if tested ∧ wlen io k bytes ≠ bytes.length then ⟨bytes.take (wlen io k bytes).toNat, [], true⟩
    else
      let copy := copyLoop tested buf io fuel (k + 1) (rest.drop bytes.length)
      ⟨bytes.take (wlen io k bytes).toNat ++ copy.out, wlen io k bytes :: copy.wlens, copy.asserted⟩

/-- Every part has a byte at least. -/
def copyAll (tested : Bool) (buf : Nat) (io : Io) (content : List UInt8) : Copy :=
  copyLoop tested buf io (content.length + 1) 0 content

def progress (host : Host) (currFile : QString) (fileSize : Int) : Int → List Int → List Signal
  | _, [] => []
  | tranLen, wlen :: wlens =>
    let tranLen := int32 (tranLen + wlen)
    .transferPercentChanged currFile (if fileSize = 0 then 100 else host.percent tranLen fileSize)
      (quint64 tranLen) (quint64 wlen) :: progress host currFile fileSize tranLen wlens

/-- Every read up to the end returns something, and every write takes it all. -/
inductive Delivers (buf : Nat) (io : Io) : Nat → List UInt8 → Prop where
  | done (k : Nat) : Delivers buf io k []
  | round {k : Nat} {rest : List UInt8} (hread : part buf io k rest ≠ [])
    (hwrite : ((part buf io k rest).length : Int) ≤ io.writes k)
    (h : Delivers buf io (k + 1) (rest.drop (part buf io k rest).length)) : Delivers buf io k rest

/-- Every read up to the end, or up to a write that falls short, returns something. -/
inductive ReadsOn (buf : Nat) (io : Io) : Nat → List UInt8 → Prop where
  | done (k : Nat) : ReadsOn buf io k []
  | short {k : Nat} {rest : List UInt8} (hread : part buf io k rest ≠ [])
    (hwrite : io.writes k < (part buf io k rest).length) : ReadsOn buf io k rest
  | round {k : Nat} {rest : List UInt8} (hread : part buf io k rest ≠ [])
    (hwrite : ((part buf io k rest).length : Int) ≤ io.writes k)
    (h : ReadsOn buf io (k + 1) (rest.drop (part buf io k rest).length)) : ReadsOn buf io k rest

section Loop

variable {tested : Bool} {buf : Nat} {io : Io} {fuel k : Nat} {rest : List UInt8}

theorem part_append (buf : Nat) (io : Io) (k : Nat) (rest : List UInt8) :
    part buf io k rest ++ rest.drop (part buf io k rest).length = rest :=
  List.prefix_iff_eq_append.mp (List.take_prefix _ _)

theorem part_nil (buf : Nat) (io : Io) (k : Nat) : part buf io k [] = [] := List.take_nil

theorem wlen_eq_iff (io : Io) (k : Nat) (bytes : List UInt8) :
    wlen io k bytes = bytes.length ↔ (bytes.length : Int) ≤ io.writes k := by
  unfold wlen
  omega

theorem take_wlen {bytes : List UInt8} (h : (bytes.length : Int) ≤ io.writes k) :
    bytes.take (wlen io k bytes).toNat = bytes := by
  rw [(wlen_eq_iff io k bytes).mpr h, Int.toNat_natCast, List.take_length]

theorem length_take_wlen {bytes : List UInt8} (h : io.writes k < bytes.length) :
    (bytes.take (wlen io k bytes).toNat).length < bytes.length ∨ bytes = [] := by
  cases bytes with
  | nil => exact .inr rfl
  | cons b bytes =>
    left
    rw [List.length_take]
    simp only [wlen, List.length_cons] at h ⊢
    omega

theorem length_rest_lt (h : part buf io k rest ≠ []) (hfuel : rest.length < fuel + 1) :
    (rest.drop (part buf io k rest).length).length < fuel := by
  have hpart := List.length_pos_iff.mpr h
  have hsplit := congrArg List.length (part_append buf io k rest)
  rw [List.length_append] at hsplit
  omega

theorem copyLoop_nil (tested : Bool) (buf : Nat) (io : Io) (fuel k : Nat) :
    copyLoop tested buf io fuel k [] = ⟨[], [], false⟩ := by
  cases fuel with
  | zero => rfl
  | succ fuel => rw [copyLoop, part_nil, if_pos rfl]

theorem copyLoop_length_le (tested : Bool) (buf : Nat) (io : Io) (fuel k : Nat) (rest : List UInt8) :
    (copyLoop tested buf io fuel k rest).out.length ≤ rest.length := by
  induction fuel generalizing k rest with
  | zero => exact Nat.zero_le _
  | succ fuel ih =>
    have hsplit := congrArg List.length (part_append buf io k rest)
    have hrest := ih (k + 1) (rest.drop (part buf io k rest).length)
    have htaken := List.length_take_le' (wlen io k (part buf io k rest)).toNat (part buf io k rest)
    rw [List.length_append] at hsplit
    rw [copyLoop]
    dsimp only
    split
    · exact Nat.zero_le _
    · split
      · show (List.take _ (part buf io k rest)).length ≤ rest.length
        omega
      · show (List.take _ (part buf io k rest) ++ _).length ≤ rest.length
        rw [List.length_append]
        omega

theorem copyLoop_round (h : part buf io k rest ≠ [])
    (hwrite : ((part buf io k rest).length : Int) ≤ io.writes k) :
    (copyLoop tested buf io (fuel + 1) k rest).asserted =
        (copyLoop tested buf io fuel (k + 1) (rest.drop (part buf io k rest).length)).asserted ∧
      ((copyLoop tested buf io (fuel + 1) k rest).out = rest ↔
        (copyLoop tested buf io fuel (k + 1) (rest.drop (part buf io k rest).length)).out =
          rest.drop (part buf io k rest).length) := by
  have hwlen := (wlen_eq_iff io k _).mpr hwrite
  have hsplit := part_append buf io k rest
  rw [copyLoop, if_neg h, if_neg (by simp [hwlen])]
  refine ⟨rfl, ?_⟩
  show List.take _ (part buf io k rest) ++ _ = rest ↔ _
  rw [take_wlen hwrite]
  conv_rhs => rw [← List.append_right_inj (part buf io k rest), hsplit]

theorem copyLoop_short (h : part buf io k rest ≠ [])
    (hwrite : io.writes k < (part buf io k rest).length) :
    (copyLoop tested buf io (fuel + 1) k rest).out ≠ rest := by
  intro hout
  have hlen := congrArg List.length hout
  have hsplit := congrArg List.length (part_append buf io k rest)
  have hrest := copyLoop_length_le tested buf io fuel (k + 1)
    (rest.drop (part buf io k rest).length)
  have hshort := (length_take_wlen hwrite).resolve_right h
  rw [List.length_append] at hsplit
  rw [copyLoop] at hlen
  dsimp only at hlen
  split at hlen
  · next hnil => exact h hnil
  · split at hlen
    · have hlen : (List.take _ (part buf io k rest)).length = rest.length := hlen
      omega
    · have hlen : (List.take _ (part buf io k rest) ++ _).length = rest.length := hlen
      rw [List.length_append] at hlen
      omega

theorem copyLoop_untested (hfuel : rest.length < fuel) :
    (copyLoop false buf io fuel k rest).out = rest ↔ Delivers buf io k rest := by
  induction fuel generalizing k rest with
  | zero => omega
  | succ fuel ih =>
    by_cases hrest : rest = []
    · subst hrest
      rw [copyLoop_nil]
      exact iff_of_true rfl (.done k)
    by_cases h : part buf io k rest = []
    · rw [copyLoop, if_pos h]
      refine iff_of_false (Ne.symm hrest) ?_
      rintro (_ | ⟨hread, -, -⟩)
      · exact hrest rfl
      · exact hread h
    by_cases hwrite : ((part buf io k rest).length : Int) ≤ io.writes k
    · rw [(copyLoop_round h hwrite).2, ih (length_rest_lt h hfuel)]
      refine ⟨.round h hwrite, ?_⟩
      rintro (_ | ⟨-, -, hnext⟩)
      · exact absurd rfl hrest
      · exact hnext
    · refine iff_of_false (copyLoop_short h (by omega)) ?_
      rintro (_ | ⟨-, hall, -⟩)
      · exact hrest rfl
      · exact hwrite hall

theorem copyLoop_tested (hfuel : rest.length < fuel) :
    ((copyLoop true buf io fuel k rest).asserted = true ∨ (copyLoop true buf io fuel k rest).out = rest) ↔
      ReadsOn buf io k rest := by
  induction fuel generalizing k rest with
  | zero => omega
  | succ fuel ih =>
    by_cases hrest : rest = []
    · subst hrest
      rw [copyLoop_nil]
      exact iff_of_true (.inr rfl) (.done k)
    by_cases h : part buf io k rest = []
    · rw [copyLoop, if_pos h]
      refine iff_of_false (by simpa using Ne.symm hrest) ?_
      rintro (_ | ⟨hread, -⟩ | ⟨hread, -, -⟩)
      · exact hrest rfl
      · exact hread h
      · exact hread h
    by_cases hwrite : ((part buf io k rest).length : Int) ≤ io.writes k
    · rw [(copyLoop_round h hwrite).1, (copyLoop_round h hwrite).2, ih (length_rest_lt h hfuel)]
      refine ⟨.round h hwrite, ?_⟩
      rintro (_ | ⟨-, hshort⟩ | ⟨-, -, hnext⟩)
      · exact absurd rfl hrest
      · omega
      · exact hnext
    · refine iff_of_true (.inl ?_) (.short h (by omega))
      have hwlen : wlen io k (part buf io k rest) ≠ (part buf io k rest).length := by
        rw [ne_eq, wlen_eq_iff]
        exact hwrite
      rw [copyLoop, if_neg h, if_pos ⟨rfl, hwlen⟩]

end Loop

/-! ## The calls -/

/-- The place of a path; the base directory for a path outside it. -/
def place (base path : QString) : Loc := (resolve base path).getD []

/-- Opens for reading and writing, makes the file or empties it. -/
def openTrunc (host : Host) (T : Tree) (l : Loc) : Option Tree :=
  match h : T.find l with
  | some (.dir _ _) => none
  | some (.file _ _) => some (T.update l (Node.write [] host.now) (Node.isDir_write _ _))
  | none =>
    if hl : IsLoc l ∧ T.isDir l.dropLast = true then
      some ((T.add l (.file [] host.now) hl.1 h hl.2).update l.dropLast (Node.grow host.grown)
        (Node.isDir_grow _))
    else none

/-- `libssh2_sftp_open` for reading, and `libssh2_sftp_fstat` -/
def openRead (host : Host) (io : Io) (R : Tree) (l : Loc) : Option Node :=
  (R.find l).filter fun node => io.remoteOpen && (!node.isDir || host.opensDirs)

/-- What the reads of an open file return in the end. -/
def Node.content : Node → List UInt8
  | .dir _ _ => []
  | .file content _ => content

def utimes (io : Io) (L : Tree) (l : Loc) (mtime : Nat) : Option Tree :=
  if io.touch ∧ L.find l ≠ none then some (L.update l (Node.touch mtime) (Node.isDir_touch _)) else none

def writeOut (host : Host) (T : Tree) (l : Loc) (out : List UInt8) : Tree :=
  T.update l (Node.write out host.now) (Node.isDir_write _ _)

structure Outcome where
  world : World
  signals : List Signal
  /-- the bytes that were written, if both files were opened -/
  copied : Option (List UInt8)
  /-- `none` when an assert has failed -/
  ret : Option Int

/-! ## The two directions -/

/-- The local file is opened and filled. -/
def receive (host : Host) (io : Io) (content : List UInt8) (L : Tree) (l : Loc) : Option (Tree × Copy) :=
  if io.localOpen then
    (openTrunc host L l).map fun L =>
      (writeOut host L l (copyAll false 8192 io content).out, copyAll false 8192 io content)
  else none

/-- A local file that does not open is logged, and the transfer goes on. -/
def doDownload (host : Host) (io : Io) (w : World) (remotePath localPath : QString) : Outcome :=
  let l := place host.localBasePath localPath
  match openRead host io w.remote (place host.remoteBasePath remotePath) with
  | none => ⟨w, [], none, some (-1)⟩
  | some node =>
    let fileSize := int32 node.size
    let currFile := relative host.localBasePath localPath
    let received := receive host io node.content w.here l
    let here := (received.map Prod.fst).getD w.here
    let wlens := (received.map fun r => r.2.wlens).getD []
    let signals := .syncFileStarted currFile (quint64 fileSize) ::
      progress host currFile fileSize 0 wlens
    let copied := received.map fun r => r.2.out
    -- `assert(ret == 0)`
    match utimes io here l node.mtime with
    | none => ⟨{ w with here := here }, signals, copied, none⟩
    | some here => ⟨{ w with here := here }, signals ++ [.syncFileStopped currFile 0], copied, some 0⟩

/-- `QFile::open(QIODevice::ReadOnly)`, which a directory refuses -/
def openLocal (io : Io) (L : Tree) (l : Loc) : Option (List UInt8) :=
  match L.find l with
  | some (.file content _) => if io.localOpen then some content else none
  | _ => none

/-- `QFileInfo::lastModified`, in seconds; of no file it is not a time. -/
def lastModified (L : Tree) (l : Loc) : Nat := ((L.find l).map Node.mtime).getD 0xFFFFFFFF

/-- A failed `libssh2_sftp_setstat` is logged. -/
def touchSftp (io : Io) (R : Tree) (l : Loc) (mtime : Nat) : Tree :=
  if io.touch then R.update l (Node.touch mtime) (Node.isDir_touch _) else R

def doUpload (host : Host) (io : Io) (w : World) (localPath remotePath : QString) : Outcome :=
  let l := place host.remoteBasePath remotePath
  let src := place host.localBasePath localPath
  match if io.remoteOpen then openTrunc host w.remote l else none with
  -- `currFile` is not set yet
  | none => ⟨w, [.syncFileStopped [] (-1)], none, some (-1)⟩
  | some remote =>
    let fileSize := int32 (((w.here.find src).map Node.size).getD 0)
    let currFile := relative host.localBasePath localPath
    let copy := (openLocal io w.here src).map (copyAll true 5120 io)
    let remote := (copy.map fun copy => writeOut host remote l copy.out).getD remote
    let signals := .syncFileStarted currFile (quint64 fileSize) ::
      progress host currFile fileSize 0 ((copy.map Copy.wlens).getD [])
    let copied := copy.map Copy.out
    if (copy.map Copy.asserted).getD false then ⟨{ w with remote := remote }, signals, copied, none⟩
    else
      ⟨{ w with remote := touchSftp io remote l (lastModified w.here src) },
        signals ++ [.syncFileStopped currFile 0], copied, some 0⟩

/-! ## What the calls do -/

theorem openTrunc_isSome_iff (host : Host) (T : Tree) (l : Loc) :
    (openTrunc host T l).isSome = true ↔
      T.IsFile l ∨ T.find l = none ∧ IsLoc l ∧ T.isDir l.dropLast = true := by
  unfold openTrunc Tree.IsFile
  split
  · next h => simp [h]
  · next h => simp [h]
  · next h =>
    split
    · next hl => simp [h, hl]
    · next hl => simpa [h] using hl

theorem find_openTrunc {host : Host} {T T' : Tree} {l : Loc} (h : openTrunc host T l = some T') (k : Loc) :
    T'.find k =
      if k = l then some (.file [] host.now)
      else if k = l.dropLast ∧ T.find l = none then (T.find k).map (Node.grow host.grown)
      else T.find k := by
  unfold openTrunc at h
  split at h
  · cases h
  · next hfind =>
    obtain rfl := Option.some.inj h
    rw [Tree.find_update]
    by_cases hk : k = l
    · rw [if_pos hk, if_pos hk, hk, hfind]
      rfl
    · rw [if_neg hk, if_neg hk, if_neg (by simp [hfind])]
  · next hfind =>
    split at h
    · next hl =>
      obtain rfl := Option.some.inj h
      have hne : l ≠ l.dropLast := by
        intro he
        have hlen := congrArg List.length he
        have hpos := List.length_pos_iff.mpr hl.1.1
        rw [List.length_dropLast] at hlen
        omega
      rw [Tree.find_update, Tree.find_add]
      by_cases hk : k = l
      · rw [hk, if_neg hne, if_pos rfl, if_pos rfl]
      · simp only [if_neg hk, hfind, and_true]
    · cases h

theorem find_writeOut (host : Host) (T : Tree) (l : Loc) (out : List UInt8) (k : Loc) :
    (writeOut host T l out).find k =
      if k = l then (T.find k).map (Node.write out host.now) else T.find k :=
  Tree.find_update ..

theorem receive_eq (host : Host) (io : Io) (content : List UInt8) (L : Tree) (l : Loc) :
    (receive host io content L l).isSome = true ↔
      io.localOpen = true ∧ (openTrunc host L l).isSome = true := by
  unfold receive
  split
  · next h => simp [h]
  · next h => simp [h]

theorem receive_spec {host : Host} {io : Io} {content : List UInt8} {L : Tree} {l : Loc}
    {r : Tree × Copy} (h : receive host io content L l = some r) :
    r.2 = copyAll false 8192 io content ∧ ∀ k, r.1.find k =
      if k = l then some (.file r.2.out host.now)
      else if k = l.dropLast ∧ L.find l = none then (L.find k).map (Node.grow host.grown)
      else L.find k := by
  unfold receive at h
  split at h
  · obtain ⟨L', hopen, rfl⟩ := Option.map_eq_some_iff.mp h
    refine ⟨rfl, fun k => ?_⟩
    rw [find_writeOut, find_openTrunc hopen]
    by_cases hk : k = l
    · rw [if_pos hk, if_pos hk, if_pos hk]
      rfl
    · rw [if_neg hk, if_neg hk, if_neg hk]
  · cases h

theorem utimes_eq_none_iff (io : Io) (L : Tree) (l : Loc) (mtime : Nat) :
    utimes io L l mtime = none ↔ io.touch = false ∨ L.find l = none := by
  unfold utimes
  split
  · next h => simp [h]
  · next h =>
    rw [not_and_or] at h
    simpa using h

theorem openRead_eq_some {host : Host} {io : Io} {R : Tree} {l : Loc} {node : Node}
    (h : openRead host io R l = some node) :
    R.find l = some node ∧ io.remoteOpen = true ∧ (node.isDir = true → host.opensDirs = true) := by
  obtain ⟨hfind, hopen⟩ := Option.filter_eq_some_iff.mp h
  rw [Bool.and_eq_true, Bool.or_eq_true, Bool.not_eq_true'] at hopen
  refine ⟨hfind, hopen.1, fun hdir => ?_⟩
  simpa [hdir] using hopen.2

theorem openLocal_eq_some_iff {io : Io} {L : Tree} {l : Loc} {content : List UInt8} :
    openLocal io L l = some content ↔
      ∃ mtime, L.find l = some (.file content mtime) ∧ io.localOpen = true := by
  unfold openLocal
  split
  · next content' mtime h =>
    split
    · next hopen => simp [h, hopen]
    · next hopen => simp [hopen]
  · next hno =>
    refine iff_of_false (by simp) ?_
    rintro ⟨mtime, h, -⟩
    exact hno content mtime h

/-! ## Paths -/

theorem components_append (base name : QString) :
    components (childPath base name) = components base ++ components name := by
  rw [components, childPath, List.splitOn_append_cons_self, List.filter_append]
  rfl

theorem place_childPath (base name : QString) : place base (childPath base name) = components name := by
  rw [place, resolve, components_append, if_pos (List.prefix_append _ _), List.drop_left,
    Option.getD_some]

theorem components_rel {l : Loc} (hl : IsLoc l) : components (rel l) = l := by
  have h := components_append [] (rel l)
  rw [childPath_rel [] hl.1, components_joinPath [] l hl.2, List.append_right_inj] at h
  exact h.symm

/-- `transfer_impl`, once the session is there -/
def transferImpl (host : Host) (io : Io) (w : World) (task : SyncTaskPackage) : Outcome :=
  let remotePath := childPath host.remoteBasePath task.fileName
  let localPath := childPath host.localBasePath task.fileName
  match task.direct with
  | .download => doDownload host io w remotePath localPath
  | .upload => doUpload host io w localPath remotePath

section Task

variable {host : Host} {io : Io} {w : World} {task : SyncTaskPackage}

theorem transferImpl_download (h : task.direct = .download) :
    transferImpl host io w task = doDownload host io w (childPath host.remoteBasePath task.fileName)
      (childPath host.localBasePath task.fileName) := by
  rw [transferImpl, h]

theorem transferImpl_upload (h : task.direct = .upload) :
    transferImpl host io w task = doUpload host io w (childPath host.localBasePath task.fileName)
      (childPath host.remoteBasePath task.fileName) := by
  rw [transferImpl, h]

theorem download_closed (h : task.direct = .download)
    (hopen : openRead host io w.remote (components task.fileName) = none) :
    transferImpl host io w task = ⟨w, [], none, some (-1)⟩ := by
  rw [transferImpl_download h, doDownload]
  simp only [place_childPath, hopen]

theorem upload_closed (h : task.direct = .upload)
    (hopen : ¬(io.remoteOpen = true ∧ (openTrunc host w.remote (components task.fileName)).isSome = true)) :
    transferImpl host io w task = ⟨w, [.syncFileStopped [] (-1)], none, some (-1)⟩ := by
  have hnone : (if io.remoteOpen then openTrunc host w.remote (components task.fileName) else none) =
      none := by
    split
    · next hio => simpa [hio] using hopen
    · rfl
  rw [transferImpl_upload h, doUpload]
  simp only [place_childPath, hnone]

end Task

def plainHost : Host := ⟨homeEnv, true, 200, id, fun _ _ => 100⟩

def emptyTree : Tree := ⟨[], List.nodup_nil, by simp, by simp⟩

def fineIo : Io := ⟨true, true, fun _ => 8192, fun _ => 8192, true⟩

end NullFxp.Sync
