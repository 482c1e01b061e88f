import NullFxp.Lib.Runs
import NullFxp.Sync.Transfer

/-!
# What the transfers do to the trees

A task whose calls succeed changes one place of one side. No directory is made or removed by it,
and the size and the time of a directory change only when an entry is made in it, or when it is
the target itself.
-/

open Runs

namespace NullFxp.Sync

/-- Every call succeeds that can. -/
structure Io.Fine (io : Io) : Prop where
  remoteOpen : io.remoteOpen = true
  localOpen : io.localOpen = true
  reads : ∀ k, 0 < io.reads k
  writes : ∀ k, 8192 ≤ io.writes k
  touch : io.touch = true

/-- `none` when an assert fails. -/
def World.perform (host : Host) (io : SyncTaskPackage → Io) (w : World) (task : SyncTaskPackage) :
    Option World :=
  (transferImpl host (io task) w task).ret.map fun _ => (transferImpl host (io task) w task).world

/-! ## The copy -/

section Copy

variable {io : Io} {buf : Nat}

theorem delivers_of_fine (hio : io.Fine) (hbuf : 0 < buf) (hle : buf ≤ 8192) (k : Nat)
    (rest : List UInt8) : Delivers buf io k rest := by
  generalize hn : rest.length = n
  induction n using Nat.strongRecOn generalizing k rest with
  | ind n ih =>
    by_cases hrest : rest = []
    · subst hrest
      exact .done k
    · have hread := hio.reads k
      have hwrite := hio.writes k
      have hpos := List.length_pos_iff.mpr hrest
      have hlen : (part buf io k rest).length = min (min (io.reads k).toNat buf) rest.length :=
        List.length_take
      have hpart : part buf io k rest ≠ [] := by
        rw [← List.length_pos_iff, hlen]
        omega
      refine .round hpart (by omega) (ih _ ?_ (k + 1) _ rfl)
      rw [List.length_drop]
      omega

theorem copyLoop_delivers {tested : Bool} {k : Nat} {rest : List UInt8} (h : Delivers buf io k rest)
    {fuel : Nat} (hfuel : rest.length < fuel) :
    (copyLoop tested buf io fuel k rest).out = rest ∧
      (copyLoop tested buf io fuel k rest).asserted = false := by
  induction h generalizing fuel with
  | done k =>
    rw [copyLoop_nil]
    exact ⟨rfl, rfl⟩
  | round hread hwrite _ ih =>
    cases fuel with
    | zero => omega
    | succ fuel =>
      have hnext := ih (length_rest_lt hread hfuel)
      rw [(copyLoop_round hread hwrite).1, (copyLoop_round hread hwrite).2]
      exact hnext

theorem copyAll_fine (hio : io.Fine) (tested : Bool) (hbuf : 0 < buf) (hle : buf ≤ 8192)
    (content : List UInt8) :
    (copyAll tested buf io content).out = content ∧ (copyAll tested buf io content).asserted = false :=
  copyLoop_delivers (delivers_of_fine hio hbuf hle 0 content) (Nat.lt_succ_self _)

end Copy

/-! ## Storing a file -/

/-- A file can be at `l` after an open. -/
def Storable (T : Tree) (l : Loc) : Prop :=
  T.IsFile l ∨ T.find l = none ∧ T.isDir l.dropLast = true

/-- `T'` is `T` with the file `node` at `l`. -/
def Stored (host : Host) (l : Loc) (node : Node) (T T' : Tree) : Prop :=
  ∀ k, T'.find k =
    if k = l then some (.file node.content node.mtime)
    else if k = l.dropLast ∧ T.find l = none then (T.find k).map (Node.grow host.grown)
    else T.find k

theorem openTrunc_isSome_iff_storable (host : Host) {T : Tree} {l : Loc} (hl : IsLoc l) :
    (openTrunc host T l).isSome = true ↔ Storable T l := by
  rw [openTrunc_isSome_iff, Storable]
  tauto

theorem not_storable_cases {T : Tree} {l : Loc} (h : ¬Storable T l) :
    T.isDir l = true ∨ T.find l = none ∧ T.isDir l.dropLast = false := by
  unfold Storable at h
  push Not at h
  cases hfind : T.find l with
  | none => exact .inr ⟨rfl, by simpa using h.2 hfind⟩
  | some node =>
    cases node with
    | dir size mtime => exact .inl (Tree.isDir_of_find hfind)
    | file content mtime => exact absurd ⟨content, mtime, hfind⟩ h.1

/-! ## One task -/

section Task

variable {host : Host} {io : SyncTaskPackage → Io} {w w' : World} {task : SyncTaskPackage} {l : Loc}

/-- A file or directory that the server opens. -/
def Opens (host : Host) (R : Tree) (l : Loc) (node : Node) : Prop :=
  R.find l = some node ∧ (node.isDir = true → host.opensDirs = true)

theorem openRead_fine {io : Io} (hio : io.Fine) (R : Tree) (l : Loc) (node : Node) :
    openRead host io R l = some node ↔ Opens host R l node := by
  constructor
  · intro h
    obtain ⟨hfind, -, hdir⟩ := openRead_eq_some h
    exact ⟨hfind, hdir⟩
  · rintro ⟨hfind, hdir⟩
    rw [openRead, Option.filter_eq_some_iff, hio.remoteOpen]
    refine ⟨hfind, ?_⟩
    cases hnode : node.isDir with
    | false => rfl
    | true => exact hdir hnode

/-- What a download does. -/
inductive Downloaded (host : Host) (l : Loc) (w : World) : World → Prop where
  | closed (h : ∀ node, ¬Opens host w.remote l node) : Downloaded host l w w
  | stored {node : Node} {here : Tree} (hopen : Opens host w.remote l node) (h : Storable w.here l)
    (hstored : Stored host l node w.here here) : Downloaded host l w { w with here := here }
  | touched {node : Node} {here : Tree} (hopen : Opens host w.remote l node)
    (hdir : w.here.isDir l = true)
    (hhere : ∀ k, here.find k = if k = l then (w.here.find k).map (Node.touch node.mtime) else w.here.find k) :
    Downloaded host l w { w with here := here }

/-- An upload does nothing where there can be no file. -/
inductive Uploaded (host : Host) (l : Loc) (w : World) : World → Prop where
  | closed (h : ¬Storable w.remote l) : Uploaded host l w w
  | stored {node : Node} {remote : Tree} (hnode : w.here.find l = some node) (h : Storable w.remote l)
    (hstored : Stored host l node w.remote remote) : Uploaded host l w { w with remote := remote }

theorem find_utimes {io : Io} {L L' : Tree} {mtime : Nat} (h : utimes io L l mtime = some L') (k : Loc) :
    L'.find k = if k = l then (L.find k).map (Node.touch mtime) else L.find k := by
  unfold utimes at h
  split at h
  · rw [← Option.some.inj h, Tree.find_update]
  · cases h

theorem touch_file (content : List UInt8) (now mtime : Nat) :
    (Node.file content now).touch mtime = .file content mtime := rfl

theorem perform_opened (hl : IsLoc l) (hname : task.fileName = rel l) (hdirect : task.direct = .download)
    {node : Node} (hopen : openRead host (io task) w.remote l = some node) :
    w.perform host io task =
      (utimes (io task) (((receive host (io task) node.content w.here l).map Prod.fst).getD w.here) l
        node.mtime).map fun here => { w with here := here } := by
  rw [World.perform, transferImpl_download hdirect, doDownload]
  simp only [place_childPath, hname, components_rel hl, hopen]
  split
  · next htouch => rw [htouch, Option.map_none, Option.map_none]
  · next htouch => rw [htouch, Option.map_some, Option.map_some]

theorem perform_storable (hio : ∀ task, (io task).Fine) (hl : IsLoc l) (hname : task.fileName = rel l)
    (hdirect : task.direct = .download) {node : Node} (hopen : Opens host w.remote l node)
    (hstorable : Storable w.here l) :
    ∃ here, w.perform host io task = some { w with here := here } ∧
      Stored host l node w.here here := by
  have hreceive := (receive_eq host (io task) node.content w.here l).mpr
    ⟨(hio task).localOpen, (openTrunc_isSome_iff_storable host hl).mpr hstorable⟩
  obtain ⟨r, hr⟩ := Option.isSome_iff_exists.mp hreceive
  obtain ⟨hcopy, hfind⟩ := receive_spec hr
  have hout : r.2.out = node.content := by
    rw [hcopy]
    exact (copyAll_fine (hio task) false (by decide) (Nat.le_refl _) node.content).1
  have htouch : utimes (io task) r.1 l node.mtime ≠ none := by
    rw [ne_eq, utimes_eq_none_iff, (hio task).touch, hfind, if_pos rfl]
    simp
  obtain ⟨here, hhere⟩ := Option.ne_none_iff_exists'.mp htouch
  refine ⟨here, ?_, fun k => ?_⟩
  · rw [perform_opened hl hname hdirect ((openRead_fine (hio task) ..).mpr hopen), hr, Option.map_some,
      Option.getD_some, hhere, Option.map_some]
  · rw [find_utimes hhere, hfind, hout]
    by_cases hk : k = l
    · rw [if_pos hk, if_pos hk, if_pos hk, Option.map_some, touch_file]
    · rw [if_neg hk, if_neg hk, if_neg hk]

theorem perform_unstorable (hio : ∀ task, (io task).Fine) (hl : IsLoc l) (hname : task.fileName = rel l)
    (hdirect : task.direct = .download) {node : Node} (hopen : Opens host w.remote l node)
    (hno : ¬Storable w.here l) :
    w.perform host io task =
      (utimes (io task) w.here l node.mtime).map fun here => { w with here := here } := by
  have hreceive : receive host (io task) node.content w.here l = none := by
    rw [← Option.not_isSome_iff_eq_none, receive_eq, openTrunc_isSome_iff_storable host hl]
    exact fun h => hno h.2
  rw [perform_opened hl hname hdirect ((openRead_fine (hio task) ..).mpr hopen), hreceive,
    Option.map_none, Option.getD_none]

theorem perform_closed (hio : ∀ task, (io task).Fine) (hl : IsLoc l) (hname : task.fileName = rel l)
    (hdirect : task.direct = .download) (hclosed : ∀ node, ¬Opens host w.remote l node) :
    w.perform host io task = some w := by
  have hopen : openRead host (io task) w.remote (components task.fileName) = none := by
    rw [hname, components_rel hl, Option.eq_none_iff_forall_ne_some]
    intro node hnode
    exact hclosed node ((openRead_fine (hio task) ..).mp hnode)
  rw [World.perform, download_closed hdirect hopen, Option.map_some]

theorem perform_download (hio : ∀ task, (io task).Fine) (hl : IsLoc l) (hname : task.fileName = rel l)
    (hdirect : task.direct = .download) :
    (∀ w', w.perform host io task = some w' → Downloaded host l w w') ∧
      (w.perform host io task = none ↔ (∃ node, Opens host w.remote l node) ∧ w.here.find l = none ∧
        w.here.isDir l.dropLast = false) := by
  by_cases hopen : ∃ node, Opens host w.remote l node
  · obtain ⟨node, hopen⟩ := hopen
    by_cases hstorable : Storable w.here l
    · obtain ⟨here, hperform, hstored⟩ := perform_storable hio hl hname hdirect hopen hstorable
      rw [hperform]
      refine ⟨fun w' h => ?_, iff_of_false (by simp) ?_⟩
      · rw [← Option.some.inj h]
        exact .stored hopen hstorable hstored
      · rintro ⟨-, hnone, hparent⟩
        rcases hstorable with ⟨content, mtime, hfile⟩ | ⟨-, hdir⟩
        · simp [hfile] at hnone
        · simp [hdir] at hparent
    · rw [perform_unstorable hio hl hname hdirect hopen hstorable]
      constructor
      · intro w' h
        obtain ⟨here, htouch, rfl⟩ := Option.map_eq_some_iff.mp h
        refine .touched hopen ((not_storable_cases hstorable).resolve_right fun hnone => ?_)
          (find_utimes htouch)
        rw [(utimes_eq_none_iff ..).mpr (.inr hnone.1)] at htouch
        cases htouch
      · rw [Option.map_eq_none_iff, utimes_eq_none_iff, (hio task).touch]
        constructor
        · rintro (h | hnone)
          · cases h
          · refine ⟨⟨node, hopen⟩, hnone, ?_⟩
            rw [← Bool.not_eq_true]
            exact fun hparent => hstorable (.inr ⟨hnone, hparent⟩)
        · rintro ⟨-, hnone, -⟩
          exact .inr hnone
  · have hclosed : ∀ node, ¬Opens host w.remote l node := fun node h => hopen ⟨node, h⟩
    rw [perform_closed hio hl hname hdirect hclosed]
    refine ⟨fun w' h => ?_, iff_of_false (by simp) fun h => hopen h.1⟩
    rw [← Option.some.inj h]
    exact .closed hclosed

theorem perform_upload (hio : ∀ task, (io task).Fine) (hl : IsLoc l) (hname : task.fileName = rel l)
    (hdirect : task.direct = .upload) {node : Node} (hnode : w.here.find l = some node) :
    ∃ w', w.perform host io task = some w' ∧ Uploaded host l w w' := by
  have hloc : components task.fileName = l := by rw [hname, components_rel hl]
  have hopens := openTrunc_isSome_iff_storable host (T := w.remote) hl
  by_cases hstorable : Storable w.remote l
  · obtain ⟨remote, hremote⟩ := Option.isSome_iff_exists.mp (hopens.mpr hstorable)
    rw [World.perform, transferImpl_upload hdirect, doUpload]
    simp only [place_childPath, hloc, hremote, (hio task).remoteOpen, if_true]
    cases node with
    | dir size mtime =>
      have hlocal : openLocal (io task) w.here l = none := by rw [openLocal, hnode]
      simp only [hlocal, Option.map_none, Option.getD_none, if_false, Bool.false_eq_true]
      refine ⟨_, rfl, .stored hnode hstorable fun k => ?_⟩
      rw [touchSftp, if_pos (hio task).touch, Tree.find_update, find_openTrunc hremote]
      by_cases hk : k = l
      · rw [if_pos hk, if_pos hk, if_pos hk, Option.map_some, touch_file, lastModified, hnode]
        rfl
      · rw [if_neg hk, if_neg hk, if_neg hk]
    | file content mtime =>
      have hlocal : openLocal (io task) w.here l = some content :=
        openLocal_eq_some_iff.mpr ⟨mtime, hnode, (hio task).localOpen⟩
      obtain ⟨hout, hasserted⟩ := copyAll_fine (hio task) true (by decide) (by decide : 5120 ≤ 8192) content
      simp only [hlocal, Option.map_some, Option.getD_some, hout, hasserted, if_false,
        Bool.false_eq_true]
      refine ⟨_, rfl, .stored hnode hstorable fun k => ?_⟩
      rw [touchSftp, if_pos (hio task).touch, Tree.find_update, find_writeOut, find_openTrunc hremote]
      by_cases hk : k = l
      · rw [if_pos hk, if_pos hk, if_pos hk, if_pos hk, Option.map_some, Option.map_some, lastModified,
          hnode]
        rfl
      · rw [if_neg hk, if_neg hk, if_neg hk, if_neg hk]
  · have hclosed : ¬((io task).remoteOpen = true ∧
        (openTrunc host w.remote (components task.fileName)).isSome = true) := by
      rw [hloc, hopens]
      exact fun h => hstorable h.2
    rw [World.perform, upload_closed hdirect hclosed]
    exact ⟨w, rfl, .closed hstorable⟩

end Task

/-! ## What stays -/

/-- The same, or a directory both times. -/
def Alike (a b : Option Node) : Prop :=
  a = b ∨ (∃ size mtime, a = some (.dir size mtime)) ∧ ∃ size mtime, b = some (.dir size mtime)

theorem Alike.refl (a : Option Node) : Alike a a := .inl rfl

theorem Alike.trans {a b c : Option Node} (h : Alike a b) (h' : Alike b c) : Alike a c := by
  rcases h with rfl | ⟨ha, hb⟩
  · exact h'
  · rcases h' with rfl | ⟨-, hc⟩
    · exact .inr ⟨ha, hb⟩
    · exact .inr ⟨ha, hc⟩

theorem Alike.none_iff {a b : Option Node} (h : Alike a b) : a = none ↔ b = none := by
  rcases h with rfl | ⟨⟨size, mtime, rfl⟩, size', mtime', rfl⟩
  · rfl
  · simp

theorem Alike.isDir {T T' : Tree} {k : Loc} (h : Alike (T.find k) (T'.find k)) :
    T'.isDir k = T.isDir k := by
  unfold Tree.isDir
  rcases h with h | ⟨⟨size, mtime, h⟩, size', mtime', h'⟩
  · rw [h]
  · rw [h, h']
    rfl

theorem Alike.file {a b : Option Node} (h : Alike a b) {content : List UInt8} {mtime : Nat}
    (ha : a = some (.file content mtime)) : b = a := by
  rcases h with rfl | ⟨⟨size, mtime, rfl⟩, -⟩
  · rfl
  · cases ha

/-- The place `k` is not the target: there is the same at it, but that a directory may have grown,
and that only if it is one on both sides. -/
structure Still (k : Loc) (w w' : World) : Prop where
  remote : Alike (w.remote.find k) (w'.remote.find k)
  here : Alike (w.here.find k) (w'.here.find k)
  exactRemote : w.here.isDir k = false → w'.remote.find k = w.remote.find k
  exactHere : w.remote.isDir k = false → w'.here.find k = w.here.find k

theorem Still.refl (k : Loc) (w : World) : Still k w w := ⟨.refl _, .refl _, fun _ => rfl, fun _ => rfl⟩

theorem Still.trans {k : Loc} {w w' w'' : World} (h : Still k w w') (h' : Still k w' w'') :
    Still k w w'' := by
  refine ⟨h.remote.trans h'.remote, h.here.trans h'.here, fun hdir => ?_, fun hdir => ?_⟩
  · exact (h'.exactRemote (h.here.isDir.trans hdir)).trans (h.exactRemote hdir)
  · exact (h'.exactHere (h.remote.isDir.trans hdir)).trans (h.exactHere hdir)

theorem grow_alike (grown : Nat × Nat → Nat × Nat) (a : Option Node) : Alike a (a.map (Node.grow grown)) := by
  cases a with
  | none => exact .refl none
  | some node =>
    cases node with
    | dir size mtime => exact .inr ⟨⟨size, mtime, rfl⟩, _, _, rfl⟩
    | file content mtime => exact .refl _

section Stored

variable {host : Host} {l k : Loc} {node : Node} {T T' : Tree}

theorem Stored.alike (h : Stored host l node T T') (hk : k ≠ l) : Alike (T.find k) (T'.find k) := by
  rw [h k, if_neg hk]
  split
  · exact grow_alike ..
  · exact .refl _

theorem Stored.exact (h : Stored host l node T T') (hk : k ≠ l) {S : Tree} (hS : S.find l = some node)
    (hdir : S.isDir k = false) : T'.find k = T.find k := by
  rw [h k, if_neg hk, if_neg]
  rintro ⟨rfl, -⟩
  rw [Tree.isDir_parent hS] at hdir
  cases hdir

theorem Stored.isDir (h : Stored host l node T T') (hT : Storable T l) (k : Loc) :
    T'.isDir k = T.isDir k := by
  by_cases hk : k = l
  · subst hk
    have hfile : T'.find k = some (.file node.content node.mtime) := by rw [h k, if_pos rfl]
    rw [Tree.isDir_of_find hfile]
    rcases hT with ⟨content, mtime, hfind⟩ | ⟨hfind, -⟩
    · rw [Tree.isDir_of_find hfind]
      rfl
    · simp [Tree.isDir, hfind, (Tree.find_named hfile).1, Node.isDir]
  · exact (h.alike hk).isDir

end Stored

section Step

variable {host : Host} {l k : Loc} {w w' : World}

theorem Downloaded.still (h : Downloaded host l w w') (hk : k ≠ l) : Still k w w' := by
  cases h with
  | closed _ => exact .refl k w
  | stored hopen _ hstored =>
    exact ⟨.refl _, hstored.alike hk, fun _ => rfl, fun hdir => hstored.exact hk hopen.1 hdir⟩
  | touched _ _ hhere =>
    have hsame := hhere k
    rw [if_neg hk] at hsame
    exact ⟨.refl _, hsame ▸ .refl _, fun _ => rfl, fun _ => hsame⟩

theorem Uploaded.still (h : Uploaded host l w w') (hk : k ≠ l) : Still k w w' := by
  cases h with
  | closed _ => exact .refl k w
  | stored hnode _ hstored =>
    exact ⟨hstored.alike hk, .refl _, fun hdir => hstored.exact hk hnode hdir, fun _ => rfl⟩

theorem Downloaded.isDir (h : Downloaded host l w w') (k : Loc) :
    w'.remote.isDir k = w.remote.isDir k ∧ w'.here.isDir k = w.here.isDir k := by
  cases h with
  | closed _ => exact ⟨rfl, rfl⟩
  | stored _ hstorable hstored => exact ⟨rfl, hstored.isDir hstorable k⟩
  | touched _ _ hhere =>
    refine ⟨rfl, ?_⟩
    show Tree.isDir _ k = w.here.isDir k
    unfold Tree.isDir
    rw [hhere]
    split
    · cases hfind : w.here.find k <;> simp
    · rfl

theorem Uploaded.isDir (h : Uploaded host l w w') (k : Loc) :
    w'.remote.isDir k = w.remote.isDir k ∧ w'.here.isDir k = w.here.isDir k := by
  cases h with
  | closed _ => exact ⟨rfl, rfl⟩
  | stored _ hstorable hstored => exact ⟨hstored.isDir hstorable k, rfl⟩

end Step

end NullFxp.Sync
