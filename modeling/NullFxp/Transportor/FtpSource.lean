import NullFxp.Transportor.CopyTree

/-!
# Transfers from an FTP host

The three loops read the names of a directory's entries from a list that they never fill, and
take whatever `CWD` refuses for a file. Two of them call `list` without a data channel.
-/

open Worklist
open scoped List

namespace NullFxp.Transportor

variable {t : Tree} {sel : List QString} {D : QString}

/-- What a loop from an FTP host finds: an entry that `CWD` refuses is a file, and a directory
looks empty. -/
def Tree.ftpView : Tree → Tree
  | .dir _ => .dir []
  | _ => .file

def Loop.withList {σ : Type} (lp : Loop σ) (list : QString → σ → Option (List QString × σ)) :
    Loop σ :=
  { lp with list := list }

section Ftp

variable {copy : QString → QString → State Dirs → Option (State Dirs)} {u : Tree} {src : QString}

theorem isFTPDir_spec (h : t.lookup (components src) = some u) (w : Dirs) :
    isFTPDir t.ftpHost src w = some (decide (u.ftpView.kind = .dir), w) := by
  cases u <;> simp [isFTPDir, Tree.ftpHost, Tree.stat, h, Tree.kind, Tree.ftpView]

theorem isFTPFile_spec (h : t.lookup (components src) = some u) (w : Dirs) :
    isFTPFile t.ftpHost src w = some (decide (u.ftpView.kind = .reg), w) := by
  cases u <;> simp [isFTPFile, Tree.ftpHost, Tree.stat, h, Tree.kind, Tree.ftpView]

theorem ftpListing_spec (h : t.lookup (components src) = some u) {es : List (QString × Tree)}
    (hu : u.ftpView = .dir es) (w : Dirs) :
    ftpListing true t.ftpHost src w = some (es.map Prod.fst, w) := by
  cases u with
  | file => cases hu
  | special => cases hu
  | dir es' =>
    obtain rfl : es = [] := by simpa [Tree.ftpView, eq_comm] using hu
    simp [ftpListing, Tree.ftpHost, Tree.opendir, components_slash, h, Tree.readdir]

theorem sees_ftpView {lp : Loop Dirs} (h : Acts lp src u.ftpView) : Sees lp src u.ftpView := by
  refine ⟨h, fun es hes => ?_⟩
  cases u with
  | file => cases hes
  | special => cases hes
  | dir es' =>
    cases hes
    exact fun e he => absurd he List.not_mem_nil

variable (copy)

theorem sees_ftpToFile (h : t.lookup (components src) = some u) :
    Sees (runFtpToFile connected copy t.ftpHost Dirs.localDisk) src u.ftpView := by
  refine sees_ftpView (acts_of_prims (fun dest w hw => ?_) (fun dest w hw => ?_)
    (fun es hes w => ftpListing_spec h hes w) (fun _ _ => rfl))
  · cases hk : u.ftpView.kind <;>
      simp [runFtpToFile, andThen, isFTPFile_spec h, dest_isDir hw, hk]
  · simp [runFtpToFile, andThen, isFTPDir_spec h, dest_isDir hw]

variable {list : QString → Dirs → Option (List QString × Dirs)}
  (hlist : ∀ es, u.ftpView = .dir es → ∀ w, list src w = some (es.map Prod.fst, w))

include hlist

theorem sees_ftpToSftp (h : t.lookup (components src) = some u) :
    Sees ((runFtpToSftp connected copy t.ftpHost Dirs.sftpHost).withList list) src u.ftpView := by
  refine sees_ftpView (acts_of_prims (fun dest w hw => ?_) (fun dest w hw => ?_) hlist
    (fun _ _ => rfl))
  · cases hk : u.ftpView.kind <;>
      simp [Loop.withList, runFtpToSftp, andThen, isFTPFile_spec h, dest_remoteIsDir hw, hk]
  · cases hk : u.ftpView.kind <;>
      simp [Loop.withList, runFtpToSftp, andThen, isFTPDir_spec h, dest_remoteIsDir hw, hk]

theorem sees_ftpToFtp (h : t.lookup (components src) = some u) :
    Sees ((runFtpToFtp connected copy t.ftpHost Dirs.ftpHost).withList list) src u.ftpView := by
  refine sees_ftpView (acts_of_prims (fun dest w hw => ?_) (fun dest w hw => ?_) hlist
    (fun _ _ => rfl))
  · cases hk : u.ftpView.kind <;>
      simp [Loop.withList, runFtpToFtp, andThen, isFTPFile_spec h, dest_isFTPDir hw, hk]
  · cases hk : u.ftpView.kind <;>
      simp [Loop.withList, runFtpToFtp, andThen, isFTPDir_spec h, hk]
    exact dest_isFTPDir hw

end Ftp

/-! ## A loop that cannot list -/

section CannotList

variable {lp : Loop Dirs} (hnone : ∀ src w, lp.list src w = none) (hcopy : CopySucceeds lp.copyFile)
  (list : QString → Dirs → Option (List QString × Dirs)) {s s' : State Dirs}

include hnone hcopy

theorem process_withList {srcPkg destPkg : TaskPackage} {src dest : QString}
    (h : lp.process srcPkg destPkg src dest s = some s') :
    (lp.withList list).process srcPkg destPkg src dest s = some s' ∧
      ∀ path, .mkdir path ∈ s'.calls → .mkdir path ∈ s.calls := by
  unfold Loop.process at h ⊢
  rw [show (lp.withList list).branch src dest = lp.branch src dest from rfl]
  obtain ⟨⟨b, w⟩, hb, h⟩ := Option.bind_eq_some_iff.mp h
  rw [hb, Option.bind_some]
  cases b with
  | file =>
    refine ⟨h, fun path hpath => ?_⟩
    obtain ⟨text, method, hc⟩ := hcopy src (childPath dest (lastPart src))
      (State.called { s with world := w } (.copy src (childPath dest (lastPart src))))
    obtain rfl := Option.some.inj (hc.symm.trans h)
    simpa [State.called] using hpath
  | dir =>
    simp only [Loop.dirBranch, hnone] at h
    cases h
  | invalid =>
    obtain rfl := Option.some.inj h
    exact ⟨rfl, fun path hpath => hpath⟩

variable (hconnect : ∀ w, lp.connect w = (none, w))

include hconnect

theorem round_withList {r : Loop.Round Dirs} (h : lp.round s = some r) :
    ∃ s', r = .goOn s' ∧ (lp.withList list).round s = some (.goOn s') ∧
      ∀ path, .mkdir path ∈ s'.calls → .mkdir path ∈ s.calls := by
  unfold Loop.round at h ⊢
  rw [show (lp.withList list).connect s.world = lp.connect s.world from rfl]
  split at h
  · cases h
  · next srcPkg destPkg rest hready =>
    simp only [hconnect] at h ⊢
    split at h
    · obtain ⟨s', hs', rfl⟩ := Option.map_eq_some_iff.mp h
      obtain ⟨hprocess, hmade⟩ := process_withList hnone hcopy list hs'
      refine ⟨_, rfl, by rw [hprocess, Option.map_some], fun path hpath => ?_⟩
      simpa [State.called] using hmade path hpath
    · cases h

theorem loop_withList {fuel : Nat} (h : lp.loop fuel s = some s') :
    (lp.withList list).loop fuel s = some s' ∧
      ∀ path, .mkdir path ∈ s'.calls → .mkdir path ∈ s.calls := by
  induction fuel generalizing s with
  | zero => cases h
  | succ fuel ih =>
    unfold Loop.loop at h ⊢
    obtain ⟨r, hr, h⟩ := Option.bind_eq_some_iff.mp h
    obtain ⟨t, rfl, hround, hmade⟩ := round_withList hnone hcopy list hconnect hr
    rw [hround, Option.bind_some]
    simp only at h ⊢
    split at h
    · next hgoes =>
      obtain ⟨hloop, hlater⟩ := ih h
      rw [if_pos hgoes]
      exact ⟨hloop, fun path hpath => hmade path (hlater path hpath)⟩
    · next hgoes =>
      obtain rfl := Option.some.inj h
      rw [if_neg hgoes]
      exact ⟨rfl, hmade⟩

theorem run_withList {fuel : Nat} (h : lp.run fuel s = some s') :
    (lp.withList list).run fuel s = some s' ∧
      ∀ path, .mkdir path ∈ s'.calls → .mkdir path ∈ s.calls := by
  obtain ⟨t, ht, rfl⟩ := Option.map_eq_some_iff.mp h
  obtain ⟨hloop, hmade⟩ := loop_withList hnone hcopy list hconnect ht
  refine ⟨by rw [Loop.run, hloop, Option.map_some], fun path hpath => hmade path ?_⟩
  unfold Loop.finish at hpath
  split at hpath <;> exact hpath

end CannotList

/-! ## The two traversals -/

/-- The same files are copied and the same directories are made. -/
def SameVisits (s s' : State Dirs) : Prop :=
  (∀ src dest, .copy src dest ∈ s.calls ↔ .copy src dest ∈ s'.calls) ∧
    ∀ path, .mkdir path ∈ s.calls ↔ .mkdir path ∈ s'.calls

/-- Nothing is there for the FTP loops to miss, or to take for a file. -/
def Flat (t : Tree) (S : QString) : Prop :=
  t.lookup (components S) ≠ some .special ∧
    ∀ es, t.lookup (components S) = some (.dir es) → ∀ e ∈ es, e.2 = .special

def ftpSelected (t : Tree) (sel : List QString) (D : QString) : List Item :=
  (selected t sel D).map fun i => ⟨i.src, i.dest, i.tree.ftpView⟩

theorem mem_ftpOrder {order : List Item} (hv : Visits Item.next (ftpSelected t sel D) order)
    (hsel : ∀ S ∈ sel, t.lookup (components S) ≠ none) (i : Item) :
    i ∈ order ↔ ∃ S ∈ sel, ∃ u, t.lookup (components S) = some u ∧ i = ⟨S, D, u.ftpView⟩ := by
  have hall (i : Item) : Item.all ⟨i.src, i.dest, i.tree.ftpView⟩ = [⟨i.src, i.dest, i.tree.ftpView⟩] := by
    obtain ⟨src, dest, u⟩ := i
    cases u <;> rfl
  rw [(hv.perm closed_all).mem_iff, ftpSelected, List.flatMap_map, List.mem_flatMap]
  simp only [hall, List.mem_singleton, selected, List.mem_map, exists_exists_and_eq_and]
  refine exists_congr fun S => and_congr_right fun hS => ?_
  obtain ⟨u, hu⟩ := Option.ne_none_iff_exists'.mp (hsel S hS)
  simp [hu]

theorem ftp_copy_mem {order : List Item} (hv : Visits Item.next (ftpSelected t sel D) order)
    (hsel : ∀ S ∈ sel, t.lookup (components S) ≠ none) (src dest : QString) :
    .copy src dest ∈ order.flatMap Item.calls ↔
      src ∈ sel ∧ dest = childPath D (lastPart src) ∧
        (t.lookup (components src) = some .file ∨ t.lookup (components src) = some .special) := by
  rw [copy_mem_calls]
  constructor
  · rintro ⟨i, hi, hfile, rfl, rfl⟩
    obtain ⟨S, hS, u, hu, rfl⟩ := (mem_ftpOrder hv hsel i).mp hi
    refine ⟨hS, rfl, ?_⟩
    cases u with
    | file => exact .inl hu
    | special => exact .inr hu
    | dir es => cases hfile
  · rintro ⟨hS, rfl, hu | hu⟩
    · exact ⟨_, (mem_ftpOrder hv hsel _).mpr ⟨src, hS, .file, hu, rfl⟩, rfl, rfl, rfl⟩
    · exact ⟨_, (mem_ftpOrder hv hsel _).mpr ⟨src, hS, .special, hu, rfl⟩, rfl, rfl, rfl⟩

theorem ftp_mkdir_mem {order : List Item} (hv : Visits Item.next (ftpSelected t sel D) order)
    (hsel : ∀ S ∈ sel, t.lookup (components S) ≠ none) (path : QString) :
    .mkdir path ∈ order.flatMap Item.calls ↔
      ∃ S ∈ sel, ∃ es, t.lookup (components S) = some (.dir es) ∧
        path = childPath D (lastPart S) := by
  rw [mkdir_mem_calls]
  constructor
  · rintro ⟨i, hi, ⟨es, hes⟩, rfl⟩
    obtain ⟨S, hS, u, hu, rfl⟩ := (mem_ftpOrder hv hsel i).mp hi
    cases u with
    | file => cases hes
    | special => cases hes
    | dir es' => exact ⟨S, hS, es', hu, rfl⟩
  · rintro ⟨S, hS, es, hu, rfl⟩
    exact ⟨_, (mem_ftpOrder hv hsel _).mpr ⟨S, hS, _, hu, rfl⟩, ⟨[], rfl⟩, rfl⟩

theorem child_target_ne (S S' name : QString) :
    childPath (childPath D (lastPart S)) name ≠ childPath D (lastPart S') := by
  intro h
  have hparts : lastPart S ++ '/' :: name = lastPart S' := by
    simpa [childPath] using h
  apply slash_not_mem_lastPart S'
  rw [← hparts]
  simp

theorem lookup_below_flat {S : QString} (hflat : Flat t S) {n : QString} {r : List QString}
    {u : Tree} (h : t.lookup (components S ++ n :: r) = some u) : u = .special := by
  rw [Tree.lookup_append] at h
  obtain ⟨v, hv, h⟩ := Option.bind_eq_some_iff.mp h
  cases v with
  | file => simp [Tree.lookup] at h
  | special => simp [Tree.lookup] at h
  | dir es =>
    obtain ⟨e, hfind, he⟩ := Option.bind_eq_some_iff.mp h
    rw [hflat.2 es hv e (List.mem_of_find?_eq_some hfind)] at he
    cases r with
    | nil => simpa [Tree.lookup, eq_comm] using he
    | cons m r => simp [Tree.lookup] at he

section Iff

variable {order ftpOrder : List Item} (ht : t.Named)
  (hsel : ∀ S ∈ sel, t.lookup (components S) ≠ none)
  (hv : Visits Item.next (selected t sel D) order)
  (hftp : Visits Item.next (ftpSelected t sel D) ftpOrder)

include ht hsel hv hftp

theorem flat_of_same
    (hcopy : ∀ src dest, .copy src dest ∈ ftpOrder.flatMap Item.calls ↔
      .copy src dest ∈ order.flatMap Item.calls)
    (hmkdir : ∀ path, .mkdir path ∈ ftpOrder.flatMap Item.calls ↔
      .mkdir path ∈ order.flatMap Item.calls) :
    ∀ S ∈ sel, Flat t S := by
  intro S hS
  constructor
  · -- The special file was taken for a regular one.
    intro hu
    have hmem := (ftp_copy_mem hftp hsel S _).mpr ⟨hS, rfl, .inr hu⟩
    obtain ⟨S', -, r, hr, hsrc, -⟩ := (copy_mem_order ht hsel hv S _).mp ((hcopy S _).mp hmem)
    have hnames : ∀ n ∈ r, IsName n := fun n hn => ht.isName hr n (List.mem_append_right _ hn)
    rw [← components_joinPath S' r hnames, ← hsrc, hu] at hr
    cases hr
  · intro es hu e he
    have hchild : t.lookup (components S ++ [e.1]) = some e.2 := by
      rw [Tree.lookup_append, hu, Option.bind_some, Tree.lookup_entry (ht.at hu) he, Tree.lookup]
    cases hk : e.2 with
    | special => rfl
    | file =>
      have hmem := (copy_mem_order ht hsel hv (childPath S e.1) _).mpr
        ⟨S, hS, [e.1], by rw [hchild, hk], rfl, rfl⟩
      obtain ⟨-, htarget, -⟩ := (ftp_copy_mem hftp hsel _ _).mp ((hcopy _ _).mpr hmem)
      exact absurd htarget (child_target_ne S _ e.1)
    | dir es' =>
      have hmem := (mkdir_mem_order ht hsel hv (childPath (childPath D (lastPart S)) e.1)).mpr
        ⟨S, hS, [e.1], es', by rw [hchild, hk], rfl⟩
      obtain ⟨S', -, -, -, htarget⟩ := (ftp_mkdir_mem hftp hsel _).mp ((hmkdir _).mpr hmem)
      exact absurd htarget (child_target_ne S S' e.1)

theorem same_of_flat (hflat : ∀ S ∈ sel, Flat t S) :
    (∀ src dest, .copy src dest ∈ ftpOrder.flatMap Item.calls ↔
      .copy src dest ∈ order.flatMap Item.calls) ∧
    ∀ path, .mkdir path ∈ ftpOrder.flatMap Item.calls ↔
      .mkdir path ∈ order.flatMap Item.calls := by
  constructor
  · intro src dest
    rw [ftp_copy_mem hftp hsel, copy_mem_order ht hsel hv]
    constructor
    · rintro ⟨hS, rfl, hu | hu⟩
      · exact ⟨src, hS, [], by simpa using hu, rfl, rfl⟩
      · exact absurd hu (hflat src hS).1
    · rintro ⟨S, hS, r, hr, rfl, rfl⟩
      cases r with
      | nil => exact ⟨hS, rfl, .inl (by simpa [joinPath] using hr)⟩
      | cons n r => cases lookup_below_flat (hflat S hS) hr
  · intro path
    rw [ftp_mkdir_mem hftp hsel, mkdir_mem_order ht hsel hv]
    constructor
    · rintro ⟨S, hS, es, hu, rfl⟩
      exact ⟨S, hS, [], es, by simpa using hu, rfl⟩
    · rintro ⟨S, hS, r, es, hr, rfl⟩
      cases r with
      | nil => exact ⟨S, hS, es, by simpa using hr, rfl⟩
      | cons n r => cases lookup_below_flat (hflat S hS) hr

end Iff

theorem queued_ftpSelected {lp : Loop Dirs} {srcPkg destPkg : TaskPackage} {w : Dirs}
    (hsees : ∀ S ∈ srcPkg.files, ∀ u, t.lookup (components S) = some u → Sees lp S u.ftpView)
    (hsel : ∀ S ∈ srcPkg.files, t.lookup (components S) ≠ none)
    (hdest : destPkg.files = [D]) (hD : components D ∈ w) :
    Queued srcPkg destPkg lp (ftpSelected t srcPkg.files D)
      (setTransportInfo srcPkg destPkg (State.new w)) := by
  refine ⟨?_, ?_, ?_, rfl⟩
  · rw [ready_setTransportInfo t hdest, ftpSelected, List.map_map]
    rfl
  · refine List.forall_mem_map.mpr (List.forall_mem_map.mpr fun S hS => ?_)
    obtain ⟨u, hu⟩ := Option.ne_none_iff_exists'.mp (hsel S hS)
    rw [hu, Option.getD_some]
    exact hsees S hS u hu
  · exact List.forall_mem_map.mpr (List.forall_mem_map.mpr fun _ _ => hD)

/-- The two runs, that from the FTP host and that from the SFTP host, and what they visit. -/
def RunsBoth (lp sftp : Loop Dirs) (start : State Dirs) (visits : State Dirs → State Dirs → Prop) :
    Prop :=
  ∃ fuel s fuel' s', lp.run fuel start = some s ∧ sftp.run fuel' start = some s' ∧ visits s s'

section Source

variable (ht : t.Named) {srcPkg destPkg : TaskPackage} (hne : srcPkg.files ≠ [])
  (hsel : ∀ S ∈ srcPkg.files, t.lookup (components S) ≠ none) (hdest : destPkg.files = [D])
  {w : Dirs} (hD : components D ∈ w) {lp : Loop Dirs} (hconnect : ∀ w, lp.connect w = (none, w))
  (hcopy : CopySucceeds lp.copyFile)
  {copySftp : QString → QString → State Dirs → Option (State Dirs)} (hsftp : CopySucceeds copySftp)

include ht hne hsel hdest hD hconnect hcopy hsftp

theorem same_iff_flat
    (hsees : ∀ S ∈ srcPkg.files, ∀ u, t.lookup (components S) = some u → Sees lp S u.ftpView) :
    RunsBoth lp (runSftpToFile connected copySftp t.sftpHost Dirs.localDisk)
      (setTransportInfo srcPkg destPkg (State.new w))
      fun s s' => (SameVisits s s' ↔ ∀ S ∈ srcPkg.files, Flat t S) ∧
        ∀ S ∈ srcPkg.files, ∀ es, t.lookup (components S) = some (.dir es) →
          .mkdir (childPath D (lastPart S)) ∈ s.calls := by
  have hq : selected t srcPkg.files D ≠ [] := by simpa [selected] using hne
  obtain ⟨order, fuel', s', hv, hrun', h'⟩ := run_traversed (fun _ => rfl) hsftp hq
    (queued_selected (fun src u hu => sees_of_acts ht (fun _ _ => acts_sftpToFile copySftp ht) hu)
      hsel hdest hD)
  have hqf : ftpSelected t srcPkg.files D ≠ [] := by simpa [ftpSelected, selected] using hne
  obtain ⟨ftpOrder, fuel, s, hftp, hrun, h⟩ :=
    run_traversed hconnect hcopy hqf (queued_ftpSelected hsees hsel hdest hD)
  have hcalls : s.calls = ftpOrder.flatMap Item.calls := h.calls
  have hcalls' : s'.calls = order.flatMap Item.calls := h'.calls
  refine ⟨fuel, s, fuel', s', hrun, hrun', ?_, fun S hS es hu => ?_⟩
  · unfold SameVisits
    rw [hcalls, hcalls']
    exact ⟨fun h => flat_of_same ht hsel hv hftp h.1 h.2, same_of_flat ht hsel hv hftp⟩
  · rw [hcalls]
    exact (ftp_mkdir_mem hftp hsel _).mpr ⟨S, hS, es, hu, rfl⟩

theorem same_iff_file (hnone : ∀ src w, lp.list src w = none)
    (hsees : ∀ {list : QString → Dirs → Option (List QString × Dirs)} {S : QString} {u : Tree},
      (∀ es, u.ftpView = .dir es → ∀ w, list S w = some (es.map Prod.fst, w)) →
      t.lookup (components S) = some u → Sees (lp.withList list) S u.ftpView) :
    RunsBoth lp (runSftpToFile connected copySftp t.sftpHost Dirs.localDisk)
        (setTransportInfo srcPkg destPkg (State.new w)) SameVisits ↔
      ∀ S ∈ srcPkg.files, t.lookup (components S) = some .file := by
  constructor
  · rintro ⟨fuel, s, fuel', s', hrun, hrun', hsame⟩ S hS
    obtain ⟨hlisted, hmade⟩ := run_withList hnone hcopy (ftpListing true t.ftpHost) hconnect hrun
    have hconnect' : ∀ w, (lp.withList (ftpListing true t.ftpHost)).connect w = (none, w) := hconnect
    obtain ⟨fuel₁, s₁, fuel₁', s₁', hrun₁, hrun₁', hiff, hdir⟩ :=
      same_iff_flat ht hne hsel hdest hD hconnect' hcopy hsftp
        fun S _ u hu => hsees (fun es hes w => ftpListing_spec hu hes w) hu
    obtain rfl := run_unique hrun₁ hlisted
    obtain rfl := run_unique hrun₁' hrun'
    obtain ⟨u, hu⟩ := Option.ne_none_iff_exists'.mp (hsel S hS)
    cases u with
    | file => exact hu
    | special => exact absurd hu (hiff.mp hsame S hS).1
    | dir es => cases hmade _ (hdir S hS es hu)
  · intro hfile
    have hview : ∀ S ∈ srcPkg.files, ∀ u, t.lookup (components S) = some u →
        Sees (lp.withList lp.list) S u.ftpView := by
      intro S hS u hu
      obtain rfl : Tree.file = u := Option.some.inj ((hfile S hS).symm.trans hu)
      exact hsees (fun es hes => by cases hes) hu
    obtain ⟨fuel, s, fuel', s', hrun, hrun', hiff, -⟩ :=
      same_iff_flat ht hne hsel hdest hD hconnect hcopy hsftp hview
    refine ⟨fuel, s, fuel', s', hrun, hrun', hiff.mpr fun S hS => ?_⟩
    exact ⟨by simp [hfile S hS], fun es hes => by simp [hfile S hS] at hes⟩

end Source

/-- **When a transfer from an FTP host visits what the transfer from an SFTP host visits.** -/
theorem ftp_visits_same_iff (t : Tree) (ht : t.Named) (srcPkg destPkg : TaskPackage)
    (hne : srcPkg.files ≠ []) (hsel : ∀ S ∈ srcPkg.files, t.lookup (components S) ≠ none)
    (D : QString) (hdest : destPkg.files = [D]) (w : Dirs) (hD : components D ∈ w)
    (copy copySftp : QString → QString → State Dirs → Option (State Dirs))
    (hcopy : CopySucceeds copy) (hsftp : CopySucceeds copySftp) :
    let start := setTransportInfo srcPkg destPkg (State.new w)
    let sftp := runSftpToFile connected copySftp t.sftpHost Dirs.localDisk
    RunsBoth (runFtpToFile connected copy t.ftpHost Dirs.localDisk) sftp start
        (fun s s' => SameVisits s s' ↔ ∀ S ∈ srcPkg.files, Flat t S) ∧
      ∀ lp ∈ [runFtpToFtp connected copy t.ftpHost Dirs.ftpHost,
          runFtpToSftp connected copy t.ftpHost Dirs.sftpHost],
        RunsBoth lp sftp start SameVisits ↔
          ∀ S ∈ srcPkg.files, t.lookup (components S) = some .file := by
  intro start sftp
  constructor
  · obtain ⟨fuel, s, fuel', s', hrun, hrun', hiff, -⟩ := same_iff_flat ht hne hsel hdest hD
      (fun _ => rfl) hcopy hsftp fun S _ u hu => sees_ftpToFile copy hu
    exact ⟨fuel, s, fuel', s', hrun, hrun', hiff⟩
  · intro lp hlp
    simp only [List.mem_cons, List.not_mem_nil, or_false] at hlp
    rcases hlp with rfl | rfl
    · exact same_iff_file ht hne hsel hdest hD (fun _ => rfl) hcopy hsftp (fun _ _ => rfl)
        (sees_ftpToFtp copy)
    · exact same_iff_file ht hne hsel hdest hD (fun _ => rfl) hcopy hsftp (fun _ _ => rfl)
        (sees_ftpToSftp copy)

theorem ftp_visits_same_file :
    let start := setTransportInfo (remotePkg ["/a/f".toList]) (localPkg ["/d".toList])
      (State.new [["d".toList]])
    let sftp := runSftpToFile connected (fun _ _ s => some s) exampleTree.sftpHost Dirs.localDisk
    RunsBoth (runFtpToFile connected (fun _ _ s => some s) exampleTree.ftpHost Dirs.localDisk) sftp
        start (fun s s' => SameVisits s s' ↔ ∀ S ∈ ["/a/f".toList], Flat exampleTree S) ∧
      ∀ lp ∈ [runFtpToFtp connected (fun _ _ s => some s) exampleTree.ftpHost Dirs.ftpHost,
          runFtpToSftp connected (fun _ _ s => some s) exampleTree.ftpHost Dirs.sftpHost],
        RunsBoth lp sftp start SameVisits ↔
          ∀ S ∈ ["/a/f".toList], exampleTree.lookup (components S) = some .file :=
  ftp_visits_same_iff exampleTree exampleTree_named (remotePkg ["/a/f".toList])
    (localPkg ["/d".toList]) (by decide) (by simp [remotePkg]; decide) "/d".toList rfl
    [["d".toList]] (by decide) (fun _ _ s => some s) (fun _ _ s => some s)
    (fun _ _ s => ⟨s.errorString, s.fileConflictResolveMethod, rfl⟩)
    (fun _ _ s => ⟨s.errorString, s.fileConflictResolveMethod, rfl⟩)


theorem ftp_misses_file :
    ∃ s s',
      (runFtpToFile connected (fun _ _ s => some s) exampleTree.ftpHost Dirs.localDisk).run 5
        (setTransportInfo (remotePkg ["/a".toList]) (localPkg ["/d".toList])
          (State.new [["d".toList]])) = some s ∧
      (runSftpToFile connected (fun _ _ s => some s) exampleTree.sftpHost Dirs.localDisk).run 5
        (setTransportInfo (remotePkg ["/a".toList]) (localPkg ["/d".toList])
          (State.new [["d".toList]])) = some s' ∧
      ¬ SameVisits s s' := by
  -- The directory `a` is made, and its file is left behind.
  have hftp : ((runFtpToFile connected (fun _ _ s => some s) exampleTree.ftpHost
      Dirs.localDisk).run 5 (setTransportInfo (remotePkg ["/a".toList]) (localPkg ["/d".toList])
        (State.new [["d".toList]]))).any
      (fun s => Call.copy "/a/f".toList "/d/a/f".toList ∉ s.calls) = true := by decide
  have hsftp : ((runSftpToFile connected (fun _ _ s => some s) exampleTree.sftpHost
      Dirs.localDisk).run 5 (setTransportInfo (remotePkg ["/a".toList]) (localPkg ["/d".toList])
        (State.new [["d".toList]]))).any
      (fun s => Call.copy "/a/f".toList "/d/a/f".toList ∈ s.calls) = true := by decide
  obtain ⟨s, hs, hmissed⟩ := (Option.any_eq_true _ _).mp hftp
  obtain ⟨s', hs', hcopied⟩ := (Option.any_eq_true _ _).mp hsftp
  refine ⟨s, s', hs, hs', fun h => ?_⟩
  exact of_decide_eq_true hmissed ((h.1 _ _).mpr (of_decide_eq_true hcopied))

end NullFxp.Transportor
