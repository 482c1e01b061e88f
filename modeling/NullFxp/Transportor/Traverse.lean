import NullFxp.Transportor.Tree

/-!
# Copying a tree

The queue loops when everything that they call succeeds. The world is the directories of the
destination, by the names along their paths.
-/

open Worklist
open scoped List

namespace NullFxp.Transportor

abbrev Dirs := List (List QString)

/-! ## How many rounds are enough does not matter -/

section Fuel

variable {σ : Type} {lp : Loop σ} {s t t' : State σ}

theorem loop_add {fuel : Nat} (h : lp.loop fuel s = some t) (more : Nat) :
    lp.loop (fuel + more) s = some t := by
  induction fuel generalizing s with
  | zero => cases h
  | succ fuel ih =>
    rw [Nat.add_right_comm]
    unfold Loop.loop at h ⊢
    obtain ⟨r, hr, h⟩ := Option.bind_eq_some_iff.mp h
    rw [hr, Option.bind_some]
    cases r with
    | broke s => exact h
    | goOn s =>
      simp only at h ⊢
      split
      · next hgoes =>
        rw [if_pos hgoes] at h
        exact ih h
      · next hgoes =>
        rw [if_neg hgoes] at h
        exact h

theorem run_unique {fuel fuel' : Nat} (h : lp.run fuel s = some t) (h' : lp.run fuel' s = some t') :
    t = t' := by
  obtain ⟨u, hu, rfl⟩ := Option.map_eq_some_iff.mp h
  obtain ⟨u', hu', rfl⟩ := Option.map_eq_some_iff.mp h'
  have hsum := loop_add hu fuel'
  rw [Nat.add_comm, loop_add hu' fuel] at hsum
  rw [Option.some.inj hsum]

end Fuel

/-! ## A loop on a tree -/

/-- The routine for one file leaves the queue, the error code and the cancel flag alone. -/
def CopySucceeds (copy : QString → QString → State Dirs → Option (State Dirs)) : Prop :=
  ∀ src dest s, ∃ text method,
    copy src dest s = some { s with errorString := text, fileConflictResolveMethod := method }

/-- What processing an entry does, going by what the entry is. -/
def Acts (lp : Loop Dirs) (src : QString) (t : Tree) : Prop :=
  ∀ srcPkg destPkg dest (s : State Dirs), components dest ∈ s.world →
    lp.process srcPkg destPkg src dest s =
      match t with
      | .file => lp.copyBranch src dest s
      | .special => some { s with errorCode := errnoTaskInvalid }
      | .dir es =>
        let target := childPath dest (lastPart src)
        some (Loop.queueEntries srcPkg destPkg src target (es.map Prod.fst)
          (State.called { s with world := components target :: s.world } (.mkdir target)))

/-- The loop finds the tree at `src`. -/
inductive Sees (lp : Loop Dirs) : QString → Tree → Prop where
  | intro {src : QString} {t : Tree} (acts : Acts lp src t)
      (entries : ∀ es, t = .dir es → ∀ e ∈ es, Sees lp (childPath src e.1) e.2) : Sees lp src t

section Run

variable {lp : Loop Dirs} (srcPkg destPkg : TaskPackage)

def Item.pair (i : Item) : TaskPackage × TaskPackage := (srcPkg.setFile i.src, destPkg.setFile i.dest)

structure Queued (lp : Loop Dirs) (q : List Item) (s : State Dirs) : Prop where
  ready : s.readyQueue = q.map (Item.pair srcPkg destPkg)
  sees : ∀ i ∈ q, Sees lp i.src i.tree
  dirs : ∀ i ∈ q, components i.dest ∈ s.world
  goesOn : s.userCanceled = false

def codeAfter (i : Item) (code : Int) : Int :=
  match i.tree with
  | .special => errnoTaskInvalid
  | _ => code

structure Rounded (lp : Loop Dirs) (i : Item) (q : List Item) (s s' : State Dirs) : Prop where
  queued : Queued srcPkg destPkg lp (q ++ i.next) s'
  calls : s'.calls = s.calls ++ i.calls
  done : s'.doneQueue = s.doneQueue ++ [i.pair srcPkg destPkg]
  errorCode : s'.errorCode = codeAfter i s.errorCode

variable {srcPkg destPkg}

theorem round_spec (hconnect : ∀ w, lp.connect w = (none, w)) (hcopy : CopySucceeds lp.copyFile)
    {i : Item} {q : List Item} {s : State Dirs} (h : Queued srcPkg destPkg lp (i :: q) s) :
    ∃ s', lp.round s = some (.goOn s') ∧ Rounded srcPkg destPkg lp i q s s' := by
  obtain ⟨isrc, idest, t⟩ := i
  obtain ⟨hi, hq⟩ := List.forall_mem_cons.mp h.sees
  obtain ⟨hdi, hdq⟩ := List.forall_mem_cons.mp h.dirs
  obtain ⟨acts, entries⟩ := hi
  have hround : lp.round s =
      (lp.process (srcPkg.setFile isrc) (destPkg.setFile idest) isrc idest
        (s.called (.newFileStarted isrc idest))).map fun s =>
          .goOn (Loop.afterPair (srcPkg.setFile isrc) (destPkg.setFile idest) s) :=
    lp.round_eq h.ready (hconnect s.world)
  have hact := acts (srcPkg.setFile isrc) (destPkg.setFile idest) idest
    (s.called (.newFileStarted isrc idest)) hdi
  rw [hround, hact]
  cases t with
  | file =>
    obtain ⟨text, method, hc⟩ := hcopy isrc (childPath idest (lastPart isrc))
      ((s.called (.newFileStarted isrc idest)).called
        (.copy isrc (childPath idest (lastPart isrc))))
    have hcopied : lp.copyBranch isrc idest (s.called (.newFileStarted isrc idest)) = _ := hc
    refine ⟨_, congrArg (Option.map _) hcopied, ⟨?_, ?_, ?_, h.goesOn⟩, ?_, rfl, rfl⟩
    · simp [Loop.afterPair, State.called, h.ready, Item.next]
    · simpa [Item.next] using hq
    · simpa [Item.next, Loop.afterPair, State.called] using hdq
    · simp [Loop.afterPair, State.called, Item.calls, Item.target]
  | special =>
    refine ⟨_, rfl, ⟨?_, ?_, ?_, h.goesOn⟩, rfl, rfl, rfl⟩
    · simp [Loop.afterPair, State.called, h.ready, Item.next]
    · simpa [Item.next] using hq
    · simpa [Item.next, Loop.afterPair, State.called] using hdq
  | dir es =>
    refine ⟨_, rfl, ⟨?_, ?_, ?_, h.goesOn⟩, ?_, rfl, rfl⟩
    · simp [Loop.afterPair, Loop.queueEntries, State.called, h.ready, Item.next, Item.pair,
        Item.target, TaskPackage.setFile]
    · refine List.forall_mem_append.mpr ⟨hq, List.forall_mem_map.mpr ?_⟩
      exact fun e he => entries es rfl e he
    · refine List.forall_mem_append.mpr ⟨fun i hi => List.mem_cons_of_mem _ (hdq i hi), ?_⟩
      exact List.forall_mem_map.mpr fun e _ => List.mem_cons_self
    · simp [Loop.afterPair, Loop.queueEntries, State.called, Item.calls, Item.target]

/-- What a whole run has done, when it has taken the entries in `order`. -/
structure Traversed (srcPkg destPkg : TaskPackage) (order : List Item) (s s' : State Dirs) : Prop where
  ready : s'.readyQueue = []
  goesOn : s'.userCanceled = false
  calls : s'.calls = s.calls ++ order.flatMap Item.calls
  done : s'.doneQueue = s.doneQueue ++ order.map (Item.pair srcPkg destPkg)
  errorCode : s'.errorCode = order.foldl (fun code i => codeAfter i code) s.errorCode

theorem loop_spec (hconnect : ∀ w, lp.connect w = (none, w)) (hcopy : CopySucceeds lp.copyFile)
    {q order : List Item} (hv : Visits Item.next q order) {s : State Dirs}
    (hq : q ≠ []) (h : Queued srcPkg destPkg lp q s) :
    ∃ s', lp.loop order.length s = some s' ∧ Traversed srcPkg destPkg order s s' := by
  induction hv generalizing s with
  | nil => exact absurd rfl hq
  | @cons i q order hv ih =>
    obtain ⟨t, hround, ht⟩ := round_spec hconnect hcopy h
    rw [List.length_cons, Loop.loop, hround, Option.bind_some]
    by_cases hempty : q ++ i.next = []
    · -- the last entry
      rw [hempty] at hv
      cases hv
      have hready : t.readyQueue = [] := by rw [ht.queued.ready, hempty, List.map_nil]
      refine ⟨t, by simp [hready], hready, ht.queued.goesOn, ?_, ?_, ?_⟩
      · rw [ht.calls, List.flatMap_singleton]
      · rw [ht.done, List.map_singleton]
      · exact ht.errorCode
    · have hready : t.readyQueue ≠ [] := by
        rw [ht.queued.ready]
        simpa using hempty
      obtain ⟨s', hs', h'⟩ := ih hempty ht.queued
      refine ⟨s', by simp [hready, ht.queued.goesOn, hs'], h'.ready, h'.goesOn, ?_, ?_, ?_⟩
      · rw [h'.calls, ht.calls, List.flatMap_cons, List.append_assoc]
      · rw [h'.done, ht.done, List.map_cons, List.append_assoc, List.singleton_append]
      · rw [h'.errorCode, ht.errorCode, List.foldl_cons]

/-- **Whatever the loop finds below the selected entries is taken, in some order.** -/
theorem run_traversed (hconnect : ∀ w, lp.connect w = (none, w))
    (hcopy : CopySucceeds lp.copyFile) {q : List Item} {s : State Dirs} (hq : q ≠ [])
    (h : Queued srcPkg destPkg lp q s) :
    ∃ order fuel s', Visits Item.next q order ∧ lp.run fuel s = some s' ∧
      Traversed srcPkg destPkg order { s with errorCode := 0 } s' := by
  obtain ⟨order, hv⟩ := closed_all.visits q
  obtain ⟨s', hs', h'⟩ := loop_spec hconnect hcopy hv hq
    (s := { s with errorCode := 0, errorString := "No error.".toList })
    ⟨h.ready, h.sees, h.dirs, h.goesOn⟩
  refine ⟨order, order.length, s', hv, ?_, h'.ready, h'.goesOn, h'.calls, h'.done, h'.errorCode⟩
  rw [Loop.run, hs', Option.map_some, Loop.finish, if_neg (by simp [h'.goesOn])]

end Run

/-! ## Hosts on which everything succeeds -/

namespace Tree

def kind : Tree → Kind
  | .file => .reg
  | .special => .special
  | .dir _ => .dir

/-- What `readdir` returns, when the tree is a directory. -/
def readdir : Tree → Option (List QString)
  | .dir es => some (['.'] :: ['.', '.'] :: es.map Prod.fst)
  | _ => none

/-- `stat` on the side that the tree is on -/
def stat (t : Tree) (path : QString) (w : Dirs) : Option Kind × Dirs :=
  ((t.lookup (components path)).map kind, w)

def opendir (t : Tree) (path : QString) (w : Dirs) : Option (List QString) × Dirs :=
  ((t.lookup (components path)).bind readdir, w)

def localDisk (t : Tree) : LocalDisk Dirs := ⟨t.stat, t.opendir, fun _ w => (false, w)⟩

def sftpHost (t : Tree) : SftpHost Dirs := ⟨t.stat, t.opendir, fun _ w => (false, w)⟩

def ftpHost (t : Tree) : FtpHost Dirs :=
  ⟨fun path w => ((t.stat path w).1 = some .dir, w), t.opendir, fun _ w => (false, w)⟩

end Tree

namespace Dirs

/-- `stat` at the destination. Only its directories matter. -/
def stat (path : QString) (w : Dirs) : Option Kind × Dirs :=
  (if components path ∈ w then some .dir else none, w)

def mkdir (path : QString) (w : Dirs) : Bool × Dirs := (true, components path :: w)

def localDisk : LocalDisk Dirs := ⟨stat, fun _ w => (none, w), mkdir⟩

def sftpHost : SftpHost Dirs := ⟨stat, fun _ w => (none, w), mkdir⟩

def ftpHost : FtpHost Dirs :=
  ⟨fun path w => ((stat path w).1 = some .dir, w), fun _ w => (none, w), mkdir⟩

end Dirs

def connected (w : Dirs) : Option QString × Dirs := (none, w)

section Found

variable {copy : QString → QString → State Dirs → Option (State Dirs)} {t u : Tree}
  {src : QString}

theorem filter_dots {es : List (QString × Tree)} (h : ∀ e ∈ es, IsName e.1) :
    (es.map Prod.fst).filter (! isDots ·) = es.map Prod.fst := by
  refine List.filter_eq_self.mpr (List.forall_mem_map.mpr fun e he => ?_)
  simp [isDots, (h e he).2.2.1, (h e he).2.2.2]

theorem readdir_dots {es : List (QString × Tree)} (h : ∀ e ∈ es, IsName e.1) :
    (['.'] :: ['.', '.'] :: es.map Prod.fst).filter (! isDots ·) = es.map Prod.fst := by
  rw [List.filter_cons_of_neg (by decide), List.filter_cons_of_neg (by decide), filter_dots h]

theorem components_slash (path : QString) : components (path ++ ['/']) = components path := by
  rw [components, List.splitOn_append_cons_self, List.filter_append]
  simp [components, List.splitOn]

theorem fxpDoLsDir_spec (ht : t.Named) {es : List (QString × Tree)}
    (h : t.lookup (components src) = some (.dir es)) (w : Dirs) :
    fxpDoLsDir t.sftpHost (src ++ ['/']) w = some (es.map Prod.fst, w) := by
  simp only [fxpDoLsDir, Tree.sftpHost, Tree.opendir, components_slash, h, Option.bind_some,
    Tree.readdir, Option.getD_some]
  rw [readdir_dots (ht _ es h).2]

theorem statEntries_spec {es : List (QString × Tree)} {w : Dirs}
    (hnames : ∀ e ∈ es, IsName e.1)
    (hstat : ∀ e ∈ es, (t.stat (childPath src e.1) w).1 ≠ none) :
    statEntries t.localDisk src (es.map Prod.fst) w = (es.map Prod.fst, w) := by
  induction es with
  | nil => rfl
  | cons e es ih =>
    obtain ⟨hn, hns⟩ := List.forall_mem_cons.mp hnames
    obtain ⟨hs, hss⟩ := List.forall_mem_cons.mp hstat
    have hdots : isDots e.1 = false := by simp [isDots, hn.2.2.1, hn.2.2.2]
    have hsome : (t.stat (childPath src e.1) w).1.isSome = true := Option.isSome_iff_ne_none.mpr hs
    have hrest : statEntries t.localDisk src (es.map Prod.fst) w = _ := ih hns hss
    simp only [List.map_cons, statEntries, hdots, Tree.localDisk] at hrest ⊢
    simp [Tree.stat] at hrest hsome ⊢
    simp [hrest, hsome]

theorem lookup_child (ht : t.Named) {es : List (QString × Tree)}
    (h : t.lookup (components src) = some (.dir es)) {e : QString × Tree} (he : e ∈ es) :
    t.lookup (components (childPath src e.1)) = some e.2 := by
  have hes := ht.at h
  rw [components_childPath src e.1 ((ht _ es h).2 e he), Tree.lookup_append, h, Option.bind_some,
    Tree.lookup_entry hes he, Tree.lookup]

theorem fxpLocalDoLs_spec (ht : t.Named) {es : List (QString × Tree)}
    (h : t.lookup (components src) = some (.dir es)) (w : Dirs) :
    fxpLocalDoLs t.localDisk src w = some (es.map Prod.fst, w) := by
  have hstat : ∀ e ∈ es, (t.stat (childPath src e.1) w).1 ≠ none := by
    intro e he
    simp [Tree.stat, lookup_child ht h he]
  have hentries := statEntries_spec (ht _ es h).2 hstat
  have hdots : statEntries t.localDisk src (['.'] :: ['.', '.'] :: es.map Prod.fst) w =
      (es.map Prod.fst, w) := by
    rw [statEntries, if_pos (by decide), statEntries, if_pos (by decide), hentries]
  simp only [fxpLocalDoLs, Tree.localDisk, Tree.opendir, h, Option.bind_some, Tree.readdir,
    Option.map_some] at hdots ⊢
  rw [hdots]

theorem acts_of_prims {lp : Loop Dirs}
    (hfile : ∀ dest w, components dest ∈ w →
      lp.fileToDir src dest w = some (decide (u.kind = .reg), w))
    (hdir : ∀ dest w, components dest ∈ w →
      lp.dirToDir src dest w = some (decide (u.kind = .dir), w))
    (hlist : ∀ es, u = .dir es → ∀ w, lp.list src w = some (es.map Prod.fst, w))
    (hmkdir : ∀ path w, lp.mkdir path w = some (components path :: w)) : Acts lp src u := by
  intro srcPkg destPkg dest s hs
  have hbranch : ∀ es, u = .dir es → lp.dirBranch srcPkg destPkg src dest s =
      let target := childPath dest (lastPart src)
      some (Loop.queueEntries srcPkg destPkg src target (es.map Prod.fst)
        (State.called { s with world := components target :: s.world } (.mkdir target))) := by
    intro es hes
    simp only [Loop.dirBranch, hlist es hes, hmkdir, Option.bind_some]
  cases hfirst : lp.dirFirst <;> cases u <;>
    simp [Loop.process, Loop.branch, Loop.ifElse, hfirst, hfile _ _ hs, hdir _ _ hs, Tree.kind,
      hbranch]

theorem remoteIs_spec (h : t.lookup (components src) = some u) (k : Kind) (w : Dirs) :
    remoteIs k t.sftpHost src w = some (decide (u.kind = k), w) := by
  simp [remoteIs, Tree.sftpHost, Tree.stat, h]

theorem isFile_spec (h : t.lookup (components src) = some u) (w : Dirs) :
    t.localDisk.isFile src w = some (decide (u.kind = .reg), w) := by
  simp [LocalDisk.isFile, Tree.localDisk, Tree.stat, h]

theorem isDir_spec (h : t.lookup (components src) = some u) (w : Dirs) :
    t.localDisk.isDir src w = some (decide (u.kind = .dir), w) := by
  simp [LocalDisk.isDir, Tree.localDisk, Tree.stat, h]

section Dest

variable {dest : QString} {w : Dirs}

theorem dest_isDir (hw : components dest ∈ w) :
    Dirs.localDisk.isDir dest w = some (true, w) := by
  simp [LocalDisk.isDir, Dirs.localDisk, Dirs.stat, hw]

theorem dest_remoteIsDir (hw : components dest ∈ w) :
    remoteIsDir Dirs.sftpHost dest w = some (true, w) := by
  simp [remoteIsDir, remoteIs, Dirs.sftpHost, Dirs.stat, hw]

theorem dest_isFTPDir (hw : components dest ∈ w) :
    isFTPDir Dirs.ftpHost dest w = some (true, w) := by
  simp [isFTPDir, Dirs.ftpHost, Dirs.stat, hw]

end Dest

theorem sees_of_acts {lp : Loop Dirs} (ht : t.Named)
    (hacts : ∀ src u, t.lookup (components src) = some u → Acts lp src u)
    (h : t.lookup (components src) = some u) : Sees lp src u := by
  induction u using Tree.induction generalizing src with
  | file => exact ⟨hacts src _ h, fun es hes => by cases hes⟩
  | special => exact ⟨hacts src _ h, fun es hes => by cases hes⟩
  | dir es ih =>
    refine ⟨hacts src _ h, fun es' hes e he => ?_⟩
    cases hes
    exact ih e he (lookup_child ht h he)

variable (copy)

theorem acts_sftpToFile (ht : t.Named) (h : t.lookup (components src) = some u) :
    Acts (runSftpToFile connected copy t.sftpHost Dirs.localDisk) src u := by
  refine acts_of_prims (fun dest w hw => ?_) (fun dest w hw => ?_) ?_ (fun _ _ => rfl)
  · cases hk : u.kind <;>
      simp [runSftpToFile, andThen, remoteIsReg, remoteIs_spec h, dest_isDir hw, hk]
  · simp [runSftpToFile, andThen, remoteIsDir, remoteIs_spec h, dest_isDir hw]
  · rintro es rfl w
    exact fxpDoLsDir_spec ht h w

theorem acts_sftpToSftp (ht : t.Named) (h : t.lookup (components src) = some u) :
    Acts (runSftpToSftp connected copy t.sftpHost Dirs.sftpHost) src u := by
  refine acts_of_prims (fun dest w hw => ?_) (fun dest w hw => ?_) ?_ (fun _ _ => rfl)
  · cases hk : u.kind <;>
      simp [runSftpToSftp, andThen, remoteIsReg, remoteIs_spec h, dest_remoteIsDir hw, hk]
  · cases hk : u.kind <;>
      simp [runSftpToSftp, andThen, remoteIsDir, remoteIs_spec h, hk]
    exact dest_remoteIsDir hw
  · rintro es rfl w
    exact fxpDoLsDir_spec ht h w

theorem acts_fileToSftp (ht : t.Named) (h : t.lookup (components src) = some u) :
    Acts (runFileToSftp connected copy t.localDisk Dirs.sftpHost) src u := by
  refine acts_of_prims (fun dest w hw => ?_) (fun dest w hw => ?_) ?_ (fun _ _ => rfl)
  · cases hk : u.kind <;>
      simp [runFileToSftp, andThen, isFile_spec h, dest_remoteIsDir hw, hk]
  · cases hk : u.kind <;>
      simp [runFileToSftp, andThen, isDir_spec h, dest_remoteIsDir hw, hk]
  · rintro es rfl w
    exact fxpLocalDoLs_spec ht h w

end Found

end NullFxp.Transportor
