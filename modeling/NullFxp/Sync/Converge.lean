import NullFxp.Sync.Effect

/-!
# Synchronisation in both directions

The plan of `syncAllFiles(TASK_BOTH)` for two trees, carried out task by task, and the comparison
of the trees after it. No task makes a directory, and the tasks for directories are carried out as
if they were files.
-/

open Runs

namespace NullFxp.Sync

/-! ## The plan -/

/-- The direction that a flag asks for. -/
def Wants (flag : Nat) : Direct → Prop
  | .download => flag = flagRemoteOnly ∨ flag = flagRemoteNewer
  | .upload => flag = flagLocalOnly ∨ flag = flagLocalNewer

theorem mem_syncFile_both {r l : Option Attributes} {flag : Nat} (h : Classified r l flag) (file : File)
    (task : SyncTaskPackage) :
    task ∈ syncFile taskBoth flag file ↔
      task = ⟨file.1, file.2, task.direct⟩ ∧ Wants flag task.direct := by
  obtain ⟨fileName, attr, direct⟩ := task
  cases h with
  | remoteOnly r =>
    rw [syncFile_remoteOnly]
    cases direct <;> simp [syncDownload, Wants, flagRemoteOnly, flagLocalOnly, flagLocalNewer]
  | localOnly l =>
    rw [syncFile_localOnly]
    cases direct <;> simp [syncUpload, Wants, flagLocalOnly, flagRemoteOnly, flagRemoteNewer]
  | remoteNewer =>
    rw [syncFile_remoteNewer]
    cases direct <;> simp [syncDownload, Wants, flagRemoteNewer, flagLocalOnly, flagLocalNewer]
  | localNewer =>
    rw [syncFile_localNewer]
    cases direct <;> simp [syncUpload, Wants, flagLocalNewer, flagRemoteOnly, flagRemoteNewer]
  | equal =>
    rw [syncFile_equal]
    cases direct <;> simp [Wants, flagFileEqual, flagRemoteOnly, flagRemoteNewer, flagLocalOnly,
      flagLocalNewer]
  | different =>
    rw [syncFile_different]
    cases direct <;> simp [Wants, flagFileDifferent, flagRemoteOnly, flagRemoteNewer, flagLocalOnly,
      flagLocalNewer]

/-- The task is for the place `l`. -/
structure Planned (w : World) (task : SyncTaskPackage) (l : Loc) : Prop where
  loc : IsLoc l
  name : task.fileName = rel l
  source : task.direct = .upload → w.here.find l ≠ none

structure Plan (w : World) (tasks : List SyncTaskPackage) : Prop where
  nodup : (tasks.map SyncTaskPackage.fileName).Nodup
  planned : ∀ task ∈ tasks, ∃ l, Planned w task l

/-- The comparison asks for a transfer of `l`. -/
def Wanted (env : Env) (R L : Tree) (l : Loc) (direct : Direct) : Prop :=
  ∃ flag, Classified (remoteRecord env R l) (localRecord L l) flag ∧ Wants flag direct

theorem Classified.upload_found {r l : Option Attributes} {flag : Nat} (h : Classified r l flag)
    (hwants : Wants flag .upload) : l ≠ none := by
  cases h with
  | remoteOnly r => exact absurd hwants (by decide : ¬(_ ∨ _))
  | localOnly l => simp
  | remoteNewer => simp
  | localNewer => simp
  | equal => simp
  | different => simp

theorem Classified.download_found {r l : Option Attributes} {flag : Nat} (h : Classified r l flag)
    (hwants : Wants flag .download) : r ≠ none := by
  cases h with
  | localOnly l => exact absurd hwants (by decide : ¬(_ ∨ _))
  | remoteOnly r => simp
  | remoteNewer => simp
  | localNewer => simp
  | equal => simp
  | different => simp

theorem find_of_wanted_upload {env : Env} {R L : Tree} {l : Loc} (h : Wanted env R L l .upload) :
    L.find l ≠ none ∧ Visible l := by
  obtain ⟨flag, hclass, hwants⟩ := h
  have hlocal := hclass.upload_found hwants
  unfold localRecord at hlocal
  split at hlocal
  · next hvisible => exact ⟨by simpa using hlocal, hvisible⟩
  · exact absurd rfl hlocal

theorem find_of_wanted_download {env : Env} {R L : Tree} {l : Loc} (h : Wanted env R L l .download) :
    R.find l ≠ none := by
  obtain ⟨flag, hclass, hwants⟩ := h
  simpa [remoteRecord] using hclass.download_found hwants

/-- **The plan for two trees**: one task at most for each place, and one for each that differs. -/
theorem plan_both (env : Env) (R L : Tree) :
    ∃ m tasks, SyncWalker.run env R L = some m ∧
      syncAllFiles m.heap taskBoth m.files = some tasks ∧ Plan ⟨R, L⟩ tasks ∧
      ∀ l, IsLoc l → ∀ direct, (∃ task ∈ tasks, task.fileName = rel l ∧ task.direct = direct) ↔
        Wanted env R L l direct := by
  obtain ⟨-, -, m, -, hm, -, hnodup, hlocs, hmarked⟩ := run_marked env R L
  have hlive : ∀ f ∈ m.files, m.heap f.2 ≠ none := by
    intro f hf
    obtain ⟨-, attr, -, -, hattr, -⟩ := hlocs f hf
    simp [hattr]
  have hfiles : ∀ f ∈ m.files, ∃ l, IsLoc l ∧ f.1 = rel l ∧
      Classified (remoteRecord env R l) (localRecord L l) (flagOf m.heap f) := by
    intro f hf
    obtain ⟨l, attr, hl, hrel, hattr, hclass⟩ := hlocs f hf
    rw [flagOf_eq hattr]
    exact ⟨l, hl, hrel, hclass⟩
  have hmem (task : SyncTaskPackage) :
      task ∈ m.files.flatMap (fun f => syncFile taskBoth (flagOf m.heap f) f) ↔
        ∃ f ∈ m.files, task = ⟨f.1, f.2, task.direct⟩ ∧ Wants (flagOf m.heap f) task.direct := by
    rw [List.mem_flatMap]
    refine exists_congr fun f => and_congr_right fun hf => ?_
    obtain ⟨l, -, -, hclass⟩ := hfiles f hf
    exact mem_syncFile_both hclass f task
  refine ⟨m, _, hm, syncAllFiles_eq taskBoth hlive, ⟨?_, ?_⟩, ?_⟩
  · refine hnodup.sublist (fileNames_sublist (fun f hf => ?_) taskBoth)
    obtain ⟨l, -, -, hclass⟩ := hfiles f hf
    exact ⟨_, _, hclass⟩
  · intro task htask
    obtain ⟨f, hf, htask, hwants⟩ := (hmem task).mp htask
    obtain ⟨l, hl, hrel, hclass⟩ := hfiles f hf
    refine ⟨l, hl, by rw [htask, hrel], fun hdirect => ?_⟩
    rw [hdirect] at hwants
    exact (find_of_wanted_upload ⟨_, hclass, hwants⟩).1
  · intro l hl direct
    constructor
    · rintro ⟨task, htask, hname, rfl⟩
      obtain ⟨f, hf, htask, hwants⟩ := (hmem task).mp htask
      obtain ⟨l', hl', hrel, hclass⟩ := hfiles f hf
      rw [htask] at hname
      obtain rfl := rel_inj hl' hl (hrel.symm.trans hname)
      exact ⟨_, hclass, hwants⟩
    · rintro ⟨flag, hclass, hwants⟩
      obtain ⟨f, hf, hname, attr, hattr, rfl⟩ := (hmarked l hl flag).mpr hclass
      refine ⟨⟨f.1, f.2, direct⟩, (hmem _).mpr ⟨f, hf, rfl, ?_⟩, hname, rfl⟩
      rw [flagOf_eq hattr]
      exact hwants

/-! ## Carrying it out -/

def Performed (host : Host) : Direct → Loc → World → World → Prop
  | .download => Downloaded host
  | .upload => Uploaded host

section Run

variable {host : Host} {io : SyncTaskPackage → Io} {w w' : World} {task : SyncTaskPackage}
  {tasks : List SyncTaskPackage} {l k : Loc}

theorem Performed.still {direct : Direct} (h : Performed host direct l w w') (hk : k ≠ l) : Still k w w' := by
  cases direct with
  | download => exact Downloaded.still h hk
  | upload => exact Uploaded.still h hk

theorem Performed.isDir {direct : Direct} (h : Performed host direct l w w') (k : Loc) :
    w'.remote.isDir k = w.remote.isDir k ∧ w'.here.isDir k = w.here.isDir k := by
  cases direct with
  | download => exact Downloaded.isDir h k
  | upload => exact Uploaded.isDir h k

theorem perform_performed (hio : ∀ task, (io task).Fine) (hplanned : Planned w task l)
    (h : w.perform host io task = some w') : Performed host task.direct l w w' := by
  cases hdirect : task.direct with
  | download => exact (perform_download hio hplanned.loc hplanned.name hdirect).1 w' h
  | upload =>
    obtain ⟨node, hnode⟩ := Option.ne_none_iff_exists'.mp (hplanned.source hdirect)
    obtain ⟨w'', hperform, huploaded⟩ := perform_upload hio hplanned.loc hplanned.name hdirect hnode
    rw [h] at hperform
    exact Option.some.inj hperform ▸ huploaded

theorem Plan.next (hio : ∀ task, (io task).Fine) (hplan : Plan w (task :: tasks))
    (h : w.perform host io task = some w') : Plan w' tasks := by
  obtain ⟨hnot, hnodup⟩ := List.nodup_cons.mp hplan.nodup
  obtain ⟨l, hl⟩ := hplan.planned task List.mem_cons_self
  refine ⟨hnodup, fun task' htask' => ?_⟩
  obtain ⟨k, hk⟩ := hplan.planned task' (List.mem_cons_of_mem _ htask')
  have hne : k ≠ l := by
    rintro rfl
    exact hnot (List.mem_map.mpr ⟨task', htask', hk.name.trans hl.name.symm⟩)
  have hstill := (perform_performed hio hl h).still hne
  exact ⟨k, hk.loc, hk.name, fun hdirect hnone => hk.source hdirect (hstill.here.none_iff.mpr hnone)⟩

theorem run_still (hio : ∀ task, (io task).Fine) (hplan : Plan w tasks)
    (hrun : run (World.perform host io) w tasks = some w')
    (hnone : ∀ task ∈ tasks, task.fileName ≠ rel k) : Still k w w' := by
  induction tasks generalizing w with
  | nil =>
    obtain rfl := Option.some.inj hrun
    exact .refl k w
  | cons task tasks ih =>
    obtain ⟨u, hu, hrest⟩ := run_cons.mp hrun
    obtain ⟨l, hl⟩ := hplan.planned task List.mem_cons_self
    have hne : k ≠ l := by
      rintro rfl
      exact hnone task List.mem_cons_self hl.name
    exact ((perform_performed hio hl hu).still hne).trans
      (ih (hplan.next hio hu) hrest fun task htask => hnone task (List.mem_cons_of_mem _ htask))

theorem run_isDir (hio : ∀ task, (io task).Fine) (hplan : Plan w tasks)
    (hrun : run (World.perform host io) w tasks = some w') (k : Loc) :
    w'.remote.isDir k = w.remote.isDir k ∧ w'.here.isDir k = w.here.isDir k := by
  induction tasks generalizing w with
  | nil =>
    obtain rfl := Option.some.inj hrun
    exact ⟨rfl, rfl⟩
  | cons task tasks ih =>
    obtain ⟨u, hu, hrest⟩ := run_cons.mp hrun
    obtain ⟨l, hl⟩ := hplan.planned task List.mem_cons_self
    obtain ⟨hremote, hhere⟩ := ih (hplan.next hio hu) hrest
    obtain ⟨hremote', hhere'⟩ := (perform_performed hio hl hu).isDir k
    exact ⟨hremote.trans hremote', hhere.trans hhere'⟩

theorem run_at (hio : ∀ task, (io task).Fine) (hplan : Plan w tasks)
    (hrun : run (World.perform host io) w tasks = some w') (htask : task ∈ tasks)
    (hplanned : Planned w task l) :
    ∃ w₁ w₂, Still l w w₁ ∧ (∀ k, w₁.remote.isDir k = w.remote.isDir k) ∧
      Performed host task.direct l w₁ w₂ ∧ Still l w₂ w' := by
  induction tasks generalizing w with
  | nil => cases htask
  | cons first tasks ih =>
    obtain ⟨u, hu, hrest⟩ := run_cons.mp hrun
    have hnext := hplan.next hio hu
    obtain ⟨hnot, -⟩ := List.nodup_cons.mp hplan.nodup
    rcases List.mem_cons.mp htask with rfl | htask
    · refine ⟨w, u, .refl l w, fun _ => rfl, perform_performed hio hplanned hu,
        run_still hio hnext hrest fun task' htask' hname => ?_⟩
      exact hnot (List.mem_map.mpr ⟨task', htask', hname.trans hplanned.name.symm⟩)
    · obtain ⟨k, hk⟩ := hplan.planned first List.mem_cons_self
      have hne : l ≠ k := by
        rintro rfl
        exact hnot (List.mem_map.mpr ⟨task, htask, hplanned.name.trans hk.name.symm⟩)
      have hfirst := perform_performed hio hk hu
      have hstill := hfirst.still hne
      have hplanned' : Planned u task l := ⟨hplanned.loc, hplanned.name, fun hdirect hnone =>
        hplanned.source hdirect (hstill.here.none_iff.mpr hnone)⟩
      obtain ⟨w₁, w₂, hbefore, hdirs, hperformed, hafter⟩ := ih hnext hrest htask hplanned'
      exact ⟨w₁, w₂, hstill.trans hbefore, fun k => (hdirs k).trans (hfirst.isDir k).1, hperformed, hafter⟩

/-- A download of `l` finds a place for its file. -/
def CanLand (host : Host) (w : World) (l : Loc) : Prop :=
  ∀ node, Opens host w.remote l node → w.here.find l ≠ none ∨ w.here.isDir l.dropLast = true

theorem Opens.alike {R R' : Tree} (h : Alike (R.find l) (R'.find l)) {node : Node}
    (hopen : Opens host R' l node) : ∃ node', Opens host R l node' := by
  rcases h with h | ⟨⟨size, mtime, h⟩, size', mtime', h'⟩
  · exact ⟨node, h.trans hopen.1, hopen.2⟩
  · obtain rfl := Option.some.inj (h'.symm.trans hopen.1)
    exact ⟨_, h, fun _ => hopen.2 rfl⟩

theorem run_exists (hio : ∀ task, (io task).Fine) (hplan : Plan w tasks)
    (hland : ∀ task ∈ tasks, task.direct = .download → ∀ l, Planned w task l → CanLand host w l) :
    ∃ w', run (World.perform host io) w tasks = some w' := by
  induction tasks generalizing w with
  | nil => exact ⟨w, rfl⟩
  | cons task tasks ih =>
    obtain ⟨l, hl⟩ := hplan.planned task List.mem_cons_self
    have hperform : ∃ u, w.perform host io task = some u := by
      cases hdirect : task.direct with
      | download =>
        rw [← Option.ne_none_iff_exists', ne_eq, (perform_download hio hl.loc hl.name hdirect).2]
        rintro ⟨⟨node, hopen⟩, hnone, hparent⟩
        rcases hland task List.mem_cons_self hdirect l hl node hopen with h | h
        · exact h hnone
        · rw [h] at hparent
          cases hparent
      | upload =>
        obtain ⟨node, hnode⟩ := Option.ne_none_iff_exists'.mp (hl.source hdirect)
        have hupload : ∃ u, w.perform host io task = some u ∧ Uploaded host l w u :=
          perform_upload hio hl.loc hl.name hdirect hnode
        exact hupload.imp fun _ h => h.1
    obtain ⟨u, hu⟩ := hperform
    have hperformed := perform_performed hio hl hu
    obtain ⟨hnot, -⟩ := List.nodup_cons.mp hplan.nodup
    obtain ⟨w', hrest⟩ := ih (hplan.next hio hu) (by
      intro task' htask' hdirect k hk node hopen
      have hne : k ≠ l := by
        rintro rfl
        exact hnot (List.mem_map.mpr ⟨task', htask', hk.name.trans hl.name.symm⟩)
      have hstill := hperformed.still hne
      obtain ⟨node', hopen'⟩ := hopen.alike hstill.remote
      have hplanned : Planned w task' k := ⟨hk.loc, hk.name, fun h => by rw [hdirect] at h; cases h⟩
      rcases hland task' (List.mem_cons_of_mem _ htask') hdirect k hplanned node' hopen' with h | h
      · exact .inl fun hnone => h (hstill.here.none_iff.mpr hnone)
      · exact .inr ((hperformed.isDir _).2.trans h))
    exact ⟨w', run_cons.mpr ⟨u, hu, hrest⟩⟩

end Run

/-! ## The trees after it -/

section Final

variable {host : Host} {io : SyncTaskPackage → Io} {R L : Tree} {w' : World}
  {tasks : List SyncTaskPackage} {l : Loc} {node : Node}

/-- The plan for `R` and `L` was carried out, and left `w'`. -/
structure Carried (host : Host) (io : SyncTaskPackage → Io) (R L : Tree)
    (tasks : List SyncTaskPackage) (w' : World) : Prop where
  fine : ∀ task, (io task).Fine
  plan : Plan ⟨R, L⟩ tasks
  wanted : ∀ l, IsLoc l → ∀ direct, (∃ task ∈ tasks, task.fileName = rel l ∧ task.direct = direct) ↔
    Wanted host.toEnv R L l direct
  ran : run (World.perform host io) ⟨R, L⟩ tasks = some w'

theorem Carried.isDir (h : Carried host io R L tasks w') (k : Loc) :
    w'.remote.isDir k = R.isDir k ∧ w'.here.isDir k = L.isDir k := run_isDir h.fine h.plan h.ran k

theorem Carried.still (h : Carried host io R L tasks w') (hl : IsLoc l)
    (hno : ∀ direct, ¬Wanted host.toEnv R L l direct) : Still l ⟨R, L⟩ w' := by
  apply run_still h.fine h.plan h.ran
  intro task htask hname
  exact hno task.direct ((h.wanted l hl task.direct).mp ⟨task, htask, hname, rfl⟩)

theorem Carried.at (h : Carried host io R L tasks w') (hl : IsLoc l) {direct : Direct}
    (hwanted : Wanted host.toEnv R L l direct) :
    ∃ w₁ w₂, Still l ⟨R, L⟩ w₁ ∧ (∀ k, w₁.remote.isDir k = R.isDir k) ∧
      Performed host direct l w₁ w₂ ∧ Still l w₂ w' := by
  obtain ⟨task, htask, hname, rfl⟩ := (h.wanted l hl direct).mpr hwanted
  refine run_at h.fine h.plan h.ran htask ⟨hl, hname, fun hdirect => ?_⟩
  rw [hdirect] at hwanted
  exact (find_of_wanted_upload hwanted).1

theorem Carried.downloaded (h : Carried host io R L tasks w') (hopen : Opens host R l node)
    (hdir : L.isDir l = false) (hwanted : Wanted host.toEnv R L l .download) :
    w'.here.find l = some (.file node.content node.mtime) ∧ w'.remote.find l = some node := by
  obtain ⟨w₁, w₂, hbefore, -, hperformed, hafter⟩ := h.at (Tree.find_named hopen.1) hwanted
  have hremote : w₁.remote.find l = some node := (hbefore.exactRemote hdir).trans hopen.1
  have hdir₁ : w₁.here.isDir l = false := hbefore.here.isDir.trans hdir
  cases hperformed with
  | closed hclosed => exact absurd ⟨hremote, hopen.2⟩ (hclosed node)
  | @stored node' here hopen' _ hstored =>
    obtain rfl : node = node' := Option.some.inj (hremote.symm.trans hopen'.1)
    have hhere : here.find l = some (.file node.content node.mtime) := by rw [hstored l, if_pos rfl]
    refine ⟨(hafter.here.file hhere).trans hhere, ?_⟩
    rw [hafter.exactRemote (Tree.isDir_of_find hhere)]
    exact hremote
  | touched _ hdir' _ =>
    rw [hdir₁] at hdir'
    cases hdir'

theorem storable_isDir {T : Tree} (hl : l ≠ []) (h : Storable T l) : T.isDir l = false := by
  rcases h with ⟨content, mtime, hfind⟩ | ⟨hfind, -⟩
  · rw [Tree.isDir_of_find hfind]
    rfl
  · simp [Tree.isDir, hfind, hl]

theorem Carried.uploaded (h : Carried host io R L tasks w') (hnode : L.find l = some node)
    (hstorable : Storable R l) (hwanted : Wanted host.toEnv R L l .upload) :
    w'.remote.find l = some (.file node.content node.mtime) ∧ w'.here.find l = some node := by
  have hl := Tree.find_named hnode
  obtain ⟨w₁, w₂, hbefore, hdirs, hperformed, hafter⟩ := h.at hl hwanted
  have hhere : w₁.here.find l = some node :=
    (hbefore.exactHere (storable_isDir hl.1 hstorable)).trans hnode
  have hstorable₁ : Storable w₁.remote l := by
    rcases hstorable with ⟨content, mtime, hfind⟩ | ⟨hnone, hparent⟩
    · exact .inl ⟨content, mtime, (hbefore.remote.file hfind).trans hfind⟩
    · exact .inr ⟨hbefore.remote.none_iff.mp hnone, (hdirs _).trans hparent⟩
  cases hperformed with
  | closed hclosed => exact absurd hstorable₁ hclosed
  | @stored node' remote hnode' _ hstored =>
    obtain rfl : node = node' := Option.some.inj (hhere.symm.trans hnode')
    have hremote : remote.find l = some (.file node.content node.mtime) := by
      rw [hstored l, if_pos rfl]
    refine ⟨(hafter.remote.file hremote).trans hremote, ?_⟩
    rw [hafter.exactHere (Tree.isDir_of_find hremote)]
    exact hhere

theorem Carried.remote_new (h : Carried host io R L tasks w') (hnone : R.find l = none)
    (hfile : w'.remote.IsFile l) : Wanted host.toEnv R L l .upload ∧ R.isDir l.dropLast = true := by
  obtain ⟨content, mtime, hfind⟩ := hfile
  have hl := Tree.find_named hfind
  refine ⟨?_, (h.isDir _).1 ▸ Tree.isDir_parent hfind⟩
  by_contra hno
  have hsame : Alike (R.find l) (w'.remote.find l) := by
    by_cases hdown : Wanted host.toEnv R L l .download
    · exact absurd hnone (find_of_wanted_download hdown)
    · refine (h.still hl fun direct => ?_).remote
      cases direct with
      | download => exact hdown
      | upload => exact hno
  rw [hsame.none_iff.mp hnone] at hfind
  cases hfind

theorem Carried.here_new (h : Carried host io R L tasks w') (hnone : L.find l = none)
    (hfile : w'.here.IsFile l) :
    Wanted host.toEnv R L l .download ∧ L.isDir l.dropLast = true ∧ ∃ node, Opens host R l node := by
  obtain ⟨content, mtime, hfind⟩ := hfile
  have hl := Tree.find_named hfind
  have hup : ¬Wanted host.toEnv R L l .upload := fun hup => (find_of_wanted_upload hup).1 hnone
  have hdown : Wanted host.toEnv R L l .download := by
    by_contra hdown
    have hstill := h.still hl fun direct => by
      cases direct with
      | download => exact hdown
      | upload => exact hup
    rw [hstill.here.none_iff.mp hnone] at hfind
    cases hfind
  refine ⟨hdown, (h.isDir _).2 ▸ Tree.isDir_parent hfind, ?_⟩
  obtain ⟨w₁, w₂, hbefore, -, hperformed, hafter⟩ := h.at hl hdown
  cases hperformed with
  | closed hclosed =>
    rw [(hbefore.trans hafter).here.none_iff.mp hnone] at hfind
    cases hfind
  | stored hopen _ _ => exact hopen.alike hbefore.remote
  | touched hopen _ _ => exact hopen.alike hbefore.remote

end Final

/-! ## What the comparison says of a place -/

theorem classified_equal_iff {r l : Option Attributes} :
    Classified r l flagFileEqual ↔ ∃ rattr lattr, r = some rattr ∧ l = some lattr ∧
      rattr.mtime ≤ lattr.mtime + 2 ∧ lattr.mtime ≤ rattr.mtime + 2 ∧
      rattr.filesize = lattr.filesize := by
  constructor
  · generalize hflag : flagFileEqual = flag
    intro h
    cases h with
    | equal hr hl hsize => exact ⟨_, _, rfl, rfl, hr, hl, hsize⟩
    | remoteOnly => exact absurd hflag (by decide)
    | localOnly => exact absurd hflag (by decide)
    | remoteNewer => exact absurd hflag (by decide)
    | localNewer => exact absurd hflag (by decide)
    | different => exact absurd hflag (by decide)
  · rintro ⟨rattr, lattr, rfl, rfl, hr, hl, hsize⟩
    exact .equal hr hl hsize

section Place

variable {env : Env} {R L : Tree} {l : Loc} {r n : Node}

theorem equal_iff : Classified (remoteRecord env R l) (localRecord L l) flagFileEqual ↔
    Visible l ∧ ∃ r n, R.find l = some r ∧ L.find l = some n ∧ r.mtime ≤ n.mtime + 2 ∧
      n.mtime ≤ r.mtime + 2 ∧ r.size = n.size := by
  rw [classified_equal_iff, remoteRecord, localRecord]
  constructor
  · rintro ⟨rattr, lattr, hremote, hlocal, htime, htime', hsize⟩
    split at hlocal
    · next hvisible =>
      obtain ⟨r, hr, rfl⟩ := Option.map_eq_some_iff.mp hremote
      obtain ⟨n, hn, rfl⟩ := Option.map_eq_some_iff.mp hlocal
      exact ⟨hvisible, r, n, hr, hn, htime, htime', hsize⟩
    · cases hlocal
  · rintro ⟨hvisible, r, n, hr, hn, htime, htime', hsize⟩
    rw [if_pos hvisible, hr, hn]
    exact ⟨_, _, rfl, rfl, htime, htime', hsize⟩

theorem wanted_remoteOnly (hr : R.find l = some r) (hn : L.find l = none) : Wanted env R L l .download := by
  refine ⟨flagRemoteOnly, ?_, .inl rfl⟩
  have hlocal : localRecord L l = none := by
    rw [localRecord, hn]
    exact ite_self _
  rw [remoteRecord, hr, hlocal]
  exact .remoteOnly _

theorem wanted_localOnly (hr : R.find l = none) (hn : L.find l = some n) (hl : Visible l) :
    Wanted env R L l .upload := by
  refine ⟨flagLocalOnly, ?_, .inl rfl⟩
  rw [remoteRecord, hr, localRecord, if_pos hl, hn]
  exact .localOnly _

theorem wanted_remoteNewer (hr : R.find l = some r) (hn : L.find l = some n) (hl : Visible l)
    (htime : n.mtime + 2 < r.mtime) : Wanted env R L l .download := by
  refine ⟨flagRemoteNewer, ?_, .inr rfl⟩
  rw [remoteRecord, hr, localRecord, if_pos hl, hn]
  exact .remoteNewer htime

theorem wanted_localNewer (hr : R.find l = some r) (hn : L.find l = some n) (hl : Visible l)
    (htime : r.mtime + 2 < n.mtime) : Wanted env R L l .upload := by
  refine ⟨flagLocalNewer, ?_, .inr rfl⟩
  rw [remoteRecord, hr, localRecord, if_pos hl, hn]
  exact .localNewer htime

theorem not_wanted_sameTime (hr : R.find l = some r) (hn : L.find l = some n) (hl : Visible l)
    (htime : r.mtime ≤ n.mtime + 2) (htime' : n.mtime ≤ r.mtime + 2) (direct : Direct) :
    ¬Wanted env R L l direct := by
  rintro ⟨flag, hclass, hwants⟩
  rw [remoteRecord, hr, localRecord, if_pos hl, hn] at hclass
  have hflag : flag = flagFileEqual ∨ flag = flagFileDifferent := by
    by_cases hsize : r.size = n.size
    · exact .inl (hclass.unique (.equal htime htime' hsize))
    · exact .inr (hclass.unique (.different htime htime' hsize))
  rcases hflag with rfl | rfl
  · cases direct <;> exact absurd hwants (by decide : ¬(_ ∨ _))
  · cases direct <;> exact absurd hwants (by decide : ¬(_ ∨ _))

end Place

/-! ## Convergence -/

/-- After the plan is carried out, every regular file is on both sides, and a new comparison marks
every regular file as equal. -/
def Converges (host : Host) (io : SyncTaskPackage → Io) (R L : Tree) : Prop :=
  ∃ m tasks w' m', SyncWalker.run host.toEnv R L = some m ∧
    syncAllFiles m.heap taskBoth m.files = some tasks ∧
    run (World.perform host io) ⟨R, L⟩ tasks = some w' ∧
    SyncWalker.run host.toEnv w'.remote w'.here = some m' ∧
    (∀ l, R.IsFile l ∨ L.IsFile l → w'.remote.IsFile l ∧ w'.here.IsFile l) ∧
    ∀ l, w'.remote.IsFile l ∨ w'.here.IsFile l → Marked m' l flagFileEqual

/-- What the two trees have to be like. -/
structure Synchronisable (host : Host) (R L : Tree) : Prop where
  visible : ∀ l, R.IsFile l ∨ L.IsFile l → Visible l
  remoteFile : ∀ l, R.IsFile l → Storable L l
  localFile : ∀ l, L.IsFile l → Storable R l
  sizes : ∀ l r n, R.find l = some r → L.find l = some n → r.isDir = false → n.isDir = false →
    r.mtime ≤ n.mtime + 2 → n.mtime ≤ r.mtime + 2 → r.size = n.size
  /-- a directory that is sent as an empty file -/
  localDir : ∀ l size mtime, L.find l = some (.dir size mtime) → Visible l → R.find l = none →
    R.isDir l.dropLast = true → size = 0
  /-- a directory that is fetched as an empty file -/
  remoteDir : host.opensDirs = true → ∀ l size mtime, R.find l = some (.dir size mtime) →
    L.find l = none → Visible l ∧ L.isDir l.dropLast = true ∧ size = 0

section Converge

variable {host : Host} {io : SyncTaskPackage → Io} {R L : Tree} {w' : World}
  {tasks : List SyncTaskPackage} {l : Loc}

theorem file_cases {T : Tree} (h : T.isDir l = false) : T.find l = none ∨ T.IsFile l := by
  cases hfind : T.find l with
  | none => exact .inl rfl
  | some node =>
    cases node with
    | dir size mtime =>
      rw [Tree.isDir_of_find hfind] at h
      cases h
    | file content mtime => exact .inr ⟨content, mtime, hfind⟩

theorem isDir_of_isFile {T : Tree} (h : T.IsFile l) : T.isDir l = false := by
  obtain ⟨content, mtime, hfind⟩ := h
  exact Tree.isDir_of_find hfind

theorem Carried.settled_both (h : Carried host io R L tasks w') (hs : Synchronisable host R L)
    {c c' : List UInt8} {t t' : Nat} (hr : R.find l = some (.file c t))
    (hn : L.find l = some (.file c' t')) (hvisible : Visible l) :
    ∃ c t c' t', w'.remote.find l = some (.file c t) ∧ w'.here.find l = some (.file c' t') ∧
      t ≤ t' + 2 ∧ t' ≤ t + 2 ∧ c.length = c'.length := by
  by_cases hremote : t' + 2 < t
  · obtain ⟨hhere, hremote⟩ := h.downloaded ⟨hr, nofun⟩ (Tree.isDir_of_find hn)
      (wanted_remoteNewer hr hn hvisible hremote)
    exact ⟨c, t, c, t, hremote, hhere, by omega, by omega, rfl⟩
  by_cases hlocal : t + 2 < t'
  · obtain ⟨hremote, hhere⟩ := h.uploaded hn (.inl ⟨c, t, hr⟩)
      (wanted_localNewer hr hn hvisible hlocal)
    exact ⟨c', t', c', t', hremote, hhere, by omega, by omega, rfl⟩
  · have htime : t ≤ t' + 2 := by omega
    have htime' : t' ≤ t + 2 := by omega
    have hstill := h.still (Tree.find_named hr) (not_wanted_sameTime hr hn hvisible htime htime')
    exact ⟨c, t, c', t', (hstill.remote.file hr).trans hr, (hstill.here.file hn).trans hn, htime, htime',
      hs.sizes l _ _ hr hn rfl rfl htime htime'⟩

theorem Carried.settled (h : Carried host io R L tasks w') (hs : Synchronisable host R L)
    (hfile : R.IsFile l ∨ L.IsFile l) :
    ∃ c t c' t', w'.remote.find l = some (.file c t) ∧ w'.here.find l = some (.file c' t') ∧
      t ≤ t' + 2 ∧ t' ≤ t + 2 ∧ c.length = c'.length := by
  have hvisible := hs.visible l hfile
  by_cases hremote : R.IsFile l
  · obtain ⟨c, t, hr⟩ := hremote
    rcases hs.remoteFile l ⟨c, t, hr⟩ with ⟨c', t', hn⟩ | ⟨hnone, hparent⟩
    · exact h.settled_both hs hr hn hvisible
    · have hdir := storable_isDir (Tree.find_named hr).1 (.inr ⟨hnone, hparent⟩)
      obtain ⟨hhere, hremote⟩ := h.downloaded ⟨hr, nofun⟩ hdir (wanted_remoteOnly hr hnone)
      exact ⟨c, t, c, t, hremote, hhere, by omega, by omega, rfl⟩
  · obtain ⟨c, t, hn⟩ := hfile.resolve_left hremote
    have hstorable := hs.localFile l ⟨c, t, hn⟩
    have hnone := (hstorable.resolve_left hremote).1
    obtain ⟨hremote, hhere⟩ := h.uploaded hn hstorable (wanted_localOnly hnone hn hvisible)
    exact ⟨c, t, c, t, hremote, hhere, by omega, by omega, rfl⟩

theorem Carried.equal (h : Carried host io R L tasks w') (hs : Synchronisable host R L)
    (hfile : w'.remote.IsFile l ∨ w'.here.IsFile l) :
    Classified (remoteRecord host.toEnv w'.remote l) (localRecord w'.here l) flagFileEqual := by
  rw [equal_iff]
  by_cases hold : R.IsFile l ∨ L.IsFile l
  · obtain ⟨c, t, c', t', hremote, hhere, htime, htime', hsize⟩ := h.settled hs hold
    exact ⟨hs.visible l hold, _, _, hremote, hhere, htime, htime', hsize⟩
  rw [not_or] at hold
  rcases hfile with hfile | hfile
  · -- a directory of the local side was sent
    have hnone := (file_cases ((h.isDir l).1.symm.trans (isDir_of_isFile hfile))).resolve_right hold.1
    obtain ⟨hwanted, hparent⟩ := h.remote_new hnone hfile
    obtain ⟨hthere, hvisible⟩ := find_of_wanted_upload hwanted
    obtain ⟨node, hnode⟩ := Option.ne_none_iff_exists'.mp hthere
    obtain ⟨hremote, hhere⟩ := h.uploaded hnode (.inr ⟨hnone, hparent⟩) hwanted
    cases node with
    | file c t => exact absurd ⟨c, t, hnode⟩ hold.2
    | dir size mtime =>
      obtain rfl := hs.localDir l size mtime hnode hvisible hnone hparent
      exact ⟨hvisible, _, _, hremote, hhere, Nat.le_add_right .., Nat.le_add_right .., rfl⟩
  · -- a directory of the remote side was fetched
    have hdir := (h.isDir l).2.symm.trans (isDir_of_isFile hfile)
    have hnone := (file_cases hdir).resolve_right hold.2
    obtain ⟨hwanted, -, node, hopen⟩ := h.here_new hnone hfile
    obtain ⟨hhere, hremote⟩ := h.downloaded hopen hdir hwanted
    cases node with
    | file c t => exact absurd ⟨c, t, hopen.1⟩ hold.1
    | dir size mtime =>
      obtain ⟨hvisible, -, rfl⟩ := hs.remoteDir (hopen.2 rfl) l size mtime hopen.1 hnone
      exact ⟨hvisible, _, _, hremote, hhere, Nat.le_add_right .., Nat.le_add_right .., rfl⟩

theorem Synchronisable.canLand (hs : Synchronisable host R L) (l : Loc) : CanLand host ⟨R, L⟩ l := by
  intro node hopen
  cases node with
  | file c t =>
    rcases hs.remoteFile l ⟨c, t, hopen.1⟩ with ⟨c', t', hn⟩ | ⟨-, hparent⟩
    · exact .inl (by simp [hn])
    · exact .inr hparent
  | dir size mtime =>
    by_cases hnone : L.find l = none
    · exact .inr (hs.remoteDir (hopen.2 rfl) l size mtime hopen.1 hnone).2.1
    · exact .inl hnone

theorem Carried.storable_here (h : Carried host io R L tasks w') (hfile : w'.here.IsFile l) : Storable L l := by
  have hdir := (h.isDir l).2.symm.trans (isDir_of_isFile hfile)
  rcases file_cases hdir with hnone | hfile'
  · obtain ⟨c, t, hfind⟩ := hfile
    exact .inr ⟨hnone, (h.isDir _).2 ▸ Tree.isDir_parent hfind⟩
  · exact .inl hfile'

theorem Carried.storable_remote (h : Carried host io R L tasks w') (hfile : w'.remote.IsFile l) :
    Storable R l := by
  have hdir := (h.isDir l).1.symm.trans (isDir_of_isFile hfile)
  rcases file_cases hdir with hnone | hfile'
  · obtain ⟨c, t, hfind⟩ := hfile
    exact .inr ⟨hnone, (h.isDir _).1 ▸ Tree.isDir_parent hfind⟩
  · exact .inl hfile'

theorem Carried.synchronisable (h : Carried host io R L tasks w')
    (hboth : ∀ l, R.IsFile l ∨ L.IsFile l → w'.remote.IsFile l ∧ w'.here.IsFile l)
    (hequal : ∀ l, w'.remote.IsFile l ∨ w'.here.IsFile l →
      Classified (remoteRecord host.toEnv w'.remote l) (localRecord w'.here l) flagFileEqual) :
    Synchronisable host R L where
  visible l hfile := (equal_iff.mp (hequal l (.inl (hboth l hfile).1))).1
  remoteFile l hfile := h.storable_here (hboth l (.inl hfile)).2
  localFile l hfile := h.storable_remote (hboth l (.inr hfile)).1
  sizes := by
    intro l r n hr hn hrdir hndir htime htime'
    have hfile := (file_cases ((Tree.isDir_of_find hr).trans hrdir)).resolve_left (by simp [hr])
    obtain ⟨hvisible, r', n', hr', hn', -, -, hsize⟩ :=
      equal_iff.mp (hequal l (.inl (hboth l (.inl hfile)).1))
    have hstill := h.still (Tree.find_named hr) (not_wanted_sameTime hr hn hvisible htime htime')
    rw [hstill.exactRemote ((Tree.isDir_of_find hn).trans hndir)] at hr'
    rw [hstill.exactHere ((Tree.isDir_of_find hr).trans hrdir)] at hn'
    obtain rfl := Option.some.inj (hr.symm.trans hr')
    obtain rfl := Option.some.inj (hn.symm.trans hn')
    exact hsize
  localDir := by
    intro l size mtime hn hvisible hnone hparent
    obtain ⟨hremote, hhere⟩ := h.uploaded hn (.inr ⟨hnone, hparent⟩) (wanted_localOnly hnone hn hvisible)
    obtain ⟨-, r', n', hr', hn', -, -, hsize⟩ := equal_iff.mp (hequal l (.inl ⟨_, _, hremote⟩))
    obtain rfl := Option.some.inj (hremote.symm.trans hr')
    obtain rfl := Option.some.inj (hhere.symm.trans hn')
    exact hsize.symm
  remoteDir := by
    intro hopens l size mtime hr hnone
    have hdir : L.isDir l = false := by simp [Tree.isDir, hnone, (Tree.find_named hr).1]
    obtain ⟨hhere, hremote⟩ := h.downloaded ⟨hr, fun _ => hopens⟩ hdir (wanted_remoteOnly hr hnone)
    obtain ⟨hvisible, r', n', hr', hn', -, -, hsize⟩ := equal_iff.mp (hequal l (.inr ⟨_, _, hhere⟩))
    obtain rfl := Option.some.inj (hremote.symm.trans hr')
    obtain rfl := Option.some.inj (hhere.symm.trans hn')
    exact ⟨hvisible, (h.here_new hnone ⟨_, _, hhere⟩).2.1, hsize⟩

end Converge

/-- **Two trees converge exactly when they are synchronisable.** -/
theorem converges_iff (host : Host) (io : SyncTaskPackage → Io) (hio : ∀ task, (io task).Fine)
    (R L : Tree) : Converges host io R L ↔ Synchronisable host R L := by
  obtain ⟨m, tasks, hm, htasks, hplan, hwanted⟩ := plan_both host.toEnv R L
  constructor
  · rintro ⟨m₁, tasks₁, w', m', hm₁, htasks₁, hrun, hm', hboth, hequal⟩
    obtain rfl := Option.some.inj (hm.symm.trans hm₁)
    obtain rfl := Option.some.inj (htasks.symm.trans htasks₁)
    obtain ⟨-, -, m₂, -, hm₂, -, -, -, hmarked⟩ := run_marked host.toEnv w'.remote w'.here
    obtain rfl := Option.some.inj (hm'.symm.trans hm₂)
    have hcarried : Carried host io R L tasks w' := ⟨hio, hplan, hwanted, hrun⟩
    refine hcarried.synchronisable hboth fun l hfile => (hmarked l ?_ _).mp (hequal l hfile)
    rcases hfile with ⟨c, t, hfind⟩ | ⟨c, t, hfind⟩
    · exact Tree.find_named hfind
    · exact Tree.find_named hfind
  · intro hs
    have hland : ∀ task ∈ tasks, task.direct = .download → ∀ l, Planned ⟨R, L⟩ task l →
        CanLand host ⟨R, L⟩ l := fun _ _ _ l _ => hs.canLand l
    obtain ⟨w', hrun⟩ := run_exists hio hplan hland
    obtain ⟨-, -, m', -, hm', -, -, -, hmarked⟩ := run_marked host.toEnv w'.remote w'.here
    have hcarried : Carried host io R L tasks w' := ⟨hio, hplan, hwanted, hrun⟩
    refine ⟨m, tasks, w', m', hm, htasks, hrun, hm', fun l hfile => ?_, fun l hfile => ?_⟩
    · obtain ⟨c, t, c', t', hremote, hhere, -⟩ := hcarried.settled hs hfile
      exact ⟨⟨c, t, hremote⟩, c', t', hhere⟩
    · have hequal := hcarried.equal hs hfile
      obtain ⟨-, r, n, hr, -⟩ := equal_iff.mp hequal
      exact (hmarked l (Tree.find_named hr) _).mpr hequal

theorem fineIo_fine : fineIo.Fine := ⟨rfl, rfl, by simp [fineIo], by simp [fineIo], rfl⟩

theorem find_plainFile {l : Loc} {node : Node} (h : plainFile.find l = some node) :
    l = [['a']] ∧ node = .file [] 100 := by
  simpa [plainFile, oneFile] using Tree.mem_entries_iff.mpr h

theorem synchronisable_plain : Synchronisable plainHost plainFile emptyTree where
  visible l hfile := by
    rcases hfile with ⟨c, t, h⟩ | ⟨c, t, h⟩
    · rw [(find_plainFile h).1]
      decide
    · cases h
  remoteFile l hfile := by
    obtain ⟨c, t, h⟩ := hfile
    rw [(find_plainFile h).1]
    exact .inr ⟨rfl, rfl⟩
  localFile l hfile := by
    obtain ⟨c, t, h⟩ := hfile
    cases h
  sizes l r n _ hn := by cases hn
  localDir l size mtime hn := by cases hn
  remoteDir _ l size mtime hr := by cases (find_plainFile hr).2

theorem converges_plain : fineIo.Fine ∧ Converges plainHost (fun _ => fineIo) plainFile emptyTree :=
  ⟨fineIo_fine, (converges_iff plainHost (fun _ => fineIo) (fun _ => fineIo_fine) plainFile
    emptyTree).mpr synchronisable_plain⟩

/-- A directory with a file in it. -/
def oneDir : Tree where
  entries := [([['d']], .dir 4096 100), ([['d'], ['a']], .file [] 100)]
  nodup := by decide
  named := List.forall_mem_cons.mpr ⟨by decide, List.forall_mem_singleton.mpr (by decide)⟩
  closed := by simp [Node.isDir]

theorem converges_not_oneDir :
    (∃ m tasks, SyncWalker.run plainHost.toEnv oneDir emptyTree = some m ∧
      syncAllFiles m.heap taskBoth m.files = some tasks ∧
      tasks = [⟨['d'], 0, .download⟩, ⟨['d', '/', 'a'], 1, .download⟩] ∧
      run (World.perform plainHost fun _ => fineIo) ⟨oneDir, emptyTree⟩ tasks = none) ∧
    ¬Converges plainHost (fun _ => fineIo) oneDir emptyTree := by
  -- The directory is on the remote side only: it comes over as a file, and the assert on `utimes`
  -- fails for the file in it.
  have hfails : ∃ m tasks, SyncWalker.run plainHost.toEnv oneDir emptyTree = some m ∧
      syncAllFiles m.heap taskBoth m.files = some tasks ∧
      tasks = [⟨['d'], 0, .download⟩, ⟨['d', '/', 'a'], 1, .download⟩] ∧
      run (World.perform plainHost fun _ => fineIo) ⟨oneDir, emptyTree⟩ tasks = none :=
    ⟨_, _, rfl, rfl, by decide, rfl⟩
  refine ⟨hfails, ?_⟩
  obtain ⟨m, tasks, hm, htasks, -, hnone⟩ := hfails
  rintro ⟨m', tasks', w', -, hm', htasks', hrun, -⟩
  obtain rfl := Option.some.inj (hm.symm.trans hm')
  obtain rfl := Option.some.inj (htasks.symm.trans htasks')
  rw [hnone] at hrun
  cases hrun

end NullFxp.Sync
