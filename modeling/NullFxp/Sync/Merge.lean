import NullFxp.Lib.Assoc
import NullFxp.QString

/-!
# The merge of the two sides

`SyncWalker::sortMerge` compares the entries of the remote and of the local side by name. The
records of the entries are on the heap: the merge marks them, frees the local one of a pair and
hands over the others.
-/

namespace NullFxp.Sync

/-- What the synchronizer reads of `LIBSSH2_SFTP_ATTRIBUTES`. -/
structure Attributes where
  flags : Nat
  filesize : Nat
  mtime : Nat
  deriving DecidableEq

def flagLocalFile : Nat := 0x00100000
def flagLocalOnly : Nat := 0x00400000
def flagRemoteOnly : Nat := 0x00800000
def flagLocalNewer : Nat := 0x01000000
def flagRemoteNewer : Nat := 0x02000000
def flagFileEqual : Nat := 0x04000000
def flagFileDifferent : Nat := 0x08000000

/-- The six bits that the merge sets. -/
def diffBits : Nat :=
  flagLocalOnly ||| flagRemoteOnly ||| flagLocalNewer ||| flagRemoteNewer ||| flagFileEqual |||
    flagFileDifferent

/-- A name and the address of its record. -/
abbrev File := QString × Nat

/-- `none` is what was not allocated, or is free again. -/
abbrev Heap := Nat → Option Attributes

def Attributes.mark (flag : Nat) (attr : Attributes) : Attributes :=
  { attr with flags := attr.flags ||| flag }

/-- `attr->flags |= flag` -/
def orFlags (flag attr : Nat) (heap : Heap) : Option Heap := do
  let record ← heap attr
  some (Function.update heap attr (some (record.mark flag)))

def free (attr : Nat) (heap : Heap) : Heap := Function.update heap attr none

def fileTimePrecision : Nat := 2

def sameFileTime (a b : Nat) : Bool :=
  if a < b then b - a ≤ fileTimePrecision else a - b ≤ fileTimePrecision

/-! ## The loops -/

/-- The inner loop, from index `j` on: where the name is, and the record there. -/
def searchLocal (rfile : QString) : Nat → List File → Option (Nat × Nat)
  | _, [] => none
  | j, (lfile, lattr) :: lfiles =>
    if lfile = rfile then some (j, lattr) else searchLocal rfile (j + 1) lfiles

def pairFlag (rattr lattr : Attributes) : Nat :=
  if sameFileTime rattr.mtime lattr.mtime then
    if rattr.filesize = lattr.filesize then flagFileEqual else flagFileDifferent
  else if rattr.mtime > lattr.mtime then flagRemoteNewer else flagLocalNewer

structure Merge where
  heap : Heap
  rfiles : List File
  lfiles : List File
  files : List File

/-- One round of the outer loop. -/
def mergeRemote (m : Merge) (r : File) : Option Merge :=
  match searchLocal r.1 0 m.lfiles with
  | some (found, lattr) => do
    let flag := pairFlag (← m.heap r.2) (← m.heap lattr)
    let heap ← orFlags flag r.2 m.heap
    let heap ← orFlags flag lattr heap
    some { m with
      heap := free lattr heap
      lfiles := m.lfiles.eraseIdx found
      files := m.files ++ [r] }
  | none => do
    let heap ← orFlags flagRemoteOnly r.2 m.heap
    some { m with heap := heap, files := m.files ++ [r] }

/-- One round of the last loop. -/
def mergeLocal (m : Merge) (l : File) : Option Merge := do
  let heap ← orFlags flagLocalOnly l.2 m.heap
  some { m with heap := heap, files := m.files ++ [l] }

/-- `sortMerge`, with the two lists as they are left. -/
def sortMerge (heap : Heap) (rfiles lfiles : List File) : Option Merge := do
  let m ← rfiles.foldlM mergeRemote ⟨heap, rfiles, lfiles, []⟩
  let m ← m.lfiles.foldlM mergeLocal m
  some { m with rfiles := [], lfiles := [] }

/-! ## Flags -/

theorem marked_flags {attr : Attributes} (h : attr.flags &&& diffBits = 0) {flag : Nat}
    (hflag : flag &&& diffBits = flag) : (attr.mark flag).flags &&& diffBits = flag := by
  rw [Attributes.mark, Nat.and_or_distrib_right, h, hflag, Nat.zero_or]

/-- What a flag says of the records of a name on the two sides. -/
inductive Classified : Option Attributes → Option Attributes → Nat → Prop where
  | remoteOnly (r : Attributes) : Classified (some r) none flagRemoteOnly
  | localOnly (l : Attributes) : Classified none (some l) flagLocalOnly
  | remoteNewer {r l : Attributes} (h : l.mtime + 2 < r.mtime) :
    Classified (some r) (some l) flagRemoteNewer
  | localNewer {r l : Attributes} (h : r.mtime + 2 < l.mtime) :
    Classified (some r) (some l) flagLocalNewer
  | equal {r l : Attributes} (hr : r.mtime ≤ l.mtime + 2) (hl : l.mtime ≤ r.mtime + 2)
    (hsize : r.filesize = l.filesize) : Classified (some r) (some l) flagFileEqual
  | different {r l : Attributes} (hr : r.mtime ≤ l.mtime + 2) (hl : l.mtime ≤ r.mtime + 2)
    (hsize : r.filesize ≠ l.filesize) : Classified (some r) (some l) flagFileDifferent

theorem sameFileTime_iff (a b : Nat) : sameFileTime a b = true ↔ a ≤ b + 2 ∧ b ≤ a + 2 := by
  unfold sameFileTime fileTimePrecision
  split
  · simp only [decide_eq_true_eq]
    omega
  · simp only [decide_eq_true_eq]
    omega

theorem classified_pairFlag (r l : Attributes) : Classified (some r) (some l) (pairFlag r l) := by
  unfold pairFlag
  split
  · next htime =>
    obtain ⟨hr, hl⟩ := (sameFileTime_iff _ _).mp htime
    split
    · next hsize => exact .equal hr hl hsize
    · next hsize => exact .different hr hl hsize
  · next htime =>
    rw [sameFileTime_iff] at htime
    split
    · exact .remoteNewer (by omega)
    · exact .localNewer (by omega)

theorem Classified.bit {r l : Option Attributes} {flag : Nat} (h : Classified r l flag) :
    flag &&& diffBits = flag := by
  cases h <;> rfl

theorem Classified.unique {r l : Option Attributes} {flag flag' : Nat} (h : Classified r l flag)
    (h' : Classified r l flag') : flag = flag' := by
  cases h <;> cases h' <;> first | rfl | omega

/-! ## Names -/

def names (files : List File) : List QString := files.map Prod.fst

def records (files : List File) : List Nat := files.map Prod.snd

/-- The record of a name. -/
def recordOf (heap : Heap) (files : List File) (name : QString) : Option Attributes :=
  (files.find? fun f => f.1 = name).bind fun f => heap f.2

theorem recordOf_mem {heap : Heap} {files : List File} (hnd : (names files).Nodup) {f : File}
    (hf : f ∈ files) : recordOf heap files f.1 = heap f.2 := by
  rw [recordOf, Assoc.find_of_mem hnd hf, Option.bind_some]

theorem recordOf_not_mem {heap : Heap} {files : List File} {name : QString}
    (h : name ∉ names files) : recordOf heap files name = none := by
  have hnone : files.find? (fun f => f.1 = name) = none := by
    rw [List.find?_eq_none]
    intro f hf
    have hne : f.1 ≠ name := fun he => h (he ▸ List.mem_map_of_mem hf)
    simpa using hne
  rw [recordOf, hnone, Option.bind_none]

theorem not_mem_of_recordOf_none {heap : Heap} {files : List File} {name : QString}
    (hlive : ∀ p ∈ records files, heap p ≠ none) (h : recordOf heap files name = none) :
    name ∉ names files := by
  intro hname
  have hsome : (files.find? fun f => f.1 = name).isSome := by
    obtain ⟨f, hf, he⟩ := List.mem_map.mp hname
    exact List.find?_isSome.mpr ⟨f, hf, by simpa using he⟩
  obtain ⟨f, hf⟩ := Option.isSome_iff_exists.mp hsome
  rw [recordOf, hf, Option.bind_some] at h
  exact hlive f.2 (List.mem_map_of_mem (List.mem_of_find?_eq_some hf)) h

theorem searchLocal_none {rfile : QString} {j : Nat} {lfiles : List File}
    (h : rfile ∉ names lfiles) : searchLocal rfile j lfiles = none := by
  induction lfiles generalizing j with
  | nil => rfl
  | cons l lfiles ih =>
    rw [names, List.map_cons, List.mem_cons, not_or] at h
    rw [searchLocal, if_neg (Ne.symm h.1)]
    exact ih h.2

theorem searchLocal_mem {j : Nat} {lfiles : List File} (hnd : (names lfiles).Nodup) {l : File}
    (hl : l ∈ lfiles) : ∃ k, searchLocal l.1 j lfiles = some (j + k, l.2) ∧
      lfiles.eraseIdx k = lfiles.filter fun f => f.1 ≠ l.1 := by
  induction lfiles generalizing j with
  | nil => simp at hl
  | cons g lfiles ih =>
    rw [names, List.map_cons, List.nodup_cons] at hnd
    rcases List.mem_cons.mp hl with rfl | hl
    · refine ⟨0, ?_, ?_⟩
      · rw [searchLocal, if_pos rfl, Nat.add_zero]
      · rw [List.eraseIdx_zero, List.tail_cons, List.filter_cons_of_neg (by simp), eq_comm,
          List.filter_eq_self]
        intro f hf
        have hne : f.1 ≠ l.1 := fun he => hnd.1 (he ▸ List.mem_map_of_mem hf)
        simpa using hne
    · have hne : g.1 ≠ l.1 := fun he => hnd.1 (he ▸ List.mem_map_of_mem hl)
      obtain ⟨k, hk, herase⟩ := ih (j := j + 1) hnd.2 hl
      refine ⟨k + 1, ?_, ?_⟩
      · rw [searchLocal, if_neg hne, hk, Nat.add_assoc, Nat.add_comm 1 k]
      · rw [List.eraseIdx_cons_succ, herase, List.filter_cons_of_pos (by simpa using hne)]

/-! ## One round -/

/-- The entries have different names on each side, and each has a record of its own. -/
structure Ready (heap : Heap) (rfiles lfiles : List File) : Prop where
  live : ∀ p ∈ records rfiles ++ records lfiles, heap p ≠ none
  distinct : (records rfiles ++ records lfiles).Nodup
  rnames : (names rfiles).Nodup
  lnames : (names lfiles).Nodup

theorem orFlags_eq {heap : Heap} {p flag : Nat} {attr : Attributes} (h : heap p = some attr) :
    orFlags flag p heap = some (Function.update heap p (some (attr.mark flag))) := by
  rw [orFlags, h]
  rfl

section Round

variable {heap : Heap} {r : File} {rfiles lfiles : List File}

theorem Ready.ne_local (h : Ready heap (r :: rfiles) lfiles) {l : File} (hl : l ∈ lfiles) :
    r.2 ≠ l.2 := by
  have hr : r.2 ∉ records rfiles ++ records lfiles := (List.nodup_cons.mp h.distinct).1
  exact fun he => hr (List.mem_append_right _ (he ▸ List.mem_map_of_mem hl))

theorem Ready.local_eq (h : Ready heap rfiles lfiles) {l l' : File} (hl : l ∈ lfiles)
    (hl' : l' ∈ lfiles) (he : l.2 = l'.2) : l = l' :=
  List.inj_on_of_nodup_map (List.Nodup.of_append_right h.distinct) hl hl' he

theorem mergeRemote_spec {m : Merge} (h : Ready m.heap (r :: rfiles) m.lfiles) :
    ∃ heap' attr flag,
      mergeRemote m r = some { m with
        heap := heap'
        lfiles := m.lfiles.filter fun l => l.1 ≠ r.1
        files := m.files ++ [r] } ∧
      m.heap r.2 = some attr ∧ Classified (some attr) (recordOf m.heap m.lfiles r.1) flag ∧
      heap' r.2 = some (attr.mark flag) ∧
      ∀ p, p ≠ r.2 → (∀ l ∈ m.lfiles, l.2 = p → l.1 ≠ r.1) → heap' p = m.heap p := by
  obtain ⟨attr, hattr⟩ := Option.ne_none_iff_exists'.mp (h.live r.2 (by simp [records]))
  unfold mergeRemote
  by_cases hname : r.1 ∈ names m.lfiles
  · obtain ⟨l, hl, hlr⟩ := List.mem_map.mp hname
    obtain ⟨k, hk, herase⟩ := searchLocal_mem (j := 0) h.lnames hl
    obtain ⟨lattr, hlattr⟩ := Option.ne_none_iff_exists'.mp
      (h.live l.2 (List.mem_append_right _ (List.mem_map_of_mem hl)))
    have hne := h.ne_local hl
    rw [hlr, Nat.zero_add] at hk
    rw [hlr] at herase
    have hmarked : Function.update m.heap r.2 (some (attr.mark (pairFlag attr lattr))) l.2 =
        some lattr := by
      rw [Function.update_of_ne (Ne.symm hne), hlattr]
    refine ⟨free l.2 (Function.update (Function.update m.heap r.2
      (some (attr.mark (pairFlag attr lattr)))) l.2 (some (lattr.mark (pairFlag attr lattr)))), attr,
      pairFlag attr lattr, ?_, hattr, ?_, ?_, ?_⟩
    · simp only [hk, hattr, hlattr, Option.bind_eq_bind, Option.bind_some, orFlags_eq hattr,
        orFlags_eq hmarked, herase]
    · rw [← hlr, recordOf_mem h.lnames hl, hlattr]
      exact classified_pairFlag attr lattr
    · rw [free, Function.update_of_ne hne, Function.update_of_ne hne, Function.update_self]
    · intro p hp hother
      have hpl : p ≠ l.2 := fun he => hother l hl he.symm hlr
      rw [free, Function.update_of_ne hpl, Function.update_of_ne hpl, Function.update_of_ne hp]
  · have hself : m.lfiles.filter (fun l => l.1 ≠ r.1) = m.lfiles := by
      rw [List.filter_eq_self]
      intro l hl
      have hne : l.1 ≠ r.1 := fun he => hname (he ▸ List.mem_map_of_mem hl)
      simpa using hne
    refine ⟨Function.update m.heap r.2 (some (attr.mark flagRemoteOnly)), attr, flagRemoteOnly, ?_,
      hattr, ?_, ?_, ?_⟩
    · simp only [searchLocal_none hname, orFlags_eq hattr, Option.bind_eq_bind, Option.bind_some,
        hself]
    · rw [recordOf_not_mem hname]
      exact .remoteOnly attr
    · rw [Function.update_self]
    · intro p hp _
      rw [Function.update_of_ne hp]

theorem Ready.next {heap' : Heap} (h : Ready heap (r :: rfiles) lfiles)
    (hsame : ∀ p, p ≠ r.2 → (∀ l ∈ lfiles, l.2 = p → l.1 ≠ r.1) → heap' p = heap p) :
    Ready heap' rfiles (lfiles.filter fun l => l.1 ≠ r.1) := by
  have hsub : (records (lfiles.filter fun l => l.1 ≠ r.1)).Sublist (records lfiles) :=
    List.filter_sublist.map Prod.snd
  obtain ⟨hr, hdistinct⟩ := List.nodup_cons.mp h.distinct
  refine ⟨fun p hp => ?_, ?_, (List.nodup_cons.mp h.rnames).2,
    h.lnames.sublist (List.filter_sublist.map Prod.fst)⟩
  · have hmem : p ∈ records rfiles ++ records lfiles :=
      (List.Sublist.append_left hsub _).subset hp
    rw [hsame p (fun he => hr (he ▸ hmem))]
    · exact h.live p (List.mem_cons_of_mem _ hmem)
    · intro l hl hlp hname
      rcases List.mem_append.mp hp with hp | hp
      · exact List.disjoint_of_nodup_append hdistinct hp (hlp ▸ List.mem_map_of_mem hl)
      · obtain ⟨l', hl', hlp'⟩ := List.mem_map.mp hp
        obtain ⟨hl', hne⟩ := List.mem_filter.mp hl'
        obtain rfl := h.local_eq hl hl' (hlp.trans hlp'.symm)
        simp [hname] at hne
  · exact hdistinct.sublist (List.Sublist.append_left hsub _)

end Round

/-! ## The whole merge -/

theorem recordOf_filter {heap heap' : Heap} {rfiles lfiles : List File} {r r' : File}
    (h : Ready heap (r :: rfiles) lfiles) (hr' : r' ∈ rfiles)
    (hsame : ∀ p, p ≠ r.2 → (∀ l ∈ lfiles, l.2 = p → l.1 ≠ r.1) → heap' p = heap p) :
    recordOf heap' (lfiles.filter fun l => l.1 ≠ r.1) r'.1 = recordOf heap lfiles r'.1 := by
  have hne : r'.1 ≠ r.1 := fun he => (List.nodup_cons.mp h.rnames).1 (he ▸ List.mem_map_of_mem hr')
  by_cases hname : r'.1 ∈ names lfiles
  · obtain ⟨l, hl, hlr⟩ := List.mem_map.mp hname
    have hkept : l ∈ lfiles.filter fun l => l.1 ≠ r.1 :=
      List.mem_filter.mpr ⟨hl, by simpa [hlr] using hne⟩
    rw [← hlr, recordOf_mem h.lnames hl, recordOf_mem (h.next hsame).lnames hkept]
    apply hsame l.2 (Ne.symm (h.ne_local hl))
    intro l' hl' he hname'
    obtain rfl := h.local_eq hl' hl he
    exact hne (hlr.symm.trans hname')
  · rw [recordOf_not_mem hname, recordOf_not_mem]
    exact fun hmem => hname ((List.filter_sublist.map Prod.fst).subset hmem)

theorem filter_names_cons (r : File) (rfiles lfiles : List File) :
    (lfiles.filter fun l => l.1 ≠ r.1).filter (fun l => l.1 ∉ names rfiles) =
      lfiles.filter fun l => l.1 ∉ names (r :: rfiles) := by
  rw [List.filter_filter]
  apply List.filter_congr
  intro l _
  rw [← Bool.decide_and, decide_eq_decide, names, names, List.map_cons, List.mem_cons, not_or]
  exact And.comm

/-- **The outer loop.** By induction on the remote entries that are left. -/
theorem mergeRemote_loop (rfiles : List File) {m : Merge} (h : Ready m.heap rfiles m.lfiles) :
    ∃ heap', rfiles.foldlM mergeRemote m = some { m with
        heap := heap'
        lfiles := m.lfiles.filter fun l => l.1 ∉ names rfiles
        files := m.files ++ rfiles } ∧
      (∀ r ∈ rfiles, ∃ attr flag, m.heap r.2 = some attr ∧
        Classified (some attr) (recordOf m.heap m.lfiles r.1) flag ∧
        heap' r.2 = some (attr.mark flag)) ∧
      ∀ p, p ∉ records rfiles → (∀ l ∈ m.lfiles, l.2 = p → l.1 ∉ names rfiles) →
        heap' p = m.heap p := by
  induction rfiles generalizing m with
  | nil => exact ⟨m.heap, by simp [names], by simp, fun _ _ _ => rfl⟩
  | cons r rfiles ih =>
    obtain ⟨heap₁, attr, flag, hstep, hattr, hclass, hmark, hsame⟩ := mergeRemote_spec h
    obtain ⟨heap', hloop, hremote, hrest⟩ := ih (m := { m with
      heap := heap₁, lfiles := m.lfiles.filter fun l => l.1 ≠ r.1, files := m.files ++ [r] })
      (h.next hsame)
    obtain ⟨hr, hdistinct⟩ := List.nodup_cons.mp h.distinct
    refine ⟨heap', ?_, ?_, ?_⟩
    · rw [List.foldlM_cons, hstep, Option.bind_eq_bind, Option.bind_some, hloop]
      simp only [filter_names_cons, List.append_assoc, List.singleton_append]
    · intro r' hr'
      rcases List.mem_cons.mp hr' with rfl | hr'
      · refine ⟨attr, flag, hattr, hclass, ?_⟩
        -- no later round comes to this record
        refine (hrest r'.2 (fun hmem => hr (List.mem_append_left _ hmem)) ?_).trans hmark
        intro l hl he
        exact absurd he.symm (h.ne_local (List.mem_filter.mp hl).1)
      · obtain ⟨attr', flag', hattr', hclass', hmark'⟩ := hremote r' hr'
        refine ⟨attr', flag', ?_, ?_, hmark'⟩
        · rw [← hattr']
          refine (hsame r'.2 (fun he => ?_) fun l hl he => ?_).symm
          · exact hr (he ▸ List.mem_append_left _ (List.mem_map_of_mem hr'))
          · exact absurd (List.mem_map_of_mem (f := Prod.snd) hl)
              (List.disjoint_of_nodup_append hdistinct (he ▸ List.mem_map_of_mem hr'))
        · rw [← recordOf_filter h hr' hsame]
          exact hclass'
    · intro p hp hother
      rw [records, List.map_cons, List.mem_cons, not_or] at hp
      refine (hrest p hp.2 fun l hl he hname => ?_).trans (hsame p hp.1 fun l hl he hname => ?_)
      · exact hother l (List.mem_filter.mp hl).1 he (List.mem_cons_of_mem _ hname)
      · exact hother l hl he (hname ▸ List.mem_cons_self)

theorem mergeLocal_loop (lfiles : List File) {m : Merge} (hnd : (records lfiles).Nodup)
    (hlive : ∀ l ∈ lfiles, m.heap l.2 ≠ none) :
    ∃ heap', lfiles.foldlM mergeLocal m = some { m with
        heap := heap', files := m.files ++ lfiles } ∧
      (∀ l ∈ lfiles, ∃ attr, m.heap l.2 = some attr ∧
        heap' l.2 = some (attr.mark flagLocalOnly)) ∧
      ∀ p, p ∉ records lfiles → heap' p = m.heap p := by
  induction lfiles generalizing m with
  | nil => exact ⟨m.heap, by simp, by simp, fun _ _ => rfl⟩
  | cons l lfiles ih =>
    obtain ⟨attr, hattr⟩ := Option.ne_none_iff_exists'.mp (hlive l (by simp))
    obtain ⟨hl, hnd⟩ := List.nodup_cons.mp hnd
    have hsame : ∀ l' ∈ lfiles, Function.update m.heap l.2 (some (attr.mark flagLocalOnly)) l'.2 =
        m.heap l'.2 := by
      intro l' hl'
      have hne : l'.2 ≠ l.2 := fun he => hl (he ▸ List.mem_map_of_mem hl')
      rw [Function.update_of_ne hne]
    obtain ⟨heap', hloop, hlocal, hrest⟩ := ih (m := { m with
      heap := Function.update m.heap l.2 (some (attr.mark flagLocalOnly)), files := m.files ++ [l] })
      hnd fun l' hl' => by
        show Function.update m.heap l.2 (some (attr.mark flagLocalOnly)) l'.2 ≠ none
        rw [hsame l' hl']
        exact hlive l' (List.mem_cons_of_mem _ hl')
    refine ⟨heap', ?_, ?_, ?_⟩
    · rw [List.foldlM_cons, mergeLocal, orFlags_eq hattr]
      simp only [Option.bind_eq_bind, Option.bind_some]
      rw [hloop]
      simp only [List.append_assoc, List.singleton_append]
    · intro l' hl'
      rcases List.mem_cons.mp hl' with rfl | hl'
      · refine ⟨attr, hattr, ?_⟩
        rw [hrest l'.2 hl]
        exact Function.update_self ..
      · obtain ⟨attr', hattr', hmark'⟩ := hlocal l' hl'
        exact ⟨attr', (hsame l' hl').symm.trans hattr', hmark'⟩
    · intro p hp
      rw [records, List.map_cons, List.mem_cons, not_or] at hp
      rw [hrest p hp.2]
      exact Function.update_of_ne hp.1 ..

theorem sortMerge_spec {heap : Heap} {rfiles lfiles : List File} (h : Ready heap rfiles lfiles) :
    ∃ m, sortMerge heap rfiles lfiles = some m ∧ m.rfiles = [] ∧ m.lfiles = [] ∧
      m.files = rfiles ++ lfiles.filter (fun l => l.1 ∉ names rfiles) ∧
      ∀ f ∈ m.files, ∃ attr flag, heap f.2 = some attr ∧ m.heap f.2 = some (attr.mark flag) ∧
        Classified (recordOf heap rfiles f.1) (recordOf heap lfiles f.1) flag := by
  obtain ⟨heap₁, hremote, hmarked, hsame⟩ :=
    mergeRemote_loop rfiles (m := ⟨heap, rfiles, lfiles, []⟩) h
  have hleft : ∀ l ∈ lfiles.filter (fun l => l.1 ∉ names rfiles), l ∈ lfiles ∧ l.1 ∉ names rfiles ∧
      heap₁ l.2 = heap l.2 := by
    intro l hl
    obtain ⟨hl, hname⟩ := List.mem_filter.mp hl
    rw [decide_eq_true_eq] at hname
    refine ⟨hl, hname, hsame l.2 (fun hmem => ?_) fun l' hl' he => ?_⟩
    · exact List.disjoint_of_nodup_append h.distinct hmem (List.mem_map_of_mem hl)
    · obtain rfl := h.local_eq hl' hl he
      exact hname
  have hlnd := List.Nodup.of_append_right h.distinct
  obtain ⟨heap₂, hlocal, hmarked', hsame'⟩ :=
    mergeLocal_loop (lfiles.filter fun l => l.1 ∉ names rfiles)
      (m := ⟨heap₁, rfiles, lfiles.filter fun l => l.1 ∉ names rfiles, rfiles⟩)
      (hlnd.sublist (List.filter_sublist.map Prod.snd)) fun l hl => by
        show heap₁ l.2 ≠ none
        rw [(hleft l hl).2.2]
        exact h.live l.2 (List.mem_append_right _ (List.mem_map_of_mem (hleft l hl).1))
  refine ⟨⟨heap₂, [], [], rfiles ++ lfiles.filter fun l => l.1 ∉ names rfiles⟩, ?_, rfl, rfl, rfl, ?_⟩
  · rw [sortMerge, hremote]
    simp only [Option.bind_eq_bind, Option.bind_some, List.nil_append]
    rw [hlocal, Option.bind_some]
  · intro f hf
    rcases List.mem_append.mp hf with hf | hf
    · obtain ⟨attr, flag, hattr, hclass, hmark⟩ := hmarked f hf
      refine ⟨attr, flag, hattr, ?_, ?_⟩
      · refine (hsame' f.2 fun hmem => ?_).trans hmark
        exact List.disjoint_of_nodup_append h.distinct (List.mem_map_of_mem hf)
          ((List.filter_sublist.map Prod.snd).subset hmem)
      · rw [recordOf_mem h.rnames hf, show heap f.2 = some attr from hattr]
        exact hclass
    · obtain ⟨attr, hattr, hmark⟩ := hmarked' f hf
      obtain ⟨hmem, hname, hheap⟩ := hleft f hf
      have hattr : heap f.2 = some attr := hheap.symm.trans hattr
      refine ⟨attr, flagLocalOnly, hattr, hmark, ?_⟩
      rw [recordOf_not_mem hname, recordOf_mem h.lnames hmem, hattr]
      exact .localOnly attr

theorem names_merged (rfiles lfiles : List File) :
    names (rfiles ++ lfiles.filter fun l => l.1 ∉ names rfiles) =
      names rfiles ++ (names lfiles).filter fun name => name ∉ names rfiles := by
  unfold names
  rw [List.map_append, List.filter_map]
  rfl

theorem nodup_names_merged {heap : Heap} {rfiles lfiles : List File} (h : Ready heap rfiles lfiles) :
    (names rfiles ++ (names lfiles).filter fun name => name ∉ names rfiles).Nodup := by
  refine List.Nodup.append h.rnames (h.lnames.filter _) fun name hr hl => ?_
  have hname := (List.mem_filter.mp hl).2
  rw [decide_eq_true_eq] at hname
  exact hname hr

/-- None of the difference bits is set. -/
def Unmarked (heap : Heap) (files : List File) : Prop :=
  ∀ f ∈ files, ∀ attr, heap f.2 = some attr → attr.flags &&& diffBits = 0

/-- **The merge is exact.** Every name of the two sides is there once, in order, with exactly one
of the six flags, which is the one of its name; what is handed over is not free. -/
theorem sortMerge_exact (heap : Heap) (rfiles lfiles : List File) (h : Ready heap rfiles lfiles)
    (hclear : Unmarked heap (rfiles ++ lfiles)) :
    ∃ m, sortMerge heap rfiles lfiles = some m ∧
      names m.files = names rfiles ++ (names lfiles).filter (fun name => name ∉ names rfiles) ∧
      (names m.files).Nodup ∧
      (∀ name, name ∈ names m.files ↔ name ∈ names rfiles ∨ name ∈ names lfiles) ∧
      m.rfiles = [] ∧ m.lfiles = [] ∧
      ∀ f ∈ m.files, ∃ attr, m.heap f.2 = some attr ∧
        Classified (recordOf heap rfiles f.1) (recordOf heap lfiles f.1) (attr.flags &&& diffBits) := by
  obtain ⟨m, hm, hr, hl, hfiles, hmarked⟩ := sortMerge_spec h
  have hnames := names_merged rfiles lfiles
  rw [← hfiles] at hnames
  refine ⟨m, hm, hnames, hnames ▸ nodup_names_merged h, ?_, hr, hl, ?_⟩
  · intro name
    rw [hnames, List.mem_append, List.mem_filter, decide_eq_true_eq]
    tauto
  · intro f hf
    obtain ⟨attr, flag, hattr, hmark, hclass⟩ := hmarked f hf
    refine ⟨attr.mark flag, hmark, ?_⟩
    have hmem : f ∈ rfiles ++ lfiles := by
      rw [hfiles] at hf
      exact (List.Sublist.append_left List.filter_sublist _).subset hf
    rw [marked_flags (hclear f hmem attr hattr) hclass.bit]
    exact hclass

/-- The entry `a` is newer on the remote side, and `b` is on the local side only. -/
def twoSides : Heap
  | 0 => some ⟨0, 5, 100⟩
  | 1 => some ⟨flagLocalFile, 5, 90⟩
  | 2 => some ⟨flagLocalFile, 7, 90⟩
  | _ => none

theorem ready_twoSides : Ready twoSides [(['a'], 0)] [(['a'], 1), (['b'], 2)] :=
  ⟨by simp [records, twoSides], by decide, by decide, by decide⟩

theorem unmarked_twoSides : Unmarked twoSides ([(['a'], 0)] ++ [(['a'], 1), (['b'], 2)]) := by
  intro f hf attr hattr
  simp only [List.cons_append, List.nil_append, List.mem_cons, List.not_mem_nil, or_false] at hf
  rcases hf with rfl | rfl | rfl <;> obtain rfl := Option.some.inj hattr <;> rfl

theorem sortMerge_exact_two : ∃ m,
    sortMerge twoSides [(['a'], 0)] [(['a'], 1), (['b'], 2)] = some m ∧
      names m.files = [['a'], ['b']] ∧ m.heap 0 = some ⟨flagRemoteNewer, 5, 100⟩ ∧ m.heap 1 = none := by
  obtain ⟨m, hm, hnames, -⟩ := sortMerge_exact twoSides _ _ ready_twoSides unmarked_twoSides
  refine ⟨m, hm, hnames, ?_⟩
  rw [← Option.some.inj hm]
  decide

end NullFxp.Sync
