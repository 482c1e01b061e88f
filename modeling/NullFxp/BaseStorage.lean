import NullFxp.Lib.Runs
import NullFxp.QMap

/-!
# The session store

A session is a file of one directory, and its keys are those of the host map. What the operations
do is compared with a finite map from names to host maps.
-/

namespace NullFxp.BaseStorage

/-! ## Files -/

/-- The files, by their paths, each with its keys. -/
abbrev Disk := QString → Option QMap

/-- Where the sessions are. `mkpath` says that the directory is there, or could be made. -/
structure Place where
  storagePath : QString
  catPath : Option QString
  mkpath : Bool
  mkpath_of_cat : catPath ≠ none → mkpath = true

def Place.sessFile (pl : Place) (name : QString) : QString :=
  childPath (pl.catPath.getD pl.storagePath) name

def setFile (disk : Disk) (path : QString) (file : Option QMap) : Disk :=
  fun p => if p = path then file else disk p

/-- `settings.setValue(it.key(), it.value())` for each key of the map. Other keys stay. -/
def setValues (host : QMap) (file : Option QMap) : QMap :=
  fun key => (host key).or (file.bind fun m => m key)

/-! ## The operations -/

section

variable (pl : Place) (disk : Disk)

def addHost (host : QMap) : Bool × Disk :=
  if pl.catPath.isSome && !pl.mkpath then (false, disk)
  else
    let sessFile := pl.sessFile (host.value "show_name")
    (true, setFile disk sessFile (some (setValues host (disk sessFile))))

def removeHost (name : QString) : Bool × Disk :=
  if (disk (pl.sessFile name)).isSome then (true, setFile disk (pl.sessFile name) none)
  else (false, disk)

/-- `QFile().rename`: the file has to be there, and the new name must not. -/
def rename (path newPath : QString) : Option Disk :=
  if (disk path).isSome && (disk newPath).isNone then
    some (setFile (setFile disk path none) newPath (disk path))
  else none

/-- `newName` is `none` for `QString::null`. -/
def updateHost (host : QMap) (newName : Option QString) : Bool × Disk :=
  let sessName := host.value "show_name"
  let newName := newName.getD sessName
  let newSessFile := pl.sessFile newName
  let moved := if sessName ≠ newName then rename disk (pl.sessFile sessName) newSessFile else some disk
  match moved with
  | none => (false, disk)
  | some disk =>
    (true, setFile disk newSessFile
      (some ((setValues host (disk newSessFile)).insert "show_name" newName)))

def containsHost (name : QString) : Bool := (disk (pl.sessFile name)).isSome

def getHost (name : QString) : QMap :=
  if containsHost pl disk name then (disk (pl.sessFile name)).getD QMap.empty else QMap.empty

end

inductive Op where
  | add (host : QMap)
  | update (host : QMap) (newName : Option QString)
  | remove (name : QString)
  | contains (name : QString)
  | get (name : QString)

inductive Result where
  | done (ok : Bool)
  | host (m : QMap)

def exec (pl : Place) (disk : Disk) : Op → Result × Disk
  | .add host => ((addHost pl disk host).map .done id)
  | .update host newName => ((updateHost pl disk host newName).map .done id)
  | .remove name => ((removeHost pl disk name).map .done id)
  | .contains name => (.done (containsHost pl disk name), disk)
  | .get name => (.host (getHost pl disk name), disk)

/-! ## A finite map -/

/-- The sessions, by their names. -/
abbrev Sessions := QString → Option QMap

def Sessions.set (s : Sessions) (name : QString) (host : Option QMap) : Sessions :=
  fun n => if n = name then host else s n

/-- What the operations are for. -/
def spec (s : Sessions) : Op → Result × Sessions
  | .add host =>
    let name := host.value "show_name"
    if (s name).isSome then (.done false, s) else (.done true, s.set name (some host))
  | .update host newName =>
    let name := host.value "show_name"
    let newName := newName.getD name
    let stored := some (host.insert "show_name" newName)
    if name = newName then (.done true, s.set name stored)
    else if (s name).isSome ∧ s newName = none then
      (.done true, (s.set name none).set newName stored)
    else (.done false, s)
  | .remove name =>
    if (s name).isSome then (.done true, s.set name none) else (.done false, s)
  | .contains name => (.done (s name).isSome, s)
  | .get name => (.host ((s name).getD QMap.empty), s)

def sessions (pl : Place) (disk : Disk) : Sessions := fun name => disk (pl.sessFile name)

/-- Each operation returns what the map returns, and leaves the sessions of the map. -/
def Refines (pl : Place) : Disk → Sessions → List Op → Prop
  | _, _, [] => True
  | disk, s, op :: ops =>
    (exec pl disk op).1 = (spec s op).1 ∧ sessions pl (exec pl disk op).2 = (spec s op).2 ∧
      Refines pl (exec pl disk op).2 (spec s op).2 ops

/-- A session is not added twice, and no key of an old session is left out by an update. -/
def KeysKept (pl : Place) (disk : Disk) : Op → Prop
  | .add host => disk (pl.sessFile (host.value "show_name")) = none
  | .update host newName =>
    let old := disk (pl.sessFile (host.value "show_name"))
    let renameFails := host.value "show_name" ≠ newName.getD (host.value "show_name") ∧
      (old = none ∨ disk (pl.sessFile (newName.getD (host.value "show_name"))) ≠ none)
    renameFails ∨ ∀ file ∈ old, ∀ key, (file key).isSome →
      (host key).isSome ∨ key = "show_name".toList
  | _ => True

def step (pl : Place) (disk : Disk) (op : Op) : Option Disk := some (exec pl disk op).2

/-! ## Files and names -/

variable {pl : Place} {disk : Disk}

theorem sessFile_injective (pl : Place) : Function.Injective pl.sessFile := by
  intro a b h
  unfold Place.sessFile childPath at h
  exact (List.cons.inj (List.append_cancel_left h)).2

theorem sessions_setFile (pl : Place) (disk : Disk) (name : QString) (file : Option QMap) :
    sessions pl (setFile disk (pl.sessFile name) file) = (sessions pl disk).set name file := by
  funext n
  unfold sessions setFile Sessions.set
  simp only [(sessFile_injective pl).eq_iff]

theorem Sessions.set_inj {s : Sessions} {name : QString} {a b : Option QMap} :
    s.set name a = s.set name b ↔ a = b := by
  constructor
  · intro h
    have := congrFun h name
    simpa [Sessions.set] using this
  · rintro rfl
    rfl

theorem Sessions.set_set (s : Sessions) (name : QString) (a b : Option QMap) :
    (s.set name a).set name b = s.set name b := by
  funext n
  unfold Sessions.set
  split <;> rfl

theorem insert_setValues_iff (host : QMap) (file : Option QMap) (name : QString) :
    (setValues host file).insert "show_name" name = host.insert "show_name" name ↔
      ∀ m ∈ file, ∀ key, (m key).isSome → (host key).isSome ∨ key = "show_name".toList := by
  constructor
  · intro h m hm key hkey
    by_cases hname : key = "show_name".toList
    · exact .inr hname
    · left
      have hvalue := congrFun h key
      simp only [QMap.insert, hname, if_false, setValues, Option.mem_def.mp hm, Option.bind_some] at hvalue
      rw [← hvalue]
      cases host key with
      | some v => rfl
      | none => simpa using hkey
  · intro h
    funext key
    unfold QMap.insert setValues
    split
    · rfl
    · next hname =>
      cases hkey : host key with
      | some v => rfl
      | none =>
        rw [Option.none_or, Option.bind_eq_none_iff]
        intro m hm
        by_contra hsome
        rcases h m hm key (Option.isSome_iff_ne_none.mpr hsome) with hin | heq
        · rw [hkey] at hin
          cases hin
        · exact hname heq

/-! ## One operation -/

theorem addHost_eq (pl : Place) (disk : Disk) (host : QMap) :
    addHost pl disk host = (true, setFile disk (pl.sessFile (host.value "show_name"))
      (some (setValues host (disk (pl.sessFile (host.value "show_name")))))) := by
  unfold addHost
  rw [if_neg]
  intro h
  obtain ⟨hcat, hmk⟩ := Bool.and_eq_true_iff.mp h
  rw [pl.mkpath_of_cat (Option.isSome_iff_ne_none.mp hcat)] at hmk
  cases hmk

theorem add_refines_iff (host : QMap) :
    ((exec pl disk (.add host)).1 = (spec (sessions pl disk) (.add host)).1 ∧
      sessions pl (exec pl disk (.add host)).2 = (spec (sessions pl disk) (.add host)).2) ↔
    KeysKept pl disk (.add host) := by
  simp only [exec, addHost_eq, Prod.map_fst, Prod.map_snd, id, sessions_setFile, spec, KeysKept]
  cases hold : disk (pl.sessFile (host.value "show_name")) with
  | some file => simp [sessions, hold]
  | none =>
    have hset : setValues host none = host := by
      funext key
      simp [setValues]
    simp [sessions, hold, hset]

theorem update_refines_iff (host : QMap) (newName : Option QString) :
    ((exec pl disk (.update host newName)).1 = (spec (sessions pl disk) (.update host newName)).1 ∧
      sessions pl (exec pl disk (.update host newName)).2 =
        (spec (sessions pl disk) (.update host newName)).2) ↔
    KeysKept pl disk (.update host newName) := by
  simp only [exec, updateHost, Prod.map_fst, Prod.map_snd, id, spec, KeysKept]
  generalize hname : host.value "show_name" = name
  generalize newName.getD name = new
  by_cases hsame : name = new
  · subst hsame
    simp only [ne_eq, not_true_eq_false, if_false, if_true, false_and, false_or, sessions_setFile,
      true_and]
    rw [Sessions.set_inj, Option.some.injEq, insert_setValues_iff]
  · simp only [ne_eq, hsame, not_false_eq_true, if_true, if_false, true_and]
    by_cases hmoves : (disk (pl.sessFile name)).isSome ∧ disk (pl.sessFile new) = none
    · have hrename : rename disk (pl.sessFile name) (pl.sessFile new) =
          some (setFile (setFile disk (pl.sessFile name) none) (pl.sessFile new)
            (disk (pl.sessFile name))) := by
        simp [rename, hmoves]
      have hmoved : setFile (setFile disk (pl.sessFile name) none) (pl.sessFile new)
          (disk (pl.sessFile name)) (pl.sessFile new) = disk (pl.sessFile name) := by
        simp [setFile]
      have hfails : ¬ (disk (pl.sessFile name) = none ∨ ¬ disk (pl.sessFile new) = none) := by
        rintro (h | h)
        · rw [h] at hmoves
          cases hmoves.1
        · exact h hmoves.2
      rw [hrename]
      simp only [hmoved, sessions_setFile, Sessions.set_set, hfails, false_or]
      rw [if_pos (show (sessions pl disk name).isSome ∧ sessions pl disk new = none from hmoves)]
      simp only [true_and]
      rw [Sessions.set_inj, Option.some.injEq, insert_setValues_iff]
    · have hrename : rename disk (pl.sessFile name) (pl.sessFile new) = none := by
        simpa [rename] using hmoves
      have hfails : disk (pl.sessFile name) = none ∨ ¬ disk (pl.sessFile new) = none := by
        by_contra h
        rw [not_or, not_not] at h
        exact hmoves ⟨Option.isSome_iff_ne_none.mpr h.1, h.2⟩
      rw [hrename]
      simp only [hfails, true_or, iff_true]
      rw [if_neg (show ¬ ((sessions pl disk name).isSome ∧ sessions pl disk new = none) from hmoves)]
      exact ⟨rfl, rfl⟩

theorem exec_refines_iff (op : Op) :
    ((exec pl disk op).1 = (spec (sessions pl disk) op).1 ∧
      sessions pl (exec pl disk op).2 = (spec (sessions pl disk) op).2) ↔ KeysKept pl disk op := by
  cases op with
  | add host => exact add_refines_iff host
  | update host newName => exact update_refines_iff host newName
  | remove name =>
    simp only [exec, removeHost, spec, KeysKept, iff_true]
    by_cases h : (disk (pl.sessFile name)).isSome <;> simp [sessions, h, ← sessions_setFile]
  | contains name => simp [exec, containsHost, spec, KeysKept, sessions]
  | get name =>
    simp only [exec, getHost, containsHost, spec, KeysKept, sessions, and_true, iff_true]
    congr 1
    apply ite_eq_left_iff.mpr
    intro h
    rw [Option.not_isSome_iff_eq_none.mp h]
    rfl

/-! ## Every sequence of operations -/

/-- **The store refines a finite map** on just those sequences in which nothing is added twice and
no update leaves out a key. -/
theorem storage_refines_iff (pl : Place) (disk : Disk) (ops : List Op) :
    Refines pl disk (sessions pl disk) ops ↔ Runs.Meets (step pl) (KeysKept pl) disk ops := by
  induction ops generalizing disk with
  | nil => exact Iff.rfl
  | cons op ops ih =>
    unfold Refines Runs.Meets
    rw [← and_assoc, exec_refines_iff]
    apply and_congr_right
    intro hkept
    have hsame := (exec_refines_iff op).mpr hkept
    rw [← hsame.2, ih]
    simp [step]

/-- The place of the sessions without a category. -/
def home : Place := ⟨"/s".toList, none, false, fun h => absurd rfl h⟩

def session (key value : String) : QMap :=
  (QMap.empty.insert "show_name" "a".toList).insert key value.toList

theorem added_twice :
    (exec home (exec home (fun _ => none) (.add (session "pubkey" "k"))).2
      (.add (session "port" "22"))).1 = .done true ∧
    (getHost home (exec home (exec home (fun _ => none) (.add (session "pubkey" "k"))).2
      (.add (session "port" "22"))).2 "a".toList).value "pubkey" = "k".toList ∧
    ¬ Refines home (fun _ => none) (sessions home fun _ => none)
      [.add (session "pubkey" "k"), .add (session "port" "22")] := by
  -- Adding a session twice succeeds, and the keys of both are in it.
  refine ⟨rfl, by decide, ?_⟩
  rintro ⟨-, -, h, -⟩
  exact absurd (Result.done.inj h) (by decide)

end NullFxp.BaseStorage
