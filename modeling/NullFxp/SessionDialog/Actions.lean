import NullFxp.Connection.Password
import NullFxp.SessionDialog.Paste

/-!
# What the session dialog does with the selected entry

The slots other than the paste. A session is connected to, edited and renamed by its name only, in
the directory of all sessions; it is removed where it is.
-/

namespace NullFxp.SessionDialog

open NullFxp.Sync (Loc)
open NullFxp.Connection (Dialog getHostMap setActiveHost)

/-- A name that was typed, and is a file name. -/
abbrev TypedName := { name : QString // IsName name }

/-! ## The store, without a category -/

/-- Where `storagePath + "/" + name` is. No name leads to the directory itself. -/
def place (name : QString) : Loc := if name = [] then [] else [name]

def getHost (t : Tree) (name : QString) : QMap := (keysAt t (place name)).getD QMap.empty

namespace Tree

/-- Whether `QFile::rename` goes well -/
def renames (t : Tree) (src l : Loc) (name : QString) : Bool :=
  t.isThere src ∧ IsName name ∧ t.isDir l ∧ t.isThere (l ++ [name]) = false ∧ ¬ src <+: l ++ [name]

/-- `QFile::remove` -/
def unlink (t : Tree) (l : Loc) : Tree :=
  if h : t.isDir l = true then t
  else
    { node := fun k => if k = l then none else t.node k
      places := t.places
      covers := by
        intro k y hy
        split at hy
        · cases hy
        · exact t.covers k y hy
      root := by
        rw [if_neg, t.root]
        rintro rfl
        exact h (isDir_iff.mpr t.root)
      named := by
        intro k name y hy
        split at hy
        · cases hy
        · exact t.named k name y hy
      closed := by
        intro k name y hy
        split at hy
        · cases hy
        · have hfolder := t.closed k name y hy
          rw [if_neg, hfolder]
          rintro rfl
          exact h (isDir_iff.mpr hfolder) }

end Tree

/-- `settings.setValue`, and the name -/
def saveHost (t : Tree) (host : QMap) (name : QString) : Tree :=
  t.write [] name
    (.session ((BaseStorage.setValues host (keysAt t [name])).insert "show_name" name))

/-- `newName` is `none` for `QString::null`. -/
def updateHost (t : Tree) (host : QMap) (newName : Option QString) : Tree :=
  let sessName := host.value "show_name"
  let newName := newName.getD sessName
  if sessName ≠ newName then
    if t.renames (place sessName) [] newName then
      saveHost (t.rename (place sessName) [] newName) host newName
    else t
  else saveHost t host newName

/-! ## The slots -/

/-- The host that is connected to; a folder is opened or closed. -/
def slotConntectSelectedHost (t : Tree) (l : Loc) : Option QMap :=
  if t.isDir l then none else some (getHost t (fileName l))

/-- `typed` is what the info dialog has when it is accepted. It cannot change the name. An update
with what is there already changes nothing, so that `host_new != host` is not asked. -/
def slotEditSelectedHost (t : Tree) (l : Loc) (typed : Option Dialog) : Option Tree :=
  if t.isDir l then some t
  else
    (setActiveHost (getHost t (fileName l))).map fun shown =>
      match typed with
      | none => t
      | some d => updateHost t (getHostMap { d with showName := shown.showName }) none

/-- A folder with the new name is made, so that the model knows it, and removed again. -/
def slotRenameSelectedHost (t : Tree) (l : Loc) (newName : QString) : Tree :=
  if newName = fileName l then t
  else if t.isDir l then
    ((t.mkdir l.dropLast newName).2.rmdir (l.dropLast ++ [newName])).rename l l.dropLast newName
  else updateHost t (getHost t (fileName l)) (some newName)

def slotRemoveSelectedHost (t : Tree) (l : Loc) : Tree :=
  if t.isDir l then t.rmdir l else t.unlink l

def slotNewFolder (t : Tree) (selected : Option Loc) (newName : QString) : Tree :=
  (t.mkdir (target t selected) newName).2

/-! ## Runs of the dialog -/

inductive Action where
  | connect (l : Loc)
  | edit (l : Loc) (typed : Option Dialog)
  | rename (l : Loc) (newName : TypedName)
  | remove (l : Loc)
  | newFolder (selected : Option Loc) (newName : TypedName)

def Action.removed : Action → Option Loc
  | .remove l => some l
  | _ => none

/-- `none` is a failed assertion. -/
def step (t : Tree) : Action → Option Tree
  | .connect _ => some t
  | .edit l typed => slotEditSelectedHost t l typed
  | .rename l newName => some (slotRenameSelectedHost t l newName.1)
  | .remove l => some (slotRemoveSelectedHost t l)
  | .newFolder selected newName => some (slotNewFolder t selected newName.1)

/-- What is selected is an entry of the tree. -/
def Selected (t : Tree) : Action → Prop
  | .connect l | .edit l _ | .rename l _ | .remove l => l ≠ [] ∧ t.node l ≠ none
  | .newFolder selected _ => ∀ l ∈ selected, t.node l ≠ none

/-- The sessions that are in no folder have their names in them. -/
def Titled (t : Tree) : Prop :=
  ∀ name keys, t.node [name] = some (.session keys) → keys.value "show_name" = name

/-! ## Where a session goes -/

/-- A folder can get the name: there is nothing, or an empty folder that is removed. -/
def freeFor (t : Tree) (l : Loc) : Bool := !t.isThere l || (t.isDir l && t.names l = [])

/-- Where the entry at `l` is after the action. -/
def moved (t : Tree) : Action → Loc → Loc
  | .rename src newName, l =>
    if newName.1 = fileName src then l
    else if t.isDir src then
      if src <+: l ∧ freeFor t (src.dropLast ++ [newName.1]) then
        src.dropLast ++ [newName.1] ++ l.drop src.length
      else l
    else if l = [fileName src] ∧ t.isThere [newName.1] = false then [newName.1]
    else l
  | _, l => l

/-- Where the session at `l` is after the run; `none` once it was removed. -/
def follow : Tree → List Action → Loc → Option Loc
  | _, [], l => some l
  | t, a :: as, l =>
    if a.removed = some l then none
    else (step t a).bind fun t' => follow t' as (moved t a l)

/-! ## What each change leaves -/

namespace Tree

variable {t : Tree} {l : Loc} {name : QString}

theorem node_unlink (h : t.isDir l = false) (k : Loc) :
    (t.unlink l).node k = if k = l then none else t.node k := by
  unfold unlink
  rw [dif_neg (by simp [h])]

theorem node_rmdir (hl : l ≠ []) (k : Loc) : (t.rmdir l).node k =
    if k = l ∧ t.isDir l = true ∧ t.names l = [] then none else t.node k := by
  unfold rmdir
  split
  · next h => simp [h.2]
  · next h =>
    rw [if_neg]
    rintro ⟨-, -, hempty⟩
    exact h ⟨hl, hempty⟩

theorem renames_iff {src : Loc} : t.renames src l name = true ↔ t.node src ≠ none ∧ IsName name ∧
    t.node l = some .folder ∧ t.node (l ++ [name]) = none ∧ ¬ src <+: l ++ [name] := by
  rw [renames, decide_eq_true_eq, isThere_iff, isDir_iff]
  simp [isThere]

theorem session_rename {src k : Loc} {keys : QMap} (hsrc : t.node src ≠ none) (hname : IsName name)
    (hl : t.node l = some .folder) (hfree : t.node (l ++ [name]) = none)
    (hself : ¬ src <+: l ++ [name]) (hk : t.node k = some (.session keys)) :
    (t.rename src l name).node (if src <+: k then l ++ [name] ++ k.drop src.length else k) =
      some (.session keys) := by
  rw [node_rename hsrc hname hl hfree hself]
  split
  · next hpre =>
    obtain ⟨r, rfl⟩ := hpre
    rw [List.drop_left, if_pos (List.prefix_append _ _), List.drop_left]
    exact hk
  · rw [if_neg, hk]
    rintro ⟨r, rfl⟩
    rw [none_below hfree] at hk
    cases hk

end Tree

section Cleared

variable {t : Tree} {p : Loc} {name : QString}

theorem node_cleared (hp : t.node p = some .folder) (hname : IsName name) (k : Loc) :
    ((t.mkdir p name).2.rmdir (p ++ [name])).node k =
      if k = p ++ [name] ∧ t.isDir (p ++ [name]) = true ∧ t.names (p ++ [name]) = [] then none
      else t.node k := by
  cases hthere : t.node (p ++ [name]) with
  | none =>
    rw [Tree.node_rmdir_mkdir hname hp hthere, if_neg]
    rintro ⟨-, hdir, -⟩
    rw [Tree.isDir_iff, hthere] at hdir
    cases hdir
  | some x =>
    have hmade : (t.mkdir p name).2 = t := Tree.create_of_there hthere
    rw [hmade, Tree.node_rmdir (by simp)]

theorem cleared_eq_none_iff (hp : t.node p = some .folder) (hname : IsName name) :
    ((t.mkdir p name).2.rmdir (p ++ [name])).node (p ++ [name]) = none ↔
      freeFor t (p ++ [name]) = true := by
  rw [node_cleared hp hname]
  by_cases h : t.isDir (p ++ [name]) = true ∧ t.names (p ++ [name]) = []
  · simp [freeFor, h]
  · rw [if_neg (by simpa using h)]
    simpa [freeFor, Tree.isThere] using fun hdir hempty => absurd ⟨hdir, hempty⟩ h

theorem session_cleared (hp : t.node p = some .folder) (hname : IsName name) {l : Loc}
    {keys : QMap} : ((t.mkdir p name).2.rmdir (p ++ [name])).node l = some (.session keys) ↔
      t.node l = some (.session keys) := by
  rw [node_cleared hp hname]
  split
  · next h =>
    obtain ⟨rfl, hdir, -⟩ := h
    simp [Tree.isDir_iff.mp hdir]
  · rfl

end Cleared

/-! ## What each slot keeps -/

/-- What a session has of what it had. In a folder nothing is changed. -/
def Kept (l : Loc) (keys keys' : QMap) : Prop :=
  (2 ≤ l.length → keys' = keys) ∧ ∀ k, (keys k).isSome = true → (keys' k).isSome = true

theorem kept_refl (l : Loc) (keys : QMap) : Kept l keys keys := ⟨fun _ => rfl, fun _ h => h⟩

/-- The sessions are kept, where they are after the action, and those in no folder have their
names in them. -/
structure Keeps (t : Tree) (a : Action) (t' : Tree) : Prop where
  titled : Titled t'
  sessions : ∀ l keys, t.node l = some (.session keys) → a.removed ≠ some l →
    ∃ keys', t'.node (moved t a l) = some (.session keys') ∧ Kept l keys keys'

section Slots

variable {t : Tree}

theorem node_saveHost {host keys : QMap} {name : QString}
    (h : t.node [name] = some (.session keys)) (k : Loc) : (saveHost t host name).node k =
      if k = [name] then
        some (.session ((BaseStorage.setValues host (some keys)).insert "show_name" name))
      else t.node k := by
  have hname : IsName name := t.named [] name _ h
  unfold saveHost
  rw [Tree.node_write hname t.root (by simp [h])]
  simp [keysAt, h]

theorem isSome_saved {host keys : QMap} {name k : QString} (h : (keys k).isSome = true) :
    (((BaseStorage.setValues host (some keys)).insert "show_name" name) k).isSome = true := by
  unfold QMap.insert BaseStorage.setValues
  split
  · rfl
  · cases host k <;> simp [h]

theorem getHost_cases {name : QString} (hname : IsName name) :
    (getHost t name = QMap.empty ∧ ∀ keys, t.node [name] ≠ some (.session keys)) ∨
      ∃ keys, t.node [name] = some (.session keys) ∧ getHost t name = keys := by
  have hplace : place name = [name] := if_neg hname.1
  unfold getHost keysAt
  rw [hplace]
  cases h : t.node [name] with
  | none => exact .inl ⟨rfl, by simp⟩
  | some x =>
    cases x with
    | folder => exact .inl ⟨rfl, by simp⟩
    | session keys => exact .inr ⟨keys, rfl, rfl⟩

theorem updateHost_rename {host : QMap} {name newName : QString}
    (hvalue : host.value "show_name" = name) (hne : newName ≠ name) :
    updateHost t host (some newName) =
      if t.renames (place name) [] newName then saveHost (t.rename (place name) [] newName) host newName
      else t := by
  simp only [updateHost, hvalue, Option.getD_some, ne_eq, Ne.symm hne, not_false_eq_true, if_true]

theorem eq_of_session_above {l k : Loc} {keys : QMap} {x : Node}
    (hl : t.node l = some (.session keys)) (hk : t.node k = some x) (h : l <+: k) : k = l := by
  obtain ⟨r, rfl⟩ := h
  by_cases hr : r = []
  · rw [hr, List.append_nil]
  · rw [Tree.folder_above hr hk] at hl
    cases hl

variable (ht : Titled t)

include ht

theorem keeps_of_same {a : Action} {t' : Tree} (hnode : ∀ l keys,
    t'.node l = some (.session keys) ↔ t.node l = some (.session keys))
    (hmoved : ∀ l keys, t.node l = some (.session keys) → moved t a l = l) : Keeps t a t' where
  titled name keys h := ht name keys ((hnode _ _).mp h)
  sessions l keys h _ := ⟨keys, by rw [hmoved l keys h, hnode, h], kept_refl l keys⟩

theorem keeps_edit {l : Loc} {typed : Option Dialog} {t' : Tree} (hl : l ≠ [])
    (hthere : t.node l ≠ none) (hstep : slotEditSelectedHost t l typed = some t') :
    Keeps t (.edit l typed) t' := by
  have hsame : Keeps t (.edit l typed) t := keeps_of_same ht (fun _ _ => Iff.rfl) fun _ _ _ => rfl
  obtain ⟨x, hx⟩ := Option.ne_none_iff_exists'.mp hthere
  unfold slotEditSelectedHost at hstep
  split at hstep
  · exact Option.some.inj hstep ▸ hsame
  · obtain ⟨shown, hshown, rfl⟩ := Option.map_eq_some_iff.mp hstep
    cases typed with
    | none => exact hsame
    | some d =>
      obtain ⟨hempty, -⟩ | ⟨keys, hkeys, hhost⟩ := getHost_cases (t := t) (isName_fileName hl hx)
      · -- `set_active_host` of no host
        rw [hempty] at hshown
        cases hshown
      · have hname : shown.showName = fileName l := by
          rw [hhost] at hshown
          obtain ⟨p, -, rfl⟩ := Option.map_eq_some_iff.mp hshown
          exact ht _ _ hkeys
        have htyped : (getHostMap { d with showName := shown.showName }).value "show_name" =
            fileName l := by
          rw [← hname]
          unfold getHostMap
          split <;> simp [QMap.value_insert]
        have hnode := @node_saveHost _ (getHostMap { d with showName := shown.showName }) _ _ hkeys
        simp only [updateHost, htyped, Option.getD_none, ne_eq, not_true_eq_false, if_false]
        constructor
        · intro name keys' h
          rw [hnode] at h
          split at h
          · next hk =>
            obtain rfl := Node.session.inj (Option.some.inj h)
            rw [List.singleton_inj.mp hk, QMap.value_insert, if_pos rfl]
          · exact ht name keys' h
        · intro k keys' hk _
          change ∃ keys'', (saveHost t _ _).node k = _ ∧ _
          rw [hnode]
          split
          · next heq =>
            rw [heq, hkeys] at hk
            obtain rfl := Node.session.inj (Option.some.inj hk)
            exact ⟨_, rfl, by simp [heq], fun _ => isSome_saved⟩
          · exact ⟨keys', hk, kept_refl k keys'⟩

theorem keeps_renamed {l : Loc} {newName : TypedName} {keys : QMap} (hdir : ¬ t.isDir l = true)
    (hne : newName.1 ≠ fileName l) (hkeys : t.node [fileName l] = some (.session keys))
    (hrenames : t.renames [fileName l] [] newName.1 = true) :
    Keeps t (.rename l newName) (saveHost (t.rename [fileName l] [] newName.1) keys newName.1) := by
  obtain ⟨-, -, -, hfree, hself⟩ := Tree.renames_iff.mp hrenames
  rw [List.nil_append] at hfree hself
  have hthere : t.node [fileName l] ≠ none := by simp [hkeys]
  have hren := Tree.node_rename hthere newName.2 t.root hfree hself
  rw [List.nil_append] at hren
  have hnew : (t.rename [fileName l] [] newName.1).node [newName.1] = some (.session keys) := by
    simpa using Tree.session_rename hthere newName.2 t.root hfree hself hkeys
  constructor
  · intro name keys' h
    rw [node_saveHost hnew] at h
    split at h
    · next hk =>
      obtain rfl := Node.session.inj (Option.some.inj h)
      rw [List.singleton_inj.mp hk, QMap.value_insert, if_pos rfl]
    · next hk =>
      have hnotnew : ¬ [newName.1] <+: [name] := by
        simpa [eq_comm] using hk
      rw [hren, if_neg hnotnew] at h
      split at h
      · cases h
      · exact ht name keys' h
  · intro k keys' hk _
    by_cases hkl : k = [fileName l]
    · subst hkl
      rw [hkeys] at hk
      obtain rfl := Node.session.inj (Option.some.inj hk)
      refine ⟨_, ?_, by simp, fun _ => @isSome_saved keys keys newName.1 _⟩
      have hmoved : moved t (.rename l newName) [fileName l] = [newName.1] := by
        simp [moved, hne, hdir, Tree.isThere, hfree]
      rw [hmoved, node_saveHost hnew, if_pos rfl]
    · -- The other sessions stay where they are.
      have hmoved : moved t (.rename l newName) k = k := by simp [moved, hne, hdir, hkl]
      have hother := Tree.session_rename hthere newName.2 t.root hfree hself hk
      rw [if_neg fun hpre => hkl (eq_of_session_above hkeys hk hpre)] at hother
      refine ⟨keys', ?_, kept_refl k keys'⟩
      rw [hmoved, node_saveHost hnew, if_neg, hother]
      rintro rfl
      rw [hfree] at hk
      cases hk

theorem keeps_renameSession {l : Loc} {newName : TypedName} (hl : l ≠ [])
    (hthere : t.node l ≠ none) (hdir : ¬ t.isDir l = true) (hne : newName.1 ≠ fileName l) :
    Keeps t (.rename l newName) (updateHost t (getHost t (fileName l)) (some newName.1)) := by
  obtain ⟨x, hx⟩ := Option.ne_none_iff_exists'.mp hthere
  have hname : IsName (fileName l) := isName_fileName hl hx
  obtain ⟨hempty, hnone⟩ | ⟨keys, hkeys, hhost⟩ := getHost_cases (t := t) hname
  · -- No session of that name: the directory itself cannot be renamed into itself.
    have hfails : ¬ t.renames (place []) [] newName.1 = true := by
      rw [Tree.renames_iff]
      simp [place]
    have hvalue : QMap.empty.value "show_name" = [] := rfl
    rw [hempty, updateHost_rename hvalue newName.2.1, if_neg hfails]
    refine keeps_of_same ht (fun _ _ => Iff.rfl) fun k keys hk => ?_
    have hk' : k ≠ [fileName l] := by
      rintro rfl
      exact hnone keys hk
    simp [moved, hne, hdir, hk']
  · have hvalue : keys.value "show_name" = fileName l := ht _ _ hkeys
    have hplace : place (fileName l) = [fileName l] := if_neg hname.1
    rw [hhost, updateHost_rename hvalue hne, hplace]
    split
    · next hrenames => exact keeps_renamed ht hdir hne hkeys hrenames
    · next hrenames =>
      -- The new name is taken.
      have htaken : t.isThere [newName.1] = true := by
        rw [Tree.isThere_iff]
        intro hfree
        exact hrenames (Tree.renames_iff.mpr ⟨by simp [hkeys], newName.2, t.root, hfree, by
          simpa [eq_comm] using hne⟩)
      refine keeps_of_same ht (fun _ _ => Iff.rfl) fun k _ _ => ?_
      simp [moved, hne, hdir, htaken]

theorem keeps_renameFolder {l : Loc} {newName : TypedName} (hl : l ≠ [])
    (hdir : t.isDir l = true) (hne : newName.1 ≠ fileName l) :
    Keeps t (.rename l newName)
      (((t.mkdir l.dropLast newName.1).2.rmdir (l.dropLast ++ [newName.1])).rename l l.dropLast
        newName.1) := by
  obtain ⟨p, name, rfl⟩ : ∃ p name, l = p ++ [name] :=
    ⟨_, _, (List.dropLast_append_getLast hl).symm⟩
  rw [fileName_concat] at hne
  rw [List.dropLast_concat]
  have hfolder := Tree.isDir_iff.mp hdir
  have hp := t.closed _ _ _ hfolder
  have hsession := @session_cleared t p newName.1 hp newName.2
  have hfree := cleared_eq_none_iff hp newName.2
  have hclearedP : ((t.mkdir p newName.1).2.rmdir (p ++ [newName.1])).node p = some .folder := by
    rw [node_cleared hp newName.2, if_neg (by simp), hp]
  have hclearedL : ((t.mkdir p newName.1).2.rmdir (p ++ [newName.1])).node (p ++ [name]) =
      some .folder := by
    rw [node_cleared hp newName.2, if_neg, hfolder]
    rintro ⟨heq, -⟩
    exact hne (List.singleton_inj.mp (List.append_cancel_left heq)).symm
  have hself : ¬ p ++ [name] <+: p ++ [newName.1] := by
    rw [List.prefix_append_right_inj]
    simpa [eq_comm] using hne
  have hmoved : ∀ k, moved t (.rename (p ++ [name]) newName) k =
      if p ++ [name] <+: k ∧ freeFor t (p ++ [newName.1]) = true then
        p ++ [newName.1] ++ k.drop (p ++ [name]).length
      else k := by
    intro k
    simp only [moved, fileName_concat, hne, if_false, hdir, if_true, List.dropLast_concat]
  generalize hc : (t.mkdir p newName.1).2.rmdir (p ++ [newName.1]) = c at *
  by_cases hok : freeFor t (p ++ [newName.1]) = true
  · have hthere : c.node (p ++ [name]) ≠ none := by simp [hclearedL]
    have hren := Tree.node_rename hthere newName.2 hclearedP (hfree.mpr hok) hself
    constructor
    · intro n keys h
      rw [hren] at h
      split at h
      · next hpre =>
        -- The new folder has no session in its place.
        have hlen := hpre.length_le
        rw [List.length_append, List.length_singleton, List.length_singleton] at hlen
        obtain rfl : p = [] := List.length_eq_zero_iff.mp (by omega)
        rw [List.drop_of_length_le (by simp), List.append_nil, hclearedL] at h
        cases h
      · split at h
        · cases h
        · exact ht n keys (hsession.mp h)
    · intro k keys hk _
      refine ⟨keys, ?_, kept_refl k keys⟩
      simp only [hmoved, hok, and_true]
      exact Tree.session_rename hthere newName.2 hclearedP (hfree.mpr hok) hself (hsession.mpr hk)
  · have hsame : c.rename (p ++ [name]) p newName.1 = c :=
      Tree.rename_of_there fun h => hok (hfree.mp h)
    rw [hsame]
    refine keeps_of_same ht (fun _ _ => hsession) fun k _ _ => ?_
    rw [hmoved, if_neg fun h => hok h.2]

theorem keeps_rename {l : Loc} {newName : TypedName} (hl : l ≠ []) (hthere : t.node l ≠ none) :
    Keeps t (.rename l newName) (slotRenameSelectedHost t l newName.1) := by
  unfold slotRenameSelectedHost
  split
  · next hsame =>
    exact keeps_of_same ht (fun _ _ => Iff.rfl) fun _ _ _ => if_pos hsame
  · next hne =>
    split
    · next hdir => exact keeps_renameFolder ht hl hdir hne
    · next hdir => exact keeps_renameSession ht hl hthere hdir hne

theorem keeps_remove {l : Loc} (hl : l ≠ []) : Keeps t (.remove l) (slotRemoveSelectedHost t l) := by
  unfold slotRemoveSelectedHost
  split
  · next hdir =>
    refine keeps_of_same ht (fun k keys => ?_) fun _ _ _ => rfl
    rw [Tree.node_rmdir hl]
    split
    · next h => simp [h.1, Tree.isDir_iff.mp hdir]
    · rfl
  · next hdir =>
    have hnode := Tree.node_unlink (Bool.not_eq_true _ ▸ hdir)
    constructor
    · intro name keys h
      rw [hnode] at h
      split at h
      · cases h
      · exact ht name keys h
    · intro k keys hk hne
      refine ⟨keys, ?_, kept_refl k keys⟩
      change (t.unlink l).node k = _
      rw [hnode, if_neg, hk]
      rintro rfl
      exact hne rfl

theorem keeps_newFolder (selected : Option Loc) (newName : TypedName) :
    Keeps t (.newFolder selected newName) (slotNewFolder t selected newName.1) := by
  refine keeps_of_same ht (fun k keys => ?_) fun _ _ _ => rfl
  unfold slotNewFolder Tree.mkdir
  generalize target t selected = l
  by_cases hl : t.node l = some .folder
  · cases hthere : t.node (l ++ [newName.1]) with
    | none =>
      rw [Tree.node_create newName.2 hl hthere]
      split
      · next hk => simp [hk, hthere]
      · rfl
    | some x => rw [Tree.create_of_there hthere]
  · rw [Tree.create_of_not_folder hl]

/-- **What one action keeps.** -/
theorem keeps_step {a : Action} {t' : Tree} (hsel : Selected t a) (hstep : step t a = some t') :
    Keeps t a t' := by
  cases a with
  | connect l =>
    obtain rfl := Option.some.inj hstep
    exact keeps_of_same ht (fun _ _ => Iff.rfl) fun _ _ _ => rfl
  | edit l typed => exact keeps_edit ht hsel.1 hsel.2 hstep
  | rename l newName =>
    obtain rfl := Option.some.inj hstep
    exact keeps_rename ht hsel.1 hsel.2
  | remove l =>
    obtain rfl := Option.some.inj hstep
    exact keeps_remove ht hsel.1
  | newFolder selected newName =>
    obtain rfl := Option.some.inj hstep
    exact keeps_newFolder ht selected newName

end Slots

theorem connect_spec {t : Tree} {l : Loc} {keys : QMap} (h : t.node l = some (.session keys)) :
    ∃ host, slotConntectSelectedHost t l = some host ∧
      (l = [fileName l] → host = keys) ∧
      ((∀ keys', t.node [fileName l] ≠ some (.session keys')) → host = QMap.empty) := by
  have hl : l ≠ [] := by
    rintro rfl
    rw [t.root] at h
    cases h
  have hdir : ¬ t.isDir l = true := by simp [Tree.isDir_eq h, Node.isFolder]
  refine ⟨getHost t (fileName l), if_neg hdir, fun hroot => ?_, fun hnone => ?_⟩
  · obtain ⟨-, hnone⟩ | ⟨keys', hkeys', hhost⟩ := getHost_cases (t := t) (isName_fileName hl h)
    · exact absurd (hroot ▸ h) (hnone keys)
    · rw [← hroot, h] at hkeys'
      obtain rfl := Node.session.inj (Option.some.inj hkeys')
      exact hhost
  · obtain ⟨hempty, -⟩ | ⟨keys', hkeys', -⟩ := getHost_cases (t := t) (isName_fileName hl h)
    · exact hempty
    · exact absurd hkeys' (hnone keys')

/-! ## Runs -/

theorem length_moved (t : Tree) (a : Action) (l : Loc) (ha : Selected t a) :
    (moved t a l).length = l.length := by
  cases a with
  | rename src newName =>
    have hsrc : 0 < src.length := List.length_pos_of_ne_nil ha.1
    simp only [moved]
    split
    · rfl
    · split
      · split
        · next h =>
          have hle := h.1.length_le
          rw [List.length_append, List.length_append, List.length_dropLast, List.length_drop,
            List.length_singleton]
          omega
        · rfl
      · split
        · next h => rw [h.1]; rfl
        · rfl
  | _ => rfl

/-- **The dialog keeps the sessions.** A session that is not removed is there after any run, and in a
folder just as it was: neither an edit nor a rename reaches it. -/
theorem dialog_keeps_sessions {t t' : Tree} {as : List Action} (ht : Titled t)
    (hsel : Runs.Meets step Selected t as) (hr : Runs.run step t as = some t') :
    Titled t' ∧ ∀ l keys l', t.node l = some (.session keys) → follow t as l = some l' →
      ∃ keys', t'.node l' = some (.session keys') ∧ Kept l keys keys' := by
  induction as generalizing t with
  | nil =>
    obtain rfl := Option.some.inj hr
    refine ⟨ht, fun l keys l' h hl => ?_⟩
    obtain rfl := Option.some.inj hl
    exact ⟨keys, h, kept_refl l keys⟩
  | cons a as ih =>
    obtain ⟨u, hu, hrest⟩ := Runs.run_cons.mp hr
    have hkeeps := keeps_step ht hsel.1 hu
    obtain ⟨htitled, hsessions⟩ := ih hkeeps.titled (hsel.2 u hu) hrest
    refine ⟨htitled, fun l keys l' h hl => ?_⟩
    unfold follow at hl
    split at hl
    · cases hl
    · next hremoved =>
      rw [hu, Option.bind_some] at hl
      obtain ⟨keys₁, h₁, hsame₁, hkept₁⟩ := hkeeps.sessions l keys h hremoved
      obtain ⟨keys₂, h₂, hsame₂, hkept₂⟩ := hsessions _ keys₁ l' h₁ hl
      rw [length_moved t a l hsel.1] at hsame₂
      exact ⟨keys₂, h₂, fun hlen => (hsame₂ hlen).trans (hsame₁ hlen),
        fun k hk => hkept₂ k (hkept₁ k hk)⟩

theorem titled_sampleTree : Titled sampleTree := by
  intro name keys h
  have hmem : [name] ∈ [[['a'], ['s']], [['b']], [['a']], []] := sampleTree.covers _ _ h
  have hdir : sampleTree.isDir [['a']] = true ∧ sampleTree.isDir [['b']] = true := by decide
  simp only [List.mem_cons, List.cons.injEq, List.not_mem_nil, or_false, and_true,
    reduceCtorEq, false_or, and_false] at hmem
  rcases hmem with rfl | rfl
  · rw [Tree.isDir_eq h] at hdir
    cases hdir.2
  · rw [Tree.isDir_eq h] at hdir
    cases hdir.1

theorem dialog_keeps_sessions_sampleTree :
    ∃ t', Runs.run step sampleTree [.rename [['a']] ⟨['c'], by decide⟩,
        .rename [['c'], ['s']] ⟨['z'], by decide⟩] = some t' ∧
      t'.node [['c'], ['s']] = some (.session (QMap.empty.insert "show_name" ['s'])) := by
  have hs : sampleTree.node [['a'], ['s']] =
    some (.session (QMap.empty.insert "show_name" ['s'])) := rfl
  obtain ⟨t', hr⟩ : ∃ t', Runs.run step sampleTree [.rename [['a']] ⟨['c'], by decide⟩,
      .rename [['c'], ['s']] ⟨['z'], by decide⟩] = some t' := ⟨_, rfl⟩
  have hsel : Runs.Meets step Selected sampleTree [.rename [['a']] ⟨['c'], by decide⟩,
      .rename [['c'], ['s']] ⟨['z'], by decide⟩] := by
    refine ⟨⟨by decide, by decide⟩, fun u hu => ⟨⟨by decide, ?_⟩, fun _ _ => trivial⟩⟩
    obtain rfl := Option.some.inj hu
    decide
  obtain ⟨keys', hkeys', hkept⟩ := (dialog_keeps_sessions titled_sampleTree hsel hr).2
    [['a'], ['s']] _ [['c'], ['s']] hs (by decide)
  exact ⟨t', hr, hkept.1 (by decide) ▸ hkeys'⟩

end NullFxp.SessionDialog
