import NullFxp.SessionDialog.CopyFolder

/-!
# Pasting sessions

A folder is moved, or copied with all that is seen in it; a session is written anew in both cases.
Whether a folder lies in itself is asked of the texts of the two paths.
-/

namespace NullFxp.SessionDialog

open NullFxp.Sync (Loc Visible visible_iff joinPath_eq_append joinPath_cons childPath_joinPath resolve_joinPath)
open NullFxp.Transportor (joinPath)

inductive OpType where
  | copy
  | cut
  deriving DecidableEq

inductive Outcome where
  | refused
  | pasted (t : Tree)

/-- The path of an entry, from the one of all sessions. -/
def filePath (sessPath : QString) (l : Loc) : QString := joinPath sessPath l

def fileName (l : Loc) : QString := l.getLastD []

/-- The folder that is pasted into: the selected one, or the one that the selected session is in. -/
def target (t : Tree) (selected : Option Loc) : Loc :=
  let aidx := selected.getD []
  if t.isDir aidx then aidx else aidx.dropLast

/-- `name + QString("(%1)").arg(i)` -/
def numbered (name : QString) (i : Nat) : QString := name ++ '(' :: (i.repr.toList ++ [')'])

/-- The first name with a number that is free, with `todo` of them to try. -/
def freeName (t : Tree) (aidx : Loc) (name : QString) : Nat → Nat → Option QString
  | 0, _ => none
  | todo + 1, i =>
    if t.isThere (aidx ++ [numbered name i]) then freeName t aidx name todo (i + 1)
    else some (numbered name i)

/-- What `QSettings` finds in a file. -/
def keysAt (t : Tree) (l : Loc) : Option QMap :=
  match t.node l with
  | some (.session keys) => some keys
  | _ => none

section

variable (sessPath : QString) (t : Tree) (optype : OpType) (opidx aidx : Loc)

/-- The new name of a session that is pasted where it is. -/
def otherName : Option QString :=
  if childPath (filePath sessPath aidx) (fileName opidx) = filePath sessPath opidx then
    freeName t aidx (fileName opidx) 88888 0
  else none

/-- `show_name` stays empty where no number is added to the name. -/
def pasteSession : Tree :=
  let afile := (otherName sessPath t opidx aidx).getD (fileName opidx)
  let showName := (otherName sessPath t opidx aidx).getD []
  let keys := BaseStorage.setValues ((keysAt t opidx).getD QMap.empty) (keysAt t (aidx ++ [afile]))
  t.write aidx afile (.session (keys.insert "show_name" showName))

/-- A folder that is cut is moved over a new one, which is removed again before. -/
def pasteFolder : Option Tree :=
  let name := fileName opidx
  let made := t.mkdir aidx name
  match optype with
  | .cut =>
    let t := if made.1 then made.2.rmdir (aidx ++ [name]) else made.2
    some (t.rename opidx aidx name)
  | .copy => copyLoop opidx (aidx ++ [name]) made.2

def slotPasteSelected (selected : Option Loc) : Option Outcome :=
  let aidx := target t selected
  if t.isDir opidx then
    if aidx = opidx then some .refused
    else if filePath sessPath opidx <+: filePath sessPath aidx then some .refused
    else (pasteFolder t optype opidx aidx).map .pasted
  else some (.pasted (pasteSession sessPath t opidx aidx))

end

/-! ## What pasting is for -/

/-- A copy of an entry under a file name. -/
def asCopy (name : QString) : Node → Node
  | .folder => .folder
  | .session keys => .session (keys.insert "show_name" name)

/-- What is to come of an entry that is pasted where no entry has its name. -/
structure Placed (t : Tree) (optype : OpType) (item dest : Loc) (t' : Tree) : Prop where
  copied : ∀ r, t'.node (dest ++ r) = (t.node (item ++ r)).map (asCopy (fileName (item ++ r)))
  original : ∀ r, t'.node (item ++ r) = if optype = .cut then none else t.node (item ++ r)
  elsewhere : ∀ l, ¬ item <+: l → ¬ dest <+: l → t'.node l = t.node l

structure Preserved (t : Tree) (optype : OpType) (item aidx : Loc) (outcome : Outcome) : Prop where
  refused : outcome = .refused ↔ t.isDir item = true ∧ item <+: aidx
  placed : ∀ t', outcome = .pasted t' → t.node (aidx ++ [fileName item]) = none →
    Placed t optype item (aidx ++ [fileName item]) t'
  others : ∀ t', outcome = .pasted t' → ∀ l keys, ¬ item <+: l →
    t.node l = some (.session keys) → t'.node l = some (.session keys)

/-- The folder is in, or is, one beside the item with a longer name that begins with its name. -/
def BesideLonger (item aidx : Loc) : Prop :=
  ∃ name r, aidx = item.dropLast ++ name :: r ∧ fileName item <+: name ∧ name ≠ fileName item

/-- Every session in the folder is shown under its file name, and, for a copy, no name in it begins
with a dot. -/
structure Plain (t : Tree) (optype : OpType) (item : Loc) : Prop where
  shown : ∀ r keys, t.node (item ++ r) = some (.session keys) →
    keys "show_name".toList = some (fileName (item ++ r))
  seen : optype = .copy → ∀ r, t.node (item ++ r) ≠ none → ∀ name ∈ r, name.head? ≠ some '.'

/-- There is an entry of the name in the target, and to write the session there does not matter: the
entry is the session itself, a folder, or a session that has the same already. -/
def Harmless (t : Tree) (item aidx : Loc) : Prop :=
  aidx ++ [fileName item] = item ∨ t.isDir (aidx ++ [fileName item]) = true ∨
    ∃ keys keys', t.node item = some (.session keys) ∧
      t.node (aidx ++ [fileName item]) = some (.session keys') ∧
      keys' "show_name".toList = some [] ∧
      ∀ key value, key ≠ "show_name".toList → keys key = some value → keys' key = some value

/-- When a paste does what it is for. -/
def Pastable (t : Tree) (optype : OpType) (item aidx : Loc) : Prop :=
  if t.isDir item then
    ¬ BesideLonger item aidx ∧
      (¬ item <+: aidx → t.node (aidx ++ [fileName item]) = none → Plain t optype item)
  else Harmless t item aidx

/-! ## Paths -/

variable {sessPath : QString} {t : Tree} {optype : OpType} {item aidx l : Loc} {name : QString}

@[simp]
theorem fileName_concat (l : Loc) (name : QString) : fileName (l ++ [name]) = name := by
  rw [fileName, List.getLastD_concat]

theorem joinPath_head (l : Loc) : ∀ c ∈ (joinPath [] l).head?, c = '/' := by
  cases l with
  | nil => simp [joinPath]
  | cons name l => simp [joinPath_cons]

theorem joinPath_prefix_iff {l k : Loc} (hl : ∀ n ∈ l ++ [name], '/' ∉ n) (hk : ∀ n ∈ k, '/' ∉ n) :
    joinPath [] (l ++ [name]) <+: joinPath [] k ↔ ∃ name' r, k = l ++ name' :: r ∧ name <+: name' := by
  induction l generalizing k with
  | nil =>
    cases k with
    | nil => simp [joinPath, childPath]
    | cons name' k =>
      have hname : '/' ∉ name := hl name (by simp)
      have hnil : joinPath [] ([] ++ [name]) = '/' :: name := by simp [joinPath, childPath]
      rw [hnil, joinPath_cons, List.cons_prefix_cons,
        Text.prefix_append_of_not_mem hname (joinPath_head k)]
      simp
  | cons n l ih =>
    cases k with
    | nil =>
      rw [List.cons_append, joinPath_cons]
      simp [joinPath]
    | cons n' k =>
      obtain ⟨hn, hl⟩ := List.forall_mem_cons.mp hl
      obtain ⟨hn', hk⟩ := List.forall_mem_cons.mp hk
      obtain ⟨u, hu⟩ : ∃ u, joinPath [] (l ++ [name]) = '/' :: u := by
        cases l with
        | nil => exact ⟨name, by simp [joinPath, childPath]⟩
        | cons n'' l => exact ⟨_, joinPath_cons n'' (l ++ [name])⟩
      rw [List.cons_append, joinPath_cons, joinPath_cons, List.cons_prefix_cons, hu,
        Text.append_prefix_append hn hn' (joinPath_head k), ← hu, ih hl hk]
      constructor
      · rintro ⟨-, rfl, name', r, rfl, hpre⟩
        exact ⟨name', r, rfl, hpre⟩
      · rintro ⟨name', r, heq, hpre⟩
        obtain ⟨rfl, rfl⟩ := List.cons.inj heq
        exact ⟨rfl, rfl, name', r, rfl, hpre⟩

theorem filePath_prefix_iff {parent k : Loc} {x y : Node} (hx : t.node (parent ++ [name]) = some x)
    (hy : t.node k = some y) : filePath sessPath (parent ++ [name]) <+: filePath sessPath k ↔
      ∃ name' r, k = parent ++ name' :: r ∧ name <+: name' := by
  unfold filePath
  rw [joinPath_eq_append sessPath, joinPath_eq_append sessPath k, List.prefix_append_right_inj]
  apply joinPath_prefix_iff
  · exact fun n hn => (Tree.isName_of_mem hx n hn).2.1
  · exact fun n hn => (Tree.isName_of_mem hy n hn).2.1

theorem target_folder {selected : Option Loc} (h : t.node (selected.getD []) ≠ none) :
    t.node (target t selected) = some .folder := by
  unfold target
  by_cases hdir : t.isDir (selected.getD []) = true
  · simpa only [hdir, if_true] using Tree.isDir_iff.mp hdir
  · simp only [if_neg hdir]
    obtain ⟨x, hx⟩ := Option.ne_none_iff_exists'.mp h
    rcases List.eq_nil_or_concat' (selected.getD []) with hnil | ⟨l, name, hl⟩
    · rw [hnil, Tree.isDir_iff] at hdir
      exact absurd t.root hdir
    · rw [hl] at hx ⊢
      rw [List.dropLast_concat]
      exact t.closed l name x hx

/-! ## Folders -/

section

variable (hitem : t.node item = some .folder) (haidx : t.node aidx = some .folder)
  (hname : IsName (fileName item)) (hself : ¬ item <+: aidx)

include hitem haidx hname hself

omit haidx hname in
theorem dest_apart (hfree : t.node (aidx ++ [fileName item]) = none) :
    ¬ item <+: aidx ++ [fileName item] ∧ ∀ r, ¬ aidx ++ [fileName item] <+: item ++ r := by
  have hout : ¬ item <+: aidx ++ [fileName item] := by
    intro hpre
    rcases List.prefix_concat_iff.mp hpre with heq | hpre
    · rw [← heq, hitem] at hfree
      cases hfree
    · exact hself hpre
  refine ⟨hout, ?_⟩
  intro r hpre
  rcases List.prefix_or_prefix_of_prefix hpre (List.prefix_append item r) with ⟨q, heq⟩ | hpre
  · rw [← heq, Tree.none_below hfree] at hitem
    cases hitem
  · exact hout hpre

theorem pasteFolder_cut (hfree : t.node (aidx ++ [fileName item]) = none) :
    ∃ t', pasteFolder t .cut item aidx = some t' ∧
      (∀ r, t'.node (aidx ++ [fileName item] ++ r) = t.node (item ++ r)) ∧
      (∀ r, t'.node (item ++ r) = none) ∧
      ∀ l, ¬ item <+: l → ¬ aidx ++ [fileName item] <+: l → t'.node l = t.node l := by
  obtain ⟨hout, hbelow⟩ := dest_apart hitem hself hfree
  have hmade : (t.mkdir aidx (fileName item)).1 = true := by
    simp [Tree.mkdir, Tree.isDir_iff.mpr haidx, Tree.isThere, hfree]
  have hnode := Tree.node_rmdir_mkdir hname haidx hfree
  have hrename := Tree.node_rename
    (t := (t.mkdir aidx (fileName item)).2.rmdir (aidx ++ [fileName item])) (by simp [hnode, hitem])
    hname (by rw [hnode, haidx]) (by rw [hnode, hfree]) hout
  unfold pasteFolder
  simp only [hmade, if_true]
  refine ⟨_, rfl, ?_, ?_, ?_⟩
  · intro r
    rw [hrename, if_pos (List.prefix_append _ _), List.drop_left, hnode]
  · intro r
    rw [hrename, if_neg (hbelow r), if_pos (List.prefix_append _ _)]
  · intro l hl hl'
    rw [hrename, if_neg hl', if_neg hl, hnode]

theorem pasteFolder_copy (hfree : t.node (aidx ++ [fileName item]) = none) :
    ∃ t', pasteFolder t .copy item aidx = some t' ∧
      (∀ r, t'.node (aidx ++ [fileName item] ++ r) = if Visible r then t.node (item ++ r) else none) ∧
      (∀ r, t'.node (item ++ r) = t.node (item ++ r)) ∧
      ∀ l, ¬ aidx ++ [fileName item] <+: l → t'.node l = t.node l := by
  obtain ⟨hout, hbelow⟩ := dest_apart hitem hself hfree
  have hnode := Tree.node_create (x := .folder) hname haidx hfree
  have hothers : ∀ l, ¬ aidx ++ [fileName item] <+: l →
      (t.mkdir aidx (fileName item)).2.node l = t.node l := by
    intro l hl
    have hne : l ≠ aidx ++ [fileName item] := fun heq => hl (heq ▸ List.prefix_rfl)
    exact (hnode l).trans (if_neg hne)
  have hfresh : Fresh item (aidx ++ [fileName item]) (t.mkdir aidx (fileName item)).2 := by
    refine ⟨?_, ?_, ?_, hout⟩
    · have hroot := hothers _ (hbelow [])
      rw [List.append_nil, hitem] at hroot
      exact Tree.isDir_iff.mpr hroot
    · exact Tree.isDir_iff.mpr ((hnode _).trans (if_pos rfl))
    · intro name r
      exact (hnode _).trans ((if_neg (by simp)).trans (Tree.none_below hfree _))
  obtain ⟨t', hloop, hkept, hmirror⟩ := copyLoop_mirror hfresh
  refine ⟨t', hloop, ?_, ?_, ?_⟩
  · intro r
    rw [hmirror, hothers _ (hbelow r)]
  · intro r
    rw [hkept _ (hbelow r), hothers _ (hbelow r)]
  · intro l hl
    rw [hkept l hl, hothers l hl]

theorem pasteFolder_new (optype : OpType) (hfree : t.node (aidx ++ [fileName item]) = none) :
    ∃ t', pasteFolder t optype item aidx = some t' ∧
      (∀ r, t'.node (aidx ++ [fileName item] ++ r) =
        if optype = .cut ∨ Visible r then t.node (item ++ r) else none) ∧
      (∀ r, t'.node (item ++ r) = if optype = .cut then none else t.node (item ++ r)) ∧
      ∀ l, ¬ item <+: l → ¬ aidx ++ [fileName item] <+: l → t'.node l = t.node l := by
  cases optype with
  | cut =>
    obtain ⟨t', hpaste, hmoved, hgone, helsewhere⟩ := pasteFolder_cut hitem haidx hname hself hfree
    exact ⟨t', hpaste, by simpa using hmoved, by simpa using hgone, helsewhere⟩
  | copy =>
    obtain ⟨t', hpaste, hcopied, hkept, helsewhere⟩ := pasteFolder_copy hitem haidx hname hself hfree
    exact ⟨t', hpaste, by simpa using hcopied, by simpa using hkept, fun l _ hl => helsewhere l hl⟩

omit haidx hname in
theorem pasteFolder_there (optype : OpType) (hthere : t.node (aidx ++ [fileName item]) ≠ none) :
    ∃ t', pasteFolder t optype item aidx = some t' ∧
      ∀ l x, t.node l = some x → t'.node l = some x := by
  obtain ⟨y, hy⟩ := Option.ne_none_iff_exists'.mp hthere
  have hmade : t.mkdir aidx (fileName item) = (false, t) := by
    unfold Tree.mkdir
    rw [Tree.create_of_there hy, Tree.isThere_iff.mpr hthere]
    simp
  unfold pasteFolder
  simp only [hmade]
  cases optype with
  | cut =>
    refine ⟨_, rfl, fun l x hx => ?_⟩
    simp only [Bool.false_eq_true, if_false]
    rw [Tree.rename_of_there hthere, hx]
  | copy =>
    apply copyLoop_kept (Tree.isDir_iff.mpr hitem)
    intro hpre
    exact (List.prefix_concat_iff.mp hpre).resolve_right hself

theorem placed_iff (hfree : t.node (aidx ++ [fileName item]) = none) {t' : Tree}
    (h : pasteFolder t optype item aidx = some t') :
    Placed t optype item (aidx ++ [fileName item]) t' ↔ Plain t optype item := by
  obtain ⟨t'', hpaste, hcopied, horiginal, helsewhere⟩ :=
    pasteFolder_new hitem haidx hname hself optype hfree
  obtain rfl : t' = t'' := Option.some.inj (h.symm.trans hpaste)
  have hnamed : ∀ r, t.node (item ++ r) ≠ none → ∀ name ∈ r, IsName name := by
    intro r hr name hmem
    obtain ⟨x, hx⟩ := Option.ne_none_iff_exists'.mp hr
    exact Tree.isName_of_mem hx name (List.mem_append_right _ hmem)
  constructor
  · intro hplaced
    have hcopy : ∀ r, (if optype = .cut ∨ Visible r then t.node (item ++ r) else none) =
        (t.node (item ++ r)).map (asCopy (fileName (item ++ r))) := fun r =>
      (hcopied r).symm.trans (hplaced.copied r)
    refine ⟨?_, ?_⟩
    · intro r keys hkeys
      have hr := hcopy r
      rw [hkeys, Option.map_some] at hr
      split at hr
      · have heq : keys = keys.insert "show_name" (fileName (item ++ r)) := by
          simpa [asCopy] using hr
        rw [heq]
        simp [QMap.insert]
      · cases hr
    · intro hop r hr name hmem
      obtain ⟨x, hx⟩ := Option.ne_none_iff_exists'.mp hr
      have hr' := hcopy r
      rw [hx, Option.map_some, hop] at hr'
      split at hr'
      · next hvisible =>
        exact (visible_iff (hnamed r hr)).mp (hvisible.resolve_left (by simp)) name hmem
      · cases hr'
  · intro hplain
    refine ⟨?_, horiginal, helsewhere⟩
    intro r
    rw [hcopied]
    cases hx : t.node (item ++ r) with
    | none => simp
    | some x =>
      have hr : t.node (item ++ r) ≠ none := by simp [hx]
      have hall : optype = .cut ∨ Visible r := by
        cases optype with
        | cut => exact .inl rfl
        | copy => exact .inr ((visible_iff (hnamed r hr)).mpr (hplain.seen rfl r hr))
      rw [if_pos hall, Option.map_some]
      cases x with
      | folder => rfl
      | session keys => rw [asCopy, QMap.insert_of_eq (hplain.shown r keys hx)]

end

theorem prefix_of_concat {parent k : Loc} : parent ++ [name] <+: k ↔ ∃ r, k = parent ++ name :: r := by
  constructor
  · rintro ⟨r, rfl⟩
    exact ⟨r, by simp⟩
  · rintro ⟨r, rfl⟩
    exact ⟨r, by simp⟩

theorem not_besideLonger (hne : item ≠ []) (h : item <+: aidx) : ¬ BesideLonger item aidx := by
  obtain ⟨parent, name, rfl⟩ := (List.eq_nil_or_concat' item).resolve_left hne
  rintro ⟨name', r, haidx, -, hlonger⟩
  obtain ⟨q, hq⟩ := prefix_of_concat.mp h
  rw [hq, List.dropLast_concat, List.append_cancel_left_eq, List.cons.injEq] at haidx
  rw [fileName_concat] at hlonger
  exact hlonger haidx.1.symm

theorem filePath_refuses_iff (sessPath : QString) (hne : item ≠ []) {x y : Node} (hitem : t.node item = some x)
    (haidx : t.node aidx = some y) :
    filePath sessPath item <+: filePath sessPath aidx ↔ item <+: aidx ∨ BesideLonger item aidx := by
  obtain ⟨parent, name, rfl⟩ := (List.eq_nil_or_concat' item).resolve_left hne
  rw [filePath_prefix_iff hitem haidx, BesideLonger, prefix_of_concat, List.dropLast_concat,
    fileName_concat]
  constructor
  · rintro ⟨name', r, hk, hpre⟩
    by_cases heq : name' = name
    · exact .inl ⟨r, heq ▸ hk⟩
    · exact .inr ⟨name', r, hk, hpre, heq⟩
  · rintro (⟨r, hk⟩ | ⟨name', r, hk, hpre, -⟩)
    · exact ⟨name, r, hk, List.prefix_rfl⟩
    · exact ⟨name', r, hk, hpre⟩

theorem isName_fileName (hne : item ≠ []) {x : Node} (hitem : t.node item = some x) :
    IsName (fileName item) := by
  obtain ⟨parent, name, rfl⟩ := (List.eq_nil_or_concat' item).resolve_left hne
  rw [fileName_concat]
  exact t.named _ _ x hitem

theorem slot_folder {selected : Option Loc} (hitem : t.node item = some .folder) :
    slotPasteSelected sessPath t optype item selected =
      if filePath sessPath item <+: filePath sessPath (target t selected) then some .refused
      else (pasteFolder t optype item (target t selected)).map .pasted := by
  unfold slotPasteSelected
  simp only [Tree.isDir_iff.mpr hitem, if_true]
  by_cases heq : target t selected = item
  · rw [if_pos heq, heq, if_pos List.prefix_rfl]
  · rw [if_neg heq]

theorem folder_preserved_iff {selected : Option Loc} (hne : item ≠ [])
    (hitem : t.node item = some .folder) (haidx : t.node (target t selected) = some .folder) :
    (∃ outcome, slotPasteSelected sessPath t optype item selected = some outcome ∧
      Preserved t optype item (target t selected) outcome) ↔
      ¬ BesideLonger item (target t selected) ∧
        (¬ item <+: target t selected → t.node (target t selected ++ [fileName item]) = none →
          Plain t optype item) := by
  have htest := filePath_refuses_iff sessPath hne hitem haidx
  have hdir := Tree.isDir_iff.mpr hitem
  rw [slot_folder hitem]
  by_cases hrefuse : filePath sessPath item <+: filePath sessPath (target t selected)
  · rw [if_pos hrefuse]
    constructor
    · rintro ⟨outcome, houtcome, h⟩
      obtain rfl := Option.some.inj houtcome
      have hself := (h.refused.mp rfl).2
      exact ⟨not_besideLonger hne hself, fun hnot => absurd hself hnot⟩
    · rintro ⟨hbeside, -⟩
      have hself := (htest.mp hrefuse).resolve_right hbeside
      exact ⟨.refused, rfl, iff_of_true rfl ⟨hdir, hself⟩, nofun, nofun⟩
  · rw [if_neg hrefuse]
    obtain ⟨hself, hbeside⟩ := not_or.mp (fun h => hrefuse (htest.mpr h))
    have hrefused : ∀ t', (Outcome.pasted t' = .refused ↔
        t.isDir item = true ∧ item <+: target t selected) := fun t' =>
      iff_of_false nofun fun h => hself h.2
    by_cases hfree : t.node (target t selected ++ [fileName item]) = none
    · obtain ⟨t', hpaste, -, -, helsewhere⟩ :=
        pasteFolder_new hitem haidx (isName_fileName hne hitem) hself optype hfree
      have hplaced := placed_iff hitem haidx (isName_fileName hne hitem) hself hfree hpaste
      rw [hpaste, Option.map_some]
      constructor
      · rintro ⟨outcome, houtcome, h⟩
        obtain rfl := Option.some.inj houtcome
        exact ⟨hbeside, fun _ _ => hplaced.mp (h.placed t' rfl hfree)⟩
      · rintro ⟨-, hplain⟩
        refine ⟨_, rfl, hrefused t', ?_, ?_⟩
        · rintro _ ⟨⟩ -
          exact hplaced.mpr (hplain hself hfree)
        · rintro _ ⟨⟩ l keys hl hkeys
          rw [helsewhere l hl, hkeys]
          rintro ⟨r, rfl⟩
          rw [Tree.none_below hfree] at hkeys
          cases hkeys
    · obtain ⟨t', hpaste, hkept⟩ := pasteFolder_there hitem hself optype hfree
      rw [hpaste, Option.map_some]
      refine iff_of_true ⟨_, rfl, hrefused t', fun _ _ hnone => absurd hnone hfree, ?_⟩
        ⟨hbeside, fun _ hnone => absurd hnone hfree⟩
      rintro _ ⟨⟩ l keys - hkeys
      exact hkept l _ hkeys

/-! ## Sessions -/

theorem freeName_free {todo i : Nat} {name' : QString} (h : freeName t aidx name todo i = some name') :
    t.node (aidx ++ [name']) = none := by
  induction todo generalizing i with
  | zero => cases h
  | succ todo ih =>
    unfold freeName at h
    split at h
    · exact ih h
    · next hfree =>
      obtain rfl := Option.some.inj h
      simpa [Tree.isThere] using hfree

theorem childPath_filePath_iff (sessPath : QString) (hne : item ≠ []) {x y : Node}
    (hitem : t.node item = some x) (haidx : t.node aidx = some y) :
    childPath (filePath sessPath aidx) (fileName item) = filePath sessPath item ↔
      aidx ++ [fileName item] = item := by
  unfold filePath
  rw [childPath_joinPath]
  constructor
  · intro h
    have hnames : ∀ name ∈ aidx ++ [fileName item], IsName name := by
      intro name hmem
      rcases List.mem_append.mp hmem with hmem | hmem
      · exact Tree.isName_of_mem haidx name hmem
      · exact List.mem_singleton.mp hmem ▸ isName_fileName hne hitem
    have hresolve := resolve_joinPath sessPath hnames
    rw [h, resolve_joinPath sessPath (Tree.isName_of_mem hitem)] at hresolve
    exact (Option.some.inj hresolve).symm
  · intro h
    rw [h]

theorem pasteSession_self (hne : item ≠ []) {x y : Node} (hitem : t.node item = some x)
    (haidx : t.node aidx = some y) (hself : aidx ++ [fileName item] = item) {k : Loc} {z : Node}
    (hk : k ≠ item) (hz : t.node k = some z) :
    (pasteSession sessPath t item aidx).node k = some z := by
  have hother : otherName sessPath t item aidx = freeName t aidx (fileName item) 88888 0 := by
    rw [otherName, if_pos ((childPath_filePath_iff sessPath hne hitem haidx).mpr hself)]
  unfold pasteSession
  rw [Tree.node_write_of_ne, hz]
  rintro rfl
  cases hname : otherName sessPath t item aidx with
  | none => exact hk (by rw [hname, Option.getD_none, hself])
  | some name =>
    rw [hname, Option.getD_some, freeName_free (hother.symm.trans hname)] at hz
    cases hz

theorem pasteSession_other (hne : item ≠ []) {keys : QMap} {y : Node}
    (hitem : t.node item = some (.session keys)) (haidx : t.node aidx = some y)
    (hself : aidx ++ [fileName item] ≠ item) :
    pasteSession sessPath t item aidx = t.write aidx (fileName item) (.session
      ((BaseStorage.setValues keys (keysAt t (aidx ++ [fileName item]))).insert "show_name" [])) := by
  have hother : otherName sessPath t item aidx = none := by
    rw [otherName, if_neg (mt (childPath_filePath_iff sessPath hne hitem haidx).mp hself)]
  have hkeys : keysAt t item = some keys := by rw [keysAt, hitem]
  unfold pasteSession
  rw [hother, hkeys, Option.getD_none, Option.getD_none, Option.getD_some]

theorem setValues_eq_iff {keys keys' : QMap} :
    (BaseStorage.setValues keys (some keys')).insert "show_name" [] = keys' ↔
      keys' "show_name".toList = some [] ∧
        ∀ key value, key ≠ "show_name".toList → keys key = some value → keys' key = some value := by
  constructor
  · intro h
    refine ⟨?_, ?_⟩
    · rw [← h, QMap.insert_self]
    · intro key value hkey hvalue
      rw [← h, QMap.insert_of_ne hkey, BaseStorage.setValues, hvalue, Option.some_or]
  · rintro ⟨hshow, hothers⟩
    funext key
    by_cases hkey : key = "show_name".toList
    · rw [hkey, hshow, QMap.insert_self]
    · rw [QMap.insert_of_ne hkey, BaseStorage.setValues, Option.bind_some]
      cases hvalue : keys key with
      | none => rw [Option.none_or]
      | some value => rw [hothers key value hkey hvalue, Option.some_or]

theorem slot_session {selected : Option Loc} {keys : QMap} (hitem : t.node item = some (.session keys)) :
    slotPasteSelected sessPath t optype item selected =
      some (.pasted (pasteSession sessPath t item (target t selected))) := by
  have hdir : ¬ t.isDir item = true := by simp [Tree.isDir_eq hitem, Node.isFolder]
  unfold slotPasteSelected
  simp only [if_neg hdir]

section

variable {keys : QMap} (hne : item ≠ []) (hitem : t.node item = some (.session keys))
  (haidx : t.node aidx = some .folder)

include hitem

theorem session_refused (t' : Tree) :
    Outcome.pasted t' = .refused ↔ t.isDir item = true ∧ item <+: aidx := by
  rw [Tree.isDir_eq hitem]
  exact iff_of_false nofun nofun

theorem session_preserved_there (hthere : t.node (aidx ++ [fileName item]) ≠ none) {t' : Tree} :
    Preserved t optype item aidx (.pasted t') ↔ ∀ l keys', ¬ item <+: l →
      t.node l = some (.session keys') → t'.node l = some (.session keys') := by
  constructor
  · intro h
    exact h.others t' rfl
  · intro h
    refine ⟨session_refused hitem t', fun _ _ hfree => absurd hfree hthere, ?_⟩
    rintro _ ⟨⟩
    exact h

theorem not_in_session (hself : aidx ++ [fileName item] ≠ item)
    (hthere : t.node (aidx ++ [fileName item]) ≠ none) : ¬ item <+: aidx ++ [fileName item] := by
  rintro ⟨r, hr⟩
  obtain ⟨x, hx⟩ := Option.ne_none_iff_exists'.mp hthere
  rw [← hr] at hx
  have hempty : r ≠ [] := by
    rintro rfl
    exact hself (by rw [← hr, List.append_nil])
  rw [Tree.folder_above hempty hx] at hitem
  cases hitem

include hne haidx

theorem session_new (hself : aidx ++ [fileName item] ≠ item)
    (hfree : t.node (aidx ++ [fileName item]) = none) :
    ¬ Preserved t optype item aidx (.pasted (pasteSession sessPath t item aidx)) := by
  have hname := isName_fileName hne hitem
  intro h
  have hcopied := (h.placed _ rfl hfree).copied []
  rw [pasteSession_other hne hitem haidx hself, List.append_nil, List.append_nil,
    Tree.node_write hname haidx (by simp [hfree]), if_pos rfl, hitem, Option.map_some, asCopy,
    Option.some.injEq, Node.session.injEq] at hcopied
  have hshow := congrFun hcopied "show_name".toList
  rw [QMap.insert_self, QMap.insert_self] at hshow
  exact hname.1 (Option.some.inj hshow).symm

theorem session_over (hself : aidx ++ [fileName item] ≠ item) {keys' : QMap}
    (hdest : t.node (aidx ++ [fileName item]) = some (.session keys')) :
    Preserved t optype item aidx (.pasted (pasteSession sessPath t item aidx)) ↔
      keys' "show_name".toList = some [] ∧
        ∀ key value, key ≠ "show_name".toList → keys key = some value → keys' key = some value := by
  have hthere : t.node (aidx ++ [fileName item]) ≠ none := by simp [hdest]
  have hwrite : ∀ k, (pasteSession sessPath t item aidx).node k = if k = aidx ++ [fileName item] then
      some (.session ((BaseStorage.setValues keys (some keys')).insert "show_name" [])) else t.node k := by
    intro k
    have hkeys : keysAt t (aidx ++ [fileName item]) = some keys' := by rw [keysAt, hdest]
    rw [pasteSession_other hne hitem haidx hself, hkeys]
    exact Tree.node_write (isName_fileName hne hitem) haidx (by simp [hdest]) k
  rw [session_preserved_there hitem hthere, ← setValues_eq_iff]
  constructor
  · intro h
    have hsame := h _ keys' (not_in_session hitem hself hthere) hdest
    rwa [hwrite, if_pos rfl, Option.some.injEq, Node.session.injEq] at hsame
  · intro hsame l keys'' _ hl
    rw [hwrite, hsame]
    split
    · next heq => rw [← hl, heq, hdest]
    · exact hl

theorem session_preserved_iff :
    Preserved t optype item aidx (.pasted (pasteSession sessPath t item aidx)) ↔
      Harmless t item aidx := by
  by_cases hself : aidx ++ [fileName item] = item
  · refine iff_of_true ?_ (.inl hself)
    rw [session_preserved_there hitem (by simp [hself, hitem])]
    intro l keys' hl hkeys
    exact pasteSession_self hne hitem haidx hself (fun heq => hl (heq ▸ List.prefix_rfl)) hkeys
  · cases hdest : t.node (aidx ++ [fileName item]) with
    | none =>
      refine iff_of_false (session_new hne hitem haidx hself hdest) ?_
      rintro (h | h | ⟨_, _, -, h, -⟩)
      · exact hself h
      · rw [Tree.isDir_iff, hdest] at h
        cases h
      · rw [hdest] at h
        cases h
    | some x =>
      cases x with
      | folder =>
        refine iff_of_true ?_ (.inr (.inl (Tree.isDir_iff.mpr hdest)))
        rw [session_preserved_there hitem (by simp [hdest]), pasteSession_other hne hitem haidx hself,
          Tree.write_of_folder hdest]
        exact fun l keys' _ hkeys => hkeys
      | session keys' =>
        rw [session_over hne hitem haidx hself hdest]
        constructor
        · intro h
          exact .inr (.inr ⟨keys, keys', hitem, hdest, h⟩)
        · rintro (h | h | ⟨keys₁, keys₂, h₁, h₂, h⟩)
          · exact absurd h hself
          · rw [Tree.isDir_eq hdest] at h
            cases h
          · obtain rfl : keys = keys₁ := by simpa [hitem] using h₁
            obtain rfl : keys' = keys₂ := by simpa [hdest] using h₂
            exact h

end

/-! ## Every paste -/

/-- **When pasting preserves the sessions.** -/
theorem paste_preserves_iff (sessPath : QString) (t : Tree) (optype : OpType) (item : Loc)
    (selected : Option Loc) (hne : item ≠ []) (hitem : t.node item ≠ none)
    (hselected : t.node (selected.getD []) ≠ none) :
    (∃ outcome, slotPasteSelected sessPath t optype item selected = some outcome ∧
      Preserved t optype item (target t selected) outcome) ↔
      Pastable t optype item (target t selected) := by
  have haidx := target_folder hselected
  obtain ⟨x, hx⟩ := Option.ne_none_iff_exists'.mp hitem
  unfold Pastable
  cases x with
  | folder =>
    rw [if_pos (Tree.isDir_iff.mpr hx)]
    exact folder_preserved_iff hne hx haidx
  | session keys =>
    have hdir : ¬ t.isDir item = true := by simp [Tree.isDir_eq hx, Node.isFolder]
    rw [if_neg hdir, slot_session hx, ← session_preserved_iff hne hx haidx]
    constructor
    · rintro ⟨outcome, houtcome, h⟩
      obtain rfl := Option.some.inj houtcome
      exact h
    · intro h
      exact ⟨_, rfl, h⟩

def bareTree : Tree where
  node l := if l = [] then some .folder else none
  places := [[]]
  covers := by simp
  root := rfl
  named := by simp
  closed := by simp

/-- The folders `a` and `b`, and a session `s` in the first one. -/
def sampleTree : Tree :=
  ((bareTree.create [] ['a'] .folder).create [] ['b'] .folder).create [['a']] ['s']
    (.session (QMap.empty.insert "show_name" ['s']))

theorem plain_sampleTree (optype : OpType) : Plain sampleTree optype [['a']] := by
  have hbelow : ∀ r, sampleTree.node ([['a']] ++ r) ≠ none → r = [] ∨ r = [['s']] := by
    intro r hr
    obtain ⟨x, hx⟩ := Option.ne_none_iff_exists'.mp hr
    have hmem : [['a']] ++ r ∈ [[['a'], ['s']], [['b']], [['a']], []] := sampleTree.covers _ x hx
    simp at hmem
    tauto
  refine ⟨?_, ?_⟩
  · intro r keys hkeys
    rcases hbelow r (by rw [hkeys]; exact Option.some_ne_none _) with rfl | rfl
    · have hdir : sampleTree.isDir ([['a']] ++ []) = true := by decide
      rw [Tree.isDir_eq hkeys] at hdir
      cases hdir
    · obtain rfl : QMap.empty.insert "show_name" ['s'] = keys := by
        simpa using (show sampleTree.node ([['a']] ++ [['s']]) =
          some (.session (QMap.empty.insert "show_name" ['s'])) from rfl).symm.trans hkeys
      exact QMap.insert_self _ _ _
  · intro _ r hr
    rcases hbelow r hr with rfl | rfl
    · simp
    · decide

theorem paste_preserves_sampleTree :
    sampleTree.node [['a']] ≠ none ∧ ∃ outcome,
      slotPasteSelected "/sessions".toList sampleTree .copy [['a']] (some [['b']]) = some outcome ∧
        Preserved sampleTree .copy [['a']] (target sampleTree (some [['b']])) outcome := by
  refine ⟨by decide, (paste_preserves_iff _ sampleTree .copy [['a']] (some [['b']]) (by decide)
    (by decide) (by decide)).mpr ?_⟩
  have htarget : target sampleTree (some [['b']]) = [['b']] := by decide
  have hbeside : ¬ BesideLonger [['a']] [['b']] := by
    rintro ⟨name, r, heq, hpre, -⟩
    obtain ⟨rfl, -⟩ := List.cons.inj heq
    revert hpre
    decide
  rw [Pastable, if_pos (by decide), htarget]
  exact ⟨hbeside, fun _ _ => plain_sampleTree .copy⟩

theorem paste_loses_show_name : ¬ ∃ outcome,
    slotPasteSelected "/sessions".toList sampleTree .cut [['a'], ['s']] (some [['b']]) = some outcome ∧
      Preserved sampleTree .cut [['a'], ['s']] (target sampleTree (some [['b']])) outcome := by
  -- The session `s` is cut and pasted into `b`: it stays where it was, and the new one is shown
  -- under no name.
  rintro ⟨outcome, houtcome, h⟩
  have hitem : sampleTree.node [['a'], ['s']] =
    some (.session (QMap.empty.insert "show_name" ['s'])) := rfl
  rw [slot_session hitem] at houtcome
  obtain rfl := Option.some.inj houtcome
  rw [session_preserved_iff (by decide) hitem (target_folder (by decide))] at h
  have htarget : target sampleTree (some [['b']]) ++ [fileName [['a'], ['s']]] = [['b'], ['s']] := by
    decide
  have hfree : sampleTree.node [['b'], ['s']] = none := rfl
  unfold Harmless at h
  rw [htarget] at h
  rcases h with h | h | ⟨_, _, -, h, -⟩
  · revert h
    decide
  · revert h
    decide
  · rw [hfree] at h
    cases h

end NullFxp.SessionDialog
