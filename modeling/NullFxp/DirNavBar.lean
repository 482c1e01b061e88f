import Mathlib.Data.Option.Basic
import NullFxp.Lib.Runs
import NullFxp.QString

/-!
# The navigation bar

The history is kept in the items of a combo box, before a last item "Clear...". The position in it is an
`unsigned char`, and an empty history has the position -1, which is 255.

No item is ever current: the box starts without a current item, and `insertItem` and `removeItem` do not
make one. So only `setEditText` changes the text.
-/

open Runs Text

namespace NullFxp

def clearText : QString := "Clear...".toList

def maxHistoryCount : Nat := 100

structure DirNavBar where
  items : List QString
  editText : QString
  homePath : QString
  dirHistoryCurrentPos : UInt8
  deriving DecidableEq

namespace DirNavBar

def init : DirNavBar := ⟨[clearText], [], [], 255⟩

/-! ## The operations -/

/-- Without a current item the text is empty. -/
def onComboBoxEditTextChanged (b : DirNavBar) (text : QString) : DirNavBar :=
  if text = clearText then
    { b with editText := [], dirHistoryCurrentPos := 255, items := b.items.drop (b.items.length - 1) }
  else b

/-- `comboBox->setEditText(text)`, which emits `editTextChanged` when the text is another. -/
def setEditText (b : DirNavBar) (text : QString) : DirNavBar :=
  if b.editText = text then b else onComboBoxEditTextChanged { b with editText := text } text

/-- How a path gets into the history: before the last item, and over the limit the oldest one goes. -/
def insertPath (b : DirNavBar) (path : QString) : Option DirNavBar := do
  let b := b.setEditText path
  guard (1 ≤ b.items.length)
  let items := b.items.insertIdx (b.items.length - 1) path
  let items := if maxHistoryCount < items.length then items.drop 1 else items
  some { b with items := items, dirHistoryCurrentPos := UInt8.ofNat (items.length - 2) }

def onSetHome (b : DirNavBar) (path : QString) : Option DirNavBar := do
  guard (path ≠ [])
  insertPath { b with homePath := path } path

def onNavToPath (b : DirNavBar) (path : QString) : Option DirNavBar := do
  guard (path ≠ [])
  b.insertPath path

/-- Goes to item `p1`, and emits its text. -/
def goTo (b : DirNavBar) (p1 : Int) : Option (DirNavBar × Option QString) := do
  guard (0 ≤ p1 ∧ p1 < b.items.length)
  let path := b.items.getD p1.toNat []
  some (setEditText { b with dirHistoryCurrentPos := UInt8.ofNat p1.toNat } path, some path)

def onGoPrevious (b : DirNavBar) : Option (DirNavBar × Option QString) :=
  let p1 : Int := b.dirHistoryCurrentPos.toNat - 1
  let p2 : Int := b.items.length - 2
  let p1 := if p1 < 0 then p2 else p1
  if p1 < 0 then some (b, none)
  else if p1 = 0 ∧ p2 = 0 then some (b, none)
  else b.goTo p1

def onGoNext (b : DirNavBar) : Option (DirNavBar × Option QString) :=
  let p1 : Int := b.dirHistoryCurrentPos.toNat + 1
  let p2 : Int := b.items.length - 2
  let p1 := if p1 > p2 then 0 else p1
  if p1 = 0 ∧ p2 = 0 then some (b, none)
  else b.goTo p1

/-- Two characters go with a slash at the end, or a backslash at the beginning. -/
def cutEnd (currPath : QString) : QString :=
  if 1 < currPath.length ∧ (currPath.getLast? = some '/' ∨ currPath.head? = some '\\') then
    currPath.take (currPath.length - 2)
  else currPath

def lastSeparator (currPath : QString) : Int :=
  let upos := lastIndexOf ['/'] currPath
  if upos = -1 then lastIndexOf ['\\'] currPath else upos

def onGoUp (b : DirNavBar) : Option (DirNavBar × Option QString) :=
  if b.editText = [] then some (b, none)
  else
    let currPath := cutEnd b.editText
    if currPath = ['/'] then some (b, none)
    else do
      let upos := lastSeparator currPath
      guard (upos ≠ -1)
      let currPath := currPath.take upos.toNat
      let currPath := if currPath = [] then ['/'] else currPath
      let b ← b.insertPath currPath
      some (b, some currPath)

/-! ## Sequences of operations -/

/-- `clear` is the choice of the last item, which brings its text to the edit line. -/
inductive Op where
  | setHome (path : QString)
  | navToPath (path : QString)
  | goPrevious
  | goNext
  | goUp
  | clear
  deriving DecidableEq

/-- The bar after an operation, and the path that it emits. -/
def act (b : DirNavBar) : Op → Option (DirNavBar × Option QString)
  | .setHome path => (b.onSetHome path).map fun b => (b, none)
  | .navToPath path => (b.onNavToPath path).map fun b => (b, none)
  | .goPrevious => b.onGoPrevious
  | .goNext => b.onGoNext
  | .goUp => b.onGoUp
  | .clear => some (b.onComboBoxEditTextChanged clearText, none)

/-- The path that an operation goes to. -/
def Op.visits : Op → Option QString → List QString
  | .setHome path, _ => [path]
  | .navToPath path, _ => [path]
  | _, emitted => emitted.toList

/-- The bar, and the paths visited so far. -/
structure Walk where
  bar : DirNavBar
  visited : List QString

def Walk.start : Walk := ⟨init, []⟩

def step (w : Walk) (op : Op) : Option Walk :=
  (w.bar.act op).map fun r => ⟨r.1, op.visits r.2 ++ w.visited⟩

/-! ## What is asked of the history -/

/-- The position, with 255 for -1. -/
def position (b : DirNavBar) : Int := b.dirHistoryCurrentPos.toInt8.toInt

structure WellFormed (b : DirNavBar) : Prop where
  last : b.items.getLast? = some clearText
  once : clearText ∉ b.items.dropLast
  count : b.items.length ≤ maxHistoryCount
  pos : -1 ≤ b.position ∧ b.position ≤ (b.items.length : Int) - 2

/-- The operation comes to an end with a history in order, and backwards and forwards leads to a path
that was visited. -/
def Keeps (w : Walk) (op : Op) : Prop :=
  ∃ b emitted, w.bar.act op = some (b, emitted) ∧ b.WellFormed ∧
    (op = .goPrevious ∨ op = .goNext → ∀ path, emitted = some path →
      path ∈ w.visited ∧ path ≠ clearText)

/-- The text has a directory above it that is not named like the last item. -/
def HasParent (text : QString) : Prop :=
  ('/' ∈ text ∨ '\\' ∈ text) ∧
    ∀ name, '/' ∉ name → text ≠ clearText ++ '/' :: name ∧
      ('\\' ∉ name → text ≠ clearText ++ '\\' :: name)

/-- What an operation needs: a path that is neither empty nor the text of the last item, or a history
that is not empty, or a text that has a directory above it. -/
def Allowed (w : Walk) : Op → Prop
  | .setHome path => path ≠ [] ∧ path ≠ clearText
  | .navToPath path => path ≠ [] ∧ path ≠ clearText
  | .goPrevious => 1 < w.bar.items.length
  | .goNext => 1 < w.bar.items.length
  | .goUp => w.bar.editText = [] ∨ cutEnd w.bar.editText = ['/'] ∨ HasParent (cutEnd w.bar.editText)
  | .clear => True

/-! ## The history -/

/-- The items are `hist` and the last one, and the position is in `hist`. -/
structure InOrder (b : DirNavBar) (hist : List QString) : Prop where
  items : b.items = hist ++ [clearText]
  once : clearText ∉ hist
  count : hist.length < maxHistoryCount
  pos : if hist = [] then b.dirHistoryCurrentPos = 255 else b.dirHistoryCurrentPos.toNat < hist.length

theorem position_of_lt {b : DirNavBar} (h : b.dirHistoryCurrentPos.toNat < 128) :
    b.position = b.dirHistoryCurrentPos.toNat := by
  unfold position
  exact BitVec.toInt_eq_toNat_of_lt (by change 2 * b.dirHistoryCurrentPos.toNat < 2 ^ 8; omega)

theorem InOrder.wellFormed {b : DirNavBar} {hist : List QString} (h : InOrder b hist) :
    b.WellFormed := by
  have hcount : hist.length < 100 := h.count
  refine ⟨by simp [h.items], by simpa [h.items] using h.once, ?_, ?_⟩
  · rw [h.items, List.length_append]
    exact hcount
  · have hpos := h.pos
    rw [h.items, List.length_append, List.length_singleton]
    split at hpos
    · next hnil =>
      unfold position
      rw [hpos, hnil]
      decide
    · rw [position_of_lt (by omega)]
      omega

section Insert

variable {b : DirNavBar} {hist : List QString}

theorem setEditText_eq {path : QString} (h : path ≠ clearText) :
    b.setEditText path = { b with editText := path } := by
  unfold setEditText onComboBoxEditTextChanged
  split
  · next heq => rw [← heq]
  · rfl

/-- The history with one more path. -/
def pushed (hist : List QString) (path : QString) : List QString :=
  if hist.length + 1 < maxHistoryCount then hist ++ [path] else hist.drop 1 ++ [path]

theorem insertIdx_last (l : List QString) (x path : QString) :
    (l ++ [x]).insertIdx l.length path = l ++ [path, x] := by
  induction l with
  | nil => rfl
  | cons y l ih => simp [ih]

theorem insertPath_inOrder (h : InOrder b hist) {path : QString} (hpath : path ≠ clearText) :
    ∃ b', b.insertPath path = some b' ∧ InOrder b' (pushed hist path) := by
  have hcount : hist.length < 100 := h.count
  have hins : b.insertPath path = some { b with
      editText := path
      items := pushed hist path ++ [clearText]
      dirHistoryCurrentPos := UInt8.ofNat ((pushed hist path).length - 1) } := by
    unfold insertPath
    rw [setEditText_eq hpath]
    simp only [h.items, List.length_append, Nat.add_sub_cancel,
      insertIdx_last, Nat.le_add_left, guard_true, Option.pure_def, Option.bind_eq_bind,
      Option.bind_some, List.length_cons, List.length_nil]
    have hlimit : (if maxHistoryCount < hist.length + (0 + 1 + 1) then
        (hist ++ [path, clearText]).drop 1 else hist ++ [path, clearText]) =
        pushed hist path ++ [clearText] := by
      unfold pushed maxHistoryCount
      by_cases hfull : hist.length + 1 < 100
      · rw [if_neg (by omega), if_pos hfull]
        simp
      · rw [if_pos (by omega), if_neg hfull, List.drop_append_of_le_length (by omega)]
        simp
    rw [hlimit]
    simp
  refine ⟨_, hins, rfl, ?_, ?_, ?_⟩
  · unfold pushed
    split
    · simp [h.once, Ne.symm hpath]
    · simp only [List.mem_append, List.mem_singleton, not_or]
      exact ⟨fun hmem => h.once (List.mem_of_mem_drop hmem), Ne.symm hpath⟩
  · unfold pushed maxHistoryCount
    split
    · simpa using by assumption
    · simp; omega
  · have hne : pushed hist path ≠ [] := by
      unfold pushed
      split <;> simp
    have hlen : (pushed hist path).length ≤ 100 := by
      unfold pushed maxHistoryCount
      split
      · simp; omega
      · simp; omega
    have hpos := List.length_pos_of_ne_nil hne
    rw [if_neg hne]
    simp only [UInt8.toNat_ofNat']
    omega

theorem pushed_subset (hist : List QString) (path : QString) : pushed hist path ⊆ path :: hist := by
  intro x hx
  unfold pushed at hx
  split at hx
  · simpa [or_comm] using hx
  · rcases List.mem_append.mp hx with hx | hx
    · exact List.mem_cons_of_mem _ (List.mem_of_mem_drop hx)
    · exact List.mem_cons.mpr (.inl (List.mem_singleton.mp hx))

theorem insertPath_clear (h : InOrder b hist) {b' : DirNavBar}
    (hins : b.insertPath clearText = some b') : ¬ b'.WellFormed := by
  have hitems : ∃ l, (b.setEditText clearText).items = l ++ [clearText] := by
    unfold setEditText onComboBoxEditTextChanged
    split
    · exact ⟨hist, h.items⟩
    · exact ⟨[], by simp [h.items]⟩
  obtain ⟨l, hl⟩ := hitems
  simp only [insertPath, hl, List.length_append, Nat.add_sub_cancel,
    insertIdx_last, Nat.le_add_left, guard_true, Option.pure_def, Option.bind_eq_bind,
    Option.bind_some, Option.some.injEq, List.length_cons, List.length_nil] at hins
  intro hwf
  apply hwf.once
  rw [← hins]
  dsimp only
  split
  · cases l with
    | nil => simp [maxHistoryCount] at *
    | cons x l => simp
  · simp

end Insert

/-! ## Backwards and forwards -/

section Go

variable {b : DirNavBar} {hist : List QString}

theorem goTo_inOrder (h : InOrder b hist) {i : Nat} (hi : i < hist.length) :
    ∃ b' path, b.goTo i = some (b', some path) ∧ path ∈ hist ∧ InOrder b' hist := by
  have hcount : hist.length < 100 := h.count
  have hat : b.items.getD i [] = hist[i] := by
    rw [h.items, List.getD_eq_getElem?_getD, List.getElem?_append_left hi, List.getElem?_eq_getElem hi,
      Option.getD_some]
  have hmem : hist[i] ∈ hist := List.getElem_mem hi
  have hne : hist[i] ≠ clearText := fun heq => h.once (heq ▸ hmem)
  have hguard : (0 : Int) ≤ i ∧ (i : Int) < b.items.length := by
    rw [h.items]
    simp; omega
  refine ⟨{ b with dirHistoryCurrentPos := UInt8.ofNat i, editText := hist[i] }, hist[i], ?_, hmem,
    h.items, h.once, h.count, ?_⟩
  · unfold goTo
    simp only [hguard, guard_true, Int.toNat_natCast, hat, and_self, setEditText_eq hne]
    rfl
  · rw [if_neg (List.ne_nil_of_mem hmem)]
    simp only [UInt8.toNat_ofNat']
    omega

theorem onGoPrevious_inOrder (h : InOrder b hist) (hne : hist ≠ []) :
    ∃ b' emitted, b.onGoPrevious = some (b', emitted) ∧ InOrder b' hist ∧
      ∀ path, emitted = some path → path ∈ hist := by
  have hpos := h.pos
  have hlen := List.length_pos_of_ne_nil hne
  rw [if_neg hne] at hpos
  unfold onGoPrevious
  simp only [h.items, List.length_append, List.length_singleton]
  -- the item before, or the last one
  obtain ⟨i, hi, hp1⟩ : ∃ i : Nat, i < hist.length ∧
      (if (b.dirHistoryCurrentPos.toNat : Int) - 1 < 0 then ((hist.length + 1 : Nat) : Int) - 2
        else b.dirHistoryCurrentPos.toNat - 1) = i := by
    split
    · exact ⟨hist.length - 1, by omega, by omega⟩
    · exact ⟨b.dirHistoryCurrentPos.toNat - 1, by omega, by omega⟩
  rw [hp1, if_neg (by omega)]
  split
  · exact ⟨b, none, rfl, h, by simp⟩
  · obtain ⟨b', path, hgo, hmem, h'⟩ := goTo_inOrder h hi
    refine ⟨b', some path, hgo, h', ?_⟩
    intro q hq
    exact Option.some.inj hq ▸ hmem

theorem onGoNext_inOrder (h : InOrder b hist) (hne : hist ≠ []) :
    ∃ b' emitted, b.onGoNext = some (b', emitted) ∧ InOrder b' hist ∧
      ∀ path, emitted = some path → path ∈ hist := by
  have hpos := h.pos
  have hlen := List.length_pos_of_ne_nil hne
  rw [if_neg hne] at hpos
  unfold onGoNext
  simp only [h.items, List.length_append, List.length_singleton]
  obtain ⟨i, hi, hp1⟩ : ∃ i : Nat, i < hist.length ∧
      (if (b.dirHistoryCurrentPos.toNat : Int) + 1 > ((hist.length + 1 : Nat) : Int) - 2 then (0 : Int)
        else b.dirHistoryCurrentPos.toNat + 1) = i := by
    split
    · exact ⟨0, by omega, by omega⟩
    · exact ⟨b.dirHistoryCurrentPos.toNat + 1, by omega, by omega⟩
  rw [hp1]
  split
  · exact ⟨b, none, rfl, h, by simp⟩
  · obtain ⟨b', path, hgo, hmem, h'⟩ := goTo_inOrder h hi
    refine ⟨b', some path, hgo, h', ?_⟩
    intro q hq
    exact Option.some.inj hq ▸ hmem

theorem onGoPrevious_empty (h : InOrder b []) : b.onGoPrevious = none := by
  have hpos : b.dirHistoryCurrentPos = 255 := by simpa using h.pos
  unfold onGoPrevious goTo
  simp [h.items, hpos]

theorem onGoNext_empty (h : InOrder b []) : ∃ b', b.onGoNext = some (b', some clearText) := by
  have hpos : b.dirHistoryCurrentPos = 255 := by simpa using h.pos
  unfold onGoNext goTo
  simp [h.items, hpos]

end Go

/-! ## Up -/

theorem lastSeparator_slash (p : QString) {name : QString} (h : '/' ∉ name) :
    lastSeparator (p ++ '/' :: name) = p.length := by
  unfold lastSeparator
  rw [lastIndexOf_char_append _ _ h, if_neg (by omega)]

theorem lastSeparator_backslash {p name : QString} (hp : '/' ∉ p) (hname : '/' ∉ name)
    (h : '\\' ∉ name) : lastSeparator (p ++ '\\' :: name) = p.length := by
  have hnone : '/' ∉ p ++ '\\' :: name := by simp [hp, hname]
  unfold lastSeparator
  rw [lastIndexOf_char_of_not_mem hnone, if_pos rfl, lastIndexOf_char_append _ _ h]

theorem lastSeparator_none {text : QString} (h : '/' ∉ text) (h' : '\\' ∉ text) :
    lastSeparator text = -1 := by
  unfold lastSeparator
  rw [lastIndexOf_char_of_not_mem h, if_pos rfl, lastIndexOf_char_of_not_mem h']

theorem hasParent_iff (text : QString) :
    HasParent text ↔
      lastSeparator text ≠ -1 ∧ text.take (lastSeparator text).toNat ≠ clearText := by
  unfold HasParent
  constructor
  · rintro ⟨hsep, hclear⟩
    by_cases hslash : '/' ∈ text
    · obtain ⟨p, name, rfl, hname⟩ := exists_last_of_mem hslash
      rw [lastSeparator_slash p hname]
      refine ⟨by omega, ?_⟩
      rw [Int.toNat_natCast, List.take_left']
      rintro rfl
      exact (hclear name hname).1 rfl
      rfl
    · obtain ⟨p, name, rfl, hname⟩ := exists_last_of_mem (hsep.resolve_left hslash)
      have hparts : '/' ∉ p ∧ '/' ∉ name := by simpa using hslash
      rw [lastSeparator_backslash hparts.1 hparts.2 hname]
      refine ⟨by omega, ?_⟩
      rw [Int.toNat_natCast, List.take_left']
      rintro rfl
      exact (hclear name hparts.2).2 hname rfl
      rfl
  · rintro ⟨hsep, hclear⟩
    refine ⟨?_, ?_⟩
    · by_contra hnone
      rw [not_or] at hnone
      exact hsep (lastSeparator_none hnone.1 hnone.2)
    · intro name hname
      refine ⟨?_, ?_⟩
      · rintro rfl
        apply hclear
        rw [lastSeparator_slash _ hname, Int.toNat_natCast, List.take_left']
        rfl
      · rintro hback rfl
        apply hclear
        rw [lastSeparator_backslash (by decide) hname hback, Int.toNat_natCast, List.take_left']
        rfl

section Up

variable {b : DirNavBar} {hist : List QString}

theorem onGoUp_inOrder (h : InOrder b hist)
    (hup : b.editText = [] ∨ cutEnd b.editText = ['/'] ∨ HasParent (cutEnd b.editText)) :
    ∃ b' emitted hist', b.onGoUp = some (b', emitted) ∧ InOrder b' hist' ∧
      hist' ⊆ emitted.toList ++ hist := by
  unfold onGoUp
  by_cases htext : b.editText = []
  · exact ⟨b, none, hist, if_pos htext, h, by simp⟩
  rw [if_neg htext]
  by_cases htop : cutEnd b.editText = ['/']
  · exact ⟨b, none, hist, if_pos htop, h, by simp⟩
  have hparent := (hasParent_iff _).mp ((hup.resolve_left htext).resolve_left htop)
  generalize hcurr : (if (cutEnd b.editText).take (lastSeparator (cutEnd b.editText)).toNat = [] then
    ['/'] else (cutEnd b.editText).take (lastSeparator (cutEnd b.editText)).toNat) = currPath
  have hne : currPath ≠ clearText := by
    rw [← hcurr]
    split
    · decide
    · exact hparent.2
  obtain ⟨b', hins, h'⟩ := insertPath_inOrder h hne
  refine ⟨b', some currPath, pushed hist currPath, ?_, h', pushed_subset hist currPath⟩
  simp only [if_neg htop, hparent.1, ne_eq, not_false_eq_true, guard_true, Option.pure_def,
    Option.bind_eq_bind, Option.bind_some, hcurr, hins]

theorem onGoUp_allowed (h : InOrder b hist) {b' : DirNavBar} {emitted : Option QString}
    (hgo : b.onGoUp = some (b', emitted)) (hwf : b'.WellFormed) :
    b.editText = [] ∨ cutEnd b.editText = ['/'] ∨ HasParent (cutEnd b.editText) := by
  unfold onGoUp at hgo
  by_cases htext : b.editText = []
  · exact .inl htext
  by_cases htop : cutEnd b.editText = ['/']
  · exact .inr (.inl htop)
  rw [if_neg htext] at hgo
  simp only [if_neg htop, Option.bind_eq_bind, Option.bind_eq_some_iff, Option.some.injEq,
    Prod.mk.injEq] at hgo
  obtain ⟨_, hsep, b₁, hins, rfl, -⟩ := hgo
  have hsep : lastSeparator (cutEnd b.editText) ≠ -1 := by
    by_contra hnone
    simp [hnone] at hsep
  refine .inr (.inr ((hasParent_iff _).mpr ⟨hsep, ?_⟩))
  intro hclear
  rw [hclear, if_neg (by decide)] at hins
  exact insertPath_clear h hins hwf

end Up

/-! ## Every operation -/

/-- What every operation can rely on. -/
def HistoryVisited (w : Walk) : Prop :=
  ∃ hist, InOrder w.bar hist ∧ hist ⊆ w.visited

theorem historyVisited_start : HistoryVisited Walk.start :=
  ⟨[], ⟨rfl, List.not_mem_nil, by decide, rfl⟩, List.nil_subset _⟩

section Ops

variable {w : Walk} {hist : List QString}

theorem InOrder.items_length (h : InOrder w.bar hist) : 1 < w.bar.items.length ↔ hist ≠ [] := by
  rw [h.items, List.length_append, List.length_singleton, ← List.length_pos_iff]
  omega

theorem onSetHome_eq (b : DirNavBar) (path : QString) :
    b.onSetHome path = onNavToPath { b with homePath := path } path := rfl

theorem onNavToPath_inOrder {b : DirNavBar} (h : InOrder b hist) {path : QString}
    (hpath : path ≠ [] ∧ path ≠ clearText) :
    ∃ b', b.onNavToPath path = some b' ∧ InOrder b' (pushed hist path) := by
  obtain ⟨b', hins, h'⟩ := insertPath_inOrder h hpath.2
  refine ⟨b', ?_, h'⟩
  simp only [onNavToPath, ne_eq, hpath.1, not_false_eq_true, guard_true, Option.pure_def,
    Option.bind_eq_bind, Option.bind_some, hins]

theorem onNavToPath_allowed {b b' : DirNavBar} (h : InOrder b hist) {path : QString}
    (hnav : b.onNavToPath path = some b') (hwf : b'.WellFormed) : path ≠ [] ∧ path ≠ clearText := by
  simp only [onNavToPath, Option.bind_eq_bind, Option.bind_eq_some_iff] at hnav
  obtain ⟨_, hguard, hins⟩ := hnav
  refine ⟨?_, ?_⟩
  · by_contra hnil
    simp [hnil] at hguard
  · rintro rfl
    exact insertPath_clear h hins hwf

theorem InOrder.setHome {b : DirNavBar} (h : InOrder b hist) (path : QString) :
    InOrder { b with homePath := path } hist := ⟨h.items, h.once, h.count, h.pos⟩

theorem clear_inOrder {b : DirNavBar} (h : InOrder b hist) :
    InOrder (b.onComboBoxEditTextChanged clearText) [] := by
  unfold onComboBoxEditTextChanged
  rw [if_pos rfl]
  exact ⟨by simp [h.items], List.not_mem_nil, by decide, rfl⟩

theorem act_inOrder (h : InOrder w.bar hist) {op : Op} (hop : Allowed w op) :
    ∃ b emitted hist', w.bar.act op = some (b, emitted) ∧ InOrder b hist' ∧
      hist' ⊆ op.visits emitted ++ hist ∧
      (op = .goPrevious ∨ op = .goNext → ∀ path, emitted = some path → path ∈ hist) := by
  cases op with
  | setHome path =>
    obtain ⟨b, hnav, h'⟩ := onNavToPath_inOrder (h.setHome path) hop
    refine ⟨b, none, _, ?_, h', pushed_subset hist path, by simp⟩
    rw [act, onSetHome_eq, hnav, Option.map_some]
  | navToPath path =>
    obtain ⟨b, hnav, h'⟩ := onNavToPath_inOrder h hop
    refine ⟨b, none, _, ?_, h', pushed_subset hist path, by simp⟩
    rw [act, hnav, Option.map_some]
  | goPrevious =>
    obtain ⟨b, emitted, hgo, h', hmem⟩ := onGoPrevious_inOrder h (h.items_length.mp hop)
    exact ⟨b, emitted, hist, hgo, h', List.subset_append_right _ _, fun _ => hmem⟩
  | goNext =>
    obtain ⟨b, emitted, hgo, h', hmem⟩ := onGoNext_inOrder h (h.items_length.mp hop)
    exact ⟨b, emitted, hist, hgo, h', List.subset_append_right _ _, fun _ => hmem⟩
  | goUp =>
    obtain ⟨b, emitted, hist', hgo, h', hsub⟩ := onGoUp_inOrder h hop
    exact ⟨b, emitted, hist', hgo, h', hsub, by simp⟩
  | clear => exact ⟨_, none, [], rfl, clear_inOrder h, List.nil_subset _, by simp⟩

theorem keeps_iff (h : HistoryVisited w) (op : Op) : Keeps w op ↔ Allowed w op := by
  obtain ⟨hist, h, hvisited⟩ := h
  constructor
  · rintro ⟨b, emitted, hact, hwf, hemit⟩
    cases op with
    | setHome path =>
      rw [act, onSetHome_eq, Option.map_eq_some_iff] at hact
      obtain ⟨b', hnav, heq⟩ := hact
      obtain ⟨rfl, -⟩ := Prod.mk.inj heq
      exact onNavToPath_allowed (h.setHome path) hnav hwf
    | navToPath path =>
      rw [act, Option.map_eq_some_iff] at hact
      obtain ⟨b', hnav, heq⟩ := hact
      obtain ⟨rfl, -⟩ := Prod.mk.inj heq
      exact onNavToPath_allowed h hnav hwf
    | goPrevious =>
      apply h.items_length.mpr
      rintro rfl
      rw [act, onGoPrevious_empty h] at hact
      cases hact
    | goNext =>
      apply h.items_length.mpr
      rintro rfl
      obtain ⟨b', hgo⟩ := onGoNext_empty h
      rw [act, hgo, Option.some.injEq, Prod.mk.injEq] at hact
      exact (hemit (.inr rfl) clearText hact.2.symm).2 rfl
    | goUp => exact onGoUp_allowed h hact hwf
    | clear => trivial
  · intro hop
    obtain ⟨b, emitted, hist', hact, h', -, hmem⟩ := act_inOrder h hop
    refine ⟨b, emitted, hact, h'.wellFormed, fun hgo path hpath => ⟨hvisited (hmem hgo path hpath), ?_⟩⟩
    rintro rfl
    exact h.once (hmem hgo _ hpath)

theorem step_historyVisited (h : HistoryVisited w) {op : Op} (hop : Allowed w op) :
    ∃ w', step w op = some w' ∧ HistoryVisited w' := by
  obtain ⟨hist, h, hvisited⟩ := h
  obtain ⟨b, emitted, hist', hact, h', hsub, -⟩ := act_inOrder h hop
  refine ⟨⟨b, op.visits emitted ++ w.visited⟩, by rw [step, hact, Option.map_some], hist', h', ?_⟩
  intro x hx
  rcases List.mem_append.mp (hsub hx) with hx | hx
  · exact List.mem_append_left _ hx
  · exact List.mem_append_right _ (hvisited hx)

end Ops

theorem run_historyVisited {w : Walk} (h : HistoryVisited w) {ops : List Op}
    (hm : Meets step Allowed w ops) : ∃ w', run step w ops = some w' ∧ HistoryVisited w' := by
  induction ops generalizing w with
  | nil => exact ⟨w, rfl, h⟩
  | cons op ops ih =>
    obtain ⟨w₁, hstep, h₁⟩ := step_historyVisited h hm.1
    obtain ⟨w', hrun, h'⟩ := ih h₁ (hm.2 w₁ hstep)
    exact ⟨w', run_cons.mpr ⟨w₁, hstep, hrun⟩, h'⟩

/-- **When the history stays in order.** All operations of a sequence keep it in order just when each of
them has what it needs. Then the sequence comes to its end, and there the position itself, 255 without a
history, is in the range just when there is a history. -/
theorem history_inOrder (ops : List Op) :
    (Meets step Keeps Walk.start ops ↔ Meets step Allowed Walk.start ops) ∧
    (Meets step Allowed Walk.start ops → ∃ w, run step Walk.start ops = some w ∧ w.bar.WellFormed ∧
      ((w.bar.dirHistoryCurrentPos.toNat : Int) ≤ w.bar.items.length - 2 ↔
        1 < w.bar.items.length)) := by
  refine ⟨?_, ?_⟩
  · refine meets_congr HistoryVisited ?_ (fun w op h => keeps_iff h op) historyVisited_start ops
    intro w op w' h hop hstep
    obtain ⟨w₁, hstep₁, h₁⟩ := step_historyVisited h hop
    exact Option.some.inj (hstep₁.symm.trans hstep) ▸ h₁
  · intro hm
    obtain ⟨w, hrun, hist, h, -⟩ := run_historyVisited historyVisited_start hm
    refine ⟨w, hrun, h.wellFormed, ?_⟩
    have hpos := h.pos
    rw [h.items_length]
    rw [h.items, List.length_append, List.length_singleton]
    split at hpos
    · next hnil => simp [hpos, hnil]
    · next hne => simp only [hne, ne_eq, not_false_eq_true, iff_true]; omega

theorem onGoNext_emits_clear :
    (init.onGoNext.map Prod.snd) = some (some clearText) ∧ ¬ Meets step Keeps Walk.start [.goNext] := by
  -- "Next" on the box as it comes up emits the text of its last item.
  refine ⟨by decide, ?_⟩
  rintro ⟨⟨b, emitted, hact, -, hemit⟩, -⟩
  have hclear : emitted = some clearText := by
    have hsnd := congrArg (Option.map Prod.snd) hact
    exact Option.some.inj (hsnd.symm.trans (by decide))
  exact (hemit (.inr rfl) clearText hclear).2 rfl

end DirNavBar

end NullFxp
