import Mathlib.Data.List.Nodup
import NullFxp.Lib.Runs
import NullFxp.Transportor.Progress

/-!
# The task table

Every transfer has a row, and writes to it through the slots of the model. Each slot searches the row
by its id. The slot for the end of a transfer finds its row, and then writes two of its three cells to
row 0.
-/

open Runs

namespace NullFxp.TaskQueueModel

open Transportor (int)

/-! ## The table -/

/-- The columns 1 to 11. Column 0 is the id. -/
inductive Column where
  | fileName
  | destPath
  | fileSize
  | gotSize
  | gotPercent
  | eclapsedTime
  | leftTime
  | speed
  | status
  | startTime
  | finishTime
  deriving DecidableEq

/-- What is stored in a cell. -/
inductive Value where
  | null
  | num (n : Int)
  | text (s : QString)
  deriving DecidableEq

structure Task where
  id : Int
  cells : Column → Value

def Task.set (r : Task) (column : Column) (value : Value) : Task :=
  { r with cells := Function.update r.cells column value }

/-- The rows of the model, in their order. The id is the primary key. -/
structure Table where
  rows : List Task
  distinct : (rows.map Task.id).Nodup

theorem map_modify_of_eq {α β : Type*} {f : α → α} {g : α → β} (h : ∀ a, g (f a) = g a) (l : List α)
    (i : Nat) : (l.modify i f).map g = l.map g := by
  apply List.ext_getElem?
  intro j
  rw [List.getElem?_map, List.getElem?_modify, List.getElem?_map]
  cases l[j]? with
  | none => rfl
  | some a =>
    by_cases hij : i = j
    · simp [hij, h]
    · simp [hij]

namespace Table

/-- `setData(index(row, column), value)`, which does nothing when there is no such row. -/
def setData (t : Table) (row : Nat) (column : Column) (value : Value) : Table where
  rows := t.rows.modify row fun r => r.set column value
  distinct := by
    rw [map_modify_of_eq (f := fun r => Task.set r column value) (g := Task.id) fun _ => rfl]
    exact t.distinct

/-- The search of every slot, from the last row. -/
def findRow (t : Table) (modelId : Int) : Option Nat :=
  (List.range t.rows.length).reverse.find? fun row => (t.rows[row]?.map Task.id) = some modelId

/-- What all slots do: search the row, and write. -/
def atRow (t : Table) (modelId : Int) (write : Nat → Table → Table) : Table :=
  match t.findRow modelId with
  | some row => write row t
  | none => t

/-! ## The slots -/

/-- All numbers are `int` parameters. The dialog has the total as a `quint64`. -/
def slotSetTransferPercent (t : Table) (modelId percent totalTransfered speed : Int) : Table :=
  t.atRow modelId fun row t =>
    ((t.setData row .gotPercent (.num (int percent))).setData row .gotSize
      (.num (int totalTransfered))).setData row .speed (.num (int speed))

/-- `now` is `QDateTime::currentDateTime().toString()`. The row that was found gets the time only. -/
def slotTransferThreadFinished (t : Table) (modelId : Int) (now : QString) : Table :=
  t.atRow modelId fun row t =>
    ((t.setData row .finishTime (.text now)).setData 0 .status (.text "Finished".toList)).setData 0
      .leftTime (.text "00:00:00".toList)

def slotTransferGotFileSize (t : Table) (modelId size : Int) : Table :=
  t.atRow modelId fun row t => t.setData row .fileSize (.num (int size))

def slotTransferTimeUpdate (t : Table) (modelId : Int) (eclapsedTime leftTime : QString) : Table :=
  t.atRow modelId fun row t =>
    (t.setData row .eclapsedTime (.text eclapsedTime)).setData row .leftTime (.text leftTime)

end Table

/-- A call of a slot. -/
inductive Call where
  | transferGotFileSize (modelId : Int) (size : Nat)
  | setTransferPercent (modelId percent : Int) (totalTransfered : Nat) (speed : Int)
  | transferTimeUpdate (modelId : Int) (eclapsedTime leftTime : QString)
  | transferThreadFinished (modelId : Int) (now : QString)

def Call.modelId : Call → Int
  | .transferGotFileSize id _ => id
  | .setTransferPercent id _ _ _ => id
  | .transferTimeUpdate id _ _ => id
  | .transferThreadFinished id _ => id

def Table.call (t : Table) : Call → Table
  | .transferGotFileSize id size => t.slotTransferGotFileSize id size
  | .setTransferPercent id percent total speed => t.slotSetTransferPercent id percent total speed
  | .transferTimeUpdate id eclapsed left => t.slotTransferTimeUpdate id eclapsed left
  | .transferThreadFinished id now => t.slotTransferThreadFinished id now

def step (t : Table) (c : Call) : Option Table := some (t.call c)

/-! ## What a call is for -/

abbrev finished : Value := .text "Finished".toList

def Call.IsFinish : Call → Prop
  | .transferThreadFinished _ _ => True
  | _ => False

instance : DecidablePred Call.IsFinish
  | .transferThreadFinished _ _ => .isTrue trivial
  | .transferGotFileSize _ _ => .isFalse id
  | .setTransferPercent _ _ _ _ => .isFalse id
  | .transferTimeUpdate _ _ _ => .isFalse id

/-- The size or total of a call, and the column that it is for. -/
def Call.figure : Call → Option (Column × Nat)
  | .transferGotFileSize _ size => some (.fileSize, size)
  | .setTransferPercent _ _ total _ => some (.gotSize, total)
  | _ => none

/-- A call changes the row of its own id only, sets the status just when the transfer is finished, and
stores the figures below 2^63 as they are. -/
structure UpdatesOwn (t : Table) (c : Call) (t' : Table) : Prop where
  ids : t'.rows.map Task.id = t.rows.map Task.id
  others : ∀ (i : Nat) r, t.rows[i]? = some r → r.id ≠ c.modelId → t'.rows[i]? = some r
  status : ∀ (i : Nat) r r', t.rows[i]? = some r → t'.rows[i]? = some r' → r.id = c.modelId →
    r'.cells .status = if c.IsFinish then finished else r.cells .status
  figure : ∀ (i : Nat) r', t'.rows[i]? = some r' → r'.id = c.modelId → ∀ column n,
    c.figure = some (column, n) → n < 0x8000000000000000 → r'.cells column = .num n

/-- A figure that an `int` can hold, or one that nothing is said of. -/
def Fits (n : Nat) : Prop := n < 0x80000000 ∨ 0x8000000000000000 ≤ n

/-- Row 0 looks as if its transfer had finished, and so does the row `r`. -/
def FinishedAlready (t : Table) (r : Task) : Prop :=
  r.cells .status = finished ∧ ∀ r₀, t.rows[0]? = some r₀ →
    r₀.cells .status = finished ∧ r₀.cells .leftTime = .text "00:00:00".toList

/-- When a call is harmless: there is no row of its id; or its figure fits; or the finished
transfer is the one of row 0. -/
def Harmless (t : Table) : Call → Prop
  | .transferGotFileSize id size => (∃ r ∈ t.rows, r.id = id) → Fits size
  | .setTransferPercent id _ total _ => (∃ r ∈ t.rows, r.id = id) → Fits total
  | .transferTimeUpdate _ _ _ => True
  | .transferThreadFinished id _ =>
    ∀ (i : Nat) r, t.rows[i]? = some r → r.id = id → i = 0 ∨ FinishedAlready t r

/-! ## The search -/

section Search

variable {t : Table} {modelId : Int} {k : Nat} {r : Task}

theorem Table.row_unique (hr : t.rows[k]? = some r) {i : Nat} {r' : Task} (hr' : t.rows[i]? = some r')
    (h : r'.id = r.id) : i = k := by
  have hi : (t.rows.map Task.id)[i]? = some r.id := by simp [hr', h]
  have hk : (t.rows.map Task.id)[k]? = some r.id := by simp [hr]
  obtain ⟨hil, hix⟩ := List.getElem?_eq_some_iff.mp hi
  obtain ⟨hkl, hkx⟩ := List.getElem?_eq_some_iff.mp hk
  exact t.distinct.getElem_inj_iff.mp (hix.trans hkx.symm)

theorem atRow_none (h : ∀ r ∈ t.rows, r.id ≠ modelId) (write : Nat → Table → Table) :
    t.atRow modelId write = t := by
  have hnone : t.findRow modelId = none := by
    unfold Table.findRow
    rw [List.find?_eq_none]
    intro row _
    cases hrow : t.rows[row]? with
    | none => simp
    | some r => simpa using h r (List.mem_of_getElem? hrow)
  rw [Table.atRow, hnone]

theorem atRow_some (hr : t.rows[k]? = some r) (hid : r.id = modelId) (write : Nat → Table → Table) :
    t.atRow modelId write = write k t := by
  have hfound : t.findRow modelId = some k := by
    have hmem : k ∈ (List.range t.rows.length).reverse := by
      simpa using (List.getElem?_eq_some_iff.mp hr).1
    cases hfind : t.findRow modelId with
    | none =>
      have := List.find?_eq_none.mp hfind k hmem
      simp [hr, hid] at this
    | some i =>
      have hi : t.rows[i]?.map Task.id = some modelId := by simpa using List.find?_some hfind
      obtain ⟨r', hr', hid'⟩ := Option.map_eq_some_iff.mp hi
      rw [t.row_unique hr hr' (hid'.trans hid.symm)]
  rw [Table.atRow, hfound]

theorem setData_rows (row : Nat) (column : Column) (value : Value) (i : Nat) :
    (t.setData row column value).rows[i]? =
      if row = i then t.rows[i]?.map fun r => r.set column value else t.rows[i]? := by
  unfold Table.setData
  rw [List.getElem?_modify]
  split <;> simp

theorem Task.set_self {column : Column} {value : Value} (h : r.cells column = value) :
    r.set column value = r := by
  unfold Task.set
  rw [← h, Function.update_eq_self]

end Search

/-! ## The calls that write to their own row -/

section Own

variable {t t' : Table} {c : Call} {k : Nat} {r : Task}

theorem updatesOwn_iff (r' : Task) (hr : t.rows[k]? = some r) (hid : r.id = c.modelId)
    (hid' : r'.id = r.id) (h : ∀ i : Nat, t'.rows[i]? = if i = k then some r' else t.rows[i]?) :
    UpdatesOwn t c t' ↔
      r'.cells .status = (if c.IsFinish then finished else r.cells .status) ∧
      ∀ column n, c.figure = some (column, n) → n < 0x8000000000000000 → r'.cells column = .num n := by
  have hk : t'.rows[k]? = some r' := by rw [h k, if_pos rfl]
  constructor
  · intro hown
    exact ⟨hown.status k r r' hr hk hid, hown.figure k r' hk (hid'.trans hid)⟩
  · rintro ⟨hstatus, hfigure⟩
    refine ⟨?_, ?_, ?_, ?_⟩
    · apply List.ext_getElem?
      intro i
      rw [List.getElem?_map, List.getElem?_map, h i]
      by_cases hik : i = k
      · rw [if_pos hik, hik, hr, Option.map_some, Option.map_some, hid']
      · rw [if_neg hik]
    · intro i s hs hne
      rw [h i, if_neg, hs]
      rintro rfl
      obtain rfl := Option.some.inj (hr.symm.trans hs)
      exact hne hid
    · intro i s s' hs hs' hsid
      obtain rfl := t.row_unique hr hs (hsid.trans hid.symm)
      obtain rfl := Option.some.inj (hr.symm.trans hs)
      obtain rfl := Option.some.inj (hk.symm.trans hs')
      exact hstatus
    · intro i s' hs' hsid column n hcol hn
      rw [h i] at hs'
      by_cases hik : i = k
      · rw [if_pos hik] at hs'
        obtain rfl := Option.some.inj hs'
        exact hfigure column n hcol hn
      · rw [if_neg hik] at hs'
        exact absurd (t.row_unique hr hs' (hsid.trans hid.symm)) hik

theorem updatesOwn_none (h : ∀ r ∈ t.rows, r.id ≠ c.modelId) : UpdatesOwn t c t := by
  refine ⟨rfl, fun _ _ hr _ => hr, ?_, ?_⟩
  · intro i r r' hr _ hid
    exact absurd hid (h r (List.mem_of_getElem? hr))
  · intro i r hr hid
    exact absurd hid (h r (List.mem_of_getElem? hr))

end Own

theorem num_int_iff (n : Nat) :
    (n < 0x8000000000000000 → Value.num (int n) = .num n) ↔ Fits n := by
  unfold Fits int
  simp only [Value.num.injEq]
  omega

section Calls

variable {t : Table} {k : Nat} {r : Task}

theorem call_none {c : Call} (h : ∀ r ∈ t.rows, r.id ≠ c.modelId) : t.call c = t := by
  unfold Table.call
  cases c with
  | transferGotFileSize => exact atRow_none h _
  | setTransferPercent => exact atRow_none h _
  | transferTimeUpdate => exact atRow_none h _
  | transferThreadFinished => exact atRow_none h _

theorem gotFileSize_iff (hr : t.rows[k]? = some r) (size : Nat) :
    UpdatesOwn t (.transferGotFileSize r.id size) (t.call (.transferGotFileSize r.id size)) ↔
      Fits size := by
  have hcall : t.call (.transferGotFileSize r.id size) = t.setData k .fileSize (.num (int size)) := by
    rw [Table.call, Table.slotTransferGotFileSize, atRow_some hr rfl]
  rw [updatesOwn_iff (r.set .fileSize (.num (int size))) hr rfl rfl, ← num_int_iff]
  · simp [Task.set, Call.IsFinish, Call.figure]
  · intro i
    rw [hcall, setData_rows]
    by_cases hik : i = k
    · rw [if_pos hik.symm, if_pos hik, hik, hr, Option.map_some]
    · rw [if_neg (Ne.symm hik), if_neg hik]

theorem setTransferPercent_iff (hr : t.rows[k]? = some r) (percent : Int) (total : Nat) (speed : Int) :
    UpdatesOwn t (.setTransferPercent r.id percent total speed)
      (t.call (.setTransferPercent r.id percent total speed)) ↔ Fits total := by
  have hcall : t.call (.setTransferPercent r.id percent total speed) =
      ((t.setData k .gotPercent (.num (int percent))).setData k .gotSize (.num (int total))).setData k
        .speed (.num (int speed)) := by
    rw [Table.call, Table.slotSetTransferPercent, atRow_some hr rfl]
  rw [updatesOwn_iff (((r.set .gotPercent (.num (int percent))).set .gotSize
    (.num (int total))).set .speed (.num (int speed))) hr rfl rfl, ← num_int_iff]
  · simp [Task.set, Call.IsFinish, Call.figure]
  · intro i
    rw [hcall, setData_rows, setData_rows, setData_rows]
    by_cases hik : i = k
    · simp only [if_pos hik.symm, if_pos hik]
      rw [hik, hr]
      rfl
    · rw [if_neg (Ne.symm hik), if_neg (Ne.symm hik), if_neg (Ne.symm hik), if_neg hik]

theorem timeUpdate_updatesOwn (hr : t.rows[k]? = some r) (eclapsed left : QString) :
    UpdatesOwn t (.transferTimeUpdate r.id eclapsed left)
      (t.call (.transferTimeUpdate r.id eclapsed left)) := by
  have hcall : t.call (.transferTimeUpdate r.id eclapsed left) =
      (t.setData k .eclapsedTime (.text eclapsed)).setData k .leftTime (.text left) := by
    rw [Table.call, Table.slotTransferTimeUpdate, atRow_some hr rfl]
  rw [updatesOwn_iff ((r.set .eclapsedTime (.text eclapsed)).set .leftTime (.text left)) hr rfl
    rfl]
  · simp [Task.set, Call.IsFinish, Call.figure]
  · intro i
    rw [hcall, setData_rows, setData_rows]
    by_cases hik : i = k
    · simp only [if_pos hik.symm, if_pos hik]
      rw [hik, hr]
      rfl
    · rw [if_neg (Ne.symm hik), if_neg (Ne.symm hik), if_neg hik]

/-- The row that looks finished after a call of `slot_transfer_thread_finished`. -/
def Task.finish (r : Task) : Task := (r.set .status finished).set .leftTime (.text "00:00:00".toList)

theorem finished_rows (hr : t.rows[k]? = some r) (now : QString) (i : Nat) :
    (t.call (.transferThreadFinished r.id now)).rows[i]? =
      (t.rows[i]?.map fun s => if i = k then s.set .finishTime (.text now) else s).map fun s =>
        if i = 0 then s.finish else s := by
  have hcall : t.call (.transferThreadFinished r.id now) =
      ((t.setData k .finishTime (.text now)).setData 0 .status finished).setData 0 .leftTime
        (.text "00:00:00".toList) := by
    rw [Table.call, Table.slotTransferThreadFinished, atRow_some hr rfl]
  rw [hcall, setData_rows, setData_rows, setData_rows]
  cases t.rows[i]? with
  | none => simp only [Option.map_none, ite_self]
  | some s =>
    simp only [eq_comm (a := i)]
    by_cases hi : 0 = i
    · simp only [if_pos hi, Option.map_some]
      split <;> rfl
    · simp only [if_neg hi, Option.map_some]
      split <;> rfl

theorem finish_eq_self_iff {s : Task} :
    s.finish = s ↔ s.cells .status = finished ∧ s.cells .leftTime = .text "00:00:00".toList := by
  constructor
  · intro h
    rw [← h]
    simp [Task.finish, Task.set]
  · rintro ⟨hstatus, hleft⟩
    rw [Task.finish, Task.set_self hstatus, Task.set_self hleft]

theorem threadFinished_iff (hr : t.rows[k]? = some r) (now : QString) :
    UpdatesOwn t (.transferThreadFinished r.id now) (t.call (.transferThreadFinished r.id now)) ↔
      k = 0 ∨ FinishedAlready t r := by
  have hrows := finished_rows hr now
  rcases Nat.eq_zero_or_pos k with rfl | hk
  · refine iff_of_true ?_ (.inl rfl)
    rw [updatesOwn_iff ((r.set .finishTime (.text now)).finish) hr rfl rfl]
    · simp [Task.finish, Task.set, Call.IsFinish, Call.figure]
    · intro i
      rw [hrows i]
      by_cases hi : i = 0
      · simp only [hi, if_true, hr, Option.map_some]
      · simp only [hi, if_false, Option.map_id']
  · have hlen := (List.getElem?_eq_some_iff.mp hr).1
    have h0 : t.rows[0]? = some (t.rows[0]) := List.getElem?_eq_getElem (by omega)
    have hother : (t.rows[0]).id ≠ r.id := by
      intro hid
      have := t.row_unique hr h0 hid
      omega
    -- row 0 looks finished, the row of the call has the time
    have hrow0 : (t.call (.transferThreadFinished r.id now)).rows[0]? = some (t.rows[0]).finish := by
      rw [hrows 0, h0]
      simp only [Option.map_some, if_neg hk.ne, if_true]
    have hrowk : (t.call (.transferThreadFinished r.id now)).rows[k]? =
        some (r.set .finishTime (.text now)) := by
      rw [hrows k, hr]
      simp only [Option.map_some, if_neg hk.ne', if_true]
    have hready : FinishedAlready t r ↔
        r.cells .status = finished ∧ (t.rows[0]).finish = t.rows[0] := by
      unfold FinishedAlready
      rw [h0, finish_eq_self_iff]
      simp
    rw [hready]
    constructor
    · intro hown
      right
      constructor
      · have hstatus := hown.status k r _ hr hrowk rfl
        simpa [Task.set, Call.IsFinish] using hstatus
      · have hsame := hown.others 0 _ h0 hother
        exact Option.some.inj (hrow0.symm.trans hsame)
    · intro h
      obtain ⟨hstatus, hsame⟩ := h.resolve_left hk.ne'
      rw [updatesOwn_iff (r.set .finishTime (.text now)) hr rfl rfl]
      · simp [Task.set, Call.IsFinish, Call.figure, hstatus]
      · intro i
        by_cases hik : i = k
        · rw [if_pos hik, hik, hrowk]
        · rw [if_neg hik]
          by_cases hi : i = 0
          · rw [hi, hrow0, hsame, h0]
          · rw [hrows i]
            simp only [hik, hi, if_false, Option.map_id']

/-- **When a call updates its own row only.** -/
theorem call_updatesOwn_iff (t : Table) (c : Call) : UpdatesOwn t c (t.call c) ↔ Harmless t c := by
  by_cases hrow : ∃ r ∈ t.rows, r.id = c.modelId
  · obtain ⟨r, hmem, hid⟩ := hrow
    obtain ⟨k, hr⟩ := List.getElem?_of_mem hmem
    unfold Harmless
    cases c with
    | transferGotFileSize id size =>
      obtain rfl : r.id = id := hid
      rw [gotFileSize_iff hr]
      exact ⟨fun h _ => h, fun h => h ⟨r, hmem, rfl⟩⟩
    | setTransferPercent id percent total speed =>
      obtain rfl : r.id = id := hid
      rw [setTransferPercent_iff hr]
      exact ⟨fun h _ => h, fun h => h ⟨r, hmem, rfl⟩⟩
    | transferTimeUpdate id eclapsed left =>
      obtain rfl : r.id = id := hid
      exact iff_of_true (timeUpdate_updatesOwn hr eclapsed left) trivial
    | transferThreadFinished id now =>
      obtain rfl : r.id = id := hid
      rw [threadFinished_iff hr]
      constructor
      · intro h i s hs hsid
        obtain rfl := t.row_unique hr hs hsid
        obtain rfl := Option.some.inj (hr.symm.trans hs)
        exact h
      · intro h
        exact h k r hr rfl
  · push Not at hrow
    rw [call_none hrow]
    refine iff_of_true (updatesOwn_none hrow) ?_
    unfold Harmless
    cases c with
    | transferGotFileSize id size =>
      rintro ⟨r, hmem, hid⟩
      exact absurd hid (hrow r hmem)
    | setTransferPercent id percent total speed =>
      rintro ⟨r, hmem, hid⟩
      exact absurd hid (hrow r hmem)
    | transferTimeUpdate id eclapsed left => trivial
    | transferThreadFinished id now =>
      intro i r hr hid
      exact absurd hid (hrow r (List.mem_of_getElem? hr))

end Calls

/-! ## All calls -/

theorem isFinish_iff (c : Call) (id : Int) :
    c.IsFinish ∧ c.modelId = id ↔ ∃ now, .transferThreadFinished id now = c := by
  cases c with
  | transferThreadFinished id' now => simp [Call.IsFinish, Call.modelId, eq_comm]
  | transferGotFileSize => simp [Call.IsFinish]
  | setTransferPercent => simp [Call.IsFinish]
  | transferTimeUpdate => simp [Call.IsFinish]

theorem UpdatesOwn.row {t t' : Table} {c : Call} (h : UpdatesOwn t c t') {i : Nat} {r : Task}
    (hr : t.rows[i]? = some r) :
    ∃ r', t'.rows[i]? = some r' ∧ r'.id = r.id ∧
      (r'.cells .status = finished ↔
        r.cells .status = finished ∨ ∃ now, .transferThreadFinished r.id now = c) ∧
      (c.modelId ≠ r.id → r' = r) := by
  rw [← isFinish_iff]
  by_cases hid : r.id = c.modelId
  · have hids := congrArg (fun l => l[i]?) h.ids
    simp only [List.getElem?_map, hr, Option.map_some, Option.map_eq_some_iff] at hids
    obtain ⟨r', hr', hid'⟩ := hids
    refine ⟨r', hr', hid', ?_, fun hne => absurd hid.symm hne⟩
    rw [h.status i r r' hr hr' hid]
    by_cases hfin : c.IsFinish
    · simp [hfin, hid]
    · simp [hfin]
  · refine ⟨r, h.others i r hr hid, rfl, ?_, fun _ => rfl⟩
    simp [Ne.symm hid]

theorem run_row {t : Table} {calls : List Call} (h : Meets step Harmless t calls) :
    ∃ t', run step t calls = some t' ∧ ∀ (i : Nat) r, t.rows[i]? = some r →
      ∃ r', t'.rows[i]? = some r' ∧ r'.id = r.id ∧
        (r'.cells .status = finished ↔
          r.cells .status = finished ∨ ∃ now, .transferThreadFinished r.id now ∈ calls) ∧
        ((∀ c ∈ calls, c.modelId ≠ r.id) → r' = r) := by
  induction calls generalizing t with
  | nil => exact ⟨t, rfl, fun i r hr => ⟨r, hr, rfl, by simp, fun _ => rfl⟩⟩
  | cons c calls ih =>
    have hown := (call_updatesOwn_iff t c).mpr h.1
    obtain ⟨t', hrun, hrows⟩ := ih (h.2 (t.call c) rfl)
    refine ⟨t', run_cons.mpr ⟨t.call c, rfl, hrun⟩, ?_⟩
    intro i r hr
    obtain ⟨r₁, hr₁, hid₁, hstatus₁, hsame₁⟩ := hown.row hr
    obtain ⟨r', hr', hid, hstatus, hsame⟩ := hrows i r₁ hr₁
    refine ⟨r', hr', hid.trans hid₁, ?_, ?_⟩
    · rw [hstatus, hstatus₁, hid₁]
      simp only [List.mem_cons, exists_or, or_assoc]
    · intro hne
      rw [hsame fun c' hc' => hid₁ ▸ hne c' (by simp [hc']), hsame₁ (hne c (by simp))]

/-- **When concurrent transfers update only their own rows.** In a run of harmless calls a row becomes
finished just when its own transfer has, and a row that no call is for stays as it is. -/
theorem calls_updateOwn (t : Table) (calls : List Call) :
    (Meets step (fun t c => UpdatesOwn t c (t.call c)) t calls ↔ Meets step Harmless t calls) ∧
    (Meets step Harmless t calls → ∃ t', run step t calls = some t' ∧
      ∀ (i : Nat) r, t.rows[i]? = some r → ∃ r', t'.rows[i]? = some r' ∧ r'.id = r.id ∧
        (r'.cells .status = finished ↔
          r.cells .status = finished ∨ ∃ now, .transferThreadFinished r.id now ∈ calls) ∧
        ((∀ c ∈ calls, c.modelId ≠ r.id) → r' = r)) := by
  refine ⟨?_, run_row⟩
  exact meets_congr (fun _ => True) (fun _ _ _ _ _ _ => trivial) (fun t c _ => call_updatesOwn_iff t c)
    trivial calls

/-- Two running transfers. -/
def twoTasks : Table where
  rows := [⟨1, fun _ => .text "Running".toList⟩, ⟨2, fun _ => .text "Running".toList⟩]
  distinct := by decide

theorem finished_wrong_row :
    ((twoTasks.call (.transferThreadFinished 2 "now".toList)).rows.map fun r =>
      r.cells .status) = [finished, .text "Running".toList] ∧
    ¬ Meets step (fun t c => UpdatesOwn t c (t.call c)) twoTasks
      [.transferThreadFinished 2 "now".toList] := by
  -- The second transfer ends: the first row is called finished, and its own goes on running.
  refine ⟨by decide, ?_⟩
  rintro ⟨h, -⟩
  have hrow := h.others 0 ⟨1, fun _ => .text "Running".toList⟩ rfl (by decide)
  have hstatus := congrArg (Option.map fun r => r.cells .status) hrow
  revert hstatus
  decide

end NullFxp.TaskQueueModel
